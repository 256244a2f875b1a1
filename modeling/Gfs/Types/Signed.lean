import Gfs.Types.Text

/-! Signed and unsigned integers of a machine width (Rust's `as` between two of one width,
`Display` and `str::parse`).
-/

namespace Gfs.Types

/-- `as i64` of a `u64`: the number of the same bits. -/
def asI64 (value : Nat) : Int :=
  if value < 2 ^ 63 then value else value - 2 ^ 64

/-- `as u64` of an `i64`. -/
def asU64 (value : Int) : Nat :=
  (value % 2 ^ 64).toNat

/-- `as u32` of an `i64`. -/
def asU32 (value : Int) : Nat :=
  (value % 2 ^ 32).toNat

theorem asU64_asI64 {value : Nat} (fits : value < 2 ^ 64) : asU64 (asI64 value) = value := by
  rw [asU64, asI64]
  split
  · omega
  · omega

theorem asU32_cast {value : Nat} (fits : value < 2 ^ 32) : asU32 value = value := by
  rw [asU32]
  omega

-- Text

/-- `Display` of an integer. -/
def displayInt (value : Int) : Text :=
  if value < 0 then '-' :: Nat.toDigits 10 value.natAbs else Nat.toDigits 10 value.toNat

/-- The number a text of digits is. -/
def parseDigits (text : Text) : Option Nat :=
  if text = [] then none
  else if !text.all Char.isDigit then none
  else some (Nat.ofDigitChars 10 text 0)

/-- `str::parse` of an unsigned integer, which may have a plus sign in front. -/
def parseUnsigned (bits : Nat) (text : Text) : Option Nat := do
  let value ← parseDigits (if text.head? = some '+' then text.tail else text)
  if value < 2 ^ bits then some value else none

/-- `str::parse` of a signed integer, which may have either sign in front. -/
def parseSigned (bits : Nat) (text : Text) : Option Int :=
  if text.head? = some '-' then do
    let value ← parseDigits text.tail
    if value ≤ 2 ^ (bits - 1) then some (-value) else none
  else do
    let value ← parseUnsigned (bits - 1) text
    some value

theorem isDigit_of_mem_toDigits {value : Nat} {c : Char} (member : c ∈ Nat.toDigits 10 value)
    : c.isDigit = true :=
  Nat.isDigit_of_mem_toDigits (by decide) (by decide) member

theorem head_toDigits_ne (value : Nat) {sign : Char} (noDigit : sign.isDigit = false)
    : (Nat.toDigits 10 value).head? ≠ some sign := by
  intro signed
  have digit := isDigit_of_mem_toDigits (List.mem_of_head? signed)
  rw [noDigit] at digit
  exact Bool.false_ne_true digit

theorem parseDigits_toDigits (value : Nat)
    : parseDigits (Nat.toDigits 10 value) = some value := by
  have digits : (Nat.toDigits 10 value).all Char.isDigit = true :=
    List.all_eq_true.mpr (fun _ member => isDigit_of_mem_toDigits member)
  rw [parseDigits, if_neg Nat.toDigits_ne_nil, digits, if_neg (by decide),
    Nat.ofDigitChars_ten_toDigits]

theorem parseUnsigned_toDigits {bits value : Nat} (fits : value < 2 ^ bits)
    : parseUnsigned bits (Nat.toDigits 10 value) = some value := by
  rw [parseUnsigned, if_neg (head_toDigits_ne value (by decide)), parseDigits_toDigits]
  exact if_pos fits

theorem parseSigned_displayInt {bits : Nat} {value : Int} (low : -2 ^ (bits - 1) ≤ value)
    (high : value < 2 ^ (bits - 1))
    : parseSigned bits (displayInt value) = some value := by
  have width : ((2 ^ (bits - 1) : Nat) : Int) = 2 ^ (bits - 1) := by push_cast; rfl
  rw [parseSigned, displayInt]
  split
  · rename_i negative
    rw [List.head?_cons, if_pos rfl, List.tail_cons, parseDigits_toDigits]
    change (if value.natAbs ≤ 2 ^ (bits - 1) then some (-(value.natAbs : Int)) else none) = _
    rw [if_pos (by omega), show -(value.natAbs : Int) = value by omega]
  · rename_i nonneg
    rw [if_neg (head_toDigits_ne _ (by decide)), parseUnsigned_toDigits (by omega)]
    change some ((value.toNat : Nat) : Int) = _
    rw [show ((value.toNat : Nat) : Int) = value by omega]

theorem notMem_displayInt (value : Int) {c : Char} (noSign : c ≠ '-')
    (noDigit : c.isDigit = false)
    : c ∉ displayInt value := by
  have clean (value : Nat) : c ∉ Nat.toDigits 10 value := by
    intro member
    rw [isDigit_of_mem_toDigits member] at noDigit
    cases noDigit
  rw [displayInt]
  split
  · rw [List.mem_cons, not_or]
    exact ⟨noSign, clean _⟩
  · exact clean _

end Gfs.Types
