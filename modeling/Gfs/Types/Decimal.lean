import Gfs.Types.Basic

/-! Decimal numbers in bytes: reading back what was written. -/

namespace Gfs.Types

/-- An ASCII digit. -/
def isDigit (b : UInt8) : Bool :=
  48 ≤ b && b ≤ 57

/-- The value of a string of digits. -/
def digitsValue (digits : Bytes) : Nat :=
  digits.foldl (fun value b => value * 10 + (b.toNat - 48)) 0

/-- The number a byte string begins with, and what follows it. -/
def readNumber (bytes : Bytes) : Option (Nat × Bytes) :=
  let digits := bytes.takeWhile isDigit
  if digits = [] then none else some (digitsValue digits, bytes.dropWhile isDigit)

theorem isDigit_of_char {digit : Char} (isDigit_ : digit.isDigit = true)
    : isDigit digit.toNat.toUInt8 = true ∧ (digit.toNat.toUInt8).toNat = digit.toNat := by
  have bounds : 48 ≤ digit.toNat ∧ digit.toNat ≤ 57 := by
    simp only [Char.isDigit, ge_iff_le, Bool.and_eq_true, decide_eq_true_eq] at isDigit_
    exact ⟨isDigit_.1, isDigit_.2⟩
  have value : (digit.toNat.toUInt8).toNat = digit.toNat := by
    change digit.toNat % 256 = digit.toNat
    omega
  refine ⟨?_, value⟩
  simp only [isDigit, Bool.and_eq_true, decide_eq_true_eq, UInt8.le_iff_toNat_le, value]
  exact bounds

theorem isDigit_of_mem_decimal {n : Nat} {b : UInt8} (member : b ∈ decimal n)
    : isDigit b = true := by
  obtain ⟨digit, listed, rfl⟩ := List.mem_map.mp member
  exact (isDigit_of_char (Nat.isDigit_of_mem_toDigits (by decide) (by decide) listed)).1

theorem decimal_ne_nil (n : Nat) : decimal n ≠ [] := by
  rw [decimal, ne_eq, List.map_eq_nil_iff]
  exact Nat.toDigits_ne_nil

theorem digitsValue_decimal (n : Nat) : digitsValue (decimal n) = n := by
  have run
      : ∀ (digits : List Char) (init : Nat),
          (∀ digit ∈ digits, digit.isDigit = true)
          → (digits.map (fun digit => digit.toNat.toUInt8)).foldl
              (fun value b => value * 10 + (b.toNat - 48)) init
            = Nat.ofDigitChars 10 digits init := by
    intro digits
    induction digits with
    | nil => exact fun _ _ => rfl
    | cons digit rest ih =>
        intro init all
        rw [List.map_cons, List.foldl_cons, Nat.ofDigitChars_cons,
          ih _ (fun other member => all other (List.mem_cons_of_mem _ member)),
          (isDigit_of_char (all digit List.mem_cons_self)).2, Nat.mul_comm]
        rfl
  rw [digitsValue, decimal, run, Nat.ofDigitChars_ten_toDigits]
  exact fun digit listed => Nat.isDigit_of_mem_toDigits (by decide) (by decide) listed

theorem readNumber_decimal (n : Nat) {b : UInt8} (other : isDigit b = false) (rest : Bytes)
    : readNumber (decimal n ++ b :: rest) = some (n, b :: rest) := by
  have digits : (decimal n ++ b :: rest).takeWhile isDigit = decimal n := by
    rw [List.takeWhile_append_of_pos (fun _ member => isDigit_of_mem_decimal member),
      List.takeWhile_cons_of_neg (by rw [other]; exact Bool.false_ne_true), List.append_nil]
  have left : (decimal n ++ b :: rest).dropWhile isDigit = b :: rest := by
    rw [List.dropWhile_append_of_pos (fun _ member => isDigit_of_mem_decimal member),
      List.dropWhile_cons_of_neg (by rw [other]; exact Bool.false_ne_true)]
  simp only [readNumber, digits, left, decimal_ne_nil, if_false, digitsValue_decimal]

end Gfs.Types
