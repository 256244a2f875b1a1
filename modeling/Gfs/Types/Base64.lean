import Gfs.Types.Path
import Gfs.Types.Text

/-! Unpadded base64url (`gfs-types/src/path.rs`), with what its decoder accepts besides the
encoder's output: padding, and any value in the unused bits of a last group.
-/

namespace Gfs.Types

/-- The alphabet. -/
def b64Symbols : Text :=
  "ABCDEFGHIJKLMNOPQRSTUVWXYZabcdefghijklmnopqrstuvwxyz0123456789-_".toList

/-- The character of six bits. -/
def b64Symbol (bits : Nat) : Char :=
  b64Symbols.getD (bits % 64) 'A'

/-- A group of three bytes as one number. -/
def b64Group (first second third : UInt8) : Nat :=
  first.toNat * 2 ^ 16 + second.toNat * 2 ^ 8 + third.toNat

def b64urlEncode : Bytes → Text
  | [] => []
  | [a] =>
      let n := b64Group a 0 0
      [b64Symbol (n / 2 ^ 18), b64Symbol (n / 2 ^ 12)]
  | [a, b] =>
      let n := b64Group a b 0
      [b64Symbol (n / 2 ^ 18), b64Symbol (n / 2 ^ 12), b64Symbol (n / 2 ^ 6)]
  | a :: b :: c :: rest =>
      let n := b64Group a b c
      b64Symbol (n / 2 ^ 18) :: b64Symbol (n / 2 ^ 12) :: b64Symbol (n / 2 ^ 6)
      :: b64Symbol n :: b64urlEncode rest

/-- The six bits of a character. -/
def b64Val (c : Char) : Option Nat :=
  let n := c.toNat
  if 65 ≤ n ∧ n ≤ 90 then some (n - 65)
  else if 97 ≤ n ∧ n ≤ 122 then some (n - 97 + 26)
  else if 48 ≤ n ∧ n ≤ 57 then some (n - 48 + 52)
  else if n = 45 then some 62
  else if n = 95 then some 63
  else none

/-- Decode the groups of four characters. A one-character group was truncated. -/
def b64DecodeGroups : Text → Option Bytes
  | [] => some []
  | [_] => none
  | [a, b] => do
      let a ← b64Val a
      let b ← b64Val b
      let n := a * 2 ^ 18 + b * 2 ^ 12
      return [(n / 2 ^ 16).toUInt8]
  | [a, b, c] => do
      let a ← b64Val a
      let b ← b64Val b
      let c ← b64Val c
      let n := a * 2 ^ 18 + b * 2 ^ 12 + c * 2 ^ 6
      return [(n / 2 ^ 16).toUInt8, (n / 2 ^ 8).toUInt8]
  | a :: b :: c :: d :: rest => do
      let a ← b64Val a
      let b ← b64Val b
      let c ← b64Val c
      let d ← b64Val d
      let n := a * 2 ^ 18 + b * 2 ^ 12 + c * 2 ^ 6 + d
      let bytes ← b64DecodeGroups rest
      return (n / 2 ^ 16).toUInt8 :: (n / 2 ^ 8).toUInt8 :: n.toUInt8 :: bytes

/-- Decode, with padding accepted. -/
def b64urlDecode (text : Text) : Option Bytes :=
  b64DecodeGroups (text.rdropWhile (· = '='))

/-- The bits of the last group that no byte takes are zero. -/
def unusedBitsZero : Text → Bool
  | [_, b] => (b64Val b).all (· % 16 = 0)
  | [_, _, c] => (b64Val c).all (· % 4 = 0)
  | _ :: _ :: _ :: _ :: rest => unusedBitsZero rest
  | _ => true

/-- A text is written as the encoder writes it: no padding, and no unused bit set. -/
def IsCanonicalB64 (text : Text) : Prop :=
  text.getLast? ≠ some '=' ∧ unusedBitsZero text = true

-- Round trips

theorem b64Val_symbol (bits : Nat) : b64Val (b64Symbol bits) = some (bits % 64) := by
  have table : ∀ value < 64, b64Val (b64Symbols.getD value 'A') = some value := by
    unfold b64Symbols
    rw [String.toList_ofList]
    decide +kernel
  exact table (bits % 64) (Nat.mod_lt _ (by decide))

theorem b64Symbol_of_val {c : Char} {bits : Nat} (read : b64Val c = some bits)
    : bits < 64 ∧ b64Symbol bits = c := by
  have small : c.toNat < 128 := by
    by_contra large
    simp only [b64Val] at read
    repeat' split at read
    all_goals first | omega | cases read
  have table : ∀ code < 128, ∀ value ∈ b64Val (Char.ofNat code),
      value < 64 ∧ b64Symbol value = Char.ofNat code := by
    unfold b64Symbol b64Symbols
    rw [String.toList_ofList]
    decide +kernel
  have here := table c.toNat small bits (by rw [Char.ofNat_toNat]; exact read)
  rwa [Char.ofNat_toNat] at here

private theorem toUInt8_eq {n : Nat} {byte : UInt8} (same : n % 256 = byte.toNat)
    : n.toUInt8 = byte := by
  apply UInt8.toNat_inj.mp
  simpa using same

/-- Decoding inverts encoding. -/
theorem b64DecodeGroups_encode (bytes : Bytes)
    : b64DecodeGroups (b64urlEncode bytes) = some bytes := by
  induction bytes using b64urlEncode.induct with
  | case1 => rfl
  | case2 a =>
      have bound := a.toNat_lt
      simp only [b64urlEncode, b64DecodeGroups, b64Val_symbol, Option.bind_eq_bind,
        Option.bind_some, Option.pure_def, Option.some.injEq, List.cons.injEq, and_true]
      apply toUInt8_eq
      simp only [b64Group, UInt8.toNat_zero]
      omega
  | case3 a b =>
      have bound := a.toNat_lt
      have bound' := b.toNat_lt
      simp only [b64urlEncode, b64DecodeGroups, b64Val_symbol, Option.bind_eq_bind,
        Option.bind_some, Option.pure_def, Option.some.injEq, List.cons.injEq, and_true]
      constructor
      · apply toUInt8_eq
        simp only [b64Group, UInt8.toNat_zero]
        omega
      · apply toUInt8_eq
        simp only [b64Group, UInt8.toNat_zero]
        omega
  | case4 a b c rest ih =>
      have bound := a.toNat_lt
      have bound' := b.toNat_lt
      have bound'' := c.toNat_lt
      simp only [b64urlEncode, b64DecodeGroups, b64Val_symbol, ih, Option.bind_eq_bind,
        Option.bind_some, Option.pure_def, Option.some.injEq, List.cons.injEq, and_true]
      refine ⟨?_, ?_, ?_⟩
      · apply toUInt8_eq
        simp only [b64Group]
        omega
      · apply toUInt8_eq
        simp only [b64Group]
        omega
      · apply toUInt8_eq
        simp only [b64Group]
        omega

theorem b64Symbol_eq_iff {c : Char} {value bits : Nat} (read : b64Val c = some value)
    : b64Symbol bits = c ↔ bits % 64 = value := by
  constructor
  · rintro rfl
    rw [b64Val_symbol] at read
    exact Option.some.inj read
  · intro same
    obtain ⟨small, symbol⟩ := b64Symbol_of_val read
    rw [← symbol, b64Symbol, b64Symbol, same, Nat.mod_eq_of_lt small]

private theorem toNat_toUInt8_mod (n : Nat) : n.toUInt8.toNat = n % 256 := by
  simp

private theorem toNat_toUInt8 {n : Nat} (small : n < 256) : n.toUInt8.toNat = n :=
  (toNat_toUInt8_mod n).trans (Nat.mod_eq_of_lt small)

/-- Encoding inverts decoding exactly when the unused bits of the last group are zero. -/
theorem b64urlEncode_decode {text : Text} {bytes : Bytes}
    (decoded : b64DecodeGroups text = some bytes)
    : b64urlEncode bytes = text ↔ unusedBitsZero text = true := by
  induction text using b64DecodeGroups.induct generalizing bytes with
  | case1 => cases decoded; simp [b64urlEncode, unusedBitsZero]
  | case2 c => cases decoded
  | case3 a b =>
      simp only [b64DecodeGroups, Option.bind_eq_bind] at decoded
      obtain ⟨first, readFirst, decoded⟩ := Option.bind_eq_some_iff.mp decoded
      obtain ⟨second, readSecond, decoded⟩ := Option.bind_eq_some_iff.mp decoded
      cases decoded
      have smallFirst := (b64Symbol_of_val readFirst).1
      have smallSecond := (b64Symbol_of_val readSecond).1
      simp only [b64urlEncode, b64Group, UInt8.toNat_zero, List.cons.injEq, and_true,
        b64Symbol_eq_iff readFirst, b64Symbol_eq_iff readSecond, unusedBitsZero, readSecond,
        Option.all_some, decide_eq_true_eq]
      rw [toNat_toUInt8 (by omega)]
      omega
  | case4 a b c =>
      simp only [b64DecodeGroups, Option.bind_eq_bind] at decoded
      obtain ⟨first, readFirst, decoded⟩ := Option.bind_eq_some_iff.mp decoded
      obtain ⟨second, readSecond, decoded⟩ := Option.bind_eq_some_iff.mp decoded
      obtain ⟨third, readThird, decoded⟩ := Option.bind_eq_some_iff.mp decoded
      cases decoded
      have smallFirst := (b64Symbol_of_val readFirst).1
      have smallSecond := (b64Symbol_of_val readSecond).1
      have smallThird := (b64Symbol_of_val readThird).1
      simp only [b64urlEncode, b64Group, UInt8.toNat_zero, List.cons.injEq, and_true,
        b64Symbol_eq_iff readFirst, b64Symbol_eq_iff readSecond, b64Symbol_eq_iff readThird,
        unusedBitsZero, readThird, Option.all_some, decide_eq_true_eq]
      rw [toNat_toUInt8 (by omega), toNat_toUInt8_mod]
      omega
  | case5 a b c d rest ih =>
      simp only [b64DecodeGroups, Option.bind_eq_bind] at decoded
      obtain ⟨first, readFirst, decoded⟩ := Option.bind_eq_some_iff.mp decoded
      obtain ⟨second, readSecond, decoded⟩ := Option.bind_eq_some_iff.mp decoded
      obtain ⟨third, readThird, decoded⟩ := Option.bind_eq_some_iff.mp decoded
      obtain ⟨fourth, readFourth, decoded⟩ := Option.bind_eq_some_iff.mp decoded
      obtain ⟨tail, readTail, decoded⟩ := Option.bind_eq_some_iff.mp decoded
      cases decoded
      have smallFirst := (b64Symbol_of_val readFirst).1
      have smallSecond := (b64Symbol_of_val readSecond).1
      have smallThird := (b64Symbol_of_val readThird).1
      have smallFourth := (b64Symbol_of_val readFourth).1
      simp only [b64urlEncode, b64Group, List.cons.injEq, b64Symbol_eq_iff readFirst,
        b64Symbol_eq_iff readSecond, b64Symbol_eq_iff readThird, b64Symbol_eq_iff readFourth,
        unusedBitsZero, ih readTail]
      rw [toNat_toUInt8 (by omega), toNat_toUInt8_mod, toNat_toUInt8_mod]
      constructor
      · exact fun same => same.2.2.2.2
      · intro zero
        exact ⟨by omega, by omega, by omega, by omega, zero⟩

/-- The encoder's characters are the alphabet's. -/
theorem mem_b64urlEncode {bytes : Bytes} {c : Char} (member : c ∈ b64urlEncode bytes)
    : ∃ bits, c = b64Symbol bits := by
  induction bytes using b64urlEncode.induct with
  | case1 => cases member
  | case2 a =>
      simp only [b64urlEncode, List.mem_cons, List.not_mem_nil, or_false] at member
      rcases member with rfl | rfl
      · exact ⟨_, rfl⟩
      · exact ⟨_, rfl⟩
  | case3 a b =>
      simp only [b64urlEncode, List.mem_cons, List.not_mem_nil, or_false] at member
      rcases member with rfl | rfl | rfl
      · exact ⟨_, rfl⟩
      · exact ⟨_, rfl⟩
      · exact ⟨_, rfl⟩
  | case4 a b c rest ih =>
      simp only [b64urlEncode, List.mem_cons] at member
      rcases member with rfl | rfl | rfl | rfl | later
      · exact ⟨_, rfl⟩
      · exact ⟨_, rfl⟩
      · exact ⟨_, rfl⟩
      · exact ⟨_, rfl⟩
      · exact ih later

theorem b64Symbol_plain (bits : Nat) : b64Symbol bits ≠ '=' ∧ b64Symbol bits ≠ '.' := by
  have read := b64Val_symbol bits
  constructor
  · intro same
    rw [same] at read
    cases read
  · intro same
    rw [same] at read
    cases read

private theorem rdropWhile_padding {text : Text} (plain : text.getLast? ≠ some '=')
    : text.rdropWhile (· = '=') = text := by
  rw [List.rdropWhile_eq_self_iff]
  intro nonempty last
  refine plain ?_
  rw [List.getLast?_eq_some_getLast nonempty]
  simpa using last

private theorem b64urlEncode_unpadded (bytes : Bytes)
    : (b64urlEncode bytes).getLast? ≠ some '=' := by
  intro last
  obtain ⟨bits, same⟩ := mem_b64urlEncode (List.mem_of_getLast? last)
  exact (b64Symbol_plain bits).1 same.symm

theorem b64urlDecode_encode (bytes : Bytes)
    : b64urlDecode (b64urlEncode bytes) = some bytes := by
  rw [b64urlDecode, rdropWhile_padding (b64urlEncode_unpadded bytes), b64DecodeGroups_encode]

theorem isCanonicalB64_iff {text : Text} {bytes : Bytes}
    (decoded : b64urlDecode text = some bytes)
    : b64urlEncode bytes = text ↔ IsCanonicalB64 text := by
  constructor
  · rintro rfl
    exact ⟨b64urlEncode_unpadded bytes,
      (b64urlEncode_decode (b64DecodeGroups_encode bytes)).mp rfl⟩
  · rintro ⟨plain, zero⟩
    rw [b64urlDecode, rdropWhile_padding plain] at decoded
    exact (b64urlEncode_decode decoded).mpr zero

end Gfs.Types
