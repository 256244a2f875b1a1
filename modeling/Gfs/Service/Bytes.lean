import Gfs.Types.Path

/-! Numbers as bytes, the highest first (Rust's `to_be_bytes` and `from_be_bytes`). -/

namespace Gfs.Service

open Gfs.Types

/-- `to_be_bytes` of a number of some width, in bytes. -/
def beBytes : Nat → Nat → Bytes
  | 0, _ => []
  | width + 1, n => (n / 256 ^ width).toUInt8 :: beBytes width n

/-- `from_be_bytes`. -/
def beValue : Bytes → Nat
  | [] => 0
  | byte :: rest => byte.toNat * 256 ^ rest.length + beValue rest

@[simp] theorem beBytes_length (width n : Nat) : (beBytes width n).length = width := by
  induction width with
  | zero => rfl
  | succ width ih => simp [beBytes, ih]

theorem beValue_lt (bytes : Bytes) : beValue bytes < 256 ^ bytes.length := by
  induction bytes with
  | nil => simp [beValue]
  | cons byte rest ih =>
      have small : byte.toNat + 1 ≤ 256 := byte.toNat_lt
      calc beValue (byte :: rest)
          = byte.toNat * 256 ^ rest.length + beValue rest := rfl
        _ < byte.toNat * 256 ^ rest.length + 256 ^ rest.length := by omega
        _ = (byte.toNat + 1) * 256 ^ rest.length := by ring
        _ ≤ 256 * 256 ^ rest.length := Nat.mul_le_mul_right _ small
        _ = 256 ^ (byte :: rest).length := by rw [List.length_cons, Nat.pow_succ']

theorem beValue_beBytes (width n : Nat) : beValue (beBytes width n) = n % 256 ^ width := by
  induction width with
  | zero => simp [beBytes, beValue, Nat.mod_one]
  | succ width ih =>
      have digits := Nat.mod_mul (x := n) (a := 256 ^ width) (b := 256)
      rw [beBytes, beValue, beBytes_length, ih, Nat.pow_succ, digits]
      simp only [Nat.toUInt8_eq, UInt8.toNat_ofNat', Nat.reducePow]
      ring

theorem beBytes_above (width n above : Nat)
    : beBytes width (n + above * 256 ^ width) = beBytes width n := by
  induction width generalizing above with
  | zero => rfl
  | succ width ih =>
      have shifted : n + above * 256 ^ (width + 1) = n + above * 256 * 256 ^ width := by
        rw [Nat.pow_succ]
        ring
      have head : ((n + above * 256 * 256 ^ width) / 256 ^ width).toUInt8
          = (n / 256 ^ width).toUInt8 := by
        rw [Nat.add_mul_div_right _ _ (by positivity)]
        apply UInt8.toNat_inj.mp
        simp
      rw [shifted, beBytes, beBytes, ih, head]

theorem beBytes_beValue (bytes : Bytes) : beBytes bytes.length (beValue bytes) = bytes := by
  induction bytes with
  | nil => rfl
  | cons byte rest ih =>
      have small := beValue_lt rest
      have head : beValue (byte :: rest) / 256 ^ rest.length = byte.toNat := by
        rw [beValue, Nat.add_comm, Nat.add_mul_div_right _ _ (by positivity),
          Nat.div_eq_of_lt small, Nat.zero_add]
      have tail : beBytes rest.length (beValue (byte :: rest)) = rest := by
        rw [beValue, Nat.add_comm, beBytes_above, ih]
      rw [List.length_cons, beBytes, head, tail]
      simp

end Gfs.Service
