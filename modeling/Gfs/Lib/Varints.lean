import Mathlib

/-! Numbers as bytes of seven bits each, the lowest first: every byte but the last has its high bit
set. A reader of some width drops the bits that do not fit and gives up once no bit would.
-/

namespace Gfs.Lib.Varints

/-- Why a number cannot be read. -/
inductive Fault where
  | ended
  | tooLong
  deriving DecidableEq, Repr

/-- The bytes of a number. -/
def put (value : Nat) : List UInt8 :=
  if value / 128 = 0 then [(value % 128).toUInt8]
  else (value % 128 + 128).toUInt8 :: put (value / 128)
termination_by value

/-- Read on where the bits below `shift` make up `value`. -/
def readFrom (width value shift : Nat) : List UInt8 → Except Fault (Nat × List UInt8)
  | [] => .error .ended
  | byte :: rest =>
      let value := value ||| ((byte.toNat % 128) <<< shift % 2 ^ width)
      if byte.toNat < 128 then .ok (value, rest)
      else if width ≤ shift + 7 then .error .tooLong
      else readFrom width value (shift + 7) rest

/-- Read a number, and give the bytes behind it. -/
def read (width : Nat) (bytes : List UInt8) : Except Fault (Nat × List UInt8) :=
  readFrom width 0 0 bytes

theorem or_shiftLeft {width value shift : Nat} (fits : value < 2 ^ width)
    : value % 2 ^ shift ||| ((value / 2 ^ shift % 128) <<< shift % 2 ^ width)
      = value % 2 ^ (shift + 7) := by
  have below : value % 2 ^ shift < 2 ^ shift := Nat.mod_lt _ (Nat.two_pow_pos shift)
  have split
      : value % 2 ^ (shift + 7)
        = 2 ^ shift * (value / 2 ^ shift % 128) + value % 2 ^ shift := by
    rw [Nat.pow_add, Nat.mod_mul, Nat.add_comm]
  have within : 2 ^ shift * (value / 2 ^ shift % 128) < 2 ^ width := by
    have least := Nat.mod_le value (2 ^ (shift + 7))
    omega
  rw [Nat.shiftLeft_eq, Nat.mul_comm, Nat.mod_eq_of_lt within, split,
    Nat.two_pow_add_eq_or_of_lt below, Nat.or_comm]

theorem toNat_toUInt8 {value : Nat} (small : value < 256) : value.toUInt8.toNat = value := by
  rw [Nat.toUInt8, UInt8.toNat_ofNat', Nat.mod_eq_of_lt small]

/-- From any place in a number that fits, the bytes that are left read as its whole. -/
theorem readFrom_put {width value : Nat} (fits : value < 2 ^ width) (rest : List UInt8)
    (shift : Nat)
    : readFrom width (value % 2 ^ shift) shift (put (value / 2 ^ shift) ++ rest)
      = .ok (value, rest) := by
  induction unread : value / 2 ^ shift using Nat.strong_induction_on generalizing shift with
  | h left ih =>
      have onward : value / 2 ^ (shift + 7) = left / 128 := by
        rw [Nat.pow_add, ← Nat.div_div_eq_div_mul, unread]
      rw [put]
      split
      · rename_i last
        have small : left % 128 = left := by omega
        have whole : value % 2 ^ (shift + 7) = value := by
          apply Nat.mod_eq_of_lt
          rw [last] at onward
          exact (Nat.div_eq_zero_iff_lt (Nat.two_pow_pos _)).mp onward
        simp only [List.cons_append, List.nil_append, readFrom]
        rw [toNat_toUInt8 (by omega), if_pos (by omega), Nat.mod_mod, ← unread, or_shiftLeft fits,
          whole]
      · rename_i more
        simp only [List.cons_append, readFrom]
        rw [toNat_toUInt8 (by omega), if_neg (by omega)]
        have room : ¬width ≤ shift + 7 := by
          intro narrow
          have short : value < 2 ^ (shift + 7) :=
            Nat.lt_of_lt_of_le fits (Nat.pow_le_pow_right (by decide) narrow)
          rw [Nat.div_eq_of_lt short] at onward
          omega
        rw [if_neg room, show (left % 128 + 128) % 128 = left % 128 by omega]
        nth_rewrite 1 [← unread]
        rw [or_shiftLeft fits]
        exact ih (left / 128) (by omega) (shift + 7) onward

theorem read_put {width value : Nat} (fits : value < 2 ^ width) (rest : List UInt8)
    : read width (put value ++ rest) = .ok (value, rest) := by
  have whole := readFrom_put fits rest 0
  rwa [Nat.pow_zero, Nat.mod_one, Nat.div_one] at whole

theorem length_put_le (value : Nat) : (put value).length ≤ value + 1 := by
  induction value using Nat.strong_induction_on with
  | h value ih =>
      rw [put]
      split
      · simp
      · have shorter := ih (value / 128) (by omega)
        rw [List.length_cons]
        omega

theorem put_injective : Function.Injective put := by
  intro first second same
  have fits : first < 2 ^ (first + second) :=
    Nat.lt_of_lt_of_le Nat.lt_two_pow_self (Nat.pow_le_pow_right (by decide) (by omega))
  have fits' : second < 2 ^ (first + second) :=
    Nat.lt_of_lt_of_le Nat.lt_two_pow_self (Nat.pow_le_pow_right (by decide) (by omega))
  have read := read_put fits []
  rw [same, read_put fits' []] at read
  cases read
  rfl

end Gfs.Lib.Varints
