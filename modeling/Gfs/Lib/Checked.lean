import Mathlib

/-! Arithmetic of unsigned words that stops at its edges: a difference below zero, and a sum or a
product above 64 bits, have no result.
-/

namespace Gfs.Lib.Checked

/-- `a - b`, where that is not below zero. -/
def checkedSub (a b : Nat) : Option Nat :=
  if b ≤ a then some (a - b) else none

/-- `a + b`, where 64 bits hold it. -/
def checkedAdd (a b : Nat) : Option Nat :=
  if a + b < 2 ^ 64 then some (a + b) else none

/-- `a * b`, where 64 bits hold it. -/
def checkedMul (a b : Nat) : Option Nat :=
  if a * b < 2 ^ 64 then some (a * b) else none

variable {a b : Nat}

theorem checkedSub_of_le (ordered : b ≤ a) : checkedSub a b = some (a - b) :=
  if_pos ordered

theorem checkedSub_add (a b : Nat) : checkedSub (a + b) a = some b := by
  rw [checkedSub_of_le (Nat.le_add_right a b), Nat.add_sub_cancel_left]

theorem checkedSub_one (held : a ≠ 0) : checkedSub a 1 = some (a - 1) :=
  checkedSub_of_le (Nat.one_le_iff_ne_zero.mpr held)

theorem checkedAdd_of_lt (fits : a + b < 2 ^ 64) : checkedAdd a b = some (a + b) :=
  if_pos fits

theorem checkedMul_of_lt (fits : a * b < 2 ^ 64) : checkedMul a b = some (a * b) :=
  if_pos fits

end Gfs.Lib.Checked
