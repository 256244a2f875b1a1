import Mathlib

/-! Lists of rules of which the last that applies decides, and rules that apply at one of several
levels: the last that applies at any level is the last at one of them.
-/

namespace Gfs.Lib.Verdicts

variable {α ι : Type*}

/-- The last rule that applies. -/
def last (applies : α → Bool) (rules : List α) : Option α :=
  (rules.filter applies).getLast?

variable {applies : α → Bool} {rules : List α}

end Gfs.Lib.Verdicts
