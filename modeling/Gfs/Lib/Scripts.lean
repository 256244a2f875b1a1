import Mathlib

/-! Edit scripts over lists: what a script reads, what it makes of it, and how both split where
the script does.
-/

namespace Gfs.Lib.Scripts

variable {α β : Type*}

/-- One line of a script. -/
inductive Edit (α : Type*) where
  | keep (line : α)
  | remove (line : α)
  | insert (line : α)
  deriving DecidableEq, Repr

/-- The line of the old side, if the edit has one. -/
def Edit.old : Edit α → Option α
  | .keep line | .remove line => some line
  | .insert _ => none

/-- The line of the new side, if the edit has one. -/
def Edit.new : Edit α → Option α
  | .keep line | .insert line => some line
  | .remove _ => none

/-- The old side of a script. -/
def before (script : List (Edit α)) : List α :=
  script.filterMap Edit.old

/-- The new side of a script. -/
def after (script : List (Edit α)) : List α :=
  script.filterMap Edit.new

/-- Whether the edit changes a line. -/
def Edit.changes : Edit α → Bool
  | .keep _ => false
  | .remove _ | .insert _ => true

/-- How many lines a script removes and inserts. -/
def edits (script : List (Edit α)) : Nat :=
  script.countP Edit.changes

/-- The script turns one list into the other. -/
structure Turns (script : List (Edit α)) (old new : List α) : Prop where
  before : before script = old
  after : after script = new

theorem before_append (first second : List (Edit α))
    : before (first ++ second) = before first ++ before second :=
  List.filterMap_append

theorem after_append (first second : List (Edit α))
    : after (first ++ second) = after first ++ after second :=
  List.filterMap_append

theorem edits_append (first second : List (Edit α))
    : edits (first ++ second) = edits first + edits second :=
  List.countP_append

theorem before_keeps (lines : List α) : before (lines.map .keep) = lines := by
  induction lines with
  | nil => rfl
  | cons line lines ih => simpa [before, Edit.old] using ih

theorem after_keeps (lines : List α) : after (lines.map .keep) = lines := by
  induction lines with
  | nil => rfl
  | cons line lines ih => simpa [after, Edit.new] using ih

theorem before_removes (lines : List α) : before (lines.map .remove) = lines := by
  induction lines with
  | nil => rfl
  | cons line lines ih => simpa [before, Edit.old] using ih

theorem after_removes (lines : List α) : after (lines.map .remove) = [] := by
  induction lines with
  | nil => rfl
  | cons line lines ih => simpa [after, Edit.new] using ih

theorem before_inserts (lines : List α) : before (lines.map .insert) = [] := by
  induction lines with
  | nil => rfl
  | cons line lines ih => simpa [before, Edit.old] using ih

theorem after_inserts (lines : List α) : after (lines.map .insert) = lines := by
  induction lines with
  | nil => rfl
  | cons line lines ih => simpa [after, Edit.new] using ih

theorem edits_keeps (lines : List α) : edits (lines.map .keep) = 0 := by
  induction lines with
  | nil => rfl
  | cons line lines ih => simpa [edits, Edit.changes] using ih

theorem edits_removes (lines : List α) : edits (lines.map .remove) = lines.length := by
  induction lines with
  | nil => rfl
  | cons line lines ih => rw [List.map_cons, edits, List.countP_cons, ← edits, ih]; rfl

theorem edits_inserts (lines : List α) : edits (lines.map .insert) = lines.length := by
  induction lines with
  | nil => rfl
  | cons line lines ih => rw [List.map_cons, edits, List.countP_cons, ← edits, ih]; rfl

theorem Turns.append {first second : List (Edit α)} {old old' new new' : List α}
    (head : Turns first old new) (tail : Turns second old' new')
    : Turns (first ++ second) (old ++ old') (new ++ new') :=
  ⟨by rw [before_append, head.before, tail.before], by rw [after_append, head.after, tail.after]⟩

theorem turns_keeps (lines : List α) : Turns (lines.map .keep) lines lines :=
  ⟨before_keeps lines, after_keeps lines⟩

theorem turns_removes (lines : List α) : Turns (lines.map .remove) lines [] :=
  ⟨before_removes lines, after_removes lines⟩

theorem turns_inserts (lines : List α) : Turns (lines.map .insert) [] lines :=
  ⟨before_inserts lines, after_inserts lines⟩

end Gfs.Lib.Scripts
