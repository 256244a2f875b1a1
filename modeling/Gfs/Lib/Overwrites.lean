import Mathlib

/-! Lists of writes over an ordered map. A write names a key and gives it a value or takes
its value away; the last write to a key decides what the map holds there.
-/

namespace Gfs.Lib.Overwrites

open Std (ExtTreeMap TransCmp LawfulEqCmp)

variable {κ α : Type*} {cmp : κ → κ → Ordering} [TransCmp cmp]

/-- Carry out the writes in order. -/
def overwrite (map : ExtTreeMap κ α cmp) (writes : List (κ × Option α))
    : ExtTreeMap κ α cmp :=
  writes.foldl
    (fun map write =>
      match write.2 with
      | some value => map.insert write.1 value
      | none => map.erase write.1)
    map

variable [DecidableEq κ]

/-- The last write to a key, if any write names it. -/
def lastWrite (key : κ) (writes : List (κ × Option α)) : Option (Option α) :=
  writes.foldl (fun last write => if write.1 = key then some write.2 else last) none

private theorem lastWrite_foldl (key : κ) (writes : List (κ × Option α))
    (start : Option (Option α))
    : writes.foldl (fun last write => if write.1 = key then some write.2 else last) start
      = (lastWrite key writes).or start := by
  induction writes using List.reverseRecOn with
  | nil => rfl
  | append_singleton writes write ih =>
      simp only [lastWrite, List.foldl_append, List.foldl_cons, List.foldl_nil]
      split
      · rfl
      · exact ih

@[simp]
theorem lastWrite_nil (key : κ) : lastWrite key ([] : List (κ × Option α)) = none := rfl

@[simp]
theorem lastWrite_cons (key : κ) (write : κ × Option α) (writes : List (κ × Option α))
    : lastWrite key (write :: writes)
      = (lastWrite key writes).or (if write.1 = key then some write.2 else none) := by
  rw [lastWrite, List.foldl_cons, lastWrite_foldl]

@[simp]
theorem lastWrite_append (key : κ) (left right : List (κ × Option α))
    : lastWrite key (left ++ right) = (lastWrite key right).or (lastWrite key left) := by
  rw [lastWrite, List.foldl_append, lastWrite_foldl]
  rfl

theorem mem_of_lastWrite {key : κ} {value : Option α} {writes : List (κ × Option α)}
    (last : lastWrite key writes = some value)
    : (key, value) ∈ writes := by
  induction writes using List.reverseRecOn with
  | nil => simp at last
  | append_singleton writes write ih =>
      simp only [lastWrite_append, lastWrite_cons, lastWrite_nil, Option.none_or] at last
      split at last
      · rename_i same
        cases last
        exact List.mem_append.mpr (Or.inr (by simp [← same]))
      · exact List.mem_append.mpr (Or.inl (ih last))

theorem exists_lastWrite {key : κ} {value : Option α} {writes : List (κ × Option α)}
    (member : (key, value) ∈ writes)
    : ∃ last, lastWrite key writes = some last := by
  cases found : lastWrite key writes with
  | some last => exact ⟨last, rfl⟩
  | none =>
      induction writes with
      | nil => cases member
      | cons write writes ih =>
          simp only [lastWrite_cons, Option.or_eq_none_iff, ite_eq_right_iff,
            reduceCtorEq, imp_false] at found
          rcases List.mem_cons.mp member with same | later
          · exact absurd (congrArg Prod.fst same).symm found.2
          · exact ih later found.1

variable [LawfulEqCmp cmp]

/-- The map after the writes holds, at each key, what the last write to it said, and what it
held before where no write names the key. Witness: induction on the last write of the list.
-/
theorem getElem?_overwrite (map : ExtTreeMap κ α cmp) (writes : List (κ × Option α))
    (key : κ)
    : (overwrite map writes)[key]? = (lastWrite key writes).getD map[key]? := by
  induction writes using List.reverseRecOn with
  | nil => rfl
  | append_singleton writes write ih =>
      obtain ⟨target, value⟩ := write
      simp only [overwrite, List.foldl_append, List.foldl_cons, List.foldl_nil,
        lastWrite_append, lastWrite_cons, lastWrite_nil, Option.none_or] at ih ⊢
      cases value with
      | none =>
          simp only [ExtTreeMap.getElem?_erase, Std.LawfulEqCmp.compare_eq_iff_eq]
          split
          · simp
          · simpa using ih
      | some value =>
          simp only [ExtTreeMap.getElem?_insert, Std.LawfulEqCmp.compare_eq_iff_eq]
          split
          · simp
          · simpa using ih

end Gfs.Lib.Overwrites
