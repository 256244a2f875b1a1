import Mathlib

/-! Lists in the strictly ascending order of their keys: the rows of a range of keys, and the first
key at which two lists differ.
-/

namespace Gfs.Lib.Sorted

variable {α κ ν : Type*}

-- Ranges

section Range

variable [LE κ] [LT κ] [Std.IsLinearOrder κ] [Std.LawfulOrderLT κ] [DecidableLT κ]
  {key : α → κ} {inside : α → Bool} {low : κ}

/-- The rows of a property that holds for a run of keys, the first not below `low`, stand one
behind the other from the first key that is not below `low`.
-/
theorem takeWhile_dropWhile {rows : List α}
    (sorted : rows.Pairwise (fun first second => key first < key second))
    (bounded : ∀ row ∈ rows, inside row → low ≤ key row)
    (convex : ∀ first ∈ rows, ∀ second, low ≤ key first → key first < key second → inside second
      → inside first)
    : (rows.dropWhile (fun row => decide (key row < low))).takeWhile inside
      = rows.filter inside := by
  induction rows with
  | nil => rfl
  | cons row rows ih =>
      obtain ⟨above, sorted⟩ := List.pairwise_cons.mp sorted
      obtain ⟨own, bounded⟩ := List.forall_mem_cons.mp bounded
      obtain ⟨ownConvex, convex⟩ := List.forall_mem_cons.mp convex
      have rest := ih sorted bounded convex
      by_cases below : key row < low
      · have outside : ¬inside row := fun within => Std.not_lt.mpr (own within) below
        rw [List.dropWhile_cons_of_pos (by simpa using below), rest,
          List.filter_cons_of_neg outside]
      have reached := Std.not_lt.mp below
      have whole : rows.dropWhile (fun other => decide (key other < low)) = rows := by
        cases rows with
        | nil => rfl
        | cons other others =>
            apply List.dropWhile_cons_of_neg
            have later := Std.le_of_lt (Std.lt_of_le_of_lt reached (above other List.mem_cons_self))
            simpa using Std.not_lt.mpr later
      rw [List.dropWhile_cons_of_neg (by simpa using below)]
      by_cases within : inside row
      · rw [List.takeWhile_cons_of_pos within, List.filter_cons_of_pos within, ← rest, whole]
      · have none_ : rows.filter inside = [] := by
          rw [List.filter_eq_nil_iff]
          intro other member inner
          exact within (ownConvex other reached (above other member) inner)
        rw [List.takeWhile_cons_of_neg within, List.filter_cons_of_neg within, none_]

/-- A row stands in front of the first that is not below a bound where it is below it. -/
theorem lt_length_takeWhile_iff {rows : List α} {bound : κ}
    (sorted : rows.Pairwise (fun first second => key first < key second)) {i : Nat}
    (inside : i < rows.length)
    : i < (rows.takeWhile (fun row => decide (key row < bound))).length
      ↔ key rows[i] < bound := by
  induction rows generalizing i with
  | nil => simp at inside
  | cons row rows ih =>
      obtain ⟨above, sorted⟩ := List.pairwise_cons.mp sorted
      by_cases below : key row < bound
      · rw [List.takeWhile_cons_of_pos (by simpa using below), List.length_cons]
        cases i with
        | zero => simpa using below
        | succ i =>
            rw [Nat.succ_lt_succ_iff, ih sorted (Nat.lt_of_succ_lt_succ inside)]
            rfl
      · rw [List.takeWhile_cons_of_neg (by simpa using below), List.length_nil]
        refine iff_of_false (Nat.not_lt_zero i) fun less => below ?_
        cases i with
        | zero => exact less
        | succ i =>
            exact Std.lt_trans (above _ (List.getElem_mem (Nat.lt_of_succ_lt_succ inside))) less

end Range

-- Differences

/-- The keys whose rows are not the same on both sides. -/
def Differ (lefts rights : List (κ × ν)) : Set κ :=
  { key | ∃ value, ¬((key, value) ∈ lefts ↔ (key, value) ∈ rights) }

theorem differ_comm (lefts rights : List (κ × ν)) : Differ lefts rights = Differ rights lefts := by
  ext key
  exact exists_congr fun value => not_congr iff_comm

variable {lefts rights : List (κ × ν)}

theorem differ_cons {row : κ × ν} (absent : row ∉ lefts) (absent' : row ∉ rights)
    : Differ (row :: lefts) (row :: rights) = Differ lefts rights := by
  ext key
  refine exists_congr fun value => not_congr ?_
  by_cases same : (key, value) = row
  · simp [same, absent, absent']
  · simp [same]

section Order

variable [LE κ] [LT κ] [Std.IsLinearOrder κ] [Std.LawfulOrderLT κ]

theorem isLeast_head {left : κ × ν} {lefts rights : List (κ × ν)}
    (sorted : (left :: lefts).Pairwise (fun first second => first.1 < second.1))
    (above : ∀ row ∈ rights, left.1 ≤ row.1) (absent : left ∉ rights)
    : IsLeast (Differ (left :: lefts) rights) left.1 := by
  have first := (List.pairwise_cons.mp sorted).1
  refine ⟨⟨left.2, ?_⟩, ?_⟩
  · simpa using absent
  · rintro key ⟨value, differ⟩
    by_cases member : (key, value) ∈ left :: lefts
    · rcases List.mem_cons.mp member with same | later
      · rw [← same]
        exact Std.le_refl key
      · exact Std.le_of_lt (first _ later)
    · have other : (key, value) ∈ rights := by simpa [member] using differ
      exact above _ other

end Order

variable [LE κ] [DecidableLE κ] [DecidableEq κ] [DecidableEq ν]

/-- The smaller key of the first two rows that differ, of rows taken in pairs. -/
def firstDifference : List (κ × ν) → List (κ × ν) → Option κ
  | [], [] => none
  | left :: _, [] => some left.1
  | [], right :: _ => some right.1
  | left :: lefts, right :: rights =>
      if left.2 ≠ right.2 ∨ left.1 ≠ right.1 then
        some (if left.1 ≤ right.1 then left.1 else right.1)
      else firstDifference lefts rights

theorem firstDifference_eq_none
    : firstDifference lefts rights = none ↔ lefts = rights := by
  induction lefts, rights using firstDifference.induct with
  | case1 => simp [firstDifference]
  | case2 left lefts => simp [firstDifference]
  | case3 right rights => simp [firstDifference]
  | case4 left lefts right rights apart =>
      rw [firstDifference, if_pos apart]
      refine iff_of_false (by simp) fun same => ?_
      cases same
      simp at apart
  | case5 left lefts right rights same ih =>
      rw [firstDifference, if_neg same, ih, List.cons.injEq]
      rw [not_or, not_not, not_not] at same
      simp [Prod.ext same.2 same.1]

variable [LT κ] [Std.IsLinearOrder κ] [Std.LawfulOrderLT κ]

/-- The first difference of two ascending lists is the least key at which they differ. -/
theorem isLeast_firstDifference {key : κ}
    (sorted : lefts.Pairwise (fun first second => first.1 < second.1))
    (sorted' : rights.Pairwise (fun first second => first.1 < second.1))
    (found : firstDifference lefts rights = some key)
    : IsLeast (Differ lefts rights) key := by
  induction lefts, rights using firstDifference.induct with
  | case1 => simp [firstDifference] at found
  | case2 left lefts =>
      cases found
      apply isLeast_head sorted
      · simp
      · simp
  | case3 right rights =>
      cases found
      rw [differ_comm]
      apply isLeast_head sorted'
      · simp
      · simp
  | case4 left lefts right rights apart =>
      have apart : left ≠ right := by
        rintro rfl
        simp at apart
      rw [firstDifference, if_pos (by assumption)] at found
      have above := (List.pairwise_cons.mp sorted).1
      have above' := (List.pairwise_cons.mp sorted').1
      by_cases less : left.1 ≤ right.1
      · rw [if_pos less, Option.some.injEq] at found
        subst found
        apply isLeast_head sorted
        · refine List.forall_mem_cons.mpr ⟨less, fun row member => ?_⟩
          exact Std.le_of_lt (Std.lt_of_le_of_lt less (above' row member))
        · refine List.not_mem_cons_of_ne_of_not_mem apart fun member => ?_
          exact Std.not_lt.mpr less (above' left member)
      · have less' := Std.not_le.mp less
        rw [if_neg less, Option.some.injEq] at found
        subst found
        rw [differ_comm]
        apply isLeast_head sorted'
        · refine List.forall_mem_cons.mpr ⟨Std.le_of_lt less', fun row member => ?_⟩
          exact Std.le_of_lt (Std.lt_trans less' (above row member))
        · refine List.not_mem_cons_of_ne_of_not_mem apart.symm fun member => ?_
          exact Std.not_lt.mpr (Std.le_of_lt less') (above right member)
  | case5 left lefts right rights same ih =>
      rw [firstDifference, if_neg same] at found
      rw [not_or, not_not, not_not] at same
      obtain rfl : left = right := Prod.ext same.2 same.1
      obtain ⟨above, sorted⟩ := List.pairwise_cons.mp sorted
      obtain ⟨above', sorted'⟩ := List.pairwise_cons.mp sorted'
      rw [differ_cons (fun member => Std.lt_irrefl (above left member))
        (fun member => Std.lt_irrefl (above' left member))]
      exact ih sorted sorted' found

end Gfs.Lib.Sorted
