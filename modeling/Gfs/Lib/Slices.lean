import Gfs.Lib.Totals

/-! Slices of one list: what is kept when each is cut at a limit and the whole is cut again, and
counts that are taken slice by slice and added.
-/

namespace Gfs.Lib.Slices

open Std (ExtTreeMap)

-- Cuts

section Cuts

variable {α : Type*} {slices : List (List α)} {limit : Nat}

/-- One slice has everything. -/
def AllInOne (slices : List (List α)) : Prop :=
  ∃ slice ∈ slices, slice.length = slices.flatten.length

/-- What is cut per slice and cut again is the front of the whole. -/
theorem take_cut (slices : List (List α)) (limit : Nat)
    : (slices.flatMap (List.take limit)).take limit = slices.flatten.take limit := by
  induction slices generalizing limit with
  | nil => rfl
  | cons slice slices ih =>
      have cut (most : Nat)
          : ((slices.flatMap (List.take limit)).take (limit - most))
            = slices.flatten.take (limit - most) := by
        have whole := congrArg (List.take (limit - most)) (ih limit)
        rwa [List.take_take, List.take_take, Nat.min_eq_left (Nat.sub_le ..)] at whole
      rw [List.flatMap_cons, List.flatten_cons, List.take_append, List.take_append,
        List.take_take, Nat.min_self, List.length_take]
      by_cases fits : slice.length ≤ limit
      · rw [Nat.min_eq_right fits, cut]
      · have full : limit - min limit slice.length = 0 := by omega
        have past : limit - slice.length = 0 := by omega
        rw [full, past]
        rfl

theorem cut_of_fits (fits : slices.flatten.length ≤ limit)
    : slices.flatMap (List.take limit) = slices.flatten := by
  induction slices with
  | nil => rfl
  | cons slice slices ih =>
      rw [List.flatten_cons, List.length_append] at fits
      rw [List.flatMap_cons, List.flatten_cons, ih (by omega), List.take_of_length_le (by omega)]

theorem cut_pos (positive : 0 < limit) (some_ : 0 < slices.flatten.length)
    : 0 < (slices.flatMap (List.take limit)).length := by
  have front := congrArg List.length (take_cut slices limit)
  rw [List.length_take, List.length_take] at front
  omega

/-- The cut slices together are over the limit where the whole is, unless one slice has it all. -/
theorem lt_length_cut (positive : 0 < limit)
    : limit < (slices.flatMap (List.take limit)).length
      ↔ limit < slices.flatten.length ∧ ¬AllInOne slices := by
  constructor
  · intro past
    have shorter : (slices.flatMap (List.take limit)).length ≤ slices.flatten.length := by
      rw [List.length_flatMap, List.length_flatten]
      exact List.Forall₂.sum_le_sum (List.forall₂_map_left_iff.mpr
        (List.forall₂_map_right_iff.mpr (List.forall₂_same.mpr fun slice _ =>
          (List.take_sublist ..).length_le)))
    refine ⟨Nat.lt_of_lt_of_le past shorter, ?_⟩
    rintro ⟨slice, member, whole⟩
    obtain ⟨front, back, rfl⟩ := List.append_of_mem member
    rw [List.flatten_append, List.flatten_cons, List.length_append, List.length_append] at whole
    have before : front.flatten = [] := List.length_eq_zero_iff.mp (by omega)
    have behind : back.flatten = [] := List.length_eq_zero_iff.mp (by omega)
    have nothing (part : List (List α)) (empty : part.flatten = [])
        : part.flatMap (List.take limit) = [] := by
      rw [cut_of_fits (by rw [empty]; exact Nat.zero_le _), empty]
    rw [List.flatMap_append, List.flatMap_cons, nothing front before, nothing back behind,
      List.nil_append, List.append_nil, List.length_take] at past
    omega
  · rintro ⟨past, several⟩
    by_cases long : ∃ slice ∈ slices, limit < slice.length
    · obtain ⟨slice, member, long⟩ := long
      have other : slice.length ≠ slices.flatten.length := fun whole =>
        several ⟨slice, member, whole⟩
      obtain ⟨front, back, rfl⟩ := List.append_of_mem member
      rw [List.flatten_append, List.flatten_cons, List.length_append, List.length_append] at other
      rw [List.flatMap_append, List.flatMap_cons, List.length_append, List.length_append,
        List.length_take]
      have outside : 0 < front.flatten.length ∨ 0 < back.flatten.length := by omega
      rcases outside with before | behind
      · have := cut_pos positive before
        omega
      · have := cut_pos positive behind
        omega
    · have whole : slices.flatMap (List.take limit) = slices.flatten := by
        rw [← List.flatMap_id]
        exact List.flatMap_congr fun slice member =>
          List.take_of_length_le (Nat.le_of_not_lt fun past => long ⟨slice, member, past⟩)
      rwa [whole]

end Cuts

-- Counts

section Counts

variable {κ : Type*} [DecidableEq κ] {cmp : κ → κ → Ordering} [Std.TransCmp cmp]
  [Std.LawfulEqCmp cmp]

/-- One more of a kind. -/
def countOne (table : ExtTreeMap κ Nat cmp) (key : κ) : ExtTreeMap κ Nat cmp :=
  table.insert key ((table[key]?).getD 0 + 1)

/-- All that another table has counted. -/
def addCounts (table more : ExtTreeMap κ Nat cmp) : ExtTreeMap κ Nat cmp :=
  more.foldl (fun table key count => table.insert key ((table[key]?).getD 0 + count)) table

/-- A table has a row for each kind that has been counted at all. -/
def Counts (table : ExtTreeMap κ Nat cmp) (count : κ → Nat) : Prop :=
  ∀ key, table[key]? = if count key = 0 then none else some (count key)

variable {table more : ExtTreeMap κ Nat cmp} {count others : κ → Nat}

omit [DecidableEq κ] [Std.LawfulEqCmp cmp] in
theorem counts_empty : Counts (∅ : ExtTreeMap κ Nat cmp) fun _ => 0 := by
  intro key
  simp

omit [DecidableEq κ] [Std.LawfulEqCmp cmp] in
theorem Counts.getD_eq (counts : Counts table count) (key : κ)
    : (table[key]?).getD 0 = count key := by
  rw [counts key]
  split
  case isTrue none_ => exact none_.symm
  case isFalse => rfl

omit [DecidableEq κ] in
theorem Counts.unique {other : ExtTreeMap κ Nat cmp} (counts : Counts table count)
    (counts' : Counts other count)
    : table = other :=
  ExtTreeMap.ext_getElem? fun key => (counts key).trans (counts' key).symm

theorem Counts.insert (counts : Counts table count) (key : κ) {more : Nat} (some_ : more ≠ 0)
    : Counts (table.insert key ((table[key]?).getD 0 + more))
        fun other => count other + if key = other then more else 0 := by
  intro other
  rw [ExtTreeMap.getElem?_insert, counts.getD_eq]
  simp only [Std.LawfulEqCmp.compare_eq_iff_eq]
  by_cases same : key = other
  · subst same
    rw [if_pos rfl, if_pos rfl, if_neg (by omega)]
  · rw [if_neg same, if_neg same, Nat.add_zero]
    exact counts other

theorem Counts.countOne (counts : Counts table count) (key : κ)
    : Counts (countOne table key) fun other => count other + if key = other then 1 else 0 :=
  counts.insert key Nat.one_ne_zero

/-- A table's rows of a kind count it. -/
theorem sum_rows (key : κ)
    : (table.toList.map fun row => if row.1 = key then row.2 else 0).sum
      = (table[key]?).getD 0 := by
  have listed (value : Nat) : (key, value) ∈ table.toList ↔ table[key]? = some value :=
    ExtTreeMap.mem_toList_iff_getElem?_eq_some
  have nothing (rows : List (κ × Nat)) (others : ∀ row ∈ rows, row.1 ≠ key)
      : (rows.map fun row => if row.1 = key then row.2 else 0).sum = 0 := by
    refine List.sum_eq_zero fun value member => ?_
    obtain ⟨row, inside, rfl⟩ := List.mem_map.mp member
    exact if_neg (others row inside)
  cases held : table[key]? with
  | none =>
      refine nothing _ fun row member same => ?_
      have found := (listed row.2).mp (same ▸ member)
      rw [held] at found
      cases found
  | some value =>
      have distinct := table.distinct_keys_toList
      obtain ⟨front, back, split⟩ := List.append_of_mem ((listed value).mpr held)
      rw [split, List.pairwise_append, List.pairwise_cons] at distinct
      obtain ⟨-, ⟨behind, -⟩, before⟩ := distinct
      have earlier : ∀ row ∈ front, row.1 ≠ key := fun row member same =>
        before row member _ List.mem_cons_self (Std.LawfulEqCmp.compare_eq_iff_eq.mpr same)
      have later : ∀ row ∈ back, row.1 ≠ key := fun row member same =>
        behind row member (Std.LawfulEqCmp.compare_eq_iff_eq.mpr same.symm)
      rw [split, List.map_append, List.sum_append, List.map_cons, List.sum_cons,
        nothing front earlier, nothing back later, if_pos rfl]
      simp

/-- What two tables have counted is added. -/
theorem Counts.addCounts (counts : Counts table count) (counts' : Counts more others)
    : Counts (addCounts table more) fun key => count key + others key := by
  have rows (rows : List (κ × Nat)) (some_ : ∀ row ∈ rows, row.2 ≠ 0)
      (table : ExtTreeMap κ Nat cmp) (count : κ → Nat) (counts : Counts table count)
      : Counts
          (rows.foldl
            (fun table row => table.insert row.1 ((table[row.1]?).getD 0 + row.2)) table)
          fun key => count key + (rows.map fun row => if row.1 = key then row.2 else 0).sum := by
    induction rows generalizing table count with
    | nil => exact counts
    | cons row rows ih =>
        obtain ⟨here, later⟩ := List.forall_mem_cons.mp some_
        have next := ih later _ _ (counts.insert row.1 here)
        simpa only [List.foldl_cons, List.map_cons, List.sum_cons, Nat.add_assoc] using next
  have some_ : ∀ row ∈ more.toList, row.2 ≠ 0 := by
    intro row member zero
    have held : more[row.1]? = some row.2 := ExtTreeMap.mem_toList_iff_getElem?_eq_some.mp member
    rw [counts' row.1] at held
    split at held
    · cases held
    · rename_i positive
      exact positive ((Option.some.inj held).trans zero)
  have all := rows more.toList some_ table count counts
  rw [Slices.addCounts, ExtTreeMap.foldl_eq_foldl_toList]
  simpa only [sum_rows, counts'.getD_eq] using all

end Counts

end Gfs.Lib.Slices
