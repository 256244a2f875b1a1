import Mathlib

/-! Sorted maps with a weight on every value, and what inserting and erasing do to the total. -/

namespace Gfs.Lib.Totals

open Std (ExtTreeMap)

variable {κ ν : Type*} [DecidableEq κ] {cmp : κ → κ → Ordering} [Std.TransCmp cmp]
  [Std.LawfulEqCmp cmp]

/-- What a value weighs, if there is one. -/
def held (weight : ν → Nat) (value : Option ν) : Nat :=
  value.elim 0 weight

/-- The weights of all values of a sorted map. -/
def total (weight : ν → Nat) (table : ExtTreeMap κ ν cmp) : Nat :=
  ∑ key ∈ table.keys.toFinset, held weight table[key]?

variable {weight : ν → Nat} {table : ExtTreeMap κ ν cmp}

theorem mem_keys_iff {key : κ} : key ∈ table.keys.toFinset ↔ table[key]?.isSome = true := by
  rw [List.mem_toFinset, ExtTreeMap.mem_keys, ExtTreeMap.mem_iff_isSome_getElem?]

theorem total_eq_sum {keys : Finset κ} (all : table.keys.toFinset ⊆ keys)
    : total weight table = ∑ key ∈ keys, held weight table[key]? := by
  apply Finset.sum_subset all
  intro key _ missing
  rw [mem_keys_iff, Option.not_isSome_iff_eq_none] at missing
  rw [missing]
  rfl

omit [Std.LawfulEqCmp cmp] in
theorem total_empty : total weight (∅ : ExtTreeMap κ ν cmp) = 0 := by
  apply Finset.sum_eq_zero
  intro key _
  simp [held]

theorem sum_held_le_total (keys : Finset κ)
    : ∑ key ∈ keys, held weight table[key]? ≤ total weight table := by
  have all : table.keys.toFinset ⊆ table.keys.toFinset ∪ keys := Finset.subset_union_left
  rw [total_eq_sum all]
  exact Finset.sum_le_sum_of_subset Finset.subset_union_right

theorem held_le_total (key : κ) : held weight table[key]? ≤ total weight table := by
  have one : ∑ one ∈ {key}, held weight table[one]? ≤ total weight table := sum_held_le_total {key}
  rwa [Finset.sum_singleton] at one

/-- Two maps that agree but for one key weigh the same without it. -/
theorem total_of_agree {other : ExtTreeMap κ ν cmp} (key : κ)
    (agree : ∀ apart, apart ≠ key → other[apart]? = table[apart]?)
    : total weight other + held weight table[key]?
      = total weight table + held weight other[key]? := by
  have split_ (map : ExtTreeMap κ ν cmp)
      (all : map.keys.toFinset ⊆ insert key (table.keys.toFinset ∪ other.keys.toFinset))
      : total weight map
        = held weight map[key]?
          + ∑ apart ∈ (insert key (table.keys.toFinset ∪ other.keys.toFinset)).erase key,
              held weight map[apart]? := by
    rw [total_eq_sum all]
    exact (Finset.add_sum_erase _ _ (Finset.mem_insert_self _ _)).symm
  have rest
      : ∑ apart ∈ (insert key (table.keys.toFinset ∪ other.keys.toFinset)).erase key,
            held weight other[apart]?
        = ∑ apart ∈ (insert key (table.keys.toFinset ∪ other.keys.toFinset)).erase key,
            held weight table[apart]? := by
    apply Finset.sum_congr rfl
    intro apart member
    rw [agree apart (Finset.ne_of_mem_erase member)]
  rw [split_ table (Finset.subset_union_left.trans (Finset.subset_insert _ _)),
    split_ other (Finset.subset_union_right.trans (Finset.subset_insert _ _)), rest]
  omega

theorem total_insert (key : κ) (value : ν)
    : total weight (table.insert key value) + held weight table[key]?
      = total weight table + weight value := by
  have moved
      : total weight (table.insert key value) + held weight table[key]?
        = total weight table + held weight (table.insert key value)[key]? := by
    apply total_of_agree
    intro apart different
    simp [ExtTreeMap.getElem?_insert, Ne.symm different]
  simpa [held] using moved

theorem total_erase (key : κ)
    : total weight (table.erase key) + held weight table[key]? = total weight table := by
  have moved
      : total weight (table.erase key) + held weight table[key]?
        = total weight table + held weight (table.erase key)[key]? := by
    apply total_of_agree
    intro apart different
    simp [ExtTreeMap.getElem?_erase, Ne.symm different]
  simpa [held] using moved

end Gfs.Lib.Totals
