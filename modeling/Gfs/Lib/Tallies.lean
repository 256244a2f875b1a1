import Mathlib

/-! Finite maps with a weight on every value, and what inserting and erasing do to the total. -/

namespace Gfs.Lib.Tallies

variable {κ ν : Type*}

/-- The weights of all values of a finite map. -/
def total (weight : ν → Nat) (table : AList fun _ : κ => ν) : Nat :=
  (table.entries.map (fun entry => weight entry.2)).sum

theorem total_add (first second : ν → Nat) (table : AList fun _ : κ => ν)
    : total (fun value => first value + second value) table
      = total first table + total second table :=
  List.sum_map_add

variable [DecidableEq κ]

variable {weight : ν → Nat} {table : AList fun _ : κ => ν}

/-- A list of distinct keys weighs what it weighs without one of them, and that one. -/
theorem sum_kerase {key : κ} {value : ν} {entries : List (Sigma fun _ : κ => ν)}
    (found : value ∈ entries.dlookup key)
    : (entries.map (fun entry => weight entry.2)).sum
      = weight value + ((entries.kerase key).map (fun entry => weight entry.2)).sum := by
  induction entries with
  | nil => simp at found
  | cons entry entries ih =>
      obtain ⟨other, held⟩ := entry
      by_cases same : key = other
      · subst same
        rw [List.dlookup_cons_eq] at found
        have rest : (⟨key, held⟩ :: entries : List (Sigma fun _ : κ => ν)).kerase key = entries :=
          List.kerase_cons_eq rfl
        rw [rest, List.map_cons, List.sum_cons, Option.some.inj found]
      · rw [List.dlookup_cons_ne _ _ same] at found
        rw [List.kerase_cons_ne same, List.map_cons, List.map_cons, List.sum_cons, List.sum_cons,
          ih found]
        exact Nat.add_left_comm _ _ _

theorem total_erase {key : κ} {value : ν} (found : table.lookup key = some value)
    : total weight table = weight value + total weight (table.erase key) :=
  sum_kerase (by exact found)

theorem weight_le_total {weight : ν → Nat} {key : κ} {value : ν} {table : AList fun _ : κ => ν}
    (found : table.lookup key = some value)
    : weight value ≤ total weight table := by
  rw [total_erase found]
  exact Nat.le_add_right _ _

theorem total_insert {weight : ν → Nat} (key : κ) (value : ν) (table : AList fun _ : κ => ν)
    : total weight (table.insert key value) = weight value + total weight (table.erase key) := by
  rw [total, AList.entries_insert, List.map_cons, List.sum_cons]
  rfl

theorem total_erase_absent {key : κ} (absent : table.lookup key = none)
    : total weight (table.erase key) = total weight table := by
  have missing : key ∉ table.entries.keys := AList.lookup_eq_none.mp absent
  rw [total, total, show (table.erase key).entries = table.entries.kerase key from rfl,
    List.kerase_of_notMem_keys missing]

/-- Where only some keys have values of any weight, all values weigh no more than theirs. -/
theorem total_le_sum (keys : List κ) (table : AList fun _ : κ => ν)
    (only : ∀ key value, table.lookup key = some value → key ∉ keys → weight value = 0)
    : total weight table ≤ (keys.map fun key => ((table.lookup key).map weight).getD 0).sum := by
  induction keys generalizing table with
  | nil =>
      refine Nat.le_of_eq (List.sum_eq_zero ?_)
      intro weighed member
      obtain ⟨⟨key, value⟩, listed, rfl⟩ := List.mem_map.mp member
      exact only key value (AList.mem_lookup_iff.mpr listed) List.not_mem_nil
  | cons key keys ih =>
      rw [List.map_cons, List.sum_cons]
      cases found : table.lookup key with
      | none =>
          refine (ih table ?_).trans (Nat.le_add_left _ _)
          intro other value held absent
          refine only other value held ?_
          rw [List.mem_cons, not_or]
          refine ⟨?_, absent⟩
          rintro rfl
          cases found.symm.trans held
      | some value =>
          rw [total_erase found, Option.map_some, Option.getD_some]
          refine Nat.add_le_add_left ((ih (table.erase key) ?_).trans ?_) _
          · intro other kept held absent
            by_cases same : other = key
            · rw [same, AList.lookup_erase] at held
              cases held
            · rw [AList.lookup_erase_ne same] at held
              exact only other kept held (by simp [same, absent])
          · refine List.sum_le_sum ?_
            intro other _
            by_cases same : other = key
            · rw [same, AList.lookup_erase]
              exact Nat.zero_le _
            · rw [AList.lookup_erase_ne same]

theorem lookup_insert (key other : κ) (value : ν) (table : AList fun _ : κ => ν)
    : (table.insert key value).lookup other
      = if other = key then some value else table.lookup other := by
  split
  · rename_i same
    rw [same, AList.lookup_insert]
  · rename_i apart
    exact AList.lookup_insert_ne apart

theorem lookup_erase (key other : κ) (table : AList fun _ : κ => ν)
    : (table.erase key).lookup other = if other = key then none else table.lookup other := by
  split
  · rename_i same
    rw [same, AList.lookup_erase]
  · rename_i apart
    exact AList.lookup_erase_ne apart

theorem mem_entries {key : κ} {value : ν}
    : (⟨key, value⟩ : Sigma fun _ : κ => ν) ∈ table.entries ↔ table.lookup key = some value :=
  AList.mem_lookup_iff.symm

end Gfs.Lib.Tallies
