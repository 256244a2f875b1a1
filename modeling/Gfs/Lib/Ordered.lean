import Mathlib

/-! Maps from numbers, kept as rows in ascending order: what a balanced tree of them iterates. -/

namespace Gfs.Lib

/-- Rows with strictly ascending keys. -/
structure Ordered (ν : Type*) where
  rows : List (Nat × ν)
  ordered : rows.Pairwise (fun first second => first.1 < second.1)

namespace Ordered

variable {ν : Type*}

def empty : Ordered ν := ⟨[], .nil⟩

/-- Set the value of a key. -/
def insert (key : Nat) (value : ν) (table : Ordered ν) : Ordered ν where
  rows :=
    table.rows.filter (fun row => row.1 < key)
      ++ (key, value) :: table.rows.filter (fun row => key < row.1)
  ordered := by
    refine List.pairwise_append.mpr ⟨table.ordered.filter _, ?_, ?_⟩
    · refine List.pairwise_cons.mpr ⟨?_, table.ordered.filter _⟩
      exact fun row member => of_decide_eq_true (List.mem_filter.mp member).2
    · intro first below second above
      have below := of_decide_eq_true (List.mem_filter.mp below).2
      rcases List.mem_cons.mp above with rfl | above
      · exact below
      · exact below.trans (of_decide_eq_true (List.mem_filter.mp above).2)

/-- Take a key out. -/
def remove (key : Nat) (table : Ordered ν) : Ordered ν where
  rows := table.rows.filter (fun row => row.1 ≠ key)
  ordered := table.ordered.filter _

theorem rows_insert (key : Nat) (value : ν) (table : Ordered ν)
    : (table.insert key value).rows
      = table.rows.filter (fun row => row.1 < key)
        ++ (key, value) :: table.rows.filter (fun row => key < row.1) :=
  rfl

theorem rows_remove (key : Nat) (table : Ordered ν)
    : (table.remove key).rows = table.rows.filter (fun row => row.1 ≠ key) :=
  rfl

theorem mem_insert {key : Nat} {value : ν} {table : Ordered ν} {row : Nat × ν}
    : row ∈ (table.insert key value).rows
      ↔ row = (key, value) ∨ row.1 ≠ key ∧ row ∈ table.rows := by
  rw [insert, List.mem_append, List.mem_cons, List.mem_filter, List.mem_filter,
    decide_eq_true_iff, decide_eq_true_iff]
  constructor
  · rintro (⟨member, below⟩ | rfl | ⟨member, above⟩)
    · exact .inr ⟨below.ne, member⟩
    · exact .inl rfl
    · exact .inr ⟨above.ne', member⟩
  · rintro (rfl | ⟨apart, member⟩)
    · exact .inr (.inl rfl)
    · rcases Nat.lt_or_gt_of_ne apart with below | above
      · exact .inl ⟨member, below⟩
      · exact .inr (.inr ⟨member, above⟩)

theorem mem_remove {key : Nat} {table : Ordered ν} {row : Nat × ν}
    : row ∈ (table.remove key).rows ↔ row.1 ≠ key ∧ row ∈ table.rows := by
  rw [remove, List.mem_filter, decide_eq_true_iff, and_comm]

theorem row_unique {table : Ordered ν} {first second : Nat × ν} (member : first ∈ table.rows)
    (member' : second ∈ table.rows) (same : first.1 = second.1)
    : first = second := by
  by_contra apart
  have nodup : (table.rows.map Prod.fst).Nodup := by
    rw [List.Nodup, List.pairwise_map]
    exact table.ordered.imp fun below => below.ne
  exact apart (List.inj_on_of_nodup_map nodup member member' same)

end Ordered

end Gfs.Lib
