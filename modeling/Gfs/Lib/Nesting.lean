import Mathlib

/-! Keys nested by a separator: `key` lies below `dir` when it is `dir`, one separator and a
rest. Containment over an arbitrary alphabet; nothing is assumed of the components.
-/

namespace Gfs.Lib.Nesting

variable {α : Type*} {sep : α} {a b c dir key rest : List α}

/-- The key continues `dir` after one separator. -/
def Below (sep : α) (dir key : List α) : Prop :=
  ∃ rest, key = dir ++ sep :: rest

theorem below_append (dir rest : List α) : Below sep dir (dir ++ sep :: rest) :=
  ⟨rest, rfl⟩

theorem Below.length_lt (below : Below sep a b) : a.length < b.length := by
  obtain ⟨rest, rfl⟩ := below
  simp

theorem Below.trans (left : Below sep a b) (right : Below sep b c) : Below sep a c := by
  obtain ⟨rest, rfl⟩ := left
  obtain ⟨more, rfl⟩ := right
  exact ⟨rest ++ sep :: more, by simp⟩

/-- Two keys above the same key are nested in one another, by the two ways one prefix of a
list extends the other.
-/
theorem Below.linear (left : Below sep a c) (right : Below sep b c)
    : a = b ∨ Below sep a b ∨ Below sep b a := by
  obtain ⟨rest, rfl⟩ := left
  obtain ⟨more, same⟩ := right
  rcases List.append_eq_append_iff.mp same with ⟨mid, rfl, tail⟩ | ⟨mid, rfl, tail⟩
  · cases mid with
    | nil => exact Or.inl (by simp)
    | cons head mid =>
        obtain ⟨rfl, -⟩ := List.cons.inj tail
        exact Or.inr (Or.inl ⟨mid, rfl⟩)
  · cases mid with
    | nil => exact Or.inl (by simp)
    | cons head mid =>
        obtain ⟨rfl, -⟩ := List.cons.inj tail
        exact Or.inr (Or.inr ⟨mid, rfl⟩)

/-- What is above a nested key is the directory, above the directory, or inside it. -/
theorem below_append_iff
    : Below sep a (dir ++ sep :: rest)
      ↔ a = dir
        ∨ Below sep a dir
        ∨ ∃ mid more, rest = mid ++ sep :: more ∧ a = dir ++ sep :: mid := by
  constructor
  · rintro ⟨more, same⟩
    rcases List.append_eq_append_iff.mp same with ⟨mid, rfl, tail⟩ | ⟨mid, rfl, tail⟩
    · cases mid with
      | nil => exact Or.inl (by simp)
      | cons head mid =>
          obtain ⟨rfl, rfl⟩ := List.cons.inj tail
          exact Or.inr (Or.inr ⟨mid, more, rfl, rfl⟩)
    · cases mid with
      | nil => exact Or.inl (by simp)
      | cons head mid =>
          obtain ⟨rfl, -⟩ := List.cons.inj tail
          exact Or.inr (Or.inl ⟨mid, rfl⟩)
  · rintro (rfl | above | ⟨mid, more, rfl, rfl⟩)
    · exact below_append _ _
    · exact above.trans (below_append _ _)
    · exact ⟨more, by simp⟩

/-- A key whose last component starts after `dir` has above it exactly `dir` and what is
above `dir`: a component holds no separator.
-/
theorem below_component_iff (component : sep ∉ rest)
    : Below sep a (dir ++ sep :: rest) ↔ a = dir ∨ Below sep a dir := by
  rw [below_append_iff]
  constructor
  · rintro (same | above | ⟨mid, more, rfl, -⟩)
    · exact Or.inl same
    · exact Or.inr above
    · exact absurd (by simp) component
  · rintro (same | above)
    · exact Or.inl same
    · exact Or.inr (Or.inl above)

theorem not_below_component (component : sep ∉ key) : ¬ Below sep a key := by
  rintro ⟨rest, rfl⟩
  exact component (by simp)

end Gfs.Lib.Nesting
