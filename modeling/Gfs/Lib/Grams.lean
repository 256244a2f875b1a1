import Mathlib

/-! Trigrams of a list: what stands in three adjacent places, and the filter that rests on
them. A list that holds another in place, up to a relation between single elements, holds
its trigrams up to that relation.
-/

namespace Gfs.Lib.Grams

variable {α β : Type*}

/-- What stands in three adjacent places, from left to right. -/
def triples : List α → List (α × α × α)
  | a :: b :: c :: rest => (a, b, c) :: triples (b :: c :: rest)
  | _ => []

theorem mem_triples {list : List α} {a b c : α}
    : (a, b, c) ∈ triples list ↔ [a, b, c] <:+: list := by
  induction list with
  | nil => simp [triples]
  | cons head tail ih =>
      rw [List.infix_cons_iff, ← ih]
      match tail with
      | [] => simp [triples]
      | [_] => simp [triples]
      | second :: third :: rest => simp [triples, List.cons_prefix_cons]

theorem triples_ne_nil {list : List α} (long : 3 ≤ list.length) : triples list ≠ [] := by
  match list with
  | [] => simp at long
  | [_] => simp at long
  | [_, _] => simp at long
  | _ :: _ :: _ :: _ => simp [triples]

theorem triples_subset {part whole : List α} (within : part <:+: whole)
    : triples part ⊆ triples whole := by
  rintro ⟨a, b, c⟩ member
  exact mem_triples.mpr ((mem_triples.mp member).trans within)

variable {related : α → β → Prop}

/-- Where two lists correspond place by place, so do their triples. -/
theorem exists_triple {left : List α} {right : List β} (same : List.Forall₂ related left right)
    {a b c : α} (member : (a, b, c) ∈ triples left)
    : ∃ a' b' c',
        (a', b', c') ∈ triples right ∧ related a a' ∧ related b b' ∧ related c c' := by
  induction same with
  | nil => cases member
  | cons first rest ih =>
      cases rest with
      | nil => cases member
      | cons second rest =>
          cases rest with
          | nil => cases member
          | cons third rest =>
              rcases List.mem_cons.mp member with same | later
              · cases same
                exact ⟨_, _, _, List.mem_cons_self, first, second, third⟩
              · obtain ⟨a', b', c', found, relations⟩ := ih later
                exact ⟨a', b', c', List.mem_cons_of_mem _ found, relations⟩

/-- Two triples correspond place by place. -/
def Alike (related : α → β → Prop) (first : α × α × α) (second : β × β × β) : Prop :=
  related first.1 second.1 ∧ related first.2.1 second.2.1 ∧ related first.2.2 second.2.2

theorem forall₂_triples {left : List α} {right : List β} (same : List.Forall₂ related left right)
    : List.Forall₂ (Alike related) (triples left) (triples right) := by
  induction same with
  | nil => exact .nil
  | cons first rest ih =>
      cases rest with
      | nil => exact .nil
      | cons second rest =>
          cases rest with
          | nil => exact .nil
          | cons third rest => exact .cons ⟨first, second, third⟩ ih

theorem forall₂_of_triples {left : List α} {right : List β} (long : 3 ≤ left.length)
    (same : List.Forall₂ (Alike related) (triples left) (triples right))
    : List.Forall₂ related left right := by
  induction left generalizing right with
  | nil => simp at long
  | cons a left ih =>
      match left, right, long, same with
      | b :: c :: rest, a' :: b' :: c' :: rest', _, .cons alike later =>
          obtain ⟨first, second, third⟩ := alike
          match rest, rest', later with
          | [], [], _ => exact .cons first (.cons second (.cons third .nil))
          | _ :: _, _ :: _, later => exact .cons first (ih (by simp) later)

end Gfs.Lib.Grams
