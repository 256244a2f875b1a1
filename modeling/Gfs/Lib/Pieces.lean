import Mathlib

/-! The pieces of a list between its separators, and its words: the pieces that are not empty. -/

namespace Gfs.Lib.Pieces

variable {α : Type*} {p q : α → Bool}

-- Pieces

/-- A piece has no separator. -/
theorem clean_of_mem {list piece : List α} (member : piece ∈ list.splitOnP p)
    : ∀ a ∈ piece, p a = false := by
  induction list generalizing piece with
  | nil =>
      rw [List.splitOnP_nil, List.mem_singleton] at member
      rw [member]
      nofun
  | cons a list ih =>
      rw [List.splitOnP_cons_eq_if_modifyHead] at member
      split at member
      · rcases List.mem_cons.mp member with rfl | later
        · nofun
        · exact ih later
      · rename_i other
        cases pieces : list.splitOnP p with
        | nil => exact absurd pieces (List.splitOnP_ne_nil p list)
        | cons first rest =>
            rw [pieces, List.modifyHead_cons] at member
            rw [pieces] at ih
            rcases List.mem_cons.mp member with rfl | later
            · intro b inside
              rcases List.mem_cons.mp inside with rfl | behind
              · exact Bool.eq_false_of_not_eq_true other
              · exact ih List.mem_cons_self b behind
            · exact ih (List.mem_cons_of_mem _ later)

theorem splitOnP_congr {list : List α} (same : ∀ a ∈ list, p a = q a)
    : list.splitOnP p = list.splitOnP q := by
  induction list with
  | nil => rfl
  | cons a list ih =>
      obtain ⟨first, others⟩ := List.forall_mem_cons.mp same
      rw [List.splitOnP_cons_eq_if_modifyHead, List.splitOnP_cons_eq_if_modifyHead, first,
        ih others]

theorem splitOnP_concat {list : List α} {a : α} (separates : p a = true)
    : (list ++ [a]).splitOnP p = list.splitOnP p ++ [[]] := by
  rw [List.splitOnP_append_cons _ _ separates, List.splitOnP_nil]

-- Words

/-- The pieces that are not empty. -/
def words (p : α → Bool) (list : List α) : List (List α) :=
  (list.splitOnP p).filter (fun piece => !piece.isEmpty)

theorem words_congr {list : List α} (same : ∀ a ∈ list, p a = q a)
    : words p list = words q list := by
  rw [words, words, splitOnP_congr same]

theorem words_dropWhile (list : List α) : words p (list.dropWhile p) = words p list := by
  induction list with
  | nil => rfl
  | cons a list ih =>
      rw [List.dropWhile_cons]
      split
      · rename_i separates
        rw [ih, words, words, List.splitOnP_cons_eq_if_modifyHead, if_pos separates]
        rfl
      · rfl

theorem words_rdropWhile (list : List α) : words p (list.rdropWhile p) = words p list := by
  induction list using List.reverseRecOn with
  | nil => rfl
  | append_singleton list a ih =>
      by_cases separates : p a = true
      · rw [List.rdropWhile_concat_pos _ _ _ separates, ih, words, words, splitOnP_concat separates,
          List.filter_append]
        exact (List.append_nil _).symm
      · rw [List.rdropWhile_concat_neg _ _ _ separates]

theorem words_cons {a : α} (list : List α) (plain : p a = false)
    : ∃ rest others, words p (a :: list) = (a :: rest) :: others := by
  rw [words, List.splitOnP_cons_eq_if_modifyHead, if_neg (ne_true_of_eq_false plain)]
  cases pieces : list.splitOnP p with
  | nil => exact absurd pieces (List.splitOnP_ne_nil p list)
  | cons first rest => exact ⟨first, _, rfl⟩

theorem head_of_trimmed {list rest : List α} {a : α}
    (left : (list.dropWhile p).rdropWhile p = a :: rest)
    : p a = false := by
  have front : a :: rest <+: list.dropWhile p := left ▸ List.rdropWhile_prefix p _
  have head : (list.dropWhile p).head? = some a := by
    obtain ⟨behind, whole⟩ := front
    rw [← whole]
    rfl
  have stopped := List.head?_dropWhile_not p list
  rw [head] at stopped
  simpa using stopped

end Gfs.Lib.Pieces
