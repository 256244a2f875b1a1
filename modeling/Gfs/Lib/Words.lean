import Mathlib

/-! The words of a list, its longest runs of kept elements, and the list that has a mark for every
run of others.
-/

namespace Gfs.Lib.Words

variable {α : Type*} (kept : α → Bool)

-- Words

/-- A run as a list of words: none if it is empty. -/
def single (run : List α) : List (List α) :=
  if run = [] then [] else [run]

/-- The words of a list, where `run` is the current one so far. -/
def wordsFrom (run : List α) : List α → List (List α)
  | [] => single run
  | a :: rest => if kept a then wordsFrom (run ++ [a]) rest else single run ++ wordsFrom [] rest

def words (list : List α) : List (List α) :=
  wordsFrom kept [] list

/-- Words with a mark between any two. -/
def joined (mark : α) (list : List (List α)) : List α :=
  [mark].intercalate list

/-- A list with one mark for every longest run of elements that are not kept. The flag says whether
the last element was such a one.
-/
def collapse (mark : α) : Bool → List α → List α
  | _, [] => []
  | inside, a :: rest =>
      if kept a then a :: collapse mark false rest
      else if inside then collapse mark true rest
      else mark :: collapse mark true rest

variable {kept}

theorem single_of_ne_nil {run : List α} (some_ : run ≠ []) : single run = [run] :=
  if_neg some_

theorem wordsFrom_ne_nil {run : List α} (some_ : run ≠ []) (list : List α)
    : wordsFrom kept run list ≠ [] := by
  induction list generalizing run with
  | nil => simp [wordsFrom, single_of_ne_nil some_]
  | cons a list ih =>
      rw [wordsFrom]
      split
      · exact ih (by simp)
      · simp [single_of_ne_nil some_]

theorem wordsFrom_part {a : α} (parts : kept a = false) (run front back : List α)
    : wordsFrom kept run (front ++ a :: back) = wordsFrom kept run front ++ words kept back := by
  induction front generalizing run with
  | nil =>
      rw [List.nil_append, wordsFrom.eq_2, parts, if_neg Bool.false_ne_true]
      rfl
  | cons b front ih =>
      rw [List.cons_append, wordsFrom, wordsFrom]
      split
      · exact ih (run ++ [b])
      · rw [ih [], List.append_assoc]

theorem words_part {a : α} (parts : kept a = false) (front back : List α)
    : words kept (front ++ a :: back) = words kept front ++ words kept back :=
  wordsFrom_part parts [] front back

theorem words_cons {a : α} (parts : kept a = false) (list : List α)
    : words kept (a :: list) = words kept list := by
  rw [← List.nil_append (a :: list), words_part parts]
  rfl

theorem words_append_left {front : List α} (parts : ∀ a ∈ front, kept a = false) (list : List α)
    : words kept (front ++ list) = words kept list := by
  induction front with
  | nil => rfl
  | cons a front ih =>
      obtain ⟨here, later⟩ := List.forall_mem_cons.mp parts
      rw [List.cons_append, words_cons here, ih later]

theorem words_append_right {back : List α} (parts : ∀ a ∈ back, kept a = false) (list : List α)
    : words kept (list ++ back) = words kept list := by
  cases back with
  | nil => rw [List.append_nil]
  | cons a back =>
      obtain ⟨here, later⟩ := List.forall_mem_cons.mp parts
      have none_ : words kept back = [] := by
        have := words_append_left later []
        rwa [List.append_nil] at this
      rw [words_part here, none_, List.append_nil]

theorem words_dropWhile {p : α → Bool} (parts : ∀ a, p a = true → kept a = false)
    (list : List α)
    : words kept (list.dropWhile p) = words kept list := by
  conv_rhs => rw [← List.takeWhile_append_dropWhile (p := p) (l := list)]
  exact (words_append_left (fun a member => parts a (List.mem_takeWhile_imp member)) _).symm

theorem words_map {f : α → α} (keeps : ∀ a, kept a = true → f a = a)
    (parts : ∀ a, kept a = false → kept (f a) = false) (list : List α)
    : words kept (list.map f) = words kept list := by
  have generally (run : List α) : wordsFrom kept run (list.map f) = wordsFrom kept run list := by
    induction list generalizing run with
    | nil => rfl
    | cons a list ih =>
        rw [List.map_cons, wordsFrom, wordsFrom]
        cases here : kept a with
        | true => rw [keeps a here, here, if_pos rfl, if_pos rfl, ih]
        | false => rw [parts a here, if_neg Bool.false_ne_true, if_neg Bool.false_ne_true, ih]
  exact generally []

theorem wordsFrom_kept {run word : List α} (all : ∀ a ∈ word, kept a = true)
    : wordsFrom kept run word = single (run ++ word) := by
  induction word generalizing run with
  | nil => rw [List.append_nil, wordsFrom]
  | cons a word ih =>
      obtain ⟨here, later⟩ := List.forall_mem_cons.mp all
      rw [wordsFrom, here, if_pos rfl, ih later, List.append_assoc, List.singleton_append]

/-- Kept elements at the end of a list lengthen its last word, or are one. -/
theorem words_append_kept {word : List α} (some_ : word ≠ []) (all : ∀ a ∈ word, kept a = true)
    (list : List α)
    : ∃ front last,
        words kept list = front ++ single last
        ∧ words kept (list ++ word) = front ++ [last ++ word] := by
  have generally (run : List α)
      : ∃ front last,
          wordsFrom kept run list = front ++ single last
          ∧ wordsFrom kept run (list ++ word) = front ++ [last ++ word] := by
    induction list generalizing run with
    | nil =>
        refine ⟨[], run, rfl, ?_⟩
        rw [List.nil_append, wordsFrom_kept all, single_of_ne_nil (by simp [some_]),
          List.nil_append]
    | cons a list ih =>
        rw [List.cons_append, wordsFrom, wordsFrom]
        split
        · exact ih (run ++ [a])
        · obtain ⟨front, last, short, long⟩ := ih []
          exact ⟨single run ++ front, last, by rw [short, List.append_assoc],
            by rw [long, List.append_assoc]⟩
  exact generally []

/-- A word is a run of kept elements. -/
def IsWord (kept : α → Bool) (word : List α) : Prop :=
  word ≠ [] ∧ ∀ a ∈ word, kept a = true

theorem isWord_of_mem_wordsFrom {run list : List α} (all : ∀ a ∈ run, kept a = true)
    : ∀ word ∈ wordsFrom kept run list, IsWord kept word := by
  have of_single {run : List α} (all : ∀ a ∈ run, kept a = true)
      : ∀ word ∈ single run, IsWord kept word := by
    intro word member
    rw [single] at member
    split at member
    · cases member
    · rename_i some_
      rw [List.mem_singleton.mp member]
      exact ⟨some_, all⟩
  induction list generalizing run with
  | nil => exact of_single all
  | cons a list ih =>
      intro word member
      rw [wordsFrom] at member
      split at member
      · rename_i here
        refine ih (fun b inside => ?_) word member
        cases List.mem_append.mp inside with
        | inl before => exact all b before
        | inr same => rwa [List.mem_singleton.mp same]
      · cases List.mem_append.mp member with
        | inl first => exact of_single all word first
        | inr later => exact ih (fun _ none_ => absurd none_ List.not_mem_nil) word later

theorem isWord_of_mem_words {list : List α} : ∀ word ∈ words kept list, IsWord kept word :=
  isWord_of_mem_wordsFrom fun _ none_ => absurd none_ List.not_mem_nil

-- Collapsed lists

@[simp]
theorem joined_singleton (mark : α) (word : List α) : joined mark [word] = word := by
  simp [joined, List.intercalate]

theorem joined_cons (mark : α) (word : List α) {list : List (List α)} (some_ : list ≠ [])
    : joined mark (word :: list) = word ++ mark :: joined mark list := by
  cases list with
  | nil => exact absurd rfl some_
  | cons next rest => simp [joined, List.intercalate]

theorem joined_append (mark : α) {front : List (List α)} (some_ : front ≠ []) (last : List α)
    : joined mark (front ++ [last]) = joined mark front ++ mark :: last := by
  induction front with
  | nil => exact absurd rfl some_
  | cons word front ih =>
      cases front with
      | nil => rw [List.singleton_append, joined_cons mark word (by simp), joined_singleton,
          joined_singleton]
      | cons next front =>
          rw [List.cons_append, joined_cons mark word (by simp), ih (by simp),
            joined_cons mark word (by simp), List.append_assoc, List.cons_append]

/-- Words begin and end with what is kept. -/
theorem joined_ends (mark : α) {list : List (List α)} (each : ∀ word ∈ list, IsWord kept word)
    : (∀ a ∈ (joined mark list).head?, kept a = true)
      ∧ ∀ a ∈ (joined mark list).getLast?, kept a = true := by
  induction list with
  | nil => simp [joined, List.intercalate]
  | cons word list ih =>
      obtain ⟨here, later⟩ := List.forall_mem_cons.mp each
      obtain ⟨first, rest, rfl⟩ := List.exists_cons_of_ne_nil here.1
      have front : kept first = true := here.2 first List.mem_cons_self
      by_cases none_ : list = []
      · rw [none_, joined_singleton]
        exact ⟨by simpa using front, fun a last => here.2 a (List.mem_of_getLast? last)⟩
      · rw [joined_cons mark _ none_]
        refine ⟨by simpa using front, fun a last => (ih later).2 a ?_⟩
        have some_ : joined mark list ≠ [] := by
          obtain ⟨next, more, rfl⟩ := List.exists_cons_of_ne_nil none_
          obtain ⟨b, tail, same⟩ := List.exists_cons_of_ne_nil (later next List.mem_cons_self).1
          by_cases alone : more = []
          · rw [alone, joined_singleton, same]
            exact List.cons_ne_nil _ _
          · rw [joined_cons mark _ alone, same]
            exact List.cons_ne_nil _ _
        rwa [List.getLast?_append, List.getLast?_cons_of_ne_nil some_,
          List.getLast?_eq_some_getLast some_, Option.some_or,
          ← List.getLast?_eq_some_getLast some_] at last

/-- A collapsed list is its words with a mark between any two, and at most one mark at the end. -/
theorem collapse_spec (mark : α) (list : List α)
    : (∀ run ≠ [], ∃ tail ∈ [[], [mark]],
        run ++ collapse kept mark false list = joined mark (wordsFrom kept run list) ++ tail)
      ∧ ∃ tail ∈ [[], [mark]],
          collapse kept mark true list = joined mark (words kept list) ++ tail
          ∧ (words kept list = [] → tail = []) := by
  induction list with
  | nil =>
      constructor
      · intro run some_
        refine ⟨[], by simp, ?_⟩
        rw [collapse, wordsFrom, single_of_ne_nil some_, joined_singleton]
      · exact ⟨[], by simp, by simp [collapse, words, wordsFrom, single, joined,
          List.intercalate], fun _ => rfl⟩
  | cons a list ih =>
      obtain ⟨within, outside⟩ := ih
      cases here : kept a with
      | true =>
          constructor
          · intro run _
            obtain ⟨tail, member, same⟩ := within (run ++ [a]) (by simp)
            refine ⟨tail, member, ?_⟩
            rw [collapse, here, if_pos rfl, wordsFrom, here, if_pos rfl, ← same, List.append_assoc,
              List.singleton_append]
          · obtain ⟨tail, member, same⟩ := within [a] (by simp)
            refine ⟨tail, member, ?_, ?_⟩
            · rw [collapse, here, if_pos rfl, words, wordsFrom, here, if_pos rfl,
                List.nil_append, ← same, List.singleton_append]
            · intro none_
              rw [words, wordsFrom, here, if_pos rfl] at none_
              exact absurd none_ (wordsFrom_ne_nil (by simp) _)
      | false =>
          obtain ⟨tail, member, same, ends⟩ := outside
          constructor
          · intro run some_
            rw [collapse, here, if_neg Bool.false_ne_true, if_neg Bool.false_ne_true, wordsFrom,
              here, if_neg Bool.false_ne_true, single_of_ne_nil some_, same]
            by_cases none_ : words kept list = []
            · refine ⟨[mark], by simp, ?_⟩
              rw [ends none_, show wordsFrom kept [] list = [] from none_, none_]
              simp [joined, List.intercalate]
            · refine ⟨tail, member, ?_⟩
              change _ = joined mark (run :: words kept list) ++ tail
              rw [joined_cons mark run none_, List.append_assoc]
              rfl
          · refine ⟨tail, member, ?_, ?_⟩
            · rw [collapse, here, if_neg Bool.false_ne_true, if_pos rfl, words_cons here, same]
            · rw [words_cons here]
              exact ends

/-- A collapsed list without outer marks is its words with a mark between any two. -/
theorem trimmed_collapse [DecidableEq α] {mark : α} (parts : kept mark = false) (list : List α)
    : ((collapse kept mark false list).dropWhile (· = mark)).rdropWhile (· = mark)
      = joined mark (words kept list) := by
  have apart {a : α} (here : kept a = true) : ¬(decide (a = mark) = true) := by
    rintro same
    rw [of_decide_eq_true same, parts] at here
    cases here
  obtain ⟨front, back⟩ := joined_ends mark (@isWord_of_mem_words α kept list)
  -- Outer marks are dropped, and what is between them begins and ends with what is kept.
  have dropped (lead tail : List α) (leads : lead ∈ [[], [mark]]) (tails : tail ∈ [[], [mark]])
      (ends : joined mark (words kept list) = [] → tail = [])
      : ((lead ++ (joined mark (words kept list) ++ tail)).dropWhile (· = mark)).rdropWhile
          (· = mark)
        = joined mark (words kept list) := by
    have begun
        : (lead ++ (joined mark (words kept list) ++ tail)).dropWhile (· = mark)
          = joined mark (words kept list) ++ tail := by
      have inner
          : (joined mark (words kept list) ++ tail).dropWhile (· = mark)
            = joined mark (words kept list) ++ tail := by
        cases same : joined mark (words kept list) with
        | nil => rw [ends same]; rfl
        | cons a rest =>
            rw [List.cons_append, List.dropWhile_cons_of_neg]
            exact apart (front a (by rw [same]; rfl))
      rcases List.mem_pair.mp leads with rfl | rfl
      · exact inner
      · rw [List.singleton_append, List.dropWhile_cons_of_pos (by simp), inner]
    have ended
        : (joined mark (words kept list)).rdropWhile (· = mark)
          = joined mark (words kept list) := by
      rw [List.rdropWhile_eq_self_iff]
      intro some_
      exact apart (back _ (List.getLast?_eq_some_getLast some_))
    rw [begun]
    rcases List.mem_pair.mp tails with rfl | rfl
    · rw [List.append_nil, ended]
    · rw [List.rdropWhile_concat_pos _ _ _ (by simp), ended]
  have empty (none_ : joined mark (words kept list) = []) : words kept list = [] := by
    by_contra some_
    obtain ⟨word, rest, same⟩ := List.exists_cons_of_ne_nil some_
    have inside := isWord_of_mem_words word (same ▸ List.mem_cons_self)
    rw [same] at none_
    by_cases alone : rest = []
    · rw [alone, joined_singleton] at none_
      exact inside.1 none_
    · rw [joined_cons mark _ alone] at none_
      simp at none_
  cases list with
  | nil => rfl
  | cons a rest =>
      cases here : kept a with
      | true =>
          obtain ⟨tail, tails, same⟩ := (collapse_spec mark rest).1 [a] (by simp)
          have whole : words kept (a :: rest) = wordsFrom kept [a] rest := by
            rw [words, wordsFrom, here, if_pos rfl, List.nil_append]
          have spelled
              : collapse kept mark false (a :: rest)
                = [] ++ (joined mark (words kept (a :: rest)) ++ tail) := by
            rw [collapse, here, if_pos rfl, whole, ← same]
            rfl
          rw [spelled]
          refine dropped [] tail (by simp) tails fun none_ => ?_
          exact absurd (whole.symm.trans (empty none_)) (wordsFrom_ne_nil (by simp) _)
      | false =>
          obtain ⟨tail, tails, same, ends⟩ := (collapse_spec mark rest).2
          have whole : words kept (a :: rest) = words kept rest := words_cons here rest
          have spelled
              : collapse kept mark false (a :: rest)
                = [mark] ++ (joined mark (words kept (a :: rest)) ++ tail) := by
            rw [collapse, here, if_neg Bool.false_ne_true, if_neg Bool.false_ne_true, whole,
              ← same]
            rfl
          rw [spelled]
          exact dropped [mark] tail (by simp) tails fun none_ => ends (whole ▸ empty none_)

end Gfs.Lib.Words
