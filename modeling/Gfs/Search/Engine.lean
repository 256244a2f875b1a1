import Gfs.Search.Query

/-! What the search rests on of the `regex` and `regex_syntax` crates, and an engine that keeps
it for plain words.
-/

namespace Gfs.Search.Index

open Gfs.Types

-- Documented engines

/-- The bytes of a span. -/
def Span.slice (span : Span) (text : Bytes) : Bytes :=
  (text.take span.stop).drop span.start

theorem Span.slice_infix (span : Span) (text : Bytes) : span.slice text <:+: text :=
  (List.drop_suffix _ _).isInfix.trans (List.take_prefix _ _).isInfix

/-- The byte strings an engine takes for a literal: itself, or any that folds to the same where
case is ignored.
-/
def spelling (folds : Bytes → Bytes → Prop) (caseInsensitive : Bool) (literal text : Bytes)
    : Prop :=
  if caseInsensitive then folds literal text else literal = text

/-- What an engine's documentation says of its matches, where `folds` is Unicode's simple case
folding.
-/
structure Documented (engine : Engine) (folds : Bytes → Bytes → Prop) : Prop where
  /-- An escaped pattern matches what spells it. -/
  literal
    : ∀ pattern caseInsensitive size matcher,
        engine.compile (engine.escape pattern) caseInsensitive size = .ok matcher
        → ∀ text, ∀ span ∈ matcher text,
            spelling folds caseInsensitive pattern (span.slice text)
  /-- A pattern matches what its syntax tree does. -/
  regex
    : ∀ pattern caseInsensitive size matcher hir,
        engine.compile pattern caseInsensitive size = .ok matcher
        → engine.parse pattern = some hir
        → ∀ text, ∀ span ∈ matcher text,
            hir.Matches (spelling folds caseInsensitive) (span.slice text)
  /-- The matches of a text do not overlap and come from left to right. -/
  ordered
    : ∀ pattern caseInsensitive size matcher,
        engine.compile pattern caseInsensitive size = .ok matcher
        → ∀ text, (matcher text).Pairwise (fun a b => a.start < b.start)
  /-- Of the characters that fold to an ASCII one, the Kelvin sign and the long s are the only
  ones that are not ASCII themselves.
  -/
  ascii
    : ∀ literal text, (∀ b ∈ literal, b < 128) → folds literal text → Folds literal text

-- An engine for plain words

/-- How long a prefix of the text spells the word, if one does. -/
def wordLength (spell : UInt8 → List Bytes) : Bytes → Bytes → Option Nat
  | [], _ => some 0
  | b :: rest, text =>
      match (spell b).find? (·.isPrefixOf text) with
      | none => none
      | some first => (wordLength spell rest (text.drop first.length)).map (first.length + ·)

/-- The spans of a word in a text, from an offset on. -/
def wordSpans (spell : UInt8 → List Bytes) (word text : Bytes) : Nat → Nat → List Span
  | 0, _ => []
  | fuel + 1, offset =>
      match wordLength spell word (text.drop offset) with
      | none => wordSpans spell word text fuel (offset + 1)
      | some length =>
          ⟨offset, offset + length⟩ :: wordSpans spell word text fuel (offset + max length 1)

/-- The spellings of a character. -/
def spells (caseInsensitive : Bool) (b : UInt8) : List Bytes :=
  if caseInsensitive then spellings b else [[b]]

/-- An engine that compiles patterns of ASCII letters, which need no escape. -/
def Engine.plain : Engine where
  parse := fun pattern => if pattern.all isAsciiAlphabetic then some (.literal pattern) else none
  escape := id
  compile := fun pattern caseInsensitive _ =>
    if pattern.all isAsciiAlphabetic then
      .ok (fun text => wordSpans (spells caseInsensitive) pattern text (text.length + 1) 0)
    else .error "only letters are understood".toList

section Plain

variable {caseInsensitive : Bool} {word text : Bytes}

/-- A prefix of the length that is found spells the word. -/
theorem spelling_of_wordLength {length : Nat}
    (found : wordLength (spells caseInsensitive) word text = some length)
    : spelling Folds caseInsensitive word (text.take length) := by
  induction word generalizing text length with
  | nil =>
      cases found
      cases caseInsensitive with
      | false => exact (List.take_zero).symm
      | true => exact .nil
  | cons b rest ih =>
      simp only [wordLength] at found
      split at found
      · cases found
      · rename_i first chosen
        obtain ⟨more, later, rfl⟩ := Option.map_eq_some_iff.mp found
        have member := List.mem_of_find?_eq_some chosen
        have start := List.find?_some chosen
        obtain ⟨tail, rfl⟩ := List.isPrefixOf_iff_prefix.mp start
        rw [List.drop_left] at later
        specialize ih later
        rw [List.take_length_add_append]
        cases caseInsensitive with
        | false =>
            rw [spells, if_neg Bool.false_ne_true, List.mem_singleton] at member
            simp only [spelling, Bool.false_eq_true, if_false] at ih ⊢
            rw [member, ← ih]
            rfl
        | true =>
            simp only [spelling, if_true] at ih ⊢
            exact .cons member ih

theorem of_mem_wordSpans {fuel offset : Nat} {span : Span}
    (member : span ∈ wordSpans (spells caseInsensitive) word text fuel offset)
    : offset ≤ span.start ∧ spelling Folds caseInsensitive word (span.slice text) := by
  induction fuel generalizing offset with
  | zero => cases member
  | succ fuel ih =>
      simp only [wordSpans] at member
      split at member
      · obtain ⟨later, spelled⟩ := ih member
        exact ⟨by omega, spelled⟩
      · rename_i length found
        cases List.mem_cons.mp member with
        | inl here =>
            subst here
            refine ⟨Nat.le_refl _, ?_⟩
            rw [Span.slice, List.drop_take, Nat.add_sub_cancel_left]
            exact spelling_of_wordLength found
        | inr member =>
            obtain ⟨later, spelled⟩ := ih member
            exact ⟨by omega, spelled⟩

theorem wordSpans_ordered (fuel offset : Nat)
    : (wordSpans (spells caseInsensitive) word text fuel offset).Pairwise
        (fun a b => a.start < b.start) := by
  induction fuel generalizing offset with
  | zero => exact .nil
  | succ fuel ih =>
      simp only [wordSpans]
      split
      · exact ih _
      · refine List.pairwise_cons.mpr ⟨?_, ih _⟩
        intro span member
        have := (of_mem_wordSpans member).1
        change offset < span.start
        omega

end Plain

theorem plain_documented : Documented .plain Folds := by
  constructor
  · intro pattern caseInsensitive size matcher compiled text span member
    simp only [Engine.plain, id_eq] at compiled
    split at compiled
    · cases compiled
      exact (of_mem_wordSpans member).2
    · cases compiled
  · intro pattern caseInsensitive size matcher hir compiled parsed text span member
    simp only [Engine.plain] at compiled parsed
    split at compiled
    · rename_i letters
      cases compiled
      rw [if_pos letters] at parsed
      cases parsed
      exact .literal (of_mem_wordSpans member).2
    · cases compiled
  · intro pattern caseInsensitive size matcher compiled text
    simp only [Engine.plain] at compiled
    split at compiled
    · cases compiled
      exact wordSpans_ordered _ _
    · cases compiled
  · exact fun _ _ _ folds => folds

end Gfs.Search.Index
