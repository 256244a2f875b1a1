import Gfs.Lib.Grams
import Gfs.Types.Path

/-! Trigrams, and the literals every match must have (`gfs-search/src/trigram.rs`). A trigram
is its three bytes packed into one number.
-/

namespace Gfs.Search.Index

open Gfs.Types
open Gfs.Lib

-- Trigrams

/-- Pack three bytes into the index's trigram key. -/
def pack (window : UInt8 × UInt8 × UInt8) : Nat :=
  window.1.toNat * 65536 + window.2.1.toNat * 256 + window.2.2.toNat

/-- The trigrams of a byte string, sorted and deduplicated. -/
def trigrams (content : Bytes) : List Nat :=
  (((Grams.triples content).map pack).insertionSort (· ≤ ·)).dedup

def isAsciiAlphabetic (b : UInt8) : Bool :=
  (65 ≤ b && b ≤ 90) || (97 ≤ b && b ≤ 122)

def toAsciiLowercase (b : UInt8) : UInt8 :=
  if 65 ≤ b && b ≤ 90 then b + 32 else b

def toAsciiUppercase (b : UInt8) : UInt8 :=
  if 97 ≤ b && b ≤ 122 then b - 32 else b

/-- The ASCII spellings of a byte. -/
def choices (b : UInt8) : List UInt8 :=
  if isAsciiAlphabetic b then [toAsciiLowercase b, toAsciiUppercase b] else [b]

/-- The three bytes of a trigram. -/
def unpack (trigram : Nat) : UInt8 × UInt8 × UInt8 :=
  (UInt8.ofNat (trigram / 65536), UInt8.ofNat (trigram / 256), UInt8.ofNat trigram)

/-- The ASCII case variants of a trigram. -/
def caseVariants (trigram : Nat) : List Nat :=
  let (first, second, third) := unpack trigram
  let out :=
    (choices first).flatMap
      (fun a => (choices second).flatMap (fun b => (choices third).map (fun c => pack (a, b, c))))
  (out.insertionSort (· ≤ ·)).dedup

-- Required literals

/-- A parsed pattern (`regex_syntax::hir`). A class is the encodings of its characters; which
position a look-around asserts is read by nothing here and left out.
-/
inductive Hir where
  | empty
  | literal (bytes : Bytes)
  | oneOf (accepts : Bytes → Bool)
  | look
  | repetition (least : Nat) (most : Option Nat) (sub : Hir)
  | capture (sub : Hir)
  | concat (parts : List Hir)
  | alternation (branches : List Hir)

/-- Shortest literal the index can bound a query with. -/
def minLiteral : Nat := 3

/-- A cap on how many alternatives are worth taking to the index. -/
def maxAlternatives : Nat := 32

/-- The length of a set's shortest alternative: a match may take that branch. -/
def score (alternatives : List Bytes) : Nat :=
  ((alternatives.map List.length).min?).getD 0

mutual

/-- The required-literal set of a node, or `none` when there is not one. -/
def requiredOf : Hir → Option (List Bytes)
  | .literal bytes => some [bytes]
  | .capture sub => requiredOf sub
  | .concat parts => requiredOfParts none parts
  | .alternation branches => requiredOfBranches [] branches
  | .repetition least _ sub => if least ≥ 1 then requiredOf sub else none
  | .empty => none
  | .look => none
  | .oneOf _ => none

/-- The set of a concatenation's most selective part. -/
def requiredOfParts (best : Option (List Bytes)) : List Hir → Option (List Bytes)
  | [] => best
  | part :: parts =>
      match requiredOf part with
      | none => requiredOfParts best parts
      | some candidate =>
          match best with
          | none => requiredOfParts (some candidate) parts
          | some b =>
              requiredOfParts (if score candidate > score b then some candidate else best) parts

/-- The union of an alternation's sets. -/
def requiredOfBranches (union : List Bytes) : List Hir → Option (List Bytes)
  | [] => some union
  | branch :: branches =>
      match requiredOf branch with
      -- A match could take this branch.
      | none => none
      | some alternatives =>
          if (union ++ alternatives).length > maxAlternatives then none
          else requiredOfBranches (union ++ alternatives) branches

end

/-- Every alternative must be usable, or a match could take one that is not. -/
def finish (alternatives : List Bytes) (caseInsensitive : Bool) : Option (List Bytes) :=
  if alternatives.isEmpty || alternatives.length > maxAlternatives then none
  else if alternatives.any (fun alternative => alternative.length < minLiteral) then none
  else if caseInsensitive && alternatives.any (fun alternative => alternative.any (· ≥ 128)) then
    none
  else some ((alternatives.insertionSort (· ≤ ·)).dedup)

/-- The literals of which every match must contain one. `none` means that the index cannot
bound the query. The parser is the `regex_syntax` crate's.
-/
def requiredLiterals (parse : Bytes → Option Hir) (pattern : Bytes) (literal : Bool)
    (caseInsensitive : Bool)
    : Option (List Bytes) :=
  let alternatives := if literal then some [pattern] else (parse pattern).bind requiredOf
  alternatives.bind (finish · caseInsensitive)

-- What a pattern matches

/-- A byte string a pattern may match, where `spells` says which byte strings the engine takes
for a literal or a character. What stands around it, which a look-around asserts, is left open.
-/
inductive Hir.Matches (spells : Bytes → Bytes → Prop) : Hir → Bytes → Prop where
  | empty : Matches spells .empty []
  | literal {bytes text : Bytes} (spelled : spells bytes text)
      : Matches spells (.literal bytes) text
  | oneOf {accepts : Bytes → Bool} {character text : Bytes} (accepted : accepts character = true)
      (spelled : spells character text)
      : Matches spells (.oneOf accepts) text
  | look : Matches spells .look []
  | repetition {least : Nat} {most : Option Nat} {sub : Hir} {texts : List Bytes}
      (enough : least ≤ texts.length) (few : ∀ bound ∈ most, texts.length ≤ bound)
      (each : ∀ text ∈ texts, Matches spells sub text)
      : Matches spells (.repetition least most sub) texts.flatten
  | capture {sub : Hir} {text : Bytes} (inner : Matches spells sub text)
      : Matches spells (.capture sub) text
  | concatNil : Matches spells (.concat []) []
  | concatCons {part : Hir} {parts : List Hir} {first rest : Bytes}
      (head : Matches spells part first) (tail : Matches spells (.concat parts) rest)
      : Matches spells (.concat (part :: parts)) (first ++ rest)
  | alternation {branches : List Hir} {branch : Hir} {text : Bytes} (member : branch ∈ branches)
      (taken : Matches spells branch text)
      : Matches spells (.alternation branches) text

section Required

variable {spells : Bytes → Bytes → Prop}

/-- A part of the text spells one of the literals. -/
def Contains (spells : Bytes → Bytes → Prop) (alternatives : List Bytes) (text : Bytes) : Prop :=
  ∃ alternative ∈ alternatives, ∃ part, part <:+: text ∧ spells alternative part

theorem Contains.within {alternatives : List Bytes} {part whole : Bytes}
    (contains : Contains spells alternatives part) (within : part <:+: whole)
    : Contains spells alternatives whole := by
  obtain ⟨alternative, member, spelled, inside, spelling⟩ := contains
  exact ⟨alternative, member, spelled, inside.trans within, spelling⟩

mutual

/-- Every match of a node contains one of its required literals, by recursion on the node. -/
theorem contains_requiredOf
    : ∀ (hir : Hir) {alternatives : List Bytes} {text : Bytes},
        requiredOf hir = some alternatives
        → hir.Matches spells text
        → Contains spells alternatives text
  | .literal bytes, alternatives, text, required, .literal spelled => by
      simp only [requiredOf, Option.some.injEq] at required
      subst required
      exact ⟨bytes, List.mem_singleton_self bytes, text, List.infix_refl text, spelled⟩
  | .capture sub, alternatives, text, required, .capture inner => by
      simp only [requiredOf] at required
      exact contains_requiredOf sub required inner
  | .repetition least most sub, alternatives, _, required, .repetition enough few each => by
      rename_i texts
      simp only [requiredOf] at required
      split at required
      · rename_i occurs
        cases texts with
        | nil =>
            simp only [List.length_nil] at enough
            omega
        | cons first rest =>
            refine (contains_requiredOf sub required (each first List.mem_cons_self)).within ?_
            exact (List.prefix_append first rest.flatten).isInfix
      · cases required
  | .concat parts, alternatives, text, required, matched => by
      simp only [requiredOf] at required
      cases contains_requiredOfParts parts required matched with
      | inl kept => cases kept
      | inr found => exact found
  | .alternation branches, alternatives, text, required, .alternation member taken => by
      simp only [requiredOf] at required
      exact (contains_requiredOfBranches branches required).2 _ member taken
  | .empty, _, _, required, _ => by simp [requiredOf] at required
  | .look, _, _, required, _ => by simp [requiredOf] at required
  | .oneOf _, _, _, required, _ => by simp [requiredOf] at required

/-- The set of a concatenation is the one it was given or that of a part of it. -/
theorem contains_requiredOfParts
    : ∀ (parts : List Hir) {best : Option (List Bytes)} {alternatives : List Bytes}
        {text : Bytes},
        requiredOfParts best parts = some alternatives
        → (Hir.concat parts).Matches spells text
        → best = some alternatives ∨ Contains spells alternatives text
  | [], best, alternatives, text, required, _ => by
      simp only [requiredOfParts] at required
      exact .inl required
  | part :: parts, best, alternatives, _, required, .concatCons head tail => by
      rename_i first rest
      have later
          : ∀ {best : Option (List Bytes)},
              requiredOfParts best parts = some alternatives
              → best = some alternatives ∨ Contains spells alternatives (first ++ rest) := by
        intro best required
        cases contains_requiredOfParts parts required tail with
        | inl kept => exact .inl kept
        | inr found => exact .inr (found.within (List.suffix_append first rest).isInfix)
      have here
          : requiredOf part = some alternatives
            → Contains spells alternatives (first ++ rest) := by
        intro candidate
        exact (contains_requiredOf part candidate head).within
          (List.prefix_append first rest).isInfix
      simp only [requiredOfParts] at required
      split at required
      · exact later required
      · rename_i candidate found
        split at required
        · cases later required with
          | inl kept => exact .inr (here (by rw [found, kept]))
          | inr found => exact .inr found
        · rename_i b
          split at required
          · cases later required with
            | inl kept => exact .inr (here (by rw [found, kept]))
            | inr found => exact .inr found
          · exact later required

/-- Every set of an alternation's branches is in the union. -/
theorem contains_requiredOfBranches
    : ∀ (branches : List Hir) {union alternatives : List Bytes},
        requiredOfBranches union branches = some alternatives
        → union ⊆ alternatives
          ∧ ∀ branch ∈ branches,
              ∀ {text : Bytes},
                branch.Matches spells text → Contains spells alternatives text
  | [], union, alternatives, required => by
      simp only [requiredOfBranches, Option.some.injEq] at required
      subst required
      exact ⟨List.Subset.refl _, fun _ member => (nomatch member)⟩
  | branch :: branches, union, alternatives, required => by
      simp only [requiredOfBranches] at required
      split at required
      · cases required
      · rename_i own found
        split at required
        · cases required
        · obtain ⟨grows, others⟩ := contains_requiredOfBranches branches required
          refine ⟨fun _ member => grows (List.mem_append_left own member), ?_⟩
          intro other member text matched
          cases List.mem_cons.mp member with
          | inl same =>
              rw [same] at matched
              obtain ⟨alternative, mine, part, inside, spelled⟩ :=
                contains_requiredOf branch found matched
              exact
                ⟨alternative, grows (List.mem_append_right union mine), part, inside, spelled⟩
          | inr later => exact others other later matched

end

end Required

variable {literals : List Bytes} {content : Bytes}

/-- What `requiredLiterals` returns is a set of which every match contains one: of a literal
pattern itself, of a regex one of its node's.
-/
theorem contains_requiredLiterals {spells : Bytes → Bytes → Prop} {parse : Bytes → Option Hir}
    {pattern text : Bytes} {literal caseInsensitive : Bool}
    (required : requiredLiterals parse pattern literal caseInsensitive = some literals)
    (plain : literal = true → spells pattern text)
    (parsed : literal = false → ∀ hir, parse pattern = some hir → hir.Matches spells text)
    : Contains spells literals text := by
  obtain ⟨alternatives, found, finished⟩ := Option.bind_eq_some_iff.mp required
  have contains : Contains spells alternatives text := by
    cases mode : literal with
    | true =>
        simp only [mode, if_true, Option.some.injEq] at found
        subst found
        exact ⟨pattern, List.mem_singleton_self pattern, text, List.infix_refl text, plain mode⟩
    | false =>
        simp only [mode, Bool.false_eq_true, if_false] at found
        obtain ⟨hir, known, required⟩ := Option.bind_eq_some_iff.mp found
        exact contains_requiredOf hir required (parsed mode hir known)
  obtain ⟨alternative, member, spelled⟩ := contains
  refine ⟨alternative, ?_, spelled⟩
  simp only [finish] at finished
  repeat' split at finished
  all_goals cases finished
  rw [List.mem_dedup, List.mem_insertionSort]
  exact member

/-- A literal the index is asked for has three bytes or more, and is ASCII where case is
ignored.
-/
theorem usable_of_requiredLiterals {parse : Bytes → Option Hir} {pattern : Bytes}
    {literal caseInsensitive : Bool}
    (required : requiredLiterals parse pattern literal caseInsensitive = some literals)
    : ∀ alternative ∈ literals,
        3 ≤ alternative.length ∧ (caseInsensitive = true → ∀ b ∈ alternative, b < 128) := by
  obtain ⟨alternatives, found, finished⟩ := Option.bind_eq_some_iff.mp required
  simp only [finish] at finished
  split at finished
  · cases finished
  · split at finished
    · cases finished
    · rename_i long
      split at finished
      · cases finished
      · rename_i ascii
        cases finished
        intro alternative member
        rw [List.mem_dedup, List.mem_insertionSort] at member
        constructor
        · by_contra short
          exact long (List.any_eq_true.mpr
            ⟨alternative, member, decide_eq_true (Nat.lt_of_not_le short)⟩)
        · intro ignored b inside
          by_contra wide
          refine ascii ?_
          rw [ignored, Bool.true_and]
          exact List.any_eq_true.mpr
            ⟨alternative, member, List.any_eq_true.mpr
              ⟨b, inside, decide_eq_true (UInt8.not_lt.mp wide)⟩⟩

-- What the trigrams of a literal say of the content

theorem mem_trigrams {trigram : Nat}
    : trigram ∈ trigrams content ↔ ∃ window ∈ Grams.triples content, pack window = trigram := by
  rw [trigrams, List.mem_dedup, List.mem_insertionSort, List.mem_map]

theorem trigrams_subset {part whole : Bytes} (within : part <:+: whole)
    : trigrams part ⊆ trigrams whole := by
  intro trigram member
  obtain ⟨window, inside, packed⟩ := mem_trigrams.mp member
  exact mem_trigrams.mpr ⟨window, Grams.triples_subset within inside, packed⟩

theorem trigrams_ne_nil (long : 3 ≤ content.length)
    : trigrams content ≠ [] := by
  obtain ⟨window, member⟩ := List.exists_mem_of_ne_nil _ (Grams.triples_ne_nil long)
  exact List.ne_nil_of_mem (mem_trigrams.mpr ⟨window, member, rfl⟩)

theorem unpack_pack (window : UInt8 × UInt8 × UInt8) : unpack (pack window) = window := by
  obtain ⟨a, b, c⟩ := window
  have first := a.toNat_lt
  have second := b.toNat_lt
  have third := c.toNat_lt
  refine Prod.ext ?_ (Prod.ext ?_ ?_)
  · apply UInt8.toNat.inj
    simp only [unpack, pack, UInt8.toNat_ofNat']
    omega
  · apply UInt8.toNat.inj
    simp only [unpack, pack, UInt8.toNat_ofNat']
    omega
  · apply UInt8.toNat.inj
    simp only [unpack, pack, UInt8.toNat_ofNat']
    omega

theorem mem_caseVariants {a b c : UInt8} {variant : Nat}
    : variant ∈ caseVariants (pack (a, b, c))
      ↔ ∃ a' ∈ choices a, ∃ b' ∈ choices b, ∃ c' ∈ choices c, pack (a', b', c') = variant := by
  simp only [caseVariants, unpack_pack, List.mem_dedup, List.mem_insertionSort,
    List.mem_flatMap, List.mem_map]

/-- The trigrams the index takes for one. -/
def variants (caseInsensitive : Bool) (trigram : Nat) : List Nat :=
  if caseInsensitive then caseVariants trigram else [trigram]

/-- The content has every trigram of one of the literals, in an ASCII spelling where case is
ignored.
-/
def Bears (caseInsensitive : Bool) (literals : List Bytes) (content : Bytes) : Prop :=
  ∃ alternative ∈ literals,
    ∀ trigram ∈ trigrams alternative,
      ∃ variant ∈ variants caseInsensitive trigram, variant ∈ trigrams content

instance (caseInsensitive : Bool) (literals : List Bytes) (content : Bytes)
    : Decidable (Bears caseInsensitive literals content) :=
  inferInstanceAs (Decidable (∃ alternative ∈ literals, _))

/-- The Kelvin sign, which folds to `k`. -/
def kelvinSign : Bytes := [0xE2, 0x84, 0xAA]

/-- The long s, which folds to `s`. -/
def longS : Bytes := [0xC5, 0xBF]

/-- The UTF-8 spellings of an ASCII character under Unicode's simple case folding. -/
def spellings (b : UInt8) : List Bytes :=
  (choices b).map ([·])
  ++ if toAsciiLowercase b = 107 then [kelvinSign]
    else if toAsciiLowercase b = 115 then [longS]
    else []

/-- A byte string spells an ASCII literal under Unicode's simple case folding. -/
inductive Folds : Bytes → Bytes → Prop where
  | nil : Folds [] []
  | cons {b : UInt8} {spelling rest text : Bytes} (member : spelling ∈ spellings b)
      (tail : Folds rest text)
      : Folds (b :: rest) (spelling ++ text)

/-- Without a Kelvin sign or a long s, a spelling is one byte a character. -/
theorem Folds.forall₂ {literal text : Bytes} (folds : Folds literal text)
    (noKelvin : ¬kelvinSign <:+: text) (noLongS : ¬longS <:+: text)
    : List.Forall₂ (fun b b' => b' ∈ choices b) literal text := by
  induction folds with
  | nil => exact .nil
  | cons member tail ih =>
      rename_i b spelling rest text
      have onward := (List.suffix_append spelling text).isInfix
      have here := (List.prefix_append spelling text).isInfix
      specialize ih (fun inside => noKelvin (inside.trans onward))
        (fun inside => noLongS (inside.trans onward))
      rcases List.mem_append.mp member with plain | wide
      · obtain ⟨b', chosen, rfl⟩ := List.mem_map.mp plain
        exact .cons chosen ih
      · split at wide
        · rw [List.mem_singleton.mp wide] at here
          exact absurd (by rwa [List.mem_singleton.mp wide]) noKelvin
        · split at wide
          · rw [List.mem_singleton.mp wide] at here
            exact absurd (by rwa [List.mem_singleton.mp wide]) noLongS
          · cases wide

theorem bears_of_contains (contains : Contains Eq literals content)
    : Bears false literals content := by
  obtain ⟨alternative, member, part, inside, rfl⟩ := contains
  exact ⟨alternative, member, fun trigram within =>
    ⟨trigram, List.mem_singleton_self trigram, trigrams_subset inside within⟩⟩

theorem bears_of_folds (contains : Contains Folds literals content)
    (noKelvin : ¬kelvinSign <:+: content) (noLongS : ¬longS <:+: content)
    : Bears true literals content := by
  obtain ⟨alternative, member, part, inside, folds⟩ := contains
  have same := folds.forall₂ (fun within => noKelvin (within.trans inside))
    (fun within => noLongS (within.trans inside))
  refine ⟨alternative, member, ?_⟩
  intro trigram within
  obtain ⟨⟨a, b, c⟩, window, rfl⟩ := mem_trigrams.mp within
  obtain ⟨a', b', c', found, first, second, third⟩ := Grams.exists_triple same window
  exact ⟨pack (a', b', c'),
    mem_caseVariants.mpr ⟨a', first, b', second, c', third, rfl⟩,
    trigrams_subset inside (mem_trigrams.mpr ⟨_, found, rfl⟩)⟩

end Gfs.Search.Index
