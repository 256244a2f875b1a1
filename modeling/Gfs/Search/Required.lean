import Gfs.Search.Completeness

/-! The promise of the required literals: what the index asks for is in every match. A literal
is looked for trigram by trigram, in the ASCII spellings of each where case is ignored, while the
matcher folds by Unicode.
-/

namespace Gfs.Search.Index

open Gfs.Types
open Gfs.Lib

theorem forall_byte {p : UInt8 → Bool} (every : (List.range 256).all (fun n => p n.toUInt8) = true)
    (b : UInt8)
    : p b = true := by
  have here := List.all_eq_true.mp every b.toNat (List.mem_range.mpr b.toNat_lt)
  rwa [Nat.toUInt8, UInt8.ofNat_toNat] at here

-- Respelled literals

/-- Trigram by trigram, the text is a case variant of the literal. -/
def Respelled (literal text : Bytes) : Prop :=
  List.Forall₂ (fun window other => pack other ∈ caseVariants (pack window))
    (Grams.triples literal) (Grams.triples text)

theorem pack_mem_caseVariants {window other : UInt8 × UInt8 × UInt8}
    : pack other ∈ caseVariants (pack window)
      ↔ Grams.Alike (fun b b' => b' ∈ choices b) window other := by
  obtain ⟨a, b, c⟩ := window
  rw [mem_caseVariants]
  constructor
  · rintro ⟨a', first, b', second, c', third, same⟩
    have triple : (a', b', c') = other := by
      rw [← unpack_pack (a', b', c'), same, unpack_pack]
    rw [← triple]
    exact ⟨first, second, third⟩
  · intro ⟨first, second, third⟩
    exact ⟨other.1, first, other.2.1, second, other.2.2, third, rfl⟩

variable {literal text : Bytes} {b : UInt8}

theorem respelled_iff (long : 3 ≤ literal.length)
    : Respelled literal text ↔ List.Forall₂ (fun b b' => b' ∈ choices b) literal text := by
  have step
      : Respelled literal text
        ↔ List.Forall₂ (Grams.Alike (fun b b' => b' ∈ choices b)) (Grams.triples literal)
            (Grams.triples text) := by
    constructor
    · exact fun same => List.Forall₂.imp (fun _ _ variant => pack_mem_caseVariants.mp variant) same
    · exact fun same => List.Forall₂.imp (fun _ _ alike => pack_mem_caseVariants.mpr alike) same
  rw [step]
  exact ⟨Grams.forall₂_of_triples long, Grams.forall₂_triples⟩

theorem choices_ascii {b' : UInt8} (ascii : b < 128) (chosen : b' ∈ choices b) : b' < 128 := by
  have every :=
    @forall_byte
      (fun b => !decide (b.toNat < 128) || (choices b).all (fun b' => b'.toNat < 128))
      (by decide +kernel) b
  have low : b.toNat < 128 := UInt8.lt_iff_toNat_lt.mp ascii
  rw [decide_eq_true low, Bool.not_true, Bool.false_or] at every
  exact UInt8.lt_iff_toNat_lt.mpr (of_decide_eq_true (List.all_eq_true.mp every b' chosen))

theorem folds_of_forall₂ (same : List.Forall₂ (fun b b' => b' ∈ choices b) literal text)
    : Folds literal text := by
  induction same with
  | nil => exact .nil
  | cons chosen _ ih =>
      exact .cons (List.mem_append_left _ (List.mem_map_of_mem chosen)) ih

theorem forall₂_ascii (ascii : ∀ b ∈ literal, b < 128)
    (same : List.Forall₂ (fun b b' => b' ∈ choices b) literal text)
    : ∀ b' ∈ text, b' < 128 := by
  induction same with
  | nil => exact fun _ member => (nomatch member)
  | cons chosen _ ih =>
      intro other member
      cases List.mem_cons.mp member with
      | inl here =>
          rw [here]
          exact choices_ascii (ascii _ List.mem_cons_self) chosen
      | inr later => exact ih (fun b inside => ascii b (List.mem_cons_of_mem _ inside)) other later

theorem undisguised_of_ascii (ascii : ∀ b ∈ text, b < 128)
    : ¬kelvinSign <:+: text ∧ ¬longS <:+: text := by
  constructor
  · intro inside
    exact absurd (ascii 0xE2 (inside.subset List.mem_cons_self)) (by decide)
  · intro inside
    exact absurd (ascii 0xC5 (inside.subset List.mem_cons_self)) (by decide)

-- The promise

/-- A match contains a required literal, in a case variant where case is ignored, and a blob with
the match is among the candidates once it has been merged.
-/
structure Promised (caseInsensitive : Bool) (literals : List Bytes) (found : Bytes) : Prop where
  contains : Contains (spelling Respelled caseInsensitive) literals found
  proposed
    : ∀ (batches : List (List (BlobKey × Bytes))) (key : BlobKey) (content : Bytes)
        (members : Bitmap),
        found <:+: content
        → key ∈ members
        → (∃ blobs ∈ batches, (key, content) ∈ blobs)
        → key ∈ (PostingStore.of batches).candidates literals members caseInsensitive

/-- Wherever the text spells a literal it takes a Kelvin sign or a long s for it. -/
def Disguised (literals : List Bytes) (text : Bytes) : Prop :=
  ∀ literal ∈ literals,
    ∀ part, part <:+: text → Folds literal part → kelvinSign <:+: part ∨ longS <:+: part

section Promise

variable {literals : List Bytes} {found : Bytes} {caseInsensitive : Bool}

theorem candidate_of_bears {batches : List (List (BlobKey × Bytes))} {key : BlobKey}
    {content : Bytes} {members : Bitmap}
    (usable : ∀ literal ∈ literals, 3 ≤ literal.length) (member : key ∈ members)
    (merged : ∃ blobs ∈ batches, (key, content) ∈ blobs)
    (bears : Bears caseInsensitive literals content)
    : key ∈ (PostingStore.of batches).candidates literals members caseInsensitive := by
  rw [PostingStore.mem_candidates usable]
  refine ⟨member, ?_⟩
  obtain ⟨literal, among, every⟩ := bears
  refine ⟨literal, among, ?_⟩
  intro trigram within
  obtain ⟨variant, spelled, held⟩ := every trigram within
  obtain ⟨blobs, batch, inside⟩ := merged
  exact ⟨variant, spelled, PostingStore.mem_of.mpr ⟨blobs, batch, content, inside, held⟩⟩

theorem bears_of_respelled {content : Bytes} (usable : ∀ literal ∈ literals, 3 ≤ literal.length)
    (contains : Contains Respelled literals content)
    : Bears true literals content := by
  obtain ⟨literal, among, part, inside, respelled⟩ := contains
  have same := (respelled_iff (usable literal among)).mp respelled
  refine ⟨literal, among, ?_⟩
  intro trigram within
  obtain ⟨⟨a, b, c⟩, window, rfl⟩ := mem_trigrams.mp within
  obtain ⟨a', b', c', held, first, second, third⟩ := Grams.exists_triple same window
  exact ⟨pack (a', b', c'),
    mem_caseVariants.mpr ⟨a', first, b', second, c', third, rfl⟩,
    trigrams_subset inside (mem_trigrams.mpr ⟨_, held, rfl⟩)⟩

theorem promised_of_contains (usable : ∀ literal ∈ literals, 3 ≤ literal.length)
    (contains : Contains (spelling Respelled caseInsensitive) literals found)
    : Promised caseInsensitive literals found := by
  refine ⟨contains, ?_⟩
  intro batches key content members inside member merged
  refine candidate_of_bears usable member merged ?_
  have whole := contains.within inside
  cases caseInsensitive with
  | false => exact bears_of_contains whole
  | true => exact bears_of_respelled usable whole

theorem contains_respelled_iff
    (usable : ∀ literal ∈ literals, 3 ≤ literal.length ∧ ∀ b ∈ literal, b < 128)
    : Contains Respelled literals found ↔ ¬Disguised literals found := by
  constructor
  · intro ⟨literal, among, part, inside, respelled⟩ disguised
    have same := (respelled_iff (usable literal among).1).mp respelled
    have plain := undisguised_of_ascii (forall₂_ascii (usable literal among).2 same)
    cases disguised literal among part inside (folds_of_forall₂ same) with
    | inl kelvin => exact plain.1 kelvin
    | inr long => exact plain.2 long
  · intro open_
    simp only [Disguised, not_forall, not_or] at open_
    obtain ⟨literal, among, part, inside, folds, noKelvin, noLongS⟩ := open_
    exact ⟨literal, among, part, inside,
      (respelled_iff (usable literal among).1).mpr (folds.forall₂ noKelvin noLongS)⟩

end Promise

-- Letters with a spelling beyond ASCII

/-- A literal without the letters `k` and `s`. -/
def Plain (literal : Bytes) : Prop :=
  ∀ b ∈ literal, toAsciiLowercase b ≠ 107 ∧ toAsciiLowercase b ≠ 115

theorem spellings_of_plain (plain : toAsciiLowercase b ≠ 107 ∧ toAsciiLowercase b ≠ 115)
    : spellings b = (choices b).map ([·]) := by
  rw [spellings, if_neg plain.1, if_neg plain.2, List.append_nil]

theorem Folds.forall₂_of_plain (folds : Folds literal text) (plain : Plain literal)
    : List.Forall₂ (fun b b' => b' ∈ choices b) literal text := by
  induction folds with
  | nil => exact .nil
  | cons member tail ih =>
      rw [spellings_of_plain (plain _ List.mem_cons_self)] at member
      obtain ⟨b', chosen, rfl⟩ := List.mem_map.mp member
      exact .cons chosen (ih fun b inside => plain b (List.mem_cons_of_mem _ inside))

/-- A byte's spelling that is farthest from ASCII. -/
def disguise (b : UInt8) : Bytes :=
  if toAsciiLowercase b = 107 then kelvinSign
  else if toAsciiLowercase b = 115 then longS
  else [b]

theorem disguise_mem (b : UInt8) : disguise b ∈ spellings b := by
  exact of_decide_eq_true (@forall_byte (fun b => decide (disguise b ∈ spellings b))
    (by decide +kernel) b)

theorem plain_of_mem_disguise {b' : UInt8} (member : b' ∈ disguise b)
    : toAsciiLowercase b' ≠ 107 ∧ toAsciiLowercase b' ≠ 115 := by
  have every :=
    @forall_byte
      (fun b =>
        (disguise b).all (fun b' => toAsciiLowercase b' ≠ 107 && toAsciiLowercase b' ≠ 115))
      (by decide +kernel) b
  simpa using List.all_eq_true.mp every b' member

theorem folds_disguise (literal : Bytes) : Folds literal (literal.flatMap disguise) := by
  induction literal with
  | nil => exact .nil
  | cons b rest ih => exact .cons (disguise_mem b) ih

theorem toAsciiLowercase_of_mem_choices {b' : UInt8} (chosen : b' ∈ choices b)
    : toAsciiLowercase b' = toAsciiLowercase b := by
  have every :=
    @forall_byte
      (fun b => (choices b).all (fun b' => toAsciiLowercase b' = toAsciiLowercase b))
      (by decide +kernel) b
  simpa using List.all_eq_true.mp every b' chosen

/-- A disguised literal contains a case variant of itself only if it has none of the letters. -/
theorem plain_of_contains_disguise (long : 3 ≤ literal.length)
    (contains : Contains Respelled [literal] (literal.flatMap disguise))
    : Plain literal := by
  obtain ⟨same, among, part, inside, respelled⟩ := contains
  rw [List.mem_singleton.mp among, respelled_iff long] at respelled
  have kept
      : ∀ {letters text : Bytes},
          List.Forall₂ (fun b b' => b' ∈ choices b) letters text
          → (∀ b' ∈ text, toAsciiLowercase b' ≠ 107 ∧ toAsciiLowercase b' ≠ 115)
          → Plain letters := by
    intro letters text same plain
    induction same with
    | nil => exact fun _ member => (nomatch member)
    | cons chosen _ ih =>
        intro b member
        cases List.mem_cons.mp member with
        | inl here =>
            rw [here, ← toAsciiLowercase_of_mem_choices chosen]
            exact plain _ List.mem_cons_self
        | inr later => exact ih (fun b' inside => plain b' (List.mem_cons_of_mem _ inside)) b later
  refine kept respelled ?_
  intro b' member
  obtain ⟨b, _, spelled⟩ := List.mem_flatMap.mp (inside.subset member)
  exact plain_of_mem_disguise spelled

-- Queries

/-- What an engine's documentation says it finds. -/
structure Thorough (engine : Engine) (folds : Bytes → Bytes → Prop) : Prop where
  /-- Where case is ignored, an escaped pattern is found in a text that folds to it. -/
  finds
    : ∀ pattern size matcher,
        engine.compile (engine.escape pattern) true size = .ok matcher
        → ∀ text, folds pattern text → ∃ span ∈ matcher text, span.slice text = text
  /-- The Kelvin sign and the long s fold to ASCII letters. -/
  folds : ∀ literal text, (∀ b ∈ literal, b < 128) → Folds literal text → folds literal text

section Query

variable {engine : Engine} {folds : Bytes → Bytes → Prop} {query : Query} {matcher : Matcher}
  {literals : List Bytes}

theorem exists_disguised (thorough : Thorough engine folds)
    (compiled : buildMatcher engine query = .ok matcher) (verbatim : query.literal = true)
    (ignored : query.caseInsensitive = true) (ascii : ∀ b ∈ query.pattern, b < 128)
    : ∃ span ∈ matcher (query.pattern.flatMap disguise),
        span.slice (query.pattern.flatMap disguise) = query.pattern.flatMap disguise := by
  have built := compile_of_buildMatcher compiled
  rw [verbatim, if_pos rfl, ignored] at built
  exact thorough.finds _ _ _ built _ (thorough.folds _ _ ascii (folds_disguise _))

theorem literals_of_verbatim {parse : Bytes → Option Hir} {pattern : Bytes}
    {caseInsensitive : Bool}
    (required : requiredLiterals parse pattern true caseInsensitive = some literals)
    : literals = [pattern] := by
  simp only [requiredLiterals, if_true, Option.bind_some, finish] at required
  repeat' split at required
  all_goals cases required
  rfl

/-- What a matcher finds is promised in every case-sensitive query, and where case is ignored
exactly if it spells a required literal without a Kelvin sign and a long s. So it is wherever no
required literal has a `k` or an `s`, and of a literal pattern nowhere else. Witness: the
trigrams' variants spell the literal byte by byte, and the pattern under every disguise is found.
-/
theorem promised_iff (documented : Documented engine folds)
    (compiled : buildMatcher engine query = .ok matcher)
    (required
      : requiredLiterals engine.parse query.pattern query.literal query.caseInsensitive
        = some literals)
    : (∀ text,
        ∀ span ∈ matcher text,
          Promised query.caseInsensitive literals (span.slice text)
          ↔ (query.caseInsensitive = true → ¬Disguised literals (span.slice text)))
      ∧ ((query.caseInsensitive = true → ∀ literal ∈ literals, Plain literal)
          → ∀ text,
              ∀ span ∈ matcher text,
                Promised query.caseInsensitive literals (span.slice text))
      ∧ (query.literal = true
          → Thorough engine folds
          → (∀ text,
              ∀ span ∈ matcher text,
                Promised query.caseInsensitive literals (span.slice text))
          → query.caseInsensitive = true
          → ∀ literal ∈ literals, Plain literal) := by
  have usable := usable_of_requiredLiterals required
  have long : ∀ literal ∈ literals, 3 ≤ literal.length :=
    fun literal among => (usable literal among).1
  have spelled
      : ∀ {text : Bytes} {span : Span},
          span ∈ matcher text
          → Contains (spelling folds query.caseInsensitive) literals (span.slice text) :=
    contains_of_mem_matcher documented compiled required
  cases mode : query.caseInsensitive with
  | false =>
      simp only [mode] at spelled
      have always
          : ∀ text, ∀ span ∈ matcher text, Promised false literals (span.slice text) := by
        intro text span found
        exact promised_of_contains long (spelled found)
      refine ⟨?_, fun _ => always, fun _ _ _ ignored => (nomatch ignored)⟩
      intro text span found
      exact ⟨fun _ ignored => (nomatch ignored), fun _ => always text span found⟩
  | true =>
      simp only [mode] at spelled
      have exactly
          : ∀ found, Promised true literals found ↔ ¬Disguised literals found := by
        intro found
        rw [← contains_respelled_iff fun literal among =>
          ⟨long literal among, (usable literal among).2 mode⟩]
        constructor
        · exact fun promised => promised.contains
        · exact fun contains => promised_of_contains long contains
      refine ⟨?_, ?_, ?_⟩
      · intro text span _
        rw [exactly]
        exact ⟨fun open_ _ => open_, fun open_ => open_ rfl⟩
      · intro plain text span found
        obtain ⟨literal, among, part, inside, folded⟩ := spelled found
        have ascii := (usable literal among).2 mode
        have same := (documented.ascii literal part ascii folded).forall₂_of_plain
          (plain rfl literal among)
        exact promised_of_contains long
          ⟨literal, among, part, inside, (respelled_iff (long literal among)).mpr same⟩
      · intro verbatim thorough promised _ literal among
        rw [verbatim] at required
        have pattern := literals_of_verbatim required
        subst pattern
        rw [List.mem_singleton.mp among]
        have own := List.mem_singleton_self query.pattern
        obtain ⟨span, found, whole⟩ :=
          exists_disguised thorough compiled verbatim mode ((usable _ own).2 mode)
        have contains := (promised _ span found).contains
        rw [whole] at contains
        exact plain_of_contains_disguise (long _ own) contains

end Query

-- Two letters with a disguise

/-- No spelling of a character starts another. -/
theorem find?_spellings {spelling : Bytes} (member : spelling ∈ spellings b)
    : (spellings b).find? (·.isPrefixOf (spelling ++ text)) = some spelling := by
  have apart
      : ∀ spelling ∈ spellings b,
          ∀ other ∈ spellings b, spelling.isPrefixOf other = true → spelling = other := by
    have every :=
      @forall_byte
        (fun b =>
          (spellings b).all (fun spelling =>
            (spellings b).all (fun other => !spelling.isPrefixOf other || spelling = other)))
        (by decide +kernel) b
    intro spelling member other among start
    have pair := List.all_eq_true.mp (List.all_eq_true.mp every spelling member) other among
    rw [start, Bool.not_true, Bool.false_or] at pair
    exact of_decide_eq_true pair
  cases first : (spellings b).find? (·.isPrefixOf (spelling ++ text)) with
  | none =>
      have missed := List.find?_eq_none.mp first spelling member
      exact absurd (List.isPrefixOf_iff_prefix.mpr (List.prefix_append spelling text)) missed
  | some other =>
      have among := List.mem_of_find?_eq_some first
      have start : other <+: spelling ++ text := by
        have found := List.find?_some first
        exact List.isPrefixOf_iff_prefix.mp found
      rcases List.prefix_or_prefix_of_prefix start (List.prefix_append spelling text)
        with shorter | longer
      · rw [apart other among spelling member (List.isPrefixOf_iff_prefix.mpr shorter)]
      · rw [apart spelling member other among (List.isPrefixOf_iff_prefix.mpr longer)]

theorem wordLength_of_folds {word : Bytes} (folds : Folds word text)
    : wordLength (spells true) word text = some text.length := by
  induction folds with
  | nil => rfl
  | cons member tail ih =>
      rename_i b spelling rest text
      have first
          : (spellings b).find? (·.isPrefixOf (spelling ++ text)) = some spelling :=
        find?_spellings member
      simp only [wordLength, spells, if_true] at ih ⊢
      rw [first]
      simp only [List.drop_left, ih, Option.map_some, List.length_append]

theorem plain_thorough : Thorough .plain Folds := by
  constructor
  · intro pattern size matcher compiled text folds
    simp only [Engine.plain, id_eq] at compiled
    split at compiled
    · cases compiled
      refine ⟨⟨0, 0 + text.length⟩, ?_, ?_⟩
      · simp only [wordSpans, List.drop_zero, wordLength_of_folds folds]
        exact List.mem_cons_self
      · rw [Span.slice, Nat.zero_add, List.take_length, List.drop_zero]
    · cases compiled
  · exact fun _ _ _ folds => folds

/-- Witness: the word `ask` in any case, which the engine finds in its three spellings. -/
theorem ask_promised_iff
    : (∀ text,
        ∀ span ∈ wordSpans (spells true) askWord text (text.length + 1) 0,
          Promised true [askWord] (span.slice text)
          ↔ (true = true → ¬Disguised [askWord] (span.slice text)))
      ∧ ¬∀ text,
          ∀ span ∈ wordSpans (spells true) askWord text (text.length + 1) 0,
            Promised true [askWord] (span.slice text) := by
  have compiled
      : buildMatcher .plain askQuery
        = .ok (fun text => wordSpans (spells true) askWord text (text.length + 1) 0) :=
    rfl
  have required
      : requiredLiterals Engine.plain.parse askQuery.pattern askQuery.literal
          askQuery.caseInsensitive
        = some [askWord] := by
    decide
  obtain ⟨each, _, only⟩ := promised_iff plain_documented compiled required
  refine ⟨each, ?_⟩
  intro promised
  have plain := only rfl plain_thorough promised rfl askWord (List.mem_singleton_self askWord)
  exact (plain 107 (by decide)).1 (by decide)

/-- The engine finds the word that is spelled with a long s, which contains none of the strings
the index looks for, and no candidate has it.
-/
theorem longS_unpromised
    : ¬∀ (engine : Engine) (folds : Bytes → Bytes → Prop) (query : Query) (matcher : Matcher)
        (literals : List Bytes),
        Documented engine folds
        → buildMatcher engine query = .ok matcher
        → requiredLiterals engine.parse query.pattern query.literal query.caseInsensitive
            = some literals
        → ∀ text,
            ∀ span ∈ matcher text,
              Promised query.caseInsensitive literals (span.slice text) := by
  intro claim
  have promised :=
    claim .plain Folds askQuery _ [askWord] plain_documented rfl (by decide) askLongS ⟨0, 4⟩
      (by decide)
  have bears : Bears true [askWord] askLongS :=
    bears_of_respelled (by decide) promised.contains
  exact absurd bears (by decide)

end Gfs.Search.Index
