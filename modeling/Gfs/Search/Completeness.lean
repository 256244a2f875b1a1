import Gfs.Search.Answer

/-! When a complete answer is the answer: the index proposes a blob where the blob bears every
trigram of a required literal in an ASCII spelling, and a match need not be spelled so.
-/

namespace Gfs.Search.Index

open Gfs.Types

-- Path order

/-- The lines of a blob are parts of it. -/
theorem linesFrom_infix {number : Nat} {seen rest : Bytes} {line : Line}
    (member : line ∈ linesFrom number seen rest)
    : line.bytes <:+: seen ++ rest := by
  induction rest generalizing number seen with
  | nil =>
      simp only [linesFrom] at member
      split at member
      · cases member
      · rw [List.mem_singleton.mp member, List.append_nil]
  | cons b rest ih =>
      simp only [linesFrom] at member
      split at member
      · cases List.mem_cons.mp member with
        | inl here =>
            rw [here]
            exact (List.prefix_append _ _).isInfix
        | inr later =>
            refine (ih later).trans ?_
            exact (List.suffix_append (seen ++ [b]) rest).isInfix.trans
              (by rw [List.append_assoc]; exact List.infix_refl _)
      · have := ih member
        rwa [List.append_assoc] at this

theorem linesFrom_ordered (number : Nat) (seen rest : Bytes)
    : (linesFrom number seen rest).Pairwise (fun a b => a.number < b.number)
      ∧ ∀ line ∈ linesFrom number seen rest, number ≤ line.number := by
  induction rest generalizing number seen with
  | nil =>
      simp only [linesFrom]
      split
      · exact ⟨.nil, fun _ member => (nomatch member)⟩
      · refine ⟨List.pairwise_singleton _ _, ?_⟩
        intro line member
        rw [List.mem_singleton.mp member]
  | cons b rest ih =>
      simp only [linesFrom]
      split
      · obtain ⟨ordered, later⟩ := ih (number + 1) []
        refine ⟨List.pairwise_cons.mpr ⟨?_, ordered⟩, ?_⟩
        · intro line member
          exact later line member
        · intro line member
          cases List.mem_cons.mp member with
          | inl here => rw [here]
          | inr member => exact Nat.le_of_succ_le (later line member)
      · exact ih number _

/-- One match stands before another: at a lesser path, or at an earlier place of the same. -/
def Match.Before (a b : Match) : Prop :=
  a.path < b.path
  ∨ (a.path = b.path ∧ (a.line < b.line ∨ (a.line = b.line ∧ a.column < b.column)))

section Order

variable {inputs : SearchInputs} {query : Query} {matcher : Matcher}

/-- The matches of a blob come from its first line to its last, and from left to right. -/
theorem allHits_ordered (query : Query)
    (leftToRight : ∀ text, (matcher text).Pairwise (fun a b => a.start < b.start))
    (content : Bytes)
    : (allHits query matcher content).Pairwise
        (fun a b => a.line < b.line ∨ (a.line = b.line ∧ a.column < b.column)) := by
  have numbered
      : (lines content).zipIdx.Pairwise (fun a b => a.1.number < b.1.number) := by
    have := (linesFrom_ordered 1 [] content).1
    rw [← List.zipIdx_map_fst 0 (linesFrom 1 [] content), List.pairwise_map] at this
    exact this
  rw [allHits, List.pairwise_map, occurrences, List.pairwise_flatMap]
  constructor
  · intro place _
    rw [List.pairwise_map]
    refine (leftToRight place.1.bytes).imp ?_
    intro a b earlier
    exact .inr ⟨rfl, Nat.succ_lt_succ earlier⟩
  · refine numbered.imp ?_
    intro first second earlier a inFirst b inSecond
    obtain ⟨_, _, rfl⟩ := List.mem_map.mp inFirst
    obtain ⟨_, _, rfl⟩ := List.mem_map.mp inSecond
    exact .inl earlier

theorem ahead_ordered : (ahead inputs query).Pairwise (fun a b => a.path < b.path) := by
  refine List.Pairwise.sublist ?_ inputs.manifest.sorted
  refine List.filter_sublist.trans (List.filter_sublist.trans (List.filter_sublist.trans ?_))
  exact (List.drop_sublist _ _).trans (List.take_sublist _ _)

theorem path_unique {a b : PathEntry} (first : a ∈ ahead inputs query)
    (second : b ∈ ahead inputs query) (same : a.path = b.path)
    : a = b := by
  have distinct : ((ahead inputs query).map PathEntry.path).Nodup := by
    rw [List.Nodup, List.pairwise_map]
    refine ahead_ordered.imp fun lesser same => ?_
    rw [same] at lesser
    exact List.lt_irrefl _ lesser
  exact List.inj_on_of_nodup_map distinct first second same

theorem fullScan_ordered
    (leftToRight : ∀ text, (matcher text).Pairwise (fun a b => a.start < b.start))
    : (fullScan inputs query matcher).Pairwise Match.Before := by
  rw [fullScan, List.pairwise_flatMap]
  constructor
  · intro entry _
    rw [matchesAt, List.pairwise_map, hitsOf]
    cases contentOf inputs entry.key with
    | none => exact .nil
    | some content =>
        refine (allHits_ordered query leftToRight content).imp ?_
        intro a b earlier
        exact .inr ⟨rfl, earlier⟩
  · refine ahead_ordered.imp ?_
    intro first second lesser a inFirst b inSecond
    obtain ⟨_, _, rfl⟩ := List.mem_map.mp inFirst
    obtain ⟨_, _, rfl⟩ := List.mem_map.mp inSecond
    exact .inl lesser

end Order

-- What the index proposes

/-- The posting lists are those of a sequence of merged batches: an indexed blob is merged, with
its bytes, and reading a blob yields its bytes where it succeeds.
-/
structure Indexed (inputs : SearchInputs) (contents : ObjectId → Bytes)
    (batches : List (List (BlobKey × Bytes)))
    : Prop where
  postings : inputs.postings = .of batches
  merged
    : ∀ key, ∀ record ∈ inputs.records key,
        record.indexed = true → ∃ blobs ∈ batches, (key, contents record.oid) ∈ blobs
  bytes
    : ∀ key, ∀ record ∈ inputs.records key,
        ∀ blobs ∈ batches, ∀ content, (key, content) ∈ blobs → content = contents record.oid
  reads : ∀ oid content, inputs.read oid = .ok content → content = contents oid

section Index

variable {engine : Engine} {folds : Bytes → Bytes → Prop} {inputs : SearchInputs}
  {contents : ObjectId → Bytes} {batches : List (List (BlobKey × Bytes))} {query : Query}
  {matcher : Matcher} {literals : List Bytes} {entry : PathEntry}

theorem record_of_eligible (searched : entry ∈ inputs.eligible query)
    : ∃ record, inputs.records entry.key = some record ∧ record.indexed = true := by
  have clear := of_decide_eq_true (List.mem_filter.mp searched).2
  simp only [SearchInputs.exclusion] at clear
  cases known : inputs.records entry.key with
  | none => simp [known] at clear
  | some record =>
      simp only [known] at clear
      cases examined : record.class with
      | none => simp [examined] at clear
      | some content =>
          simp only [examined, Option.orElse_eq_none] at clear
          refine ⟨record, rfl, ?_⟩
          by_contra unposted
          rw [if_neg unposted] at clear
          cases clear.2

theorem proposed_iff (indexed : Indexed inputs contents batches)
    (usable : ∀ alternative ∈ literals, 3 ≤ alternative.length)
    (searched : entry ∈ inputs.eligible query) {record : BlobRecord}
    (known : inputs.records entry.key = some record)
    : entry.key ∈ keysOf inputs query (some literals)
      ↔ Bears query.caseInsensitive literals (contents record.oid) := by
  have within : entry.key ∈ inputs.manifest.members := by
    rw [Manifest.members, List.mem_toFinset]
    refine List.mem_map_of_mem ?_
    exact List.mem_of_mem_take (List.mem_of_mem_drop
      (List.mem_filter.mp (List.mem_filter.mp searched).1).1)
  have posted
      : ∀ t,
          entry.key ∈ (inputs.postings[t]?.getD ∅) ↔ t ∈ trigrams (contents record.oid) := by
    intro t
    rw [indexed.postings, PostingStore.mem_of]
    constructor
    · rintro ⟨blobs, batch, content, merged, member⟩
      rwa [indexed.bytes entry.key record known blobs batch content merged] at member
    · intro member
      obtain ⟨own, same, posted⟩ := record_of_eligible searched
      rw [known] at same
      cases same
      obtain ⟨blobs, batch, merged⟩ := indexed.merged entry.key record known posted
      exact ⟨blobs, batch, _, merged, member⟩
  rw [mem_keysOf]
  simp only [candidatesOf, Option.map_some, Option.mem_some_iff, forall_eq']
  rw [PostingStore.mem_candidates usable]
  simp only [posted, Bears]
  exact ⟨fun both => both.2.2, fun bears => ⟨⟨entry, searched, rfl⟩, within, bears⟩⟩

theorem exists_span_of_hits {key : BlobKey} {record : BlobRecord}
    (indexed : Indexed inputs contents batches) (known : inputs.records key = some record)
    (hits : hitsOf inputs query matcher key ≠ [])
    : ∃ text span, text <:+: contents record.oid ∧ span ∈ matcher text := by
  rw [hitsOf, contentOf, known, Option.bind_some] at hits
  cases got : inputs.read record.oid with
  | error e => simp [got, Except.toOption] at hits
  | ok content =>
      simp only [got, Except.toOption, Option.map_some, Option.getD_some, allHits, ne_eq,
        List.map_eq_nil_iff] at hits
      obtain ⟨place, member⟩ := List.exists_mem_of_ne_nil _ hits
      obtain ⟨⟨line, index⟩, numbered, spanned⟩ := List.mem_flatMap.mp member
      obtain ⟨span, found, _⟩ := List.mem_map.mp spanned
      refine ⟨line.bytes, span, ?_, found⟩
      rw [← indexed.reads record.oid content got]
      exact linesFrom_infix (List.fst_mem_of_mem_zipIdx numbered)

theorem compile_of_buildMatcher (compiled : buildMatcher engine query = .ok matcher)
    : engine.compile (if query.literal then engine.escape query.pattern else query.pattern)
        query.caseInsensitive query.budget.maxRegexBytes
      = .ok matcher := by
  simp only [buildMatcher] at compiled
  split at compiled
  · rename_i other built
    cases compiled
    exact built
  · cases compiled

theorem contains_of_mem_matcher (documented : Documented engine folds)
    (compiled : buildMatcher engine query = .ok matcher)
    (required
      : requiredLiterals engine.parse query.pattern query.literal query.caseInsensitive
        = some literals)
    {text : Bytes} {span : Span} (found : span ∈ matcher text)
    : Contains (spelling folds query.caseInsensitive) literals (span.slice text) := by
  have built := compile_of_buildMatcher compiled
  refine contains_requiredLiterals required ?_ ?_
  · intro plain
    rw [plain, if_pos rfl] at built
    exact documented.literal _ _ _ _ built text span found
  · intro pattern hir parsed
    rw [pattern, if_neg Bool.false_ne_true] at built
    exact documented.regex _ _ _ _ _ built parsed text span found

theorem contains_of_hits (documented : Documented engine folds)
    (indexed : Indexed inputs contents batches)
    (compiled : buildMatcher engine query = .ok matcher)
    (required
      : requiredLiterals engine.parse query.pattern query.literal query.caseInsensitive
        = some literals)
    {key : BlobKey} {record : BlobRecord} (known : inputs.records key = some record)
    (hits : hitsOf inputs query matcher key ≠ [])
    : Contains (spelling folds query.caseInsensitive) literals (contents record.oid) := by
  obtain ⟨text, span, inside, found⟩ := exists_span_of_hits indexed known hits
  exact (contains_of_mem_matcher documented compiled required found).within
    ((span.slice_infix text).trans inside)

end Index

-- Complete answers

/-- What a complete and a truncated answer promise. -/
structure Exact (inputs : SearchInputs) (query : Query) (engine : Engine) : Prop where
  complete
    : ∀ matcher result,
        buildMatcher engine query = .ok matcher
        → search inputs query engine = .ok result
        → result.completion.executionStatus = .complete
        → result.matches = fullScan inputs query matcher
  truncated
    : ∀ matcher result,
        buildMatcher engine query = .ok matcher
        → search inputs query engine = .ok result
        → result.completion.executionStatus = .truncated
        → result.matches.Sublist (fullScan inputs query matcher)
  ordered
    : ∀ result, search inputs query engine = .ok result → result.matches.Pairwise Match.Before

/-- Where a literal bounds the pattern and its candidates fit the budgets, every searched path
with a match bears a literal: its bytes have each of the literal's trigrams, in an ASCII spelling
where case is ignored.
-/
def Borne (inputs : SearchInputs) (query : Query) (engine : Engine)
    (contents : ObjectId → Bytes)
    : Prop :=
  ∀ matcher literals,
    buildMatcher engine query = .ok matcher
    → requiredLiterals engine.parse query.pattern query.literal query.caseInsensitive
        = some literals
    → Affords inputs query (some literals) matcher
    → ∀ entry ∈ ahead inputs query,
        hitsOf inputs query matcher entry.key ≠ []
        → ∀ record ∈ inputs.records entry.key,
            Bears query.caseInsensitive literals (contents record.oid)

section Exact

variable {engine : Engine} {folds : Bytes → Bytes → Prop} {inputs : SearchInputs}
  {contents : ObjectId → Bytes} {batches : List (List (BlobKey × Bytes))} {query : Query}

theorem leftToRight_of_built {matcher : Matcher} (documented : Documented engine folds)
    (compiled : buildMatcher engine query = .ok matcher) (text : Bytes)
    : (matcher text).Pairwise (fun a b => a.start < b.start) := by
  simp only [buildMatcher] at compiled
  split at compiled
  · rename_i other built
    cases compiled
    exact documented.ordered _ _ _ _ built text
  · cases compiled

/-- An answer keeps its promise exactly where the index misses no path with a match. Witness: the
status by `search_ok`; a path that is missed has matches in the full scan that no other path has.
-/
theorem exact_iff_borne (documented : Documented engine folds)
    (indexed : Indexed inputs contents batches)
    : Exact inputs query engine ↔ Borne inputs query engine contents := by
  constructor
  · intro exact_ matcher literals compiled required fits entry member hits record known
    obtain ⟨result, ran, page, status⟩ := search_ok inputs query compiled required
    have whole := exact_.complete matcher result compiled ran (status.mpr ⟨rfl, fits⟩)
    have searched := (List.mem_filter.mp member).1
    rw [← proposed_iff indexed
      (fun alternative among => (usable_of_requiredLiterals required alternative among).1)
      searched known]
    by_contra missed
    obtain ⟨hit, found⟩ := List.exists_mem_of_ne_nil _ hits
    have scanned : matchAt (inputs.oidOf entry.key) entry.path hit ∈ result.matches := by
      rw [whole]
      exact List.mem_flatMap.mpr ⟨entry, member, List.mem_map_of_mem found⟩
    rw [page, found_of_affords rfl fits] at scanned
    obtain ⟨other, among, reported⟩ := List.mem_flatMap.mp (List.mem_of_mem_take scanned)
    obtain ⟨_, kept, same⟩ := List.mem_map.mp reported
    have paths : other.path = entry.path := congrArg Match.path same
    -- Two entries of one path are one entry, so the one that is missed is not kept.
    have one : other = entry := path_unique among member paths
    rw [one, if_neg missed] at kept
    cases kept
  · intro borne
    constructor
    · intro matcher result compiled ran complete
      cases required
        : requiredLiterals engine.parse query.pattern query.literal query.caseInsensitive with
      | none =>
          obtain ⟨_, again, _, status⟩ := search_ok inputs query compiled required
          rw [ran] at again
          cases again
          cases (status.mp complete).1
      | some literals =>
          obtain ⟨_, again, page, status⟩ := search_ok inputs query compiled required
          rw [ran] at again
          cases again
          have fits := (status.mp complete).2
          rw [page, List.take_of_length_le (length_found rfl fits), found_of_affords rfl fits,
            fullScan]
          refine List.flatMap_congr fun entry member => ?_
          by_cases hits : hitsOf inputs query matcher entry.key = []
          · rw [hits, ite_self]
          · have searched := (List.mem_filter.mp member).1
            obtain ⟨record, known, _⟩ := record_of_eligible searched
            rw [if_pos]
            exact (proposed_iff indexed
              (fun alternative among => (usable_of_requiredLiterals required alternative among).1)
              searched known).mpr
              (borne matcher literals compiled required fits entry member hits record known)
    · intro matcher result compiled ran _
      obtain ⟨_, again, page, _⟩ := search_ok inputs query compiled rfl
      rw [ran] at again
      cases again
      rw [page]
      exact (List.take_sublist _ _).trans found_sublist
    · intro result ran
      cases compiled : buildMatcher engine query with
      | error e => simp [search, compiled] at ran
      | ok matcher =>
          obtain ⟨_, again, page, _⟩ := search_ok inputs query compiled rfl
          rw [ran] at again
          cases again
          rw [page]
          exact (fullScan_ordered (leftToRight_of_built documented compiled)).sublist
            ((List.take_sublist _ _).trans found_sublist)

theorem borne_of_caseSensitive (documented : Documented engine folds)
    (indexed : Indexed inputs contents batches) (sensitive : query.caseInsensitive = false)
    : Borne inputs query engine contents := by
  intro matcher literals compiled required _ entry _ hits record known
  have contains := contains_of_hits documented indexed compiled required known hits
  rw [sensitive] at contains ⊢
  exact bears_of_contains contains

/-- A query misses nothing where no searched blob holds a Kelvin sign or a long s. -/
theorem borne_of_plain (documented : Documented engine folds)
    (indexed : Indexed inputs contents batches)
    (noKelvin
      : ∀ entry ∈ ahead inputs query,
          ∀ record ∈ inputs.records entry.key, ¬kelvinSign <:+: contents record.oid)
    (noLongS
      : ∀ entry ∈ ahead inputs query,
          ∀ record ∈ inputs.records entry.key, ¬longS <:+: contents record.oid)
    : Borne inputs query engine contents := by
  cases mode : query.caseInsensitive with
  | false => exact borne_of_caseSensitive documented indexed mode
  | true =>
      intro matcher literals compiled required _ entry member hits record known
      obtain ⟨alternative, among, part, inside, spelled⟩ :=
        contains_of_hits documented indexed compiled required known hits
      have usable := (usable_of_requiredLiterals required alternative among).2 mode
      rw [mode, spelling, if_pos rfl] at spelled
      rw [mode]
      exact bears_of_folds
        ⟨alternative, among, part, inside, documented.ascii alternative part usable spelled⟩
        (noKelvin entry member record known) (noLongS entry member record known)

/-- A complete answer holds every match of a full scan, in path order, and a truncated one some
of them, each once, exactly where the index misses no path with a match. It misses none of a
case-sensitive query, and none where no searched blob holds a Kelvin sign or a long s. Witness:
the status by the budgets the candidates fit; the literal a match contains gives the trigrams.
-/
theorem search_exact_iff_borne (documented : Documented engine folds)
    (indexed : Indexed inputs contents batches)
    : (Exact inputs query engine ↔ Borne inputs query engine contents)
      ∧ (query.caseInsensitive = false → Exact inputs query engine)
      ∧ ((∀ entry ∈ ahead inputs query,
            ∀ record ∈ inputs.records entry.key,
              ¬kelvinSign <:+: contents record.oid ∧ ¬longS <:+: contents record.oid)
          → Exact inputs query engine) := by
  refine ⟨exact_iff_borne documented indexed, ?_, ?_⟩
  · intro sensitive
    exact (exact_iff_borne documented indexed).mpr
      (borne_of_caseSensitive documented indexed sensitive)
  · intro none_
    exact (exact_iff_borne documented indexed).mpr
      (borne_of_plain documented indexed
        (fun entry member record known => (none_ entry member record known).1)
        (fun entry member record known => (none_ entry member record known).2))

end Exact

-- A long s

section LongS

/-- The word `ask`, and the same with a long s. -/
def askWord : Bytes := [97, 115, 107]

def askLongS : Bytes := [97, 0xC5, 0xBF, 107]

def demoOid : ObjectId := ⟨.sha1, List.replicate 20 7⟩

/-- One file, whose blob spells `ask` with a long s. -/
def longSInputs : SearchInputs where
  manifest := ⟨demoOid, [⟨[97], 1⟩], List.pairwise_singleton _ _⟩
  postings := .of [[(1, askLongS)]]
  policy := { CorpusPolicy.default with generated := [], vendored := [] }
  indexGeneration := 1
  records := fun key => if key = 1 then some ⟨demoOid, some .text, true⟩ else none
  read := fun _ => .ok askLongS
  elapsed := fun _ => 0

/-- The word, in any case. -/
def askQuery : Query where
  pattern := askWord
  literal := true
  caseInsensitive := true
  scope := []
  includeGlobs := []
  excludeGlobs := []
  contextBefore := 0
  contextAfter := 0
  startAfterPath := none
  budget := .default

theorem longS_indexed : Indexed longSInputs (fun _ => askLongS) [[(1, askLongS)]] := by
  constructor
  · rfl
  · intro key record known _
    simp only [longSInputs, Option.mem_def] at known
    split at known
    · rename_i same
      exact ⟨_, List.mem_singleton_self _, by rw [same]; exact List.mem_singleton_self _⟩
    · cases known
  · intro key record _ blobs batch content merged
    rw [List.mem_singleton.mp batch, List.mem_singleton] at merged
    exact congrArg Prod.snd merged
  · intro oid content got
    cases got
    rfl

theorem longS_search
    : (Exact longSInputs askQuery .plain ↔ Borne longSInputs askQuery .plain (fun _ => askLongS))
      ∧ (askQuery.caseInsensitive = false → Exact longSInputs askQuery .plain)
      ∧ ((∀ entry ∈ ahead longSInputs askQuery,
            ∀ record ∈ longSInputs.records entry.key,
              ¬kelvinSign <:+: askLongS ∧ ¬longS <:+: askLongS)
          → Exact longSInputs askQuery .plain) :=
  search_exact_iff_borne plain_documented longS_indexed

/-- The engine finds the word that is spelled with a long s, and the index does not propose its
blob: the complete answer is empty.
-/
theorem longS_missed
    : ¬∀ (engine : Engine) (folds : Bytes → Bytes → Prop) (inputs : SearchInputs)
        (contents : ObjectId → Bytes) (batches : List (List (BlobKey × Bytes))) (query : Query),
        Documented engine folds → Indexed inputs contents batches → Exact inputs query engine := by
  intro claim
  have exact_ := claim .plain Folds longSInputs (fun _ => askLongS) [[(1, askLongS)]] askQuery
    plain_documented longS_indexed
  have borne := (exact_iff_borne plain_documented longS_indexed).mp exact_
  have searched : (⟨[97], 1⟩ : PathEntry) ∈ ahead longSInputs askQuery := by decide
  have required
      : requiredLiterals Engine.plain.parse askQuery.pattern askQuery.literal
          askQuery.caseInsensitive
        = some [askWord] := by
    decide
  have unborne : ¬Bears true [askWord] askLongS := by decide
  have missed : keysOf longSInputs askQuery (some [askWord]) = [] := by
    refine List.eq_nil_iff_forall_not_mem.mpr fun key member => ?_
    obtain ⟨⟨entry, among, rfl⟩, _⟩ := mem_keysOf.mp member
    obtain ⟨record, known, _⟩ := record_of_eligible among
    exact unborne ((proposed_iff longS_indexed (by decide) among known).mp member)
  refine unborne (borne _ _ rfl required ?_ _ searched ?_ ⟨demoOid, some .text, true⟩ rfl)
  · rw [Affords, missed]
    exact ⟨by simp, by simp, by simp, by simp, rfl, by simp⟩
  · decide

end LongS

end Gfs.Search.Index
