import Gfs.Search.Completeness

/-! Paging: a query asked again and again, each time from the path of the last match on. The
candidate loop starts over at every call and stops where the matches of the blobs it read, before
the cursor or not, are more than a page.
-/

namespace Gfs.Search.Index

open Gfs.Types

-- Pages

section Pages

variable (inputs : SearchInputs) (query : Query) (engine : Engine) (clock : Nat → Nat → Nat)

/-- One call from a cursor, where the clock reads as it does in that call. -/
def turn (call : Nat) (cursor : Option BytePath) : Except GfsError SearchResult :=
  search { inputs with elapsed := clock call } { query with startAfterPath := cursor } engine

/-- The pages of at most so many calls: up to the first that is complete, that fails, or that
has no match to go on from.
-/
def pages : Nat → Nat → Option BytePath → List SearchResult
  | 0, _, _ => []
  | calls + 1, call, cursor =>
      match turn inputs query engine clock call cursor with
      | .error _ => []
      | .ok page =>
          if page.completion.executionStatus = .complete then [page]
          else
            match page.matches.getLast? with
            | none => [page]
            | some last => page :: pages calls (call + 1) (some last.path)

/-- A query with another limit on its matches. -/
def Query.limited (query : Query) (limit : Nat) : Query :=
  { query with budget := { query.budget with maxResults := limit } }

/-- Some pages are all there is: the last is complete, every path with a match under any limit is
on one, no path is on two, and none that the limit cut short is empty.
-/
structure Exhausts (answers : List SearchResult) : Prop where
  stops : ∃ last, answers.getLast? = some last ∧ last.completion.executionStatus = .complete
  visits
    : ∀ limit whole,
        search inputs (query.limited limit) engine = .ok whole
        → ∀ found ∈ whole.matches, ∃ page ∈ answers, ∃ m ∈ page.matches, m.path = found.path
  once
    : answers.Pairwise (fun a b => ∀ m ∈ a.matches, ∀ m' ∈ b.matches, m.path ≠ m'.path)
  advances
    : ∀ page ∈ answers, page.completion.truncation = some .resultLimit → page.matches ≠ []

/-- Paging of a pattern that compiles gets to the end, however the clock reads within the time
budget.
-/
def Paged : Prop :=
  ∀ matcher,
    buildMatcher engine query = .ok matcher
    → ∀ clock : Nat → Nat → Nat,
        (∀ call reading, clock call reading ≤ query.budget.maxTime)
        → ∃ calls,
            Exhausts inputs query engine
              (pages inputs query engine clock calls 0 query.startAfterPath)

/-- A literal bounds the pattern, and the matches of all its candidates fit on one page and in
the other budgets.
-/
def OnePage : Prop :=
  ∀ matcher,
    buildMatcher engine query = .ok matcher
    → ∃ literals,
        requiredLiterals engine.parse query.pattern query.literal query.caseInsensitive
          = some literals
        ∧ Affords { inputs with elapsed := fun _ => 0 } query (some literals) matcher

end Pages

-- The cursor is not read

section Cursor

variable {inputs : SearchInputs} {query : Query} {engine : Engine} {clock : Nat → Nat → Nat}
  {matcher : Matcher} {literals : Option (List Bytes)}

theorem affords_turn {call : Nat} (cursor : Option BytePath)
    (onTime : ∀ reading, clock call reading ≤ query.budget.maxTime)
    : Affords { inputs with elapsed := clock call } { query with startAfterPath := cursor }
        literals matcher
      ↔ Affords { inputs with elapsed := fun _ => 0 } query literals matcher := by
  constructor
  · intro fits
    exact ⟨fits.reads, fun _ _ => Nat.zero_le _, fits.bytes, fits.count, fits.display,
      fits.results⟩
  · intro fits
    exact ⟨fits.reads, fun _ _ => onTime _, fits.bytes, fits.count, fits.display,
      fits.results⟩

/-- Every page is the answer of a call. -/
theorem turn_of_mem_pages {calls call : Nat} {cursor : Option BytePath} {page : SearchResult}
    (member : page ∈ pages inputs query engine clock calls call cursor)
    : ∃ call cursor, turn inputs query engine clock call cursor = .ok page := by
  induction calls generalizing call cursor with
  | zero => cases member
  | succ calls ih =>
      simp only [pages] at member
      split at member
      · cases member
      · rename_i first answered
        split at member
        · rw [List.mem_singleton.mp member]
          exact ⟨call, cursor, answered⟩
        · split at member
          · rw [List.mem_singleton.mp member]
            exact ⟨call, cursor, answered⟩
          · cases List.mem_cons.mp member with
            | inl here =>
                rw [here]
                exact ⟨call, cursor, answered⟩
            | inr later => exact ih later

theorem onePage_of_complete {call : Nat} {cursor : Option BytePath} {page : SearchResult}
    (onTime : ∀ reading, clock call reading ≤ query.budget.maxTime)
    (answered : turn inputs query engine clock call cursor = .ok page)
    (complete : page.completion.executionStatus = .complete)
    : OnePage inputs query engine := by
  intro matcher compiled
  obtain ⟨_, again, _, status⟩ :=
    search_ok { inputs with elapsed := clock call }
      { query with startAfterPath := cursor } compiled rfl
  rw [turn, again] at answered
  cases answered
  obtain ⟨bounded, fits⟩ := status.mp complete
  obtain ⟨literals, required⟩ := Option.isSome_iff_exists.mp bounded
  rw [required] at fits
  exact ⟨literals, required, (affords_turn cursor onTime).mp fits⟩

theorem readBlob_within {scan : Scan} {key other : BlobKey} {hits : List LineHit}
    (kept : (readBlob inputs query matcher scan key).2.perBlob[other]? = some hits)
    : other = key ∨ scan.perBlob[other]? = some hits := by
  have grown
      : ∀ found,
          (scan.perBlob.insert key found)[other]? = some hits
          → other = key ∨ scan.perBlob[other]? = some hits := by
    intro found known
    rw [Std.ExtTreeMap.getElem?_insert] at known
    split at known
    · rename_i same
      exact .inl (Std.LawfulEqCmp.compare_eq_iff_eq.mp same).symm
    · exact .inr known
  simp only [readBlob] at kept
  repeat' split at kept
  all_goals first | exact .inr kept | exact grown _ kept

/-- What is kept of a blob was read. -/
theorem readAll_within {scan : Scan} {keys : List BlobKey} {key : BlobKey} {hits : List LineHit}
    (kept : (readAll inputs query matcher scan keys).perBlob[key]? = some hits)
    : key ∈ keys ∨ scan.perBlob[key]? = some hits := by
  induction keys generalizing scan with
  | nil => exact .inr kept
  | cons first rest ih =>
      have step
          : ∀ next,
              (readBlob inputs query matcher scan first).2 = next
              → next.perBlob[key]? = some hits
              → key ∈ first :: rest ∨ scan.perBlob[key]? = some hits := by
        intro next same known
        rw [← same] at known
        cases readBlob_within known with
        | inl here => exact .inl (List.mem_cons.mpr (.inl here))
        | inr before => exact .inr before
      simp only [readAll] at kept
      cases ran : readBlob inputs query matcher scan first with
      | mk goes next =>
          rw [ran] at kept
          cases goes with
          | false => exact step next (by rw [ran]) kept
          | true =>
              cases ih kept with
              | inl later => exact .inl (List.mem_cons_of_mem _ later)
              | inr known => exact step next (by rw [ran]) known

theorem truncation_of_complete {result : SearchResult}
    (ran : search inputs query engine = .ok result)
    (complete : result.completion.executionStatus = .complete)
    : result.completion.truncation = none := by
  simp only [search] at ran
  split at ran
  · cases ran
  · cases ran
    exact complete_iff.mp complete

/-- A path with a match in an answer has a candidate with matches. -/
theorem hits_of_found {m : Match} (member : m ∈ found inputs query (scanned inputs query matcher
    literals))
    : ∃ entry ∈ ahead inputs query,
        entry.path = m.path
        ∧ entry.key ∈ keysOf inputs query literals
        ∧ hitsOf inputs query matcher entry.key ≠ [] := by
  rw [found_eq] at member
  obtain ⟨entry, among, reported⟩ := List.mem_flatMap.mp member
  obtain ⟨hit, kept, rfl⟩ := List.mem_map.mp reported
  cases known : (scanned inputs query matcher literals).perBlob[entry.key]? with
  | none =>
      rw [known] at kept
      cases kept
  | some hits =>
      rw [known] at kept
      rw [scanned_eq] at known
      refine ⟨entry, among, rfl, ?_, ?_⟩
      · cases readAll_within known with
        | inl read => exact read
        | inr before => simp [initial] at before
      · have first : Kept inputs query matcher (initial inputs query literals) := by
          intro key hits known
          simp [initial] at known
        have start := readAll_kept rfl first _ _ known
        exact List.ne_nil_of_mem (start.subset kept)

end Cursor

-- Paging

theorem onePage_of_paged {inputs : SearchInputs} {query : Query} {engine : Engine}
    (paged : Paged inputs query engine)
    : OnePage inputs query engine := by
  intro matcher compiled
  obtain ⟨calls, all⟩ := paged matcher compiled (fun _ _ => 0) (fun _ _ => Nat.zero_le _)
  obtain ⟨last, final, complete⟩ := all.stops
  obtain ⟨call, cursor, answered⟩ := turn_of_mem_pages (List.mem_of_getLast? final)
  exact onePage_of_complete (fun _ => Nat.zero_le _) answered complete matcher compiled

/-- Paging gets to the end exactly where there is nothing to page: the first call already holds
every match. Witness: a complete call says that the matches of all the candidates fit on a page,
of which the cursor takes nothing away.
-/
theorem paged_iff_onePage (inputs : SearchInputs) (query : Query) (engine : Engine)
    : Paged inputs query engine ↔ OnePage inputs query engine := by
  refine ⟨onePage_of_paged, ?_⟩
  · intro fits matcher compiled clock onTime
    obtain ⟨literals, required, affords⟩ := fits matcher compiled
    have first := (affords_turn query.startAfterPath (onTime 0)).mpr affords
    obtain ⟨page, answered, held, status⟩ :=
      search_ok { inputs with elapsed := clock 0 }
        { query with startAfterPath := query.startAfterPath } compiled required
    have complete := status.mpr ⟨rfl, first⟩
    have only : pages inputs query engine clock 1 0 query.startAfterPath = [page] := by
      simp only [pages, turn, answered, complete, if_true]
    refine ⟨1, ?_⟩
    rw [only]
    constructor
    · exact ⟨page, rfl, complete⟩
    · intro limit whole answer m member
      obtain ⟨_, again, shown, _⟩ :=
        search_ok inputs (query.limited limit) compiled required
      rw [answer] at again
      cases again
      rw [shown] at member
      obtain ⟨entry, among, same, read, hits⟩ := hits_of_found (List.mem_of_mem_take member)
      have kept
          : entry.key ∈ keysOf { inputs with elapsed := clock 0 } query (some literals) := read
      refine ⟨page, List.mem_singleton_self page, ?_⟩
      rw [held, List.take_of_length_le (length_found rfl first), found_of_affords rfl first]
      obtain ⟨hit, listed⟩ :=
        List.exists_mem_of_ne_nil (hitsOf inputs query matcher entry.key) hits
      refine ⟨matchAt (inputs.oidOf entry.key) entry.path hit,
        List.mem_flatMap.mpr ⟨entry, among, List.mem_map_of_mem ?_⟩, same⟩
      rw [if_pos kept]
      exact listed
    · exact List.pairwise_singleton _ _
    · intro other member limited
      rw [List.mem_singleton.mp member] at limited
      rw [truncation_of_complete answered complete] at limited
      cases limited

-- Three files

section ThreeFiles

/-- Two lines with the word, and a number to tell the blobs apart. -/
def twice (number : UInt8) : Bytes :=
  [97, 98, 99, 10, 97, 98, 99, number]

def numbered (number : UInt8) : ObjectId := ⟨.sha1, List.replicate 20 number⟩

/-- Three files of two matches each. -/
def threeInputs : SearchInputs where
  manifest :=
    ⟨numbered 0, [⟨[97], 1⟩, ⟨[98], 2⟩, ⟨[99], 3⟩], by decide⟩
  postings := .of [[(1, twice 1), (2, twice 2), (3, twice 3)]]
  policy := { CorpusPolicy.default with generated := [], vendored := [] }
  indexGeneration := 1
  records := fun key =>
    if key ∈ [1, 2, 3] then some ⟨numbered (UInt8.ofNat key), some .text, true⟩ else none
  read := fun oid => .ok (twice (oid.raw.headD 0))
  elapsed := fun _ => 0

/-- The word, two matches a page. -/
def pageQuery : Query where
  pattern := [97, 98, 99]
  literal := true
  caseInsensitive := false
  scope := []
  includeGlobs := []
  excludeGlobs := []
  contextBefore := 0
  contextAfter := 0
  startAfterPath := none
  budget := { Budget.default with maxResults := 2 }

/-- After the second file a page is empty and not the last: the matches of the first two are more
than a page, so the third file is never read.
-/
theorem third_file_unreached
    : ¬∀ (inputs : SearchInputs) (query : Query) (engine : Engine),
        (∀ matcher,
          buildMatcher engine query = .ok matcher
          → ∀ entry ∈ inputs.eligible query,
              (hitsOf inputs query matcher entry.key).length ≤ query.budget.maxResults)
        → Paged inputs query engine := by
  intro claim
  have paged := claim threeInputs pageQuery .plain (by
    intro matcher compiled
    cases compiled
    decide)
  obtain ⟨literals, required, fits⟩ := onePage_of_paged paged _ rfl
  have word : literals = [[97, 98, 99]] := by
    refine Option.some.inj (required.symm.trans ?_)
    decide
  subst word
  have read
      : keysOf { threeInputs with elapsed := fun _ => 0 } pageQuery (some [[97, 98, 99]])
        = [1, 2, 3] := by
    decide
  have total := fits.results 1 (by rw [read]; decide)
  rw [read] at total
  revert total
  decide

end ThreeFiles

end Gfs.Search.Index
