import Gfs.Search.Reading
import Gfs.Search.Engine

/-! What one answer of `search` holds: the blobs the candidate loop reads, the matches it finds
of them, and when it calls itself complete.
-/

namespace Gfs.Search.Index

open Gfs.Types
open Std (ExtTreeMap)

-- The emit loop

/-- The page is the first of what was found, and full where something is left. -/
theorem emit_eq {query : Query} (page rest : List Match)
    (within : page.length ≤ query.budget.maxResults)
    : emit query page rest
      = (page ++ rest.take (query.budget.maxResults - page.length),
          decide (query.budget.maxResults < page.length + rest.length)) := by
  induction rest generalizing page with
  | nil =>
      have fits : ¬query.budget.maxResults < page.length := Nat.not_lt.mpr within
      simp [emit, fits]
  | cons next rest ih =>
      simp only [emit]
      split
      · rename_i full
        have none_ : query.budget.maxResults - page.length = 0 := by omega
        have more : query.budget.maxResults < page.length + (rest.length + 1) := by omega
        simp [none_, more]
      · rename_i room
        have step : query.budget.maxResults - page.length
            = query.budget.maxResults - (page.length + 1) + 1 := by
          omega
        rw [ih _ (by simp only [List.length_append, List.length_cons, List.length_nil]; omega)]
        simp only [List.length_append, List.length_cons, List.length_nil, Nat.zero_add,
          List.append_assoc, List.cons_append, List.nil_append]
        rw [step, List.take_succ_cons, Nat.add_assoc, Nat.add_comm 1 rest.length]

-- The blobs that are read

section Answer

variable (inputs : SearchInputs) (query : Query) (literals : Option (List Bytes))

/-- What the posting lists propose, where a literal is required. -/
def candidatesOf : Option Bitmap :=
  literals.map
    (fun found => inputs.postings.candidates found inputs.manifest.members query.caseInsensitive)

/-- The blobs of the searched paths that are candidates. -/
def keysOf : List BlobKey :=
  fresh (candidatesOf inputs query literals) [] (inputs.eligible query)

/-- The candidate loop before its first step. -/
def initial : Scan where
  perBlob := ∅
  examined := []
  bytesRead := 0
  considered := 0
  potential := 0
  stoppedEarly := false
  truncation := if literals.isNone then some .noRequiredLiteral else none
  coverage := classified inputs query
  display := .new query.budget

variable (matcher : Matcher)

/-- The candidates fit the budgets, and their reads do not fail. -/
abbrev Affords : Prop :=
  Fits inputs query matcher (initial inputs query literals) (keysOf inputs query literals)

/-- The matches at a path. -/
def matchesAt (entry : PathEntry) (hits : List LineHit) : List Match :=
  hits.map (matchAt (inputs.oidOf entry.key) entry.path)

/-- The searched paths from the cursor on. -/
def ahead : List PathEntry :=
  (inputs.eligible query).filter (fun entry => query.isAhead entry.path)

/-- Every match in every searched path from the cursor on, in path order. -/
def fullScan : List Match :=
  (ahead inputs query).flatMap
    (fun entry => matchesAt inputs entry (hitsOf inputs query matcher entry.key))

variable {inputs query literals matcher}

theorem scanned_eq
    : scanned inputs query matcher literals
      = readAll inputs query matcher (initial inputs query literals)
          (keysOf inputs query literals) :=
  examine_eq _

theorem mem_keysOf {key : BlobKey}
    : key ∈ keysOf inputs query literals
      ↔ (∃ entry ∈ inputs.eligible query, entry.key = key)
        ∧ ∀ keys ∈ candidatesOf inputs query literals, key ∈ keys := by
  rw [keysOf, mem_fresh]
  simp

theorem pathsOf_pos {key : BlobKey} (member : key ∈ keysOf inputs query literals)
    : 0 < pathsOf inputs query key := by
  obtain ⟨entry, searched, same⟩ := (mem_keysOf.mp member).1
  exact List.countP_pos_iff.mpr ⟨entry, searched, decide_eq_true same⟩

theorem initial_clean : Clean (initial inputs query literals) ↔ literals.isSome = true := by
  constructor
  · intro clean
    have none_ := clean.truncation
    cases literals with
    | none => cases none_
    | some found => rfl
  · intro bounded
    cases literals with
    | none => cases bounded
    | some found => exact ⟨rfl, rfl, rfl⟩

theorem found_eq (scan : Scan)
    : found inputs query scan
      = (ahead inputs query).flatMap
          (fun entry => matchesAt inputs entry ((scan.perBlob[entry.key]?).getD [])) := rfl

/-- Where the blobs that are read fit, all their matches are kept. -/
theorem foldl_paid_perBlob {scan : Scan} {keys : List BlobKey} {key : BlobKey}
    : (((keys.foldl (paid inputs query matcher) scan).perBlob[key]?).getD [])
      = if key ∈ keys ∧ hitsOf inputs query matcher key ≠ [] then hitsOf inputs query matcher key
        else (scan.perBlob[key]?).getD [] := by
  induction keys generalizing scan with
  | nil => simp
  | cons first rest ih =>
      rw [List.foldl_cons, ih]
      by_cases later : key ∈ rest ∧ hitsOf inputs query matcher key ≠ []
      · rw [if_pos later, if_pos ⟨List.mem_cons_of_mem _ later.1, later.2⟩]
      · rw [if_neg later]
        simp only [paid]
        by_cases empty : hitsOf inputs query matcher first = []
        · rw [if_pos empty]
          by_cases here : key = first
          · rw [if_neg (by rw [here]; exact fun both => both.2 empty)]
          · rw [if_neg]
            rintro ⟨member, some_⟩
            exact later ⟨(List.mem_cons.mp member).resolve_left here, some_⟩
        · rw [if_neg empty, ExtTreeMap.getElem?_insert]
          simp only [Std.LawfulEqCmp.compare_eq_iff_eq]
          by_cases here : first = key
          · subst here
            rw [if_pos rfl, if_pos ⟨List.mem_cons_self, empty⟩]
            rfl
          · rw [if_neg here, if_neg]
            rintro ⟨member, some_⟩
            exact later ⟨(List.mem_cons.mp member).resolve_left (Ne.symm here), some_⟩

theorem found_of_affords (bounded : literals.isSome = true)
    (fits : Affords inputs query literals matcher)
    : found inputs query (scanned inputs query matcher literals)
      = (ahead inputs query).flatMap
          (fun entry =>
            matchesAt inputs entry
              (if entry.key ∈ keysOf inputs query literals then
                hitsOf inputs query matcher entry.key
              else [])) := by
  rw [scanned_eq,
    (readAll_of_fits rfl (fun _ => pathsOf_pos) (initial_clean.mpr bounded) fits).1, found_eq]
  refine congrArg (fun f => (ahead inputs query).flatMap f) (funext fun entry => ?_)
  rw [foldl_paid_perBlob]
  simp only [initial, ExtTreeMap.getElem?_empty, Option.getD_none]
  by_cases member : entry.key ∈ keysOf inputs query literals
  · by_cases empty : hitsOf inputs query matcher entry.key = []
    · simp [member, empty]
    · simp [member, empty]
  · simp [member]

theorem sum_one (entries : List PathEntry) (key : BlobKey) (size : Nat)
    : (entries.map (fun entry => if entry.key = key then size else 0)).sum
      = size * entries.countP (fun e => e.key = key) := by
  induction entries with
  | nil => simp
  | cons entry rest ih =>
      rw [List.map_cons, List.sum_cons, ih, List.countP_cons]
      by_cases here : entry.key = key
      · simp only [here, if_true, decide_true]
        rw [Nat.mul_add, Nat.mul_one, Nat.add_comm]
      · simp [here]

theorem sum_paths (entries : List PathEntry) (keys : List BlobKey) (nodup : keys.Nodup)
    (size : BlobKey → Nat)
    : (entries.map (fun entry => if entry.key ∈ keys then size entry.key else 0)).sum
      = (keys.map (fun key => size key * entries.countP (fun e => e.key = key))).sum := by
  induction keys with
  | nil => simp
  | cons first rest ih =>
      obtain ⟨unique, nodup⟩ := List.nodup_cons.mp nodup
      rw [List.map_cons, List.sum_cons, ← ih nodup, ← sum_one, ← List.sum_map_add]
      refine congrArg List.sum (List.map_congr_left fun entry _ => ?_)
      by_cases here : entry.key = first
      · simp [here, unique]
      · simp [here]

/-- Where the candidates fit, what is found fits the page. -/
theorem length_found (bounded : literals.isSome = true)
    (fits : Affords inputs query literals matcher)
    : (found inputs query (scanned inputs query matcher literals)).length
      ≤ query.budget.maxResults := by
  have sums
      : ((inputs.eligible query).map
            (fun entry =>
              if entry.key ∈ keysOf inputs query literals then
                (hitsOf inputs query matcher entry.key).length
              else 0)).sum
        ≤ query.budget.maxResults := by
    rw [sum_paths _ (keysOf inputs query literals) (fresh_nodup _ _ _)
      (fun key => (hitsOf inputs query matcher key).length)]
    by_cases some_ : ∃ key ∈ keysOf inputs query literals, hitsOf inputs query matcher key ≠ []
    · obtain ⟨key, member, hits⟩ := some_
      have total := fits.results key member hits
      rw [show (initial inputs query literals).potential = 0 from rfl, Nat.zero_add] at total
      exact total
    · push Not at some_
      rw [List.sum_eq_zero_iff.mpr]
      · exact Nat.zero_le _
      · intro count listed
        obtain ⟨key, member, rfl⟩ := List.mem_map.mp listed
        simp [some_ key member]
  rw [found_of_affords bounded fits, List.length_flatMap]
  refine Nat.le_trans ?_ sums
  rw [List.map_congr_left (g := fun entry : PathEntry =>
    if entry.key ∈ keysOf inputs query literals then
      (hitsOf inputs query matcher entry.key).length
    else 0)]
  · exact (List.filter_sublist.map _).sum_le_sum (fun _ _ => Nat.zero_le _)
  · intro entry _
    rw [matchesAt, List.length_map]
    split
    · rfl
    · rfl

theorem found_sublist
    : (found inputs query (scanned inputs query matcher literals)).Sublist
        (fullScan inputs query matcher) := by
  have kept : Kept inputs query matcher (scanned inputs query matcher literals) := by
    rw [scanned_eq]
    refine readAll_kept rfl ?_
    intro key hits known
    simp [initial] at known
  rw [found_eq]
  refine List.Sublist.flatMap_right _ ?_
  intro entry _
  refine List.Sublist.map _ ?_
  cases known : (scanned inputs query matcher literals).perBlob[entry.key]? with
  | none => exact List.nil_sublist _
  | some hits => exact (kept entry.key hits known).sublist

theorem noted_iff {slot : Option TruncationReason} {reason : TruncationReason} {cut : Prop}
    [Decidable cut]
    : (if cut then note slot reason else slot) = none ↔ ¬cut ∧ slot = none := by
  split
  · rename_i cutting
    simp [note_ne_none, cutting]
  · rename_i whole
    simp [whole]

theorem complete_iff {truncation : Option TruncationReason}
    : (if truncation.isSome = true then ExecutionStatus.truncated else .complete) = .complete
      ↔ truncation = none := by
  cases truncation with
  | none => simp
  | some reason => simp

/-- What an answer holds: the first of what the loop found, which is complete exactly where a
literal bounds the pattern and the candidates fit the budgets.
-/
theorem search_ok (inputs : SearchInputs) (query : Query) {engine : Engine}
    (compiled : buildMatcher engine query = .ok matcher)
    (required
      : requiredLiterals engine.parse query.pattern query.literal query.caseInsensitive
        = literals)
    : ∃ result,
        search inputs query engine = .ok result
        ∧ result.matches
          = (found inputs query (scanned inputs query matcher literals)).take
              query.budget.maxResults
        ∧ (result.completion.executionStatus = .complete
          ↔ literals.isSome = true ∧ Affords inputs query literals matcher) := by
  have clean_iff
      : Clean (scanned inputs query matcher literals)
        ↔ literals.isSome = true ∧ Affords inputs query literals matcher := by
    rw [scanned_eq, readAll_clean_iff rfl (fun _ => pathsOf_pos), initial_clean]
  refine ⟨_, by simp only [search, compiled, required]; rfl, ?_, ?_⟩
  · rw [emit_eq _ _ (Nat.zero_le _)]
    simp
  · rw [← clean_iff, emit_eq _ _ (Nat.zero_le _)]
    simp only [List.length_nil, Nat.zero_add, decide_eq_true_eq, complete_iff, noted_iff]
    constructor
    · rintro ⟨early, spent, _, cut⟩
      exact ⟨cut, Bool.not_eq_true _ ▸ early, Bool.not_eq_true _ ▸ spent⟩
    · intro clean
      have room := length_found (clean_iff.mp clean).1 (clean_iff.mp clean).2
      exact
        ⟨by simp [clean.stoppedEarly], by simp [clean.display], Nat.not_lt.mpr room,
          clean.truncation⟩

end Answer

end Gfs.Search.Index
