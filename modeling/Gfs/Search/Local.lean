import Gfs.Lib.Slices
import Gfs.Search.Ignore
import Gfs.Search.Lookup
import Gfs.Search.Reading
import Gfs.Search.Registry

/-! Searching local content (`gfs-search/src/local.rs`): one pass over paths in their order, which
stops on its own once it has as many matches as it may report.
-/

namespace Gfs.Search.Local

open Gfs.Types
open Gfs.Lib.Slices
open Gfs.Search.Index
open Gfs.Search.Ignore
open Std (ExtTreeMap)

-- The source

/-- One local path offered to the search. -/
structure LocalPath where
  path : BytePath
  trackedInBase : Bool
  size : Nat
  deriving DecidableEq, Repr

/-- How the local half is bounded. A duration is in nanoseconds. -/
structure LocalBudget where
  maxTime : Nat
  maxBytesRead : UInt64
  maxResults : Nat
  deriving DecidableEq, Repr

/-- What the local half found, and what it left out: the excluded paths are counted under the names
of the reasons.
-/
structure LocalOutcome where
  «matches» : List Match
  excluded : ExtTreeMap Text Nat compare
  eligiblePaths : Nat
  bytesRead : UInt64
  truncated : Bool

def LocalOutcome.empty : LocalOutcome where
  «matches» := []
  excluded := ∅
  eligiblePaths := 0
  bytesRead := 0
  truncated := false

def LocalOutcome.record (outcome : LocalOutcome) (reason : ExclusionReason) : LocalOutcome :=
  { outcome with excluded := countOne outcome.excluded reason.asStr }

/-- The state of the loop. -/
structure LocalScan where
  outcome : LocalOutcome
  display : DisplayBudget

/-- Push what is found while there is room, and whether there was for all of it. -/
def push (maxResults : Nat) (pushed : List Match) : List Match → List Match × Bool
  | [] => (pushed, true)
  | next :: rest =>
      if pushed.length ≥ maxResults then (pushed, false)
      else push maxResults (pushed ++ [next]) rest

section Search

variable (query : Query) (policy : CorpusPolicy) (ignore : List IgnoreRule) (budget : LocalBudget)
  (searchIgnored : Bool) (matcher : Matcher)
  (read : LocalPath → Except GfsError (Option Bytes)) (elapsed : BytePath → Nat)

/-- Whether a path is in the question: in scope, passing the globs, and not ignored. -/
def asked (entry : LocalPath) : Bool :=
  Manifests.withinScope entry.path query.scope
  && query.passes entry.path
  && !(!searchIgnored && !entry.trackedInBase && ignores ignore entry.path)

/-- The content of one path: whether the loop goes on, and with what. -/
def searchContent (scan : LocalScan) (entry : LocalPath) (content : Bytes) : Bool × LocalScan :=
  let outcome :=
    { scan.outcome with bytesRead := scan.outcome.bytesRead + content.length.toUInt64 }
  let «class» := Ingestion.classifyContent policy content
  match policy.excludesContent «class» with
  | some reason => (true, { scan with outcome := outcome.record reason })
  | none =>
      if «class» = .oversized then (true, { scan with outcome := outcome.record .oversized })
      else
        -- As many as there is room for, and the one that proves there are more.
        let room := budget.maxResults - outcome.matches.length + 1
        let (hits, display) := findInBlob matcher content query room scan.display
        let (pushed, all) :=
          push budget.maxResults outcome.matches (hits.map (matchAt [] entry.path))
        (all,
          {
            outcome :=
              {
                outcome with
                «matches» := pushed
                eligiblePaths := outcome.eligiblePaths + 1
                truncated := outcome.truncated || !all
              }
            display
          })

/-- One path: whether the loop goes on, and with what. -/
def searchEntry (scan : LocalScan) (entry : LocalPath) : Except GfsError (Bool × LocalScan) :=
  if !asked query ignore searchIgnored entry then .ok (true, scan)
  else if entry.size > policy.maxBlobBytes then
    .ok (true, { scan with outcome := scan.outcome.record .oversized })
  else if elapsed entry.path > budget.maxTime
      || scan.outcome.bytesRead > budget.maxBytesRead
      || scan.display.exhausted then
    .ok (false, { scan with outcome := { scan.outcome with truncated := true } })
  else
    match read entry with
    | .error e => .error e
    | .ok none => .ok (true, { scan with outcome := scan.outcome.record .indexGap })
    | .ok (some content) => .ok (searchContent query policy budget matcher scan entry content)

/-- The loop over the paths. -/
def searchPaths (scan : LocalScan) : List LocalPath → Except GfsError LocalScan
  | [] => .ok scan
  | entry :: rest =>
      match
        searchEntry query policy ignore budget searchIgnored matcher read elapsed scan entry
      with
      | .error e => .error e
      | .ok (true, next) => searchPaths next rest
      | .ok (false, last) => .ok last

/-- The paths in their order. -/
def ordered (paths : List LocalPath) : List LocalPath :=
  paths.mergeSort fun a b => decide (a.path ≤ b.path)

/-- The loop from its start. -/
def searched (paths : List LocalPath) : Except GfsError LocalScan :=
  searchPaths query policy ignore budget searchIgnored matcher read elapsed
    ⟨.empty, .new query.budget⟩ (ordered paths)

/-- The loop's outcome. A budget that is spent on the last path still cut a line short; where the
loop has stopped, it is truncated anyway.
-/
def LocalScan.finish (last : LocalScan) : LocalOutcome :=
  { last.outcome with truncated := last.outcome.truncated || last.display.exhausted }

end Search

/-- Search local content. -/
def searchLocal (engine : Engine) (paths : List LocalPath) (query : Query) (policy : CorpusPolicy)
    (ignore : List IgnoreRule) (budget : LocalBudget) (searchIgnored : Bool)
    (read : LocalPath → Except GfsError (Option Bytes)) (elapsed : BytePath → Nat)
    : Except GfsError LocalOutcome :=
  match buildMatcher engine query with
  | .error e => .error e
  | .ok matcher =>
      (searched query policy ignore budget searchIgnored matcher read elapsed paths).map
        LocalScan.finish

-- What each path adds

/-- What becomes of a path. -/
inductive Verdict where
  | outside
  | excluded (reason : ExclusionReason)
  | searched (content : Bytes)
  deriving DecidableEq, Repr

section Verdicts

variable (query : Query) (policy : CorpusPolicy) (ignore : List IgnoreRule) (budget : LocalBudget)
  (searchIgnored : Bool) (matcher : Matcher)
  (read : LocalPath → Except GfsError (Option Bytes)) (elapsed : BytePath → Nat)

def verdict (entry : LocalPath) : Verdict :=
  if !asked query ignore searchIgnored entry then .outside
  else if entry.size > policy.maxBlobBytes then .excluded .oversized
  else
    match read entry with
    | .error _ => .outside
    | .ok none => .excluded .indexGap
    | .ok (some content) =>
        match policy.excludesContent (Ingestion.classifyContent policy content) with
        | some reason => .excluded reason
        | none =>
            if Ingestion.classifyContent policy content = .oversized then .excluded .oversized
            else .searched content

/-- Every match at a path. -/
def matchesAt (entry : LocalPath) : List Match :=
  match verdict query policy ignore searchIgnored read entry with
  | .searched content => (allHits query matcher content).map (matchAt [] entry.path)
  | _ => []

/-- Every match at some paths, in their order. -/
def allMatches (paths : List LocalPath) : List Match :=
  paths.flatMap (matchesAt query policy ignore searchIgnored matcher read)

/-- Whether a path is searched. -/
def isSearched (entry : LocalPath) : Bool :=
  match verdict query policy ignore searchIgnored read entry with
  | .searched _ => true
  | _ => false

/-- Whether a path is excluded under a reason's name. -/
def isExcluded (name : Text) (entry : LocalPath) : Bool :=
  match verdict query policy ignore searchIgnored read entry with
  | .excluded reason => reason.asStr = name
  | _ => false

/-- The clock and the reads let a path be searched. -/
def Undisturbed (entry : LocalPath) : Prop :=
  elapsed entry.path ≤ budget.maxTime ∧ ∀ e, read entry ≠ .error e

variable {query policy ignore budget searchIgnored matcher read elapsed}

variable {entry : LocalPath}

variable {read' : LocalPath → Except GfsError (Option Bytes)}

theorem verdict_congr (same : read entry = read' entry)
    : verdict query policy ignore searchIgnored read entry
      = verdict query policy ignore searchIgnored read' entry := by
  rw [verdict, verdict, same]

theorem allMatches_congr {paths : List LocalPath} (same : ∀ entry ∈ paths, read entry = read' entry)
    : allMatches query policy ignore searchIgnored matcher read paths
      = allMatches query policy ignore searchIgnored matcher read' paths := by
  refine List.flatMap_congr fun entry member => ?_
  rw [matchesAt, matchesAt, verdict_congr (same entry member)]

theorem countP_isSearched_congr {paths : List LocalPath}
    (same : ∀ entry ∈ paths, read entry = read' entry)
    : paths.countP (isSearched query policy ignore searchIgnored read)
      = paths.countP (isSearched query policy ignore searchIgnored read') := by
  refine List.countP_congr fun entry member => ?_
  rw [isSearched, isSearched, verdict_congr (same entry member)]

theorem countP_isExcluded_congr {paths : List LocalPath}
    (same : ∀ entry ∈ paths, read entry = read' entry) (name : Text)
    : paths.countP (isExcluded query policy ignore searchIgnored read name)
      = paths.countP (isExcluded query policy ignore searchIgnored read' name) := by
  refine List.countP_congr fun entry member => ?_
  rw [isExcluded, isExcluded, verdict_congr (same entry member)]

theorem push_eq {maxResults : Nat} (pushed rest : List Match)
    (within : pushed.length ≤ maxResults)
    : push maxResults pushed rest
      = (pushed ++ rest.take (maxResults - pushed.length),
          decide (pushed.length + rest.length ≤ maxResults)) := by
  induction rest generalizing pushed with
  | nil => simp [push, within]
  | cons next rest ih =>
      rw [push]
      by_cases full : pushed.length ≥ maxResults
      · have none_ : maxResults - pushed.length = 0 := by omega
        have more : ¬pushed.length + (next :: rest).length ≤ maxResults := by
          rw [List.length_cons]
          omega
        rw [if_pos full, none_, decide_eq_false more]
        simp
      · have grown : (pushed ++ [next]).length = pushed.length + 1 := by simp
        have room : maxResults - pushed.length = maxResults - (pushed.length + 1) + 1 := by omega
        rw [if_neg full, ih _ (by omega), grown, room, List.take_succ_cons, List.length_cons,
          Nat.add_assoc, Nat.add_comm 1, List.append_assoc, List.singleton_append]

variable {scan next : LocalScan}

theorem searchEntry_exhausted {goes : Bool}
    (ran
      : searchEntry query policy ignore budget searchIgnored matcher read elapsed scan entry
        = .ok (goes, next))
    (spent : scan.display.exhausted = true)
    : next.display.exhausted = true := by
  rw [searchEntry] at ran
  split at ran
  · cases ran
    exact spent
  · split at ran
    · cases ran
      exact spent
    · rw [if_pos (by rw [spent, Bool.or_true])] at ran
      cases ran
      exact spent

variable {paths : List LocalPath}

theorem searchPaths_exhausted {scan last : LocalScan}
    (ran
      : searchPaths query policy ignore budget searchIgnored matcher read elapsed scan paths
        = .ok last)
    (spent : scan.display.exhausted = true)
    : last.display.exhausted = true := by
  induction paths generalizing scan with
  | nil =>
      cases ran
      exact spent
  | cons entry paths ih =>
      rw [searchPaths] at ran
      split at ran
      · cases ran
      · rename_i next first
        exact ih ran (searchEntry_exhausted first spent)
      · rename_i next first
        cases ran
        exact searchEntry_exhausted first spent

/-- What a path does to a scan that nothing but the limit stops. -/
structure Adds (query : Query) (policy : CorpusPolicy) (ignore : List IgnoreRule)
    (budget : LocalBudget) (searchIgnored : Bool) (matcher : Matcher)
    (read : LocalPath → Except GfsError (Option Bytes)) (scan next : LocalScan)
    (paths : List LocalPath)
    : Prop where
  «matches»
    : next.outcome.matches
      = (scan.outcome.matches
          ++ allMatches query policy ignore searchIgnored matcher read paths).take
            budget.maxResults
  truncated
    : next.outcome.truncated
      = (scan.outcome.truncated
        || decide
          (budget.maxResults
            < scan.outcome.matches.length
              + (allMatches query policy ignore searchIgnored matcher read paths).length))
  counted
    : scan.outcome.matches.length
        + (allMatches query policy ignore searchIgnored matcher read paths).length
        ≤ budget.maxResults
      → next.outcome.eligiblePaths
          = scan.outcome.eligiblePaths
            + paths.countP (isSearched query policy ignore searchIgnored read)
        ∧ ∀ count, Counts scan.outcome.excluded count
          → Counts next.outcome.excluded fun name =>
              count name + paths.countP (isExcluded query policy ignore searchIgnored read name)

/-- A path without a match adds to the counts alone. -/
theorem adds_of_no_match
    (within : scan.outcome.matches.length ≤ budget.maxResults)
    (none_ : matchesAt query policy ignore searchIgnored matcher read entry = [])
    (same : next.outcome.matches = scan.outcome.matches)
    (truncated : next.outcome.truncated = scan.outcome.truncated)
    (eligible
      : next.outcome.eligiblePaths
        = scan.outcome.eligiblePaths
          + if isSearched query policy ignore searchIgnored read entry then 1 else 0)
    (excluded
      : ∀ count, Counts scan.outcome.excluded count
        → Counts next.outcome.excluded fun name =>
            count name
              + if isExcluded query policy ignore searchIgnored read name entry then 1 else 0)
    : Adds query policy ignore budget searchIgnored matcher read scan next [entry] := by
  have nothing : allMatches query policy ignore searchIgnored matcher read [entry] = [] := by
    rw [allMatches, List.flatMap_singleton, none_]
  constructor
  · rw [nothing, List.append_nil, same, List.take_of_length_le within]
  · have fits : ¬budget.maxResults < scan.outcome.matches.length + 0 := by omega
    rw [nothing, List.length_nil, decide_eq_false fits, Bool.or_false, truncated]
  · intro _
    simpa [List.countP_cons, eligible] using excluded

theorem adds_of_outside {scan : LocalScan}
    (within : scan.outcome.matches.length ≤ budget.maxResults)
    (decided : verdict query policy ignore searchIgnored read entry = .outside)
    (perLine : scan.display.perLine = query.budget.maxLineBytes)
    : Adds query policy ignore budget searchIgnored matcher read scan scan [entry]
      ∧ true
        = decide
          (scan.outcome.matches.length
            + (matchesAt query policy ignore searchIgnored matcher read entry).length
            ≤ budget.maxResults)
      ∧ scan.display.perLine = query.budget.maxLineBytes := by
  have none_ : matchesAt query policy ignore searchIgnored matcher read entry = [] := by
    rw [matchesAt, decided]
  refine ⟨adds_of_no_match within none_ rfl rfl ?_ ?_, ?_, perLine⟩
  · simp [isSearched, decided]
  · simp [isExcluded, decided]
  · simp [none_, within]

theorem adds_of_excluded {reason : ExclusionReason}
    (within : scan.outcome.matches.length ≤ budget.maxResults)
    (decided : verdict query policy ignore searchIgnored read entry = .excluded reason)
    (same : next.outcome.matches = scan.outcome.matches)
    (truncated : next.outcome.truncated = scan.outcome.truncated)
    (eligible : next.outcome.eligiblePaths = scan.outcome.eligiblePaths)
    (counted : next.outcome.excluded = countOne scan.outcome.excluded reason.asStr)
    (perLine : next.display.perLine = query.budget.maxLineBytes)
    : Adds query policy ignore budget searchIgnored matcher read scan next [entry]
      ∧ true
        = decide
          (scan.outcome.matches.length
            + (matchesAt query policy ignore searchIgnored matcher read entry).length
            ≤ budget.maxResults)
      ∧ next.display.perLine = query.budget.maxLineBytes := by
  have none_ : matchesAt query policy ignore searchIgnored matcher read entry = [] := by
    rw [matchesAt, decided]
  refine ⟨adds_of_no_match within none_ same truncated ?_ ?_, ?_, perLine⟩
  · simp [isSearched, decided, eligible]
  · intro count counts
    rw [counted]
    simpa [isExcluded, decided] using counts.countOne reason.asStr
  · simp [none_, within]

/-- A path that is searched adds its matches while there is room. -/
theorem adds_of_searched {content : Bytes} {goes : Bool}
    (perLine : scan.display.perLine = query.budget.maxLineBytes)
    (within : scan.outcome.matches.length ≤ budget.maxResults)
    (decided : verdict query policy ignore searchIgnored read entry = .searched content)
    (kept : policy.excludesContent (Ingestion.classifyContent policy content) = none)
    (fits : Ingestion.classifyContent policy content ≠ .oversized)
    (ran : searchContent query policy budget matcher scan entry content = (goes, next))
    (left : next.display.exhausted = false)
    : Adds query policy ignore budget searchIgnored matcher read scan next [entry]
      ∧ goes
        = decide
          (scan.outcome.matches.length
            + (matchesAt query policy ignore searchIgnored matcher read entry).length
            ≤ budget.maxResults)
      ∧ next.display.perLine = query.budget.maxLineBytes := by
  have hits
      : matchesAt query policy ignore searchIgnored matcher read entry
        = (allHits query matcher content).map (matchAt [] entry.path) := by
    rw [matchesAt, decided]
  have all
      : allMatches query policy ignore searchIgnored matcher read [entry]
        = (allHits query matcher content).map (matchAt [] entry.path) := by
    rw [allMatches, List.flatMap_singleton, hits]
  rw [searchContent] at ran
  simp only [kept, if_neg fits, findInBlob] at ran
  obtain ⟨rfl, rfl⟩ := Prod.mk.injEq .. ▸ ran
  have found := collect_eq perLine left
  rw [found, push_eq _ _ within]
  have first
      : (((occurrences matcher (lines content)).take
            (budget.maxResults - scan.outcome.matches.length + 1)).map
              (hitOf query (lines content))).map (matchAt [] entry.path)
        = ((allHits query matcher content).map (matchAt [] entry.path)).take
            (budget.maxResults - scan.outcome.matches.length + 1) := by
    rw [allHits, List.map_take, List.map_take]
  rw [first]
  have counted
      : decide
          (scan.outcome.matches.length
              + (((allHits query matcher content).map (matchAt [] entry.path)).take
                  (budget.maxResults - scan.outcome.matches.length + 1)).length
            ≤ budget.maxResults)
        = decide
          (scan.outcome.matches.length
              + ((allHits query matcher content).map (matchAt [] entry.path)).length
            ≤ budget.maxResults) := by
    rw [List.length_take]
    exact decide_eq_decide.mpr (by omega)
  refine ⟨⟨?_, ?_, fun room => ⟨?_, fun count counts => ?_⟩⟩, ?_, ?_⟩
  · rw [all, List.take_append, List.take_of_length_le within, List.take_take]
    refine congrArg (fun n => _ ++ List.take n _) ?_
    omega
  · rw [all]
    refine congrArg (scan.outcome.truncated || ·) ?_
    rw [counted, ← decide_not]
    exact decide_eq_decide.mpr Nat.not_le
  · simp [isSearched, decided]
  · simpa [isExcluded, decided] using counts
  · rw [hits]
    exact counted
  · rw [DisplayBudget.spendAll_perLine]
    exact perLine

/-- A scan that has not spent its display budget has added a path, and goes on while all matches
have had room.
-/
theorem searchEntry_adds {goes : Bool}
    (unlimited : ∀ n, n ≤ budget.maxBytesRead)
    (perLine : scan.display.perLine = query.budget.maxLineBytes)
    (within : scan.outcome.matches.length ≤ budget.maxResults)
    (undisturbed : Undisturbed budget read elapsed entry)
    (ran
      : searchEntry query policy ignore budget searchIgnored matcher read elapsed scan entry
        = .ok (goes, next))
    (left : next.display.exhausted = false)
    : Adds query policy ignore budget searchIgnored matcher read scan next [entry]
      ∧ goes
        = decide
          (scan.outcome.matches.length
            + (matchesAt query policy ignore searchIgnored matcher read entry).length
            ≤ budget.maxResults)
      ∧ next.display.perLine = query.budget.maxLineBytes := by
  obtain ⟨inTime, readable⟩ := undisturbed
  rw [searchEntry] at ran
  by_cases outside : (!asked query ignore searchIgnored entry) = true
  · rw [if_pos outside] at ran
    cases ran
    have decided : verdict query policy ignore searchIgnored read entry = .outside := by
      rw [verdict, if_pos outside]
    exact adds_of_outside within decided perLine
  rw [if_neg outside] at ran
  by_cases large : entry.size > policy.maxBlobBytes
  · rw [if_pos large] at ran
    cases ran
    have decided : verdict query policy ignore searchIgnored read entry = .excluded .oversized := by
      rw [verdict, if_neg outside, if_pos large]
    exact adds_of_excluded within decided rfl rfl rfl rfl perLine
  rw [if_neg large] at ran
  have unspent : scan.display.exhausted = false := by
    by_contra spent
    rw [Bool.not_eq_false] at spent
    rw [if_pos (by rw [spent, Bool.or_true])] at ran
    cases ran
    rw [spent] at left
    cases left
  have onTime : ¬elapsed entry.path > budget.maxTime := by omega
  have little : ¬scan.outcome.bytesRead > budget.maxBytesRead :=
    UInt64.not_lt.mpr (unlimited _)
  rw [if_neg (by simp [onTime, little, unspent])] at ran
  cases held : read entry with
  | error e => exact (readable e held).elim
  | ok content =>
      rw [held] at ran
      cases content with
      | none =>
          cases ran
          have decided
              : verdict query policy ignore searchIgnored read entry = .excluded .indexGap := by
            rw [verdict, if_neg outside, if_neg large, held]
          exact adds_of_excluded within decided rfl rfl rfl rfl perLine
      | some content =>
          have ran : searchContent query policy budget matcher scan entry content = (goes, next) :=
            Except.ok.inj ran
          cases kept : policy.excludesContent (Ingestion.classifyContent policy content) with
          | some reason =>
              have decided
                  : verdict query policy ignore searchIgnored read entry = .excluded reason := by
                rw [verdict, if_neg outside, if_neg large, held]
                simp only [kept]
              rw [searchContent] at ran
              simp only [kept] at ran
              cases ran
              exact adds_of_excluded within decided rfl rfl rfl rfl perLine
          | none =>
              by_cases oversized : Ingestion.classifyContent policy content = .oversized
              · have decided
                    : verdict query policy ignore searchIgnored read entry
                      = .excluded .oversized := by
                  rw [verdict, if_neg outside, if_neg large, held]
                  simp only [kept, if_pos oversized]
                rw [searchContent] at ran
                simp only [kept, if_pos oversized] at ran
                cases ran
                exact adds_of_excluded within decided rfl rfl rfl rfl perLine
              · have decided
                    : verdict query policy ignore searchIgnored read entry
                      = .searched content := by
                  rw [verdict, if_neg outside, if_neg large, held]
                  simp only [kept, if_neg oversized]
                exact adds_of_searched perLine within decided kept oversized ran left

theorem searchEntry_ok (scan : LocalScan)
    (undisturbed : Undisturbed budget read elapsed entry)
    : ∃ goes next,
        searchEntry query policy ignore budget searchIgnored matcher read elapsed scan entry
        = .ok (goes, next) := by
  rw [searchEntry]
  split
  · exact ⟨_, _, rfl⟩
  · split
    · exact ⟨_, _, rfl⟩
    · split
      · exact ⟨_, _, rfl⟩
      · split
        · rename_i e failed
          exact (undisturbed.2 e failed).elim
        · exact ⟨_, _, rfl⟩
        · exact ⟨_, _, rfl⟩

theorem searchPaths_ok (scan : LocalScan)
    (undisturbed : ∀ entry ∈ paths, Undisturbed budget read elapsed entry)
    : ∃ last,
        searchPaths query policy ignore budget searchIgnored matcher read elapsed scan paths
        = .ok last := by
  induction paths generalizing scan with
  | nil => exact ⟨scan, rfl⟩
  | cons entry paths ih =>
      obtain ⟨here, later⟩ := List.forall_mem_cons.mp undisturbed
      rw [searchPaths]
      split
      · rename_i e failed
        obtain ⟨goes, next, ran⟩ := searchEntry_ok scan here
        rw [ran] at failed
        cases failed
      · exact ih _ later
      · exact ⟨_, rfl⟩

/-- A scan that has not spent its display budget has added its paths. -/
theorem searchPaths_adds {scan last : LocalScan}
    (unlimited : ∀ n, n ≤ budget.maxBytesRead)
    (perLine : scan.display.perLine = query.budget.maxLineBytes)
    (within : scan.outcome.matches.length ≤ budget.maxResults)
    (undisturbed : ∀ entry ∈ paths, Undisturbed budget read elapsed entry)
    (ran
      : searchPaths query policy ignore budget searchIgnored matcher read elapsed scan paths
        = .ok last)
    (left : last.display.exhausted = false)
    : Adds query policy ignore budget searchIgnored matcher read scan last paths := by
  induction paths generalizing scan with
  | nil =>
      cases ran
      constructor
      · rw [allMatches, List.flatMap_nil, List.append_nil, List.take_of_length_le within]
      · have fits : ¬budget.maxResults < last.outcome.matches.length := by omega
        simp [allMatches, fits]
      · exact fun _ => ⟨rfl, fun _ counts => counts⟩
  | cons entry paths ih =>
      obtain ⟨here, later⟩ := List.forall_mem_cons.mp undisturbed
      have whole
          : allMatches query policy ignore searchIgnored matcher read (entry :: paths)
            = matchesAt query policy ignore searchIgnored matcher read entry
              ++ allMatches query policy ignore searchIgnored matcher read paths :=
        List.flatMap_cons
      have one
          : allMatches query policy ignore searchIgnored matcher read [entry]
            = matchesAt query policy ignore searchIgnored matcher read entry :=
        List.flatMap_singleton ..
      rw [searchPaths] at ran
      split at ran
      · cases ran
      · rename_i next first
        have unspent : next.display.exhausted = false := by
          by_contra spent
          rw [Bool.not_eq_false] at spent
          rw [searchPaths_exhausted ran spent] at left
          cases left
        obtain ⟨adds, went, perLine'⟩ :=
          searchEntry_adds unlimited perLine within here first unspent
        have room := of_decide_eq_true went.symm
        have grown
            : next.outcome.matches
              = scan.outcome.matches
                ++ matchesAt query policy ignore searchIgnored matcher read entry := by
          rw [adds.matches, one, List.take_of_length_le (by rw [List.length_append]; exact room)]
        have length := congrArg List.length grown
        rw [List.length_append] at length
        have rest := ih perLine' (by omega) later ran
        constructor
        · rw [rest.matches, grown, whole, List.append_assoc]
        · have fits
              : ¬budget.maxResults
                < scan.outcome.matches.length
                  + (matchesAt query policy ignore searchIgnored matcher read entry).length := by
            omega
          rw [rest.truncated, adds.truncated, one, decide_eq_false fits, Bool.or_false, length,
            whole, List.length_append, Nat.add_assoc]
        · intro fits
          rw [whole, List.length_append] at fits
          obtain ⟨eligible, counts⟩ := adds.counted (by rw [one]; omega)
          obtain ⟨eligible', counts'⟩ := rest.counted (by omega)
          have split_ (counted : LocalPath → Bool)
              : (entry :: paths).countP counted
                = [entry].countP counted + paths.countP counted := by
            rw [← List.countP_append, List.singleton_append]
          refine ⟨?_, fun count counted => ?_⟩
          · rw [eligible', eligible, split_, Nat.add_assoc]
          · have both := counts' _ (counts count counted)
            have sums (name : Text)
                : count name
                    + [entry].countP (isExcluded query policy ignore searchIgnored read name)
                    + paths.countP (isExcluded query policy ignore searchIgnored read name)
                  = count name
                    + (entry :: paths).countP
                        (isExcluded query policy ignore searchIgnored read name) := by
              rw [split_, Nat.add_assoc]
            simpa only [sums] using both
      · rename_i next first
        cases ran
        obtain ⟨adds, stopped, _⟩ := searchEntry_adds unlimited perLine within here first left
        have past := of_decide_eq_false stopped.symm
        have full
            : budget.maxResults
              ≤ (scan.outcome.matches
                  ++ matchesAt query policy ignore searchIgnored matcher read entry).length := by
          rw [List.length_append]
          omega
        constructor
        · rw [adds.matches, one, whole, ← List.append_assoc, List.take_append_of_le_length full]
        · have more
              : budget.maxResults
                < scan.outcome.matches.length
                  + (matchesAt query policy ignore searchIgnored matcher read entry).length := by
            omega
          have more'
              : budget.maxResults
                < scan.outcome.matches.length
                  + (matchesAt query policy ignore searchIgnored matcher read entry
                    ++ allMatches query policy ignore searchIgnored matcher read
                        paths).length := by
            rw [List.length_append]
            omega
          rw [adds.truncated, one, whole, decide_eq_true more, decide_eq_true more']
        · intro fits
          rw [whole, List.length_append] at fits
          omega

-- Whole searches

/-- The search ends with some of its display budget left. -/
def Ample (query : Query) (policy : CorpusPolicy) (ignore : List IgnoreRule) (budget : LocalBudget)
    (searchIgnored : Bool) (matcher : Matcher)
    (read : LocalPath → Except GfsError (Option Bytes)) (elapsed : BytePath → Nat)
    (paths : List LocalPath)
    : Prop :=
  ∀ last,
    searched query policy ignore budget searchIgnored matcher read elapsed paths = .ok last
    → last.display.exhausted = false

/-- What a search that only its limit stops finds. -/
structure Finds (query : Query) (policy : CorpusPolicy) (ignore : List IgnoreRule)
    (budget : LocalBudget) (searchIgnored : Bool) (matcher : Matcher)
    (read : LocalPath → Except GfsError (Option Bytes)) (paths : List LocalPath)
    (outcome : LocalOutcome)
    : Prop where
  «matches»
    : outcome.matches
      = (allMatches query policy ignore searchIgnored matcher read paths).take budget.maxResults
  truncated
    : outcome.truncated
      = decide
        (budget.maxResults
          < (allMatches query policy ignore searchIgnored matcher read paths).length)
  counted
    : (allMatches query policy ignore searchIgnored matcher read paths).length ≤ budget.maxResults
      → outcome.eligiblePaths = paths.countP (isSearched query policy ignore searchIgnored read)
        ∧ Counts outcome.excluded fun name =>
            paths.countP (isExcluded query policy ignore searchIgnored read name)

theorem Finds.congr {outcome : LocalOutcome} (same : ∀ entry ∈ paths, read entry = read' entry)
    (finds : Finds query policy ignore budget searchIgnored matcher read paths outcome)
    : Finds query policy ignore budget searchIgnored matcher read' paths outcome := by
  obtain ⟨found, truncated, counted⟩ := finds
  rw [allMatches_congr same] at found truncated counted
  refine ⟨found, truncated, fun fits => ?_⟩
  obtain ⟨eligible, counts⟩ := counted fits
  rw [countP_isSearched_congr same] at eligible
  simp only [countP_isExcluded_congr same] at counts
  exact ⟨eligible, counts⟩

/-- A search of paths in their order finds their matches, as many as it may. -/
theorem searchLocal_finds {engine : Engine}
    (compiled : buildMatcher engine query = .ok matcher)
    (sorted : paths.Pairwise fun a b => a.path ≤ b.path)
    (unlimited : ∀ n, n ≤ budget.maxBytesRead)
    (undisturbed : ∀ entry ∈ paths, Undisturbed budget read elapsed entry)
    (ample : Ample query policy ignore budget searchIgnored matcher read elapsed paths)
    : ∃ outcome,
        searchLocal engine paths query policy ignore budget searchIgnored read elapsed = .ok outcome
        ∧ Finds query policy ignore budget searchIgnored matcher read paths outcome := by
  have same : ordered paths = paths :=
    List.mergeSort_of_pairwise (sorted.imp fun le => decide_eq_true le)
  obtain ⟨last, ran⟩ := searchPaths_ok
    ⟨.empty, .new query.budget⟩ undisturbed
  have whole
      : searched query policy ignore budget searchIgnored matcher read elapsed paths
        = .ok last := by
    rw [searched, same]
    exact ran
  have left := ample last whole
  have adds := searchPaths_adds unlimited rfl (Nat.zero_le _) undisturbed ran left
  refine ⟨last.finish, ?_, ?_, ?_, fun fits => ?_⟩
  · rw [searchLocal, compiled]
    dsimp only
    rw [whole]
    rfl
  · exact adds.matches
  · rw [LocalScan.finish, left, Bool.or_false, adds.truncated]
    simp [LocalOutcome.empty]
  · obtain ⟨eligible, counts⟩ := adds.counted (by simpa [LocalOutcome.empty] using fits)
    refine ⟨?_, ?_⟩
    · rw [LocalScan.finish, eligible]
      exact Nat.zero_add _
    · have all := counts _ counts_empty
      simp only [Nat.zero_add] at all
      exact all

end Verdicts

end Gfs.Search.Local
