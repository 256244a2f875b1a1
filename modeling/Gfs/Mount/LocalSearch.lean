import Gfs.Git.Walk
import Gfs.Search.Engine
import Gfs.Search.Local

/-! The search of a local-mode mount (`gfs-mount/src/local.rs`): every regular file of the pinned
tree, in contiguous slices of their sorted list that are searched side by side. What reading a blob
yields, what the clocks read and how many threads there are are parameters.
-/

namespace Gfs.Mount.LocalSearch

open Gfs.Types
open Gfs.Git
open Gfs.Lib.Slices
open Gfs.Search.Index
open Gfs.Search.Local

-- The source

/-- 120 seconds, in nanoseconds. -/
def searchTimeBudget : Nat :=
  120 * 1000000000

def defaultRepoHandles : Nat :=
  8

/-- A path offered to the search, and the blob it is read from. -/
abbrev File := LocalPath × ObjectId

/-- Every entry with a blob that a search over a scope could read. -/
def searchableEntries (repo : Repository) (commit : ObjectId) (scope : Bytes)
    : Except GfsError (List WalkEntry) :=
  if scope = [] then repo.db.walkTree commit []
  else
    match repo.entry commit scope with
    | .error e => .error e
    | .ok none => .ok []
    | .ok (some entry) =>
        if entry.kind.isDirLike then repo.db.walkTree commit scope
        else .ok [⟨scope, entry.mode, entry.oid, entry.size⟩]

/-- The regular files, sorted by path. -/
def regularFiles (entries : List WalkEntry) : List File :=
  ((entries.filter fun entry => isSearchable entry.mode).map fun entry =>
    (⟨entry.path, true, entry.size⟩, entry.oid)).mergeSort fun a b => decide (a.1.path ≤ b.1.path)

/-- `slice::chunks`. -/
def chunks {α : Type} (size : Nat) (list : List α) : List (List α) :=
  (List.range ((list.length + size - 1) / size)).map fun i => (list.drop (i * size)).take size

/-- How many threads are used, of those there are. -/
def threads (parallelism : Option Nat) : Nat :=
  min (max (parallelism.getD 1) 1) defaultRepoHandles

def slicesOf (parallelism : Option Nat) (files : List File) : List (List File) :=
  chunks (max ((files.length + threads parallelism - 1) / threads parallelism) 1) files

/-- Read a file of a slice; one whose blob is missing is a gap. -/
def readFile (readBlob : ObjectId → Except GfsError Bytes) (slice : List File) (entry : LocalPath)
    : Except GfsError (Option Bytes) :=
  match slice.reverse.find? (·.1.path = entry.path) with
  | none => .ok none
  | some file =>
      match readBlob file.2 with
      | .ok bytes => .ok (some bytes)
      | .error e => if e.code = .notFound then .ok none else .error e

/-- The limit of the results, which is at least one. -/
def limitOf (maxResults : Nat) : Nat :=
  max maxResults 1

/-- `u64::MAX` -/
def u64Max : UInt64 :=
  18446744073709551615

def budgetOf (maxResults : Nat) : LocalBudget where
  maxTime := searchTimeBudget
  maxBytesRead := u64Max
  maxResults := limitOf maxResults

/-- One `search_local` call over some files. -/
def searchSlice (engine : Engine) (query : Query) (readBlob : ObjectId → Except GfsError Bytes)
    (maxResults : Nat) (slice : List File) (elapsed : BytePath → Nat)
    : Except GfsError LocalOutcome :=
  searchLocal engine (slice.map Prod.fst) query .default [] (budgetOf maxResults) true
    (readFile readBlob slice) elapsed

/-- One more outcome. -/
def merge (merged outcome : LocalOutcome) : LocalOutcome where
  «matches» := merged.matches ++ outcome.matches
  excluded := addCounts merged.excluded outcome.excluded
  eligiblePaths := merged.eligiblePaths + outcome.eligiblePaths
  bytesRead := merged.bytesRead + outcome.bytesRead
  truncated := merged.truncated || outcome.truncated

/-- What is reported of the merged outcomes. -/
def report (commit : ObjectId) (query : Query) (limit candidates elapsedMs : Nat)
    (merged : LocalOutcome)
    : SearchResult :=
  let overLimit := decide (limit < merged.matches.length)
  let truncated := merged.truncated || overLimit
  {
    «matches» := if overLimit then merged.matches.take limit else merged.matches
    completion :=
      {
        executionStatus := if truncated then .truncated else .complete
        truncation :=
          if truncated then some (if overLimit then .resultLimit else .timeBudget) else none
        coverage :=
          {
            scope := query.scope
            eligiblePaths := merged.eligiblePaths
            excluded := merged.excluded
            declaredExclusions :=
              CorpusPolicy.default.declaredExclusions.map ExclusionReason.asStr
          }
        indexGeneration := 0
        commit := commit.toQualified
        stopBudget :=
          if truncated then
            some
              (if overLimit then "the result limit".toList
              else "the local scan's time budget".toList)
          else none
        candidatesConsidered := candidates
        bytesRead := merged.bytesRead.toNat
        elapsedMs
      }
  }

/-- The scan: the slices are searched, each by its own clock, and merged in their order. -/
def scan (engine : Engine) (readBlob : ObjectId → Except GfsError Bytes) (commit : ObjectId)
    (query : Query) (entries : List WalkEntry) (maxResults : Nat) (parallelism : Option Nat)
    (elapsed : Nat → BytePath → Nat) (elapsedMs : Nat)
    : Except GfsError SearchResult := do
  let files := regularFiles entries
  let outcomes
    ← (slicesOf parallelism files).zipIdx.mapM fun (slice, i) =>
        searchSlice engine query readBlob maxResults slice (elapsed i)
  pure
    (report commit query (limitOf maxResults) files.length elapsedMs
      (outcomes.foldl merge .empty))

-- Files and slices

theorem flatten_chunks {α : Type} {size : Nat} (positive : 0 < size) (list : List α)
    : (chunks size list).flatten = list := by
  have front (count : Nat)
      : ((List.range count).map fun i => (list.drop (i * size)).take size).flatten
        = list.take (count * size) := by
    induction count with
    | zero => simp
    | succ count ih =>
        rw [List.range_succ, List.map_append, List.flatten_append, ih, Nat.succ_mul,
          List.take_add]
        simp
  rw [chunks, front, List.take_of_length_le]
  have enough := Nat.div_add_mod (list.length + size - 1) size
  have rest := Nat.mod_lt (list.length + size - 1) positive
  rw [Nat.mul_comm] at enough
  omega

theorem slicesOf_nil (parallelism : Option Nat) : slicesOf parallelism [] = [] := by
  have none_ : (0 + max ((0 + threads parallelism - 1) / threads parallelism) 1 - 1)
      / max ((0 + threads parallelism - 1) / threads parallelism) 1 = 0 :=
    Nat.div_eq_of_lt (by omega)
  rw [slicesOf, chunks, List.length_nil, none_]
  rfl

theorem flatten_slicesOf (parallelism : Option Nat) (files : List File)
    : (slicesOf parallelism files).flatten = files :=
  flatten_chunks (by omega) files

theorem nodup_searchableEntries {repo : Repository} {commit : ObjectId} {scope : Bytes}
    {entries : List WalkEntry} (listed : searchableEntries repo commit scope = .ok entries)
    : (entries.map WalkEntry.path).Nodup := by
  rw [searchableEntries] at listed
  split at listed
  · exact nodup_walkTree listed
  · split at listed
    · cases listed
    · cases listed
      exact List.nodup_nil
    · split at listed
      · exact nodup_walkTree listed
      · cases listed
        exact List.nodup_singleton _

theorem regularFiles_sorted {entries : List WalkEntry} (once : (entries.map WalkEntry.path).Nodup)
    : (regularFiles entries).Pairwise (fun a b => a.1.path ≤ b.1.path)
      ∧ ((regularFiles entries).map (·.1.path)).Nodup := by
  constructor
  · have total (a b : File)
        : (decide (a.1.path ≤ b.1.path) || decide (b.1.path ≤ a.1.path)) = true := by
      simpa using List.le_total a.1.path b.1.path
    have trans (a b c : File) (first : decide (a.1.path ≤ b.1.path) = true)
        (second : decide (b.1.path ≤ c.1.path) = true)
        : decide (a.1.path ≤ c.1.path) = true :=
      decide_eq_true (List.le_trans (of_decide_eq_true first) (of_decide_eq_true second))
    exact (List.pairwise_mergeSort trans total _).imp fun le => of_decide_eq_true le
  · rw [regularFiles, ((List.mergeSort_perm _ _).map _).nodup_iff, List.map_map]
    exact once.sublist (List.filter_sublist.map _)

theorem readFile_eq (readBlob : ObjectId → Except GfsError Bytes) {files : List File}
    (once : (files.map (·.1.path)).Nodup) {file : File} (member : file ∈ files)
    : readFile readBlob files file.1
      = match readBlob file.2 with
        | .ok bytes => .ok (some bytes)
        | .error e => if e.code = .notFound then .ok none else .error e := by
  have found : files.reverse.find? (·.1.path = file.1.path) = some file := by
    cases first : files.reverse.find? (·.1.path = file.1.path) with
    | none =>
        have none_ := List.find?_eq_none.mp first file (List.mem_reverse.mpr member)
        exact (none_ (decide_eq_true rfl)).elim
    | some other =>
        have listed := List.mem_reverse.mp (List.mem_of_find?_eq_some first)
        have same : other.1.path = file.1.path := by
          simpa using List.find?_some first
        rw [List.inj_on_of_nodup_map once listed member same]
  rw [readFile, found]

-- Slices side by side

section Scan

variable (engine : Engine) (query : Query) (readBlob : ObjectId → Except GfsError Bytes)
  (maxResults : Nat) (parallelism : Option Nat) (files : List File)

/-- Every match in a part of the files. -/
def matchesIn (part : List File) : List Match :=
  match buildMatcher engine query with
  | .error _ => []
  | .ok matcher =>
      allMatches query .default [] true matcher (readFile readBlob files) (part.map Prod.fst)

/-- No clock passes the time budget, no read fails, and no search spends its display budget: neither
those of the slices nor the serial one.
-/
structure Calm (elapsed : Nat → BytePath → Nat) (serially : BytePath → Nat) : Prop where
  inTime : ∀ i path, elapsed i path ≤ searchTimeBudget
  seriallyInTime : ∀ path, serially path ≤ searchTimeBudget
  readable : ∀ oid e, readBlob oid = .error e → e.code = .notFound
  ample
    : ∀ matcher,
      buildMatcher engine query = .ok matcher
      → ∀ slice i,
        (slice, i) ∈ (slicesOf parallelism files).zipIdx
        → Ample query .default [] (budgetOf maxResults) true matcher (readFile readBlob slice)
          (elapsed i) (slice.map Prod.fst)
  seriallyAmple
    : ∀ matcher,
      buildMatcher engine query = .ok matcher
      → Ample query .default [] (budgetOf maxResults) true matcher (readFile readBlob files)
        serially (files.map Prod.fst)

/-- A scan answers as the serial one: with its matches and its counts where they are within the
limit, and else with the first of its matches and the limit as the reason.
-/
def AsSerial (limit total : Nat) (serial : Except GfsError LocalOutcome)
    (scanned : Except GfsError SearchResult)
    : Prop :=
  match serial, scanned with
  | .ok serial, .ok result =>
      (total ≤ limit
        → result.matches = serial.matches
          ∧ result.completion.coverage.eligiblePaths = serial.eligiblePaths
          ∧ result.completion.coverage.excluded = serial.excluded
          ∧ result.completion.executionStatus = .complete
          ∧ result.completion.truncation = none)
      ∧ (limit < total
        → result.matches = serial.matches.take limit
          ∧ result.completion.executionStatus = .truncated
          ∧ result.completion.truncation = some .resultLimit)
  | .error e, .error e' => e' = e
  | _, _ => False

variable {engine query readBlob maxResults parallelism files}

theorem le_u64Max (n : UInt64) : n ≤ u64Max := by
  have most : u64Max.toNat = 18446744073709551615 := by
    simp [u64Max]
  have bounded := n.toNat_lt
  rw [UInt64.le_iff_toNat_le, most]
  omega

theorem readFile_ne_error (readable : ∀ oid e, readBlob oid = .error e → e.code = .notFound)
    (slice : List File) (entry : LocalPath) (e : GfsError)
    : readFile readBlob slice entry ≠ .error e := by
  rw [readFile]
  split
  · exact fun same => nomatch same
  · split
    · exact fun same => nomatch same
    · rename_i failed
      rw [if_pos (readable _ _ failed)]
      exact fun same => nomatch same

theorem matchesIn_flatten (slices : List (List File))
    : (slices.map (matchesIn engine query readBlob files)).flatten
      = matchesIn engine query readBlob files slices.flatten := by
  unfold matchesIn
  cases buildMatcher engine query with
  | error e => simp
  | ok matcher =>
      induction slices with
      | nil => rfl
      | cons slice slices ih =>
          rw [List.map_cons, List.flatten_cons, ih, List.flatten_cons, List.map_append]
          exact List.flatMap_append.symm

/-- A slice finds what the whole list has of it. -/
theorem searchSlice_finds {matcher : Matcher} {slice : List File} {elapsed : BytePath → Nat}
    (compiled : buildMatcher engine query = .ok matcher)
    (sorted : files.Pairwise fun a b => a.1.path ≤ b.1.path)
    (once : (files.map (·.1.path)).Nodup) (sub : slice.Sublist files)
    (inTime : ∀ path, elapsed path ≤ searchTimeBudget)
    (readable : ∀ oid e, readBlob oid = .error e → e.code = .notFound)
    (ample
      : Ample query .default [] (budgetOf maxResults) true matcher (readFile readBlob slice)
          elapsed (slice.map Prod.fst))
    : ∃ outcome,
        searchSlice engine query readBlob maxResults slice elapsed = .ok outcome
        ∧ Finds query .default [] (budgetOf maxResults) true matcher (readFile readBlob files)
          (slice.map Prod.fst) outcome := by
  have unlimited (n : UInt64) : n ≤ (budgetOf maxResults).maxBytesRead := le_u64Max n
  obtain ⟨outcome, ran, finds⟩ := searchLocal_finds compiled
    (List.pairwise_map.mpr (sorted.sublist sub)) unlimited
    (fun entry _ => ⟨inTime entry.path, readFile_ne_error readable slice entry⟩) ample
  refine ⟨outcome, ran, finds.congr fun entry member => ?_⟩
  obtain ⟨file, listed, rfl⟩ := List.mem_map.mp member
  rw [readFile_eq readBlob (once.sublist (sub.map _)) listed,
    readFile_eq readBlob once (sub.subset listed)]

theorem foldl_merge {matcher : Matcher} {slices : List (List File)} {outcomes : List LocalOutcome}
    (all
      : List.Forall₂
          (fun slice outcome =>
            Finds query .default [] (budgetOf maxResults) true matcher (readFile readBlob files)
              (slice.map Prod.fst) outcome)
          slices outcomes)
    (merged : LocalOutcome)
    : (outcomes.foldl merge merged).matches
        = merged.matches
          ++ (slices.map fun slice =>
              allMatches query .default [] true matcher (readFile readBlob files)
                (slice.map Prod.fst)).flatMap (List.take (limitOf maxResults))
      ∧ (outcomes.foldl merge merged).truncated
        = (merged.truncated
          || slices.any fun slice =>
            decide
              (limitOf maxResults
                < (allMatches query .default [] true matcher (readFile readBlob files)
                    (slice.map Prod.fst)).length))
      ∧ ((∀ slice ∈ slices,
            (allMatches query .default [] true matcher (readFile readBlob files)
              (slice.map Prod.fst)).length
            ≤ limitOf maxResults)
        → (outcomes.foldl merge merged).eligiblePaths
            = merged.eligiblePaths
              + (slices.flatten.map Prod.fst).countP
                  (isSearched query .default [] true (readFile readBlob files))
          ∧ ∀ count, Counts merged.excluded count
            → Counts (outcomes.foldl merge merged).excluded fun name =>
                count name
                  + (slices.flatten.map Prod.fst).countP
                      (isExcluded query .default [] true (readFile readBlob files) name)) := by
  induction all generalizing merged with
  | nil => exact ⟨by simp, by simp, fun _ => ⟨rfl, fun _ counts => counts⟩⟩
  | @cons slice outcome slices outcomes here _ ih =>
      obtain ⟨found, truncated, counted⟩ := ih (merge merged outcome)
      rw [List.foldl_cons]
      refine ⟨?_, ?_, fun fit => ?_⟩
      · rw [found, List.map_cons, List.flatMap_cons, ← List.append_assoc]
        refine congrArg (· ++ _) ?_
        rw [merge, here.matches]
        rfl
      · rw [truncated, List.any_cons, ← Bool.or_assoc]
        refine congrArg (· || _) ?_
        rw [merge, here.truncated]
        rfl
      · obtain ⟨fits, later⟩ := List.forall_mem_cons.mp fit
        obtain ⟨eligible, counts⟩ := counted later
        obtain ⟨own, ownCounts⟩ := here.counted fits
        refine ⟨?_, fun count held => ?_⟩
        · rw [eligible, List.flatten_cons, List.map_append, List.countP_append, merge, own,
            Nat.add_assoc]
        · have both := counts _ (held.addCounts ownCounts)
          simpa only [List.flatten_cons, List.map_append, List.countP_append, Nat.add_assoc]
            using both

/-- What a scan reports goes by the matches of the slices. -/
theorem report_as_serial {commit : ObjectId} {limit candidates elapsedMs : Nat}
    {found : List (List Match)} {merged serial : LocalOutcome} (positive : 0 < limit)
    (all : merged.matches = found.flatMap (List.take limit))
    (truncated : merged.truncated = found.any fun slice => decide (limit < slice.length))
    (serially : serial.matches = found.flatten.take limit)
    (counted
      : found.flatten.length ≤ limit
        → merged.eligiblePaths = serial.eligiblePaths ∧ merged.excluded = serial.excluded)
    : AsSerial limit found.flatten.length (.ok serial)
        (.ok (report commit query limit candidates elapsedMs merged))
      ↔ found.flatten.length ≤ limit ∨ ¬AllInOne found := by
  have cut
      : limit < (found.flatMap (List.take limit)).length
        ↔ limit < found.flatten.length ∧ ¬AllInOne found :=
    lt_length_cut positive
  rw [← all] at cut
  have take : merged.matches.take limit = serial.matches := by
    rw [all, take_cut, serially]
  constructor
  · rintro ⟨-, beyond⟩
    by_cases fits : found.flatten.length ≤ limit
    · exact .inl fits
    · refine .inr fun inOne => ?_
      have past : limit < found.flatten.length := by omega
      have short : ¬limit < merged.matches.length := fun over_ => (cut.mp over_).2 inOne
      have reason := (beyond past).2.2
      rw [report] at reason
      simp only [decide_eq_false short, Bool.or_false, Bool.false_eq_true, if_false] at reason
      split at reason
      · cases reason
      · cases reason
  · intro either
    by_cases fits : found.flatten.length ≤ limit
    · have whole : merged.matches = found.flatten := by
        rw [all, cut_of_fits fits]
      have short : ¬limit < merged.matches.length := by
        rw [whole]
        omega
      have none_ : merged.truncated = false := by
        rw [truncated, List.any_eq_false]
        intro slice member
        have part := (List.sublist_flatten_of_mem member).length_le
        simp only [decide_eq_true_eq]
        omega
      obtain ⟨eligible, excluded⟩ := counted fits
      refine ⟨fun _ => ⟨?_, eligible, excluded, ?_, ?_⟩, fun past => absurd past (by omega)⟩
      · rw [report]
        simp only [decide_eq_false short, Bool.false_eq_true, if_false]
        rw [whole, serially, List.take_of_length_le fits]
      · rw [report]
        simp [none_, short]
      · rw [report]
        simp [none_, short]
    · have past : limit < found.flatten.length := by omega
      have over_ := cut.mpr ⟨past, either.resolve_left fits⟩
      refine ⟨fun within => absurd within fits, fun _ => ⟨?_, ?_, ?_⟩⟩
      · rw [report]
        simp only [decide_eq_true over_, if_true]
        rw [take, serially, List.take_take, Nat.min_self]
      · rw [report]
        simp [over_]
      · rw [report]
        simp [over_]

end Scan

-- The scan and the serial one

/-- A scan answers as the serial one exactly where the pattern compiles or there is a file to see
that it does not, and the matches are within the limit or not all in one slice.
-/
theorem scan_as_serial_iff (engine : Engine) (repo : Repository) (commit : ObjectId) (query : Query)
    (entries : List WalkEntry) (listed : searchableEntries repo commit query.scope = .ok entries)
    (readBlob : ObjectId → Except GfsError Bytes) (maxResults : Nat) (parallelism : Option Nat)
    (elapsed : Nat → BytePath → Nat) (serially : BytePath → Nat)
    (calm
      : Calm engine query readBlob maxResults parallelism (regularFiles entries) elapsed serially)
    (elapsedMs : Nat)
    : AsSerial (limitOf maxResults)
        (matchesIn engine query readBlob (regularFiles entries) (regularFiles entries)).length
        (searchSlice engine query readBlob maxResults (regularFiles entries) serially)
        (scan engine readBlob commit query entries maxResults parallelism elapsed elapsedMs)
      ↔ (regularFiles entries ≠ [] ∨ ∀ e, buildMatcher engine query ≠ .error e)
        ∧ ((matchesIn engine query readBlob (regularFiles entries) (regularFiles entries)).length
            ≤ limitOf maxResults
          ∨ ¬AllInOne
              ((slicesOf parallelism (regularFiles entries)).map
                (matchesIn engine query readBlob (regularFiles entries)))) := by
  obtain ⟨sorted, once⟩ := regularFiles_sorted (nodup_searchableEntries listed)
  rw [scan]
  dsimp only
  generalize regularFiles entries = files at sorted once calm ⊢
  have whole := flatten_slicesOf parallelism files
  cases compiled : buildMatcher engine query with
  | error e =>
      have refused (slice : List File) (clock : BytePath → Nat)
          : searchSlice engine query readBlob maxResults slice clock = .error e := by
        rw [searchSlice, searchLocal, compiled]
      have nothing : matchesIn engine query readBlob files files = [] := by
        rw [matchesIn, compiled]
      rw [refused, nothing]
      cases slices : slicesOf parallelism files with
      | nil =>
          have none_ : files = [] := by
            rw [← whole, slices]
            rfl
          constructor
          · exact fun answers => answers.elim
          · rintro ⟨some_ | compiles, -⟩
            · exact (some_ none_).elim
            · exact (compiles e rfl).elim
      | cons slice rest =>
          have some_ : files ≠ [] := by
            intro none_
            rw [none_, slicesOf_nil] at slices
            cases slices
          have failed
              : ((slice :: rest).zipIdx.mapM fun (slice, i) =>
                  searchSlice engine query readBlob maxResults slice (elapsed i))
                = .error e := by
            rw [List.zipIdx_cons, List.mapM_cons]
            simp only [refused]
            rfl
          rw [failed]
          exact ⟨fun _ => ⟨.inl some_, .inl (Nat.zero_le _)⟩, fun _ => rfl⟩
  | ok matcher =>
      have parts
          : ∀ part ∈ (slicesOf parallelism files).zipIdx,
            ∃ outcome,
              searchSlice engine query readBlob maxResults part.1 (elapsed part.2) = .ok outcome
              ∧ Finds query .default [] (budgetOf maxResults) true matcher
                (readFile readBlob files) (part.1.map Prod.fst) outcome := by
        rintro ⟨slice, i⟩ member
        have inSlices : slice ∈ slicesOf parallelism files := List.fst_mem_of_mem_zipIdx member
        have sub : slice.Sublist files := whole ▸ List.sublist_flatten_of_mem inSlices
        exact searchSlice_finds compiled sorted once sub (calm.inTime i) calm.readable
          (calm.ample matcher compiled slice i member)
      obtain ⟨outcomes, ran, all⟩ := Lib.Mapped.exists_mapM_related parts
      have bySlice
          : List.Forall₂
              (fun slice outcome =>
                Finds query .default [] (budgetOf maxResults) true matcher
                  (readFile readBlob files) (slice.map Prod.fst) outcome)
              ((slicesOf parallelism files).zipIdx.map Prod.fst) outcomes :=
        List.forall₂_map_left_iff.mpr all
      rw [List.zipIdx_map_fst] at bySlice
      obtain ⟨serial, serialRan, serialFinds⟩ := searchSlice_finds compiled sorted once
        (.refl files) calm.seriallyInTime calm.readable (calm.seriallyAmple matcher compiled)
      obtain ⟨found, truncated, counted⟩ := foldl_merge bySlice .empty
      have matchesIn_eq (part : List File)
          : matchesIn engine query readBlob files part
            = allMatches query .default [] true matcher (readFile readBlob files)
                (part.map Prod.fst) := by
        rw [matchesIn, compiled]
      have total
          : ((slicesOf parallelism files).map
              (matchesIn engine query readBlob files)).flatten
            = matchesIn engine query readBlob files files := by
        rw [matchesIn_flatten, whole]
      have serially' := serialFinds.matches
      rw [← matchesIn_eq, ← total] at serially'
      have bySlice'
          : ((slicesOf parallelism files).map fun slice =>
              allMatches query .default [] true matcher (readFile readBlob files)
                (slice.map Prod.fst))
            = (slicesOf parallelism files).map (matchesIn engine query readBlob files) :=
        List.map_congr_left fun slice _ => (matchesIn_eq slice).symm
      rw [bySlice'] at found
      rw [ran, serialRan, ← total]
      refine Iff.trans (report_as_serial (by rw [limitOf]; omega) found ?_ serially' ?_) ?_
      · rw [truncated, List.any_map]
        simp only [Function.comp_def, matchesIn_eq]
        rfl
      · intro fits
        have fit : ∀ slice ∈ slicesOf parallelism files,
            (allMatches query .default [] true matcher (readFile readBlob files)
              (slice.map Prod.fst)).length
            ≤ limitOf maxResults := by
          intro slice member
          rw [← matchesIn_eq]
          exact (List.sublist_flatten_of_mem (List.mem_map_of_mem member)).length_le.trans fits
        obtain ⟨eligible, counts⟩ := counted fit
        rw [total, matchesIn_eq] at fits
        obtain ⟨eligible', counts'⟩ := serialFinds.counted fits
        rw [whole] at eligible counts
        refine ⟨?_, ?_⟩
        · rw [eligible, eligible']
          exact Nat.zero_add _
        · have all := counts _ counts_empty
          simp only [Nat.zero_add] at all
          exact all.unique counts'
      · constructor
        · exact fun either => ⟨.inr fun e same => (by cases same), either⟩
        · exact And.right

-- One file

/-- A commit of one regular file `a`, in which `x` stands twice. -/
def oneFile : Repository where
  db := {
    commit := fun oid => if oid = ⟨.sha1, [0]⟩ then some ⟨⟨.sha1, [1]⟩, []⟩ else none
    tree := fun oid =>
      if oid = ⟨.sha1, [1]⟩ then
        some ⟨[⟨[97], Mode.regular, ⟨.sha1, [2]⟩⟩], by simp [IsComponent, slash], by decide⟩
      else none
    blob := fun oid => if oid = ⟨.sha1, [2]⟩ then some [120, 120] else none
    weight := fun _ => 1
    acyclic := by
      intro oid object stored
      split at stored
      · cases stored
        decide
      · cases stored
  }
  lfsCheck := none

/-- The letter `x`, in the file `a`. -/
def letterQuery : Query where
  pattern := [120]
  literal := true
  caseInsensitive := false
  scope := [97]
  includeGlobs := []
  excludeGlobs := []
  contextBefore := 0
  contextAfter := 0
  startAfterPath := none
  budget := .default

def oneEntry : List WalkEntry :=
  [⟨[97], Mode.regular, ⟨.sha1, [2]⟩, 2⟩]

theorem oneFile_listed
    : searchableEntries oneFile ⟨.sha1, [0]⟩ letterQuery.scope = .ok oneEntry := by
  decide +kernel

/-- A search of the one file by one thread, or serially, is disturbed by nothing. -/
theorem oneFile_calm {maxResults : Nat} (few : maxResults = 1 ∨ maxResults = 2)
    : Calm .plain letterQuery oneFile.db.findBlob maxResults none (regularFiles oneEntry)
        (fun _ _ => 0) (fun _ => 0) := by
  have ample
      : ∀ matcher,
        buildMatcher .plain letterQuery = .ok matcher
        → Ample letterQuery .default [] (budgetOf maxResults) true matcher
          (readFile oneFile.db.findBlob (regularFiles oneEntry)) (fun _ => 0)
          ((regularFiles oneEntry).map Prod.fst) := by
    intro matcher compiled last ran
    cases compiled
    have left
        : ((searched letterQuery .default [] (budgetOf maxResults) true
            (fun text => wordSpans (spells false) [120] text (text.length + 1) 0)
            (readFile oneFile.db.findBlob (regularFiles oneEntry)) (fun _ => 0)
            ((regularFiles oneEntry).map Prod.fst)).toOption.map
              fun last => last.display.exhausted)
          = some false := by
      rcases few with rfl | rfl <;> decide +kernel
    have same
        : searched letterQuery .default [] (budgetOf maxResults) true
            (fun text => wordSpans (spells false) [120] text (text.length + 1) 0)
            (readFile oneFile.db.findBlob (regularFiles oneEntry)) (fun _ => 0)
            ((regularFiles oneEntry).map Prod.fst)
          = .ok last :=
      ran
    rw [same] at left
    exact Option.some.inj left
  refine ⟨fun _ _ => Nat.zero_le _, fun _ => Nat.zero_le _, fun oid e failed => ?_,
    fun matcher compiled slice i member => ?_, ample⟩
  · rw [ObjectDb.findBlob] at failed
    cases held : oneFile.db.blob oid with
    | none =>
        rw [held] at failed
        cases failed
        rfl
    | some content =>
        rw [held] at failed
        cases failed
  · have one : slicesOf none (regularFiles oneEntry) = [regularFiles oneEntry] := by
      decide +kernel
    rw [one] at member
    cases List.mem_singleton.mp member
    exact ample matcher compiled

theorem oneFile_as_serial
    : AsSerial (limitOf 2)
        (matchesIn .plain letterQuery oneFile.db.findBlob (regularFiles oneEntry)
          (regularFiles oneEntry)).length
        (searchSlice .plain letterQuery oneFile.db.findBlob 2 (regularFiles oneEntry) fun _ => 0)
        (scan .plain oneFile.db.findBlob ⟨.sha1, [0]⟩ letterQuery oneEntry 2 none
          (fun _ _ => 0) 0) :=
  (scan_as_serial_iff .plain oneFile ⟨.sha1, [0]⟩ letterQuery oneEntry oneFile_listed
    oneFile.db.findBlob 2 none (fun _ _ => 0) (fun _ => 0) (oneFile_calm (.inr rfl)) 0).mpr
      ⟨.inl (by decide +kernel), .inl (by decide +kernel)⟩

/-- Two matches in one slice are over a limit of one, and the reason given is the time budget, which
no clock has passed.
-/
theorem one_slice_blames_time
    : ¬∀ (engine : Engine) (repo : Repository) (commit : ObjectId) (query : Query)
        (entries : List WalkEntry) (readBlob : ObjectId → Except GfsError Bytes)
        (maxResults : Nat) (parallelism : Option Nat) (elapsed : Nat → BytePath → Nat)
        (serially : BytePath → Nat) (elapsedMs : Nat),
        searchableEntries repo commit query.scope = .ok entries
        → Calm engine query readBlob maxResults parallelism (regularFiles entries) elapsed
          serially
        → AsSerial (limitOf maxResults)
          (matchesIn engine query readBlob (regularFiles entries) (regularFiles entries)).length
          (searchSlice engine query readBlob maxResults (regularFiles entries) serially)
          (scan engine readBlob commit query entries maxResults parallelism elapsed elapsedMs) := by
  intro claim
  have answers := claim .plain oneFile ⟨.sha1, [0]⟩ letterQuery oneEntry oneFile.db.findBlob 1 none
    (fun _ _ => 0) (fun _ => 0) 0 oneFile_listed (oneFile_calm (.inl rfl))
  have reason
      : ((scan .plain oneFile.db.findBlob ⟨.sha1, [0]⟩ letterQuery oneEntry 1 none
          (fun _ _ => 0) 0).toOption.map fun result => result.completion.truncation)
        = some (some .timeBudget) := by
    decide +kernel
  have searches
      : (searchSlice .plain letterQuery oneFile.db.findBlob 1 (regularFiles oneEntry)
          fun _ => 0).toOption.isSome = true := by
    decide +kernel
  have total
      : (matchesIn .plain letterQuery oneFile.db.findBlob (regularFiles oneEntry)
          (regularFiles oneEntry)).length
        = 2 := by
    decide +kernel
  rw [total] at answers
  cases serial : searchSlice .plain letterQuery oneFile.db.findBlob 1 (regularFiles oneEntry)
      fun _ => 0 with
  | error e =>
      rw [serial] at searches
      cases searches
  | ok outcome =>
      cases scanned : scan .plain oneFile.db.findBlob ⟨.sha1, [0]⟩ letterQuery oneEntry 1 none
          (fun _ _ => 0) 0 with
      | error e =>
          rw [scanned] at reason
          cases reason
      | ok result =>
          rw [scanned] at reason
          rw [serial, scanned] at answers
          have limited := (answers.2 (by decide)).2.2
          have blamed : result.completion.truncation = some .timeBudget := Option.some.inj reason
          rw [limited] at blamed
          cases blamed

end Gfs.Mount.LocalSearch
