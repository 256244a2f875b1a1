import Gfs.Lib.Totals
import Gfs.Search.Answer
import Gfs.Search.Paging

/-! Coverage (`gfs-search/src/query.rs`): what a search counts as searched and as excluded, over the
paths of its question.
-/

namespace Gfs.Search.Index

open Gfs.Types
open Gfs.Lib.Totals
open Std (ExtTreeMap)

theorem ExclusionReason.asStr_inj {first second : ExclusionReason}
    : first.asStr = second.asStr ↔ first = second := by
  constructor
  · intro same
    cases first <;> cases second <;> first | rfl | exact absurd same (by decide)
  · exact congrArg _

-- Classified paths

namespace Coverage

/-- How many paths are counted under a reason. -/
def countOf (coverage : Coverage) (reason : ExclusionReason) : Nat :=
  (coverage.excluded[reason.asStr]?).getD 0

/-- How many paths are counted under some reason. -/
def excludedPaths (coverage : Coverage) : Nat :=
  total id coverage.excluded

theorem countOf_record (coverage : Coverage) (reason other : ExclusionReason)
    : (coverage.record reason).countOf other
      = coverage.countOf other + if reason = other then 1 else 0 := by
  rw [countOf, record, ExtTreeMap.getElem?_insert]
  simp only [Std.LawfulEqCmp.compare_eq_iff_eq, ExclusionReason.asStr_inj]
  split
  · rename_i same
    subst same
    rfl
  · rfl

theorem excludedPaths_record (coverage : Coverage) (reason : ExclusionReason)
    : (coverage.record reason).excludedPaths = coverage.excludedPaths + 1 := by
  have before : held id coverage.excluded[reason.asStr]? = coverage.countOf reason := by
    rw [countOf]
    cases coverage.excluded[reason.asStr]? <;> rfl
  have grown
      : (coverage.record reason).excludedPaths + held id coverage.excluded[reason.asStr]?
        = coverage.excludedPaths + (coverage.countOf reason + 1) :=
    @total_insert Text Nat _ compare _ _ id coverage.excluded reason.asStr _
  omega

end Coverage

/-- Each path is counted once: as searched, or under the reason its verdict gives. -/
structure Tallied (entries : List PathEntry) (verdict : PathEntry → Option ExclusionReason)
    (coverage : Coverage)
    : Prop where
  eligible : coverage.eligiblePaths = entries.countP (fun entry => verdict entry = none)
  excluded
    : ∀ reason, coverage.countOf reason = entries.countP (fun entry => verdict entry = some reason)
  whole : coverage.eligiblePaths + coverage.excludedPaths = entries.length

section Coverage

variable (inputs : SearchInputs) (query : Query)

/-- One path of the classification. -/
def classify (coverage : Coverage) (entry : PathEntry) : Coverage :=
  match inputs.exclusion entry with
  | some reason => coverage.record reason
  | none => coverage

theorem foldl_classify (coverage : Coverage) (entries : List PathEntry)
    : (entries.foldl (classify inputs) coverage).eligiblePaths = coverage.eligiblePaths
      ∧ (∀ reason,
          (entries.foldl (classify inputs) coverage).countOf reason
          = coverage.countOf reason
            + entries.countP (fun entry => inputs.exclusion entry = some reason))
      ∧ (entries.foldl (classify inputs) coverage).excludedPaths
          + entries.countP (fun entry => inputs.exclusion entry = none)
        = coverage.excludedPaths + entries.length := by
  induction entries generalizing coverage with
  | nil => exact ⟨rfl, fun _ => rfl, rfl⟩
  | cons entry rest ih =>
      obtain ⟨eligible, counts, sum⟩ := ih (classify inputs coverage entry)
      simp only [List.foldl_cons, List.countP_cons, List.length_cons, eligible, counts]
      cases known : inputs.exclusion entry with
      | none =>
          simp only [classify, known] at sum ⊢
          refine ⟨trivial, fun reason => by simp, ?_⟩
          simp only [decide_true, if_true]
          omega
      | some first =>
          simp only [classify, known, Coverage.excludedPaths_record] at sum ⊢
          refine ⟨rfl, fun reason => ?_, ?_⟩
          · rw [Coverage.countOf_record, Nat.add_assoc, Nat.add_comm (ite _ _ _)]
            simp only [Option.some.injEq, decide_eq_true_eq]
          · simp only [reduceCtorEq, decide_false, Bool.false_eq_true, if_false]
            omega

/-- Classification counts every path of the question once. -/
theorem classified_tallied
    : Tallied (inputs.asked query) inputs.exclusion (classified inputs query) := by
  obtain ⟨eligible, counts, sum⟩ :=
    foldl_classify inputs
      ⟨query.scope, (inputs.eligible query).length, ∅,
        inputs.policy.declaredExclusions.map ExclusionReason.asStr⟩ (inputs.asked query)
  have searched
      : (inputs.eligible query).length
        = (inputs.asked query).countP (fun entry => inputs.exclusion entry = none) := by
    rw [SearchInputs.eligible, List.countP_eq_length_filter]
  have counted : (classified inputs query).eligiblePaths = (inputs.eligible query).length :=
    eligible
  have shared
      : (classified inputs query).excludedPaths
          + (inputs.asked query).countP (fun entry => inputs.exclusion entry = none)
        = 0 + (inputs.asked query).length := by
    rw [← @total_empty Text Nat _ compare _ id]
    exact sum
  refine ⟨counted.trans searched, fun reason => ?_, by omega⟩
  refine (counts reason).trans ?_
  simp [Coverage.countOf]

-- The blobs that are asked for

variable (matcher : Matcher)

/-- The budgets let the loop get past blobs and to one more. -/
structure Reached (scan : Scan) (before : List BlobKey) : Prop where
  time : ∀ i ≤ before.length, inputs.elapsed (scan.considered + i) ≤ query.budget.maxTime
  bytes : scan.bytesRead + (before.map (sizeOf inputs)).sum ≤ query.budget.maxBytesRead
  count : scan.considered + before.length < query.budget.maxCandidates
  display
    : (scan.display.spendAll (before.flatMap (costsOf inputs query matcher))).exhausted = false
  results
    : ∀ key ∈ before,
        hitsOf inputs query matcher key ≠ []
        → scan.potential + (before.map (potentialOf inputs query matcher)).sum
          ≤ query.budget.maxResults

/-- The loop gets to a blob that cannot be read, past blobs that can. -/
def Exposed (scan : Scan) (keys : List BlobKey) : Prop :=
  ∃ before key after,
    keys = before ++ key :: after
    ∧ (∀ other ∈ before, (contentOf inputs other).isSome = true)
    ∧ contentOf inputs key = none
    ∧ Reached inputs query matcher scan before

/-- The blobs that the loop asks for. -/
def tried (scan : Scan) (keys : List BlobKey) : List BlobKey :=
  keys.take ((readAll inputs query matcher scan keys).considered - scan.considered)

variable {inputs query matcher} {scan : Scan} {key : BlobKey} {keys before : List BlobKey}

theorem unspent_of_spendAll {display : DisplayBudget} {kept : List Nat}
    (left : (display.spendAll kept).exhausted = false) : display.exhausted = false := by
  cases spent : display.exhausted with
  | false => rfl
  | true =>
      rw [Bool.eq_false_iff] at left
      exact absurd (DisplayBudget.spendAll_exhausted display kept |>.mpr (.inl spent)) left

/-- No budget stops the loop exactly where it gets past no blob to one more. -/
theorem reached_nil
    : Reached inputs query matcher scan []
      ↔ stopReason inputs query { scan with examined := key :: scan.examined } = none := by
  constructor
  · intro reached
    have time := reached.time 0 (Nat.le_refl _)
    have bytes := reached.bytes
    have count := reached.count
    have display := reached.display
    simp only [List.map_nil, List.sum_nil, Nat.add_zero, List.length_nil, List.flatMap_nil,
      DisplayBudget.spendAll, List.foldl_nil] at time bytes count display
    simp only [stopReason, display, Bool.false_eq_true, if_false]
    rw [if_neg (Nat.not_lt.mpr time), if_neg (Nat.not_lt.mpr bytes), if_neg (Nat.not_le.mpr count)]
  · intro running
    simp only [stopReason] at running
    split_ifs at running with spent late heavy many
    refine ⟨?_, ?_, ?_, ?_, ?_⟩
    · intro i small
      rw [Nat.le_zero.mp small]
      exact Nat.not_lt.mp late
    · exact Nat.not_lt.mp heavy
    · exact Nat.lt_of_not_le many
    · exact Bool.not_eq_true _ |>.mp spent
    · exact fun _ member => absurd member List.not_mem_nil

theorem Reached.start (reached : Reached inputs query matcher scan before)
    : Reached inputs query matcher scan [] := by
  refine ⟨?_, ?_, ?_, unspent_of_spendAll reached.display, fun _ member => nomatch member⟩
  · intro i small
    exact reached.time i (Nat.le_trans small (Nat.zero_le _))
  · exact Nat.le_trans (Nat.add_le_add_left (Nat.zero_le _) _) reached.bytes
  · exact Nat.lt_of_le_of_lt (Nat.add_le_add_left (Nat.zero_le _) _) reached.count

/-- The loop gets past a blob that can be read and others where the blob fits, and from there it
gets past the others.
-/
theorem reached_cons (readable : (contentOf inputs key).isSome = true)
    : Reached inputs query matcher scan (key :: before)
      ↔ Fits inputs query matcher scan [key]
        ∧ Reached inputs query matcher (paid inputs query matcher scan key) before := by
  have unfailing : ∀ record ∈ inputs.records key,
      ∀ e, inputs.read record.oid = .error e → e.code = .notFound := by
    intro record stored e failed
    rw [Option.mem_def] at stored
    simp [contentOf, stored, failed, Except.toOption] at readable
  constructor
  · intro reached
    have bytes := reached.bytes
    have count := reached.count
    have display := reached.display
    rw [List.flatMap_cons, DisplayBudget.spendAll_append] at display
    rw [List.map_cons, List.sum_cons] at bytes
    rw [List.length_cons] at count
    refine ⟨⟨?_, ?_, ?_, ?_, ?_, ?_⟩, ⟨?_, ?_, ?_, display, ?_⟩⟩
    · intro other member
      rw [List.mem_singleton.mp member]
      exact unfailing
    · intro i small
      exact reached.time i (by simp only [List.length_cons, List.length_nil] at small; omega)
    · intro _
      simp only [List.dropLast_singleton, List.map_nil, List.sum_nil]
      omega
    · intro _
      simp only [List.length_cons, List.length_nil]
      omega
    · rw [List.flatMap_cons, List.flatMap_nil, List.append_nil]
      exact unspent_of_spendAll display
    · intro other member some_
      rw [List.mem_singleton.mp member] at some_
      have room := reached.results key List.mem_cons_self some_
      simp only [List.map_cons, List.sum_cons, List.map_nil, List.sum_nil] at room ⊢
      omega
    · intro i small
      have := reached.time (i + 1) (Nat.succ_le_succ small)
      simp only [paid]
      rwa [Nat.add_assoc, Nat.add_comm 1 i]
    · simp only [paid]
      omega
    · simp only [paid]
      omega
    · intro other member some_
      have room := reached.results other (List.mem_cons_of_mem _ member) some_
      rw [List.map_cons, List.sum_cons] at room
      simp only [paid]
      omega
  · rintro ⟨fits, reached⟩
    have bytes := reached.bytes
    have count := reached.count
    have display := reached.display
    simp only [paid] at bytes count display
    refine ⟨?_, ?_, ?_, ?_, ?_⟩
    · intro i small
      cases i with
      | zero => exact fits.time 0 Nat.zero_lt_one
      | succ i =>
          have := reached.time i (Nat.le_of_succ_le_succ small)
          simp only [paid] at this
          rwa [Nat.add_assoc, Nat.add_comm 1 i] at this
    · rw [List.map_cons, List.sum_cons]
      omega
    · rw [List.length_cons]
      omega
    · rw [List.flatMap_cons, DisplayBudget.spendAll_append]
      exact display
    · intro other member some_
      rw [List.map_cons, List.sum_cons]
      by_cases others : ∃ later ∈ before, hitsOf inputs query matcher later ≠ []
      · obtain ⟨later, inside, found⟩ := others
        have room := reached.results later inside found
        simp only [paid] at room
        omega
      · push Not at others
        have nothing : (before.map (potentialOf inputs query matcher)).sum = 0 := by
          refine List.sum_eq_zero fun n member => ?_
          obtain ⟨later, inside, rfl⟩ := List.mem_map.mp member
          rw [potentialOf, others later inside, List.length_nil, Nat.zero_mul]
        have here : other = key := by
          cases List.mem_cons.mp member with
          | inl same => exact same
          | inr inside => exact absurd (others other inside) some_
        have room := fits.results key List.mem_cons_self (here ▸ some_)
        simp only [List.map_cons, List.sum_cons, List.map_nil, List.sum_nil] at room
        omega

theorem readBlob_of_stop (matcher : Matcher) {reason : TruncationReason}
    (stop : stopReason inputs query { scan with examined := key :: scan.examined } = some reason)
    : (readBlob inputs query matcher scan key).1 = false
      ∧ (readBlob inputs query matcher scan key).2.considered = scan.considered
      ∧ (readBlob inputs query matcher scan key).2.coverage = scan.coverage := by
  simp only [readBlob, stop]
  exact ⟨trivial, trivial, trivial⟩

theorem readBlob_considered (matcher : Matcher)
    (running : stopReason inputs query { scan with examined := key :: scan.examined } = none)
    : (readBlob inputs query matcher scan key).2.considered = scan.considered + 1 := by
  simp only [readBlob, running]
  repeat' split
  all_goals rfl

theorem readBlob_coverage (query : Query) (matcher : Matcher) (scan : Scan)
    (readable : (contentOf inputs key).isSome = true)
    : (readBlob inputs query matcher scan key).2.coverage = scan.coverage := by
  simp only [readBlob]
  split
  · rfl
  · split
    · rfl
    · rename_i record stored
      split
      · rename_i e failed
        simp [contentOf, stored, failed, Except.toOption] at readable
      · repeat' split
        all_goals rfl

theorem readBlob_eligiblePaths (inputs : SearchInputs) (query : Query) (matcher : Matcher)
    (scan : Scan) (key : BlobKey)
    : (readBlob inputs query matcher scan key).2.coverage.eligiblePaths
      = scan.coverage.eligiblePaths := by
  simp only [readBlob]
  repeat' split
  all_goals rfl

theorem considered_le (inputs : SearchInputs) (query : Query) (matcher : Matcher) (scan : Scan)
    (keys : List BlobKey)
    : scan.considered ≤ (readAll inputs query matcher scan keys).considered := by
  induction keys generalizing scan with
  | nil => exact Nat.le_refl _
  | cons key rest ih =>
      have step : scan.considered ≤ (readBlob inputs query matcher scan key).2.considered := by
        cases stop : stopReason inputs query { scan with examined := key :: scan.examined } with
        | some reason => exact (readBlob_of_stop matcher stop).2.1.ge
        | none =>
            rw [readBlob_considered matcher stop]
            exact Nat.le_succ _
      rw [readAll]
      cases ran : readBlob inputs query matcher scan key with
      | mk goes next =>
          rw [ran] at step
          cases goes with
          | false => exact step
          | true => exact step.trans (ih next)

theorem readAll_eligiblePaths (scan : Scan) (keys : List BlobKey)
    : (readAll inputs query matcher scan keys).coverage.eligiblePaths
      = scan.coverage.eligiblePaths := by
  induction keys generalizing scan with
  | nil => rfl
  | cons key rest ih =>
      have step := readBlob_eligiblePaths inputs query matcher scan key
      rw [readAll]
      cases ran : readBlob inputs query matcher scan key with
      | mk goes next =>
          rw [ran] at step
          cases goes with
          | false => exact step
          | true => exact (ih next).trans step

theorem tried_of_stop {reason : TruncationReason}
    (stop : stopReason inputs query { scan with examined := key :: scan.examined } = some reason)
    : tried inputs query matcher scan (key :: keys) = [] := by
  obtain ⟨last, same, -⟩ := readBlob_of_stop matcher stop
  rw [tried, readAll]
  cases ran : readBlob inputs query matcher scan key with
  | mk goes next =>
      rw [ran] at last same
      cases last
      simp only at same ⊢
      rw [same, Nat.sub_self, List.take_zero]

theorem tried_of_last {next : Scan}
    (running : stopReason inputs query { scan with examined := key :: scan.examined } = none)
    (ran : readBlob inputs query matcher scan key = (false, next))
    : tried inputs query matcher scan (key :: keys) = [key] := by
  have one := readBlob_considered matcher running
  rw [tried, readAll, ran]
  rw [ran] at one
  simp only at one ⊢
  rw [one, Nat.add_sub_cancel_left, List.take_succ_cons, List.take_zero]

theorem tried_of_goes {next : Scan}
    (running : stopReason inputs query { scan with examined := key :: scan.examined } = none)
    (ran : readBlob inputs query matcher scan key = (true, next))
    : tried inputs query matcher scan (key :: keys)
      = key :: tried inputs query matcher next keys := by
  have one := readBlob_considered matcher running
  have more := considered_le inputs query matcher next keys
  rw [tried, readAll, ran, tried]
  rw [ran] at one
  simp only at one ⊢
  rw [show (readAll inputs query matcher next keys).considered - scan.considered
      = (readAll inputs query matcher next keys).considered - next.considered + 1 by omega,
    List.take_succ_cons]

/-- Where all blobs that are asked for can be read, the coverage stays what it was. -/
theorem readAll_coverage
    (readable
      : ∀ other ∈ tried inputs query matcher scan keys, (contentOf inputs other).isSome = true)
    : (readAll inputs query matcher scan keys).coverage = scan.coverage := by
  induction keys generalizing scan with
  | nil => rfl
  | cons key rest ih =>
      cases ran : readBlob inputs query matcher scan key with
      | mk goes next =>
          rw [readAll, ran]
          cases stop : stopReason inputs query { scan with examined := key :: scan.examined } with
          | some reason =>
              obtain ⟨last, -, same⟩ := readBlob_of_stop matcher stop
              rw [ran] at last same
              cases last
              exact same
          | none =>
              cases goes with
              | false =>
                  rw [tried_of_last stop ran, List.forall_mem_singleton] at readable
                  have same := readBlob_coverage query matcher scan readable
                  rwa [ran] at same
              | true =>
                  rw [tried_of_goes stop ran, List.forall_mem_cons] at readable
                  have same := readBlob_coverage query matcher scan readable.1
                  rw [ran] at same
                  exact (ih readable.2).trans same

/-- Past a blob that can be read, the loop gets to one that cannot exactly where the first fits and
it does so from what the first leaves.
-/
theorem exposed_cons (readable : (contentOf inputs key).isSome = true)
    : Exposed inputs query matcher scan (key :: keys)
      ↔ Fits inputs query matcher scan [key]
        ∧ Exposed inputs query matcher (paid inputs query matcher scan key) keys := by
  constructor
  · rintro ⟨before, failing, after, same, fine, missing, reached⟩
    cases before with
    | nil =>
        cases same
        rw [missing] at readable
        cases readable
    | cons first before =>
        cases same
        obtain ⟨fits, later⟩ := (reached_cons readable).mp reached
        exact ⟨fits, before, failing, after, rfl,
          fun other member => fine other (List.mem_cons_of_mem _ member), missing, later⟩
  · rintro ⟨fits, before, failing, after, rfl, fine, missing, reached⟩
    exact ⟨key :: before, failing, after, rfl, List.forall_mem_cons.mpr ⟨readable, fine⟩,
      missing, (reached_cons readable).mpr ⟨fits, reached⟩⟩

/-- The loop asks for a blob that cannot be read exactly where it gets to one. -/
theorem exposed_iff (perLine : scan.display.perLine = query.budget.maxLineBytes)
    (carried : ∀ key ∈ keys, 0 < pathsOf inputs query key)
    : Exposed inputs query matcher scan keys
      ↔ ∃ key ∈ tried inputs query matcher scan keys, contentOf inputs key = none := by
  induction keys generalizing scan with
  | nil =>
      constructor
      · rintro ⟨before, key, after, same, -⟩
        exact absurd same (by simp)
      · rintro ⟨key, member, -⟩
        simp [tried] at member
  | cons key rest ih =>
      have here := carried key List.mem_cons_self
      cases stop : stopReason inputs query { scan with examined := key :: scan.examined } with
      | some reason =>
          rw [tried_of_stop stop]
          constructor
          · rintro ⟨before, failing, after, -, -, -, reached⟩
            have running
                : stopReason inputs query { scan with examined := key :: scan.examined } = none :=
              reached_nil.mp reached.start
            rw [stop] at running
            cases running
          · rintro ⟨other, member, -⟩
            cases member
      | none =>
          cases known : contentOf inputs key with
          | none =>
              have asked : key ∈ tried inputs query matcher scan (key :: rest) := by
                cases ran : readBlob inputs query matcher scan key with
                | mk goes next =>
                    cases goes with
                    | false =>
                        rw [tried_of_last stop ran]
                        exact List.mem_cons_self
                    | true =>
                        rw [tried_of_goes stop ran]
                        exact List.mem_cons_self
              exact iff_of_true
                ⟨[], key, rest, rfl, fun _ member => (nomatch member), known, reached_nil.mpr stop⟩
                ⟨key, asked, known⟩
          | some content =>
              have readable : (contentOf inputs key).isSome = true := by rw [known]; rfl
              rw [exposed_cons readable]
              cases ran : readBlob inputs query matcher scan key with
              | mk goes next =>
                  cases goes with
                  | false =>
                      rw [tried_of_last stop ran]
                      constructor
                      · rintro ⟨fits, -⟩
                        have start : Reached inputs query matcher scan [] := reached_nil.mpr stop
                        rw [readBlob_of_fits perLine here start.display fits] at ran
                        cases ran
                      · rintro ⟨other, member, missing⟩
                        rw [List.mem_singleton.mp member, known] at missing
                        cases missing
                  | true =>
                      rw [tried_of_goes stop ran]
                      have line := readBlob_perLine inputs matcher key perLine
                      rw [ran] at line
                      have next_iff := ih line (List.forall_mem_cons.mp carried).2
                      simp only [List.exists_mem_cons_iff, known, reduceCtorEq, false_or,
                        ← next_iff]
                      constructor
                      · rintro ⟨fits, exposed⟩
                        have start : Reached inputs query matcher scan [] := reached_nil.mpr stop
                        rw [readBlob_of_fits perLine here start.display fits] at ran
                        cases ran
                        exact exposed
                      · intro exposed
                        obtain ⟨before, failing, after, same, fine, missing, reached⟩ := exposed
                        have unspent := unspent_of_spendAll reached.display
                        have fits :=
                          fits_of_goes perLine here (by rw [ran]) (by rw [ran]; exact unspent)
                        have start : Reached inputs query matcher scan [] := reached_nil.mpr stop
                        rw [readBlob_of_fits perLine here start.display fits] at ran
                        cases ran
                        exact ⟨fits, before, failing, after, same, fine, missing, reached⟩

-- Partition

/-- The search asked for a path's blob and could not read it. -/
def Unread (inputs : SearchInputs) (query : Query) (literals : Option (List Bytes))
    (completion : Completion) (entry : PathEntry)
    : Prop :=
  entry.key ∈ (keysOf inputs query literals).take completion.candidatesConsidered
  ∧ contentOf inputs entry.key = none

/-- Every path of the question is counted once: as searched, where it is in the corpus and its blob
was not found unreadable, and else under a reason.
-/
def Partitions (inputs : SearchInputs) (query : Query) (literals : Option (List Bytes))
    (completion : Completion)
    : Prop :=
  ∃ verdict : PathEntry → Option ExclusionReason,
    (∀ entry ∈ inputs.asked query,
        verdict entry = none
        ↔ inputs.exclusion entry = none ∧ ¬Unread inputs query literals completion entry)
    ∧ Tallied (inputs.asked query) verdict completion.coverage

variable {literals : Option (List Bytes)} {completion : Completion}

theorem partitions_of_readable
    (coverage : completion.coverage = classified inputs query)
    (readable : ∀ entry, ¬Unread inputs query literals completion entry)
    : Partitions inputs query literals completion := by
  refine ⟨inputs.exclusion, fun entry _ => (and_iff_left (readable entry)).symm, ?_⟩
  rw [coverage]
  exact classified_tallied inputs query

/-- A path whose blob is found unreadable stays counted as searched. -/
theorem not_partitions_of_unread {entry : PathEntry}
    (eligible : completion.coverage.eligiblePaths = (inputs.eligible query).length)
    (searched : entry ∈ inputs.eligible query)
    (unread : Unread inputs query literals completion entry)
    : ¬Partitions inputs query literals completion := by
  rintro ⟨verdict, verdicts, tallied⟩
  obtain ⟨asked, exempt⟩ := List.mem_filter.mp searched
  have fewer
      : (inputs.asked query).countP (fun entry => verdict entry = none)
        < (inputs.asked query).countP (fun entry => inputs.exclusion entry = none) := by
    have within : ∀ other ∈ inputs.asked query, decide (verdict other = none) = true
        → decide (inputs.exclusion other = none) = true :=
      fun other member counted =>
        decide_eq_true ((verdicts other member).mp (of_decide_eq_true counted)).1
    have apart : verdict entry ≠ none := fun counted => ((verdicts entry asked).mp counted).2 unread
    obtain ⟨front, back, same⟩ := List.append_of_mem asked
    rw [same, List.forall_mem_append, List.forall_mem_cons] at within
    have first := List.countP_mono_left within.1
    have last := List.countP_mono_left within.2.2
    simp only [same, List.countP_append, List.countP_cons, exempt, apart, decide_false,
      Bool.false_eq_true, if_true, if_false]
    omega
  have counted := tallied.eligible
  rw [eligible, SearchInputs.eligible, ← List.countP_eq_length_filter] at counted
  omega

/-- The paths of the question are partitioned exactly where the loop gets to no blob that cannot be
read.
-/
theorem search_partitions (inputs : SearchInputs) (query : Query) {engine : Engine}
    (compiled : buildMatcher engine query = .ok matcher)
    (required
      : requiredLiterals engine.parse query.pattern query.literal query.caseInsensitive
        = literals)
    : ∃ result,
        search inputs query engine = .ok result
        ∧ (Partitions inputs query literals result.completion
          ↔ ¬Exposed inputs query matcher (initial inputs query literals)
              (keysOf inputs query literals)) := by
  refine ⟨_, by simp only [search, compiled, required]; rfl, ?_⟩
  have asked
      : (keysOf inputs query literals).take (scanned inputs query matcher literals).considered
        = tried inputs query matcher (initial inputs query literals)
            (keysOf inputs query literals) := by
    rw [scanned_eq]
    rfl
  rw [exposed_iff rfl (fun _ => pathsOf_pos), ← asked]
  constructor
  · rintro partitions ⟨key, member, missing⟩
    obtain ⟨entry, searched, same⟩ := (mem_keysOf.mp (List.mem_of_mem_take member)).1
    subst same
    refine not_partitions_of_unread ?_ searched ⟨member, missing⟩ partitions
    simp only [scanned_eq]
    exact (readAll_eligiblePaths _ _).trans
      (classified_tallied inputs query).eligible |>.trans (List.countP_eq_length_filter ..)
  · intro fine
    refine partitions_of_readable ?_ fun entry unread => fine ⟨entry.key, unread⟩
    simp only [scanned_eq]
    refine readAll_coverage fun other member => ?_
    rw [← asked] at member
    rw [Option.isSome_iff_ne_none]
    exact fun missing => fine ⟨other, member, missing⟩

end Coverage

/-- What a search counts partitions the paths of its question, with every path whose blob it could
not read counted as excluded, exactly where the candidate loop gets to no blob that cannot be read
before a budget stops it.
-/
theorem coverage_partitions_iff (inputs : SearchInputs) (query : Query) (engine : Engine)
    (matcher : Matcher) (compiled : buildMatcher engine query = .ok matcher)
    : let literals :=
        requiredLiterals engine.parse query.pattern query.literal query.caseInsensitive
      ∃ result,
        search inputs query engine = .ok result
        ∧ (Partitions inputs query literals result.completion
          ↔ ¬Exposed inputs query matcher (initial inputs query literals)
              (keysOf inputs query literals)) :=
  search_partitions inputs query compiled rfl

-- A vanished blob

section Vanished

/-- Two files, the blob of one of which is gone. -/
def vanishedInputs : SearchInputs where
  manifest := ⟨numbered 0, [⟨[97], 1⟩, ⟨[98], 2⟩], by decide⟩
  postings := .of [[(1, twice 1), (2, twice 2)]]
  policy := { CorpusPolicy.default with generated := [], vendored := [] }
  indexGeneration := 1
  records := fun key =>
    if key ∈ [1, 2] then some ⟨numbered (UInt8.ofNat key), some .text, true⟩ else none
  read := fun oid =>
    if oid = numbered 1 then .error ⟨.notFound, "the object is gone".toList⟩
    else .ok (twice (oid.raw.headD 0))
  elapsed := fun _ => 0

def wordQuery : Query :=
  { pageQuery with budget := .default }

/-- Witness: three files that can all be read. -/
theorem three_files_partitioned
    : let literals :=
        requiredLiterals Engine.plain.parse wordQuery.pattern wordQuery.literal
          wordQuery.caseInsensitive
      ∃ matcher,
        buildMatcher .plain wordQuery = .ok matcher
        ∧ ∃ result,
            search threeInputs wordQuery .plain = .ok result
            ∧ (Partitions threeInputs wordQuery literals result.completion
              ↔ ¬Exposed threeInputs wordQuery matcher (initial threeInputs wordQuery literals)
                  (keysOf threeInputs wordQuery literals)) :=
  ⟨_, rfl, coverage_partitions_iff threeInputs wordQuery .plain _ rfl⟩

/-- With one of two blobs gone, both paths stay counted as searched and the index gap of one of
them is counted besides.
-/
theorem vanished_blob_counted_twice
    : ¬∀ (inputs : SearchInputs) (query : Query) (engine : Engine) (result : SearchResult),
        search inputs query engine = .ok result
        → Partitions inputs query
            (requiredLiterals engine.parse query.pattern query.literal query.caseInsensitive)
            result.completion := by
  intro claim
  obtain ⟨result, ran, partitions_iff⟩ :=
    search_partitions vanishedInputs wordQuery (rfl : buildMatcher .plain wordQuery = .ok _) rfl
  refine partitions_iff.mp (claim _ _ _ result ran) ?_
  have read
      : keysOf vanishedInputs wordQuery
          (requiredLiterals Engine.plain.parse wordQuery.pattern wordQuery.literal
            wordQuery.caseInsensitive)
        = [1, 2] := by
    decide
  rw [read]
  refine ⟨[], 1, [2], rfl, fun _ member => (nomatch member), by decide, ?_⟩
  refine ⟨?_, ?_, ?_, rfl, fun _ member => nomatch member⟩
  · exact fun i _ => Nat.zero_le _
  · exact Nat.zero_le _
  · decide

end Vanished

end Gfs.Search.Index
