import Gfs.Lib.Runs
import Gfs.Search.Encoding
import Gfs.Types.Path
import Gfs.Types.Revision

/-! The snapshot preparation lifecycle (`gfs-search/src/snapshots.rs`): claims, progress,
outcomes and collection, each one transaction over the `snapshots` table of one repository.
Builders call at any time and in any order; `now` is the clock's reading of a call. The
database's reads and writes succeed.
-/

namespace Gfs.Search

open Gfs.Types
open Gfs.Lib
open Std (ExtTreeMap)

-- The table

inductive SnapshotState where
  | ready
  | building
  | failed
  deriving DecidableEq, Repr

structure Progress where
  pathsWalked : Nat
  blobsClassified : Nat
  deriving DecidableEq, Repr

/-- One row of `snapshots`, under the qualified id of its commit. -/
structure SnapshotRecord where
  state : SnapshotState
  indexGeneration : Nat
  pathCount : Nat
  manifest : Option Bytes
  checksum : Option Text
  updatedAt : Int
  /-- `none` for a snapshot retained by policy. -/
  expiresAt : Option Int
  failureReason : Option Text
  /-- Present while building. -/
  operationId : Option Text
  attempts : Nat
  progress : Progress
  deriving DecidableEq, Repr

/-- The outcome of asking to build a snapshot. -/
inductive Claim where
  /-- Already prepared. -/
  | ready (record : SnapshotRecord)
  /-- Someone else owns the build. -/
  | building (operationId : Text)
  /-- The caller owns the build. -/
  | claimed (operationId : Text)
  /-- Repeatedly failed; not retried again until the record is cleared. -/
  | failed (reason : Text) (attempts : Nat)
  deriving DecidableEq, Repr

/-- Preparation policy. -/
structure PreparePolicy where
  ttlSeconds : Int
  staleAfterSeconds : Int
  maxAttempts : Nat
  deriving DecidableEq, Repr

def PreparePolicy.default : PreparePolicy where
  ttlSeconds := 3600
  staleAfterSeconds := 600
  maxAttempts := 3

/-- What publishing writes of a finished manifest. -/
structure Finished where
  commit : Text
  encoded : Bytes
  checksum : Text
  pathCount : Nat
  deriving DecidableEq, Repr

/-- What is written of a manifest: its encoding, and what stands beside it in the row. -/
def Finished.of (digests : Digests) (manifest : Manifests.Manifest) : Finished where
  commit := manifest.commit.toQualified
  encoded := manifest.encode digests
  checksum := Manifests.checksum (manifest.encode digests)
  pathCount := manifest.paths.length

structure GcReport where
  expired : Nat
  retained : Nat
  bytesReclaimed : Nat
  deriving DecidableEq, Repr

/-- The snapshots of one repository. -/
abbrev Snapshots := ExtTreeMap Text SnapshotRecord compare

namespace Snapshots

-- Transactions

/-- The row a builder's claim writes: a new one, or what the upsert leaves of the old. -/
def claimedRow (existing : Option SnapshotRecord) (now : Int) (operationId : Text)
    (attempts : Nat)
    : SnapshotRecord :=
  match existing with
  | none =>
      {
        state := .building
        indexGeneration := 0
        pathCount := 0
        manifest := none
        checksum := none
        updatedAt := now
        expiresAt := none
        failureReason := none
        operationId := some operationId
        attempts
        progress := ⟨0, 0⟩
      }
  | some record =>
      {
        record with
        state := .building
        updatedAt := now
        failureReason := none
        operationId := some operationId
        attempts
        progress := ⟨0, 0⟩
      }

/-- Ask to build. -/
def claim (snapshots : Snapshots) (policy : PreparePolicy) (now : Int) (commit : Text)
    (operationId : Text)
    : Claim × Snapshots :=
  let start (attempts : Nat) : Claim × Snapshots :=
    (.claimed operationId,
      snapshots.insert commit (claimedRow snapshots[commit]? now operationId attempts))
  match snapshots[commit]? with
  | none => start 0
  | some record =>
      match record.state with
      | .ready =>
          -- Touch the expiry: a snapshot still being asked for is still in use.
          (.ready record,
            if record.expiresAt.isSome then
              snapshots.insert commit { record with expiresAt := some (now + policy.ttlSeconds) }
            else snapshots)
      | .building =>
          if now - record.updatedAt < policy.staleAfterSeconds then
            (.building (record.operationId.getD []), snapshots)
          -- Reclaimed: the previous owner is presumed dead.
          else start record.attempts
      | .failed =>
          if record.attempts ≥ policy.maxAttempts then
            (.failed (record.failureReason.getD "snapshot preparation failed".toList)
                record.attempts,
              snapshots)
          else start record.attempts

/-- An `UPDATE` of the commit's row, where it meets the condition. -/
def update (snapshots : Snapshots) (commit : Text) (condition : SnapshotRecord → Bool)
    (write : SnapshotRecord → SnapshotRecord)
    : Snapshots :=
  match snapshots[commit]? with
  | none => snapshots
  | some record =>
      if condition record then snapshots.insert commit (write record) else snapshots

/-- Record progress and refresh the claim's timestamp. -/
def recordProgress (snapshots : Snapshots) (now : Int) (commit : Text) (progress : Progress)
    : Snapshots :=
  snapshots.update commit (·.state = .building)
    (fun record => { record with progress, updatedAt := now })

/-- Publish a finished manifest. -/
def complete (snapshots : Snapshots) (policy : PreparePolicy) (now : Int)
    (manifest : Finished) (indexGeneration : Nat) (retained : Bool)
    : Snapshots :=
  snapshots.insert manifest.commit
    {
      state := .ready
      indexGeneration
      pathCount := manifest.pathCount
      manifest := some manifest.encoded
      checksum := some manifest.checksum
      updatedAt := now
      expiresAt := if retained then none else some (now + policy.ttlSeconds)
      failureReason := none
      operationId := none
      attempts := 0
      -- The upsert leaves the progress of a row that is there.
      progress := (snapshots[manifest.commit]?.map (·.progress)).getD ⟨manifest.pathCount, 0⟩
    }

/-- The decoded manifest, if the snapshot is ready. -/
def manifest (digests : Digests) (snapshots : Snapshots) (commit : ObjectId)
    : Except GfsError (Option Manifests.Table) :=
  match (snapshots[commit.toQualified]?.filter (·.state = .ready)).bind (·.manifest) with
  | some bytes => (Manifests.decode digests bytes).map some
  | none => .ok none

/-- Record a failure, incrementing the attempt count. -/
def fail (snapshots : Snapshots) (now : Int) (commit : Text) (reason : Text) : Snapshots :=
  snapshots.update commit (fun _ => true)
    (fun record =>
      {
        record with
        state := .failed
        failureReason := some reason
        operationId := none
        attempts := record.attempts + 1
        updatedAt := now
      })

/-- Abandon a claim without recording a failure. -/
def abandon (snapshots : Snapshots) (commit : Text) : Snapshots :=
  match snapshots[commit]? with
  | some record => if record.state = .building then snapshots.erase commit else snapshots
  | none => snapshots

/-- Whether collection drops a row: not pinned, and past its expiry. -/
def doomed (pinned : List Text) (now : Int) (commit : Text) (record : SnapshotRecord) : Bool :=
  !pinned.contains commit && record.expiresAt.any (· ≤ now)

/-- Drop snapshots nobody is retaining. -/
def gc (snapshots : Snapshots) (now : Int) (pinned : List Text) : GcReport × Snapshots :=
  let dropped := snapshots.toList.filter (fun row => doomed pinned now row.1 row.2)
  ({
      expired := dropped.length
      retained := snapshots.size - dropped.length
      bytesReclaimed := (dropped.map (fun row => (row.2.manifest.getD []).length)).sum
    },
    snapshots.filter (fun commit record => !doomed pinned now commit record))

end Snapshots

-- Builders

/-- A call on the store. `operationId` is the builder that makes it, whether or not the store
is told.
-/
inductive Call where
  | claim (commit operationId : Text)
  | recordProgress (commit operationId : Text) (progress : Progress)
  | complete (operationId : Text) (manifest : Finished) (indexGeneration : Nat)
      (retained : Bool)
  | fail (commit operationId reason : Text)
  | abandon (commit operationId : Text)
  | gc (pinned : List Text)
  deriving DecidableEq, Repr

/-- The table after a call made at a time. -/
def Snapshots.after (policy : PreparePolicy) (snapshots : Snapshots) (now : Int)
    : Call → Snapshots
  | .claim commit operationId => (snapshots.claim policy now commit operationId).2
  | .recordProgress commit _ progress => snapshots.recordProgress now commit progress
  | .complete _ manifest indexGeneration retained =>
      snapshots.complete policy now manifest indexGeneration retained
  | .fail commit _ reason => snapshots.fail now commit reason
  | .abandon commit _ => snapshots.abandon commit
  | .gc pinned => (snapshots.gc now pinned).2

/-- The commit a call starts a build of: a claim answered with `Claimed`. -/
def Call.starts (policy : PreparePolicy) (snapshots : Snapshots) (now : Int)
    : Call → Option Text
  | .claim commit operationId =>
      match (snapshots.claim policy now commit operationId).1 with
      | .claimed _ => some commit
      | _ => none
  | _ => none

/-- The commit has a ready snapshot. -/
def Snapshots.Ready (snapshots : Snapshots) (commit : Text) : Prop :=
  ∃ record, snapshots[commit]? = some record ∧ record.state = .ready

/-- The operation recorded as the owner of the commit's build. -/
def Snapshots.owner (snapshots : Snapshots) (commit : Text) : Option Text :=
  snapshots[commit]?.bind SnapshotRecord.operationId

/-- The store while it is watched: the table, and for each commit how many builds were
started since it was last ready.
-/
structure Watched where
  snapshots : Snapshots
  started : Text → Nat

/-- A store with no snapshots. -/
def Watched.fresh : Watched := ⟨∅, fun _ => 0⟩

/-- One call, counted. -/
def Watched.step (policy : PreparePolicy) (watched : Watched) (call : Int × Call) : Watched :=
  let snapshots := watched.snapshots.after policy call.1 call.2
  {
    snapshots
    started := fun commit =>
      if snapshots[commit]?.any (·.state = .ready) then 0
      else if call.2.starts policy watched.snapshots call.1 = some commit then
        watched.started commit + 1
      else watched.started commit
  }

-- What a superseded builder may not do

/-- A ready snapshot leaves that state only when collection drops its expired, unpinned row. -/
def KeepsReady (policy : PreparePolicy) (snapshots : Snapshots) (call : Int × Call) : Prop :=
  ∀ (commit : Text) (record : SnapshotRecord),
    snapshots[commit]? = some record
    → record.state = .ready
    → ¬(snapshots.after policy call.1 call.2).Ready commit
    → ∃ pinned expiry,
        call.2 = .gc pinned
        ∧ commit ∉ pinned
        ∧ record.expiresAt = some expiry
        ∧ expiry ≤ call.1

/-- A failure or an abandonment by an operation that is not the recorded one changes nothing. -/
def IgnoresOthers (policy : PreparePolicy) (snapshots : Snapshots) (call : Int × Call) : Prop :=
  ∀ commit operationId,
    snapshots.owner commit ≠ some operationId
    → (∃ reason, call.2 = .fail commit operationId reason)
        ∨ call.2 = .abandon commit operationId
    → snapshots.after policy call.1 call.2 = snapshots

/-- Another operation's progress leaves a build's claim as it was, and an operation is on
record only while it builds.
-/
def OneOwner (policy : PreparePolicy) (snapshots : Snapshots) (call : Int × Call) : Prop :=
  (∀ commit operationId progress,
    call.2 = .recordProgress commit operationId progress
    → snapshots.owner commit ≠ some operationId
    → snapshots.after policy call.1 call.2 = snapshots)
  ∧ ∀ (commit : Text) (record : SnapshotRecord),
      (snapshots.after policy call.1 call.2)[commit]? = some record
      → record.operationId.isSome
      → record.state = .building

/-- No commit has more builds started since it was last ready than the policy allows. -/
def Bounded (policy : PreparePolicy) (watched : Watched) : Prop :=
  ∀ commit, watched.started commit ≤ policy.maxAttempts

/-- A superseded builder can do nothing along the run. -/
structure Undisturbed (policy : PreparePolicy) (calls : List (Int × Call)) : Prop where
  ready
    : Runs.Along (Watched.step policy) (fun watched => KeepsReady policy watched.snapshots)
        .fresh calls
  others
    : Runs.Along (Watched.step policy) (fun watched => IgnoresOthers policy watched.snapshots)
        .fresh calls
  owner
    : Runs.Along (Watched.step policy) (fun watched => OneOwner policy watched.snapshots)
        .fresh calls
  bounded : ∀ watched ∈ Runs.states (Watched.step policy) .fresh calls, Bounded policy watched

/-- The call is made in time: progress, a failure and an abandonment by the operation on
record, where the store would act on them at all; no claim reclaims a stale build, and no
build is given up.
-/
def Timely (policy : PreparePolicy) (snapshots : Snapshots) (now : Int) : Call → Prop
  | .claim commit _ =>
      ∀ record ∈ snapshots[commit]?,
        record.state = .building → now - record.updatedAt < policy.staleAfterSeconds
  | .recordProgress commit operationId _ =>
      ∀ record ∈ snapshots[commit]?,
        record.state = .building → record.operationId = some operationId
  | .complete .. => True
  | .fail commit operationId _ =>
      ∀ record ∈ snapshots[commit]?, record.operationId = some operationId
  | .abandon commit _ => ∀ record ∈ snapshots[commit]?, record.state ≠ .building
  | .gc _ => True

-- Rows

namespace Snapshots

variable {policy : PreparePolicy} {snapshots : Snapshots} {now : Int} {commit other : Text}

private theorem insert_self (record : SnapshotRecord)
    : (snapshots.insert commit record)[commit]? = some record :=
  ExtTreeMap.getElem?_insert_self

private theorem insert_other (record : SnapshotRecord) (apart : other ≠ commit)
    : (snapshots.insert commit record)[other]? = snapshots[other]? := by
  have different : compare commit other ≠ .eq := fun equal =>
    apart (Std.LawfulEqOrd.eq_of_compare equal).symm
  rw [ExtTreeMap.getElem?_insert, if_neg different]

theorem update_self (condition : SnapshotRecord → Bool)
    (write : SnapshotRecord → SnapshotRecord)
    : (snapshots.update commit condition write)[commit]?
      = snapshots[commit]?.map (fun record =>
        if condition record then write record else record) := by
  rw [update]
  cases stored : snapshots[commit]? with
  | none => simp [stored]
  | some record =>
      by_cases met : condition record = true
      · simp [met]
      · simp [met, stored]

theorem update_other (condition : SnapshotRecord → Bool)
    (write : SnapshotRecord → SnapshotRecord) (apart : other ≠ commit)
    : (snapshots.update commit condition write)[other]? = snapshots[other]? := by
  rw [update]
  cases snapshots[commit]? with
  | none => rfl
  | some record =>
      simp only
      split
      · exact insert_other _ apart
      · rfl

theorem claim_other (operationId : Text) (apart : other ≠ commit)
    : (snapshots.claim policy now commit operationId).2[other]? = snapshots[other]? := by
  rw [claim]
  cases snapshots[commit]? with
  | none => exact insert_other _ apart
  | some record =>
      simp only
      split
      · split
        · exact insert_other _ apart
        · rfl
      · split
        · rfl
        · exact insert_other _ apart
      · split
        · rfl
        · exact insert_other _ apart

/-- A claim that starts a build is answered with it, and writes the commit's row. -/
def Starts (snapshots : Snapshots) (policy : PreparePolicy) (now : Int) (commit operationId : Text)
    : Prop :=
  (snapshots.claim policy now commit operationId).1 = .claimed operationId
  ∧ (snapshots.claim policy now commit operationId).2[commit]?
    = some
        (claimedRow snapshots[commit]? now operationId
          (snapshots[commit]?.elim 0 SnapshotRecord.attempts))

/-- A claim that starts none leaves the commit's row, but for the expiry of a ready one. -/
def Waits (snapshots : Snapshots) (policy : PreparePolicy) (now : Int) (commit operationId : Text)
    (record : SnapshotRecord)
    : Prop :=
  (∀ operation, (snapshots.claim policy now commit operationId).1 ≠ .claimed operation)
  ∧ ((snapshots.claim policy now commit operationId).2[commit]? = some record
    ∨ (record.state = .ready
      ∧ (snapshots.claim policy now commit operationId).2[commit]?
        = some { record with expiresAt := some (now + policy.ttlSeconds) }))

theorem claim_absent (operationId : Text) (absent : snapshots[commit]? = none)
    : Starts snapshots policy now commit operationId := by
  simp only [Starts, claim, absent]
  exact ⟨trivial, insert_self _⟩

theorem claim_ready {record : SnapshotRecord} (operationId : Text)
    (stored : snapshots[commit]? = some record) (state : record.state = .ready)
    : Waits snapshots policy now commit operationId record := by
  simp only [Waits, claim, stored, state]
  refine ⟨by simp, ?_⟩
  by_cases expires : record.expiresAt.isSome = true
  · refine .inr ⟨trivial, ?_⟩
    rw [if_pos expires]
    exact insert_self _
  · refine .inl ?_
    rw [if_neg expires]
    exact stored

theorem claim_building {record : SnapshotRecord} (operationId : Text)
    (stored : snapshots[commit]? = some record) (state : record.state = .building)
    : if now - record.updatedAt < policy.staleAfterSeconds then
        Waits snapshots policy now commit operationId record
      else Starts snapshots policy now commit operationId := by
  by_cases young : now - record.updatedAt < policy.staleAfterSeconds
  · rw [if_pos young]
    simp only [Waits, claim, stored, state, young, if_true]
    exact ⟨by simp, .inl trivial⟩
  · rw [if_neg young]
    simp only [Starts, claim, stored, state, young, if_false]
    exact ⟨trivial, insert_self _⟩

theorem claim_failed {record : SnapshotRecord} (operationId : Text)
    (stored : snapshots[commit]? = some record) (state : record.state = .failed)
    : if record.attempts < policy.maxAttempts then
        Starts snapshots policy now commit operationId
      else Waits snapshots policy now commit operationId record := by
  by_cases spent : record.attempts ≥ policy.maxAttempts
  · rw [if_neg (not_lt.mpr spent)]
    simp only [Waits, claim, stored, state, spent, if_true]
    exact ⟨by simp, .inl trivial⟩
  · rw [if_pos (not_le.mp spent)]
    simp only [Starts, claim, stored, state, spent, if_false]
    exact ⟨trivial, insert_self _⟩

theorem abandon_idle
    (idle : ∀ record ∈ snapshots[commit]?, record.state ≠ .building)
    : snapshots.abandon commit = snapshots := by
  rw [abandon]
  cases stored : snapshots[commit]? with
  | none => rfl
  | some record => simp only [if_neg (idle record (by rw [stored]; rfl))]

theorem manifest_complete {digests : Digests}
    (sized : ∀ bytes, (digests.sha256 bytes).length = 32) {manifest : Manifests.Manifest}
    (commitSized : manifest.commit.Sized) (fits : ∀ entry ∈ manifest.paths, entry.Fits)
    (counted : manifest.paths.length < 2 ^ 64) (indexGeneration : Nat) (retained : Bool)
    : Snapshots.manifest digests
        (snapshots.complete policy now (.of digests manifest) indexGeneration retained)
        manifest.commit
      = .ok (some manifest.whole) := by
  have read := Manifests.decode_encode sized commitSized fits counted
  rw [Snapshots.manifest, complete, Finished.of, insert_self]
  dsimp only [Option.filter, Option.bind_some]
  rw [if_pos (decide_eq_true rfl)]
  exact congrArg (Except.map some) read

theorem gc_row (pinned : List Text)
    : (snapshots.gc now pinned).2[commit]?
      = snapshots[commit]?.filter (fun record => !doomed pinned now commit record) :=
  ExtTreeMap.getElem?_filter'

end Snapshots

-- The lifecycle

/-- What a commit's row says of the number of builds started since it was last ready: all of
them failed and were counted, but for the one under way.
-/
inductive Settled (policy : PreparePolicy) : Option SnapshotRecord → Nat → Prop where
  | absent : Settled policy none 0
  | ready {record : SnapshotRecord} (state : record.state = .ready)
      (unowned : record.operationId = none)
      : Settled policy (some record) 0
  | building {record : SnapshotRecord} (state : record.state = .building)
      (owned : record.operationId.isSome) (kept : record.expiresAt = none)
      (allowed : record.attempts + 1 ≤ policy.maxAttempts)
      : Settled policy (some record) (record.attempts + 1)
  | failed {record : SnapshotRecord} (state : record.state = .failed)
      (unowned : record.operationId = none) (kept : record.expiresAt = none)
      (allowed : record.attempts ≤ policy.maxAttempts)
      : Settled policy (some record) record.attempts

/-- Every commit's row is settled. -/
def Lifecycle (policy : PreparePolicy) (watched : Watched) : Prop :=
  ∀ commit : Text, Settled policy watched.snapshots[commit]? (watched.started commit)

variable {policy : PreparePolicy} {watched : Watched}

variable {started : Nat}

theorem Settled.bounded {row : Option SnapshotRecord}
    (settled : Settled policy row started)
    : started ≤ policy.maxAttempts := by
  cases settled with
  | absent => exact Nat.zero_le _
  | ready => exact Nat.zero_le _
  | building _ _ _ allowed => exact allowed
  | failed _ _ _ allowed => exact allowed

theorem Settled.recount {row : Option SnapshotRecord}
    (settled : Settled policy row started)
    : Settled policy row (if row.any (·.state = .ready) then 0 else started) := by
  cases settled with
  | absent => exact .absent
  | ready state unowned => simpa [state] using Settled.ready state unowned
  | building state owned kept allowed =>
      simpa [state] using Settled.building state owned kept allowed
  | failed state unowned kept allowed =>
      simpa [state] using Settled.failed state unowned kept allowed

variable {record : SnapshotRecord} {commit operationId : Text}

theorem Settled.ready_unowned (settled : Settled policy (some record) started)
    (state : record.state = .ready)
    : record.operationId = none := by
  cases settled with
  | ready _ unowned => exact unowned
  | building other => rw [state] at other; cases other
  | failed other => rw [state] at other; cases other

theorem Settled.owned_building (settled : Settled policy (some record) started)
    (owned : record.operationId.isSome)
    : record.state = .building := by
  cases settled with
  | ready _ unowned => rw [unowned] at owned; cases owned
  | building state => exact state
  | failed _ unowned => rw [unowned] at owned; cases owned

variable {snapshots : Snapshots}

/-- A build that starts is counted. -/
theorem Settled.start {now : Int}
    (starts : Snapshots.Starts snapshots policy now commit operationId)
    (expiry : ∀ record ∈ snapshots[commit]?, record.expiresAt = none)
    (counted : started = snapshots[commit]?.elim 0 SnapshotRecord.attempts)
    (allowed : started + 1 ≤ policy.maxAttempts)
    : Settled policy (snapshots.claim policy now commit operationId).2[commit]?
      (if (snapshots.claim policy now commit operationId).2[commit]?.any (·.state = .ready)
        then 0
        else if (Call.claim commit operationId).starts policy snapshots now = some commit
        then started + 1
        else started) := by
  obtain ⟨answer, row⟩ := starts
  rw [row]
  simp only [Call.starts, answer, if_true, ← counted]
  cases stored : snapshots[commit]? with
  | none =>
      have settled
          : Settled policy (some (Snapshots.claimedRow none now operationId started))
              (started + 1) :=
        .building rfl rfl rfl allowed
      simpa [Snapshots.claimedRow] using settled
  | some record =>
      have kept := expiry record (by rw [stored]; rfl)
      have settled
          : Settled policy
              (some (Snapshots.claimedRow (some record) now operationId started))
              (started + 1) :=
        .building rfl rfl kept allowed
      simpa [Snapshots.claimedRow] using settled

/-- A claim that starts no build leaves the count. -/
theorem Settled.wait {now : Int} (settled : Settled policy (some record) started)
    (waits : Snapshots.Waits snapshots policy now commit operationId record)
    : Settled policy (snapshots.claim policy now commit operationId).2[commit]?
      (if (snapshots.claim policy now commit operationId).2[commit]?.any (·.state = .ready)
        then 0
        else if (Call.claim commit operationId).starts policy snapshots now = some commit
        then started + 1
        else started) := by
  obtain ⟨answer, row⟩ := waits
  have unstarted
      : (Call.claim commit operationId).starts policy snapshots now ≠ some commit := by
    unfold Call.starts
    cases answered : (snapshots.claim policy now commit operationId).1 with
    | claimed operation => exact absurd answered (answer operation)
    | _ => simp
  rw [if_neg unstarted]
  refine Settled.recount ?_
  obtain row | ⟨state, row⟩ := row
  · rw [row]
    exact settled
  · rw [row]
    have unowned := settled.ready_unowned state
    cases settled with
    | ready => exact .ready state unowned
    | building other => rw [state] at other; cases other
    | failed other => rw [state] at other; cases other

/-- A timely claim keeps the row settled: it starts a build only of a commit with none under
way and attempts left.
-/
theorem Settled.claim {now : Int} {started : Nat}
    (settled : Settled policy snapshots[commit]? started)
    (timely : Timely policy snapshots now (.claim commit operationId))
    (attempts : 1 ≤ policy.maxAttempts)
    : Settled policy (snapshots.claim policy now commit operationId).2[commit]?
      (if (snapshots.claim policy now commit operationId).2[commit]?.any (·.state = .ready)
        then 0
        else if (Call.claim commit operationId).starts policy snapshots now = some commit
        then started + 1
        else started) := by
  cases stored : snapshots[commit]? with
  | none =>
      rw [stored] at settled
      cases settled
      exact Settled.start (Snapshots.claim_absent operationId stored) (by simp [stored])
        (by rw [stored]; rfl) attempts
  | some record =>
      rw [stored] at settled
      cases settled with
      | ready state unowned =>
          exact (Settled.ready state unowned).wait
            (Snapshots.claim_ready operationId stored state)
      | building state owned kept allowed =>
          have answer :=
            @Snapshots.claim_building policy snapshots now commit record operationId stored state
          rw [if_pos (timely record (by rw [stored]; rfl) state)] at answer
          exact (Settled.building state owned kept allowed).wait answer
      | failed state unowned kept allowed =>
          have answer :=
            @Snapshots.claim_failed policy snapshots now commit record operationId stored state
          split at answer
          · rename_i left
            refine Settled.start answer ?_ (by rw [stored]; rfl) left
            intro other found
            rw [stored] at found
            cases found
            exact kept
          · exact (Settled.failed state unowned kept allowed).wait answer

theorem Settled.progress (settled : Settled policy snapshots[commit]? started) (now : Int)
    (progress : Progress)
    : Settled policy (snapshots.recordProgress now commit progress)[commit]? started := by
  rw [Snapshots.recordProgress, Snapshots.update_self]
  cases stored : snapshots[commit]? with
  | none => rw [stored] at settled; exact settled
  | some record =>
      rw [stored] at settled
      by_cases building : record.state = .building
      · cases settled with
        | ready state => rw [building] at state; cases state
        | building state owned kept allowed =>
            have settled
                : Settled policy (some { record with progress, updatedAt := now })
                    (record.attempts + 1) :=
              .building state owned kept allowed
            simpa [building] using settled
        | failed state => rw [building] at state; cases state
      · simpa [building] using settled

/-- A failure reported by the build's owner leaves the row settled: it counts that build. -/
theorem Settled.fail (settled : Settled policy snapshots[commit]? started) (now : Int)
    (reason : Text) (owner : ∀ record ∈ snapshots[commit]?, record.operationId = some operationId)
    : Settled policy (snapshots.fail now commit reason)[commit]? started := by
  rw [Snapshots.fail, Snapshots.update_self]
  cases stored : snapshots[commit]? with
  | none => rw [stored] at settled; exact settled
  | some record =>
      rw [stored] at settled
      have owned := owner record (by rw [stored]; rfl)
      cases settled with
      | ready _ unowned => rw [unowned] at owned; cases owned
      | building _ _ kept allowed =>
          exact @Settled.failed policy
            {
              record with
              state := .failed
              failureReason := some reason
              operationId := none
              attempts := record.attempts + 1
              updatedAt := now
            } rfl rfl kept allowed
      | failed _ unowned => rw [unowned] at owned; cases owned

/-- Collection leaves a row settled: only a ready one has an expiry. -/
theorem Settled.gc (settled : Settled policy snapshots[commit]? started) (now : Int)
    (pinned : List Text)
    : Settled policy (snapshots.gc now pinned).2[commit]? started := by
  rw [Snapshots.gc_row]
  cases stored : snapshots[commit]? with
  | none => rw [stored] at settled; exact settled
  | some record =>
      rw [stored] at settled
      by_cases doomed : Snapshots.doomed pinned now commit record = true
      · have expired : record.expiresAt ≠ none := by
          intro kept
          simp [Snapshots.doomed, kept] at doomed
        have dropped
            : Option.filter (fun record => !Snapshots.doomed pinned now commit record)
                (some record)
              = none := by
          simp [doomed]
        rw [dropped]
        cases settled with
        | ready => exact .absent
        | building _ _ kept => exact absurd kept expired
        | failed _ _ kept => exact absurd kept expired
      · have kept
            : Option.filter (fun record => !Snapshots.doomed pinned now commit record)
                (some record)
              = some record := by
          simp [doomed]
        rw [kept]
        exact settled

/-- Every timely call keeps the lifecycle. Witness: one case a call. -/
theorem Lifecycle.step {call : Int × Call} (lifecycle : Lifecycle policy watched)
    (attempts : 1 ≤ policy.maxAttempts)
    (timely : Timely policy watched.snapshots call.1 call.2)
    : Lifecycle policy (watched.step policy call) := by
  intro commit
  obtain ⟨now, call⟩ := call
  have settled := lifecycle commit
  simp only [Watched.step]
  -- Any call but a claim of the commit starts no build of it.
  have uncounted
      (unstarted : call.starts policy watched.snapshots now ≠ some commit)
      (after
        : Settled policy (watched.snapshots.after policy now call)[commit]?
            (watched.started commit))
      : Settled policy (watched.snapshots.after policy now call)[commit]?
          (if (watched.snapshots.after policy now call)[commit]?.any (·.state = .ready) then 0
            else if call.starts policy watched.snapshots now = some commit
            then watched.started commit + 1 else watched.started commit) := by
    rw [if_neg unstarted]
    exact after.recount
  cases call with
  | claim target operationId =>
      by_cases same : commit = target
      · subst same
        exact settled.claim timely attempts
      · refine uncounted ?_ ?_
        · simp only [Call.starts]
          split
          · exact fun equal => same (Option.some.inj equal).symm
          · simp
        · simp only [Snapshots.after]
          rw [Snapshots.claim_other operationId same]
          exact settled
  | recordProgress target operationId progress =>
      refine uncounted (by simp [Call.starts]) ?_
      by_cases same : commit = target
      · subst same
        exact settled.progress now progress
      · simp only [Snapshots.after]
        rw [Snapshots.recordProgress, Snapshots.update_other _ _ same]
        exact settled
  | complete operationId manifest indexGeneration retained =>
      by_cases same : commit = manifest.commit
      · subst same
        simp only [Snapshots.after, Snapshots.complete, ExtTreeMap.getElem?_insert_self,
          Option.any_some, decide_true, if_true]
        exact .ready rfl rfl
      · refine uncounted (by simp [Call.starts]) ?_
        have different : compare manifest.commit commit ≠ .eq := fun equal =>
          same (Std.LawfulEqOrd.eq_of_compare equal).symm
        simp only [Snapshots.after, Snapshots.complete]
        rw [ExtTreeMap.getElem?_insert, if_neg different]
        exact settled
  | fail target operationId reason =>
      refine uncounted (by simp [Call.starts]) ?_
      by_cases same : commit = target
      · subst same
        exact settled.fail now reason timely
      · simp only [Snapshots.after]
        rw [Snapshots.fail, Snapshots.update_other _ _ same]
        exact settled
  | abandon target operationId =>
      refine uncounted (by simp [Call.starts]) ?_
      simp only [Snapshots.after]
      rw [Snapshots.abandon_idle timely]
      exact settled
  | gc pinned => exact uncounted (by simp [Call.starts]) (settled.gc now pinned)

-- Runs of builders

/-- A timely call takes a ready snapshot away only by collecting it. -/
theorem Lifecycle.keepsReady {call : Int × Call} (lifecycle : Lifecycle policy watched)
    (timely : Timely policy watched.snapshots call.1 call.2)
    : KeepsReady policy watched.snapshots call := by
  intro commit record stored state unready
  have settled := lifecycle commit
  rw [stored] at settled
  obtain ⟨now, call⟩ := call
  -- A ready row that is still there, or only read, is still ready.
  have remains
      (row : (watched.snapshots.after policy now call)[commit]? = some record) : False :=
    unready ⟨record, row, state⟩
  cases call with
  | claim target operationId =>
      refine absurd ?_ unready
      by_cases same : commit = target
      · subst same
        obtain ⟨_, row | ⟨_, row⟩⟩ :=
          @Snapshots.claim_ready policy watched.snapshots now commit record operationId stored
            state
        · exact ⟨record, row, state⟩
        · exact ⟨_, row, state⟩
      · exact ⟨record, (Snapshots.claim_other operationId same).trans stored, state⟩
  | recordProgress target operationId progress =>
      refine (remains ?_).elim
      simp only [Snapshots.after, Snapshots.recordProgress]
      by_cases same : commit = target
      · subst same
        rw [Snapshots.update_self, stored]
        simp [state]
      · rw [Snapshots.update_other _ _ same]
        exact stored
  | complete operationId manifest indexGeneration retained =>
      refine absurd ?_ unready
      by_cases same : commit = manifest.commit
      · subst same
        exact ⟨_, ExtTreeMap.getElem?_insert_self, rfl⟩
      · have different : compare manifest.commit commit ≠ .eq := fun equal =>
          same (Std.LawfulEqOrd.eq_of_compare equal).symm
        refine ⟨record, ?_, state⟩
        simp only [Snapshots.after, Snapshots.complete]
        rw [ExtTreeMap.getElem?_insert, if_neg different]
        exact stored
  | fail target operationId reason =>
      by_cases same : commit = target
      · subst same
        have owner := timely record (by rw [stored]; rfl)
        rw [settled.ready_unowned state] at owner
        cases owner
      · refine (remains ?_).elim
        simp only [Snapshots.after, Snapshots.fail]
        rw [Snapshots.update_other _ _ same]
        exact stored
  | abandon target operationId =>
      refine (remains ?_).elim
      simp only [Snapshots.after]
      rw [Snapshots.abandon_idle timely]
      exact stored
  | gc pinned =>
      by_cases doomed : Snapshots.doomed pinned now commit record = true
      · simp only [Snapshots.doomed, Bool.and_eq_true, Bool.not_eq_true',
          Option.any_eq_true] at doomed
        obtain ⟨unpinned, expiry, expires, past⟩ := doomed
        exact ⟨pinned, expiry, rfl, by simpa using unpinned, expires, by simpa using past⟩
      · refine (remains ?_).elim
        simp only [Snapshots.after, Snapshots.gc_row, stored]
        simp [doomed]

theorem Timely.ignoresOthers {call : Int × Call}
    (timely : Timely policy snapshots call.1 call.2)
    : IgnoresOthers policy snapshots call := by
  intro commit operationId other outcome
  obtain ⟨now, call⟩ := call
  obtain ⟨reason, rfl⟩ | rfl := outcome
  · have absent : snapshots[commit]? = none := by
      cases stored : snapshots[commit]? with
      | none => rfl
      | some record =>
          refine absurd ?_ other
          rw [Snapshots.owner, stored]
          exact timely record (by rw [stored]; rfl)
    simp only [Snapshots.after, Snapshots.fail, Snapshots.update, absent]
  · exact Snapshots.abandon_idle timely

/-- Timely progress by an operation not on record finds no build to refresh, and the row of a
settled commit names an operation only while it builds.
-/
theorem Lifecycle.oneOwner {call : Int × Call} (lifecycle : Lifecycle policy watched)
    (attempts : 1 ≤ policy.maxAttempts)
    (timely : Timely policy watched.snapshots call.1 call.2)
    : OneOwner policy watched.snapshots call := by
  constructor
  · intro commit operationId progress made other
    obtain ⟨now, call⟩ := call
    simp only at made
    subst made
    simp only [Snapshots.after, Snapshots.recordProgress, Snapshots.update]
    cases stored : watched.snapshots[commit]? with
    | none => rfl
    | some record =>
        have idle : record.state ≠ .building := by
          intro building
          refine other ?_
          rw [Snapshots.owner, stored]
          exact timely record (by rw [stored]; rfl) building
        simp [idle]
  · intro commit record stored owned
    have settled := lifecycle.step attempts timely commit
    simp only [Watched.step] at settled
    rw [stored] at settled
    exact settled.owned_building owned

/-- Every call of the run is timely, and the policy allows an attempt. -/
def InTime (policy : PreparePolicy) (calls : List (Int × Call)) : Prop :=
  1 ≤ policy.maxAttempts
  ∧ Runs.Along (Watched.step policy)
      (fun watched call => Timely policy watched.snapshots call.1 call.2) .fresh calls

theorem Lifecycle.along {calls : List (Int × Call)} (attempts : 1 ≤ policy.maxAttempts)
    {given : Watched → Int × Call → Prop}
    (gives
      : ∀ watched call,
          Lifecycle policy watched
          → Timely policy watched.snapshots call.1 call.2
          → given watched call)
    (lifecycle : Lifecycle policy watched)
    (timely
      : Runs.Along (Watched.step policy)
          (fun watched call => Timely policy watched.snapshots call.1 call.2) watched calls)
    : Runs.Along (Watched.step policy) given watched calls := by
  induction calls generalizing watched with
  | nil => trivial
  | cons call calls ih =>
      exact ⟨gives _ _ lifecycle timely.1, ih (lifecycle.step attempts timely.1) timely.2⟩

theorem Lifecycle.fresh : Lifecycle policy .fresh := by
  intro commit
  rw [Watched.fresh, ExtTreeMap.getElem?_empty]
  exact .absent

/-- Where every call of a run is timely, no superseded builder disturbs a snapshot. -/
theorem timely_builders_undisturbed (policy : PreparePolicy) (calls : List (Int × Call))
    (inTime : InTime policy calls)
    : Undisturbed policy calls where
  ready :=
    Lifecycle.along inTime.1 (fun _ _ lifecycle timely => lifecycle.keepsReady timely)
      .fresh inTime.2
  others :=
    Lifecycle.along inTime.1 (fun _ _ _ timely => timely.ignoresOthers) .fresh inTime.2
  owner :=
    Lifecycle.along inTime.1 (fun _ _ lifecycle timely => lifecycle.oneOwner inTime.1 timely)
      .fresh inTime.2
  bounded := by
    intro watched member commit
    have lifecycle : Lifecycle policy watched :=
      Runs.invariant (fun _ _ lifecycle timely => lifecycle.step inTime.1 timely) .fresh
        inTime.2 watched member
    exact (lifecycle commit).bounded

instance (policy : PreparePolicy) (snapshots : Snapshots) (now : Int)
    : DecidablePred (Timely policy snapshots now)
  | .claim _ _ => inferInstanceAs (Decidable (∀ record ∈ _, _))
  | .recordProgress _ _ _ => inferInstanceAs (Decidable (∀ record ∈ _, _))
  | .complete .. => inferInstanceAs (Decidable True)
  | .fail _ _ _ => inferInstanceAs (Decidable (∀ record ∈ _, _))
  | .abandon _ _ => inferInstanceAs (Decidable (∀ record ∈ _, _))
  | .gc _ => inferInstanceAs (Decidable True)

/-- A build that fails once and then succeeds, and is collected at its expiry. -/
theorem retried_build_undisturbed
    : Undisturbed .default
        [(0, .claim ['c'] ['a']), (1, .recordProgress ['c'] ['a'] ⟨5, 4⟩),
          (2, .fail ['c'] ['a'] ['e']), (3, .claim ['c'] ['b']),
          (4, .complete ['b'] ⟨['c'], [1], ['s'], 1⟩ 1 false), (5, .claim ['c'] ['d']),
          (4000, .gc [])] :=
  timely_builders_undisturbed _ _ ⟨by decide, by decide⟩

/-- A builder whose claim was reclaimed fails after the second builder has published: the
ready snapshot is gone.
-/
theorem late_failure_undoes_snapshot : ¬∀ policy calls, Undisturbed policy calls := by
  intro undisturbed
  have ready :=
    (undisturbed .default
      [(0, .claim ['c'] ['a']), (600, .claim ['c'] ['b']),
        (601, .complete ['b'] ⟨['c'], [1], ['s'], 1⟩ 1 false),
        (602, .fail ['c'] ['a'] ['e'])]).ready
  have kept := ready.2.2.2.1 ['c'] ⟨.ready, 1, 1, some [1], some ['s'], 601, some 4201, none,
    none, 0, ⟨0, 0⟩⟩ (by decide) rfl
  obtain ⟨pinned, expiry, collected, _⟩ := kept (by
    rintro ⟨record, stored, state⟩
    have failed
        : ((((Watched.fresh.step .default (0, .claim ['c'] ['a'])).step .default
            (600, .claim ['c'] ['b'])).step .default
              (601, .complete ['b'] ⟨['c'], [1], ['s'], 1⟩ 1 false)).snapshots.after .default
                602 (.fail ['c'] ['a'] ['e']))[['c']]?.any (·.state = .ready)
          = false := by
      decide
    rw [stored] at failed
    simp [state] at failed)
  cases collected

end Gfs.Search
