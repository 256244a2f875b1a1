import Gfs.Types.Ids
import Gfs.Types.Oid
import Gfs.Types.Revision
import Gfs.Types.Signed

/-! The catalog's lease table (`gfs-service/src/catalog/leases.rs`): one transaction a
definition. `now` is the wall clock's second, read by each; `updated_at` is read by nothing
and left out.
-/

namespace Gfs.Service

open Gfs.Types
open Std (ExtTreeMap)

-- Leases

/-- An integer brought into the range of an `i64`. -/
def i64Saturate (value : Int) : Int :=
  max (-2 ^ 63) (min value (2 ^ 63 - 1))

/-- `i64::saturating_add`. -/
def i64SaturatingAdd (a b : Int) : Int :=
  i64Saturate (a + b)

/-- `i64::saturating_sub`. -/
def i64SaturatingSub (a b : Int) : Int :=
  i64Saturate (a - b)

inductive LeaseState where
  | preparing
  | active
  | released
  | expired
  deriving DecidableEq, Repr

/-- Whether a state keeps its commit reachable for garbage collection. -/
def LeaseState.isReachabilityRoot : LeaseState → Bool
  | .preparing => true
  | .active => true
  | .released => false
  | .expired => false

def LeaseState.asStr : LeaseState → Text
  | .preparing => "PREPARING".toList
  | .active => "ACTIVE".toList
  | .released => "RELEASED".toList
  | .expired => "EXPIRED".toList

/-- The durations of the lease policy the service reads, in seconds. -/
structure LeasePolicy where
  initialTtl : Nat
  renewalGrace : Nat
  pruneDelay : Nat
  maxTotalAge : Nat
  deriving DecidableEq, Repr

structure Lease where
  mountId : MountId
  repositoryId : RepositoryId
  commit : ObjectId
  subject : SubjectId
  state : LeaseState
  anchorRef : Text
  createdAt : Int
  expiresAt : Int
  terminalAt : Option Int
  renewalFailures : Nat
  deriving DecidableEq

/-- Whether the lease still keeps its commit reachable. A terminal lease does so for the whole
prune delay.
-/
def Lease.isProtecting (lease : Lease) (now : Int) (policy : LeasePolicy) : Bool :=
  if lease.state.isReachabilityRoot then true
  else lease.terminalAt.any (fun t => decide (now < i64SaturatingAdd t (asI64 policy.pruneDelay)))

/-- The `leases` table, by mount id. -/
abbrev Leases := ExtTreeMap Text Lease compare

/-- What one sweep changed. -/
structure LeaseSweepOutcome where
  /-- Leases that left `ACTIVE` because their grace elapsed. -/
  expired : List MountId
  /-- Leases whose anchors are now collectable. -/
  prunable : List (MountId × Text)
  /-- Leases past `expires_at` but still inside grace. -/
  inGrace : List MountId

namespace Leases

variable (leases : Leases) (now : Int) (policy : LeasePolicy)

-- Transactions

/-- Persist a `PREPARING` lease. -/
def beginLease (mountId : MountId) (repositoryId : RepositoryId) (commit : ObjectId)
    (subject : SubjectId) (anchorRef : Text) (ttlSecs : Int)
    : Except GfsError (Lease × Leases) :=
  match leases[mountId.1]? with
  | some existing =>
      .error
        ⟨.conflict,
          "mount id is already in use by a lease in state ".toList ++ existing.state.asStr⟩
  | none =>
      let lease : Lease :=
        { mountId, repositoryId, commit, subject, state := .preparing, anchorRef,
          createdAt := now, expiresAt := i64SaturatingAdd now ttlSecs, terminalAt := none,
          renewalFailures := 0 }
      .ok (lease, leases.insert mountId.1 lease)

/-- Promote a `PREPARING` lease to `ACTIVE`. -/
def activateLease (mountId : MountId) : Except GfsError Leases :=
  match leases[mountId.1]? with
  | none => .error ⟨.notFound, "no such lease".toList⟩
  | some lease =>
      if lease.state = .preparing then
        .ok (leases.insert mountId.1 { lease with state := .active })
      else
        .error
          ⟨.failedPrecondition,
            "cannot activate a lease in state ".toList ++ lease.state.asStr⟩

def getLease (mountId : MountId) : Option Lease :=
  leases[mountId.1]?

/-- Extend a lease's expiry, never shortening it. Only an `ACTIVE` lease renews. -/
def renewLease (mountId : MountId) (ttlSecs : Int) : Except GfsError (Lease × Leases) :=
  match leases[mountId.1]? with
  | none => .error ⟨.notFound, "no such lease".toList⟩
  | some lease =>
      if lease.state ≠ .active then
        .error
          ⟨.failedPrecondition,
            "cannot renew a lease in state ".toList ++ lease.state.asStr
              ++ "; it no longer protects its commit".toList⟩
      else if i64SaturatingSub now lease.createdAt > asI64 policy.maxTotalAge then
        .error
          ⟨.failedPrecondition,
            "lease has reached the maximum total age of ".toList
              ++ Nat.toDigits 10 (policy.maxTotalAge / 3600) ++ " hours".toList⟩
      else
        let renewed :=
          { lease with
            expiresAt := max (i64SaturatingAdd now ttlSecs) lease.expiresAt,
            renewalFailures := 0 }
        .ok (renewed, leases.insert mountId.1 renewed)

/-- Release a lease eagerly. Releasing a terminal lease changes nothing. -/
def releaseLease (mountId : MountId) : Except GfsError (Lease × Leases) :=
  match leases[mountId.1]? with
  | none => .error ⟨.notFound, "no such lease".toList⟩
  | some lease =>
      if lease.state.isReachabilityRoot then
        let released := { lease with state := .released, terminalAt := some now }
        .ok (released, leases.insert mountId.1 released)
      else .ok (lease, leases)

/-- Every lease of a repository that keeps a commit reachable. -/
def protectingLeases (repositoryId : RepositoryId) : List Lease :=
  (leases.toList.map Prod.snd).filter
    (fun lease => lease.repositoryId = repositoryId && lease.isProtecting now policy)

/-- Leases still in `PREPARING` or `ACTIVE`. -/
def unreconciledLeases : List Lease :=
  (leases.toList.map Prod.snd).filter (fun lease => lease.state.isReachabilityRoot)

/-- What a sweep does with one row. -/
inductive SweepVerdict where
  | keep
  | inGrace
  | expire
  | prune
  deriving DecidableEq

def sweepVerdict (lease : Lease) : SweepVerdict :=
  match lease.state with
  | .preparing | .active =>
      if now ≤ lease.expiresAt then .keep
      -- Overdue but still protected.
      else if now ≤ i64SaturatingAdd lease.expiresAt (asI64 policy.renewalGrace) then .inGrace
      else .expire
  | .expired | .released =>
      match lease.terminalAt with
      | none => .keep
      | some terminalAt =>
          if now ≥ i64SaturatingAdd terminalAt (asI64 policy.pruneDelay) then .prune else .keep

/-- A row after a sweep. -/
def swept (lease : Lease) : Lease :=
  if sweepVerdict now policy lease = .expire then
    { lease with state := .expired, terminalAt := some now }
  else lease

/-- Advance expiry for every lease whose deadline has passed. -/
def sweepLeases : LeaseSweepOutcome × Leases :=
  let rows := leases.toList.map Prod.snd
  let judged := fun verdict => rows.filter (fun lease => sweepVerdict now policy lease = verdict)
  ({ expired := (judged .expire).map Lease.mountId,
     prunable := (judged .prune).map (fun lease => (lease.mountId, lease.anchorRef)),
     inGrace := (judged .inGrace).map Lease.mountId },
    leases.map (fun _ lease => swept now policy lease))

/-- Forget a lease whose anchor has been removed. -/
def forgetLease (mountId : MountId) : Leases :=
  leases.erase mountId.1

/-- Mark a lease terminal without waiting for expiry, whatever its state. -/
def abandonLease (mountId : MountId) : Leases :=
  leases.modify mountId.1
    (fun lease => { lease with state := .expired, terminalAt := some now })

-- What a transaction does to a row

variable {leases} {now} {policy} {next : Leases} {mountId : MountId} {lease : Lease}

theorem beginLease_eq_ok {repositoryId : RepositoryId} {commit : ObjectId}
    {subject : SubjectId} {anchorRef : Text} {ttlSecs : Int}
    (begun
      : leases.beginLease now mountId repositoryId commit subject anchorRef ttlSecs
        = .ok (lease, next))
    : leases[mountId.1]? = none
      ∧ next = leases.insert mountId.1 lease
      ∧ lease
        = { mountId, repositoryId, commit, subject, state := .preparing, anchorRef,
            createdAt := now, expiresAt := i64SaturatingAdd now ttlSecs, terminalAt := none,
            renewalFailures := 0 } := by
  simp only [beginLease] at begun
  cases stored : leases[mountId.1]? with
  | some existing => rw [stored] at begun; cases begun
  | none =>
      rw [stored] at begun
      cases begun
      exact ⟨rfl, rfl, rfl⟩

/-- Only a `PREPARING` row is activated. -/
theorem activateLease_eq_ok (activated : leases.activateLease mountId = .ok next)
    : ∃ row,
        leases[mountId.1]? = some row
        ∧ row.state = .preparing
        ∧ next = leases.insert mountId.1 { row with state := .active } := by
  simp only [activateLease] at activated
  cases stored : leases[mountId.1]? with
  | none => rw [stored] at activated; cases activated
  | some row =>
      rw [stored] at activated
      simp only at activated
      split at activated
      · rename_i state
        cases activated
        exact ⟨row, rfl, state, rfl⟩
      · cases activated

/-- Only an `ACTIVE` row renews, and its expiry does not fall. -/
theorem renewLease_eq_ok {ttlSecs : Int}
    (renewed : leases.renewLease now policy mountId ttlSecs = .ok (lease, next))
    : ∃ row,
        leases[mountId.1]? = some row
        ∧ row.state = .active
        ∧ lease
          = { row with
              expiresAt := max (i64SaturatingAdd now ttlSecs) row.expiresAt,
              renewalFailures := 0 }
        ∧ next = leases.insert mountId.1 lease := by
  simp only [renewLease] at renewed
  cases stored : leases[mountId.1]? with
  | none => rw [stored] at renewed; cases renewed
  | some row =>
      rw [stored] at renewed
      simp only [ne_eq] at renewed
      split at renewed
      · cases renewed
      · rename_i state
        split at renewed
        · cases renewed
        · cases renewed
          exact ⟨row, rfl, not_not.mp state, rfl, rfl⟩

/-- A release ends a live row and changes no other. -/
theorem releaseLease_eq_ok (released : leases.releaseLease now mountId = .ok (lease, next))
    : ∃ row,
        leases[mountId.1]? = some row
        ∧ ((row.state.isReachabilityRoot = true
            ∧ next
              = leases.insert mountId.1
                  { row with state := .released, terminalAt := some now })
          ∨ (row.state.isReachabilityRoot = false ∧ next = leases)) := by
  simp only [releaseLease] at released
  cases stored : leases[mountId.1]? with
  | none => rw [stored] at released; cases released
  | some row =>
      rw [stored] at released
      simp only at released
      split at released
      · rename_i state
        cases released
        exact ⟨row, rfl, .inl ⟨state, rfl⟩⟩
      · rename_i state
        cases released
        exact ⟨lease, rfl, .inr ⟨by simpa using state, rfl⟩⟩

theorem sweepLeases_getElem? (m : Text)
    : (leases.sweepLeases now policy).2[m]? = leases[m]?.map (swept now policy) := by
  simp [sweepLeases]

theorem mem_prunable {anchorRef : Text}
    (listed : (mountId, anchorRef) ∈ (leases.sweepLeases now policy).1.prunable)
    : ∃ (m : Text) (row : Lease),
        leases[m]? = some row
        ∧ sweepVerdict now policy row = .prune
        ∧ row.mountId = mountId
        ∧ row.anchorRef = anchorRef := by
  simp only [sweepLeases, List.mem_map, List.mem_filter] at listed
  obtain ⟨row, ⟨⟨⟨m, value⟩, member, rfl⟩, verdict⟩, same⟩ := listed
  cases same
  exact ⟨m, value, ExtTreeMap.mem_toList_iff_getElem?_eq_some.mp member,
    of_decide_eq_true verdict, rfl, rfl⟩

theorem mem_unreconciledLeases
    : lease ∈ leases.unreconciledLeases
      ↔ ∃ m : Text, leases[m]? = some lease ∧ lease.state.isReachabilityRoot = true := by
  simp only [unreconciledLeases, List.mem_filter, List.mem_map]
  constructor
  · rintro ⟨⟨⟨m, value⟩, member, rfl⟩, root⟩
    exact ⟨m, ExtTreeMap.mem_toList_iff_getElem?_eq_some.mp member, root⟩
  · rintro ⟨m, stored, root⟩
    exact ⟨⟨(m, lease), ExtTreeMap.mem_toList_iff_getElem?_eq_some.mpr stored, rfl⟩, root⟩

theorem mem_protectingLeases {repositoryId : RepositoryId}
    : lease ∈ leases.protectingLeases now policy repositoryId
      ↔ (∃ m : Text, leases[m]? = some lease)
        ∧ lease.repositoryId = repositoryId
        ∧ lease.isProtecting now policy = true := by
  simp only [protectingLeases, List.mem_filter, List.mem_map, Bool.and_eq_true,
    decide_eq_true_eq]
  constructor
  · rintro ⟨⟨⟨m, value⟩, member, rfl⟩, facts⟩
    exact ⟨⟨m, ExtTreeMap.mem_toList_iff_getElem?_eq_some.mp member⟩, facts⟩
  · rintro ⟨⟨m, stored⟩, facts⟩
    exact ⟨⟨(m, lease), ExtTreeMap.mem_toList_iff_getElem?_eq_some.mpr stored, rfl⟩, facts⟩

theorem forgetLease_getElem? (m : Text)
    : (leases.forgetLease mountId)[m]? = if mountId.1 = m then none else leases[m]? := by
  simp [forgetLease, ExtTreeMap.getElem?_erase, Std.LawfulEqCmp.compare_eq_iff_eq]

theorem abandonLease_getElem? (m : Text)
    : (leases.abandonLease now mountId)[m]?
      = if mountId.1 = m then
          leases[m]?.map
            (fun lease => { lease with state := .expired, terminalAt := some now })
        else leases[m]? := by
  rw [abandonLease, ExtTreeMap.getElem?_modify]
  simp only [Std.LawfulEqCmp.compare_eq_iff_eq]
  split
  · rename_i same
    rw [same]
  · rfl

theorem insert_getElem? (row : Lease) (m : Text)
    : (leases.insert mountId.1 row)[m]? = if mountId.1 = m then some row else leases[m]? := by
  simp [ExtTreeMap.getElem?_insert, Std.LawfulEqCmp.compare_eq_iff_eq]

end Leases

end Gfs.Service
