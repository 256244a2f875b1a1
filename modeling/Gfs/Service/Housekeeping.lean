import Gfs.Service.Mounts

/-! Lease housekeeping and the refs it touches: what every reachable state keeps, whatever
the interleaving, and when no step touches a ref outside the anchors' namespace.
-/

namespace Gfs.Service

open Gfs.Types
open Gfs.Lib
open Std (ExtTreeMap)

-- Watched runs

/-- The service, with the repository and commit each mount id was drawn for. -/
structure Watched where
  server : Server
  drawn : Text → Option (RepositoryId × ObjectId)

section Runs

variable (policy : LeasePolicy)

namespace Watched

/-- A service that has leased nothing yet, over any refs that are not lease anchors. -/
structure Fresh (watched : Watched) : Prop where
  leases : ∀ m : Text, watched.server.leases[m]? = none
  anchors
    : ∀ repositoryId name,
        isMountRef name = true → (watched.server.refs repositoryId)[name]? = none
  ops : ∀ op, watched.server.ops op = none
  granted : watched.server.granted = []
  drawn : ∀ m, watched.drawn m = none

/-- The mount ids drawn after an event. -/
def drawnAfter (watched : Watched) : Event → Text → Option (RepositoryId × ObjectId)
  | .start op (.createMount request) =>
      match watched.server.ops op with
      | some _ => watched.drawn
      | none =>
          Function.update watched.drawn request.mountId.1
            (some (request.repositoryId, request.commit))
  | _ => watched.drawn

def step (watched : Watched) (event : Event) : Watched where
  server := watched.server.after policy event
  drawn := watched.drawnAfter event

end Watched

/-- The mount id of a new call was not drawn before. -/
def DrawsFresh (watched : Watched) : Event → Prop
  | .start _ (.createMount request) => watched.drawn request.mountId.1 = none
  | _ => True

instance (watched : Watched) : DecidablePred (DrawsFresh watched)
  | .start _ (.createMount _) => inferInstanceAs (Decidable (_ = _))
  | .start _ (.renewMount _ _) => isTrue trivial
  | .start _ (.releaseMount _) => isTrue trivial
  | .start _ .sweep => isTrue trivial
  | .start _ .reconcile => isTrue trivial
  | .tick _ => isTrue trivial
  | .crash => isTrue trivial
  | .writeRef _ _ _ => isTrue trivial
  | .advance _ _ => isTrue trivial

-- Invariants

/-- A lease is of a mount id drawn for its repository and commit, under that id's anchor. -/
structure Born (drawn : Text → Option (RepositoryId × ObjectId)) (lease : Lease) : Prop where
  anchorRef : lease.anchorRef = leaseAnchorRef lease.mountId.1
  drawn : drawn lease.mountId.1 = some (lease.repositoryId, lease.commit)

/-- The names hold the anchor of every protecting lease of a repository. -/
def Covers (server : Server) (repositoryId : RepositoryId) (known : List Text) : Prop :=
  ∀ (m : Text) (row : Lease),
    server.leases[m]? = some row
    → row.repositoryId = repositoryId
    → row.isProtecting server.now policy = true
    → row.anchorRef ∈ known

/-- What a pass over a repository's anchors knows of them. -/
def Covering (server : Server) : Phase → Prop
  | .orphansList repositoryId known _ => Covers policy server repositoryId known
  | .orphansDelete repositoryId known anchors _ =>
      Covers policy server repositoryId known
      ∧ ∀ name target,
          (server.refs repositoryId)[name]? = some target
          → isMountRef name = true
          → name ∈ known ∨ name ∈ anchors
  | _ => True

/-- What an operation keeps from its earlier steps. -/
def Formed (drawn : Text → Option (RepositoryId × ObjectId)) : Phase → Prop
  | .waiting repositoryId next =>
      next.holding = some repositoryId
      ∧ (∀ server, Covering policy server next)
      ∧ Formed drawn next
  | .createResolve request | .createBegin request =>
      drawn request.mountId.1 = some (request.repositoryId, request.commit)
  | .createAnchor lease | .createActivate lease | .createGrant lease
  | .createUnanchor lease _ | .createForget lease _ => Born drawn lease
  | .renewExtend repositoryId mountId _ | .releaseMark repositoryId mountId =>
      ∃ commit, drawn mountId.1 = some (repositoryId, commit)
  | .renewRead repositoryId renewed | .renewRepair repositoryId renewed =>
      Born drawn renewed ∧ renewed.repositoryId = repositoryId
  | .sweepNext prunable => ∀ entry ∈ prunable, entry.2 = leaseAnchorRef entry.1.1
  | .sweepUnanchor repositoryId mountId anchorRef rest =>
      (∃ commit, drawn mountId.1 = some (repositoryId, commit))
      ∧ anchorRef = leaseAnchorRef mountId.1
      ∧ ∀ entry ∈ rest, entry.2 = leaseAnchorRef entry.1.1
  | .sweepForget repositoryId mountId rest =>
      (∃ commit, drawn mountId.1 = some (repositoryId, commit))
      ∧ ∀ entry ∈ rest, entry.2 = leaseAnchorRef entry.1.1
  | .reconcileNext leases => ∀ lease ∈ leases, Born drawn lease
  | .reconcileOpen lease rest | .reconcileUnanchor lease rest
  | .reconcileAbandon lease rest | .reconcileForget lease rest
  | .reconcileCheck lease rest | .reconcileRepair lease rest =>
      Born drawn lease ∧ ∀ other ∈ rest, Born drawn other
  | .orphansDelete _ _ anchors _ => ∀ name ∈ anchors, isReservedRef name = true
  | _ => True

/-- What holds in every reachable state, as long as mount ids are drawn once. -/
structure Sound (watched : Watched) : Prop where
  rows
    : ∀ (m : Text) (row : Lease),
        watched.server.leases[m]? = some row → row.mountId.1 = m ∧ Born watched.drawn row
  anchors
    : ∀ repositoryId name commit,
        (watched.server.refs repositoryId)[name]? = some commit
        → isMountRef name = true
        → ∃ m, name = leaseAnchorRef m ∧ watched.drawn m = some (repositoryId, commit)
  locks
    : ∀ op phase repositoryId,
        watched.server.ops op = some phase
        → phase.holding = some repositoryId
        → watched.server.locks repositoryId = some op
  formed : ∀ op phase, watched.server.ops op = some phase → Formed policy watched.drawn phase
  covering
    : ∀ op phase, watched.server.ops op = some phase → Covering policy watched.server phase

-- What an operation's step does to both stores

/-- A row after a step is a row before it, protecting more only under its repository's lock,
or a new lease begun under that lock.
-/
def Inherits (drawn : Text → Option (RepositoryId × ObjectId)) (holding : Option RepositoryId)
    (before : Server) (m : Text) (row : Lease)
    : Prop :=
  (∃ old,
    before.leases[m]? = some old
    ∧ row.mountId = old.mountId
    ∧ row.anchorRef = old.anchorRef
    ∧ row.repositoryId = old.repositoryId
    ∧ row.commit = old.commit
    ∧ (row.isProtecting before.now policy = true
        → old.isProtecting before.now policy = true ∨ holding = some old.repositoryId))
  ∨ (holding = some row.repositoryId ∧ row.mountId.1 = m ∧ Born drawn row)

/-- What an operation that holds a lock may do to both stores: refs change only under their
repository's lock, and a ref it writes is the anchor of a mount id's own commit.
-/
structure Respects (drawn : Text → Option (RepositoryId × ObjectId))
    (holding : Option RepositoryId) (before after : Server)
    : Prop where
  now : after.now = before.now
  rows
    : ∀ (m : Text) (row : Lease),
        after.leases[m]? = some row → Inherits policy drawn holding before m row
  refs
    : ∀ repositoryId name,
        (after.refs repositoryId)[name]? ≠ (before.refs repositoryId)[name]?
        → holding = some repositoryId
          ∧ ∀ commit,
              (after.refs repositoryId)[name]? = some commit
              → ∃ m, name = leaseAnchorRef m ∧ drawn m = some (repositoryId, commit)

end Runs

section Steps

variable {policy : LeasePolicy} {drawn : Text → Option (RepositoryId × ObjectId)}
  {holding : Option RepositoryId} {before : Server}

theorem Inherits.same {m : Text} {row : Lease} (stored : before.leases[m]? = some row)
    : Inherits policy drawn holding before m row :=
  .inl ⟨row, stored, rfl, rfl, rfl, rfl, .inl⟩

theorem Respects.refl : Respects policy drawn holding before before where
  now := rfl
  rows := fun _ _ stored => .same stored
  refs := fun _ _ differs => absurd rfl differs

theorem Respects.catalog {leases : Leases}
    (rows
      : ∀ (m : Text) (row : Lease),
          leases[m]? = some row → Inherits policy drawn holding before m row)
    : Respects policy drawn holding before (before.applied (.catalog leases)) where
  now := rfl
  rows := rows
  refs := fun _ _ differs => absurd rfl differs

theorem Respects.insert {mountId : MountId} {row : Lease}
    (inherited : Inherits policy drawn holding before mountId.1 row)
    : Respects policy drawn holding before
        (before.applied (.catalog (before.leases.insert mountId.1 row))) := by
  apply Respects.catalog
  intro m found stored
  rw [Leases.insert_getElem?] at stored
  split at stored
  · rename_i same
    subst same
    cases stored
    exact inherited
  · exact .same stored

theorem Respects.forget (mountId : MountId)
    : Respects policy drawn holding before
        (before.applied (.catalog (before.leases.forgetLease mountId))) := by
  apply Respects.catalog
  intro m found stored
  rw [Leases.forgetLease_getElem?] at stored
  split at stored
  · cases stored
  · exact .same stored

theorem isProtecting_of_root {row : Lease} {now : Int}
    (root : row.state.isReachabilityRoot = true)
    : row.isProtecting now policy = true := by
  rw [Lease.isProtecting, if_pos root]

/-- A sweep expires protecting rows only. -/
theorem Respects.sweep
    : Respects policy drawn holding before
        (before.applied (.catalog (before.leases.sweepLeases before.now policy).2)) := by
  apply Respects.catalog
  intro m found stored
  rw [Leases.sweepLeases_getElem?, Option.map_eq_some_iff] at stored
  obtain ⟨row, stored, rfl⟩ := stored
  refine .inl ⟨row, stored, ?_⟩
  rw [Leases.swept]
  split
  · rename_i expires
    refine ⟨rfl, rfl, rfl, rfl, fun _ => .inl (isProtecting_of_root ?_)⟩
    simp only [Leases.sweepVerdict] at expires
    cases state : row.state with
    | preparing => rfl
    | active => rfl
    | released =>
        rw [state] at expires
        simp only at expires
        repeat' split at expires
        all_goals cases expires
    | expired =>
        rw [state] at expires
        simp only at expires
        repeat' split at expires
        all_goals cases expires
  · exact ⟨rfl, rfl, rfl, rfl, .inl⟩

theorem Respects.abandon {mountId : MountId}
    (locked
      : ∀ row : Lease, before.leases[mountId.1]? = some row → holding = some row.repositoryId)
    : Respects policy drawn holding before
        (before.applied (.catalog (before.leases.abandonLease before.now mountId))) := by
  apply Respects.catalog
  intro m found stored
  rw [Leases.abandonLease_getElem?] at stored
  split at stored
  · rename_i same
    subst same
    obtain ⟨row, present, rfl⟩ := Option.map_eq_some_iff.mp stored
    exact .inl ⟨row, present, rfl, rfl, rfl, rfl, fun _ => .inr (locked row present)⟩
  · exact .same stored

theorem refs_applied (repositoryId other : RepositoryId) (refs : Refs)
    : (before.applied (.refs repositoryId refs)).refs other
      = if other = repositoryId then refs else before.refs other :=
  Function.update_apply _ _ _ _

/-- An anchor is created only where there was none. -/
theorem Refs.createLeaseAnchor_eq_ok {refs next : Refs} {anchorRef : Text}
    {commit : ObjectId} (created : refs.createLeaseAnchor anchorRef commit = .ok next)
    : (refs[anchorRef]? = some commit ∧ next = refs)
      ∨ (refs[anchorRef]? = none ∧ next = refs.insert anchorRef commit) := by
  simp only [createLeaseAnchor] at created
  split at created
  · cases created
  · cases stored : refs[anchorRef]? with
    | none =>
        rw [stored] at created
        cases created
        exact .inr ⟨rfl, rfl⟩
    | some existing =>
        rw [stored] at created
        simp only at created
        split at created
        · rename_i same
          cases created
          exact .inl ⟨by rw [same], rfl⟩
        · cases created

theorem Refs.deleteLeaseAnchor_eq_ok {refs next : Refs} {anchorRef : Text}
    (deleted : refs.deleteLeaseAnchor anchorRef = .ok next)
    : next = refs.erase anchorRef := by
  simp only [deleteLeaseAnchor] at deleted
  split at deleted
  · cases deleted
  · cases deleted
    rfl

theorem Refs.insert_getElem? (refs : Refs) (anchorRef name : Text) (commit : ObjectId)
    : (refs.insert anchorRef commit)[name]?
      = if anchorRef = name then some commit else refs[name]? := by
  simp [ExtTreeMap.getElem?_insert, Std.LawfulEqCmp.compare_eq_iff_eq]

theorem Refs.erase_getElem? (refs : Refs) (anchorRef name : Text)
    : (refs.erase anchorRef)[name]? = if anchorRef = name then none else refs[name]? := by
  simp [ExtTreeMap.getElem?_erase, Std.LawfulEqCmp.compare_eq_iff_eq]

theorem Refs.write_of_ne {refs : Refs} {name other : Text} {target : Option ObjectId}
    (different : name ≠ other)
    : (refs.write name target)[other]? = refs[other]? := by
  cases target with
  | some target => rw [write, Refs.insert_getElem?, if_neg different]
  | none => rw [write, Refs.erase_getElem?, if_neg different]

/-- Creating a lease's own anchor. -/
theorem Respects.createAnchor {repositoryId : RepositoryId} {lease : Lease} {refs : Refs}
    (locked : holding = some repositoryId) (born : Born drawn lease)
    (same : lease.repositoryId = repositoryId)
    (created
      : (before.refs repositoryId).createLeaseAnchor lease.anchorRef lease.commit = .ok refs)
    : Respects policy drawn holding before (before.applied (.refs repositoryId refs)) where
  now := rfl
  rows := fun _ _ stored => .same stored
  refs := by
    intro other name differs
    rw [refs_applied] at differs ⊢
    split at differs
    · rename_i here
      subst here
      rw [if_pos rfl]
      refine ⟨locked, ?_⟩
      intro commit stored
      cases Refs.createLeaseAnchor_eq_ok created with
      | inl kept =>
          rw [kept.2] at differs
          exact absurd rfl differs
      | inr put =>
          rw [put.2, Refs.insert_getElem?] at stored differs
          split at stored
          · rename_i here
            cases stored
            refine ⟨lease.mountId.1, ?_, ?_⟩
            · rw [← here, born.anchorRef]
            · rw [born.drawn, same]
          · rename_i elsewhere
            rw [if_neg elsewhere] at differs
            exact absurd rfl differs
    · exact absurd rfl differs

/-- Deleting a ref under its repository's lock. -/
theorem Respects.deleteAnchor {repositoryId : RepositoryId} {anchorRef : Text} {refs : Refs}
    (locked : holding = some repositoryId)
    (deleted : (before.refs repositoryId).deleteLeaseAnchor anchorRef = .ok refs)
    : Respects policy drawn holding before (before.applied (.refs repositoryId refs)) where
  now := rfl
  rows := fun _ _ stored => .same stored
  refs := by
    intro other name differs
    rw [refs_applied] at differs ⊢
    split at differs
    · rename_i here
      subst here
      rw [if_pos rfl]
      refine ⟨locked, ?_⟩
      intro commit stored
      rw [Refs.deleteLeaseAnchor_eq_ok deleted, Refs.erase_getElem?] at stored differs
      split at stored
      · cases stored
      · rename_i elsewhere
        rw [if_neg elsewhere] at differs
        exact absurd rfl differs
    · exact absurd rfl differs

end Steps

-- Steps of an operation

section Operations

variable {policy : LeasePolicy} {watched : Watched} {op : Nat} {phase : Phase}

theorem Sound.same_lease (sound : Sound policy watched) {lease row : Lease}
    (born : Born watched.drawn lease)
    (stored : watched.server.leases[lease.mountId.1]? = some row)
    : row.repositoryId = lease.repositoryId
      ∧ row.commit = lease.commit
      ∧ row.anchorRef = lease.anchorRef := by
  obtain ⟨keyed, rowBorn⟩ := sound.rows _ row stored
  have same := born.drawn
  rw [← keyed, rowBorn.drawn] at same
  obtain ⟨repository, commit⟩ := Prod.mk.inj (Option.some.inj same)
  refine ⟨repository, commit, ?_⟩
  rw [rowBorn.anchorRef, born.anchorRef, keyed]

/-- What a step does to both stores respects the lock its operation holds. -/
theorem Sound.run_respects (sound : Sound policy watched)
    (flying : watched.server.ops op = some phase) (fault : Fault)
    : Respects policy watched.drawn phase.holding watched.server
        (watched.server.applied (phase.run policy watched.server fault).1) := by
  have formed := sound.formed op phase flying
  cases phase with
  | waiting repositoryId next => exact .refl
  | createResolve request =>
      simp only [Phase.run, Phase.runCreateResolve, Phase.fail]
      split
      · exact .refl
      · exact .refl
  | createBegin request =>
      simp only [Phase.run, Phase.runCreateBegin, Phase.fail]
      split
      · exact .refl
      · split
        · rename_i lease leases begun
          obtain ⟨_, rfl, rfl⟩ := Leases.beginLease_eq_ok begun
          exact .insert (.inr ⟨rfl, rfl, ⟨rfl, formed⟩⟩)
        · exact .refl
  | createAnchor lease =>
      simp only [Phase.run, Phase.runCreateAnchor]
      split
      · exact .refl
      · split
        · rename_i refs created
          exact .createAnchor rfl formed rfl created
        · exact .refl
  | createActivate lease =>
      simp only [Phase.run, Phase.runCreateActivate]
      split
      · exact .refl
      · split
        · rename_i leases activated
          obtain ⟨row, stored, state, rfl⟩ := Leases.activateLease_eq_ok activated
          refine .insert (.inl ⟨row, stored, rfl, rfl, rfl, rfl, fun _ => .inl ?_⟩)
          exact isProtecting_of_root (by rw [state]; rfl)
        · exact .refl
  | createGrant lease =>
      exact ⟨rfl, fun _ _ stored => .same stored, fun _ _ differs => absurd rfl differs⟩
  | createUnanchor lease error =>
      simp only [Phase.run, Phase.runCreateUnanchor]
      split
      · exact .refl
      · split
        · rename_i refs deleted
          exact .deleteAnchor rfl deleted
        · exact .refl
  | createForget lease error =>
      simp only [Phase.run, Phase.runCreateForget]
      split
      · exact .refl
      · exact .forget _
  | renewLookup mountId ttl =>
      simp only [Phase.run, Phase.runRenewLookup, Phase.fail]
      split
      · exact .refl
      · split
        · exact .refl
        · exact .refl
  | renewExtend repositoryId mountId ttl =>
      simp only [Phase.run, Phase.runRenewExtend, Phase.fail]
      split
      · exact .refl
      · split
        · rename_i renewed leases extended
          obtain ⟨row, stored, state, rfl, rfl⟩ := Leases.renewLease_eq_ok extended
          refine .insert (.inl ⟨row, stored, rfl, rfl, rfl, rfl, fun _ => .inl ?_⟩)
          exact isProtecting_of_root (by rw [state]; rfl)
        · exact .refl
  | renewRead repositoryId renewed =>
      simp only [Phase.run, Phase.runRenewRead, Phase.fail]
      repeat' split
      all_goals exact .refl
  | renewRepair repositoryId renewed =>
      simp only [Phase.run, Phase.runRenewRepair, Phase.fail]
      split
      · exact .refl
      · split
        · rename_i refs created
          exact .createAnchor rfl formed.1 formed.2 created
        · exact .refl
  | releaseLookup mountId =>
      simp only [Phase.run, Phase.runReleaseLookup, Phase.fail]
      repeat' split
      all_goals exact .refl
  | releaseMark repositoryId mountId =>
      simp only [Phase.run, Phase.runReleaseMark, Phase.fail]
      split
      · exact .refl
      · split
        · rename_i released leases marked
          obtain ⟨row, stored, ⟨root, rfl⟩ | ⟨_, rfl⟩⟩ := Leases.releaseLease_eq_ok marked
          · exact .insert (.inl ⟨row, stored, rfl, rfl, rfl, rfl,
              fun _ => .inl (isProtecting_of_root root)⟩)
          · exact .refl
        · exact .refl
  | sweepMark =>
      simp only [Phase.run, Phase.runSweepMark, Phase.fail]
      split
      · exact .refl
      · exact .sweep
  | sweepNext prunable =>
      simp only [Phase.run]
      cases prunable with
      | nil => exact .refl
      | cons entry rest =>
          simp only [Phase.runSweepNext, Phase.fail]
          repeat' split
          all_goals exact .refl
  | sweepUnanchor repositoryId mountId anchorRef rest =>
      simp only [Phase.run, Phase.runSweepUnanchor]
      split
      · exact .refl
      · exact .refl
      · split
        · rename_i refs deleted
          exact .deleteAnchor rfl deleted
        · exact .refl
  | sweepForget repositoryId mountId rest =>
      simp only [Phase.run, Phase.runSweepForget, Phase.fail]
      split
      · exact .refl
      · exact .forget _
  | reconcileRead =>
      simp only [Phase.run, Phase.runReconcileRead, Phase.fail]
      split
      · exact .refl
      · exact .refl
  | reconcileNext leases =>
      simp only [Phase.run]
      cases leases with
      | nil =>
          simp only [Phase.runReconcileNext, Phase.fail]
          split
          · exact .refl
          · exact .refl
      | cons lease rest => exact .refl
  | reconcileOpen lease rest =>
      simp only [Phase.run, Phase.runReconcileOpen]
      repeat' split
      all_goals exact .refl
  | reconcileUnanchor lease rest =>
      simp only [Phase.run, Phase.runReconcileUnanchor, Phase.fail]
      split
      · exact .refl
      · split
        · rename_i refs deleted
          exact .deleteAnchor rfl deleted
        · exact .refl
  | reconcileAbandon lease rest =>
      simp only [Phase.run, Phase.runReconcileAbandon, Phase.fail]
      split
      · exact .refl
      · refine .abandon ?_
        intro row stored
        exact congrArg some (sound.same_lease formed.1 stored).1.symm
  | reconcileForget lease rest =>
      simp only [Phase.run, Phase.runReconcileForget, Phase.fail]
      split
      · exact .refl
      · exact .forget _
  | reconcileCheck lease rest =>
      simp only [Phase.run, Phase.runReconcileCheck, Phase.fail]
      repeat' split
      all_goals exact .refl
  | reconcileRepair lease rest =>
      simp only [Phase.run, Phase.runReconcileRepair, Phase.fail]
      split
      · exact .refl
      · split
        · rename_i refs created
          exact .createAnchor rfl formed.1 rfl created
        · exact .refl
  | orphansNext repositories =>
      cases repositories with
      | nil => exact .refl
      | cons repositoryId rest =>
          simp only [Phase.run, Phase.runOrphansNext]
          split
          · exact .refl
          · exact .refl
  | orphansKnown repositoryId rest =>
      simp only [Phase.run, Phase.runOrphansKnown, Phase.fail]
      split
      · exact .refl
      · exact .refl
  | orphansList repositoryId known rest =>
      simp only [Phase.run, Phase.runOrphansList, Phase.fail]
      split
      · exact .refl
      · exact .refl
  | orphansDelete repositoryId known anchors rest =>
      cases anchors with
      | nil => exact .refl
      | cons anchor anchors =>
          simp only [Phase.run, Phase.runOrphansDelete, Phase.fail]
          split
          · exact .refl
          · split
            · exact .refl
            · split
              · rename_i refs deleted
                exact .deleteAnchor rfl deleted
              · exact .refl
  | done result => exact .refl

theorem isReservedRef_of_isMountRef {name : Text} (mount : isMountRef name = true)
    : isReservedRef name = true := by
  rw [isMountRef, mountRefPrefix, List.isPrefixOf_iff_prefix] at mount
  exact isReservedRef_iff.mpr ((List.prefix_append _ _).trans mount)

/-- What an operation keeps is formed again after each of its steps, and its lock is kept or
given up.
-/
structure MovesOn (policy : LeasePolicy) (drawn : Text → Option (RepositoryId × ObjectId))
    (phase : Phase) (after : Server) (next : Phase)
    : Prop where
  formed : Formed policy drawn next
  covering : Covering policy after next
  holding : next.holding = none ∨ next.holding = phase.holding

theorem MovesOn.done {drawn : Text → Option (RepositoryId × ObjectId)} {after : Server}
    {result : Except GfsError Unit}
    : MovesOn policy drawn phase after (.done result) :=
  ⟨trivial, trivial, .inl rfl⟩

theorem Sound.run_movesOn (sound : Sound policy watched)
    (flying : watched.server.ops op = some phase) (fault : Fault)
    : MovesOn policy watched.drawn phase
        (watched.server.applied (phase.run policy watched.server fault).1)
        (phase.run policy watched.server fault).2 := by
  have formed := sound.formed op phase flying
  have covering := sound.covering op phase flying
  cases phase with
  | waiting repositoryId next => exact ⟨formed, trivial, .inl rfl⟩
  | createResolve request =>
      simp only [Phase.run, Phase.runCreateResolve, Phase.fail]
      split
      · exact ⟨formed, trivial, .inr rfl⟩
      · exact .done
  | createBegin request =>
      simp only [Phase.run, Phase.runCreateBegin, Phase.fail]
      split
      · exact .done
      · split
        · rename_i lease leases begun
          obtain ⟨_, rfl, rfl⟩ := Leases.beginLease_eq_ok begun
          exact ⟨⟨rfl, formed⟩, trivial, .inr rfl⟩
        · exact .done
  | createAnchor lease =>
      simp only [Phase.run, Phase.runCreateAnchor]
      split
      · exact ⟨formed, trivial, .inr rfl⟩
      · split
        · exact ⟨formed, trivial, .inr rfl⟩
        · exact ⟨formed, trivial, .inr rfl⟩
  | createActivate lease =>
      simp only [Phase.run, Phase.runCreateActivate]
      split
      · exact ⟨formed, trivial, .inr rfl⟩
      · split
        · exact ⟨formed, trivial, .inr rfl⟩
        · exact ⟨formed, trivial, .inr rfl⟩
  | createGrant lease => exact .done
  | createUnanchor lease error =>
      simp only [Phase.run, Phase.runCreateUnanchor]
      split
      · exact ⟨formed, trivial, .inr rfl⟩
      · split
        · exact ⟨formed, trivial, .inr rfl⟩
        · exact ⟨formed, trivial, .inr rfl⟩
  | createForget lease error =>
      simp only [Phase.run, Phase.runCreateForget]
      split
      · exact .done
      · exact .done
  | renewLookup mountId ttl =>
      simp only [Phase.run, Phase.runRenewLookup, Phase.fail]
      split
      · exact .done
      · split
        · exact .done
        · rename_i lease found
          obtain ⟨keyed, born⟩ := sound.rows _ lease found
          refine ⟨⟨rfl, fun _ => trivial, lease.commit, ?_⟩, trivial, .inl rfl⟩
          rw [← keyed]
          exact born.drawn
  | renewExtend repositoryId mountId ttl =>
      simp only [Phase.run, Phase.runRenewExtend, Phase.fail]
      split
      · exact .done
      · split
        · rename_i renewed leases extended
          obtain ⟨row, stored, _, rfl, rfl⟩ := Leases.renewLease_eq_ok extended
          obtain ⟨keyed, born⟩ := sound.rows _ row stored
          obtain ⟨commit, drawn⟩ := formed
          have same := born.drawn
          rw [keyed, drawn] at same
          refine ⟨⟨⟨born.anchorRef, born.drawn⟩, ?_⟩, trivial, .inr rfl⟩
          exact (Prod.mk.inj (Option.some.inj same)).1.symm
        · exact .done
  | renewRead repositoryId renewed =>
      simp only [Phase.run, Phase.runRenewRead, Phase.fail]
      split
      · exact .done
      · split
        · exact .done
        · exact ⟨formed, trivial, .inr rfl⟩
  | renewRepair repositoryId renewed =>
      simp only [Phase.run, Phase.runRenewRepair, Phase.fail]
      split
      · exact .done
      · split
        · exact .done
        · exact .done
  | releaseLookup mountId =>
      simp only [Phase.run, Phase.runReleaseLookup, Phase.fail]
      split
      · exact .done
      · split
        · exact .done
        · rename_i lease found
          obtain ⟨keyed, born⟩ := sound.rows _ lease found
          refine ⟨⟨rfl, fun _ => trivial, lease.commit, ?_⟩, trivial, .inl rfl⟩
          rw [← keyed]
          exact born.drawn
  | releaseMark repositoryId mountId =>
      simp only [Phase.run, Phase.runReleaseMark, Phase.fail]
      split
      · exact .done
      · split
        · exact .done
        · exact .done
  | sweepMark =>
      simp only [Phase.run, Phase.runSweepMark, Phase.fail]
      split
      · exact .done
      · refine ⟨?_, trivial, .inl rfl⟩
        rintro ⟨mountId, anchorRef⟩ listed
        obtain ⟨m, row, stored, _, rfl, rfl⟩ := Leases.mem_prunable listed
        exact (sound.rows m row stored).2.anchorRef
  | sweepNext prunable =>
      simp only [Phase.run]
      cases prunable with
      | nil => exact .done
      | cons entry rest =>
          have named := formed entry List.mem_cons_self
          have others : ∀ other ∈ rest, other.2 = leaseAnchorRef other.1.1 :=
            fun other member => formed other (List.mem_cons_of_mem _ member)
          simp only [Phase.runSweepNext, Phase.fail]
          split
          · exact .done
          · split
            · exact ⟨others, trivial, .inl rfl⟩
            · rename_i lease found
              obtain ⟨keyed, born⟩ := sound.rows _ lease found
              refine ⟨⟨rfl, fun _ => trivial, ⟨lease.commit, ?_⟩, named, others⟩, trivial,
                .inl rfl⟩
              rw [← keyed]
              exact born.drawn
  | sweepUnanchor repositoryId mountId anchorRef rest =>
      obtain ⟨home, _, others⟩ := formed
      simp only [Phase.run, Phase.runSweepUnanchor]
      split
      · exact ⟨⟨home, others⟩, trivial, .inr rfl⟩
      · exact ⟨others, trivial, .inl rfl⟩
      · split
        · exact ⟨⟨home, others⟩, trivial, .inr rfl⟩
        · exact ⟨others, trivial, .inl rfl⟩
  | sweepForget repositoryId mountId rest =>
      simp only [Phase.run, Phase.runSweepForget, Phase.fail]
      split
      · exact .done
      · exact ⟨formed.2, trivial, .inl rfl⟩
  | reconcileRead =>
      simp only [Phase.run, Phase.runReconcileRead, Phase.fail]
      split
      · exact .done
      · refine ⟨?_, trivial, .inl rfl⟩
        intro lease listed
        obtain ⟨m, stored, _⟩ := Leases.mem_unreconciledLeases.mp listed
        exact (sound.rows m lease stored).2
  | reconcileNext leases =>
      simp only [Phase.run]
      cases leases with
      | nil =>
          simp only [Phase.runReconcileNext, Phase.fail]
          split
          · exact .done
          · exact ⟨trivial, trivial, .inl rfl⟩
      | cons lease rest =>
          have others : ∀ other ∈ rest, Born watched.drawn other :=
            fun other member => formed other (List.mem_cons_of_mem _ member)
          exact ⟨⟨rfl, fun _ => trivial, formed lease List.mem_cons_self, others⟩, trivial,
            .inl rfl⟩
  | reconcileOpen lease rest =>
      simp only [Phase.run, Phase.runReconcileOpen]
      split
      · exact ⟨formed.2, trivial, .inl rfl⟩
      · split
        · exact ⟨formed, trivial, .inr rfl⟩
        · exact ⟨formed, trivial, .inr rfl⟩
        · exact ⟨formed.2, trivial, .inl rfl⟩
        · exact ⟨formed.2, trivial, .inl rfl⟩
  | reconcileUnanchor lease rest =>
      simp only [Phase.run, Phase.runReconcileUnanchor, Phase.fail]
      split
      · exact .done
      · split
        · exact ⟨formed, trivial, .inr rfl⟩
        · exact .done
  | reconcileAbandon lease rest =>
      simp only [Phase.run, Phase.runReconcileAbandon, Phase.fail]
      split
      · exact .done
      · exact ⟨formed, trivial, .inr rfl⟩
  | reconcileForget lease rest =>
      simp only [Phase.run, Phase.runReconcileForget, Phase.fail]
      split
      · exact .done
      · exact ⟨formed.2, trivial, .inl rfl⟩
  | reconcileCheck lease rest =>
      simp only [Phase.run, Phase.runReconcileCheck, Phase.fail]
      split
      · exact .done
      · split
        · exact ⟨formed.2, trivial, .inl rfl⟩
        · exact ⟨formed, trivial, .inr rfl⟩
  | reconcileRepair lease rest =>
      simp only [Phase.run, Phase.runReconcileRepair, Phase.fail]
      split
      · exact .done
      · split
        · exact ⟨formed.2, trivial, .inl rfl⟩
        · exact .done
  | orphansNext repositories =>
      cases repositories with
      | nil => exact .done
      | cons repositoryId rest =>
          simp only [Phase.run, Phase.runOrphansNext]
          split
          · exact ⟨trivial, trivial, .inl rfl⟩
          · exact ⟨⟨rfl, fun _ => trivial, trivial⟩, trivial, .inl rfl⟩
  | orphansKnown repositoryId rest =>
      simp only [Phase.run, Phase.runOrphansKnown, Phase.fail]
      split
      · exact .done
      · refine ⟨trivial, ?_, .inr rfl⟩
        intro m row stored here protecting
        exact List.mem_map_of_mem
          (Leases.mem_protectingLeases.mpr ⟨⟨m, stored⟩, here, protecting⟩)
  | orphansList repositoryId known rest =>
      simp only [Phase.run, Phase.runOrphansList, Phase.fail]
      split
      · exact .done
      · refine ⟨?_, ⟨covering, ?_⟩, .inr rfl⟩
        · exact fun name listed => (List.mem_filter.mp listed).2
        · intro name target stored mount
          refine .inr (List.mem_filter.mpr ⟨?_, isReservedRef_of_isMountRef mount⟩)
          have present : (watched.server.refs repositoryId)[name]? = some target := stored
          exact ExtTreeMap.mem_keys.mpr
            (ExtTreeMap.mem_iff_isSome_getElem?.mpr (by rw [present]; rfl))
  | orphansDelete repositoryId known anchors rest =>
      cases anchors with
      | nil => exact ⟨trivial, trivial, .inl rfl⟩
      | cons anchor anchors =>
          have others : ∀ name ∈ anchors, isReservedRef name = true :=
            fun name member => formed name (List.mem_cons_of_mem _ member)
          obtain ⟨covers, complete⟩ := covering
          simp only [Phase.run, Phase.runOrphansDelete, Phase.fail]
          split
          · rename_i listed
            refine ⟨others, ⟨covers, ?_⟩, .inr rfl⟩
            intro name target stored mount
            cases complete name target stored mount with
            | inl kept => exact .inl kept
            | inr left =>
                rcases List.mem_cons.mp left with rfl | later
                · exact .inl (List.contains_iff_mem.mp listed)
                · exact .inr later
          · split
            · exact .done
            · split
              · rename_i refs deleted
                refine ⟨others, ⟨covers, ?_⟩, .inr rfl⟩
                intro name target stored mount
                rw [refs_applied, if_pos rfl, Refs.deleteLeaseAnchor_eq_ok deleted,
                  Refs.erase_getElem?] at stored
                split at stored
                · cases stored
                · rename_i elsewhere
                  cases complete name target stored mount with
                  | inl kept => exact .inl kept
                  | inr left =>
                      rcases List.mem_cons.mp left with rfl | later
                      · exact absurd rfl elsewhere
                      · exact .inr later
              · exact .done
  | done result => exact .done

-- Every step keeps the invariants

theorem isProtecting_antitone {row : Lease} {now later : Int} (passes : now ≤ later)
    (protecting : row.isProtecting later policy = true)
    : row.isProtecting now policy = true := by
  simp only [Lease.isProtecting] at protecting ⊢
  split
  · rfl
  · rename_i ended
    rw [if_neg ended] at protecting
    cases ends : row.terminalAt with
    | none => rw [ends] at protecting; cases protecting
    | some terminalAt =>
        rw [ends] at protecting
        simp only [Option.any_some, decide_eq_true_eq] at protecting ⊢
        omega

theorem Covers.later {server : Server} {repositoryId : RepositoryId} {known : List Text}
    (covers : Covers policy server repositoryId known) (secs : Nat)
    : Covers policy { server with now := server.now + secs } repositoryId known :=
  fun m row stored here protecting =>
    covers m row stored here (isProtecting_antitone (by simp) protecting)

section Drawn

variable {drawn next : Text → Option (RepositoryId × ObjectId)}

theorem Born.mono (grows : ∀ m home, drawn m = some home → next m = some home)
    {lease : Lease} (born : Born drawn lease)
    : Born next lease :=
  ⟨born.anchorRef, grows _ _ born.drawn⟩

/-- Later draws leave what an operation keeps formed. -/
theorem Formed.mono (grows : ∀ m home, drawn m = some home → next m = some home)
    : ∀ {phase : Phase}, Formed policy drawn phase → Formed policy next phase
  | .waiting _ _, ⟨locks, covering, formed⟩ => ⟨locks, covering, Formed.mono grows formed⟩
  | .createResolve _, formed => grows _ _ formed
  | .createBegin _, formed => grows _ _ formed
  | .createAnchor _, formed => Born.mono grows formed
  | .createActivate _, formed => Born.mono grows formed
  | .createGrant _, formed => Born.mono grows formed
  | .createUnanchor _ _, formed => Born.mono grows formed
  | .createForget _ _, formed => Born.mono grows formed
  | .renewLookup _ _, _ => trivial
  | .renewExtend _ _ _, ⟨commit, home⟩ => ⟨commit, grows _ _ home⟩
  | .renewRead _ _, ⟨born, here⟩ => ⟨born.mono grows, here⟩
  | .renewRepair _ _, ⟨born, here⟩ => ⟨born.mono grows, here⟩
  | .releaseLookup _, _ => trivial
  | .releaseMark _ _, ⟨commit, home⟩ => ⟨commit, grows _ _ home⟩
  | .sweepMark, _ => trivial
  | .sweepNext _, formed => formed
  | .sweepUnanchor _ _ _ _, ⟨⟨commit, home⟩, rest⟩ => ⟨⟨commit, grows _ _ home⟩, rest⟩
  | .sweepForget _ _ _, ⟨⟨commit, home⟩, rest⟩ => ⟨⟨commit, grows _ _ home⟩, rest⟩
  | .reconcileRead, _ => trivial
  | .reconcileNext _, formed => fun lease member => (formed lease member).mono grows
  | .reconcileOpen _ _, ⟨born, rest⟩ =>
      ⟨born.mono grows, fun other member => (rest other member).mono grows⟩
  | .reconcileUnanchor _ _, ⟨born, rest⟩ =>
      ⟨born.mono grows, fun other member => (rest other member).mono grows⟩
  | .reconcileAbandon _ _, ⟨born, rest⟩ =>
      ⟨born.mono grows, fun other member => (rest other member).mono grows⟩
  | .reconcileForget _ _, ⟨born, rest⟩ =>
      ⟨born.mono grows, fun other member => (rest other member).mono grows⟩
  | .reconcileCheck _ _, ⟨born, rest⟩ =>
      ⟨born.mono grows, fun other member => (rest other member).mono grows⟩
  | .reconcileRepair _ _, ⟨born, rest⟩ =>
      ⟨born.mono grows, fun other member => (rest other member).mono grows⟩
  | .orphansNext _, _ => trivial
  | .orphansKnown _ _, _ => trivial
  | .orphansList _ _ _, _ => trivial
  | .orphansDelete _ _ _ _, formed => formed
  | .done _, _ => trivial

end Drawn

/-- A pass over a repository's anchors keeps what it knows under another operation's step. -/
theorem Respects.covering {drawn : Text → Option (RepositoryId × ObjectId)}
    {holding : Option RepositoryId} {before after : Server}
    (respects : Respects policy drawn holding before after)
    (elsewhere : ∀ repositoryId, phase.holding = some repositoryId → holding ≠ some repositoryId)
    (covering : Covering policy before phase)
    : Covering policy after phase := by
  have covers
      : ∀ repositoryId known,
          holding ≠ some repositoryId
          → Covers policy before repositoryId known
          → Covers policy after repositoryId known := by
    intro repositoryId known away covers m row stored here protecting
    rw [respects.now] at protecting
    cases respects.rows m row stored with
    | inl inherited =>
        obtain ⟨old, present, _, named, home, _, protected_⟩ := inherited
        rw [named]
        refine covers m old present (home ▸ here) ?_
        cases protected_ protecting with
        | inl before => exact before
        | inr locked =>
            rw [← home, here] at locked
            exact absurd locked away
    | inr begun =>
        rw [here] at begun
        exact absurd begun.1 away
  cases phase with
  | orphansList repositoryId known rest =>
      exact covers repositoryId known (elsewhere repositoryId rfl) covering
  | orphansDelete repositoryId known anchors rest =>
      have away := elsewhere repositoryId rfl
      refine ⟨covers repositoryId known away covering.1, ?_⟩
      intro name target stored mount
      refine covering.2 name target ?_ mount
      by_contra changed
      refine away (respects.refs repositoryId name ?_).1
      rw [stored]
      exact Ne.symm changed
  | _ => trivial

/-- Both stores stay sound under a step that respects its operation's lock. -/
theorem Sound.stores {holding : Option RepositoryId} {after : Server}
    (sound : Sound policy watched)
    (respects : Respects policy watched.drawn holding watched.server after)
    : (∀ (m : Text) (row : Lease),
        after.leases[m]? = some row → row.mountId.1 = m ∧ Born watched.drawn row)
      ∧ ∀ repositoryId name commit,
          (after.refs repositoryId)[name]? = some commit
          → isMountRef name = true
          → ∃ m, name = leaseAnchorRef m ∧ watched.drawn m = some (repositoryId, commit) := by
  constructor
  · intro m row stored
    cases respects.rows m row stored with
    | inl inherited =>
        obtain ⟨old, present, mount, named, home, commit, _⟩ := inherited
        obtain ⟨keyed, born⟩ := sound.rows m old present
        refine ⟨by rw [mount, keyed], ?_, ?_⟩
        · rw [named, mount, born.anchorRef]
        · rw [mount, home, commit, born.drawn]
    | inr begun => exact ⟨begun.2.1, begun.2.2⟩
  · intro repositoryId name commit stored mount
    by_cases same : (after.refs repositoryId)[name]? = (watched.server.refs repositoryId)[name]?
    · rw [same] at stored
      exact sound.anchors repositoryId name commit stored mount
    · exact (respects.refs repositoryId name same).2 commit stored

/-- An operation's step keeps the invariants. -/
theorem Sound.stepped (sound : Sound policy watched)
    (flying : watched.server.ops op = some phase) (fault : Fault)
    : Sound policy
        { watched with server := watched.server.stepped policy op fault phase } := by
  have respects := sound.run_respects flying fault
  have moves := sound.run_movesOn flying fault
  obtain ⟨rows, anchors⟩ := sound.stores respects
  have locks
      : ∀ other phase' repositoryId,
          other ≠ op
          → watched.server.ops other = some phase'
          → phase'.holding = some repositoryId
          → phase.holding ≠ some repositoryId := by
    intro other phase' repositoryId different flying' holds held
    have mine := sound.locks op phase repositoryId flying held
    rw [sound.locks other phase' repositoryId flying' holds] at mine
    exact different (Option.some.inj mine)
  simp only [Server.stepped]
  generalize ran : phase.run policy watched.server fault = result at *
  obtain ⟨effect, next⟩ := result
  have ops : (watched.server.applied effect).ops = watched.server.ops := by
    cases effect <;> rfl
  refine
    { rows := rows, anchors := anchors, locks := ?_, formed := ?_, covering := ?_ }
  · intro other phase' repositoryId flying' holds
    simp only [Function.update_apply] at flying'
    simp only [Server.unlocked]
    split at flying'
    · rename_i here
      subst here
      cases flying'
      cases moves.holding with
      | inl freed => rw [freed] at holds; cases holds
      | inr kept =>
          have held : phase.holding = some repositoryId := by rw [← kept, holds]
          rw [held]
          simp only [holds, if_true]
          exact sound.locks other phase repositoryId flying held
    · rename_i different
      have mine := sound.locks other phase' repositoryId flying' holds
      have away := locks other phase' repositoryId different flying' holds
      cases held : phase.holding with
      | none => exact mine
      | some repo =>
          simp only
          split
          · exact mine
          · rw [Function.update_of_ne, mine]
            rintro rfl
            exact away held
  · intro other phase' flying'
    simp only [Function.update_apply] at flying'
    split at flying'
    · cases flying'
      exact moves.formed
    · exact sound.formed other phase' flying'
  · intro other phase' flying'
    simp only [Function.update_apply] at flying'
    split at flying'
    · cases flying'
      have covering := moves.covering
      cases next <;> exact covering
    · rename_i different
      have covering := respects.covering (locks other phase' · different flying')
        (sound.covering other phase' flying')
      cases phase' <;> exact covering

/-- Taking a lock keeps the invariants. -/
theorem Sound.acquired {repositoryId : RepositoryId} {next : Phase}
    (sound : Sound policy watched)
    (flying : watched.server.ops op = some (.waiting repositoryId next))
    : Sound policy { watched with server := watched.server.acquired op repositoryId next } := by
  obtain ⟨holds, covering, formed⟩ := sound.formed op _ flying
  simp only [Server.acquired]
  split
  · rename_i free
    refine
      { rows := sound.rows, anchors := sound.anchors, locks := ?_, formed := ?_,
        covering := ?_ }
    · intro other phase' repo flying' held
      simp only [Function.update_apply] at flying' ⊢
      split at flying'
      · rename_i here
        cases flying'
        rw [holds] at held
        cases held
        rw [if_pos rfl, here]
      · have mine := sound.locks other phase' repo flying' held
        split
        · rename_i same
          rw [same, free] at mine
          cases mine
        · exact mine
    · intro other phase' flying'
      simp only [Function.update_apply] at flying'
      split at flying'
      · cases flying'
        exact formed
      · exact sound.formed other phase' flying'
    · intro other phase' flying'
      simp only [Function.update_apply] at flying'
      split at flying'
      · cases flying'
        exact covering _
      · have known := sound.covering other phase' flying'
        cases phase' <;> exact known
  · exact sound

/-- An event of a run that draws mount ids once keeps the invariants. -/
theorem Sound.step (sound : Sound policy watched) (event : Event)
    (fresh : DrawsFresh watched event)
    : Sound policy (watched.step policy event) := by
  cases event with
  | tick secs =>
      refine { sound with covering := ?_ }
      intro other phase' flying
      have known := sound.covering other phase' flying
      cases phase' with
      | orphansList repositoryId names rest => exact Covers.later known secs
      | orphansDelete repositoryId names anchors rest =>
          exact ⟨Covers.later known.1 secs, known.2⟩
      | _ => exact trivial
  | crash =>
      refine { sound with locks := ?_, formed := ?_, covering := ?_ }
      · intro _ _ _ flying
        cases flying
      · intro _ _ flying
        cases flying
      · intro _ _ flying
        cases flying
  | writeRef repositoryId name target =>
      simp only [Watched.step, Watched.drawnAfter, Server.after]
      split
      · exact sound
      · rename_i client
        have kept
            : ∀ repo other,
                isMountRef other = true
                → ((Function.update watched.server.refs repositoryId
                      ((watched.server.refs repositoryId).write name target)) repo)[other]?
                  = (watched.server.refs repo)[other]? := by
          intro repo other mount
          have different : name ≠ other := by
            rintro rfl
            exact client mount
          rw [Function.update_apply]
          split
          · rename_i here
            subst here
            exact Refs.write_of_ne different
          · rfl
        refine { sound with anchors := ?_, covering := ?_ }
        · intro repo other commit stored mount
          exact sound.anchors repo other commit ((kept repo other mount).symm.trans stored) mount
        · intro other phase' flying
          have known := sound.covering other phase' flying
          cases phase' with
          | orphansList repo names rest => exact known
          | orphansDelete repo names anchors rest =>
              refine ⟨known.1, ?_⟩
              intro found commit stored mount
              exact known.2 found commit ((kept repo found mount).symm.trans stored) mount
          | _ => exact trivial
  | start op request =>
      cases unused : watched.server.ops op with
      | some phase' =>
          have same : watched.step policy (.start op request) = watched := by
            cases request <;> simp [Watched.step, Watched.drawnAfter, Server.after, unused]
          rw [same]
          exact sound
      | none =>
          have grows
              : ∀ m home,
                  watched.drawn m = some home
                  → (watched.step policy (.start op request)).drawn m = some home := by
            intro m home known
            cases request with
            | createMount request =>
                simp only [Watched.step, Watched.drawnAfter, unused, Function.update_apply]
                split
                · rename_i same
                  rw [same, show watched.drawn request.mountId.1 = none from fresh] at known
                  cases known
                · exact known
            | renewMount mountId ttl => exact known
            | releaseMount mountId => exact known
            | sweep => exact known
            | reconcile => exact known
          have server
              : (watched.step policy (.start op request)).server
                = { watched.server with
                    ops := Function.update watched.server.ops op (some request.first) } := by
            simp only [Watched.step, Server.after, unused]
          have first : Formed policy (watched.step policy (.start op request)).drawn request.first
              ∧ request.first.holding = none := by
            cases request with
            | createMount request =>
                refine ⟨⟨rfl, fun _ => trivial, ?_⟩, rfl⟩
                simp only [Formed, Watched.step, Watched.drawnAfter, unused,
                  Function.update_self]
            | renewMount mountId ttl => exact ⟨trivial, rfl⟩
            | releaseMount mountId => exact ⟨trivial, rfl⟩
            | sweep => exact ⟨trivial, rfl⟩
            | reconcile => exact ⟨trivial, rfl⟩
          refine
            { rows := ?_, anchors := ?_, locks := ?_, formed := ?_, covering := ?_ }
          · intro m row stored
            rw [server] at stored
            obtain ⟨keyed, born⟩ := sound.rows m row stored
            exact ⟨keyed, born.mono grows⟩
          · intro repositoryId name commit stored mount
            rw [server] at stored
            obtain ⟨m, named, home⟩ := sound.anchors repositoryId name commit stored mount
            exact ⟨m, named, grows m _ home⟩
          · intro other phase' repositoryId flying held
            rw [server] at flying ⊢
            simp only [Function.update_apply] at flying
            split at flying
            · cases flying
              rw [first.2] at held
              cases held
            · exact sound.locks other phase' repositoryId flying held
          · intro other phase' flying
            rw [server] at flying
            simp only [Function.update_apply] at flying
            split at flying
            · cases flying
              exact first.1
            · exact (sound.formed other phase' flying).mono grows
          · intro other phase' flying
            rw [server] at flying ⊢
            simp only [Function.update_apply] at flying
            split at flying
            · cases flying
              cases request <;> exact trivial
            · have known := sound.covering other phase' flying
              cases phase' <;> exact known
  | advance op fault =>
      simp only [Watched.step, Watched.drawnAfter, Server.after, Server.advanced]
      cases flying : watched.server.ops op with
      | none => exact sound
      | some phase' =>
          cases phase' with
          | waiting repositoryId next => exact sound.acquired flying
          | _ => exact sound.stepped flying fault

/-- A service that has leased nothing is sound. -/
theorem Watched.Fresh.sound (fresh : watched.Fresh) : Sound policy watched where
  rows := by
    intro m row stored
    rw [fresh.leases] at stored
    cases stored
  anchors := by
    intro repositoryId name commit stored mount
    rw [fresh.anchors repositoryId name mount] at stored
    cases stored
  locks := by
    intro op phase repositoryId flying
    rw [fresh.ops] at flying
    cases flying
  formed := by
    intro op phase flying
    rw [fresh.ops] at flying
    cases flying
  covering := by
    intro op phase flying
    rw [fresh.ops] at flying
    cases flying

-- Refs outside the anchors' namespace

theorem isMountRef_leaseAnchorRef (m : Text) : isMountRef (leaseAnchorRef m) = true :=
  List.isPrefixOf_iff_prefix.mpr (List.prefix_append _ _)

theorem isMountRef_workRef (subject branch : Text)
    : isMountRef (workRef subject branch) = false := by
  by_contra mount
  rw [Bool.not_eq_false, isMountRef, List.isPrefixOf_iff_prefix, mountRefPrefix, workRef,
    workRefRoot, List.append_assoc, List.append_assoc, List.prefix_append_right_inj] at mount
  have first : "mounts/".toList.head? = "work/".toList.head? := by
    obtain ⟨rest, same⟩ := mount
    have heads := congrArg List.head? same
    simpa using heads
  revert first
  decide

/-- The refs an operation's next step may create or delete. -/
def Phase.targets : Phase → List Text
  | .createAnchor lease | .createUnanchor lease _ => [lease.anchorRef]
  | .renewRepair _ renewed => [renewed.anchorRef]
  | .sweepUnanchor _ _ anchorRef _ => [anchorRef]
  | .reconcileUnanchor lease _ | .reconcileRepair lease _ => [lease.anchorRef]
  | .orphansDelete _ _ anchors _ => anchors
  | _ => []

theorem Refs.unchanged_of_ne {refs next : Refs} {anchorRef name : Text}
    (different : anchorRef ≠ name)
    (wrote
      : (∃ commit, refs.createLeaseAnchor anchorRef commit = .ok next)
        ∨ refs.deleteLeaseAnchor anchorRef = .ok next)
    : next[name]? = refs[name]? := by
  cases wrote with
  | inl created =>
      obtain ⟨commit, created⟩ := created
      cases createLeaseAnchor_eq_ok created with
      | inl kept => rw [kept.2]
      | inr put => rw [put.2, insert_getElem?, if_neg different]
  | inr deleted => rw [deleteLeaseAnchor_eq_ok deleted, erase_getElem?, if_neg different]

/-- A step changes no ref but the ones its operation is at. -/
theorem Phase.run_unchanged {server : Server} {fault : Fault} {name : Text}
    (away : name ∉ phase.targets) (repositoryId : RepositoryId)
    : ((server.applied (phase.run policy server fault).1).refs repositoryId)[name]?
      = (server.refs repositoryId)[name]? := by
  have wrote
      : ∀ (repo : RepositoryId) (next : Refs) (anchorRef : Text),
          anchorRef ∈ phase.targets
          → ((∃ commit, (server.refs repo).createLeaseAnchor anchorRef commit = .ok next)
            ∨ (server.refs repo).deleteLeaseAnchor anchorRef = .ok next)
          → ((server.applied (.refs repo next)).refs repositoryId)[name]?
            = (server.refs repositoryId)[name]? := by
    intro repo next anchorRef listed wrote
    rw [refs_applied]
    split
    · rename_i same
      subst same
      refine Refs.unchanged_of_ne ?_ wrote
      rintro rfl
      exact away listed
    · rfl
  cases phase with
  | createAnchor lease =>
      simp only [Phase.run, Phase.runCreateAnchor]
      split
      · rfl
      · split
        · rename_i refs created
          exact wrote _ _ lease.anchorRef (by simp [targets]) (.inl ⟨_, created⟩)
        · rfl
  | createUnanchor lease error =>
      simp only [Phase.run, Phase.runCreateUnanchor]
      split
      · rfl
      · split
        · rename_i refs deleted
          exact wrote _ _ lease.anchorRef (by simp [targets]) (.inr deleted)
        · rfl
  | renewRepair repo renewed =>
      simp only [Phase.run, Phase.runRenewRepair, Phase.fail]
      split
      · rfl
      · split
        · rename_i refs created
          exact wrote _ _ renewed.anchorRef (by simp [targets]) (.inl ⟨_, created⟩)
        · rfl
  | sweepUnanchor repo mountId anchorRef rest =>
      simp only [Phase.run, Phase.runSweepUnanchor]
      split
      · rfl
      · rfl
      · split
        · rename_i refs deleted
          exact wrote _ _ anchorRef (by simp [targets]) (.inr deleted)
        · rfl
  | reconcileUnanchor lease rest =>
      simp only [Phase.run, Phase.runReconcileUnanchor, Phase.fail]
      split
      · rfl
      · split
        · rename_i refs deleted
          exact wrote _ _ lease.anchorRef (by simp [targets]) (.inr deleted)
        · rfl
  | reconcileRepair lease rest =>
      simp only [Phase.run, Phase.runReconcileRepair, Phase.fail]
      split
      · rfl
      · split
        · rename_i refs created
          exact wrote _ _ lease.anchorRef (by simp [targets]) (.inl ⟨_, created⟩)
        · rfl
  | orphansDelete repo known anchors rest =>
      cases anchors with
      | nil => rfl
      | cons anchor anchors =>
          simp only [Phase.run, Phase.runOrphansDelete, Phase.fail]
          split
          · rfl
          · split
            · rfl
            · split
              · rename_i refs deleted
                exact wrote _ _ anchor (by simp [targets]) (.inr deleted)
              · rfl
  | sweepNext prunable =>
      cases prunable with
      | nil => rfl
      | cons entry rest =>
          simp only [Phase.run, Phase.runSweepNext, Phase.fail]
          repeat' split
          all_goals rfl
  | reconcileNext leases =>
      cases leases with
      | nil =>
          simp only [Phase.run, Phase.runReconcileNext, Phase.fail]
          split
          · rfl
          · rfl
      | cons lease rest => rfl
  | orphansNext repositories =>
      cases repositories with
      | nil => rfl
      | cons repo rest =>
          simp only [Phase.run, Phase.runOrphansNext]
          split
          · rfl
          · rfl
  | waiting repo next => rfl
  | done result => rfl
  | createGrant lease => rfl
  | _ =>
      simp only [Phase.run, Phase.runCreateResolve, Phase.runCreateBegin,
        Phase.runCreateActivate, Phase.runCreateForget, Phase.runRenewLookup,
        Phase.runRenewExtend, Phase.runRenewRead, Phase.runReleaseLookup,
        Phase.runReleaseMark, Phase.runSweepMark, Phase.runSweepForget,
        Phase.runReconcileRead, Phase.runReconcileOpen, Phase.runReconcileAbandon,
        Phase.runReconcileForget, Phase.runReconcileCheck, Phase.runOrphansKnown,
        Phase.runOrphansList, Phase.fail]
      repeat' split
      all_goals rfl

end Operations

-- Housekeeping leaves work branches alone

section Statements

variable (policy : LeasePolicy)

/-- An event of the lease operations: every one but another client's write. -/
def Event.isHousekeeping : Event → Bool
  | .writeRef _ _ _ => false
  | _ => true

/-- An event leaves every ref that is not a lease anchor, work refs among them, and a
reconcile deletes exactly the anchors whose lease is unknown or no longer protects: the names
it keeps are those of the leases that protect when it reads them, it deletes no other, and
when a pass over a repository ends no other is left.
-/
structure LeavesWork (watched : Watched) (event : Event) : Prop where
  outside
    : event.isHousekeeping = true
      → ∀ repositoryId name,
          isMountRef name = false
          → ((watched.step policy event).server.refs repositoryId)[name]?
            = (watched.server.refs repositoryId)[name]?
  work
    : event.isHousekeeping = true
      → ∀ repositoryId subject branch,
          ((watched.step policy event).server.refs repositoryId)[workRef subject branch]?
          = (watched.server.refs repositoryId)[workRef subject branch]?
  knows
    : ∀ op repositoryId rest,
        event = .advance op .none
        → watched.server.ops op = some (.orphansKnown repositoryId rest)
        → ∃ known,
            (watched.step policy event).server.ops op
              = some (.orphansList repositoryId known rest)
            ∧ ∀ name,
                name ∈ known
                ↔ ∃ (m : Text) (row : Lease),
                    watched.server.leases[m]? = some row
                    ∧ row.repositoryId = repositoryId
                    ∧ row.isProtecting watched.server.now policy = true
                    ∧ row.anchorRef = name
  deletes
    : ∀ op fault repositoryId known anchors rest,
        event = .advance op fault
        → watched.server.ops op = some (.orphansDelete repositoryId known anchors rest)
        → ∀ repo name target,
            (watched.server.refs repo)[name]? = some target
            → ((watched.step policy event).server.refs repo)[name]? = none
            → repo = repositoryId
              ∧ isMountRef name = true
              ∧ name ∉ known
              ∧ ∀ (m : Text) (row : Lease),
                  watched.server.leases[m]? = some row
                  → row.repositoryId = repositoryId
                  → row.anchorRef = name
                  → row.isProtecting watched.server.now policy = false
  abandons
    : ∀ op fault lease rest,
        event = .advance op fault
        → watched.server.ops op = some (.reconcileUnanchor lease rest)
        → lease.state = .preparing
          ∧ ∀ repo name target,
              (watched.server.refs repo)[name]? = some target
              → ((watched.step policy event).server.refs repo)[name]? = none
              → name = lease.anchorRef
  leaves
    : ∀ op repositoryId known rest,
        watched.server.ops op = some (.orphansDelete repositoryId known [] rest)
        → ∀ name target,
            (watched.server.refs repositoryId)[name]? = some target
            → isMountRef name = true
            → name ∈ known

/-- Where a reconcile lists a repository's reserved refs, all of them are lease anchors. -/
def ListsAnchorsOnly (server : Server) : Event → Prop
  | .advance op _ =>
      match server.ops op with
      | some (.orphansList repositoryId _ _) =>
          ∀ name ∈ (server.refs repositoryId).reservedRefs, isMountRef name = true
      | _ => True
  | _ => True

/-- A mount id is drawn once, and no ref but lease anchors is reserved where a reconcile
lists.
-/
def WithoutWork (watched : Watched) (event : Event) : Prop :=
  DrawsFresh watched event ∧ ListsAnchorsOnly watched.server event

/-- What a reconcile is about to delete: anchors, or the anchor of a lease it read
`PREPARING`.
-/
def Aims : Phase → Prop
  | .waiting _ next => Aims next
  | .reconcileUnanchor lease _ => lease.state = .preparing
  | .orphansDelete _ _ anchors _ => ∀ name ∈ anchors, isMountRef name = true
  | _ => True

end Statements

section Work

variable {policy : LeasePolicy} {watched : Watched} {op : Nat} {phase : Phase}

theorem Aims.first (request : Request) : Aims request.first := by
  cases request <;> trivial

/-- A step aims at anchors only. -/
theorem Aims.run {fault : Fault} (aims : Aims phase)
    (listed
      : ∀ repositoryId known rest,
          phase = .orphansList repositoryId known rest
          → ∀ name ∈ (watched.server.refs repositoryId).reservedRefs, isMountRef name = true)
    : Aims (phase.run policy watched.server fault).2 := by
  cases phase with
  | waiting repositoryId next => exact aims
  | sweepNext prunable =>
      cases prunable with
      | nil => trivial
      | cons entry rest =>
          simp only [Phase.run, Phase.runSweepNext, Phase.fail]
          repeat' split
          all_goals trivial
  | reconcileNext leases =>
      cases leases with
      | nil =>
          simp only [Phase.run, Phase.runReconcileNext, Phase.fail]
          split
          · trivial
          · trivial
      | cons lease rest => trivial
  | reconcileOpen lease rest =>
      simp only [Phase.run, Phase.runReconcileOpen]
      split
      · trivial
      · split
        · rename_i state
          exact state
        · trivial
        · trivial
        · trivial
  | orphansNext repositories =>
      cases repositories with
      | nil => trivial
      | cons repositoryId rest =>
          simp only [Phase.run, Phase.runOrphansNext]
          split
          · trivial
          · trivial
  | orphansList repositoryId known rest =>
      simp only [Phase.run, Phase.runOrphansList, Phase.fail]
      split
      · trivial
      · exact listed repositoryId known rest rfl
  | orphansDelete repositoryId known anchors rest =>
      cases anchors with
      | nil => trivial
      | cons anchor anchors =>
          have others : ∀ name ∈ anchors, isMountRef name = true :=
            fun name member => aims name (List.mem_cons_of_mem _ member)
          simp only [Phase.run, Phase.runOrphansDelete, Phase.fail]
          split
          · exact others
          · split
            · trivial
            · split
              · exact others
              · trivial
  | done result => trivial
  | createGrant lease => trivial
  | _ =>
      simp only [Phase.run, Phase.runCreateResolve, Phase.runCreateBegin,
        Phase.runCreateAnchor, Phase.runCreateActivate, Phase.runCreateUnanchor,
        Phase.runCreateForget, Phase.runRenewLookup, Phase.runRenewExtend,
        Phase.runRenewRead, Phase.runRenewRepair, Phase.runReleaseLookup,
        Phase.runReleaseMark, Phase.runSweepMark, Phase.runSweepUnanchor,
        Phase.runSweepForget, Phase.runReconcileRead, Phase.runReconcileUnanchor,
        Phase.runReconcileAbandon, Phase.runReconcileForget, Phase.runReconcileCheck,
        Phase.runReconcileRepair, Phase.runOrphansKnown, Phase.fail]
      repeat' split
      all_goals trivial

theorem Server.ops_after {server : Server} {event : Event} {other : Nat} {found : Phase}
    (flying : (server.after policy event).ops other = some found)
    : server.ops other = some found
      ∨ (∃ request, event = .start other request ∧ found = request.first)
      ∨ (∃ repositoryId fault,
          event = .advance other fault
          ∧ server.ops other = some (.waiting repositoryId found))
      ∨ ∃ before fault,
          event = .advance other fault
          ∧ server.ops other = some before
          ∧ (∀ repositoryId next, before ≠ .waiting repositoryId next)
          ∧ found = (before.run policy server fault).2 := by
  cases event with
  | tick secs => exact .inl flying
  | crash => cases flying
  | writeRef repositoryId name target =>
      simp only [Server.after] at flying
      split at flying
      · exact .inl flying
      · exact .inl flying
  | start op request =>
      simp only [Server.after] at flying
      split at flying
      · exact .inl flying
      · simp only [Function.update_apply] at flying
        split at flying
        · rename_i same
          cases flying
          exact .inr (.inl ⟨request, by rw [same], rfl⟩)
        · exact .inl flying
  | advance op fault =>
      simp only [Server.after, Server.advanced] at flying
      split at flying
      · exact .inl flying
      · rename_i repositoryId next waits
        simp only [Server.acquired] at flying
        split at flying
        · simp only [Function.update_apply] at flying
          split at flying
          · rename_i same
            cases flying
            subst same
            exact .inr (.inr (.inl ⟨repositoryId, fault, rfl, waits⟩))
          · exact .inl flying
        · exact .inl flying
      · rename_i before busy running
        simp only [Server.stepped, Function.update_apply] at flying
        split at flying
        · rename_i same
          cases flying
          subst same
          exact .inr (.inr (.inr ⟨before, fault, rfl, running, busy, rfl⟩))
        · exact .inl flying

/-- Every ref an operation is at is a lease anchor. -/
theorem Aims.targets {drawn : Text → Option (RepositoryId × ObjectId)} (aims : Aims phase)
    (formed : Formed policy drawn phase)
    : ∀ name ∈ phase.targets, isMountRef name = true := by
  have anchor : ∀ lease, Born drawn lease → isMountRef lease.anchorRef = true := by
    intro lease born
    rw [born.anchorRef]
    exact isMountRef_leaseAnchorRef _
  intro name member
  cases phase with
  | createAnchor lease => exact List.mem_singleton.mp member ▸ anchor lease formed
  | createUnanchor lease error => exact List.mem_singleton.mp member ▸ anchor lease formed
  | renewRepair repositoryId renewed =>
      exact List.mem_singleton.mp member ▸ anchor renewed formed.1
  | sweepUnanchor repositoryId mountId anchorRef rest =>
      rw [List.mem_singleton.mp member, formed.2.1]
      exact isMountRef_leaseAnchorRef _
  | reconcileUnanchor lease rest => exact List.mem_singleton.mp member ▸ anchor lease formed.1
  | reconcileRepair lease rest => exact List.mem_singleton.mp member ▸ anchor lease formed.1
  | orphansDelete repositoryId known anchors rest => exact aims name member
  | _ => cases member

theorem Server.refs_advanced (policy : LeasePolicy) {server : Server} (fault : Fault)
    (flying : server.ops op = some phase)
    (busy : ∀ repositoryId next, phase ≠ .waiting repositoryId next)
    : (server.after policy (.advance op fault)).refs
        = (server.applied (phase.run policy server fault).1).refs
      ∧ (server.after policy (.advance op fault)).ops op
        = some (phase.run policy server fault).2 := by
  simp only [Server.after, Server.advanced, flying]
  cases phase with
  | waiting repositoryId next => exact absurd rfl (busy repositoryId next)
  | _ => exact ⟨rfl, by simp [Server.stepped]⟩

theorem Server.after_unchanged (policy : LeasePolicy) {server : Server} (fault : Fault)
    {name : Text}
    (away : ∀ phase, server.ops op = some phase → name ∉ phase.targets)
    (repositoryId : RepositoryId)
    : ((server.after policy (.advance op fault)).refs repositoryId)[name]?
      = (server.refs repositoryId)[name]? := by
  cases flying : server.ops op with
  | none => simp only [Server.after, Server.advanced, flying]
  | some phase =>
      by_cases waits : ∃ repo next, phase = .waiting repo next
      · obtain ⟨repo, next, rfl⟩ := waits
        simp only [Server.after, Server.advanced, flying, Server.acquired]
        split
        · rfl
        · rfl
      · push Not at waits
        rw [(Server.refs_advanced policy fault flying waits).1]
        exact Phase.run_unchanged (away phase flying) repositoryId

/-- In a sound state whose operations aim at anchors only, an event leaves work alone. -/
theorem Sound.leavesWork (sound : Sound policy watched)
    (aims : ∀ op phase, watched.server.ops op = some phase → Aims phase) (event : Event)
    : LeavesWork policy watched event := by
  have outside
      : event.isHousekeeping = true
        → ∀ repositoryId name,
            isMountRef name = false
            → ((watched.step policy event).server.refs repositoryId)[name]?
              = (watched.server.refs repositoryId)[name]? := by
    intro housekeeping repositoryId name mount
    cases event with
    | tick secs => rfl
    | crash => rfl
    | writeRef repo other target => cases housekeeping
    | start op request =>
        simp only [Watched.step, Server.after]
        split
        · rfl
        · rfl
    | advance op fault =>
        refine Server.after_unchanged policy fault ?_ repositoryId
        intro phase flying listed
        rw [(aims op phase flying).targets (sound.formed op phase flying) name listed] at mount
        cases mount
  refine
    { outside := outside,
      work := fun housekeeping repositoryId subject branch =>
        outside housekeeping repositoryId _ (isMountRef_workRef subject branch),
      knows := ?_, deletes := ?_, abandons := ?_, leaves := ?_ }
  · rintro op repositoryId rest rfl flying
    have moved := (Server.refs_advanced policy .none flying
      (fun _ _ => nofun)).2
    refine ⟨_, moved, ?_⟩
    intro name
    simp only [List.mem_map, Leases.mem_protectingLeases]
    constructor
    · rintro ⟨row, ⟨⟨m, stored⟩, here, protecting⟩, named⟩
      exact ⟨m, row, stored, here, protecting, named⟩
    · rintro ⟨m, row, stored, here, protecting, named⟩
      exact ⟨row, ⟨⟨m, stored⟩, here, protecting⟩, named⟩
  · rintro op fault repositoryId known anchors rest rfl flying repo name target stored gone
    have refs := (Server.refs_advanced policy fault flying
      (fun _ _ => nofun)).1
    have covering := sound.covering op _ flying
    have mounts := aims op _ flying
    simp only [Watched.step, refs] at gone
    cases anchors with
    | nil =>
        rw [show (watched.server.refs repo)[name]? = none from gone] at stored
        cases stored
    | cons anchor anchors =>
        simp only [Phase.run, Phase.runOrphansDelete, Phase.fail] at gone
        split at gone
        · rw [show (watched.server.refs repo)[name]? = none from gone] at stored
          cases stored
        · rename_i unknown
          split at gone
          · rw [show (watched.server.refs repo)[name]? = none from gone] at stored
            cases stored
          · split at gone
            · rename_i next deleted
              rw [refs_applied] at gone
              split at gone
              · rename_i here
                subst here
                rw [Refs.deleteLeaseAnchor_eq_ok deleted, Refs.erase_getElem?] at gone
                split at gone
                · rename_i same
                  subst same
                  have away : anchor ∉ known := fun listed =>
                    unknown (List.contains_iff_mem.mpr listed)
                  refine ⟨rfl, mounts anchor List.mem_cons_self, away, ?_⟩
                  intro m row present home named
                  by_contra protecting
                  rw [Bool.not_eq_false] at protecting
                  exact away (named ▸ covering.1 m row present home protecting)
                · rw [gone] at stored
                  cases stored
              · rw [gone] at stored
                cases stored
            · rw [show (watched.server.refs repo)[name]? = none from gone] at stored
              cases stored
  · rintro op fault lease rest rfl flying
    refine ⟨aims op _ flying, ?_⟩
    intro repo name target stored gone
    by_contra different
    have away : ∀ phase, watched.server.ops op = some phase → name ∉ phase.targets := by
      intro phase flying' listed
      rw [flying] at flying'
      cases flying'
      exact different (List.mem_singleton.mp listed)
    have kept := Server.after_unchanged policy fault away repo
    rw [show ((watched.server.after policy (.advance op fault)).refs repo)[name]? = none from gone,
      stored] at kept
    cases kept
  · intro op repositoryId known rest flying name target stored mount
    cases (sound.covering op _ flying).2 name target stored mount with
    | inl kept => exact kept
    | inr left => cases left

/-- In every run that draws mount ids once and lists no reserved ref but lease anchors, no
event of the lease operations touches a ref outside the anchors' namespace, and a reconcile
deletes exactly the anchors no protecting lease has. Witness: `crashedCreate_leavesWork`.
-/
theorem housekeeping_leaves_work (policy : LeasePolicy) (watched : Watched)
    (events : List Event) (fresh : watched.Fresh)
    (allowed : Runs.Along (Watched.step policy) WithoutWork watched events)
    : Runs.Along (Watched.step policy) (LeavesWork policy) watched events := by
  have aimed : ∀ op phase, watched.server.ops op = some phase → Aims phase := by
    intro op phase flying
    rw [fresh.ops] at flying
    cases flying
  have sound : Sound policy watched := fresh.sound
  clear fresh
  induction events generalizing watched with
  | nil => trivial
  | cons event events ih =>
      obtain ⟨⟨drawsFresh, lists⟩, rest⟩ := allowed
      refine ⟨sound.leavesWork aimed event, ih _ rest ?_ (sound.step event drawsFresh)⟩
      intro op phase flying
      cases Server.ops_after flying with
      | inl kept => exact aimed op phase kept
      | inr moved =>
          cases moved with
          | inl started =>
              obtain ⟨request, _, rfl⟩ := started
              exact .first request
          | inr moved =>
              cases moved with
              | inl locked =>
                  obtain ⟨repositoryId, fault, rfl, waits⟩ := locked
                  have aims := aimed op _ waits
                  exact aims
              | inr ran =>
                  obtain ⟨before, fault, rfl, running, _, rfl⟩ := ran
                  refine (aimed op before running).run ?_
                  rintro repositoryId known rest rfl
                  simpa only [ListsAnchorsOnly, running] using lists

end Work

-- Runs over one repository

section Demo

/-- The policy's recorded values. -/
def adr0006 : LeasePolicy where
  initialTtl := 1800
  renewalGrace := 900
  pruneDelay := 86400
  maxTotalAge := 86400

theorem checkRepositoryId_demo : checkRepositoryId "demo".toList = .ok () := by
  decide

theorem checkSubjectId_alice : checkSubjectId "alice".toList = .ok () := by
  decide

def demoRepository : RepositoryId := ⟨"demo".toList, checkRepositoryId_demo⟩

def demoCommit : ObjectId := ⟨.sha1, List.replicate 20 1⟩

def demoRequest : MountRequest where
  repositoryId := demoRepository
  mountId := ⟨"m-1".toList, by decide⟩
  subject := ⟨"alice".toList, checkSubjectId_alice⟩
  commit := demoCommit
  requestedTtlSecs := none

/-- A service over one repository without refs. -/
def demoServer : Watched where
  server :=
    { now := 0, leases := ∅, repositories := [demoRepository], refs := fun _ => ∅,
      ops := fun _ => none, locks := fun _ => none, granted := [] }
  drawn := fun _ => none

theorem demoServer_fresh : demoServer.Fresh where
  leases := fun _ => ExtTreeMap.getElem?_empty
  anchors := fun _ _ _ => ExtTreeMap.getElem?_empty
  ops := fun _ => rfl
  granted := rfl
  drawn := fun _ => rfl

instance (server : Server) : DecidablePred (ListsAnchorsOnly server)
  | .advance op _ => by
      rw [ListsAnchorsOnly]
      cases server.ops op with
      | none => exact isTrue trivial
      | some phase => cases phase <;> exact inferInstance
  | .tick _ => isTrue trivial
  | .crash => isTrue trivial
  | .writeRef _ _ _ => isTrue trivial
  | .start _ _ => isTrue trivial

instance (watched : Watched) : DecidablePred (WithoutWork watched) :=
  fun _ => inferInstanceAs (Decidable (_ ∧ _))

/-- A creation that crashes after its anchor, and the reconcile that follows. -/
def crashedCreate : List Event :=
  [.start 0 (.createMount demoRequest)] ++ List.replicate 4 (.advance 0 .none)
    ++ [.crash, .start 1 .reconcile] ++ List.replicate 14 (.advance 1 .none)

theorem crashedCreate_leavesWork
    : Runs.Along (Watched.step adr0006) (LeavesWork adr0006) demoServer crashedCreate :=
  housekeeping_leaves_work adr0006 demoServer crashedCreate demoServer_fresh
    (by decide)

/-- A client's commit on a work branch, and a restart up to the deletion of its ref. -/
def restartOverWork : List Event :=
  [.writeRef demoRepository (workRef "alice".toList "topic".toList) (some demoCommit),
    .crash, .start 1 .reconcile] ++ List.replicate 6 (.advance 1 .none)

/-- The reconcile after a restart deletes a work branch. -/
theorem restart_deletes_work
    : demoServer.Fresh
      ∧ Runs.Along (Watched.step adr0006) DrawsFresh demoServer
          (restartOverWork ++ [.advance 1 .none])
      ∧ ¬Runs.Along (Watched.step adr0006) (LeavesWork adr0006) demoServer
          (restartOverWork ++ [.advance 1 .none]) := by
  refine ⟨demoServer_fresh, by decide, ?_⟩
  intro along
  have last := (Runs.Along.append.mp along).2.1.work rfl demoRepository "alice".toList
    "topic".toList
  revert last
  decide

end Demo

end Gfs.Service
