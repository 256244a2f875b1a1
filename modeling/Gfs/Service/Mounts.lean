import Gfs.Lib.Runs
import Gfs.Service.Leases

/-! Mount leases over two stores (`gfs-service/src/mounts.rs`): the catalog's lease table and
each repository's refs. An operation is cut at its catalog transactions, its Git calls and
its waits for a repository's lock; any number are in flight, a step of one at a time, and a
crash may fall between any two steps.
-/

namespace Gfs.Service

open Gfs.Types
open Gfs.Lib
open Std (ExtTreeMap)

-- Anchors

/-- A repository's refs. -/
abbrev Refs := ExtTreeMap Text ObjectId compare

/-- Where lease anchors live. -/
def mountRefPrefix : Text := reservedRefPrefix ++ "mounts/".toList

/-- Whether a ref is in the lease anchors' namespace. -/
def isMountRef (name : Text) : Bool :=
  mountRefPrefix.isPrefixOf name

namespace Refs

variable (refs : Refs)

/-- Anchor a commit. An anchor of another commit is never moved. -/
def createLeaseAnchor (anchorRef : Text) (commit : ObjectId) : Except GfsError Refs :=
  if !isReservedRef anchorRef then
    .error (.invalid "a lease anchor must be inside the reserved namespace")
  else
    match refs[anchorRef]? with
    | some existing =>
        if existing = commit then .ok refs
        else
          .error
            ⟨.conflict,
              "a lease anchor with that mount id already exists for another commit".toList⟩
    | none => .ok (refs.insert anchorRef commit)

/-- Delete a ref of the reserved namespace. -/
def deleteLeaseAnchor (anchorRef : Text) : Except GfsError Refs :=
  if !isReservedRef anchorRef then
    .error
      (.invalid "only refs inside the reserved namespace may be deleted through this path")
  else .ok (refs.erase anchorRef)

def readLeaseAnchor (anchorRef : Text) : Option ObjectId :=
  refs[anchorRef]?

/-- Another client's write or deletion of a ref. -/
def write (name : Text) : Option ObjectId → Refs
  | some target => refs.insert name target
  | none => refs.erase name

/-- Every ref of the reserved namespace, in order. -/
def reservedRefs : List Text :=
  refs.keys.filter isReservedRef

end Refs

-- Operations in flight

/-- A `CreateMount` call, with the mount id drawn for it and the commit its selector resolves
to under the lock.
-/
structure MountRequest where
  repositoryId : RepositoryId
  mountId : MountId
  subject : SubjectId
  commit : ObjectId
  requestedTtlSecs : Option Nat

/-- Where an operation stands: its next step, with what it keeps from the earlier ones. -/
inductive Phase where
  /-- Waiting for a repository's lock. -/
  | waiting (repositoryId : RepositoryId) (next : Phase)
  | createResolve (request : MountRequest)
  | createBegin (request : MountRequest)
  | createAnchor (lease : Lease)
  | createActivate (lease : Lease)
  /-- The lease is `ACTIVE`; the capability is signed and returned. -/
  | createGrant (lease : Lease)
  | createUnanchor (lease : Lease) (error : GfsError)
  | createForget (lease : Lease) (error : GfsError)
  | renewLookup (mountId : MountId) (requestedTtlSecs : Option Nat)
  | renewExtend (repositoryId : RepositoryId) (mountId : MountId)
      (requestedTtlSecs : Option Nat)
  | renewRead (repositoryId : RepositoryId) (renewed : Lease)
  | renewRepair (repositoryId : RepositoryId) (renewed : Lease)
  | releaseLookup (mountId : MountId)
  | releaseMark (repositoryId : RepositoryId) (mountId : MountId)
  | sweepMark
  | sweepNext (prunable : List (MountId × Text))
  | sweepUnanchor (repositoryId : RepositoryId) (mountId : MountId) (anchorRef : Text)
      (rest : List (MountId × Text))
  | sweepForget (repositoryId : RepositoryId) (mountId : MountId)
      (rest : List (MountId × Text))
  | reconcileRead
  | reconcileNext (leases : List Lease)
  | reconcileOpen (lease : Lease) (rest : List Lease)
  | reconcileUnanchor (lease : Lease) (rest : List Lease)
  | reconcileAbandon (lease : Lease) (rest : List Lease)
  | reconcileForget (lease : Lease) (rest : List Lease)
  | reconcileCheck (lease : Lease) (rest : List Lease)
  | reconcileRepair (lease : Lease) (rest : List Lease)
  | orphansNext (repositories : List RepositoryId)
  | orphansKnown (repositoryId : RepositoryId) (rest : List RepositoryId)
  | orphansList (repositoryId : RepositoryId) (known : List Text) (rest : List RepositoryId)
  | orphansDelete (repositoryId : RepositoryId) (known anchors : List Text)
      (rest : List RepositoryId)
  | done (result : Except GfsError Unit)

/-- The repository whose lock an operation holds. -/
def Phase.holding : Phase → Option RepositoryId
  | .waiting _ _ => none
  | .createResolve request => some request.repositoryId
  | .createBegin request => some request.repositoryId
  | .createAnchor lease => some lease.repositoryId
  | .createActivate lease => some lease.repositoryId
  | .createGrant lease => some lease.repositoryId
  | .createUnanchor lease _ => some lease.repositoryId
  | .createForget lease _ => some lease.repositoryId
  | .renewLookup _ _ => none
  | .renewExtend repositoryId _ _ => some repositoryId
  | .renewRead repositoryId _ => some repositoryId
  | .renewRepair repositoryId _ => some repositoryId
  | .releaseLookup _ => none
  | .releaseMark repositoryId _ => some repositoryId
  | .sweepMark => none
  | .sweepNext _ => none
  | .sweepUnanchor repositoryId _ _ _ => some repositoryId
  | .sweepForget repositoryId _ _ => some repositoryId
  | .reconcileRead => none
  | .reconcileNext _ => none
  | .reconcileOpen lease _ => some lease.repositoryId
  | .reconcileUnanchor lease _ => some lease.repositoryId
  | .reconcileAbandon lease _ => some lease.repositoryId
  | .reconcileForget lease _ => some lease.repositoryId
  | .reconcileCheck lease _ => some lease.repositoryId
  | .reconcileRepair lease _ => some lease.repositoryId
  | .orphansNext _ => none
  | .orphansKnown repositoryId _ => some repositoryId
  | .orphansList repositoryId _ _ => some repositoryId
  | .orphansDelete repositoryId _ _ _ => some repositoryId
  | .done _ => none

/-- The service and its clients: both stores, the operations in flight, the locks they hold,
and the mounts whose capability a client was given.
-/
structure Server where
  now : Int
  leases : Leases
  repositories : List RepositoryId
  refs : RepositoryId → Refs
  ops : Nat → Option Phase
  locks : RepositoryId → Option Nat
  granted : List Text

/-- What an operation's step changes outside the operation. -/
inductive Effect where
  | nothing
  | catalog (leases : Leases)
  | refs (repositoryId : RepositoryId) (refs : Refs)
  | grant (mountId : MountId)

/-- What can go wrong in a step: its catalog or Git call fails, or the repository cannot be
opened for it.
-/
inductive Fault where
  | none
  | failed
  | unopenable
  deriving DecidableEq

/-- The error of a failed call. -/
def storeError : GfsError := ⟨.internal, "store error".toList⟩

def noSuchMount : GfsError := ⟨.notFound, "no such mount".toList⟩

section Steps

variable (policy : LeasePolicy)

/-- A request is capped, never honoured beyond the policy. -/
def effectiveTtl (requested : Option Nat) : Int :=
  let default_ := policy.initialTtl
  let most := min policy.maxTotalAge default_
  asI64 (max 1 (min (requested.getD default_) (max most 1)))

namespace Server

variable (server : Server)

def applied : Effect → Server
  | .nothing => server
  | .catalog leases => { server with leases }
  | .refs repositoryId refs =>
      { server with refs := Function.update server.refs repositoryId refs }
  | .grant mountId => { server with granted := mountId.1 :: server.granted }

end Server

/-- An operation ends in an error. -/
def Phase.fail (error : GfsError) : Effect × Phase :=
  (.nothing, .done (.error error))

namespace Phase

variable (server : Server) (fault : Fault)

-- create_mount

def runCreateResolve (request : MountRequest) : Effect × Phase :=
  if fault = .none then (.nothing, .createBegin request) else fail storeError

def runCreateBegin (request : MountRequest) : Effect × Phase :=
  if fault ≠ .none then fail storeError
  else
    match server.leases.beginLease server.now request.mountId request.repositoryId
        request.commit request.subject (leaseAnchorRef request.mountId.1)
        (effectiveTtl policy request.requestedTtlSecs) with
    | .ok (lease, leases) => (.catalog leases, .createAnchor lease)
    | .error error => fail error

def runCreateAnchor (lease : Lease) : Effect × Phase :=
  if fault ≠ .none then (.nothing, .createForget lease storeError)
  else
    match (server.refs lease.repositoryId).createLeaseAnchor lease.anchorRef lease.commit with
    | .ok refs => (.refs lease.repositoryId refs, .createActivate lease)
    | .error error => (.nothing, .createForget lease error)

def runCreateActivate (lease : Lease) : Effect × Phase :=
  if fault ≠ .none then (.nothing, .createUnanchor lease storeError)
  else
    match server.leases.activateLease lease.mountId with
    | .ok leases => (.catalog leases, .createGrant lease)
    | .error error => (.nothing, .createUnanchor lease error)

/-- The failure of a rollback step is ignored. -/
def runCreateUnanchor (lease : Lease) (error : GfsError) : Effect × Phase :=
  if fault ≠ .none then (.nothing, .createForget lease error)
  else
    match (server.refs lease.repositoryId).deleteLeaseAnchor lease.anchorRef with
    | .ok refs => (.refs lease.repositoryId refs, .createForget lease error)
    | .error _ => (.nothing, .createForget lease error)

def runCreateForget (lease : Lease) (error : GfsError) : Effect × Phase :=
  if fault ≠ .none then (.nothing, .done (.error error))
  else (.catalog (server.leases.forgetLease lease.mountId), .done (.error error))

-- renew_mount and release_mount

def runRenewLookup (mountId : MountId) (requestedTtlSecs : Option Nat) : Effect × Phase :=
  if fault ≠ .none then fail storeError
  else
    match server.leases.getLease mountId with
    | none => fail noSuchMount
    | some lease =>
        (.nothing, .waiting lease.repositoryId
          (.renewExtend lease.repositoryId mountId requestedTtlSecs))

/-- Renew first: a lease that no longer renews has nothing to repair. -/
def runRenewExtend (repositoryId : RepositoryId) (mountId : MountId)
    (requestedTtlSecs : Option Nat)
    : Effect × Phase :=
  if fault ≠ .none then fail storeError
  else
    match server.leases.renewLease server.now policy mountId
        (effectiveTtl policy requestedTtlSecs) with
    | .ok (renewed, leases) => (.catalog leases, .renewRead repositoryId renewed)
    | .error error => fail error

def runRenewRead (repositoryId : RepositoryId) (renewed : Lease) : Effect × Phase :=
  if fault ≠ .none then fail storeError
  else if (server.refs repositoryId).readLeaseAnchor renewed.anchorRef = some renewed.commit then
    (.nothing, .done (.ok ()))
  else (.nothing, .renewRepair repositoryId renewed)

def runRenewRepair (repositoryId : RepositoryId) (renewed : Lease) : Effect × Phase :=
  if fault ≠ .none then fail storeError
  else
    match (server.refs repositoryId).createLeaseAnchor renewed.anchorRef renewed.commit with
    | .ok refs => (.refs repositoryId refs, .done (.ok ()))
    | .error error => fail error

def runReleaseLookup (mountId : MountId) : Effect × Phase :=
  if fault ≠ .none then fail storeError
  else
    match server.leases.getLease mountId with
    | none => fail noSuchMount
    | some lease =>
        (.nothing, .waiting lease.repositoryId (.releaseMark lease.repositoryId mountId))

def runReleaseMark (mountId : MountId) : Effect × Phase :=
  if fault ≠ .none then fail storeError
  else
    match server.leases.releaseLease server.now mountId with
    | .ok (_, leases) => (.catalog leases, .done (.ok ()))
    | .error error => fail error

-- sweep

def runSweepMark : Effect × Phase :=
  if fault ≠ .none then fail storeError
  else
    let (outcome, leases) := server.leases.sweepLeases server.now policy
    (.catalog leases, .sweepNext outcome.prunable)

def runSweepNext : List (MountId × Text) → Effect × Phase
  | [] => (.nothing, .done (.ok ()))
  | (mountId, anchorRef) :: rest =>
      if fault ≠ .none then fail storeError
      else
        match server.leases.getLease mountId with
        | none => (.nothing, .sweepNext rest)
        | some lease =>
            (.nothing, .waiting lease.repositoryId
              (.sweepUnanchor lease.repositoryId mountId anchorRef rest))

/-- A repository that cannot be opened took its anchors with it. -/
def runSweepUnanchor (repositoryId : RepositoryId) (mountId : MountId) (anchorRef : Text)
    (rest : List (MountId × Text))
    : Effect × Phase :=
  match fault with
  | .unopenable => (.nothing, .sweepForget repositoryId mountId rest)
  | .failed => (.nothing, .sweepNext rest)
  | .none =>
      match (server.refs repositoryId).deleteLeaseAnchor anchorRef with
      | .ok refs => (.refs repositoryId refs, .sweepForget repositoryId mountId rest)
      | .error _ => (.nothing, .sweepNext rest)

def runSweepForget (mountId : MountId) (rest : List (MountId × Text)) : Effect × Phase :=
  if fault ≠ .none then fail storeError
  else (.catalog (server.leases.forgetLease mountId), .sweepNext rest)

-- reconcile

def runReconcileRead : Effect × Phase :=
  if fault ≠ .none then fail storeError
  else (.nothing, .reconcileNext server.leases.unreconciledLeases)

def runReconcileNext : List Lease → Effect × Phase
  | [] => if fault ≠ .none then fail storeError else (.nothing, .orphansNext server.repositories)
  | lease :: rest => (.nothing, .waiting lease.repositoryId (.reconcileOpen lease rest))

/-- The lease is judged by the state it was read in. -/
def runReconcileOpen (lease : Lease) (rest : List Lease) : Effect × Phase :=
  if fault ≠ .none then (.nothing, .reconcileNext rest)
  else
    match lease.state with
    | .preparing => (.nothing, .reconcileUnanchor lease rest)
    | .active => (.nothing, .reconcileCheck lease rest)
    | .released => (.nothing, .reconcileNext rest)
    | .expired => (.nothing, .reconcileNext rest)

def runReconcileUnanchor (lease : Lease) (rest : List Lease) : Effect × Phase :=
  if fault ≠ .none then fail storeError
  else
    match (server.refs lease.repositoryId).deleteLeaseAnchor lease.anchorRef with
    | .ok refs => (.refs lease.repositoryId refs, .reconcileAbandon lease rest)
    | .error error => fail error

def runReconcileAbandon (lease : Lease) (rest : List Lease) : Effect × Phase :=
  if fault ≠ .none then fail storeError
  else
    (.catalog (server.leases.abandonLease server.now lease.mountId), .reconcileForget lease rest)

def runReconcileForget (lease : Lease) (rest : List Lease) : Effect × Phase :=
  if fault ≠ .none then fail storeError
  else (.catalog (server.leases.forgetLease lease.mountId), .reconcileNext rest)

def runReconcileCheck (lease : Lease) (rest : List Lease) : Effect × Phase :=
  if fault ≠ .none then fail storeError
  else if (server.refs lease.repositoryId).readLeaseAnchor lease.anchorRef
      = some lease.commit then
    (.nothing, .reconcileNext rest)
  else (.nothing, .reconcileRepair lease rest)

def runReconcileRepair (lease : Lease) (rest : List Lease) : Effect × Phase :=
  if fault ≠ .none then fail storeError
  else
    match (server.refs lease.repositoryId).createLeaseAnchor lease.anchorRef lease.commit with
    | .ok refs => (.refs lease.repositoryId refs, .reconcileNext rest)
    | .error error => fail error

def runOrphansNext : List RepositoryId → Effect × Phase
  | [] => (.nothing, .done (.ok ()))
  | repositoryId :: rest =>
      if fault ≠ .none then (.nothing, .orphansNext rest)
      else (.nothing, .waiting repositoryId (.orphansKnown repositoryId rest))

def runOrphansKnown (repositoryId : RepositoryId) (rest : List RepositoryId)
    : Effect × Phase :=
  if fault ≠ .none then fail storeError
  else
    let protecting := server.leases.protectingLeases server.now policy repositoryId
    (.nothing, .orphansList repositoryId (protecting.map Lease.anchorRef) rest)

def runOrphansList (repositoryId : RepositoryId) (known : List Text)
    (rest : List RepositoryId)
    : Effect × Phase :=
  if fault ≠ .none then fail storeError
  else
    (.nothing, .orphansDelete repositoryId known (server.refs repositoryId).reservedRefs rest)

def runOrphansDelete (repositoryId : RepositoryId) (known : List Text) (rest : List RepositoryId)
    : List Text → Effect × Phase
  | [] => (.nothing, .orphansNext rest)
  | anchor :: anchors =>
      if known.contains anchor then (.nothing, .orphansDelete repositoryId known anchors rest)
      else if fault ≠ .none then fail storeError
      else
        match (server.refs repositoryId).deleteLeaseAnchor anchor with
        | .ok refs =>
            (.refs repositoryId refs, .orphansDelete repositoryId known anchors rest)
        | .error error => fail error

-- One step

/-- The next step of an operation that waits for nothing. -/
def run : Phase → Effect × Phase
  | .waiting repositoryId next => (.nothing, .waiting repositoryId next)
  | .createResolve request => runCreateResolve fault request
  | .createBegin request => runCreateBegin policy server fault request
  | .createAnchor lease => runCreateAnchor server fault lease
  | .createActivate lease => runCreateActivate server fault lease
  | .createGrant lease => (.grant lease.mountId, .done (.ok ()))
  | .createUnanchor lease error => runCreateUnanchor server fault lease error
  | .createForget lease error => runCreateForget server fault lease error
  | .renewLookup mountId ttl => runRenewLookup server fault mountId ttl
  | .renewExtend repositoryId mountId ttl =>
      runRenewExtend policy server fault repositoryId mountId ttl
  | .renewRead repositoryId renewed => runRenewRead server fault repositoryId renewed
  | .renewRepair repositoryId renewed => runRenewRepair server fault repositoryId renewed
  | .releaseLookup mountId => runReleaseLookup server fault mountId
  | .releaseMark _ mountId => runReleaseMark server fault mountId
  | .sweepMark => runSweepMark policy server fault
  | .sweepNext prunable => runSweepNext server fault prunable
  | .sweepUnanchor repositoryId mountId anchorRef rest =>
      runSweepUnanchor server fault repositoryId mountId anchorRef rest
  | .sweepForget _ mountId rest => runSweepForget server fault mountId rest
  | .reconcileRead => runReconcileRead server fault
  | .reconcileNext leases => runReconcileNext server fault leases
  | .reconcileOpen lease rest => runReconcileOpen fault lease rest
  | .reconcileUnanchor lease rest => runReconcileUnanchor server fault lease rest
  | .reconcileAbandon lease rest => runReconcileAbandon server fault lease rest
  | .reconcileForget lease rest => runReconcileForget server fault lease rest
  | .reconcileCheck lease rest => runReconcileCheck server fault lease rest
  | .reconcileRepair lease rest => runReconcileRepair server fault lease rest
  | .orphansNext repositories => runOrphansNext fault repositories
  | .orphansKnown repositoryId rest => runOrphansKnown policy server fault repositoryId rest
  | .orphansList repositoryId known rest =>
      runOrphansList server fault repositoryId known rest
  | .orphansDelete repositoryId known anchors rest =>
      runOrphansDelete server fault repositoryId known rest anchors
  | .done result => (.nothing, .done result)

end Phase

/-- A call of one of the five operations. -/
inductive Request where
  | createMount (request : MountRequest)
  | renewMount (mountId : MountId) (requestedTtlSecs : Option Nat)
  | releaseMount (mountId : MountId)
  | sweep
  | reconcile

/-- The first step of a call. -/
def Request.first : Request → Phase
  | .createMount request => .waiting request.repositoryId (.createResolve request)
  | .renewMount mountId ttl => .renewLookup mountId ttl
  | .releaseMount mountId => .releaseLookup mountId
  | .sweep => .sweepMark
  | .reconcile => .reconcileRead

/-- What happens next. -/
inductive Event where
  /-- Seconds pass. -/
  | tick (secs : Nat)
  /-- The process dies: operations and locks are gone, both stores stay. -/
  | crash
  /-- A push, a commit or a fetch writes a ref that is not a lease anchor. -/
  | writeRef (repositoryId : RepositoryId) (name : Text) (target : Option ObjectId)
  /-- A call under an unused number. -/
  | start (op : Nat) (request : Request)
  /-- An operation's next step, or its lock if it is free. -/
  | advance (op : Nat) (fault : Fault)

namespace Server

variable (server : Server)

/-- Locks after an operation moved on. -/
def unlocked (phase next : Phase) : RepositoryId → Option Nat :=
  match phase.holding with
  | none => server.locks
  | some repositoryId =>
      if next.holding = some repositoryId then server.locks
      else Function.update server.locks repositoryId none

/-- An operation's step. -/
def stepped (op : Nat) (fault : Fault) (phase : Phase) : Server :=
  let (effect, next) := phase.run policy server fault
  { server.applied effect with
    ops := Function.update server.ops op (some next), locks := server.unlocked phase next }

/-- An operation takes the lock it waits for. -/
def acquired (op : Nat) (repositoryId : RepositoryId) (next : Phase) : Server :=
  if server.locks repositoryId = none then
    { server with
      ops := Function.update server.ops op (some next),
      locks := Function.update server.locks repositoryId (some op) }
  else server

def advanced (op : Nat) (fault : Fault) : Server :=
  match server.ops op with
  | none => server
  | some (.waiting repositoryId next) => server.acquired op repositoryId next
  | some phase => server.stepped policy op fault phase

def after (server : Server) : Event → Server
  | .tick secs => { server with now := server.now + secs }
  | .crash => { server with ops := fun _ => none, locks := fun _ => none }
  | .writeRef repositoryId name target =>
      if isMountRef name then server
      else
        let refs := (server.refs repositoryId).write name target
        { server with refs := Function.update server.refs repositoryId refs }
  | .start op request =>
      match server.ops op with
      | some _ => server
      | none => { server with ops := Function.update server.ops op (some request.first) }
  | .advance op fault => server.advanced policy op fault

end Server

end Steps

end Gfs.Service
