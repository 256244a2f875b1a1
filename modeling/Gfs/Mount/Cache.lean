import Gfs.Lib.Tallies
import Gfs.Types.Error
import Gfs.Types.Oid

/-! The blob cache of one repository (`gfs-mount/src/cache.rs`). Its index and its map of
in-flight fetches are behind locks of their own; a call is a task that takes one step from a lock,
a file operation or an await point to the next, and may be dropped where it awaits.
-/

namespace Gfs.Mount.Cache

open Gfs.Types

-- The index

/-- A published blob. -/
structure Entry where
  size : Nat
  /-- A use counter, not a clock. -/
  lastUsed : Nat
  /-- Open descriptors referencing this blob. -/
  pins : Nat
  deriving DecidableEq, Repr

/-- The entries by hex digest, their bytes and the use counter. -/
structure Index where
  entries : AList fun _ : Text => Entry
  bytes : Nat
  clock : Nat

/-- The published files, by the hex digest that their path spells. -/
abbrev Files := Text → Option Bytes

namespace Index

def empty : Index := ⟨∅, 0, 0⟩

variable (index : Index)

/-- Mark an entry used, returning whether it exists. -/
def touch (hex : Text) : Index × Bool :=
  match index.entries.lookup hex with
  | some entry =>
      ({ index with
          clock := index.clock + 1
          entries := index.entries.insert hex { entry with lastUsed := index.clock + 1 } },
        true)
  | none => ({ index with clock := index.clock + 1 }, false)

/-- Pin an entry for an open handle. `none` where it was evicted meanwhile. -/
def pin (hex : Text) : Index × Bool :=
  match index.entries.lookup hex with
  | some entry =>
      ({ index with
          clock := index.clock + 1
          entries :=
            index.entries.insert hex
              { entry with lastUsed := index.clock + 1, pins := entry.pins + 1 } },
        true)
  | none => ({ index with clock := index.clock + 1 }, false)

/-- Release an open handle's pin. -/
def release (hex : Text) : Index :=
  match index.entries.lookup hex with
  | some entry =>
      { index with entries := index.entries.insert hex { entry with pins := entry.pins - 1 } }
  | none => index

/-- Record a published file. -/
def publish (hex : Text) (size : Nat) : Index where
  clock := index.clock + 1
  entries := index.entries.insert hex ⟨size, index.clock + 1, 0⟩
  bytes :=
    (match index.entries.lookup hex with
      | some previous => index.bytes - previous.size
      | none => index.bytes) + size

/-- Forget an evicted entry. -/
def forget (hex : Text) (size : Nat) : Index where
  clock := index.clock
  entries := index.entries.erase hex
  bytes := index.bytes - size

/-- The unpinned entries with their last use and size, the least recently used first. -/
def candidates : List (Text × Nat × Nat) :=
  ((index.entries.entries.filter (fun row => row.2.pins = 0)).map
    (fun row => (row.1, row.2.lastUsed, row.2.size))).insertionSort
      (fun first second => first.2.1 ≤ second.2.1)

end Index

/-- Evict candidates in turn until the quota is met. A file that cannot be removed keeps its
entry.
-/
def evictLoop (quota : Nat) (removes : Text → Bool)
    : List (Text × Nat × Nat) → Index → Files → Index × Files
  | [], index, files => (index, files)
  | (hex, _, size) :: rest, index, files =>
      if index.bytes ≤ quota then (index, files)
      else
        match files hex with
        | none => evictLoop quota removes rest (index.forget hex size) files
        | some _ =>
            if removes hex then
              evictLoop quota removes rest (index.forget hex size)
                (Function.update files hex none)
            else evictLoop quota removes rest index files

/-- Evict least-recently-used unpinned entries until the quota is met. -/
def evictToQuota (quota : Nat) (removes : Text → Bool) (index : Index) (files : Files)
    : Index × Files :=
  if index.bytes ≤ quota then (index, files)
  else evictLoop quota removes index.candidates index files

-- Opening

/-- A file in a shard of the cache directory. -/
structure Leftover where
  shard : Text
  name : Text
  content : Bytes
  deriving DecidableEq, Repr

def Leftover.hex (file : Leftover) : Text :=
  file.shard ++ file.name

/-- Whether a file is adopted. Another one in a shard is removed. -/
def Leftover.adopted (file : Leftover) : Bool :=
  file.shard.len = 2 && isHex file.shard && isHex file.name

/-- Take ownership of whatever a previous daemon left behind. -/
def adoptExisting (listing : List Leftover) : Index :=
  (listing.filter Leftover.adopted).foldl
    (fun index file =>
      { entries :=
          index.entries.insert file.hex ⟨file.content.length, index.clock + 1, 0⟩
        bytes := index.bytes + file.content.length
        clock := index.clock + 1 })
    .empty

/-- The files of the cache directory once it is opened. -/
def adoptedFiles (listing : List Leftover) : Files := fun hex =>
  ((listing.filter Leftover.adopted).find? (fun file => file.hex = hex)).map Leftover.content

-- Calls

/-- What the cache did to satisfy a read. -/
inductive Hydration where
  | hit
  | fetched
  | coalesced
  deriving DecidableEq, Repr

/-- The calls that go through `ensure`. -/
inductive Kind where
  | openBlob
  | ensureCached
  | read
  deriving DecidableEq, Repr

/-- What a call returns. -/
inductive Reply where
  | opened (hydration : Hydration)
  | cached
  | content (bytes : Bytes)
  deriving DecidableEq, Repr

/-- Where a call stands. -/
inductive Phase where
  | touching
  | registering
  /-- It awaits what another task is fetching. -/
  | waiting (fetcher : Nat)
  /-- It is registered, and awaits the server. -/
  | fetching
  /-- The bytes verified, and the temporary is not written. -/
  | staging (bytes : Bytes)
  | publishing (bytes : Bytes)
  /-- The file is in place, and the index does not know it. -/
  | recording (size : Nat)
  | evicting (size : Nat)
  /-- It is about to leave the in-flight map and to tell who waits. -/
  | finishing (result : Except GfsError Nat)
  | opening (hydration : Hydration)
  | reading
  | done (result : Except GfsError Reply)
  /-- Dropped where it awaited. -/
  | cancelled

/-- A call on an object id. -/
structure Task where
  kind : Kind
  oid : ObjectId
  phase : Phase
  /-- What it has sent to the calls that wait for it. -/
  sent : Option (Except Text Nat)

def Task.hex (task : Task) : Text :=
  toHex task.oid.raw

/-- Where a call stands after `ensure`. -/
def Task.ensured (task : Task) (hydration : Hydration) : Phase :=
  match task.kind with
  | .openBlob => .opening hydration
  | .ensureCached => .done (.ok .cached)
  | .read => .reading

/-- One repository's cache. -/
structure BlobCache where
  quota : Nat
  index : Index
  files : Files
  /-- The temporary files beside the published ones. -/
  temporaries : Text → Option Bytes
  /-- The task that is fetching an object. -/
  inflight : Text → Option Nat

/-- The cache, every call so far and the handles that the callers have open. -/
structure World where
  cache : BlobCache
  tasks : List Task
  handles : Text → Nat

/-- A cache that has just been opened. -/
def World.opened (quota : Nat) (listing : List Leftover) : World where
  cache :=
    { quota
      index := adoptExisting listing
      files := adoptedFiles listing
      temporaries := fun _ => none
      inflight := fun _ => none }
  tasks := []
  handles := fun _ => 0

/-- What the surroundings do at a step: what the server answers, whether a file operation
succeeds, what a failed write leaves and which files can be removed.
-/
structure Surroundings where
  fetched : Except GfsError Bytes
  succeeds : Bool
  leaves : Option Bytes
  removes : Text → Bool

/-- What may happen next. -/
inductive Event where
  | call (kind : Kind) (oid : ObjectId)
  | advance (task : Nat) (surroundings : Surroundings)
  | cancel (task : Nat)
  | release (oid : ObjectId)

/-- Compute the content key of a blob's bytes under the given algorithm. -/
def hashBlob (digests : Digests) (algorithm : HashAlgorithm) (content : Bytes)
    : Except GfsError ObjectId :=
  match digests.blobOid algorithm content with
  | some oid => .ok oid
  | none =>
      .error ⟨.unsupportedRepositoryFormat,
        "SHA-256 repositories are out of scope (ADR 0001)".toList⟩

/-- What arrived is kept only if it hashes to its key. -/
def verified (digests : Digests) (oid : ObjectId) (bytes : Bytes) : Except GfsError Bytes :=
  match hashBlob digests oid.algorithm bytes with
  | .error refusal => .error refusal
  | .ok computed =>
      if computed = oid then .ok bytes
      else
        .error ⟨.internal,
          "blob ".toList ++ oid.toQualified
            ++ " did not verify: the server returned content hashing to ".toList
            ++ computed.toQualified⟩

/-- A call takes its next step. -/
def BlobCache.advance (digests : Digests) (tasks : List Task) (place : Nat) (task : Task)
    (given : Surroundings) (cache : BlobCache)
    : BlobCache × Task :=
  let hex := task.hex
  match task.phase with
  | .touching =>
      let (index, found) := cache.index.touch hex
      ({ cache with index },
        { task with phase := if found then task.ensured .hit else .registering })
  | .registering =>
      match cache.inflight hex with
      | some fetcher => (cache, { task with phase := .waiting fetcher })
      | none =>
          ({ cache with inflight := Function.update cache.inflight hex (some place) },
            { task with phase := .fetching })
  | .waiting fetcher =>
      match tasks[fetcher]?.bind Task.sent with
      | some (.ok _) => (cache, { task with phase := task.ensured .coalesced })
      | some (.error message) =>
          (cache, { task with phase := .done (.error ⟨.unavailable, message⟩) })
      | none => (cache, task)
  | .fetching =>
      match given.fetched with
      | .error refusal => (cache, { task with phase := .finishing (.error refusal) })
      | .ok bytes =>
          match verified digests task.oid bytes with
          | .error refusal => (cache, { task with phase := .finishing (.error refusal) })
          | .ok bytes => (cache, { task with phase := .staging bytes })
  | .staging bytes =>
      if given.succeeds then
        ({ cache with temporaries := Function.update cache.temporaries hex (some bytes) },
          { task with phase := .publishing bytes })
      else
        ({ cache with temporaries := Function.update cache.temporaries hex given.leaves },
          { task with
            phase := .finishing (.error ⟨.internal, "writing a cache temporary".toList⟩) })
  | .publishing bytes =>
      if given.succeeds then
        ({ cache with
            files := Function.update cache.files hex (cache.temporaries hex)
            temporaries := Function.update cache.temporaries hex none },
          { task with phase := .recording bytes.length })
      else
        ({ cache with temporaries := Function.update cache.temporaries hex none },
          { task with
            phase := .finishing (.error ⟨.internal, "publishing a cached blob".toList⟩) })
  | .recording size =>
      ({ cache with index := cache.index.publish hex size }, { task with phase := .evicting size })
  | .evicting size =>
      let (index, files) := evictToQuota cache.quota given.removes cache.index cache.files
      ({ cache with index, files }, { task with phase := .finishing (.ok size) })
  | .finishing result =>
      ({ cache with inflight := Function.update cache.inflight hex none },
        { task with
          sent := some (result.mapError GfsError.message)
          phase :=
            match result with
            | .ok _ => task.ensured .fetched
            | .error refusal => .done (.error refusal) })
  | .opening hydration =>
      let (index, found) := cache.index.pin hex
      ({ cache with index },
        { task with
          phase :=
            .done
              (if found then .ok (.opened hydration)
              else
                .error ⟨.unavailable,
                  "the cached blob was evicted before it could be opened".toList⟩) })
  | .reading =>
      (cache,
        { task with
          phase :=
            .done
              (match cache.files hex with
                | some bytes => .ok (.content bytes)
                | none => .error ⟨.unavailable, "reading a cached blob".toList⟩) })
  | .done _ | .cancelled => (cache, task)

/-- A call that has just opened its blob leaves the caller with a handle. -/
def Task.opens (before after : Task) : Bool :=
  match before.phase, after.phase with
  | .opening _, .done (.ok _) => true
  | _, _ => false

/-- Only a call that awaits is dropped. -/
def Phase.awaits : Phase → Bool
  | .waiting _ | .fetching => true
  | _ => false

/-- The world after an event. -/
def World.step (digests : Digests) (world : World) : Event → World
  | .call kind oid =>
      { world with tasks := world.tasks ++ [⟨kind, oid, .touching, none⟩] }
  | .advance place given =>
      match world.tasks[place]? with
      | none => world
      | some task =>
          let (cache, next) := world.cache.advance digests world.tasks place task given
          { cache
            tasks := world.tasks.set place next
            handles :=
              if task.opens next then
                Function.update world.handles task.hex (world.handles task.hex + 1)
              else world.handles }
  | .cancel place =>
      match world.tasks[place]? with
      | none => world
      | some task =>
          if task.phase.awaits then
            { world with tasks := world.tasks.set place { task with phase := .cancelled } }
          else world
  | .release oid =>
      { world with
        cache := { world.cache with index := world.cache.index.release (toHex oid.raw) }
        handles :=
          Function.update world.handles (toHex oid.raw) (world.handles (toHex oid.raw) - 1) }

end Gfs.Mount.Cache
