import Gfs.Lib.Ordered
import Gfs.Lib.Tallies
import Gfs.Service.Odb

/-! The projected object database (`gfs-mount/src/odb.rs`): blocks of the gateway's files in
sparse local files, the bookkeeping of what is resident, and reads that take one step from a lock,
a file operation or an await point to the next. Arithmetic that overflows stops the thread, which
poisons the lock it holds.
-/

namespace Gfs.Mount.Odb

open Gfs.Types
open Gfs.Lib
open Gfs.Service.Odb

/-- The block size. -/
def block : Nat := 64 * 1024

-- Presence

/-- Bits in words of 64. -/
abbrev Words := List (BitVec 64)

def bitGet (words : Words) (index : Nat) : Bool :=
  match words[index / 64]? with
  | some word => word &&& (1#64 <<< (index % 64)) ≠ 0#64
  | none => false

def bitSet (words : Words) (index : Nat) : Words :=
  words.modify (index / 64) (fun word => word ||| (1#64 <<< (index % 64)))

def bitClear (words : Words) (index : Nat) : Words :=
  words.modify (index / 64) (fun word => word &&& ~~~(1#64 <<< (index % 64)))

/-- A file of the manifest. -/
structure FileState where
  /-- A dense index into the manifest. -/
  id : Nat
  size : Nat
  /-- One bit per block, set once the block's true bytes are at their offset. -/
  present : Words
  /-- One bit per block, set on first fetch and never cleared. -/
  fetchedEver : Words
  deriving DecidableEq, Repr

namespace FileState

variable (file : FileState)

def has (index : Nat) : Bool :=
  bitGet file.present index

def set (index : Nat) : FileState :=
  { file with present := bitSet file.present index }

/-- A block's true byte length: the last block of a file is usually partial. -/
def blockLen (index : Nat) : Nat :=
  min (file.size - index * block) block

end FileState

-- Residency

/-- One resident block, by its file and its place in it. -/
abbrev BlockKey := Nat × Nat

structure BlockEntry where
  seq : Nat
  len : Nat
  isProtected : Bool
  deriving DecidableEq, Repr

/-- The bookkeeping of resident blocks. Where the limit is zero it is off. -/
structure Residency where
  limit : Nat
  /-- A recency counter; both queues are ordered by it. -/
  seq : Nat
  residentBytes : Nat
  protectedBytes : Nat
  entries : AList fun _ : BlockKey => BlockEntry
  probation : Ordered BlockKey
  protectedQueue : Ordered BlockKey
  /-- Blocks an in-flight read holds. -/
  pins : AList fun _ : BlockKey => Nat

namespace Residency

def new (limit : Nat) : Residency :=
  ⟨limit, 0, 0, 0, ∅, .empty, .empty, ∅⟩

variable (residency : Residency)

def removeQueued (entry : BlockEntry) : Residency :=
  if entry.isProtected then
    { residency with protectedQueue := residency.protectedQueue.remove entry.seq }
  else { residency with probation := residency.probation.remove entry.seq }

/-- A block just became present: it enters probation. -/
def admitBlock (key : BlockKey) (len : Nat) : Residency :=
  if residency.limit = 0 then residency
  else
    let seq := residency.seq + 1
    let admitted :=
      { residency with seq, entries := residency.entries.insert key ⟨seq, len, false⟩ }
    let admitted :=
      match residency.entries.lookup key with
      | some old =>
          { admitted.removeQueued old with residentBytes := residency.residentBytes - old.len }
      | none => admitted
    { admitted with
      probation := admitted.probation.insert seq key
      residentBytes := admitted.residentBytes + len }

/-- Demote protected blocks, the least recent first, while they hold over half the limit. -/
def demoteLoop : Nat → Residency → Residency
  | 0, residency => residency
  | fuel + 1, residency =>
      if residency.protectedBytes > residency.limit / 2 then
        match residency.protectedQueue.rows with
        | [] => residency
        | (oldest, victim) :: _ =>
            let rest :=
              { residency with protectedQueue := residency.protectedQueue.remove oldest }
            match residency.entries.lookup victim with
            | none => demoteLoop fuel rest
            | some demoted =>
                let seq := residency.seq + 1
                demoteLoop fuel
                  { rest with
                    seq
                    protectedBytes := residency.protectedBytes - demoted.len
                    probation := residency.probation.insert seq victim
                    entries :=
                      residency.entries.insert victim { demoted with isProtected := false, seq } }
      else residency

/-- A resident block was read again: promote it to protected. -/
def touch (key : BlockKey) : Residency :=
  if residency.limit = 0 then residency
  else
    match residency.entries.lookup key with
    | none => residency
    | some entry =>
        let removed := residency.removeQueued entry
        let seq := residency.seq + 1
        let promoted :=
          { removed with
            seq
            protectedBytes :=
              if entry.isProtected then residency.protectedBytes
              else residency.protectedBytes + entry.len
            protectedQueue := removed.protectedQueue.insert seq key
            entries := residency.entries.insert key { entry with isProtected := true, seq } }
        -- Each round takes one row out of the queue.
        demoteLoop promoted.protectedQueue.rows.length promoted

def pin (key : BlockKey) : Residency :=
  { residency with
    pins := residency.pins.insert key ((residency.pins.lookup key).getD 0 + 1) }

def unpin (key : BlockKey) : Residency :=
  match residency.pins.lookup key with
  | none => residency
  | some count =>
      { residency with
        pins :=
          if count - 1 = 0 then residency.pins.erase key
          else residency.pins.insert key (count - 1) }

/-- The next victim: the least recent of probation, then of protected, never a pinned block. -/
def victim : Option BlockKey :=
  ((residency.probation.rows ++ residency.protectedQueue.rows).map Prod.snd).find?
    (fun key => (residency.pins.lookup key).isNone)

def forget (key : BlockKey) : Option (Residency × BlockEntry) :=
  (residency.entries.lookup key).map (fun entry =>
    let removed :=
      { residency with entries := residency.entries.erase key }.removeQueued entry
    ({ removed with
        residentBytes := residency.residentBytes - entry.len
        protectedBytes :=
          if entry.isProtected then residency.protectedBytes - entry.len
          else residency.protectedBytes },
      entry))

def overLimit : Bool :=
  residency.limit > 0 && residency.residentBytes > residency.limit

end Residency

-- The store

/-- What the store has done. -/
structure OdbStats where
  blocksFetched : Nat
  bytesFetched : Nat
  blockHits : Nat
  evictedBlocks : Nat
  refetchedBlocks : Nat
  refetchedBytes : Nat
  deriving DecidableEq, Repr

/-- Everything under the store's one lock, and its counters. -/
structure StoreState where
  files : Text → Option FileState
  /-- From a file's id back to its path. -/
  paths : List Text
  residency : Residency
  stats : OdbStats

/-- The local sparse files: a byte for every offset of a path. -/
abbrev Disk := Text → Nat → UInt8

/-- Write bytes at an offset. -/
def Disk.write (disk : Disk) (path : Text) (start : Nat) (bytes : Bytes) : Disk :=
  Function.update disk path (fun place =>
    if start ≤ place then (bytes[place - start]?).getD (disk path place) else disk path place)

/-- Deallocate a range, which then reads as zeros. -/
def Disk.punchHole (disk : Disk) (path : Text) (start len : Nat) : Disk :=
  Function.update disk path (fun place =>
    if start ≤ place ∧ place < start + len then 0 else disk path place)

/-- The bytes from an offset to another, which is left out. -/
def Disk.read (disk : Disk) (path : Text) (start finish : Nat) : Bytes :=
  (List.range' start (finish - start)).map (disk path)

/-- The manifest's files, none of their blocks present. The ids have 32 bits. -/
def openFiles : List OdbFile → (Text → Option FileState) → List Text
    → (Text → Option FileState) × List Text
  | [], files, paths => (files, paths)
  | file :: rest, files, paths =>
      let words := List.replicate (((file.size + block - 1) / block + 63) / 64) 0#64
      openFiles rest
        (Function.update files file.path
          (some ⟨paths.length % 2 ^ 32, file.size, words, words⟩))
        (paths ++ [file.path])

/-- Open the store on a manifest. -/
def StoreState.open (manifest : List OdbFile) (limit : Nat) : StoreState where
  files := (openFiles manifest (fun _ => none) []).1
  paths := (openFiles manifest (fun _ => none) []).2
  residency := .new limit
  stats := ⟨0, 0, 0, 0, 0, 0⟩

/-- Evict until the residency limit is met, or everything left is pinned. A hole that cannot be
punched leaves the bytes.
-/
def evictLoop (punches : BlockKey → Bool) : Nat → StoreState → Disk → StoreState × Disk
  | 0, state, disk => (state, disk)
  | fuel + 1, state, disk =>
      if state.residency.overLimit then
        match state.residency.victim with
        | none => (state, disk)
        | some key =>
            match state.residency.forget key with
            | none => (state, disk)
            | some (residency, entry) =>
                match state.paths[key.1]? with
                | none => evictLoop punches fuel { state with residency } disk
                | some path =>
                    match state.files path with
                    | none => evictLoop punches fuel { state with residency } disk
                    | some file =>
                        evictLoop punches fuel
                          { state with
                            residency
                            files :=
                              Function.update state.files path
                                (some { file with present := bitClear file.present key.2 })
                            stats :=
                              { state.stats with
                                evictedBlocks := state.stats.evictedBlocks + 1 } }
                          (if punches key then disk.punchHole path (key.2 * block) entry.len
                          else disk)
      else (state, disk)

/-- Each round of the loop forgets an entry. -/
def evictToLimit (punches : BlockKey → Bool) (state : StoreState) (disk : Disk)
    : StoreState × Disk :=
  evictLoop punches state.residency.entries.entries.length state disk

/-- One block of a fetched run is marked: only a transition admits it. -/
def markBlock (path : Text) (state : StoreState) (index : Nat) : StoreState :=
  match state.files path with
  | none => state
  | some file =>
      if file.has index then state
      else
        let marked := file.set index
        let len := marked.blockLen index
        let again := bitGet marked.fetchedEver index
        { state with
          files :=
            Function.update state.files path
              (some
                (if again then marked
                else { marked with fetchedEver := bitSet marked.fetchedEver index }))
          residency := state.residency.admitBlock (file.id, index) len
          stats :=
            if again then
              { state.stats with
                refetchedBlocks := state.stats.refetchedBlocks + 1
                refetchedBytes := state.stats.refetchedBytes + len }
            else state.stats }

-- Reads

/-- What one read cost. -/
structure ReadCost where
  blocksFetched : Nat
  bytesFetched : Nat
  blockHits : Nat
  deriving DecidableEq, Repr

/-- Absent blocks, from one to another. -/
abbrev Run := Nat × Nat

/-- How a read ended. -/
inductive Outcome where
  | ok (bytes : Bytes)
  | failed (refusal : GfsError)
  | cancelled
  | panicked
  deriving DecidableEq, Repr

/-- Where a read stands. -/
inductive Phase where
  /-- It awaits the first of these runs. -/
  | fetching (run : Run) (rest : List Run)
  /-- A run has arrived, and is not in the local file. -/
  | writing (bytes : Bytes) (run : Run) (rest : List Run)
  /-- A run is in the local file, and is not marked. -/
  | marking (bytes : Bytes) (run : Run) (rest : List Run)
  /-- Every block is present, and the local file is not read. -/
  | serving
  /-- Its pins are not released yet. -/
  | releasing (outcome : Outcome)
  | done (outcome : Outcome)
  deriving DecidableEq, Repr

/-- A read of a path. The rest is what it found there at its start. -/
structure Read where
  path : Text
  offset : Nat
  size : Nat
  fileId : Nat
  total : Nat
  first : Nat
  last : Nat
  cost : ReadCost
  phase : Phase
  deriving DecidableEq, Repr

/-- Where the bytes that a read returns end. -/
def Read.finish (read : Read) : Nat :=
  min (read.offset + read.size) read.total

/-- Where a read stands before the first of these runs. -/
def afterRuns : List Run → Phase
  | [] => .serving
  | run :: rest => .fetching run rest

/-- What classifying a read's blocks in turn has found. -/
structure Scan where
  residency : Residency
  runs : List Run
  runStart : Option Nat
  hits : Nat

/-- Pin a block, and count it as a hit or as part of a run. -/
def Scan.visit (file : FileState) (scan : Scan) (index : Nat) : Scan :=
  let pinned := scan.residency.pin (file.id, index)
  if file.has index then
    { residency := pinned.touch (file.id, index)
      runs :=
        match scan.runStart with
        | some start => scan.runs ++ [(start, index - 1)]
        | none => scan.runs
      runStart := none
      hits := scan.hits + 1 }
  else
    { scan with
      residency := pinned
      runStart := some (scan.runStart.getD index) }

/-- Classify the blocks of a read. -/
def classify (file : FileState) (residency : Residency) (first last : Nat)
    : Residency × List Run × Nat :=
  let scan :=
    (List.range' first (last + 1 - first)).foldl (Scan.visit file) ⟨residency, [], none, 0⟩
  (scan.residency,
    match scan.runStart with
    | some start => scan.runs ++ [(start, last)]
    | none => scan.runs,
    scan.hits)

/-- A store over a gateway, and every read so far. -/
structure Projection where
  gateway : Objects
  state : StoreState
  disk : Disk
  /-- A thread has stopped while it held the lock, so everybody else stops at it. -/
  poisoned : Bool
  reads : List Read

/-- A store that has just been opened. -/
def Projection.open (gateway : Objects) (manifest : List OdbFile) (limit : Nat) : Projection :=
  ⟨gateway, .open manifest limit, fun _ _ => 0, false, []⟩

/-- What the surroundings do at a step: how much of the body arrives or why none does, how far a
failing write gets, which holes can be punched and whether the local file can be read.
-/
structure Surroundings where
  arrives : Except GfsError Nat
  writes : Option Nat
  punches : BlockKey → Bool
  serves : Bool

/-- What may happen next. -/
inductive Event where
  | start (path : Text) (offset size : Nat)
  | advance (read : Nat) (surroundings : Surroundings)
  | cancel (read : Nat)
  /-- The gateway's files change. -/
  | sync (gateway : Objects)

/-- Resolve, pin and classify. -/
def Projection.start (projection : Projection) (path : Text) (offset size : Nat)
    : Projection :=
  let add (read : Read) : List Read := projection.reads ++ [read]
  let ended (outcome : Outcome) : Read :=
    ⟨path, offset, size, 0, 0, 0, 0, ⟨0, 0, 0⟩, .done outcome⟩
  if projection.poisoned then { projection with reads := add (ended .panicked) }
  else
    match projection.state.files path with
    | none =>
        { projection with
          reads :=
            add
              (ended
                (.failed
                  ⟨.failedPrecondition,
                    "the object store was repacked; remount".toList⟩)) }
    | some file =>
        if offset ≥ file.size then { projection with reads := add (ended (.ok [])) }
        else
          let finish := min (offset + size) file.size
          if finish = 0 then
            -- `end - 1` overflows while the lock is held.
            { projection with poisoned := true, reads := add (ended .panicked) }
          else
            let first := offset / block
            let last := (finish - 1) / block
            let (residency, runs, hits) :=
              classify file projection.state.residency first last
            { projection with
              state :=
                { projection.state with
                  residency
                  stats :=
                    { projection.state.stats with
                      blockHits := projection.state.stats.blockHits + hits } }
              reads :=
                add
                  ⟨path, offset, size, file.id, file.size, first, last, ⟨0, 0, hits⟩,
                    afterRuns runs⟩ }

/-- The first byte of a run, and its last. -/
def Read.range (read : Read) (run : Run) : Nat × Nat :=
  (run.1 * block, min ((run.2 + 1) * block) read.total - 1)

/-- Mark the blocks of a run and evict. -/
def StoreState.mark (state : StoreState) (disk : Disk) (read : Read) (bytes : Bytes) (run : Run)
    (punches : BlockKey → Bool)
    : StoreState × Disk :=
  let marked :=
    (List.range' run.1 (run.2 + 1 - run.1)).foldl (markBlock read.path) state
  evictToLimit punches
    { marked with
      stats :=
        { marked.stats with
          blocksFetched := marked.stats.blocksFetched + (run.2 - run.1 + 1)
          bytesFetched := marked.stats.bytesFetched + bytes.length } }
    disk

/-- Release the pins of a read. -/
def Residency.release (residency : Residency) (read : Read) : Residency :=
  (List.range' read.first (read.last + 1 - read.first)).foldl
    (fun residency index => residency.unpin (read.fileId, index)) residency

/-- A read takes its next step. -/
def Projection.advance (projection : Projection) (read : Read) (given : Surroundings)
    : StoreState × Disk × Read :=
  let stay := (projection.state, projection.disk)
  match read.phase with
  | .fetching run rest =>
      let answer := do
        let length ← given.arrives
        let body ← readRange projection.gateway read.path (read.range run).1 (read.range run).2
        pure (body.take length)
      match answer with
      | .error refusal => (stay.1, stay.2, { read with phase := .releasing (.failed refusal) })
      | .ok bytes =>
          if bytes.length ≠ (read.range run).2 - (read.range run).1 + 1 then
            (stay.1, stay.2,
              { read with
                phase := .releasing (.failed ⟨.internal, "short odb range".toList⟩) })
          else (stay.1, stay.2, { read with phase := .writing bytes run rest })
  | .writing bytes run rest =>
      match given.writes with
      | none =>
          (stay.1, projection.disk.write read.path (read.range run).1 bytes,
            { read with phase := .marking bytes run rest })
      | some count =>
          (stay.1, projection.disk.write read.path (read.range run).1 (bytes.take count),
            { read with
              phase := .releasing (.failed ⟨.internal, "writing blocks".toList⟩) })
  | .marking bytes run rest =>
      if projection.poisoned then (stay.1, stay.2, { read with phase := .done .panicked })
      else
        let (state, disk) :=
          projection.state.mark projection.disk read bytes run given.punches
        (state, disk,
          { read with
            cost :=
              { read.cost with
                blocksFetched := read.cost.blocksFetched + (run.2 - run.1 + 1)
                bytesFetched := read.cost.bytesFetched + bytes.length }
            phase := afterRuns rest })
  | .serving =>
      (stay.1, stay.2,
        { read with
          phase :=
            .releasing
              (if given.serves then
                .ok (projection.disk.read read.path read.offset read.finish)
              else .failed ⟨.internal, "reading cached blocks".toList⟩) })
  | .releasing outcome =>
      if projection.poisoned then (stay.1, stay.2, { read with phase := .done .panicked })
      else
        ({ projection.state with residency := projection.state.residency.release read },
          stay.2, { read with phase := .done outcome })
  | .done _ => (stay.1, stay.2, read)

/-- The projection after an event. -/
def Projection.step (projection : Projection) : Event → Projection
  | .start path offset size => projection.start path offset size
  | .advance place given =>
      match projection.reads[place]? with
      | none => projection
      | some read =>
          let (state, disk, next) := projection.advance read given
          { projection with state, disk, reads := projection.reads.set place next }
  | .cancel place =>
      match projection.reads[place]? with
      | none => projection
      | some read =>
          match read.phase with
          | .fetching _ _ =>
              { projection with
                reads :=
                  projection.reads.set place { read with phase := .releasing .cancelled } }
          | _ => projection
  | .sync gateway => { projection with gateway }

end Gfs.Mount.Odb
