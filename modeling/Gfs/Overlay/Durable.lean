import Gfs.Overlay.Commit
import Gfs.Overlay.Operations

/-! The overlay with its journal (`gfs-overlay/src/lib.rs`, `journal.rs`). Every mutation is
attempted in memory, written to the journal in one transaction that may fail, and only then
applied to memory. `rebind` moves the overlay to another base and `reopen` recovers it from
what a process left behind.
-/

namespace Gfs.Overlay

open Gfs.Types
open Gfs.Lib.Overwrites
open Std (ExtTreeMap ExtTreeSet)

-- The journal

/-- What the journal's tables hold. -/
structure Journal where
  rows : Rows
  vanished : ExtTreeSet BytePath compare
  vanishedOverflow : Bool
  rootTimes : Option (Timestamp × Timestamp)
  nextIno : Nat
  nextContentId : Nat
  instanceId : Nat

/-- A journal no process has written to. -/
def Journal.fresh : Journal where
  rows := ∅
  vanished := ∅
  vanishedOverflow := false
  rootTimes := none
  nextIno := overlayInoBase
  nextContentId := 1
  instanceId := 0

/-- Apply a mutation atomically, advancing the persisted allocators with it. -/
def Journal.apply (journal : Journal) (changes : List Change) (delta : VanishedDelta)
    (overflow : Bool) (nextIno nextContentId : Nat)
    (rootTimes : Option (Timestamp × Timestamp))
    : Journal :=
  {
    journal with
    rows := overwrite journal.rows (changes.map Change.write)
    vanished :=
      if overflow then ∅
      else delta.gone.foldl (·.insert ·) (delta.returned.foldl (·.erase ·) journal.vanished)
    vanishedOverflow := overflow || journal.vanishedOverflow
    rootTimes := rootTimes.or journal.rootTimes
    nextIno
    nextContentId
  }

/-- Point the journal at a new base, keeping only these rows. The counters are not written. -/
def Journal.rebind (journal : Journal) (keep : List OverlayEntry)
    (rootTimes : Option (Timestamp × Timestamp))
    : Journal :=
  {
    journal with
    rows := overwrite ∅ (keep.map (Change.write ∘ Change.put))
    vanished := ∅
    vanishedOverflow := false
    rootTimes
  }

/-- What a transaction leaves in the journal. -/
def Transaction.journaled (transaction : Transaction) (journal : Journal) : Journal :=
  let delta := VanishedDelta.of transaction.changes
  let memory := transaction.prepared
  journal.apply transaction.changes delta
    (memory.vanishedOverflow || memory.vanished.size + delta.gone.length > vanishedLimit)
    memory.nextIno memory.nextContentId transaction.rootTimes

-- Carrying rows to another base

/-- One kept row: what the new commit has at its path, whether the new commit's children show
through it, whether Git must be told, and the blob it becomes a reference to, if any.
-/
structure Carried where
  path : BytePath
  base : Option BaseFacts
  opaqueDir : Bool
  report : Bool
  rehome : Option ObjectId
  deriving DecidableEq, Repr

/-- The rows a re-pin keeps, planned at `sequence`, and the directories it makes for them. The
plan goes through the rows once and makes only directories it does not keep, so no path is
named twice.
-/
structure Carry where
  rows : List Carried
  directories : List (BytePath × Nat)
  sequence : Nat
  distinct : (rows.map Carried.path ++ directories.map Prod.fst).Nodup
  deriving DecidableEq

namespace Overlay

/-- Whether a row's content file has a writer. -/
def isWritten (overlay : Overlay) (entry : OverlayEntry) : Bool :=
  entry.content.localId.any (fun id => overlay.writers[id]?.any (· > 0))

/-- A row as a re-pin keeps it; `none` when the overlay has no such row any more. -/
def keptEntry (overlay : Overlay) (row : Carried) : Option OverlayEntry :=
  overlay.entries[row.path]?.map (fun entry =>
    let kept := { entry with base := row.base, opaqueDir := row.opaqueDir }
    match row.rehome with
    | some oid =>
        if overlay.isWritten entry then kept
        else { kept with content := .base oid, renamedFrom := none }
    | none => kept)

/-- The directories made for kept rows, each under a number and a time of its own. -/
def madeDirectories (clock : Nat → Timestamp)
    : Overlay → List (BytePath × Nat) → List OverlayEntry × Overlay
  | overlay, [] => ([], overlay)
  | overlay, (path, ino) :: rest =>
      let (ino, overlay) := overlay.adoptIno ino
      let (now, overlay) := overlay.nextTime (clock rest.length)
      let (made, overlay) := madeDirectories clock overlay rest
      ({
          path
          present := true
          kind := .directory
          opaqueDir := true
          ino
          content := .none
          symlinkTarget := none
          size := 0
          mtime := now
          ctime := now
          renamedFrom := none
          base := none
        } :: made,
        overlay)

/-- What a re-pin keeps, with the paths Git is told about; refused when the overlay moved
since the carry was planned.
-/
def planKept (overlay : Overlay) (clock : Nat → Timestamp)
    : Option Carry → Except Condition (List OverlayEntry × List BytePath) × Overlay
  | none => (.ok ([], []), overlay)
  | some carry =>
      if overlay.sequence ≠ carry.sequence then (.error .invalid, overlay)
      else
        match carry.rows.mapM overlay.keptEntry with
        | none => (.error .invalid, overlay)
        | some kept =>
            let (made, overlay) := madeDirectories clock overlay carry.directories
            (.ok (kept ++ made,
                (carry.rows.filter Carried.report).map Carried.path
                ++ carry.directories.map Prod.fst),
              overlay)

/-- One kept row entered into the cleared indexes. -/
def keepRow (overlay : Overlay) (entry : OverlayEntry) : Overlay :=
  {
    overlay with
    children :=
      overlay.children.insert entry.parent
        ((overlay.children[entry.parent]?.getD ∅).insert entry.name)
    localBytes :=
      if entry.content.localId.isSome then saturatingAdd overlay.localBytes entry.size
      else overlay.localBytes
    byContent :=
      entry.content.localId.elim overlay.byContent (overlay.byContent.insert · entry.path)
    entries := overlay.entries.insert entry.path entry
  }

/-- Memory once the journal is bound to the new base. The copies no row keeps are removed. -/
def rebound (overlay : Overlay) (kept : List OverlayEntry) (report : List BytePath)
    (rootTimes : Option (Timestamp × Timestamp))
    : Overlay :=
  let previous := overlay.byContent.keys
  let overlay :=
    kept.foldl keepRow
      { overlay with entries := ∅, children := ∅, byContent := ∅, localBytes := 0 }
  let live := overlay.byContent
  {
    overlay with
    vanished := ∅
    vanishedOverflow := false
    rootTimes
    stamps := report.foldl (·.insert · 1) ∅
    sequence := if report.isEmpty then 0 else 1
    dirty := ∅
    writers := overlay.writers.filter (fun id _ => live.contains id)
    unsynced := overlay.unsynced.filter (live.contains ·)
    files :=
      (previous.filter (fun id => !live.contains id)).foldl (·.erase ·) overlay.files
  }

-- Writers

/-- Register a writer on a path's content, if the row holds a local copy. -/
def beginWrite (overlay : Overlay) (path : BytePath) : Option OverlayEntry × Overlay :=
  match overlay.entries[path]?.filter (·.present) with
  | none => (none, overlay)
  | some entry =>
      match entry.content.localId with
      | none => (none, overlay)
      | some id =>
          (some entry,
            {
              overlay with
              writers := overlay.writers.insert id (overlay.writers[id]?.getD 0 + 1)
            })

/-- Register a writer on a content id just created for it. -/
def writerOpened (overlay : Overlay) (contentId : Nat) : Overlay :=
  {
    overlay with
    writers := overlay.writers.insert contentId (overlay.writers[contentId]?.getD 0 + 1)
  }

def writerClosed (overlay : Overlay) (contentId : Nat) : Overlay :=
  match overlay.writers[contentId]? with
  | none => overlay
  | some count =>
      {
        overlay with
        writers :=
          if count - 1 = 0 then overlay.writers.erase contentId
          else overlay.writers.insert contentId (count - 1)
      }

/-- Remove a content file no row names any more. -/
def releaseCopy (overlay : Overlay) (contentId : Nat) : Overlay :=
  if overlay.byContent.contains contentId then overlay
  else
    {
      overlay with
      unsynced := overlay.unsynced.erase contentId
      files := overlay.files.erase contentId
    }

end Overlay

-- Operations that may fail

/-- The overlay's operations, with the arguments a caller gives them. -/
inductive Mutation where
  | createFile (path : BytePath) (base : Option BaseFacts) (parent : Parent) (ino : Nat)
      (executable : Bool)
  | mkdir (path : BytePath) (base : Option BaseFacts) (parent : Parent) (ino : Nat)
  | symlink (path : BytePath) (target : Bytes) (base : Option BaseFacts) (parent : Parent)
      (ino : Nat)
  | materialize (path : BytePath) (base : Option BaseFacts) (ino : Nat)
      (source : Option Bytes)
  | writeAt (path : BytePath) (offset : Nat) (data : Bytes)
  | writeContent (contentId offset : Nat) (data : Bytes)
  | refreshContent (contentId size : Nat) (mtime : Timestamp)
  | truncate (path : BytePath) (size : Nat)
  | settleContent (contentId : Nat)
  | adopt (path : BytePath) (base : Option BaseFacts) (ino : Nat)
  | setExecutable (path : BytePath) (base : Option BaseFacts) (ino : Nat) (executable : Bool)
  | setTimes (path : BytePath) (base : Option BaseFacts) (ino : Nat)
      (mtime : Option Timestamp)
  | touchRoot (mtime : Option Timestamp)
  | referenceBase (contentId : Nat) (hashed : OverlayEntry) (oid : ObjectId)
  | remove (path : BytePath) (base : Option BaseFacts) (parent : Parent)
      (expectDir mergedIsEmpty : Bool)
  | rename (source : BytePath) (sourceIno : Nat) (sourceBase : Option BaseFacts)
      (sourceParent : Parent) (target : BytePath) (targetBase : Option BaseFacts)
      (targetParent : Parent) (descendants : List BaseDescendant)
      (targetMergedIsEmpty noReplace : Bool)
  | beginWrite (path : BytePath)
  | writerOpened (contentId : Nat)
  | writerClosed (contentId : Nat)
  | releaseCopy (contentId : Nat)
  | rebind (carry : Option Carry)
  | sync

/-- What an operation meets: the host clock's readings, and whether its content I/O, each of
its journal transactions and the checkpoint succeed.
-/
structure Weather where
  clock : Nat → Timestamp
  contentIo : Bool
  journal : Nat → Bool
  checkpoint : Bool

/-- An overlay in memory over its journal. -/
structure Durable where
  memory : Overlay
  journal : Journal

namespace Durable

/-- Journal first, memory second. -/
def perform {α : Type} (state : Durable) (attempt : Attempt α) (succeeds : Bool)
    : Except Condition α × Durable :=
  match attempt with
  | .refused condition overlay => (.error condition, { state with memory := overlay })
  | .done answer overlay => (.ok answer, { state with memory := overlay })
  | .writes answer transaction =>
      if succeeds then
        (.ok answer, ⟨transaction.committed, transaction.journaled state.journal⟩)
      else (.error .io, { state with memory := transaction.failed })

/-- An operation that journals nothing, unless its content I/O fails. -/
def writeThrough (state : Durable) (contentIo : Bool) (result : Except Condition Nat × Overlay)
    : Except Condition Nat × Durable :=
  match result with
  | (.error condition, overlay) => (.error condition, { state with memory := overlay })
  | (.ok written, overlay) =>
      if contentIo then (.ok written, { state with memory := overlay })
      else (.error .io, state)

/-- The adoption and the change that follows it, each its own transaction. -/
def adoptThen (state : Durable) (weather : Weather) (path : BytePath)
    (base : Option BaseFacts) (ino : Nat) (second : Overlay → OverlayEntry → Attempt OverlayEntry)
    : Except Condition OverlayEntry × Durable :=
  match
    state.perform (state.memory.attemptAdopt (weather.clock 0) path base ino)
      (weather.journal 0)
  with
  | (.error condition, state) => (.error condition, state)
  | (.ok entry, state) => state.perform (second state.memory entry) (weather.journal 1)

/-- Point the overlay at a new base commit, keeping what `carry` keeps. -/
def rebind (state : Durable) (weather : Weather) (carry : Option Carry)
    : Except Condition Unit × Durable :=
  match state.memory.planKept weather.clock carry with
  | (.error condition, memory) => (.error condition, { state with memory })
  | (.ok (kept, report), memory) =>
      let rootTimes := if kept.isEmpty then none else memory.rootTimes
      if weather.journal 0 then
        (.ok (), ⟨memory.rebound kept report rootTimes, state.journal.rebind kept rootTimes⟩)
      else (.error .io, { state with memory })

/-- Force every acknowledged mutation onto stable storage: the rows, then the content files
published since the last sync, then the journal.
-/
def sync (state : Durable) (weather : Weather) : Except Condition Unit × Durable :=
  match state.perform state.memory.attemptSettleAll (weather.journal 0) with
  | (.error condition, state) => (.error condition, state)
  | (.ok (), state) =>
      if !weather.contentIo then (.error .io, state)
      else
        (if weather.checkpoint then .ok () else .error .io,
          { state with memory := { state.memory with unsynced := ∅ } })

private def voided {α : Type} (result : Except Condition α × Durable)
    : Except Condition Unit × Durable :=
  (result.1.map (fun _ => ()), result.2)

/-- One operation. -/
def apply (state : Durable) (weather : Weather)
    : Mutation → Except Condition Unit × Durable
  | .createFile path base parent ino executable =>
      voided (state.perform
        (state.memory.attemptCreateFile weather.contentIo (weather.clock 0) path base parent
          ino executable) (weather.journal 0))
  | .mkdir path base parent ino =>
      voided (state.perform (state.memory.attemptMkdir (weather.clock 0) path base parent ino)
        (weather.journal 0))
  | .symlink path target base parent ino =>
      voided (state.perform
        (state.memory.attemptSymlink (weather.clock 0) path target base parent ino)
        (weather.journal 0))
  | .materialize path base ino source =>
      voided (state.perform
        (state.memory.attemptMaterialize weather.contentIo (weather.clock 0) path base ino
          source) (weather.journal 0))
  | .writeAt path offset data =>
      voided (state.writeThrough weather.contentIo
        (state.memory.writeAt (weather.clock 0) path offset data))
  | .writeContent contentId offset data =>
      voided (state.writeThrough weather.contentIo
        (state.memory.writeContent (weather.clock 0) contentId offset data))
  | .refreshContent contentId size mtime =>
      voided (state.perform
        (state.memory.attemptRefreshContent (weather.clock 0) contentId size mtime)
        (weather.journal 0))
  | .truncate path size =>
      voided (state.perform
        (state.memory.attemptTruncate weather.contentIo (weather.clock 0) path size)
        (weather.journal 0))
  | .settleContent contentId =>
      voided (state.perform (state.memory.attemptSettle contentId) (weather.journal 0))
  | .adopt path base ino =>
      voided (state.perform (state.memory.attemptAdopt (weather.clock 0) path base ino)
        (weather.journal 0))
  | .setExecutable path base ino executable =>
      voided (state.adoptThen weather path base ino (fun overlay entry =>
        overlay.attemptExecutable (weather.clock 1) entry executable))
  | .setTimes path base ino mtime =>
      voided (state.adoptThen weather path base ino (fun overlay entry =>
        overlay.attemptTimes (weather.clock 1) entry mtime))
  | .touchRoot mtime =>
      voided (state.perform (state.memory.attemptTouchRoot (weather.clock 0) mtime)
        (weather.journal 0))
  | .referenceBase contentId hashed oid =>
      voided (state.perform (state.memory.attemptReferenceBase contentId hashed oid)
        (weather.journal 0))
  | .remove path base parent expectDir mergedIsEmpty =>
      voided (state.perform
        (state.memory.attemptRemove (weather.clock 0) (weather.clock 1) path base parent
          expectDir mergedIsEmpty) (weather.journal 0))
  | .rename source sourceIno sourceBase sourceParent target targetBase targetParent
      descendants targetMergedIsEmpty noReplace =>
      voided (state.perform
        (state.memory.attemptRename (weather.clock 0) source sourceIno sourceBase sourceParent
          target targetBase targetParent descendants targetMergedIsEmpty noReplace)
        (weather.journal 0))
  | .beginWrite path => (.ok (), { state with memory := (state.memory.beginWrite path).2 })
  | .writerOpened contentId =>
      (.ok (), { state with memory := state.memory.writerOpened contentId })
  | .writerClosed contentId =>
      (.ok (), { state with memory := state.memory.writerClosed contentId })
  | .releaseCopy contentId =>
      (.ok (), { state with memory := state.memory.releaseCopy contentId })
  | .rebind carry => state.rebind weather carry
  | .sync => state.sync weather

end Durable

-- Opening

/-- What opening meets: how it is configured, the content files' modification times, and the
host clock's readings. A process that cannot open the overlay serves nothing from it.
-/
structure Recovery where
  config : OverlayConfig
  snapshotTime : Timestamp
  fileTime : Nat → Option Timestamp
  clock : Nat → Timestamp

/-- The clock opening starts from: no earlier than any time a row or the root carries. -/
def Recovery.seed (recovery : Recovery) (journal : Journal) : Timestamp :=
  let rows :=
    (journal.rows.toList.map Prod.snd).foldl
      (fun clock entry => (clock.max entry.mtime).max entry.ctime) recovery.snapshotTime
  journal.rootTimes.elim rows (fun times => (rows.max times.1).max times.2)

/-- A content file's modification time as opening reads it. -/
def Recovery.readBack (recovery : Recovery) (entry : OverlayEntry) (id : Nat) : Timestamp :=
  ((recovery.fileTime id).map
    (clampRequestedOverlayTime · recovery.snapshotTime)).getD entry.mtime

/-- The content file is the truth for a local row's size and mtime. `none` when the row agrees
with its file, or there is no file to read.
-/
def Recovery.correction (recovery : Recovery) (files : ExtTreeMap Nat Bytes compare)
    (clock host : Timestamp) (entry : OverlayEntry)
    : Option OverlayEntry :=
  entry.content.localId.bind (fun id =>
    files[id]?.bind (fun file =>
      let fileMtime := recovery.readBack entry id
      if file.length ≠ entry.size ∨ entry.mtime.lt fileMtime then
        some
          {
            entry with
            size := file.length
            mtime := entry.mtime.max fileMtime
            ctime := overlayTime host recovery.snapshotTime (some clock)
          }
      else none))

/-- Read every row back from its file: the rows, the corrected ones among them, and the
clock.
-/
def Recovery.correct (recovery : Recovery) (files : ExtTreeMap Nat Bytes compare)
    : Timestamp → List OverlayEntry → List OverlayEntry × List OverlayEntry × Timestamp
  | clock, [] => ([], [], clock)
  | clock, entry :: rest =>
      match recovery.correction files clock (recovery.clock rest.length) entry with
      | none =>
          let (rows, corrections, clock) := recovery.correct files clock rest
          (entry :: rows, corrections, clock)
      | some corrected =>
          let (rows, corrections, clock) := recovery.correct files corrected.ctime rest
          (corrected :: rows, corrected :: corrections, clock)

/-- The bytes of the content files rows name. -/
def contentBytes (files : ExtTreeMap Nat Bytes compare) (rows : List OverlayEntry) : Nat :=
  (rows.map (fun entry =>
    (entry.content.localId.bind (files[·]?)).elim 0 List.length)).sum

/-- Open the overlay over what the last process left: its journal and its content files. The
sweep removes every file no row names.
-/
def Durable.reopen (journal : Journal) (files : ExtTreeMap Nat Bytes compare)
    (recovery : Recovery)
    : Durable :=
  let loaded := journal.rows.toList.map Prod.snd
  let referenced := loaded.filterMap (·.content.localId)
  let files := files.filter (fun id _ => referenced.contains id)
  let (rows, corrections, clock) := recovery.correct files (recovery.seed journal) loaded
  let nextIno := max journal.nextIno overlayInoBase
  let nextContentId := max journal.nextContentId 1
  let instanceId := (journal.instanceId + 1) % 2 ^ 64
  let opened := { journal with instanceId }
  {
    journal :=
      if corrections.isEmpty then opened
      else
        opened.apply (corrections.map Change.put) ⟨[], []⟩ journal.vanishedOverflow nextIno
          nextContentId none
    memory :=
      {
        rows.foldl Overlay.keepRow
          {
            Overlay.opened recovery.config recovery.snapshotTime with
            nextIno
            nextContentId
            clock
            vanished := journal.vanished
            vanishedOverflow := journal.vanishedOverflow
            rootTimes := journal.rootTimes
            instanceId
            files
          } with
        localBytes := contentBytes files loaded
      }
  }

/-- One thing that happens to an overlay: an operation, or the process stopping between two
operations and another opening what it left.
-/
inductive Event where
  | operation (mutation : Mutation) (weather : Weather)
  | restart (recovery : Recovery)

def Durable.next (state : Durable) : Event → Durable
  | .operation mutation weather => (state.apply weather mutation).2
  | .restart recovery => Durable.reopen state.journal state.memory.files recovery

/-- An overlay opened on a new directory. -/
def Durable.created (recovery : Recovery) : Durable :=
  Durable.reopen Journal.fresh ∅ recovery

end Gfs.Overlay
