import Gfs.Overlay.Merge

/-! The overlay's in-memory state and the commit that moves it (`gfs-overlay/src/lib.rs`,
`Inner` and `commit_with`; `journal.rs`, `Change` and `VanishedDelta`). The content store's
files are part of the state: `files` maps a content id to the bytes of its file.
-/

namespace Gfs.Overlay

open Gfs.Types
open Std (ExtTreeMap ExtTreeSet)

/-- Where overlay inode numbers start. -/
def overlayInoBase : Nat := 2 ^ 48

/-- How many vanished names are kept before the answer becomes "rescan everything". -/
def vanishedLimit : Nat := 4096

structure OverlayConfig where
  quotaBytes : Nat
  maxRenameEntries : Nat
  deriving DecidableEq, Repr

/-- The overlay: its rows with the indexes over them, its allocators and clock, what the
fsmonitor hook is told, and the content files.
-/
structure Overlay where
  config : OverlayConfig
  snapshotTime : Timestamp
  entries : Rows
  children : ExtTreeMap BytePath (ExtTreeSet Bytes compare) compare
  byContent : ExtTreeMap Nat BytePath compare
  nextIno : Nat
  nextContentId : Nat
  localBytes : Nat
  clock : Timestamp
  vanished : ExtTreeSet BytePath compare
  vanishedOverflow : Bool
  rootTimes : Option (Timestamp × Timestamp)
  dirty : ExtTreeSet Nat compare
  unsynced : ExtTreeSet Nat compare
  writers : ExtTreeMap Nat Nat compare
  sequence : Nat
  instanceId : Nat
  stamps : ExtTreeMap BytePath Nat compare
  files : ExtTreeMap Nat Bytes compare

/-- A new overlay, opened over an empty journal. -/
def Overlay.opened (config : OverlayConfig) (snapshotTime : Timestamp) : Overlay where
  config
  snapshotTime
  entries := ∅
  children := ∅
  byContent := ∅
  nextIno := overlayInoBase
  nextContentId := 1
  localBytes := 0
  clock := snapshotTime
  vanished := ∅
  vanishedOverflow := false
  rootTimes := none
  dirty := ∅
  unsynced := ∅
  writers := ∅
  sequence := 0
  instanceId := 1
  stamps := ∅
  files := ∅

/-- One atomic edit to the journal. -/
inductive Change where
  | put (entry : OverlayEntry)
  | delete (path : BytePath)
  deriving DecidableEq, Repr

/-- The write a change makes to the map of rows. -/
def Change.write : Change → BytePath × Option OverlayEntry
  | .put entry => (entry.path, some entry)
  | .delete path => (path, none)

/-- What one transaction did to the vanished set. -/
structure VanishedDelta where
  /-- Paths whose row this transaction removes without leaving a whiteout. -/
  gone : List BytePath
  /-- Paths this transaction gives a row back to. -/
  returned : List BytePath

/-- Derive the delta from a change list. -/
def VanishedDelta.of (changes : List Change) : VanishedDelta :=
  changes.foldl
    (fun delta change =>
      match change with
      | .put entry =>
          {
            gone := delta.gone.filter (· != entry.path)
            returned := delta.returned ++ [entry.path]
          }
      | .delete path =>
          {
            gone := delta.gone ++ [path]
            returned := delta.returned.filter (· != path)
          })
    ⟨[], []⟩

/-- Drop a content id's owner only if it is still the path being removed. -/
def releaseContent (index : ExtTreeMap Nat BytePath compare) (id : Nat) (path : BytePath)
    : ExtTreeMap Nat BytePath compare :=
  if index[id]? = some path then index.erase id else index

namespace Overlay

/-- The content index after a row is put: the content it replaces is released, unless it is
the same, and its own content now belongs to its path.
-/
def recordContent (index : ExtTreeMap Nat BytePath compare) (previous : Option Nat)
    (entry : OverlayEntry)
    : ExtTreeMap Nat BytePath compare :=
  let index :=
    match previous with
    | some id =>
        if some id ≠ entry.content.localId then releaseContent index id entry.path else index
    | none => index
  match entry.content.localId with
  | some id => index.insert id entry.path
  | none => index

/-- The local bytes once the row at a path, if it has local content, no longer counts. -/
def bytesWithout (overlay : Overlay) (path : BytePath) : Nat :=
  overlay.localBytes
    - (overlay.entries[path]?.filter (·.content.localId.isSome)).elim 0 OverlayEntry.size

/-- The local bytes once a row stands at its path. -/
def bytesWith (overlay : Overlay) (entry : OverlayEntry) : Nat :=
  if entry.content.localId.isSome then
    saturatingAdd (overlay.bytesWithout entry.path) entry.size
  else overlay.bytesWithout entry.path

/-- The index of children without a row's name. -/
def removeChild (children : ExtTreeMap BytePath (ExtTreeSet Bytes compare) compare)
    (previous : OverlayEntry)
    : ExtTreeMap BytePath (ExtTreeSet Bytes compare) compare :=
  match children[previous.parent]? with
  | some names => children.insert previous.parent (names.erase previous.name)
  | none => children

/-- The memory half of one change. -/
def applyChange (stamp : Bool) (overlay : Overlay) : Change → Overlay
  | .put entry =>
      {
        overlay with
        stamps :=
          if stamp then overlay.stamps.insert entry.path overlay.sequence
          else overlay.stamps
        localBytes := overlay.bytesWith entry
        byContent :=
          recordContent overlay.byContent
            (overlay.entries[entry.path]?.bind (·.content.localId)) entry
        -- The row the journal now holds is the one memory holds.
        dirty := entry.content.localId.elim overlay.dirty (overlay.dirty.erase ·)
        children :=
          overlay.children.insert entry.parent
            ((overlay.children[entry.parent]?.getD ∅).insert entry.name)
        entries := overlay.entries.insert entry.path entry
      }
  | .delete path =>
      let previous := overlay.entries[path]?
      let released := previous.bind (·.content.localId)
      {
        overlay with
        stamps :=
          if stamp then overlay.stamps.insert path overlay.sequence else overlay.stamps
        localBytes := overlay.bytesWithout path
        byContent := released.elim overlay.byContent (releaseContent overlay.byContent · path)
        dirty := released.elim overlay.dirty (overlay.dirty.erase ·)
        children := previous.elim overlay.children (removeChild overlay.children)
        entries := overlay.entries.erase path
      }

/-- The vanished set and the stamps of what enters it. -/
def applyVanished (stamp : Bool) (overlay : Overlay) (delta : VanishedDelta) (overflow : Bool)
    : Overlay :=
  {
    overlay with
    vanished :=
      if overflow then ∅
      else delta.gone.foldl (·.insert ·) (delta.returned.foldl (·.erase ·) overlay.vanished)
    vanishedOverflow := overflow
    stamps :=
      if stamp && !overflow then
        delta.gone.foldl (fun stamps path => stamps.insert path overlay.sequence)
          overlay.stamps
      else overlay.stamps
  }

/-- Remove released content files, after the commit. -/
def releaseFiles (overlay : Overlay) (release : List Nat) : Overlay :=
  {
    overlay with
    unsynced := release.foldl (·.erase ·) overlay.unsynced
    files := release.foldl (·.erase ·) overlay.files
  }

/-- Commit a change set: journal first, memory second, released content last. The journal's
transaction succeeds; `stamp` says whether fsmonitor is told.
-/
def commitWith (overlay : Overlay) (changes : List Change) (release : List Nat)
    (rootTimes : Option (Timestamp × Timestamp)) (stamp : Bool)
    : Overlay :=
  let delta := VanishedDelta.of changes
  let overflow :=
    overlay.vanishedOverflow || overlay.vanished.size + delta.gone.length > vanishedLimit
  let overlay :=
    {
      overlay with
      sequence := if stamp then overlay.sequence + 1 else overlay.sequence
      rootTimes := rootTimes.or overlay.rootTimes
    }
  let overlay := overlay.applyVanished stamp delta overflow
  let overlay := changes.foldl (applyChange stamp) overlay
  overlay.releaseFiles release

def commit (overlay : Overlay) (changes : List Change) (release : List Nat)
    (rootTimes : Option (Timestamp × Timestamp))
    : Overlay :=
  overlay.commitWith changes release rootTimes true

/-- Read the overlay clock: one reading of the host's clock, pushed past the base and past
the last time issued.
-/
def nextTime (overlay : Overlay) (host : Timestamp) : Timestamp × Overlay :=
  let time := overlayTime host overlay.snapshotTime (some overlay.clock)
  (time, { overlay with clock := time })

/-- Take the caller's number, or allocate one if it did not supply one. -/
def adoptIno (overlay : Overlay) (ino : Nat) : Nat × Overlay :=
  (if ino = 0 then overlay.nextIno else ino,
    {
      overlay with
      nextIno := if ino = 0 then overlay.nextIno + 1 else overlay.nextIno
    })

def allocateContentId (overlay : Overlay) : Nat × Overlay :=
  (overlay.nextContentId, { overlay with nextContentId := overlay.nextContentId + 1 })

def checkQuota (overlay : Overlay) (added : Nat) : Except Condition Unit :=
  if saturatingAdd overlay.localBytes added > overlay.config.quotaBytes then
    .error .quotaExceeded
  else .ok ()

end Overlay

end Gfs.Overlay
