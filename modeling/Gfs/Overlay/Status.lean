import Gfs.Overlay.Requests

/-! Status: what changed, derived from the journal alone (`gfs-overlay/src/status.rs`).
-/

namespace Gfs.Overlay

open Gfs.Types
open Std (ExtTreeMap ExtTreeSet)

-- The report

inductive ChangeKind where
  | added
  | modified
  | deleted
  /-- A file became a symlink, or a directory a file, and so on. -/
  | typeChanged
  /-- Only the executable bit moved. -/
  | modeChanged
  | renamed
  deriving DecidableEq, Repr

structure StatusChange where
  path : BytePath
  kind : ChangeKind
  /-- Where a renamed path came from. -/
  origin : Option BytePath
  oldMode : Option Nat
  newMode : Option Nat
  oldOid : Option ObjectId
  /-- The Git object id of the workspace's content. -/
  newOid : Option ObjectId
  newSize : Nat
  deriving DecidableEq, Repr

structure Status where
  changes : List StatusChange
  /-- Directories the overlay deleted without a per-file record. -/
  directoryDeletions : List BytePath
  deriving DecidableEq, Repr

/-- Byte-string order, for the sorted lists of a report. -/
def pathLE (left right : BytePath) : Bool :=
  (compare left right).isLE

/-- The change of a row that is not there: a deletion, unless the file was renamed away. A
directory whiteout is not a change in Git's model.
-/
def absentChange (renamedAway : List BytePath) (entry : OverlayEntry) : Option StatusChange :=
  match entry.base with
  | none => none
  | some facts =>
      if facts.kind.isDirLike then none
      else if renamedAway.contains entry.path then none
      else
        some
          {
            path := entry.path
            kind := .deleted
            origin := none
            oldMode := some facts.kind.asMode
            newMode := none
            oldOid := some facts.oid
            newOid := none
            newSize := 0
          }

/-- How a file's row with known base facts differs from them; `none` when it was written and
written back.
-/
def differenceKind (facts : BaseFacts) (kind : OverlayKind) (newOid : ObjectId)
    : Option ChangeKind :=
  if facts.kind.isDirLike
      || (facts.kind == .symlink) != (kind == .symlink) then some .typeChanged
  else if facts.oid ≠ newOid then some .modified
  else if facts.kind.asMode ≠ kind.gitMode then some .modeChanged
  else none

/-- The change of a file's row that is there, given the object id of its content. -/
def presentChange (rows : Rows) (entry : OverlayEntry) (newOid : ObjectId)
    : Option StatusChange :=
  let change (kind : ChangeKind) (origin : Option BytePath) : StatusChange :=
    {
      path := entry.path
      kind
      origin
      oldMode := entry.base.map (·.kind.asMode)
      newMode := some entry.kind.gitMode
      oldOid := entry.base.map (·.oid)
      newOid := some newOid
      newSize := entry.size
    }
  -- A rename is a rename when the place it came from is genuinely gone.
  match entry.renamedFrom.filter (resolve rows · = .absent) with
  | some origin => some (change .renamed (some origin))
  | none =>
      match entry.base with
      | none => some (change .added none)
      | some facts => (differenceKind facts entry.kind newOid).map (change · none)

/-- A whiteout over a base directory that has no row under it. The rows are in path order, so
the first that is not before `path/` tells.
-/
def isUnrecorded (rows : List OverlayEntry) (entry : OverlayEntry) : Bool :=
  !entry.present
  && entry.base.any (·.kind.isDirLike)
  && !((rows.find? (fun other => compare other.path (entry.path ++ [slash]) != .lt)).any
        (fun other => (entry.path ++ [slash]).isPrefixOf other.path))

/-- Where the rows that are there were renamed from, when it is gone. -/
def renamedAway (rows : Rows) : List BytePath :=
  (rows.toList.filterMap (fun row =>
    if row.2.present then row.2.renamedFrom else none)).filter (resolve rows · = .absent)

namespace Overlay

/-- The Git object id of what the workspace holds at a row. -/
def workspaceOid (overlay : Overlay) (digests : Digests) (entry : OverlayEntry)
    (algorithm : HashAlgorithm)
    : Except Condition ObjectId :=
  let hashed : Option ObjectId :=
    match entry.content with
    -- Unchanged bytes: the base already told the object id.
    | .base oid => some oid
    | .local _ =>
        (overlay.openContent entry).bind (fun bytes =>
          digests.blobOidOfFile algorithm bytes entry.size)
    -- A symlink's target is its blob.
    | .none => digests.blobOid algorithm (entry.symlinkTarget.getD [])
  hashed.elim (.error .io) .ok

/-- The algorithm a row is hashed under: the base entry's own key form for an LFS object. -/
def hashAlgorithm (algorithm : HashAlgorithm) (entry : OverlayEntry) : HashAlgorithm :=
  if entry.base.any (·.oid.algorithm = .lfsSha256) then .lfsSha256 else algorithm

/-- What one row reports. -/
def statusOfRow (overlay : Overlay) (digests : Digests) (algorithm : HashAlgorithm)
    (gone : List BytePath) (entry : OverlayEntry)
    : Except Condition (Option StatusChange) :=
  if !entry.present then .ok (absentChange gone entry)
  else if entry.kind.isDir then .ok none
  else
    (overlay.workspaceOid digests entry (hashAlgorithm algorithm entry)).map
      (presentChange overlay.entries entry)

/-- Compute the change set. -/
def status (overlay : Overlay) (digests : Digests) (algorithm : HashAlgorithm)
    : Except Condition Status := do
  let rows := overlay.entries.toList.map Prod.snd
  let changes ←
    rows.mapM (overlay.statusOfRow digests algorithm (renamedAway overlay.entries))
  return {
    changes := (changes.filterMap id).insertionSort (pathLE ·.path ·.path)
    directoryDeletions :=
      ((rows.filter (isUnrecorded rows)).map OverlayEntry.path).insertionSort (pathLE · ·)
  }

end Overlay

end Gfs.Overlay
