import Gfs.Types.Basic

/-! The path state machine's types (`gfs-overlay/src/state.rs`) and the overlay's refusals
(`gfs-overlay/src/error.rs`).
-/

namespace Gfs.Overlay

open Gfs.Types

/-- The POSIX condition an overlay refusal corresponds to. -/
inductive Condition where
  | exists
  | noEntry
  | notDirectory
  | isDirectory
  | notEmpty
  | invalid
  | nameTooLong
  | notPermitted
  | quotaExceeded
  | io
  deriving DecidableEq, Repr

/-- What kind of thing the overlay holds at a path. -/
inductive OverlayKind where
  | regular
  | executable
  | symlink
  | directory
  deriving DecidableEq, Repr

namespace OverlayKind

def isDir (kind : OverlayKind) : Bool :=
  kind == .directory

def isFile : OverlayKind → Bool
  | .regular | .executable => true
  | _ => false

/-- The Git mode this kind records in an exported tree. -/
def gitMode : OverlayKind → Nat
  | .regular => Mode.regular
  | .executable => Mode.executable
  | .symlink => Mode.symlink
  | .directory => Mode.directory

def fromEntryKind : EntryKind → Option OverlayKind
  | .regular => some .regular
  | .executable => some .executable
  | .symlink => some .symlink
  | .directory => some .directory
  | .gitlink | .unsupported _ => none

def toEntryKind : OverlayKind → EntryKind
  | .regular => .regular
  | .executable => .executable
  | .symlink => .symlink
  | .directory => .directory

end OverlayKind

/-- Where an entry's bytes live. -/
inductive Content where
  /-- A directory, which has no content of its own, or a symlink kept in its row. -/
  | none
  /-- A file in `files/`, identified by its content id. -/
  | local (id : Nat)
  /-- Still the pinned commit's blob. -/
  | base (oid : ObjectId)
  deriving DecidableEq, Repr

def Content.localId : Content → Option Nat
  | .local id => some id
  | _ => Option.none

/-- What the pinned commit has, or had, at a path. -/
structure BaseFacts where
  oid : ObjectId
  kind : EntryKind
  size : Nat
  deriving DecidableEq, Repr

/-- One row of the journal. `present` is false for a whiteout. -/
structure OverlayEntry where
  path : BytePath
  present : Bool
  kind : OverlayKind
  /-- A created directory hides the base's children at the same path. -/
  opaqueDir : Bool
  ino : Nat
  content : Content
  symlinkTarget : Option Bytes
  size : Nat
  mtime : Timestamp
  ctime : Timestamp
  renamedFrom : Option BytePath
  base : Option BaseFacts
  deriving DecidableEq, Repr

def OverlayEntry.parent (entry : OverlayEntry) : BytePath :=
  parentOf entry.path

def OverlayEntry.name (entry : OverlayEntry) : Bytes :=
  entry.path.fileName.getD []

/-- Validate a path for a syscall caller, splitting "too long" from "malformed". -/
def pathCondition (path : BytePath) : Except Condition Unit :=
  if path.exceedsLengthLimits then .error .nameTooLong
  else
    match path.validate with
    | .ok () => .ok ()
    | .error _ => .error .invalid

-- Kinds

@[simp]
theorem OverlayKind.fromEntryKind_toEntryKind (kind : OverlayKind)
    : fromEntryKind kind.toEntryKind = some kind := by
  cases kind <;> rfl

theorem OverlayKind.fromEntryKind_eq_some {entry : EntryKind} {kind : OverlayKind}
    : fromEntryKind entry = some kind ↔ entry = kind.toEntryKind := by
  cases entry <;> cases kind <;> simp [fromEntryKind, toEntryKind]

@[simp]
theorem OverlayKind.isDirLike_toEntryKind (kind : OverlayKind)
    : kind.toEntryKind.isDirLike = kind.isDir := by
  cases kind <;> rfl

end Gfs.Overlay
