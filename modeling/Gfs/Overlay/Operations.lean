import Gfs.Overlay.Journal

/-! The overlay's mutations and readings (`gfs-overlay/src/lib.rs`). Each mutation prepares memory,
puts content in place and assembles one transaction; an attempt is what it comes to just before the
journal is written, whose success is not its own doing. Where journal and content I/O succeed, the
mutation is the completed attempt: its answer and the overlay after it. A refused one still keeps
the clock readings and the numbers it took. `host` is the host clock's reading.
-/

namespace Gfs.Overlay

open Gfs.Types
open Std (ExtTreeMap ExtTreeSet)

/-- The directory a name is created in or removed from, as the caller resolved it. -/
structure Parent where
  ino : Nat
  base : Option BaseFacts
  deriving DecidableEq, Repr

/-- A base directory's descendant, supplied by the caller for a directory rename. -/
structure BaseDescendant where
  /-- Relative to the directory being renamed. -/
  relative : BytePath
  facts : BaseFacts
  symlinkTarget : Option Bytes
  deriving DecidableEq, Repr

/-- What a mutation does to its parent directory's timestamps. -/
inductive ParentTouch where
  /-- The root, whose times are two meta rows. -/
  | root
  /-- A directory row to write. -/
  | row (entry : OverlayEntry)
  /-- Nothing to record. -/
  | nothing
  deriving DecidableEq, Repr

/-- The rows strictly under `dir`, in path order: a range of the sorted map from `dir/` up
to `dir0`, the byte after the slash.
-/
def rowsUnder (rows : Rows) (dir : BytePath) : List OverlayEntry :=
  if dir = [] then rows.toList.map Prod.snd
  else
    (rows.toList.filter (fun row =>
      (compare (dir ++ [slash]) row.1).isLE
      && compare row.1 (dir ++ [slash + 1]) == .lt)).map Prod.snd

/-- `pwrite`: the bytes before the offset, padded with zeros, then the data, then what the
file held after it. Writing nothing leaves the file as it is.
-/
def writeBytes (file : Bytes) (offset : Nat) (data : Bytes) : Bytes :=
  if data = [] then file
  else
    (file.take offset ++ List.replicate (offset - file.length) 0)
    ++ data
    ++ file.drop (offset + data.length)

/-- `ftruncate`. -/
def setLen (file : Bytes) (size : Nat) : Bytes :=
  file.take size ++ List.replicate (size - file.length) 0

/-- A transaction as assembled under the lock, with the memory it was assembled over. -/
structure Transaction where
  prepared : Overlay
  changes : List Change
  release : List Nat
  rootTimes : Option (Timestamp × Timestamp)
  stamp : Bool

/-- The memory half of a transaction the journal took. -/
def Transaction.committed (transaction : Transaction) : Overlay :=
  transaction.prepared.commitWith transaction.changes transaction.release
    transaction.rootTimes transaction.stamp

/-- Memory after a transaction the journal refused: the sequence was advanced first. -/
def Transaction.failed (transaction : Transaction) : Overlay :=
  {
    transaction.prepared with
    sequence :=
      if transaction.stamp then transaction.prepared.sequence + 1
      else transaction.prepared.sequence
  }

/-- How far an operation gets without the journal. -/
inductive Attempt (α : Type) where
  | refused (condition : Condition) (overlay : Overlay)
  /-- There is nothing to journal. -/
  | done (answer : α) (overlay : Overlay)
  | writes (answer : α) (transaction : Transaction)

/-- An attempt whose transaction succeeds. -/
def Attempt.complete {α : Type} : Attempt α → Except Condition α × Overlay
  | .refused condition overlay => (.error condition, overlay)
  | .done answer overlay => (.ok answer, overlay)
  | .writes answer transaction => (.ok answer, transaction.committed)

namespace Overlay

-- Reading

/-- The overlay's own children of a directory, in name order. -/
def childrenOf (overlay : Overlay) (dir : BytePath) : List OverlayEntry :=
  ((overlay.children[dir]?.getD ∅).toList).filterMap (fun name =>
    overlay.entries[dir.join name]?)

/-- Overlay children the base listing did not produce. -/
def extraChildren (overlay : Overlay) (dir : BytePath) (baseNames : List Bytes)
    : List OverlayEntry :=
  (overlay.childrenOf dir).filter (fun entry =>
    entry.present && !baseNames.contains entry.name)

/-- Whether a directory is empty in the merged view; the caller pages the base listing. -/
def mergedDirIsEmpty (overlay : Overlay) (dir : BytePath) (baseChildren : List Bytes)
    : Bool :=
  let hasOverlayChild :=
    ((overlay.children[dir]?.getD ∅).toList).any (fun name =>
      (overlay.entries[dir.join name]?).any (·.present))
  if hasOverlayChild then false
  else if masksBase overlay.entries dir then true
  else
    baseChildren.all (fun name =>
      (overlay.entries[dir.join name]?).any (fun entry => !entry.present))

/-- The content file of a row, opened and read to its end. -/
def openContent (overlay : Overlay) (entry : OverlayEntry) : Option Bytes :=
  entry.content.localId.bind (fun id => overlay.files[id]?)

/-- What exists at a path in the merged view, given what the base has there. -/
def existing (overlay : Overlay) (path : BytePath) (base : Option BaseFacts)
    : Option EntryKind :=
  match resolve overlay.entries path with
  | .overlay entry => some entry.kind.toEntryKind
  | .absent => none
  | .base => base.map BaseFacts.kind

/-- Refuse a path whose parent is not a usable directory. -/
def checkParent (overlay : Overlay) (path : BytePath) (parentBase : Option BaseFacts)
    : Except Condition Unit :=
  if parentOf path = [] then .ok ()
  else
    match overlay.existing (parentOf path) parentBase with
    | none => .error .noEntry
    | some kind => if !kind.isDirLike then .error .notDirectory else .ok ()

-- Parent directories

/-- The row a base entry is adopted under, keeping its content. Not opaque: a directory's base
children keep showing through.
-/
def adoptedEntry (path : BytePath) (facts : BaseFacts) (kind : OverlayKind) (ino : Nat)
    (now : Timestamp)
    : OverlayEntry where
  path
  present := true
  kind
  opaqueDir := false
  ino
  content := if kind.isDir then .none else .base facts.oid
  symlinkTarget := none
  size := facts.size
  mtime := now
  ctime := now
  renamedFrom := none
  base := some facts

/-- The change a mutation under `path` makes to its parent's timestamps. -/
def parentTouch (overlay : Overlay) (path : BytePath) (parent : Parent) (now : Timestamp)
    : ParentTouch × Overlay :=
  let dir := parentOf path
  if dir = [] then (.root, overlay)
  else
    match resolve overlay.entries dir with
    | .overlay entry =>
        if entry.present && entry.kind.isDir then
          (.row { entry with mtime := now, ctime := now }, overlay)
        else (.nothing, overlay)
    | .absent => (.nothing, overlay)
    | .base =>
        match parent.base with
        | none => (.nothing, overlay)
        | some facts =>
            match (OverlayKind.fromEntryKind facts.kind).filter OverlayKind.isDir with
            | none => (.nothing, overlay)
            | some kind =>
                let (ino, overlay) := overlay.adoptIno parent.ino
                (.row (adoptedEntry dir facts kind ino now), overlay)

/-- Fold a parent touch into a transaction being assembled. -/
def pushTouch (touch : ParentTouch) (changes : List Change)
    (rootTimes : Option (Timestamp × Timestamp)) (now : Timestamp)
    : List Change × Option (Timestamp × Timestamp) :=
  match touch with
  | .root => (changes, some (now, now))
  | .row entry => (changes ++ [.put entry], rootTimes)
  | .nothing => (changes, rootTimes)

/-- A stamped transaction over the overlay as it stands. -/
def transaction (overlay : Overlay) (changes : List Change) (release : List Nat)
    (rootTimes : Option (Timestamp × Timestamp))
    : Transaction where
  prepared := overlay
  changes
  release
  rootTimes
  stamp := true

@[simp]
theorem transaction_committed (overlay : Overlay) (changes : List Change) (release : List Nat)
    (rootTimes : Option (Timestamp × Timestamp))
    : (overlay.transaction changes release rootTimes).committed
      = overlay.commit changes release rootTimes :=
  rfl

/-- Changes made at `path` together with its parent's new times. -/
def transactionTouching (overlay : Overlay) (path : BytePath) (parent : Parent)
    (changes : List Change) (release : List Nat) (now : Timestamp)
    : Transaction :=
  let (touch, overlay) := overlay.parentTouch path parent now
  let (changes, rootTimes) := pushTouch touch changes none now
  overlay.transaction changes release rootTimes

/-- Commit changes made at `path` together with its parent's new times. -/
def commitTouching (overlay : Overlay) (path : BytePath) (parent : Parent)
    (changes : List Change) (release : List Nat) (now : Timestamp)
    : Overlay :=
  (overlay.transactionTouching path parent changes release now).committed

-- Creating

/-- Refuse a creation whose parent is unusable or whose name is taken. -/
def checkCreate (overlay : Overlay) (path : BytePath) (base : Option BaseFacts)
    (parent : Parent)
    : Except Condition Unit := do
  overlay.checkParent path parent.base
  if (overlay.existing path base).isSome then throw .exists

/-- `contentIo` says whether the content store does its part. -/
def attemptCreateFile (overlay : Overlay) (contentIo : Bool) (host : Timestamp)
    (path : BytePath) (base : Option BaseFacts) (parent : Parent) (ino : Nat)
    (executable : Bool)
    : Attempt OverlayEntry :=
  match
    (do
      pathCondition path
      overlay.checkCreate path base parent
      overlay.checkQuota 0)
  with
  | .error refusal => .refused refusal overlay
  | .ok () =>
      let (ino, overlay) := overlay.adoptIno ino
      let (contentId, overlay) := overlay.allocateContentId
      if !contentIo then .refused .io overlay
      else
        let overlay :=
          {
            overlay with
            files := overlay.files.insert contentId []
            unsynced := overlay.unsynced.insert contentId
          }
        let (now, overlay) := overlay.nextTime host
        let entry : OverlayEntry :=
          {
            path
            present := true
            kind := if executable then .executable else .regular
            opaqueDir := false
            ino
            content := .local contentId
            symlinkTarget := none
            size := 0
            mtime := now
            ctime := now
            renamedFrom := none
            base
          }
        .writes entry (overlay.transactionTouching path parent [.put entry] [] now)

/-- Create an empty regular file. -/
def createFile (overlay : Overlay) (host : Timestamp) (path : BytePath)
    (base : Option BaseFacts) (parent : Parent) (ino : Nat) (executable : Bool)
    : Except Condition OverlayEntry × Overlay :=
  (overlay.attemptCreateFile true host path base parent ino executable).complete

def attemptMkdir (overlay : Overlay) (host : Timestamp) (path : BytePath)
    (base : Option BaseFacts) (parent : Parent) (ino : Nat)
    : Attempt OverlayEntry :=
  match
    (do
      pathCondition path
      overlay.checkCreate path base parent)
  with
  | .error refusal => .refused refusal overlay
  | .ok () =>
      let (ino, overlay) := overlay.adoptIno ino
      let (now, overlay) := overlay.nextTime host
      let entry : OverlayEntry :=
        {
          path
          present := true
          kind := .directory
          -- A created directory hides whatever the base has at the same path.
          opaqueDir := true
          ino
          content := .none
          symlinkTarget := none
          size := 0
          mtime := now
          ctime := now
          renamedFrom := none
          base
        }
      .writes entry (overlay.transactionTouching path parent [.put entry] [] now)

def mkdir (overlay : Overlay) (host : Timestamp) (path : BytePath)
    (base : Option BaseFacts) (parent : Parent) (ino : Nat)
    : Except Condition OverlayEntry × Overlay :=
  (overlay.attemptMkdir host path base parent ino).complete

/-- A symlink's target must be nonempty and hold no NUL. -/
def checkTarget (target : Bytes) : Except Condition Unit :=
  if target = [] ∨ target.contains 0 then .error .invalid else .ok ()

def attemptSymlink (overlay : Overlay) (host : Timestamp) (path : BytePath) (target : Bytes)
    (base : Option BaseFacts) (parent : Parent) (ino : Nat)
    : Attempt OverlayEntry :=
  match
    (do
      pathCondition path
      checkTarget target
      overlay.checkCreate path base parent)
  with
  | .error refusal => .refused refusal overlay
  | .ok () =>
      let (ino, overlay) := overlay.adoptIno ino
      let (now, overlay) := overlay.nextTime host
      let entry : OverlayEntry :=
        {
          path
          present := true
          kind := .symlink
          opaqueDir := false
          ino
          -- The target is the content, kept in the row.
          content := .none
          symlinkTarget := some target
          size := target.length
          mtime := now
          ctime := now
          renamedFrom := none
          base
        }
      .writes entry (overlay.transactionTouching path parent [.put entry] [] now)

def symlink (overlay : Overlay) (host : Timestamp) (path : BytePath) (target : Bytes)
    (base : Option BaseFacts) (parent : Parent) (ino : Nat)
    : Except Condition OverlayEntry × Overlay :=
  (overlay.attemptSymlink host path target base parent ino).complete

-- Copying up and writing

/-- What a copy-up keeps of the path: its kind, symlink target, base facts, inode number and
rename source.
-/
structure CopyUp where
  kind : OverlayKind
  symlinkTarget : Option Bytes
  base : Option BaseFacts
  ino : Nat
  renamedFrom : Option BytePath

/-- What there is to copy up at a path: `inl` is a row that already has local content. -/
def copyUpSource (overlay : Overlay) (path : BytePath) (base : Option BaseFacts) (ino : Nat)
    : Except Condition (OverlayEntry ⊕ CopyUp) :=
  match resolve overlay.entries path with
  | .absent => .error .noEntry
  | .overlay entry =>
      if entry.content.localId.isSome then .ok (.inl entry)
      else if entry.kind.isDir then .error .isDirectory
      else if entry.kind = .symlink then .error .invalid
      else
        .ok (.inr ⟨entry.kind, entry.symlinkTarget, entry.base, entry.ino, entry.renamedFrom⟩)
  | .base =>
      match base with
      | none => .error .noEntry
      | some facts =>
          match OverlayKind.fromEntryKind facts.kind with
          | none => .error .notPermitted
          | some kind =>
              if kind.isDir then .error .isDirectory
              else if kind = .symlink then .error .invalid
              else .ok (.inr ⟨kind, none, some facts, ino, none⟩)

def attemptMaterialize (overlay : Overlay) (contentIo : Bool) (host : Timestamp)
    (path : BytePath) (base : Option BaseFacts) (ino : Nat) (source : Option Bytes)
    : Attempt OverlayEntry :=
  match
    (do
      pathCondition path
      overlay.copyUpSource path base ino)
  with
  | .error refusal => .refused refusal overlay
  | .ok (.inl entry) => .done entry overlay
  | .ok (.inr copy) =>
      let (contentId, overlay) := overlay.allocateContentId
      let bytes := source.getD []
      match
        (do
          -- The declared size first, then the real one.
          if source.isSome then overlay.checkQuota (copy.base.elim 0 BaseFacts.size)
          overlay.checkQuota bytes.length)
      with
      | .error refusal => .refused refusal overlay
      | .ok () =>
          if !contentIo then .refused .io overlay
          else
            let overlay :=
              {
                overlay with
                files := overlay.files.insert contentId bytes
                unsynced := overlay.unsynced.insert contentId
              }
            let (now, overlay) := overlay.nextTime host
            let entry : OverlayEntry :=
              {
                path
                present := true
                kind := copy.kind
                opaqueDir := false
                ino := copy.ino
                content := .local contentId
                symlinkTarget := copy.symlinkTarget
                size := bytes.length
                mtime := now
                ctime := now
                renamedFrom := copy.renamedFrom
                base := copy.base
              }
            .writes entry (overlay.transaction [.put entry] [] none)

/-- Give a path local content: the copy-up. `source` is `none` for `O_TRUNC`, otherwise the
bytes of the blob being copied.
-/
def materialize (overlay : Overlay) (host : Timestamp) (path : BytePath)
    (base : Option BaseFacts) (ino : Nat) (source : Option Bytes)
    : Except Condition OverlayEntry × Overlay :=
  (overlay.attemptMaterialize true host path base ino source).complete

/-- Replace a row in memory only, keeping the byte accounting straight. -/
def replaceInMemory (overlay : Overlay) (updated : OverlayEntry) : Overlay :=
  {
    overlay with
    localBytes := overlay.bytesWith updated
    entries := overlay.entries.insert updated.path updated
  }

/-- Record that a content file changed underneath its row. Nothing is journaled. -/
def noteWritten (overlay : Overlay) (host : Timestamp) (entry : OverlayEntry) (size : Nat)
    (mtime : Option Timestamp)
    : Overlay :=
  let (now, overlay) := overlay.nextTime host
  let updated := { entry with size, mtime := mtime.getD now, ctime := now }
  let overlay :=
    {
      overlay with
      dirty := updated.content.localId.elim overlay.dirty (overlay.dirty.insert ·)
      sequence := overlay.sequence + 1
      stamps := overlay.stamps.insert updated.path (overlay.sequence + 1)
    }
  overlay.replaceInMemory updated

/-- The part of a write the quota admits: all of it, or a shorter one, or a refusal. -/
def admitWrite (overlay : Overlay) (current offset : Nat) (data : Bytes)
    : Except Condition Bytes :=
  let growth := saturatingAdd offset data.length - current
  let headroom := overlay.config.quotaBytes - overlay.localBytes
  if growth > headroom then
    let allowed := data.length - (growth - headroom)
    if allowed = 0 then .error .quotaExceeded else .ok (data.take allowed)
  else .ok data

/-- Write into an already-materialized file, returning how many bytes landed. -/
def writeAt (overlay : Overlay) (host : Timestamp) (path : BytePath) (offset : Nat)
    (data : Bytes)
    : Except Condition Nat × Overlay :=
  match overlay.entries[path]?.filter (·.present) with
  | none => (.error .noEntry, overlay)
  | some entry =>
      match entry.content.localId with
      | none => (.error .io, overlay)
      | some id =>
          match overlay.admitWrite entry.size offset data with
          | .error refusal => (.error refusal, overlay)
          | .ok data =>
              match overlay.files[id]? with
              | none => (.error .io, overlay)
              | some file =>
                  let overlay :=
                    {
                      overlay with
                      files := overlay.files.insert id (writeBytes file offset data)
                    }
                  let size := max entry.size (saturatingAdd offset data.length)
                  (.ok data.length, overlay.noteWritten host entry size none)

/-- Write through an open descriptor rather than through a path. Content no row names any
more still takes the write, and there is no row to update.
-/
def writeContent (overlay : Overlay) (host : Timestamp) (contentId offset : Nat)
    (data : Bytes)
    : Except Condition Nat × Overlay :=
  let entry := overlay.byContent[contentId]?.bind (fun path => overlay.entries[path]?)
  match overlay.admitWrite (entry.elim 0 OverlayEntry.size) offset data with
  | .error refusal => (.error refusal, overlay)
  | .ok data =>
      let overlay :=
        {
          overlay with
          files := overlay.files.modify contentId (writeBytes · offset data)
        }
      match entry with
      | none => (.ok data.length, overlay)
      | some entry =>
          let size := max entry.size (saturatingAdd offset data.length)
          (.ok data.length, overlay.noteWritten host entry size none)

def attemptTruncate (overlay : Overlay) (contentIo : Bool) (host : Timestamp)
    (path : BytePath) (size : Nat)
    : Attempt OverlayEntry :=
  match overlay.entries[path]?.filter (·.present) with
  | none => .refused .noEntry overlay
  | some entry =>
      if entry.kind.isDir then .refused .isDirectory overlay
      else
        match entry.content.localId with
        | none => .refused .io overlay
        | some id =>
            match
              (if size > entry.size then overlay.checkQuota (size - entry.size) else .ok ())
            with
            | .error refusal => .refused refusal overlay
            | .ok () =>
                match overlay.files[id]?.filter (fun _ => contentIo) with
                | none => .refused .io overlay
                | some file =>
                    let overlay :=
                      { overlay with files := overlay.files.insert id (setLen file size) }
                    let (now, overlay) := overlay.nextTime host
                    let updated := { entry with size, mtime := now, ctime := now }
                    .writes updated (overlay.transaction [.put updated] [] none)

/-- Set a materialized file's length. -/
def truncate (overlay : Overlay) (host : Timestamp) (path : BytePath) (size : Nat)
    : Except Condition OverlayEntry × Overlay :=
  (overlay.attemptTruncate true host path size).complete

def attemptSettle (overlay : Overlay) (contentId : Nat) : Attempt (Option OverlayEntry) :=
  match overlay.byContent[contentId]?.bind (fun path => overlay.entries[path]?) with
  | none => .done none { overlay with dirty := overlay.dirty.erase contentId }
  | some entry =>
      if overlay.dirty.contains contentId then
        .writes (some entry) (overlay.transaction [.put entry] [] none)
      else .done (some entry) overlay

/-- Record what a content file reached while the kernel wrote it directly, and commit the
row.
-/
def attemptRefreshContent (overlay : Overlay) (host : Timestamp) (contentId size : Nat)
    (mtime : Timestamp)
    : Attempt (Option OverlayEntry) :=
  match overlay.byContent[contentId]?.bind (fun path => overlay.entries[path]?) with
  | none => .done none overlay
  | some entry =>
      if entry.size ≠ size ∨ entry.mtime ≠ mtime then
        (overlay.noteWritten host entry size (some mtime)).attemptSettle contentId
      else overlay.attemptSettle contentId

/-- Commit every dirty row in one transaction. The set is cleared before the transaction. -/
def attemptSettleAll (overlay : Overlay) : Attempt Unit :=
  if overlay.dirty.isEmpty then .done () overlay
  else
    let changes :=
      (overlay.dirty.toList.filterMap (fun id =>
        overlay.byContent[id]?.bind (fun path => overlay.entries[path]?))).map Change.put
    let overlay := { overlay with dirty := ∅ }
    if changes.isEmpty then .done () overlay
    else .writes () (overlay.transaction changes [] none)

/-- Commit the row for content written through the daemon. `none` when no row names the
content any more.
-/
def settleContent (overlay : Overlay) (contentId : Nat)
    : Except Condition (Option OverlayEntry) × Overlay :=
  (overlay.attemptSettle contentId).complete

-- Metadata

def attemptAdopt (overlay : Overlay) (host : Timestamp) (path : BytePath)
    (base : Option BaseFacts) (ino : Nat)
    : Attempt OverlayEntry :=
  match pathCondition path with
  | .error refusal => .refused refusal overlay
  | .ok () =>
      if path = [] then .refused .invalid overlay
      else
        match resolve overlay.entries path with
        | .overlay entry => .done entry overlay
        | .absent => .refused .noEntry overlay
        | .base =>
            match base with
            | none => .refused .noEntry overlay
            | some facts =>
                match OverlayKind.fromEntryKind facts.kind with
                | none => .refused .notPermitted overlay
                | some kind =>
                    let (now, overlay) := overlay.nextTime host
                    let entry := adoptedEntry path facts kind ino now
                    .writes entry (overlay.transaction [.put entry] [] none)

/-- Record a metadata-only divergence. The row keeps the base's content. -/
def adopt (overlay : Overlay) (host : Timestamp) (path : BytePath)
    (base : Option BaseFacts) (ino : Nat)
    : Except Condition OverlayEntry × Overlay :=
  (overlay.attemptAdopt host path base ino).complete

/-- The second half of `set_executable`, given the row the first half read. -/
def attemptExecutable (overlay : Overlay) (host : Timestamp) (entry : OverlayEntry)
    (executable : Bool)
    : Attempt OverlayEntry :=
  let wanted : OverlayKind := if executable then .executable else .regular
  if entry.kind.isDir ∨ entry.kind = .symlink ∨ entry.kind = wanted then .done entry overlay
  else
    let (now, overlay) := overlay.nextTime host
    let updated := { entry with kind := wanted, ctime := now }
    .writes updated (overlay.transaction [.put updated] [] none)

/-- Set the executable bit. The adoption and the change are two transactions, so the host
clock is read twice.
-/
def setExecutable (overlay : Overlay) (host later : Timestamp) (path : BytePath)
    (base : Option BaseFacts) (ino : Nat) (executable : Bool)
    : Except Condition OverlayEntry × Overlay :=
  match overlay.adopt host path base ino with
  | (.error refusal, overlay) => (.error refusal, overlay)
  | (.ok entry, overlay) => (overlay.attemptExecutable later entry executable).complete

/-- The second half of `set_times`, given the row the first half read. -/
def attemptTimes (overlay : Overlay) (host : Timestamp) (entry : OverlayEntry)
    (mtime : Option Timestamp)
    : Attempt OverlayEntry :=
  let (now, overlay) := overlay.nextTime host
  let mtime := (mtime.map (clampRequestedOverlayTime · overlay.snapshotTime)).getD now
  let updated := { entry with mtime, ctime := now }
  .writes updated (overlay.transaction [.put updated] [] none)

/-- Set an explicit modification time, clamped to the overlay floor. -/
def setTimes (overlay : Overlay) (host later : Timestamp) (path : BytePath)
    (base : Option BaseFacts) (ino : Nat) (mtime : Option Timestamp)
    : Except Condition OverlayEntry × Overlay :=
  match overlay.adopt host path base ino with
  | (.error refusal, overlay) => (.error refusal, overlay)
  | (.ok entry, overlay) => (overlay.attemptTimes later entry mtime).complete

/-- Record that the mount root's contents changed. -/
def attemptTouchRoot (overlay : Overlay) (host : Timestamp) (mtime : Option Timestamp)
    : Attempt Unit :=
  let (now, overlay) := overlay.nextTime host
  let mtime := (mtime.map (clampRequestedOverlayTime · overlay.snapshotTime)).getD now
  .writes () (overlay.transaction [] [] (some (mtime, now)))

def attemptReferenceBase (overlay : Overlay) (contentId : Nat) (hashed : OverlayEntry)
    (oid : ObjectId)
    : Attempt (Option OverlayEntry) :=
  match overlay.entries[hashed.path]? with
  | none => .done none overlay
  | some entry =>
      if entry.present
          && entry.content.localId == some contentId
          && entry.size == hashed.size
          && entry.mtime == hashed.mtime
          && entry.ctime == hashed.ctime
          && entry.renamedFrom.isNone
          && entry.base.any (fun facts => facts.oid == oid)
          && !overlay.dirty.contains contentId
          && !overlay.writers.contains contentId then
        let referenced := { entry with content := .base oid }
        .writes (some referenced)
          { overlay.transaction [.put referenced] [] none with stamp := false }
      else .done none overlay

/-- Replace a local copy whose bytes are the base's blob with a reference to that blob, if
nothing changed since it was hashed.
-/
def referenceBase (overlay : Overlay) (contentId : Nat) (hashed : OverlayEntry)
    (oid : ObjectId)
    : Except Condition (Option OverlayEntry) × Overlay :=
  (overlay.attemptReferenceBase contentId hashed oid).complete

-- Removing and renaming

/-- The row that hides a base entry. -/
def whiteout (path : BytePath) (facts : BaseFacts) (ino : Nat) (now : Timestamp)
    : OverlayEntry where
  path
  present := false
  kind := (OverlayKind.fromEntryKind facts.kind).getD .regular
  opaqueDir := false
  ino
  content := .none
  symlinkTarget := none
  size := 0
  mtime := now
  ctime := now
  renamedFrom := none
  base := some facts

/-- What leaves the path at `path`: a whiteout when the base has something there, a plain
delete when it does not.
-/
def departure (row : Option OverlayEntry) (path : BytePath) (base : Option BaseFacts)
    (now : Timestamp)
    : Change :=
  match (row.bind OverlayEntry.base).or base with
  | some facts => .put (whiteout path facts (row.elim 0 OverlayEntry.ino) now)
  | none => .delete path

def attemptRemove (overlay : Overlay) (host later : Timestamp) (path : BytePath)
    (base : Option BaseFacts) (parent : Parent) (expectDir mergedIsEmpty : Bool)
    : Attempt Unit :=
  if path = [] then .refused .invalid overlay
  else
    match overlay.existing path base with
    | none => .refused .noEntry overlay
    | some kind =>
        if expectDir && !kind.isDirLike then .refused .notDirectory overlay
        else if !expectDir && kind.isDirLike then .refused .isDirectory overlay
        else if kind.isDirLike && !mergedIsEmpty then .refused .notEmpty overlay
        else
          let row := overlay.entries[path]?
          -- Rows under the directory go, but not the whiteouts.
          let doomed :=
            if kind.isDirLike then (rowsUnder overlay.entries path).filter (·.present)
            else []
          let release :=
            (row.bind (·.content.localId)).toList ++ doomed.filterMap (·.content.localId)
          let hides := ((row.bind OverlayEntry.base).or base).isSome
          let (hidden, overlay) :=
            if hides then overlay.nextTime host else (overlay.clock, overlay)
          let changes :=
            doomed.map (fun victim => Change.delete victim.path)
            ++ [departure row path base hidden]
          let (now, overlay) := overlay.nextTime (if hides then later else host)
          .writes () (overlay.transactionTouching path parent changes release now)

/-- Remove a path. `mergedIsEmpty` is the caller's answer for a directory. A whiteout takes
the first clock reading, the parent's times the second; without a whiteout only one is made.
-/
def remove (overlay : Overlay) (host later : Timestamp) (path : BytePath)
    (base : Option BaseFacts) (parent : Parent) (expectDir mergedIsEmpty : Bool)
    : Except Condition Unit × Overlay :=
  (overlay.attemptRemove host later path base parent expectDir mergedIsEmpty).complete

/-- The renamed entry's row at its destination. -/
def movedEntry (row : Option OverlayEntry) (source target : BytePath)
    (sourceBase targetBase : Option BaseFacts) (now : Timestamp)
    (overlay : Overlay) (sourceIno : Nat)
    : Except Condition (OverlayEntry × Overlay) :=
  match row.filter (·.present) with
  | some row =>
      .ok
        ({
            row with
            path := target
            renamedFrom := some (row.renamedFrom.getD source)
            base := targetBase
            ctime := now
            -- A directory that arrives by rename brings its children as explicit rows.
            opaqueDir := row.kind.isDir
          },
          overlay)
  | none =>
      match sourceBase with
      | none => .error .noEntry
      | some facts =>
          match OverlayKind.fromEntryKind facts.kind with
          | none => .error .notPermitted
          | some kind =>
              let (ino, overlay) := overlay.adoptIno sourceIno
              .ok
                ({
                    path := target
                    present := true
                    kind
                    opaqueDir := kind.isDir
                    ino
                    content := if kind.isDir then .none else .base facts.oid
                    symlinkTarget := none
                    size := facts.size
                    mtime := now
                    ctime := now
                    renamedFrom := some source
                    base := targetBase
                  },
                  overlay)

/-- The row of an overlay entry that moves with its directory. -/
def moverEntry (source target : BytePath) (now : Timestamp) (row : OverlayEntry)
    : OverlayEntry :=
  {
    row with
    path := target ++ row.path.drop source.length
    ctime := now
    opaqueDir := row.kind.isDir
    base := none
  }

/-- Overlay rows under the source move with it; whiteouts stay where they are. -/
def moverChanges (source target : BytePath) (now : Timestamp) (movers : List OverlayEntry)
    : List Change :=
  movers.flatMap (fun row =>
    if row.present then
      [.delete row.path, .put (moverEntry source target now row)]
    else [])

/-- The row of a base descendant the rename materializes, still pointing at its blob. -/
def descendantEntry (source target : BytePath) (now : Timestamp) (ino : Nat)
    (kind : OverlayKind) (descendant : BaseDescendant)
    : OverlayEntry where
  path := target ++ slash :: descendant.relative
  present := true
  kind
  opaqueDir := kind.isDir
  ino
  content := if kind.isDir then .none else .base descendant.facts.oid
  symlinkTarget := descendant.symlinkTarget
  size := descendant.facts.size
  mtime := now
  ctime := now
  renamedFrom := some (source ++ slash :: descendant.relative)
  base := none

/-- The base's own descendants that the overlay has not covered or deleted, each under a
fresh inode number.
-/
def descendantChanges (rows : Rows) (source target : BytePath) (now : Timestamp)
    : Nat → List BaseDescendant → List Change × Nat
  | nextIno, [] => ([], nextIno)
  | nextIno, descendant :: rest =>
      if resolve rows (source ++ slash :: descendant.relative) ≠ .base then
        descendantChanges rows source target now nextIno rest
      else
        match OverlayKind.fromEntryKind descendant.facts.kind with
        | none => descendantChanges rows source target now nextIno rest
        | some kind =>
            let (changes, final) :=
              descendantChanges rows source target now (nextIno + 1) rest
            (.put (descendantEntry source target now nextIno kind descendant) :: changes,
              final)

/-- Rename's refusals once the destination is known to exist. -/
def checkReplace (sourceKind targetKind : EntryKind) (targetMergedIsEmpty noReplace : Bool)
    : Except Condition Unit :=
  if noReplace then .error .exists
  else
    match sourceKind.isDirLike, targetKind.isDirLike with
    | true, false => .error .notDirectory
    | false, true => .error .isDirectory
    | true, true => if !targetMergedIsEmpty then .error .notEmpty else .ok ()
    | false, false => .ok ()

/-- Both ends of a rename: one touch when they share their parent. -/
def transactionRename (overlay : Overlay) (source target : BytePath)
    (sourceParent targetParent : Parent) (changes : List Change) (release : List Nat)
    (now : Timestamp)
    : Transaction :=
  let (touch, overlay) := overlay.parentTouch source sourceParent now
  let (changes, rootTimes) := pushTouch touch changes none now
  if parentOf source = parentOf target then overlay.transaction changes release rootTimes
  else
    let (touch, overlay) := overlay.parentTouch target targetParent now
    let (changes, rootTimes) := pushTouch touch changes rootTimes now
    overlay.transaction changes release rootTimes

def commitRename (overlay : Overlay) (source target : BytePath)
    (sourceParent targetParent : Parent) (changes : List Change) (release : List Nat)
    (now : Timestamp)
    : Overlay :=
  (overlay.transactionRename source target sourceParent targetParent changes release
    now).committed

def attemptRename (overlay : Overlay) (host : Timestamp) (source : BytePath)
    (sourceIno : Nat) (sourceBase : Option BaseFacts) (sourceParent : Parent)
    (target : BytePath) (targetBase : Option BaseFacts) (targetParent : Parent)
    (sourceDescendants : List BaseDescendant) (targetMergedIsEmpty noReplace : Bool)
    : Attempt Unit :=
  match
    (do
      pathCondition source
      pathCondition target
      if source = [] ∨ target = [] then throw Condition.invalid)
  with
  | .error refusal => .refused refusal overlay
  | .ok () =>
      if source = target then .done () overlay
      else if isWithin target source then .refused .invalid overlay
      else
        match
          (do
            overlay.checkParent target targetParent.base
            match overlay.existing source sourceBase with
            | none => throw Condition.noEntry
            | some sourceKind =>
                match overlay.existing target targetBase with
                | none => pure ()
                | some targetKind =>
                    checkReplace sourceKind targetKind targetMergedIsEmpty noReplace)
        with
        | .error refusal => .refused refusal overlay
        | .ok () =>
            let rows := overlay.entries
            let row := rows[source]?
            let (now, overlay) := overlay.nextTime host
            -- The destination's existing content and rows go, whatever they were.
            let doomed := rowsUnder rows target
            let release :=
              (rows[target]?.bind (·.content.localId)).toList
              ++ doomed.filterMap (·.content.localId)
            let cleared := doomed.map (fun victim => Change.delete victim.path)
            match
              movedEntry row source target sourceBase targetBase now overlay sourceIno
            with
            | .error refusal => .refused refusal overlay
            | .ok (moved, overlay) =>
                let left := departure row source sourceBase now
                if moved.kind.isDir then
                  let movers := rowsUnder rows source
                  if movers.length + sourceDescendants.length
                      > overlay.config.maxRenameEntries then
                    .refused .quotaExceeded overlay
                  else
                    let (arrived, nextIno) :=
                      descendantChanges rows source target now overlay.nextIno
                        sourceDescendants
                    let changes :=
                      cleared
                      ++ [.put moved]
                      ++ moverChanges source target now movers
                      ++ arrived
                      ++ [left]
                    .writes ()
                      ({ overlay with nextIno }.transactionRename source target sourceParent
                        targetParent changes release now)
                else
                  .writes ()
                    (overlay.transactionRename source target sourceParent targetParent
                      (cleared ++ [.put moved] ++ [left]) release now)

/-- Rename within the mount. -/
def rename (overlay : Overlay) (host : Timestamp) (source : BytePath) (sourceIno : Nat)
    (sourceBase : Option BaseFacts) (sourceParent : Parent) (target : BytePath)
    (targetBase : Option BaseFacts) (targetParent : Parent)
    (sourceDescendants : List BaseDescendant) (targetMergedIsEmpty noReplace : Bool)
    : Except Condition Unit × Overlay :=
  (overlay.attemptRename host source sourceIno sourceBase sourceParent target targetBase
    targetParent sourceDescendants targetMergedIsEmpty noReplace).complete

end Overlay

end Gfs.Overlay
