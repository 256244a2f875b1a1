import Gfs.Lib.Runs
import Gfs.Overlay.Operations

/-! The reference model and the caller that drives the overlay beside it
(`gfs-overlay/src/model.rs`): an in-memory base tree, the merged filesystem as a plain map,
the merged view of an overlay over a base tree, and one operation applied to both.
-/

namespace Gfs.Overlay

open Gfs.Types
open Std (ExtTreeMap ExtTreeSet)

-- The base

structure BaseNode where
  kind : EntryKind
  /-- File bytes, or a symlink target. Empty for a directory. -/
  content : Bytes
  deriving DecidableEq, Repr

/-- What a node of a tree must be: under a well-formed path, one of the four kinds the
overlay can hold, without content if a directory, and with a directory at every ancestor.
-/
def BaseNode.Placed (nodes : ExtTreeMap BytePath BaseNode compare) (path : BytePath)
    (node : BaseNode)
    : Prop :=
  WellFormed path
  ∧ (OverlayKind.fromEntryKind node.kind).isSome = true
  ∧ (node.kind = .directory → node.content = [])
  ∧ ∀ dir ∈ ancestorsOf path, dir ≠ [] → nodes[dir]?.map BaseNode.kind = some .directory

instance (nodes : ExtTreeMap BytePath BaseNode compare) (path : BytePath) (node : BaseNode)
    : Decidable (node.Placed nodes path) :=
  inferInstanceAs (Decidable (_ ∧ _ ∧ _ ∧ _))

/-- A pinned commit's tree in memory. -/
structure BaseTree where
  nodes : ExtTreeMap BytePath BaseNode compare
  placed
    : ∀ (path : BytePath) (node : BaseNode),
        nodes[path]? = some node → node.Placed nodes path

/-- The tree of a list of nodes that has its directories listed too. -/
def BaseTree.ofList (nodes : List (BytePath × BaseNode))
    (placed
      : ∀ row ∈ (ExtTreeMap.ofList nodes compare).toList,
          row.2.Placed (ExtTreeMap.ofList nodes compare) row.1)
    : BaseTree where
  nodes := ExtTreeMap.ofList nodes compare
  placed path node found :=
    placed (path, node) (ExtTreeMap.mem_toList_iff_getElem?_eq_some.mpr found)

/-- The immediate child name of `dir` on the way to `path`, if `path` is one. -/
def childName (dir path : BytePath) : Option Bytes :=
  let rest :=
    if dir = [] then some path
    else if !dir.isPrefixOf path || path.length ≤ dir.length
        || path[dir.length]? != some slash then none
    else some (path.drop (dir.length + 1))
  rest.filter (fun rest => !rest.isEmpty && !rest.contains slash)

namespace BaseTree

def get (base : BaseTree) (path : BytePath) : Option BaseNode :=
  if path = [] then none else base.nodes[path]?

/-- The object id of a node's content as a SHA-1 blob. -/
def oidOfNode (digests : Digests) (node : BaseNode) : ObjectId :=
  ⟨.sha1, digests.sha1 (blobFrame node.content.length ++ node.content)⟩

def factsOfNode (digests : Digests) (node : BaseNode) : BaseFacts where
  oid := oidOfNode digests node
  kind := node.kind
  size := node.content.length

/-- What the caller of an overlay mutation must pass for this path. -/
def facts (digests : Digests) (base : BaseTree) (path : BytePath) : Option BaseFacts :=
  (base.get path).map (factsOfNode digests)

def contentOfOid (digests : Digests) (base : BaseTree) (oid : ObjectId) : Option Bytes :=
  (base.nodes.toList.find? (fun row => oidOfNode digests row.2 == oid)).map
    (fun row => row.2.content)

def childNames (base : BaseTree) (dir : BytePath) : List Bytes :=
  base.nodes.keys.filterMap (childName dir)

/-- Every descendant of a directory, relative to it. -/
def descendants (digests : Digests) (base : BaseTree) (dir : BytePath)
    : List BaseDescendant :=
  (base.nodes.toList.filter (fun row => (dir ++ [slash]).isPrefixOf row.1)).map
    (fun row =>
      {
        relative := row.1.drop (dir ++ [slash]).length
        facts := factsOfNode digests row.2
        symlinkTarget := if row.2.kind = .symlink then some row.2.content else none
      })

end BaseTree

-- The model

structure Node where
  kind : OverlayKind
  /-- File bytes, or a symlink target. Empty for a directory. -/
  content : Bytes
  deriving DecidableEq, Repr

/-- What a base node is in a merged filesystem; `none` for a kind the overlay cannot hold. -/
def Node.ofBase (node : BaseNode) : Option Node :=
  (OverlayKind.fromEntryKind node.kind).map (fun kind => ⟨kind, node.content⟩)

abbrev Live := ExtTreeMap BytePath Node compare

/-- The merged filesystem, modelled directly. -/
structure Model where
  live : Live

namespace Model

def new (base : BaseTree) : Model where
  live := base.nodes.filterMap (fun _ node => Node.ofBase node)

def get (model : Model) (path : BytePath) : Option Node :=
  model.live[path]?

/-- A name can only be created under a directory that exists. -/
def checkParent (model : Model) (path : BytePath) : Except Condition Unit :=
  if parentOf path = [] then .ok ()
  else
    match model.get (parentOf path) with
    | none => .error .noEntry
    | some node => if !node.kind.isDir then .error .notDirectory else .ok ()

def isEmptyDir (model : Model) (path : BytePath) : Bool :=
  !model.live.keys.any (fun other => (childName path other).isSome)

/-- Insert a new node under a usable parent: the body `create_file`, `mkdir` and `symlink`
share.
-/
def insertNew (model : Model) (path : BytePath) (node : Node) : Except Condition Model := do
  model.checkParent path
  if (model.get path).isSome then throw .exists
  return { live := model.live.insert path node }

def createFile (model : Model) (path : BytePath) : Except Condition Model :=
  model.insertNew path ⟨.regular, []⟩

def mkdir (model : Model) (path : BytePath) : Except Condition Model :=
  model.insertNew path ⟨.directory, []⟩

def symlink (model : Model) (path : BytePath) (target : Bytes) : Except Condition Model :=
  model.insertNew path ⟨.symlink, target⟩

/-- Replace a file's bytes: the body `write` and `truncate` share. -/
def editContent (model : Model) (path : BytePath) (edit : Bytes → Bytes)
    : Except Condition Model :=
  match model.live[path]? with
  | none => .error .noEntry
  | some node =>
      if node.kind.isDir then .error .isDirectory
      else if node.kind = .symlink then .error .invalid
      else
        .ok { live := model.live.insert path { node with content := edit node.content } }

/-- `Vec::resize` with zeros to hold the data, then `copy_from_slice`. -/
def overwriteAt (offset : Nat) (data content : Bytes) : Bytes :=
  let stop := offset + data.length
  let content := if content.length < stop then setLen content stop else content
  content.take offset ++ data ++ content.drop stop

def write (model : Model) (path : BytePath) (offset : Nat) (data : Bytes)
    : Except Condition Model :=
  model.editContent path (overwriteAt offset data)

def truncate (model : Model) (path : BytePath) (size : Nat) : Except Condition Model :=
  model.editContent path (setLen · size)

def setExecutable (model : Model) (path : BytePath) (executable : Bool)
    : Except Condition Model :=
  match model.live[path]? with
  | none => .error .noEntry
  | some node =>
      if node.kind.isFile then
        let kind := if executable then OverlayKind.executable else .regular
        .ok { live := model.live.insert path { node with kind } }
      else .ok model

def unlink (model : Model) (path : BytePath) : Except Condition Model :=
  match model.get path with
  | none => .error .noEntry
  | some node =>
      if node.kind.isDir then .error .isDirectory
      else .ok { live := model.live.erase path }

def rmdir (model : Model) (path : BytePath) : Except Condition Model :=
  match model.get path with
  | none => .error .noEntry
  | some node =>
      if !node.kind.isDir then .error .notDirectory
      else if !model.isEmptyDir path then .error .notEmpty
      else .ok { live := model.live.erase path }

/-- Everything at or under the destination goes, then everything at or under the source
moves across.
-/
def relocate (live : Live) (source target : BytePath) : Live :=
  let doomed := live.keys.filter (isWithin · target)
  let live := doomed.foldl (fun live path => live.erase path) live
  let movers := live.toList.filter (fun row => isWithin row.1 source)
  movers.foldl
    (fun live row =>
      (live.erase row.1).insert (target ++ row.1.drop source.length) row.2)
    live

def rename (model : Model) (source target : BytePath) : Except Condition Model :=
  if source = target then .ok model
  else if isWithin target source then .error .invalid
  else
    match model.get source with
    | none => .error .noEntry
    | some moving => do
        model.checkParent target
        match model.get target with
        | none => pure ()
        | some replaced =>
            match moving.kind.isDir, replaced.kind.isDir with
            | true, false => throw .notDirectory
            | false, true => throw .isDirectory
            | true, true => if !model.isEmptyDir target then throw .notEmpty
            | false, false => pure ()
        return { live := relocate model.live source target }

end Model

-- Reading the overlay back as a filesystem

/-- A row as a node: its bytes are in the row, in its content file, or in the base. -/
def nodeOf (digests : Digests) (overlay : Overlay) (base : BaseTree) (entry : OverlayEntry)
    : Node where
  kind := entry.kind
  content :=
    match entry.content with
    | .none => entry.symlinkTarget.getD []
    | .local _ => (overlay.openContent entry).getD []
    | .base oid => (base.contentOfOid digests oid).getD []

/-- The children `walk` finds in one directory: the base's names first, then the overlay's
own.
-/
def walkChildren (digests : Digests) (overlay : Overlay) (base : BaseTree) (dir : BytePath)
    : List (Bytes × Node) :=
  let baseNames :=
    if masksBase overlay.entries dir then [] else base.childNames dir
  baseNames.filterMap (fun name =>
    match resolve overlay.entries (dir.join name) with
    | .absent => none
    | .overlay entry => some (name, nodeOf digests overlay base entry)
    | .base => ((base.get (dir.join name)).bind Node.ofBase).map (name, ·))
  ++ (overlay.extraChildren dir baseNames).map (fun entry =>
    (entry.name, nodeOf digests overlay base entry))

/-- The depth-first walk. The source recurses without a bound; `fuel` bounds the depth. -/
def walk (digests : Digests) (overlay : Overlay) (base : BaseTree)
    : Nat → BytePath → List (BytePath × Node)
  | 0, _ => []
  | fuel + 1, dir =>
      (walkChildren digests overlay base dir).flatMap (fun child =>
        (dir.join child.1, child.2)
          :: (if child.2.kind.isDir then walk digests overlay base fuel (dir.join child.1)
              else []))

/-- No path of the overlay or of the base is longer than this. -/
def pathBound (overlay : Overlay) (base : BaseTree) : Nat :=
  ((overlay.entries.keys ++ base.nodes.keys).map List.length).foldr max 0

/-- The overlay's merged view over a base tree. -/
def mergedView (digests : Digests) (overlay : Overlay) (base : BaseTree) : Live :=
  (walk digests overlay base (pathBound overlay base + 1) BytePath.root).foldl
    (fun out row => out.insert row.1 row.2)
    ∅

-- One operation, applied to both

inductive Op where
  | createFile (path : BytePath)
  | mkdir (path : BytePath)
  | symlink (path : BytePath) (target : Bytes)
  | write (path : BytePath) (offset : Nat) (data : Bytes)
  | truncate (path : BytePath) (size : Nat)
  | setExecutable (path : BytePath) (executable : Bool)
  | unlink (path : BytePath)
  | rmdir (path : BytePath)
  | rename (source target : BytePath)
  deriving DecidableEq, Repr

def Op.applyToModel (model : Model) : Op → Except Condition Model
  | .createFile path => model.createFile path
  | .mkdir path => model.mkdir path
  | .symlink path target => model.symlink path target
  | .write path offset data => model.write path offset data
  | .truncate path size => model.truncate path size
  | .setExecutable path executable => model.setExecutable path executable
  | .unlink path => model.unlink path
  | .rmdir path => model.rmdir path
  | .rename source target => model.rename source target

/-- Stands in for the client's inode table: an FNV hash of the path, never zero. -/
def inoFor (path : BytePath) : Nat :=
  let hash :=
    path.foldl
      (fun hash byte => (hash ^^^ byte.toNat) * 1099511628211 % 2 ^ 64)
      1469598103934665603
  hash % (overlayInoBase - 2) + 2

def parentFor (digests : Digests) (base : BaseTree) (path : BytePath) : Parent where
  ino := inoFor (parentOf path)
  base := base.facts digests (parentOf path)

/-- The bytes a copy-up starts from: what the entry points at, not what the base has under
the same path. `inl` is a path with nothing to copy, with or without a refusal.
-/
def copyUpBytes (digests : Digests) (base : BaseTree) (overlay : Overlay) (path : BytePath)
    : Except Condition Unit ⊕ Bytes :=
  match resolve overlay.entries path with
  | .absent => .inl (.error .noEntry)
  | .overlay entry =>
      if entry.content.localId.isSome then .inl (.ok ())
      else if entry.kind.isDir then .inl (.error .isDirectory)
      else
        match entry.content with
        | .base oid => .inr ((base.contentOfOid digests oid).getD [])
        | _ => .inr []
  | .base =>
      match base.get path with
      | none => .inl (.error .noEntry)
      | some node =>
          if node.kind = .directory then .inl (.error .isDirectory) else .inr node.content

/-- Copy up a path so it can be written. -/
def copyUp (digests : Digests) (base : BaseTree) (overlay : Overlay) (host : Timestamp)
    (path : BytePath) (ino : Nat)
    : Except Condition Unit × Overlay :=
  match copyUpBytes digests base overlay path with
  | .inl answer => (answer, overlay)
  | .inr bytes =>
      let (answer, overlay) :=
        overlay.materialize host path (base.facts digests path) ino (some bytes)
      (answer.map (fun _ => ()), overlay)

/-- Apply the same operation to an overlay, supplying the base facts the FUSE layer would
have resolved. `host` and `later` are the clock's readings during the call.
-/
def Op.applyToOverlay (digests : Digests) (base : BaseTree) (overlay : Overlay)
    (host later : Timestamp)
    : Op → Except Condition Unit × Overlay
  | .createFile path =>
      let (answer, overlay) :=
        overlay.createFile host path (base.facts digests path)
          (parentFor digests base path) (inoFor path) false
      (answer.map (fun _ => ()), overlay)
  | .mkdir path =>
      let (answer, overlay) :=
        overlay.mkdir host path (base.facts digests path) (parentFor digests base path)
          (inoFor path)
      (answer.map (fun _ => ()), overlay)
  | .symlink path target =>
      let (answer, overlay) :=
        overlay.symlink host path target (base.facts digests path)
          (parentFor digests base path) (inoFor path)
      (answer.map (fun _ => ()), overlay)
  | .write path offset data =>
      match copyUp digests base overlay host path (inoFor path) with
      | (.error refusal, overlay) => (.error refusal, overlay)
      | (.ok (), overlay) =>
          let (answer, overlay) := overlay.writeAt later path offset data
          (answer.map (fun _ => ()), overlay)
  | .truncate path size =>
      match copyUp digests base overlay host path (inoFor path) with
      | (.error refusal, overlay) => (.error refusal, overlay)
      | (.ok (), overlay) =>
          let (answer, overlay) := overlay.truncate later path size
          (answer.map (fun _ => ()), overlay)
  | .setExecutable path executable =>
      let (answer, overlay) :=
        overlay.setExecutable host later path (base.facts digests path) (inoFor path)
          executable
      (answer.map (fun _ => ()), overlay)
  | .unlink path =>
      overlay.remove host later path (base.facts digests path)
        (parentFor digests base path) false true
  | .rmdir path =>
      let empty := overlay.mergedDirIsEmpty path (base.childNames path)
      overlay.remove host later path (base.facts digests path)
        (parentFor digests base path) true empty
  | .rename source target =>
      let empty := overlay.mergedDirIsEmpty target (base.childNames target)
      overlay.rename host source (inoFor source) (base.facts digests source)
        (parentFor digests base source) target (base.facts digests target)
        (parentFor digests base target) (base.descendants digests source) empty false

end Gfs.Overlay
