import Gfs.Git.Attributes
import Gfs.Git.Tree
import Gfs.Types.Lfs

/-! Reading commits, trees and blobs (`gfs-git/src/libgit2.rs`): path lookup, the attribute stack
of a path, LFS pointers, directory listings and tree walks. The object database is a value, and
a read fails where an object is missing from it.
-/

namespace Gfs.Git

open Gfs.Types

-- The object database

/-- What a commit records of its tree and its history. -/
structure CommitMeta where
  tree : ObjectId
  parents : List ObjectId
  deriving DecidableEq, Repr

/-- The object database. An object is named by a digest of its content, so no tree is below
itself: `weight` bounds the trees a walk from one visits.
-/
structure ObjectDb where
  commit : ObjectId → Option CommitMeta
  tree : ObjectId → Option TreeObject
  blob : ObjectId → Option Bytes
  weight : ObjectId → Nat
  acyclic
    : ∀ oid object, tree oid = some object
      → ((object.entries.filter DecodedEntry.isTree).map (fun entry => weight entry.oid)).sum
        < weight oid

/-- A missing object. -/
def noSuch (what : String) : GfsError :=
  ⟨.notFound, "no such ".toList ++ what.toList⟩

/-- A searchable file a walk comes by. -/
structure WalkEntry where
  path : BytePath
  mode : Nat
  oid : ObjectId
  size : Nat
  deriving DecidableEq, Repr

/-- The modes of searchable content. -/
def isSearchable (mode : Nat) : Bool :=
  mode = Mode.regular || mode = Mode.executable

/-- One detected LFS entry at a revision. -/
structure LfsEntry where
  path : BytePath
  blobOid : ObjectId
  blobSize : Nat
  pointer : LfsPointer
  deriving DecidableEq, Repr

namespace ObjectDb

variable (db : ObjectDb)

def findCommit (oid : ObjectId) : Except GfsError CommitMeta :=
  (db.commit oid).elim (.error (noSuch "commit")) .ok

def decodedTree (oid : ObjectId) : Except GfsError DecodedTree :=
  (db.tree oid).elim (.error (noSuch "tree")) (fun object => .ok (.new object))

def findBlob (oid : ObjectId) : Except GfsError Bytes :=
  (db.blob oid).elim (.error (noSuch "blob")) .ok

/-- `Odb::read_header`: a blob's size. -/
def readHeader (oid : ObjectId) : Except GfsError Nat :=
  (db.findBlob oid).map List.length

/-- The tree a walk down some components ends in, if they are directories. -/
def descend : DecodedTree → List Bytes → Except GfsError (Option DecodedTree)
  | tree, [] => .ok (some tree)
  | tree, name :: names =>
      match tree.get name with
      | none => .ok none
      | some entry =>
          if entry.mode ≠ Mode.directory then .ok none
          else
            match db.decodedTree entry.oid with
            | .ok child => descend child names
            | .error refusal => .error refusal

/-- Walk to the tree containing a path, returning it and the final component. -/
def walkToParent (commit : ObjectId) (path : BytePath)
    : Except GfsError (Option (DecodedTree × Bytes)) := do
  let found ← db.findCommit commit
  let root ← db.decodedTree found.tree
  match path.components.getLast? with
  | none => pure none
  | some last =>
      let parent ← db.descend root path.components.dropLast
      pure (parent.map (fun tree => (tree, last)))

/-- The decoded tree a directory path names, or `none` for a gitlink. -/
def directoryTree (commit : ObjectId) (path : BytePath)
    : Except GfsError (Option DecodedTree) := do
  if path = [] then
    let found ← db.findCommit commit
    let tree ← db.decodedTree found.tree
    pure (some tree)
  else
    match (← db.walkToParent commit path).bind (fun parent => parent.1.get parent.2) with
    | none => throw (noSuch "directory")
    | some entry =>
        if entry.mode = Mode.directory then
          let tree ← db.decodedTree entry.oid
          pure (some tree)
        else if entry.mode = Mode.gitlink then pure none
        else throw (.invalid "not a directory")

-- Attributes and pointers

/-- `.gitattributes` -/
def attributesName : Bytes :=
  [46, 103, 105, 116, 97, 116, 116, 114, 105, 98, 117, 116, 101, 115]

/-- The attribute file of a directory, with an empty stand-in where there is none. -/
def attributeFile (tree : Option DecodedTree) : Except GfsError AttributeFile :=
  match tree.bind (·.get attributesName) with
  | none => .ok .empty
  | some entry =>
      if EntryKind.fromMode entry.mode = .regular then
        (db.findBlob entry.oid).map AttributeFile.parse
      else .ok .empty

/-- The attribute files from a directory down along some components. -/
def attributeLevels : Option DecodedTree → List Bytes → Except GfsError (List AttributeFile)
  | tree, [] => (db.attributeFile tree).map (fun file => [file])
  | tree, name :: names => do
      let file ← db.attributeFile tree
      let child
        ← match tree.bind (·.get name) with
          | none => pure none
          | some entry =>
              if entry.mode = Mode.directory then (db.decodedTree entry.oid).map some
              else pure none
      let files ← attributeLevels child names
      pure (file :: files)

/-- The attribute stack for a path, root-first. -/
def attributeStack (commit : ObjectId) (path : BytePath) : Except GfsError (List AttributeFile) :=
  if path.components = [] then .ok []
  else do
    let found ← db.findCommit commit
    let root ← db.decodedTree found.tree
    db.attributeLevels (some root) path.components.dropLast

/-- Whether a path carries `filter=lfs` at a commit. -/
def lfsFiltered (commit : ObjectId) (path : BytePath) : Except GfsError Bool := do
  let stack ← db.attributeStack commit path
  pure (isLfs (resolveFilter stack path))

/-- Resolve an entry to its LFS pointer, or `none` when it is not an LFS entry. -/
def lfsPointerFor (commit : ObjectId) (path : BytePath) (kind : EntryKind) (blobOid : ObjectId)
    (size : Nat)
    : Except GfsError (Option LfsPointer) :=
  if kind ≠ .regular ∧ kind ≠ .executable then .ok none
  else if size = 0 ∨ size > maxPointerSize then .ok none
  else do
    if ← db.lfsFiltered commit path then
      let content ← db.findBlob blobOid
      pure (parsePointer content)
    else pure none

-- Walks

/-- The subdirectories of a tree, with their paths. -/
def subtrees (lead : BytePath) (tree : DecodedTree) : List (ObjectId × BytePath) :=
  (tree.entries.filter DecodedEntry.isTree).map (fun entry => (entry.oid, lead.join entry.name))

/-- The trees a stack of them may still lead to. -/
def stackWeight (stack : List (ObjectId × BytePath)) : Nat :=
  (stack.map (fun pending => db.weight pending.1)).sum

/-- A popped tree leaves less to walk than it was. -/
theorem stackWeight_subtrees {oid : ObjectId} {object : TreeObject}
    (found : db.tree oid = some object) (lead : BytePath) (lastFirst : Bool)
    (stack : List (ObjectId × BytePath))
    : db.stackWeight
        ((if lastFirst then (subtrees lead (.new object)).reverse
          else subtrees lead (.new object))
        ++ stack)
      < db.stackWeight ((oid, lead) :: stack) := by
  have sum_subtrees
      : ((subtrees lead (.new object)).map (fun pending => db.weight pending.1)).sum
        = ((object.entries.filter DecodedEntry.isTree).map (fun e => db.weight e.oid)).sum := by
    rw [subtrees, List.map_map]
    exact (((List.mergeSort_perm object.entries inTreeOrder).filter _).map _).sum_eq
  have below := db.acyclic oid object found
  rw [stackWeight, stackWeight, List.map_append, List.sum_append, List.map_cons, List.sum_cons]
  have children
      : (((if lastFirst then (subtrees lead (.new object)).reverse
            else subtrees lead (.new object))).map (fun pending => db.weight pending.1)).sum
        = ((subtrees lead (.new object)).map (fun pending => db.weight pending.1)).sum := by
    cases lastFirst with
    | true => rw [if_pos rfl, List.map_reverse, List.sum_reverse]
    | false => rw [if_neg Bool.false_ne_true]
  rw [children, sum_subtrees]
  exact Nat.add_lt_add_right below _

/-- Walk trees off an explicit stack, visiting every entry that is no directory. A walk whose
subtrees are pushed in order pops the last first.
-/
def walk {α : Type} (lastFirst : Bool) (visit : BytePath → DecodedEntry → Except GfsError (List α))
    : List (ObjectId × BytePath) → Except GfsError (List α)
  | [] => .ok []
  | (oid, lead) :: stack =>
      match _found : db.tree oid with
      | none => .error (noSuch "tree")
      | some object => do
          let here
            ← ((DecodedTree.new object).entries.filter (fun entry => !entry.isTree)).mapM
                (fun entry => visit (lead.join entry.name) entry)
          let rest
            ← walk lastFirst visit
                ((if lastFirst then (subtrees lead (.new object)).reverse
                  else subtrees lead (.new object))
                ++ stack)
          pure (here.flatten ++ rest)
termination_by stack => db.stackWeight stack
decreasing_by exact db.stackWeight_subtrees _found lead lastFirst stack

def visitFile (path : BytePath) (entry : DecodedEntry) : Except GfsError (List WalkEntry) :=
  if isSearchable entry.mode then
    (db.readHeader entry.oid).map (fun size => [⟨path, entry.mode, entry.oid, size⟩])
  else .ok []

/-- The regular and executable files under a directory. -/
def walkTree (commit : ObjectId) (root : BytePath) : Except GfsError (List WalkEntry) := do
  let start
    ← if root = [] then (db.findCommit commit).map CommitMeta.tree
      else
        match (← db.walkToParent commit root).bind (fun parent => parent.1.get parent.2) with
        | none => throw (noSuch "directory")
        | some entry =>
            if entry.mode ≠ Mode.directory then throw (.invalid "not a directory")
            else pure entry.oid
  db.walk false db.visitFile [(start, root)]

def visitPointer (commit : ObjectId) (path : BytePath) (entry : DecodedEntry)
    : Except GfsError (List LfsEntry) :=
  if isSearchable entry.mode then do
    let size ← db.readHeader entry.oid
    match ← db.lfsPointerFor commit path (.fromMode entry.mode) entry.oid size with
    | some pointer => pure [⟨path, entry.oid, size, pointer⟩]
    | none => pure []
  else .ok []

/-- Every LFS entry of a commit's tree. -/
def lfsPointers (commit : ObjectId) : Except GfsError (List LfsEntry) := do
  let found ← db.findCommit commit
  db.walk true (db.visitPointer commit) [(found.tree, [])]

end ObjectDb

-- Entries and listings

/-- An opened repository: its objects, and which LFS objects its store holds when it has one. -/
structure Repository where
  db : ObjectDb
  lfsCheck : Option (ObjectId → Bool)

/-- What the service tells of one entry. -/
structure TreeEntryInfo where
  path : BytePath
  kind : EntryKind
  mode : Nat
  oid : ObjectId
  size : Nat
  symlinkTarget : Option Bytes
  deriving DecidableEq, Repr

/-- One page of a directory. -/
structure DirectoryPage where
  entries : List TreeEntryInfo
  nextPageToken : Option Bytes
  deriving DecidableEq, Repr

def maxDirectoryPageSize : Nat := 10000

namespace Repository

variable (repo : Repository)

/-- An entry's own size, and its target when it is a symlink. -/
def blobFacts (kind : EntryKind) (oid : ObjectId) : Except GfsError (Nat × Option Bytes) :=
  match kind with
  | .symlink => (repo.db.findBlob oid).map (fun content => (content.length, some content))
  | .regular | .executable => (repo.db.readHeader oid).map (fun size => (size, none))
  | _ => .ok (0, none)

/-- The id and the size an entry is shown with: the pointer's, where the store holds what it names,
and else the blob's own.
-/
def expanded (commit : ObjectId) (path : BytePath) (kind : EntryKind) (oid : ObjectId) (size : Nat)
    : Except GfsError (ObjectId × Nat) :=
  match repo.lfsCheck with
  | none => .ok (oid, size)
  | some contains =>
      (repo.db.lfsPointerFor commit path kind oid size).map (fun
        | some pointer =>
            if contains pointer.oid then (pointer.oid, pointer.size) else (oid, size)
        | none => (oid, size))

/-- Build the entry for one decoded tree entry. -/
def entryInfo (commit : ObjectId) (path : BytePath) (decoded : DecodedEntry)
    : Except GfsError TreeEntryInfo := do
  let kind := EntryKind.fromMode decoded.mode
  let facts ← repo.blobFacts kind decoded.oid
  let shown ← repo.expanded commit path kind decoded.oid facts.1
  pure ⟨path, kind, decoded.mode, shown.1, shown.2, facts.2⟩

/-- Resolve one entry. The root is a directory. -/
def entry (commit : ObjectId) (path : BytePath) : Except GfsError (Option TreeEntryInfo) := do
  if path = [] then
    let found ← repo.db.findCommit commit
    pure (some ⟨[], .directory, Mode.directory, found.tree, 0, none⟩)
  else
    match (← repo.db.walkToParent commit path).bind (fun parent => parent.1.get parent.2) with
    | none => pure none
    | some decoded => (repo.entryInfo commit path decoded).map some

/-- One page of a directory, resuming after a sort key. -/
def listDirectory (commit : ObjectId) (path : BytePath) (after : Option Bytes) (limit : Nat)
    : Except GfsError DirectoryPage := do
  match ← repo.db.directoryTree commit path with
  | none => pure ⟨[], none⟩
  | some tree =>
      let (page, next) := tree.page after (min (max limit 1) maxDirectoryPageSize)
      let entries
        ← page.mapM (fun decoded => repo.entryInfo commit (path.join decoded.name) decoded)
      pure ⟨entries, next⟩

end Repository

end Gfs.Git
