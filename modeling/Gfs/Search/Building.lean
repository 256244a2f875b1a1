import Gfs.Lib.Runs
import Gfs.Search.Manifest

/-! The two ways to build a snapshot's manifest (`gfs-service/src/search/mod.rs`): from the trees
of its commit, and from the manifest of its first parent and the difference of the trees
(`diff_commits` of `gfs-git/src/libgit2.rs`). What libgit2 makes of the modes in a tree, what it
lists as the difference and what the registry numbers the blobs with are parameters.
-/

namespace Gfs.Search.Manifests

open Gfs.Git
open Gfs.Types
open Gfs.Lib.Overwrites
open Gfs.Search.Index (BlobKey)

-- Objects as libgit2 gives them

/-- `git2::FileMode` -/
inductive FileMode where
  | blob
  | blobExecutable
  | link
  | tree
  | commit
  | blobGroupWritable
  | unreadable
  deriving DecidableEq, Repr

/-- libgit2's `FileMode` as the raw Git mode. 33204 is octal 100664. -/
def gitMode : FileMode → Nat
  | .blob => Mode.regular
  | .blobExecutable => Mode.executable
  | .link => Mode.symlink
  | .tree => Mode.directory
  | .commit => Mode.gitlink
  | .blobGroupWritable => 33204
  | .unreadable => 0

/-- `git2::DiffFile`: one side of a delta, with its mode as it stands in the tree. -/
structure DiffFile where
  path : Option BytePath
  attr : Nat
  id : ObjectId
  «exists» : Bool
  deriving DecidableEq, Repr

/-- `git2::DiffDelta` -/
structure DiffDelta where
  oldFile : DiffFile
  newFile : DiffFile
  deriving DecidableEq, Repr

/-- A tree entry as it was written. Git has written modes other than its own. -/
structure StoredEntry where
  name : Bytes
  attr : Nat
  oid : ObjectId
  deriving DecidableEq, Repr

/-- A tree object as it was written. -/
structure StoredTree where
  entries : List StoredEntry
  named : ∀ entry ∈ entries, IsComponent entry.name
  unique : (entries.map StoredEntry.name).Nodup

/-- An entry as `decoded_tree` takes it, with its mode normalised. -/
def StoredEntry.decoded (filemode : Nat → Nat) (entry : StoredEntry) : DecodedEntry :=
  ⟨entry.name, filemode entry.attr, entry.oid⟩

def StoredTree.decoded (filemode : Nat → Nat) (tree : StoredTree) : TreeObject where
  entries := tree.entries.map (StoredEntry.decoded filemode)
  named := by
    intro entry member
    obtain ⟨stored, listed, rfl⟩ := List.mem_map.mp member
    exact tree.named stored listed
  unique := by
    rw [List.map_map]
    exact tree.unique

/-- What libgit2 answers about one repository. -/
structure Libgit2 where
  commit : ObjectId → Option CommitMeta
  tree : ObjectId → Option StoredTree
  blob : ObjectId → Option Bytes
  /-- `TreeEntry::filemode`, which normalises the mode of an entry. -/
  filemode : Nat → Nat
  /-- `DiffFile::mode`, which gives the mode of a side as it stands. -/
  mode : Nat → Option FileMode
  /-- `Repository::diff_tree_to_tree`, by the ids of the trees. -/
  diff : ObjectId → ObjectId → Except GfsError (List DiffDelta)
  weight : ObjectId → Nat
  acyclic
    : ∀ oid object, tree oid = some object
      → (((object.decoded filemode).entries.filter DecodedEntry.isTree).map
          (fun entry => weight entry.oid)).sum
        < weight oid

namespace Libgit2

variable (git : Libgit2)

/-- The objects as the readers of trees see them. -/
def db : ObjectDb where
  commit := git.commit
  tree oid := (git.tree oid).map (StoredTree.decoded git.filemode)
  blob := git.blob
  weight := git.weight
  acyclic := by
    intro oid object found
    obtain ⟨stored, here, rfl⟩ := Option.map_eq_some_iff.mp found
    exact git.acyclic oid stored here

/-- `git_mode` of a side's mode. Without an answer of `DiffFile::mode` the operation panics. -/
def modeOf (file : DiffFile) : Except GfsError Nat :=
  match git.mode file.attr with
  | some mode => .ok (gitMode mode)
  | none => .error ⟨.internal, "repository operation failed".toList⟩

end Libgit2

-- Differences of trees

/-- How one path differs between two commits. -/
inductive TreeDelta where
  | upserted (path : BytePath) (mode : Nat) (oid : ObjectId) (size : Nat)
  | removed (path : BytePath)
  deriving DecidableEq, Repr

namespace Libgit2

variable (git : Libgit2)

/-- What a manifest has to do about a delta. A file that became a symlink is removed from the
searchable corpus even though the path still exists.
-/
def treeDelta (delta : DiffDelta) : Except GfsError (Option TreeDelta) := do
  let newMode ← git.modeOf delta.newFile
  if isSearchable newMode ∧ delta.newFile.exists then
    match delta.newFile.path with
    | none => pure none
    | some path => do
        let size ← git.db.readHeader delta.newFile.id
        pure (some (.upserted path newMode delta.newFile.id size))
  else
    let oldMode ← git.modeOf delta.oldFile
    if isSearchable oldMode ∧ delta.oldFile.exists then
      pure (delta.oldFile.path.map .removed)
    else pure none

def diffCommits («from» «to» : ObjectId) : Except GfsError (List TreeDelta) := do
  let old ← git.db.findCommit «from»
  let new ← git.db.findCommit «to»
  let deltas ← git.diff old.tree new.tree
  let out ← deltas.mapM git.treeDelta
  pure (out.filterMap id)

end Libgit2

-- Building

/-- What the registry is told of a blob. -/
structure BlobFact where
  oid : ObjectId
  size : Nat
  lfs : Bool
  deriving DecidableEq, Repr

/-- One key for each fact, in order. -/
abbrev Ingest := List BlobFact → Except GfsError (List BlobKey)

/-- The pointer blob of a path, by the LFS entries of the commit. -/
def lfsLookup (lfs : List LfsEntry) (path : BytePath) : Option (ObjectId × Nat) :=
  (lfs.reverse.find? (fun entry => entry.path = path)).map
    (fun entry => (entry.blobOid, entry.blobSize))

/-- The fact of a path: the pointer blob's where it has one. -/
def factOf (lfs : List LfsEntry) (path : BytePath) (oid : ObjectId) (size : Nat) : BlobFact :=
  match lfsLookup lfs path with
  | some (blobOid, blobSize) => ⟨blobOid, blobSize, true⟩
  | none => ⟨oid, size, false⟩

def upsertOf (lfs : List LfsEntry) : TreeDelta → Option (BytePath × Nat × BlobFact)
  | .upserted path mode oid size => some (path, mode, factOf lfs path oid size)
  | .removed _ => none

def removalOf : TreeDelta → Option ManifestDelta
  | .removed path => some (.removed path)
  | .upserted .. => none

def upsertedOf (upsert : (BytePath × Nat × BlobFact) × BlobKey) : ManifestDelta :=
  .upserted upsert.1.1 upsert.1.2.1 upsert.2

/-- Build a commit's manifest from that of its first parent. -/
def buildIncremental (git : Libgit2) (ingest : Ingest) (commit parent : ObjectId)
    (base : Manifest) (lfs : List LfsEntry)
    : Except GfsError Manifest := do
  let deltas ← git.diffCommits parent commit
  let upserts := deltas.filterMap (upsertOf lfs)
  let keys ← ingest (upserts.map (fun upsert => upsert.2.2))
  pure (base.apply commit (deltas.filterMap removalOf ++ (upserts.zip keys).map upsertedOf))

/-- The pages of the root, up to a number of them. -/
def rootEntries (repo : Repository) (commit : ObjectId)
    : Nat → Option Bytes → Except GfsError (List TreeEntryInfo)
  | 0, _ => .ok []
  | fuel + 1, after => do
      let page ← repo.listDirectory commit [] after maxDirectoryPageSize
      match page.nextPageToken with
      | none => pure page.entries
      | some token => do
          let rest ← rootEntries repo commit fuel (some token)
          pure (page.entries ++ rest)

/-- A page lists an entry at least, so the root has no more pages than entries and one more. -/
def rootPages (db : ObjectDb) (commit : ObjectId) : Nat :=
  match db.directoryTree commit [] with
  | .ok (some tree) => tree.entries.length + 1
  | _ => 1

/-- A file of the root listing. -/
def rootFile (info : TreeEntryInfo) : Option (BytePath × Nat × ObjectId × Nat) :=
  if info.kind = .regular ∨ info.kind = .executable then
    some (info.path, info.mode, info.oid, info.size)
  else none

def walkedFile (entry : WalkEntry) : BytePath × Nat × ObjectId × Nat :=
  (entry.path, entry.mode, entry.oid, entry.size)

def entryOf (file : (BytePath × Nat × ObjectId × Nat) × BlobKey) : PathEntry :=
  ⟨file.1.1, file.1.2.1, file.2⟩

/-- Build a commit's manifest from its trees. The subtrees of the root are walked by tasks, which
finish in any order.
-/
def buildFull (repo : Repository) (finish : List BytePath → List BytePath) (ingest : Ingest)
    (commit : ObjectId) (lfs : List LfsEntry)
    : Except GfsError Manifest := do
  let listed ← rootEntries repo commit (rootPages repo.db commit) none
  let directories := (listed.filter (fun info => info.kind = .directory)).map TreeEntryInfo.path
  let subtrees ← (finish directories).mapM (repo.db.walkTree commit)
  let walked := listed.filterMap rootFile ++ subtrees.flatten.map walkedFile
  let keys ← ingest (walked.map (fun file => factOf lfs file.1 file.2.2.1 file.2.2.2))
  pure (.build commit ((walked.zip keys).map entryOf))

-- Runs

/-- The READY manifests. -/
abbrev Ready := ObjectId → Option Manifest

/-- One preparation of a commit: whether it may start from its first parent, what the LFS store
holds by then, the order its walks finish in and the registry it numbers blobs with.
-/
structure Preparation where
  commit : ObjectId
  incremental : Bool
  lfsCheck : Option (ObjectId → Bool)
  finish : List BytePath → List BytePath
  ingest : Ingest

/-- The first parent's manifest, when it is READY. -/
def incrementalBase (db : ObjectDb) (ready : Ready) (commit : ObjectId)
    : Except GfsError (Option (ObjectId × Manifest)) := do
  let found ← db.findCommit commit
  pure (found.parents.head?.bind (fun parent => (ready parent).map (fun base => (parent, base))))

/-- Build one snapshot's manifest. -/
def prepare (git : Libgit2) (ready : Ready) (preparation : Preparation)
    : Except GfsError Manifest := do
  let lfs ← git.db.lfsPointers preparation.commit
  let full :=
    buildFull ⟨git.db, preparation.lfsCheck⟩ preparation.finish preparation.ingest
      preparation.commit lfs
  match ← incrementalBase git.db ready preparation.commit with
  | some (parent, base) =>
      if preparation.incremental then
        buildIncremental git preparation.ingest preparation.commit parent base lfs
      else full
  | none => full

/-- What happens to the manifests: a preparation, or a collection. -/
inductive Event where
  | prepare (preparation : Preparation)
  | collect (commit : ObjectId)

/-- The manifests after an event. A commit that is READY is not built again, and a preparation that
fails leaves none.
-/
def step (git : Libgit2) (ready : Ready) : Event → Ready
  | .prepare preparation =>
      match ready preparation.commit with
      | some _ => ready
      | none =>
          match Manifests.prepare git ready preparation with
          | .ok manifest => Function.update ready preparation.commit (some manifest)
          | .error _ => ready
  | .collect commit => Function.update ready commit none

-- What the parameters promise

namespace Libgit2

variable (git : Libgit2)

/-- The entry under some names below a tree that is no directory, as it was written. -/
def storedAt : ObjectId → List Bytes → Option StoredEntry
  | _, [] => none
  | oid, [name] =>
      ((git.tree oid).bind (fun tree => tree.entries.find? (fun entry => entry.name = name))).filter
        (fun entry => !(entry.decoded git.filemode).isTree)
  | oid, name :: names =>
      (((git.tree oid).bind
          (fun tree => tree.entries.find? (fun entry => entry.name = name))).filter
        (fun entry => (entry.decoded git.filemode).isTree)).bind
          (fun entry => storedAt entry.oid names)

/-- The mode and the id at a path of a tree as they were written, where there is no directory. -/
def storedFile (tree : ObjectId) (path : BytePath) : Option (Nat × ObjectId) :=
  (git.storedAt tree (path.splitOn slash)).map (fun entry => (entry.attr, entry.oid))

end Libgit2

/-- A side of a delta tells what is at a path. Where nothing is, or a directory, it is no file. -/
def DiffFile.Shows (file : DiffFile) (path : BytePath) : Option (Nat × ObjectId) → Prop
  | some (attr, oid) =>
      file.path = some path ∧ file.attr = attr ∧ file.id = oid ∧ file.exists = true
  | none => file.exists = false ∧ file.attr = 0 ∨ file.attr = Mode.directory

/-- A delta tells what one path was and is. -/
def DiffDelta.Tells (git : Libgit2) (old new : ObjectId) (delta : DiffDelta) (path : BytePath)
    : Prop :=
  delta.oldFile.Shows path (git.storedFile old path)
  ∧ delta.newFile.Shows path (git.storedFile new path)

/-- libgit2 as documented: Git's own modes of files are normal, `DiffFile::mode` names each mode of
its own and no other one by it, and a diff of trees lists exactly the paths whose mode and id
differ, a type change as one delta.
-/
structure Libgit2.Documented (git : Libgit2) : Prop where
  filemode : ∀ attr, isSearchable attr = true → git.filemode attr = attr
  mode : ∀ mode, git.mode (gitMode mode) = some mode
  other
    : ∀ attr mode, git.mode attr = some mode → gitMode mode = attr ∨ mode = .unreadable
  sound
    : ∀ old new deltas, git.diff old new = .ok deltas
      → ∀ delta ∈ deltas, ∃ path,
          git.storedFile old path ≠ git.storedFile new path ∧ delta.Tells git old new path
  complete
    : ∀ old new deltas, git.diff old new = .ok deltas
      → ∀ path, git.storedFile old path ≠ git.storedFile new path
        → ∃ delta ∈ deltas, delta.Tells git old new path

/-- The registry numbers blobs by their ids. -/
def Interns (keyOf : ObjectId → BlobKey) (ingest : Ingest) : Prop :=
  ∀ facts keys, ingest facts = .ok keys → keys = facts.map (fun fact => keyOf fact.oid)

/-- A preparation as the service runs one: every walk finishes once, and the registry numbers
blobs by their ids.
-/
structure Preparation.Sound (keyOf : ObjectId → BlobKey) (preparation : Preparation) : Prop where
  finish : ∀ directories, (preparation.finish directories).Perm directories
  ingest : Interns keyOf preparation.ingest

-- Modes that tell

namespace Libgit2

variable (git : Libgit2)

/-- The regular or executable file that the readers of trees see at a path. -/
def fileOf (stored : Option (Nat × ObjectId)) : Option (Nat × ObjectId) :=
  (stored.map (fun file => (git.filemode file.1, file.2))).filter (fun file => isSearchable file.1)

/-- The file that a side of a delta shows: its mode counts as it stands. -/
def shownFile (stored : Option (Nat × ObjectId)) : Option (Nat × ObjectId) :=
  stored.filter (fun file => isSearchable file.1)

/-- `DiffFile::mode` has an answer for a side. -/
def Named (stored : Option (Nat × ObjectId)) : Prop :=
  ∀ file ∈ stored, git.mode file.1 ≠ none

/-- Every mode that a build on another tree asks for has a name. -/
def NamesModes (old new : ObjectId) : Prop :=
  ∀ path,
    git.storedFile old path ≠ git.storedFile new path
    → git.Named (git.storedFile new path)
      ∧ (shownFile (git.storedFile new path) = none → git.Named (git.storedFile old path))

/-- The modes of a path's two sides tell an incremental build what became of it. The mode of the new
side has a name; where it shows no file, so has the old one, and if that shows a file there is none
any more, while otherwise there is the same as before.
-/
def Told (old new : Option (Nat × ObjectId)) : Prop :=
  git.Named new
  ∧ (shownFile new = none
    → git.Named old
      ∧ git.fileOf new = if (shownFile old).isSome then none else git.fileOf old)

/-- The modes tell of every path that differs between two trees. -/
def Legible (old new : ObjectId) : Prop :=
  ∀ path,
    git.storedFile old path ≠ git.storedFile new path
    → git.Told (git.storedFile old path) (git.storedFile new path)

end Libgit2

-- Exact manifests

/-- A manifest holds exactly the regular and executable files of its commit's tree. -/
def Manifest.Exact (db : ObjectDb) (keyOf : ObjectId → BlobKey) (commit : ObjectId)
    (manifest : Manifest)
    : Prop :=
  ∀ path,
    manifest.find path
      = (db.fileAt commit path).map (fun file => (file.1, keyOf file.2))

section Facts

variable {db : ObjectDb} {commit : ObjectId} {found : CommitMeta} {lfs : List LfsEntry}

theorem fileAt_eq_some {path : BytePath} {mode : Nat} {oid : ObjectId}
    : db.fileAt commit path = some (mode, oid)
      ↔ ∃ entry,
          db.leaf commit path = some entry
          ∧ isSearchable entry.mode = true
          ∧ entry.mode = mode
          ∧ entry.oid = oid := by
  rw [ObjectDb.fileAt, Option.map_eq_some_iff]
  simp [Option.filter_eq_some_iff, and_assoc]

theorem zip_keyed {α β : Type} (items : List α) (key : α → β)
    : items.zip (items.map key) = items.map (fun item => (item, key item)) := by
  induction items with
  | nil => rfl
  | cons item items ih => rw [List.map_cons, List.zip_cons_cons, ih, List.map_cons]

/-- The fact of a file names its blob, also where the entry was shown expanded. -/
theorem factOf_oid (listed : db.lfsPointers commit = .ok lfs) {path : BytePath}
    {entry : DecodedEntry} (leaf : db.leaf commit path = some entry) {oid : ObjectId} (size : Nat)
    (shown
      : oid = entry.oid
        ∨ isSearchable entry.mode = true
          ∧ ∃ size pointer,
              db.readHeader entry.oid = .ok size
              ∧ db.lfsPointerFor commit path (.fromMode entry.mode) entry.oid size
                = .ok (some pointer))
    : (factOf lfs path oid size).oid = entry.oid := by
  rw [factOf]
  cases looked : lfsLookup lfs path with
  | some pair =>
      obtain ⟨pointed, first, same⟩ := Option.map_eq_some_iff.mp looked
      have named : pointed.path = path := by simpa using List.find?_some first
      have member := List.mem_reverse.mp (List.mem_of_find?_eq_some first)
      obtain ⟨other, leaf', -, blob, -⟩ := (mem_lfsPointers listed).mp member
      rw [named, leaf] at leaf'
      cases leaf'
      cases same
      exact blob
  | none =>
      rcases shown with plain | ⟨searchable, header, pointer, sized, resolved⟩
      · exact plain
      · have member
            : (⟨path, entry.oid, header, pointer⟩ : LfsEntry) ∈ lfs :=
          (mem_lfsPointers listed).mpr ⟨entry, leaf, searchable, rfl, sized, resolved⟩
        have absent := List.find?_eq_none.mp (Option.map_eq_none_iff.mp looked) _
          (List.mem_reverse.mpr member)
        simp at absent

end Facts

-- Entries as they were written

section Stored

variable {git : Libgit2} {commit : ObjectId} {found : CommitMeta}

/-- A leaf is an entry as it was written, with its mode normalised. -/
theorem leafAt_db (oid : ObjectId) (names : List Bytes)
    : git.db.leafAt oid names
      = (git.storedAt oid names).map (StoredEntry.decoded git.filemode) := by
  have lookup (oid : ObjectId) (name : Bytes)
      : (git.db.tree oid).bind (fun object => (DecodedTree.new object).get name)
        = ((git.tree oid).bind
              (fun tree => tree.entries.find? (fun entry => entry.name = name))).map
            (StoredEntry.decoded git.filemode) := by
    rw [Libgit2.db, Option.bind_map, Option.map_bind]
    refine Option.bind_congr fun tree _ => ?_
    refine Option.ext fun entry => ?_
    rw [Function.comp_apply, Function.comp_apply, DecodedTree.get_new, Option.map_eq_some_iff]
    constructor
    · rintro ⟨member, named⟩
      obtain ⟨stored, listed, rfl⟩ := List.mem_map.mp member
      cases first : tree.entries.find? (fun entry => entry.name = name) with
      | none =>
          have missing := List.find?_eq_none.mp first stored listed
          exact absurd (decide_eq_true (show stored.name = name from named)) missing
      | some other =>
          have called : other.name = name := by simpa using List.find?_some first
          have same := List.inj_on_of_nodup_map tree.unique (List.mem_of_find?_eq_some first)
            listed (called.trans (show stored.name = name from named).symm)
          exact ⟨other, rfl, by rw [same]⟩
    · rintro ⟨stored, first, rfl⟩
      have called : stored.name = name := by simpa using List.find?_some first
      exact ⟨List.mem_map_of_mem (List.mem_of_find?_eq_some first), called⟩
  induction names generalizing oid with
  | nil => rfl
  | cons name names ih =>
      cases names with
      | nil =>
          rw [ObjectDb.leafAt, Libgit2.storedAt, lookup, Option.filter_map]
          rfl
      | cons next names =>
          have cons_ne : next :: names ≠ [] := List.cons_ne_nil next names
          rw [ObjectDb.leafAt, Libgit2.storedAt, lookup, Option.filter_map, Option.bind_map,
            Option.map_bind]
          · exact Option.bind_congr fun entry _ => ih entry.oid
          · exact cons_ne
          · exact cons_ne

theorem leaf_db (committed : git.commit commit = some found) (path : BytePath)
    : git.db.leaf commit path
      = (git.storedAt found.tree (path.splitOn slash)).map (StoredEntry.decoded git.filemode) := by
  rw [ObjectDb.leaf, show git.db.commit commit = some found from committed, Option.bind_some,
    leafAt_db]

theorem fileAt_eq (committed : git.commit commit = some found) (path : BytePath)
    : git.db.fileAt commit path = git.fileOf (git.storedFile found.tree path) := by
  rw [ObjectDb.fileAt, leaf_db committed, Libgit2.fileOf, Libgit2.storedFile]
  cases git.storedAt found.tree (path.splitOn slash) with
  | none => rfl
  | some entry =>
      rw [Option.map_some, Option.map_some, Option.map_some, Option.filter_some,
        Option.filter_some]
      cases searchable : isSearchable (git.filemode entry.attr) with
      | true => simp [StoredEntry.decoded, searchable]
      | false => simp [StoredEntry.decoded, searchable]

end Stored

-- The incremental build

section Incremental

variable {git : Libgit2} {keyOf : ObjectId → BlobKey}

theorem gitMode_of_searchable {attr : Nat} (searchable : isSearchable attr = true)
    : attr = gitMode .blob ∨ attr = gitMode .blobExecutable := by
  simpa [isSearchable, gitMode] using searchable

theorem Libgit2.Documented.isSearchable_gitMode (documented : git.Documented) {attr : Nat}
    {mode : FileMode} (named : git.mode attr = some mode)
    : isSearchable (gitMode mode) = isSearchable attr := by
  rcases documented.other attr mode named with same | rfl
  · rw [same]
  · cases searchable : isSearchable attr with
    | false => rfl
    | true =>
        rcases gitMode_of_searchable searchable with rfl | rfl
        · rw [documented.mode .blob] at named
          cases named
        · rw [documented.mode .blobExecutable] at named
          cases named

variable {stored : Option (Nat × ObjectId)} {path : BytePath} {commit : ObjectId}
  {found : CommitMeta}

theorem Libgit2.Documented.fileOf_shown (documented : git.Documented) {file : Nat × ObjectId}
    (shown : Libgit2.shownFile stored = some file)
    : stored = some file ∧ git.fileOf stored = some file := by
  obtain ⟨there, searchable⟩ := Option.filter_eq_some_iff.mp shown
  refine ⟨there, ?_⟩
  rw [there, Libgit2.fileOf, Option.map_some, documented.filemode file.1 searchable]
  exact Option.filter_eq_some_iff.mpr ⟨rfl, searchable⟩

theorem modeOf_shown (documented : git.Documented) {side : DiffFile}
    (shows_ : side.Shows path stored) {attr : Nat} {oid : ObjectId}
    (shown : Libgit2.shownFile stored = some (attr, oid))
    : git.modeOf side = .ok attr
      ∧ isSearchable attr = true
      ∧ side.path = some path
      ∧ side.id = oid
      ∧ side.exists = true := by
  obtain ⟨there, searchable⟩ := Option.filter_eq_some_iff.mp shown
  rw [there] at shows_
  obtain ⟨called, rfl, identified, present⟩ := shows_
  refine ⟨?_, searchable, called, identified, present⟩
  rcases gitMode_of_searchable (show isSearchable side.attr = true from searchable) with
    blob | executable
  · rw [Libgit2.modeOf, blob, documented.mode .blob]
  · rw [Libgit2.modeOf, executable, documented.mode .blobExecutable]

/-- A side that shows no file is no file by its mode, if that has a name. -/
theorem modeOf_hidden (documented : git.Documented) {side : DiffFile}
    (shows_ : side.Shows path stored) (hidden : Libgit2.shownFile stored = none)
    (named : git.Named stored)
    : ∃ mode, git.modeOf side = .ok mode ∧ ¬(isSearchable mode = true ∧ side.exists = true) := by
  cases stored with
  | none =>
      rcases shows_ with ⟨absent, zero⟩ | directory
      · refine ⟨gitMode .unreadable, ?_, fun file => ?_⟩
        · rw [Libgit2.modeOf, zero, show (0 : Nat) = gitMode .unreadable from rfl,
            documented.mode .unreadable]
        · rw [absent] at file
          cases file.2
      · refine ⟨gitMode .tree, ?_, fun file => ?_⟩
        · rw [Libgit2.modeOf, directory, show Mode.directory = gitMode .tree from rfl,
            documented.mode .tree]
        · cases file.1
  | some file =>
      obtain ⟨attr, oid⟩ := file
      obtain ⟨-, rfl, -, -⟩ := shows_
      obtain ⟨mode, answered⟩ := Option.ne_none_iff_exists'.mp (named (side.attr, oid) rfl)
      refine ⟨gitMode mode, by rw [Libgit2.modeOf, answered], fun there => ?_⟩
      rw [documented.isSearchable_gitMode answered] at there
      rw [Libgit2.shownFile, Option.filter_some, if_pos there.1] at hidden
      cases hidden

theorem modeOf_unnamed {side : DiffFile} (shows_ : side.Shows path stored)
    (unnamed : ¬git.Named stored)
    : ∃ refusal, git.modeOf side = .error refusal := by
  rw [Libgit2.Named] at unnamed
  push Not at unnamed
  obtain ⟨⟨attr, oid⟩, there, silent⟩ := unnamed
  rw [Option.mem_def] at there
  rw [there] at shows_
  obtain ⟨-, rfl, -, -⟩ := shows_
  exact ⟨_, by rw [Libgit2.modeOf, silent]⟩

section Deltas

variable {old new : ObjectId} {delta : DiffDelta} {path : BytePath}

theorem treeDelta_shown (documented : git.Documented) (tells : delta.Tells git old new path)
    {attr : Nat} {oid : ObjectId}
    (shown : Libgit2.shownFile (git.storedFile new path) = some (attr, oid))
    : git.treeDelta delta
      = (git.db.readHeader oid).map (fun size => some (.upserted path attr oid size)) := by
  obtain ⟨mode, searchable, called, identified, present⟩ := modeOf_shown documented tells.2 shown
  rw [Libgit2.treeDelta, mode]
  simp only [bind, Except.bind, searchable, present, and_self, if_true, called, identified]
  cases git.db.readHeader oid with
  | error refusal => rfl
  | ok size => rfl

/-- One whose new side shows none removes what the old side shows. -/
theorem treeDelta_hidden (documented : git.Documented) (tells : delta.Tells git old new path)
    (hidden : Libgit2.shownFile (git.storedFile new path) = none)
    (named : git.Named (git.storedFile new path)) (known : git.Named (git.storedFile old path))
    : git.treeDelta delta
      = .ok (if (Libgit2.shownFile (git.storedFile old path)).isSome then some (.removed path)
          else none) := by
  obtain ⟨newMode, answered, noFile⟩ := modeOf_hidden documented tells.2 hidden named
  rw [Libgit2.treeDelta, answered]
  simp only [bind, Except.bind]
  rw [if_neg noFile]
  cases shown : Libgit2.shownFile (git.storedFile old path) with
  | none =>
      obtain ⟨oldMode, answered, noFile⟩ := modeOf_hidden documented tells.1 shown known
      simp only [answered]
      rw [if_neg noFile]
      rfl
  | some file =>
      obtain ⟨mode, searchable, called, -, present⟩ := modeOf_shown documented tells.1 shown
      simp only [mode, searchable, present, and_self, if_true, called, Option.isSome_some]
      rfl

theorem treeDelta_named (documented : git.Documented) (tells : delta.Tells git old new path)
    {result : Option TreeDelta} (ran : git.treeDelta delta = .ok result)
    : git.Named (git.storedFile new path)
      ∧ (Libgit2.shownFile (git.storedFile new path) = none
        → git.Named (git.storedFile old path)) := by
  have named : git.Named (git.storedFile new path) := by
    by_contra unnamed
    obtain ⟨refusal, panics⟩ := modeOf_unnamed tells.2 unnamed
    rw [Libgit2.treeDelta, panics] at ran
    cases ran
  refine ⟨named, fun hidden => ?_⟩
  by_contra unnamed
  obtain ⟨refusal, panics⟩ := modeOf_unnamed tells.1 unnamed
  obtain ⟨mode, answered, noFile⟩ := modeOf_hidden documented tells.2 hidden named
  rw [Libgit2.treeDelta, answered] at ran
  simp only [bind, Except.bind] at ran
  rw [if_neg noFile, panics] at ran
  cases ran

/-- A delta is made into the file its new side shows, or into the removal of the old side's. -/
theorem treeDelta_eq_ok (documented : git.Documented) (tells : delta.Tells git old new path)
    {result : Option TreeDelta} (ran : git.treeDelta delta = .ok result)
    : (∃ attr oid size,
        Libgit2.shownFile (git.storedFile new path) = some (attr, oid)
        ∧ result = some (.upserted path attr oid size))
      ∨ (Libgit2.shownFile (git.storedFile new path) = none
        ∧ result
          = if (Libgit2.shownFile (git.storedFile old path)).isSome then some (.removed path)
            else none) := by
  cases shown : Libgit2.shownFile (git.storedFile new path) with
  | some file =>
      rw [treeDelta_shown documented tells shown] at ran
      cases header : git.db.readHeader file.2 with
      | error refusal =>
          rw [header] at ran
          cases ran
      | ok size =>
          rw [header] at ran
          cases ran
          exact .inl ⟨file.1, file.2, size, rfl, rfl⟩
  | none =>
      obtain ⟨named, known⟩ := treeDelta_named documented tells ran
      rw [treeDelta_hidden documented tells shown named (known shown)] at ran
      cases ran
      exact .inr ⟨rfl, rfl⟩

end Deltas

/-- What `diff_commits` lists for two trees: the files that new sides show, and the paths of those
that only old sides show.
-/
structure Reports (git : Libgit2) (old new : ObjectId) (deltas : List TreeDelta) : Prop where
  upserted
    : ∀ path mode oid,
        (∃ size, .upserted path mode oid size ∈ deltas)
        ↔ git.storedFile old path ≠ git.storedFile new path
          ∧ Libgit2.shownFile (git.storedFile new path) = some (mode, oid)
  removed
    : ∀ path,
        .removed path ∈ deltas
        ↔ git.storedFile old path ≠ git.storedFile new path
          ∧ Libgit2.shownFile (git.storedFile new path) = none
          ∧ (Libgit2.shownFile (git.storedFile old path)).isSome = true
  named : git.NamesModes old new

/-- `diff_commits` reports on the trees of its commits. -/
theorem diffCommits_spec (documented : git.Documented) {parent : ObjectId} {was : CommitMeta}
    (parented : git.commit parent = some was) (committed : git.commit commit = some found)
    {deltas : List TreeDelta} (ran : git.diffCommits parent commit = .ok deltas)
    : Reports git was.tree found.tree deltas := by
  obtain ⟨old, oldFound, ran⟩ := bind_eq_ok.mp ran
  obtain ⟨new, newFound, ran⟩ := bind_eq_ok.mp ran
  cases (findCommit_eq_ok.mp oldFound).symm.trans parented
  cases (findCommit_eq_ok.mp newFound).symm.trans committed
  obtain ⟨listed, diffed, ran⟩ := bind_eq_ok.mp ran
  obtain ⟨results, mapped, ran⟩ := bind_eq_ok.mp ran
  cases ran
  have each := Lib.Mapped.mapM_eq_ok.mp mapped
  -- Every listed delta tells of a path that differs, and what was made of it.
  have told
      : ∀ delta ∈ results.filterMap id,
          ∃ path raw,
            git.storedFile was.tree path ≠ git.storedFile found.tree path
            ∧ raw.Tells git was.tree found.tree path
            ∧ git.treeDelta raw = .ok (some delta) := by
    intro delta member
    obtain ⟨result, given, same⟩ := List.mem_filterMap.mp member
    obtain ⟨raw, rawListed, made⟩ := Lib.Mapped.exists_of_forall₂_right each given
    obtain ⟨path, differs, tells⟩ := documented.sound _ _ _ diffed raw rawListed
    cases same
    exact ⟨path, raw, differs, tells, made⟩
  -- Every path that differs is told of.
  have heard
      : ∀ path,
          git.storedFile was.tree path ≠ git.storedFile found.tree path
          → ∃ raw result,
              raw.Tells git was.tree found.tree path
              ∧ git.treeDelta raw = .ok result
              ∧ ∀ delta ∈ result, delta ∈ results.filterMap id := by
    intro path differs
    obtain ⟨raw, rawListed, tells⟩ := documented.complete _ _ _ diffed path differs
    obtain ⟨result, given, made⟩ := Lib.Mapped.exists_of_forall₂_left each rawListed
    exact ⟨raw, result, tells, made, fun delta same =>
      List.mem_filterMap.mpr ⟨result, given, same⟩⟩
  refine ⟨fun path mode oid => ⟨?_, ?_⟩, fun path => ⟨?_, ?_⟩, fun path differs => ?_⟩
  · rintro ⟨size, member⟩
    obtain ⟨other, raw, differs, tells, made⟩ := told _ member
    rcases treeDelta_eq_ok documented tells made with ⟨attr, file, length, shown, same⟩ | ⟨-, same⟩
    · cases same
      exact ⟨differs, shown⟩
    · split at same
      · cases same
      · cases same
  · rintro ⟨differs, shown⟩
    obtain ⟨raw, result, tells, made, listed⟩ := heard path differs
    rcases treeDelta_eq_ok documented tells made with ⟨attr, file, size, same, rfl⟩ | ⟨hidden, -⟩
    · cases shown.symm.trans same
      exact ⟨size, listed _ rfl⟩
    · cases shown.symm.trans hidden
  · intro member
    obtain ⟨other, raw, differs, tells, made⟩ := told _ member
    rcases treeDelta_eq_ok documented tells made with ⟨attr, file, size, -, same⟩ | ⟨hidden, same⟩
    · cases same
    · split at same
      · rename_i removes
        cases same
        exact ⟨differs, hidden, removes⟩
      · cases same
  · rintro ⟨differs, hidden, removes⟩
    obtain ⟨raw, result, tells, made, listed⟩ := heard path differs
    rcases treeDelta_eq_ok documented tells made with ⟨attr, file, size, shown, -⟩ | ⟨-, same⟩
    · cases shown.symm.trans hidden
    · rw [if_pos removes] at same
      exact listed _ same
  · obtain ⟨raw, result, tells, made, -⟩ := heard path differs
    exact treeDelta_named documented tells made

/-- What an incremental build makes of a path, from what its manifest held there. -/
def carried (keyOf : ObjectId → BlobKey) (old new : Option (Nat × ObjectId))
    (base : Option (Nat × BlobKey))
    : Option (Nat × BlobKey) :=
  if old = new then base
  else
    match Libgit2.shownFile new with
    | some (mode, oid) => some (mode, keyOf oid)
    | none => if (Libgit2.shownFile old).isSome then none else base

section Reported

variable {old new : ObjectId} {deltas : List TreeDelta} {upserts : List ManifestDelta}
  {base : Option (Nat × BlobKey)}

/-- The deltas that put a manifest's files are made of those that put a diff's. -/
def KeyedUpserts (keyOf : ObjectId → BlobKey) (deltas : List TreeDelta)
    (upserts : List ManifestDelta)
    : Prop :=
  ∀ upsert,
    upsert ∈ upserts
    ↔ ∃ path mode oid size,
        .upserted path mode oid size ∈ deltas ∧ upsert = .upserted path mode (keyOf oid)

theorem mem_removals {removal : ManifestDelta}
    : removal ∈ deltas.filterMap removalOf
      ↔ ∃ path, TreeDelta.removed path ∈ deltas ∧ removal = .removed path := by
  rw [List.mem_filterMap]
  constructor
  · rintro ⟨raw, listed, same⟩
    cases raw with
    | upserted => cases same
    | removed path =>
        cases same
        exact ⟨path, listed, rfl⟩
  · rintro ⟨path, listed, rfl⟩
    exact ⟨_, listed, rfl⟩

theorem Reports.carried_written (reports : Reports git old new deltas)
    (keyed : KeyedUpserts keyOf deltas upserts) {path : BytePath} {value : Option (Nat × BlobKey)}
    (written : (path, value) ∈ (deltas.filterMap removalOf ++ upserts).map Manifest.write)
    : carried keyOf (git.storedFile old path) (git.storedFile new path) base = value := by
  obtain ⟨delta, given, same⟩ := List.mem_map.mp written
  rcases List.mem_append.mp given with removal | upsert
  · obtain ⟨removed, listed, rfl⟩ := mem_removals.mp removal
    cases same
    obtain ⟨differs, hidden, removes⟩ := (reports.removed path).mp listed
    rw [carried, if_neg differs, hidden]
    exact if_pos removes
  · obtain ⟨put, mode, oid, size, listed, rfl⟩ := (keyed delta).mp upsert
    cases same
    obtain ⟨differs, shown⟩ := (reports.upserted path mode oid).mp ⟨size, listed⟩
    rw [carried, if_neg differs, shown]

/-- A path that nothing is written to keeps what it had. -/
theorem Reports.carried_unwritten (reports : Reports git old new deltas)
    (keyed : KeyedUpserts keyOf deltas upserts) {path : BytePath}
    (unwritten
      : ∀ value, (path, value) ∉ (deltas.filterMap removalOf ++ upserts).map Manifest.write)
    : carried keyOf (git.storedFile old path) (git.storedFile new path) base = base := by
  rw [carried]
  split
  · rfl
  · rename_i differs
    cases shown : Libgit2.shownFile (git.storedFile new path) with
    | some file =>
        obtain ⟨size, listed⟩ := (reports.upserted path file.1 file.2).mpr ⟨differs, shown⟩
        have put := (keyed (.upserted path file.1 (keyOf file.2))).mpr ⟨_, _, _, _, listed, rfl⟩
        exact absurd (List.mem_map.mpr ⟨_, List.mem_append_right _ put, rfl⟩)
          (unwritten (some (file.1, keyOf file.2)))
    | none =>
        refine if_neg fun removes => unwritten none ?_
        have listed := (reports.removed path).mpr ⟨differs, shown, removes⟩
        have removal := mem_removals.mpr ⟨path, listed, rfl⟩
        exact List.mem_map.mpr ⟨_, List.mem_append_left _ removal, rfl⟩

end Reported

/-- The files that are put are keyed by their blobs, also where LFS shows another. -/
theorem Reports.keyed {old : ObjectId} {deltas : List TreeDelta} {lfs : List LfsEntry}
    (reports : Reports git old found.tree deltas) (documented : git.Documented)
    (committed : git.commit commit = some found) (listed : git.db.lfsPointers commit = .ok lfs)
    : KeyedUpserts keyOf deltas
        ((deltas.filterMap (upsertOf lfs)).map
          (upsertedOf ∘ fun upsert => (upsert, keyOf upsert.2.2.oid))) := by
  have blob
      : ∀ path mode oid size,
          .upserted path mode oid size ∈ deltas → (factOf lfs path oid size).oid = oid := by
    intro path mode oid size put
    obtain ⟨-, shown⟩ := (reports.upserted path mode oid).mp ⟨size, put⟩
    obtain ⟨there, file⟩ := documented.fileOf_shown shown
    rw [← fileAt_eq committed] at file
    obtain ⟨entry, leaf, -, -, rfl⟩ := fileAt_eq_some.mp file
    exact factOf_oid listed leaf size (.inl rfl)
  intro upsert
  rw [List.mem_map]
  constructor
  · rintro ⟨row, taken, rfl⟩
    obtain ⟨raw, put, same⟩ := List.mem_filterMap.mp taken
    cases raw with
    | removed => cases same
    | upserted path mode oid size =>
        cases same
        refine ⟨path, mode, oid, size, put, ?_⟩
        rw [Function.comp_apply, upsertedOf, blob path mode oid size put]
  · rintro ⟨path, mode, oid, size, put, rfl⟩
    refine ⟨(path, mode, factOf lfs path oid size), List.mem_filterMap.mpr ⟨_, put, rfl⟩, ?_⟩
    rw [Function.comp_apply, upsertedOf, blob path mode oid size put]

/-- The manifest of an incremental build, path by path. -/
theorem find_buildIncremental (documented : git.Documented) {ingest : Ingest}
    (interns : Interns keyOf ingest) {parent : ObjectId} {was : CommitMeta}
    (parented : git.commit parent = some was) (committed : git.commit commit = some found)
    {base : Manifest} {lfs : List LfsEntry} (listed : git.db.lfsPointers commit = .ok lfs)
    {manifest : Manifest} (ran : buildIncremental git ingest commit parent base lfs = .ok manifest)
    (path : BytePath)
    : manifest.find path
      = carried keyOf (git.storedFile was.tree path) (git.storedFile found.tree path)
          (base.find path) := by
  obtain ⟨deltas, diffed, ran⟩ := bind_eq_ok.mp ran
  obtain ⟨keys, ingested, ran⟩ := bind_eq_ok.mp ran
  cases ran
  have reports := diffCommits_spec documented parented committed diffed
  have keyed : KeyedUpserts keyOf deltas _ := reports.keyed documented committed listed
  have keys_ := interns _ _ ingested
  rw [List.map_map] at keys_
  rw [keys_, zip_keyed, List.map_map, Manifest.find_apply]
  cases last : lastWrite path _ with
  | some written => exact (reports.carried_written keyed (mem_of_lastWrite last)).symm
  | none =>
      refine (reports.carried_unwritten keyed fun value written => ?_).symm
      obtain ⟨later, found⟩ := exists_lastWrite written
      cases last.symm.trans found

/-- Files that have one key are one file. -/
theorem keyed_injective {oidOf : BlobKey → Option ObjectId}
    (oneKey
      : ∀ commit path mode oid, git.db.fileAt commit path = some (mode, oid)
        → oidOf (keyOf oid) = some oid)
    {commit' : ObjectId} {path' : BytePath}
    (same
      : (git.db.fileAt commit path).map (fun file => (file.1, keyOf file.2))
        = (git.db.fileAt commit' path').map (fun file => (file.1, keyOf file.2)))
    : git.db.fileAt commit path = git.db.fileAt commit' path' := by
  cases first : git.db.fileAt commit path with
  | none =>
      rw [first, Option.map_none] at same
      exact (Option.map_eq_none_iff.mp same.symm).symm
  | some file =>
      rw [first, Option.map_some] at same
      obtain ⟨other, second, keyed⟩ := Option.map_eq_some_iff.mp same.symm
      obtain ⟨mode, key⟩ := Prod.mk.inj keyed
      have one := oneKey commit path file.1 file.2 first
      have two := oneKey commit' path' other.1 other.2 second
      rw [key, one] at two
      exact second.symm ▸ congrArg some (Prod.ext mode.symm (Option.some.inj two))

/-- A manifest built from an exact one of the first parent is exact exactly where the modes tell of
every path that differs.
-/
theorem buildIncremental_exact_iff (documented : git.Documented) {oidOf : BlobKey → Option ObjectId}
    (oneKey
      : ∀ commit path mode oid, git.db.fileAt commit path = some (mode, oid)
        → oidOf (keyOf oid) = some oid)
    {ingest : Ingest} (interns : Interns keyOf ingest) {parent : ObjectId} {was : CommitMeta}
    (parented : git.commit parent = some was) (committed : git.commit commit = some found)
    {base : Manifest} (exact_ : base.Exact git.db keyOf parent) {lfs : List LfsEntry}
    (listed : git.db.lfsPointers commit = .ok lfs) {manifest : Manifest}
    (ran : buildIncremental git ingest commit parent base lfs = .ok manifest)
    : manifest.Exact git.db keyOf commit ↔ git.Legible was.tree found.tree := by
  have read :=
    find_buildIncremental documented interns parented committed listed ran
  obtain ⟨deltas, diffed, -⟩ := bind_eq_ok.mp ran
  have named := (diffCommits_spec documented parented committed diffed).named
  refine forall_congr' fun path => ?_
  rw [read, exact_ path, carried]
  by_cases same : git.storedFile was.tree path = git.storedFile found.tree path
  · rw [if_pos same]
    refine iff_of_true ?_ fun differs => absurd same differs
    rw [fileAt_eq parented, fileAt_eq committed, same]
  · rw [if_neg same]
    cases shown : Libgit2.shownFile (git.storedFile found.tree path) with
    | some file =>
        obtain ⟨-, there⟩ := documented.fileOf_shown shown
        refine iff_of_true ?_ fun _ => ⟨(named path same).1, fun hidden => ?_⟩
        · rw [fileAt_eq committed, there]
          rfl
        · rw [shown] at hidden
          cases hidden
    | none =>
        obtain ⟨answered, known⟩ := named path same
        have told
            : git.Told (git.storedFile was.tree path) (git.storedFile found.tree path)
              ↔ git.db.fileAt commit path
                = if (Libgit2.shownFile (git.storedFile was.tree path)).isSome then none
                  else git.db.fileAt parent path := by
          rw [fileAt_eq committed, fileAt_eq parented]
          constructor
          · exact fun told => (told.2 shown).2
          · exact fun there => ⟨answered, fun _ => ⟨known shown, there⟩⟩
        rw [imp_iff_right same, told]
        dsimp only
        split
        · constructor
          · exact fun gone => Option.map_eq_none_iff.mp gone.symm
          · intro gone
            rw [gone, Option.map_none]
        · exact ⟨fun keyed => (keyed_injective oneKey keyed).symm, fun there => by rw [there]⟩

end Incremental

-- The full build

section Full

variable {repo : Repository} {keyOf : ObjectId → BlobKey} {commit : ObjectId}
  {found : CommitMeta} {object : TreeObject}

/-- The pages of the root hold every entry of its tree once. -/
theorem rootEntries_ok (committed : repo.db.commit commit = some found)
    (rooted : repo.db.tree found.tree = some object) (fuel : Nat) (after : Option Bytes)
    (enough : ((DecodedTree.new object).remaining after).length < fuel)
    {listed : List TreeEntryInfo} (ran : rootEntries repo commit fuel after = .ok listed)
    : List.Forall₂ (fun decoded info => repo.entryInfo commit decoded.name decoded = .ok info)
        ((DecodedTree.new object).remaining after) listed := by
  induction fuel generalizing after listed with
  | zero => exact absurd enough (Nat.not_lt_zero _)
  | succ fuel ih =>
      obtain ⟨page, opened, ran⟩ := bind_eq_ok.mp ran
      have shown := listDirectory_root committed rooted opened
      have split_ := @DecodedTree.page_new object after _
        (show 0 < min (max maxDirectoryPageSize 1) maxDirectoryPageSize by decide)
      generalize (DecodedTree.new object).page after
        (min (max maxDirectoryPageSize 1) maxDirectoryPageSize) = pages at shown split_
      obtain ⟨entries, next⟩ := pages
      obtain ⟨mapped, token⟩ := shown
      rw [token] at ran
      cases next with
      | none =>
          cases ran
          rw [← show entries = _ from split_]
          exact mapped
      | some resume =>
          obtain ⟨rest, later, whole⟩ := bind_eq_ok.mp ran
          cases whole
          obtain ⟨both, nonempty⟩ := split_
          have shorter := congrArg List.length both
          rw [List.length_append] at shorter
          have some_ := List.length_pos_iff.mpr nonempty
          rw [← both]
          exact List.rel_append mapped (ih (some resume) (by omega) later)

theorem isSearchable_iff_kind {mode : Nat}
    : isSearchable mode = true
      ↔ EntryKind.fromMode mode = .regular ∨ EntryKind.fromMode mode = .executable := by
  rw [isSearchable, EntryKind.fromMode]
  split_ifs <;> simp_all [Mode.regular, Mode.executable]

theorem isTree_iff_kind {entry : DecodedEntry}
    : entry.isTree = true ↔ EntryKind.fromMode entry.mode = .directory := by
  rw [DecodedEntry.isTree, decide_eq_true_iff, EntryKind.fromMode]
  split_ifs <;> simp_all [Mode.regular, Mode.executable, Mode.symlink, Mode.directory]

theorem isTree_of_searchable {entry : DecodedEntry} (searchable : isSearchable entry.mode = true)
    : entry.isTree = false := by
  cases tree : entry.isTree with
  | false => rfl
  | true =>
      have kind := isTree_iff_kind.mp tree
      rcases isSearchable_iff_kind.mp searchable with other | other <;>
        · rw [kind] at other
          cases other

/-- The files a full build lists are the searchable leaves of the commit, each with its blob. -/
theorem walked_spec (committed : repo.db.commit commit = some found)
    (rooted : repo.db.tree found.tree = some object) {lfs : List LfsEntry}
    (listedLfs : repo.db.lfsPointers commit = .ok lfs) {listed : List TreeEntryInfo}
    (opened
      : List.Forall₂ (fun decoded info => repo.entryInfo commit decoded.name decoded = .ok info)
          (DecodedTree.new object).entries listed)
    {directories : List BytePath}
    (asked
      : directories.Perm
          ((listed.filter (fun info => info.kind = .directory)).map TreeEntryInfo.path))
    {subtrees : List (List WalkEntry)}
    (walked
      : List.Forall₂ (fun path visited => repo.db.walkTree commit path = .ok visited) directories
          subtrees)
    : let files := listed.filterMap rootFile ++ subtrees.flatten.map walkedFile
      (∀ file ∈ files, ∃ entry,
          repo.db.leaf commit file.1 = some entry
          ∧ isSearchable entry.mode = true
          ∧ file.2.1 = entry.mode
          ∧ (factOf lfs file.1 file.2.2.1 file.2.2.2).oid = entry.oid)
        ∧ ∀ path entry,
            repo.db.leaf commit path = some entry
            → isSearchable entry.mode = true
            → ∃ file ∈ files, file.1 = path := by
  -- The tasks' paths are the top-level directories.
  have topLevel
      : ∀ path, path ∈ directories
        ↔ ∃ directory ∈ object.entries, directory.isTree = true ∧ directory.name = path := by
    intro path
    rw [asked.mem_iff, List.mem_map]
    constructor
    · rintro ⟨info, member, rfl⟩
      obtain ⟨shown, kind⟩ := List.mem_filter.mp member
      obtain ⟨decoded, given, built⟩ := Lib.Mapped.exists_of_forall₂_right opened shown
      obtain ⟨named, kinded, -, -⟩ := entryInfo_ok built
      refine ⟨decoded, DecodedTree.mem_new.mp given, ?_, named.symm⟩
      exact isTree_iff_kind.mpr (kinded ▸ of_decide_eq_true kind)
    · rintro ⟨directory, member, tree, rfl⟩
      obtain ⟨info, shown, built⟩ :=
        Lib.Mapped.exists_of_forall₂_left opened (DecodedTree.mem_new.mpr member)
      obtain ⟨named, kinded, -, -⟩ := entryInfo_ok built
      refine ⟨info, List.mem_filter.mpr ⟨shown, ?_⟩, named⟩
      exact decide_eq_true (kinded.trans (isTree_iff_kind.mp tree))
  constructor
  · intro file member
    rcases List.mem_append.mp member with own | below
    · obtain ⟨info, shown, same⟩ := List.mem_filterMap.mp own
      obtain ⟨decoded, given, built⟩ := Lib.Mapped.exists_of_forall₂_right opened shown
      obtain ⟨named, kinded, moded, blob⟩ := entryInfo_ok built
      rw [rootFile] at same
      split at same
      · rename_i isFile
        cases same
        have searchable : isSearchable decoded.mode = true :=
          isSearchable_iff_kind.mpr (kinded ▸ isFile)
        have leaf : repo.db.leaf commit info.path = some decoded :=
          (leaf_iff committed rooted).mpr (.inl ⟨DecodedTree.mem_new.mp given,
            isTree_of_searchable searchable, named⟩)
        exact ⟨decoded, leaf, searchable, moded,
          factOf_oid listedLfs leaf info.size (named ▸ blob)⟩
      · cases same
    · obtain ⟨visited, listedThere, rfl⟩ := List.mem_map.mp below
      obtain ⟨walk, given, member⟩ := List.mem_flatten.mp listedThere
      obtain ⟨path, asked, ran⟩ := Lib.Mapped.exists_of_forall₂_right walked given
      obtain ⟨directory, listed, tree, rfl⟩ := (topLevel path).mp asked
      rw [walkTree_child committed rooted listed tree] at ran
      obtain ⟨entry, under, searchable, moded, blob, -⟩ := (mem_walk_visitFile ran).mp member
      have leaf : repo.db.leaf commit visited.path = some entry :=
        (leaf_iff committed rooted).mpr (.inr ⟨directory, listed, tree, under⟩)
      exact ⟨entry, leaf, searchable, moded,
        factOf_oid listedLfs leaf visited.size (.inl blob)⟩
  · intro path entry leaf searchable
    rcases (leaf_iff committed rooted).mp leaf with
      ⟨member, -, rfl⟩ | ⟨directory, member, tree, under⟩
    · obtain ⟨info, shown, built⟩ :=
        Lib.Mapped.exists_of_forall₂_left opened (DecodedTree.mem_new.mpr member)
      obtain ⟨named, kinded, -, -⟩ := entryInfo_ok built
      refine ⟨(info.path, info.mode, info.oid, info.size), ?_, named⟩
      refine List.mem_append_left _ (List.mem_filterMap.mpr ⟨info, shown, ?_⟩)
      rw [rootFile, if_pos (kinded ▸ isSearchable_iff_kind.mp searchable)]
    · obtain ⟨visited, given, ran⟩ :=
        Lib.Mapped.exists_of_forall₂_left walked ((topLevel _).mpr ⟨directory, member, tree, rfl⟩)
      rw [walkTree_child committed rooted member tree] at ran
      obtain ⟨results, visit⟩ := (mem_walk ran).1 path entry under
      have header : ∃ size, repo.db.readHeader entry.oid = .ok size := by
        rw [ObjectDb.visitFile, if_pos searchable] at visit
        cases read : repo.db.readHeader entry.oid with
        | ok size => exact ⟨size, rfl⟩
        | error refusal =>
            rw [read] at visit
            cases visit
      obtain ⟨size, header⟩ := header
      have listed : (⟨path, entry.mode, entry.oid, size⟩ : WalkEntry) ∈ visited :=
        (mem_walk_visitFile ran).mpr ⟨entry, under, searchable, rfl, rfl, header⟩
      exact ⟨_, List.mem_append_right _ (List.mem_map_of_mem
        (List.mem_flatten.mpr ⟨visited, given, listed⟩)), rfl⟩

/-- A manifest built from the trees of a commit is exact. -/
theorem buildFull_exact {finish : List BytePath → List BytePath}
    (finishes : ∀ directories, (finish directories).Perm directories) {ingest : Ingest}
    (interns : Interns keyOf ingest) {lfs : List LfsEntry}
    (listedLfs : repo.db.lfsPointers commit = .ok lfs) {manifest : Manifest}
    (ran : buildFull repo finish ingest commit lfs = .ok manifest)
    : manifest.Exact repo.db keyOf commit := by
  obtain ⟨found, object, committed, rooted⟩ := rooted_of_lfsPointers listedLfs
  obtain ⟨listed, opened, ran⟩ := bind_eq_ok.mp ran
  obtain ⟨subtrees, walked, ran⟩ := bind_eq_ok.mp ran
  obtain ⟨keys, ingested, ran⟩ := bind_eq_ok.mp ran
  cases ran
  have pages : rootPages repo.db commit = (DecodedTree.new object).entries.length + 1 := by
    rw [rootPages, directoryTree_root committed rooted]
  have own := rootEntries_ok committed rooted _ none
    (by rw [pages]; exact Nat.lt_succ_self _) opened
  obtain ⟨true_, complete⟩ :=
    walked_spec committed rooted listedLfs own (finishes _) (Lib.Mapped.mapM_eq_ok.mp walked)
  generalize listed.filterMap rootFile ++ subtrees.flatten.map walkedFile = files at *
  have keyed := interns _ _ ingested
  have table
      : (files.zip keys).map entryOf
        = files.map (fun file =>
          ⟨file.1, file.2.1, keyOf (factOf lfs file.1 file.2.2.1 file.2.2.2).oid⟩) := by
    rw [keyed, List.map_map, zip_keyed, List.map_map]
    rfl
  rw [table]
  generalize listedThere : files.map _ = entries
  have says_
      : ∀ entry,
          entry ∈ entries
            ↔ ∃ oid,
                repo.db.fileAt commit entry.path = some (entry.mode, oid)
                ∧ entry.key = keyOf oid := by
    intro entry
    rw [← listedThere, List.mem_map]
    constructor
    · rintro ⟨file, member, rfl⟩
      obtain ⟨leafEntry, leaf, searchable, moded, blob⟩ := true_ file member
      exact ⟨leafEntry.oid,
        fileAt_eq_some.mpr ⟨leafEntry, leaf, searchable, moded.symm, rfl⟩, congrArg keyOf blob⟩
    · rintro ⟨oid, there, key⟩
      obtain ⟨leafEntry, leaf, searchable, moded, rfl⟩ := fileAt_eq_some.mp there
      obtain ⟨file, member, named⟩ := complete _ _ leaf searchable
      obtain ⟨other, leaf', -, moded', blob⟩ := true_ file member
      rw [named, leaf] at leaf'
      cases leaf'
      refine ⟨file, member, ?_⟩
      rw [blob, moded', named, moded, ← key]
  have agree : ∀ a ∈ entries, ∀ b ∈ entries, a.path = b.path → a = b := by
    intro a left b right same
    obtain ⟨oid, there, key⟩ := (says_ a).mp left
    obtain ⟨oid', there', key'⟩ := (says_ b).mp right
    obtain ⟨path, mode, number⟩ := a
    obtain ⟨path', mode', number'⟩ := b
    cases same
    rw [there] at there'
    cases there'
    rw [PathEntry.mk.injEq]
    exact ⟨rfl, rfl, key.trans key'.symm⟩
  intro path
  refine Option.ext ?_
  rintro ⟨mode, key⟩
  rw [Manifest.find_eq_some, Manifest.mem_build agree, says_, Option.map_eq_some_iff]
  constructor
  · rintro ⟨oid, there, rfl⟩
    exact ⟨_, there, rfl⟩
  · rintro ⟨⟨mode', oid⟩, there, same⟩
    cases same
    exact ⟨oid, there, rfl⟩

end Full

end Gfs.Search.Manifests
