import Gfs.Git.Walk

/-! The two listings of a whole commit (`gfs-git/src/libgit2.rs` and `gfs-git/src/index.rs`): the
pages of `list_tree`, and the entries of the index `index_for_commit` writes. The bytes of the
index and its cache tree are left out. Whatever lists a path lists the entry that a lookup of the
path finds.
-/

namespace Gfs.Git

open Gfs.Types

-- Directories by path

theorem components_join (dir : BytePath) {name : Bytes} (component : IsComponent name)
    : (dir.join name).components = dir.components ++ [name] := by
  have own : BytePath.components name = [name] := by
    rw [BytePath.components, splitOn_component component.2]
    simp [component.1]
  have below : ∀ front, BytePath.components (front ++ slash :: name)
      = BytePath.components front ++ [name] := by
    intro front
    rw [← own, BytePath.components, splitOn_append_slash, List.filter_append]
    rfl
  rw [BytePath.join]
  by_cases root : dir = []
  · subst root
    exact own
  · by_cases last : dir.getLast? = some slash
    · obtain ⟨front, rfl⟩ := List.getLast?_eq_some_iff.mp last
      rw [if_neg (by simp), List.append_assoc, List.singleton_append, below,
        BytePath.components, BytePath.components, splitOn_append_slash, List.filter_append]
      simp
    · rw [if_pos ⟨root, last⟩, List.append_assoc, List.singleton_append, below]

namespace ObjectDb

variable (db : ObjectDb)

/-- The tree that a directory path names. -/
def directoryOid (commit : ObjectId) (path : BytePath) : Option ObjectId :=
  if path = [] then (db.commit commit).map CommitMeta.tree
  else
    match db.walkToParent commit path with
    | .ok (some (parent, name)) =>
        ((parent.get name).filter DecodedEntry.isTree).map DecodedEntry.oid
    | _ => none

end ObjectDb

section Directories

variable {db : ObjectDb} {commit : ObjectId} {path : BytePath}

variable {tree : DecodedTree} {name : Bytes}

theorem descend_append {parent : DecodedTree} {names : List Bytes}
    (reached : db.descend tree names = .ok (some parent)) (more : List Bytes)
    : db.descend tree (names ++ more) = db.descend parent more := by
  induction names generalizing tree with
  | nil =>
      cases reached
      rfl
  | cons first names ih =>
      rw [ObjectDb.descend] at reached
      rw [List.cons_append, ObjectDb.descend]
      split at reached
      · cases reached
      · split at reached
        · cases reached
        · rename_i other found' isDirectory
          rw [if_neg isDirectory]
          split at reached
          · exact ih reached
          · cases reached

theorem descend_concat {parent next : DecodedTree} {names : List Bytes} {entry : DecodedEntry}
    (reached : db.descend tree names = .ok (some parent)) (found : parent.get name = some entry)
    (directory : entry.mode = Mode.directory) (read : db.decodedTree entry.oid = .ok next)
    : db.descend tree (names ++ [name]) = .ok (some next) := by
  rw [descend_append reached, ObjectDb.descend, found]
  dsimp only
  rw [if_neg (not_not.mpr directory), read]
  rfl

theorem decodedTree_eq_ok {oid : ObjectId}
    : db.decodedTree oid = .ok tree ↔ ∃ object, db.tree oid = some object ∧ tree = .new object := by
  rw [ObjectDb.decodedTree]
  cases db.tree oid with
  | none => simp
  | some object => simp [eq_comm]

/-- What a path that names a directory leads to. -/
structure Leads (db : ObjectDb) (commit : ObjectId) (path : BytePath) (tree : DecodedTree)
    : Prop where
  oid
    : ∃ oid object,
        db.directoryOid commit path = some oid
        ∧ db.tree oid = some object
        ∧ tree = .new object
  below
    : ∃ found root,
        db.commit commit = some found
        ∧ db.decodedTree found.tree = .ok root
        ∧ db.descend root path.components = .ok (some tree)

/-- The way down to a directory that is listed. -/
theorem leads_of_directoryTree (listed : db.directoryTree commit path = .ok (some tree))
    : Leads db commit path tree := by
  rw [ObjectDb.directoryTree] at listed
  split at listed
  · rename_i root
    subst root
    obtain ⟨found, committed, listed⟩ := bind_eq_ok.mp listed
    obtain ⟨tree', read, same⟩ := bind_eq_ok.mp listed
    cases same
    rw [findCommit_eq_ok] at committed
    obtain ⟨object, stored, rfl⟩ := decodedTree_eq_ok.mp read
    refine ⟨⟨found.tree, object, ?_, stored, rfl⟩, found, _, committed, read, rfl⟩
    rw [ObjectDb.directoryOid, if_pos rfl, committed, Option.map_some]
  · rename_i nonroot
    obtain ⟨parent, walked, listed⟩ := bind_eq_ok.mp listed
    split at listed
    · cases listed
    · rename_i entry found
      obtain ⟨⟨above, name⟩, rfl, got⟩ := Option.bind_eq_some_iff.mp found
      dsimp only at got
      split at listed
      · rename_i directory
        obtain ⟨tree', read, same⟩ := bind_eq_ok.mp listed
        cases same
        obtain ⟨object, stored, rfl⟩ := decodedTree_eq_ok.mp read
        have isTree : entry.isTree = true := decide_eq_true directory
        refine ⟨⟨entry.oid, object, ?_, stored, rfl⟩, ?_⟩
        · rw [ObjectDb.directoryOid, if_neg nonroot, walked]
          simp only [got, Option.filter_some, isTree, if_true, Option.map_some]
        · obtain ⟨recorded, committed, walked⟩ := bind_eq_ok.mp walked
          obtain ⟨root, rooted, walked⟩ := bind_eq_ok.mp walked
          rw [findCommit_eq_ok] at committed
          split at walked
          · cases walked
          · rename_i last ends
            obtain ⟨parent, reached, same⟩ := bind_eq_ok.mp walked
            cases parent with
            | none => cases same
            | some parent =>
                cases same
                refine ⟨recorded, root, committed, rooted, ?_⟩
                obtain ⟨front, whole⟩ := List.getLast?_eq_some_iff.mp ends
                rw [whole, List.dropLast_concat] at reached
                rw [whole]
                exact descend_concat reached got directory read
      · split at listed
        · cases listed
        · cases listed

theorem Leads.walkToParent (leads : Leads db commit path tree) (component : IsComponent name)
    : db.walkToParent commit (path.join name) = .ok (some (tree, name)) := by
  obtain ⟨found, root, committed, rooted, reached⟩ := leads.below
  rw [ObjectDb.walkToParent, components_join path component]
  simp only [findCommit_eq_ok.mpr committed, rooted, bind, Except.bind, List.getLast?_concat,
    List.dropLast_concat, reached]
  rfl

theorem join_ne_nil (component : IsComponent name)
    : BytePath.join path name ≠ [] := by
  rw [BytePath.join]
  exact fun empty => component.1 (List.append_eq_nil_iff.mp empty).2

/-- Nothing lies below a gitlink. -/
theorem walkToParent_gitlink (empty : db.directoryTree commit path = .ok none)
    (component : IsComponent name)
    : db.walkToParent commit (path.join name) = .ok none := by
  rw [ObjectDb.directoryTree] at empty
  split at empty
  · obtain ⟨found, -, empty⟩ := bind_eq_ok.mp empty
    obtain ⟨tree, -, empty⟩ := bind_eq_ok.mp empty
    cases empty
  · obtain ⟨parent, walked, empty⟩ := bind_eq_ok.mp empty
    split at empty
    · cases empty
    · rename_i entry found
      obtain ⟨⟨above, last⟩, rfl, got⟩ := Option.bind_eq_some_iff.mp found
      dsimp only at got
      have leaf : entry.mode ≠ Mode.directory := by
        intro directory
        rw [if_pos directory] at empty
        obtain ⟨tree, -, empty⟩ := bind_eq_ok.mp empty
        cases empty
      obtain ⟨recorded, committed, walked⟩ := bind_eq_ok.mp walked
      obtain ⟨root, rooted, walked⟩ := bind_eq_ok.mp walked
      split at walked
      · cases walked
      · rename_i final ends
        obtain ⟨parent, reached, same⟩ := bind_eq_ok.mp walked
        cases parent with
        | none => cases same
        | some parent =>
            cases same
            obtain ⟨front, whole⟩ := List.getLast?_eq_some_iff.mp ends
            rw [whole, List.dropLast_concat] at reached
            rw [ObjectDb.walkToParent, components_join path component]
            simp only [committed, rooted, bind, Except.bind, List.getLast?_concat,
              List.dropLast_concat, whole, descend_append reached, ObjectDb.descend, got]
            rw [if_pos leaf]
            rfl

theorem Leads.directoryOid_join (leads : Leads db commit path tree) {entry : DecodedEntry}
    (member : entry ∈ tree.entries)
    : db.directoryOid commit (path.join entry.name)
      = if entry.isTree then some entry.oid else none := by
  obtain ⟨oid, object, -, -, rfl⟩ := leads.oid
  have listed := DecodedTree.mem_new.mp member
  have component := object.named entry listed
  rw [ObjectDb.directoryOid, if_neg (join_ne_nil component), leads.walkToParent component]
  dsimp only
  rw [DecodedTree.get_new.mpr ⟨listed, rfl⟩, Option.filter_some]
  cases entry.isTree with
  | true => rfl
  | false => rfl

end Directories

-- Pages of a whole tree

/-- One page of `list_tree`. -/
structure TreePage where
  entries : List TreeEntryInfo
  directories : List BytePath
  nextPageToken : Option Bytes
  deriving DecidableEq, Repr

def maxTreePageEntries : Nat := 100000

/-- An entry that is listed as a directory. -/
def DecodedEntry.isListed (entry : DecodedEntry) : Bool :=
  entry.mode = Mode.directory || entry.mode = Mode.gitlink

/-- The directories of a tree, with their paths. -/
def childPaths (dir : BytePath) (tree : DecodedTree) : List BytePath :=
  (tree.entries.filter DecodedEntry.isListed).map (fun entry => dir.join entry.name)

namespace ObjectDb

variable (db : ObjectDb)

/-- The trees that a path may still lead to. -/
def pathWeight (commit : ObjectId) (path : BytePath) : Nat :=
  ((db.directoryOid commit path).map db.weight).getD 0

/-- A directory leads to more trees than its children. -/
theorem pathWeight_children {commit : ObjectId} {dir : BytePath} {tree : DecodedTree}
    (listed : db.directoryTree commit dir = .ok (some tree))
    : ((childPaths dir tree).map (db.pathWeight commit)).sum < db.pathWeight commit dir := by
  have leads := leads_of_directoryTree listed
  obtain ⟨oid, object, named, stored, rfl⟩ := leads.oid
  have own : db.pathWeight commit dir = db.weight oid := by
    rw [pathWeight, named]
    rfl
  have child : ∀ entry ∈ (DecodedTree.new object).entries,
      db.pathWeight commit (dir.join entry.name)
      = if entry.isTree then db.weight entry.oid else 0 := by
    intro entry member
    rw [pathWeight, leads.directoryOid_join member]
    cases entry.isTree with
    | true => rfl
    | false => rfl
  have sums : ∀ entries : List DecodedEntry,
      (∀ entry ∈ entries, entry ∈ (DecodedTree.new object).entries) →
      (((entries.filter DecodedEntry.isListed).map (fun entry => dir.join entry.name)).map
          (db.pathWeight commit)).sum
        = ((entries.filter DecodedEntry.isTree).map (fun entry => db.weight entry.oid)).sum := by
    intro entries all
    induction entries with
    | nil => rfl
    | cons entry entries ih =>
        obtain ⟨first, rest⟩ := List.forall_mem_cons.mp all
        have here := child entry first
        cases tree : entry.isTree with
        | true =>
            have isListed : entry.isListed = true := by
              rw [DecodedEntry.isListed, show entry.mode = _ from of_decide_eq_true tree]
              rfl
            rw [tree, if_pos rfl] at here
            rw [List.filter_cons_of_pos isListed, List.filter_cons_of_pos tree, List.map_cons,
              List.map_cons, List.map_cons, List.sum_cons, List.sum_cons, here, ih rest]
        | false =>
            have notTree : ¬entry.isTree = true := by rw [tree]; exact Bool.false_ne_true
            rw [tree, if_neg Bool.false_ne_true] at here
            rw [List.filter_cons_of_neg notTree, List.filter_cons]
            split
            · rw [List.map_cons, List.map_cons, List.sum_cons, here, Nat.zero_add, ih rest]
            · exact ih rest
  rw [own, childPaths, sums _ fun _ member => member]
  have sorted := (((List.mergeSort_perm object.entries inTreeOrder).filter
    DecodedEntry.isTree).map (fun entry => db.weight entry.oid)).sum_eq
  rw [show (DecodedTree.new object).entries = object.entries.mergeSort inTreeOrder from rfl, sorted]
  exact db.acyclic oid object stored

/-- The trees a stack of directories may still lead to, and how many directories it has. -/
abbrev stackMeasure (commit : ObjectId) (stack : List BytePath) : Nat × Nat :=
  ((stack.map (db.pathWeight commit)).sum, stack.length)

theorem stack_pop (commit : ObjectId) (dir : BytePath) (stack : List BytePath)
    : Prod.Lex (· < ·) (· < ·) (db.stackMeasure commit stack)
        (db.stackMeasure commit (dir :: stack)) := by
  rw [stackMeasure, stackMeasure, List.map_cons, List.sum_cons, Prod.lex_def]
  rcases Nat.eq_zero_or_pos (db.pathWeight commit dir) with none_left | some_left
  · exact .inr ⟨by rw [none_left, Nat.zero_add], Nat.lt_succ_self _⟩
  · exact .inl (Nat.lt_add_of_pos_left some_left)

theorem stack_expand {commit : ObjectId} {dir : BytePath} {tree : DecodedTree}
    (listed : db.directoryTree commit dir = .ok (some tree)) (stack : List BytePath)
    : Prod.Lex (· < ·) (· < ·) (db.stackMeasure commit (childPaths dir tree ++ stack))
        (db.stackMeasure commit (dir :: stack)) := by
  rw [stackMeasure, stackMeasure, List.map_cons, List.sum_cons, List.map_append, List.sum_append,
    Prod.lex_def]
  exact .inl (Nat.add_lt_add_right (db.pathWeight_children listed) _)

end ObjectDb

namespace Repository

variable (repo : Repository)

/-- The walk of `list_tree`: parents before children, siblings in Git's order. Emitting starts at
the directory the token names, and stops before a directory once the page is full.
-/
def listTreeFrom (commit : ObjectId) (after : Option Bytes) (maxEntries : Nat)
    : List BytePath → Bool → List TreeEntryInfo → List BytePath → Except GfsError TreePage
  | [], _, entries, directories => .ok ⟨entries, directories, none⟩
  | dir :: stack, emitting, entries, directories =>
      let emitting := emitting || some dir = after
      if emitting ∧ entries ≠ [] ∧ entries.length ≥ maxEntries then
        .ok ⟨entries, directories, some dir⟩
      else
        match _found : repo.db.directoryTree commit dir with
        | .error refusal => .error refusal
        | .ok none =>
            listTreeFrom commit after maxEntries stack emitting entries
              (if emitting then directories ++ [dir] else directories)
        | .ok (some tree) => do
            let listed
              ← if emitting then
                  tree.entries.mapM
                    (fun decoded => repo.entryInfo commit (dir.join decoded.name) decoded)
                else pure []
            listTreeFrom commit after maxEntries (childPaths dir tree ++ stack) emitting
              (entries ++ listed) (if emitting then directories ++ [dir] else directories)
termination_by stack => ((stack.map (repo.db.pathWeight commit)).sum, stack.length)
decreasing_by
  · exact repo.db.stack_pop commit dir stack
  · exact repo.db.stack_expand _found stack

/-- One page of everything under a directory, resuming at a directory. -/
def listTree (commit : ObjectId) (root : BytePath) (after : Option Bytes) (maxEntries : Nat)
    : Except GfsError TreePage :=
  repo.listTreeFrom commit after (min (max maxEntries 1) maxTreePageEntries) [root] after.isNone
    [] []

end Repository

-- The index of a commit

/-- An entry found by the descent, with no size yet. -/
structure DeferredEntry where
  path : BytePath
  mode : Nat
  oid : ObjectId
  deriving DecidableEq, Repr

/-- An entry of the index file. Its size has 32 bits. -/
structure IndexEntry where
  path : BytePath
  mode : Nat
  oid : ObjectId
  size : Nat
  deriving DecidableEq, Repr

namespace ObjectDb

variable (db : ObjectDb)

/-- The descent of `index_for_commit`, into each directory where it appears. The fuel bounds the
trees below.
-/
def indexDescend : Nat → ObjectId → BytePath → Except GfsError (List DeferredEntry)
  | 0, _, _ => .ok []
  | fuel + 1, oid, lead => do
      let tree ← db.decodedTree oid
      let parts
        ← tree.entries.mapM (fun entry =>
            if entry.isTree then indexDescend fuel entry.oid (lead.join entry.name)
            else .ok [⟨lead.join entry.name, entry.mode, entry.oid⟩])
      pure parts.flatten

end ObjectDb

namespace Repository

variable (repo : Repository)

/-- The size of an index entry: none for a gitlink, the pointer's where the entry is expanded. -/
def indexEntry (commit : ObjectId) (deferred : DeferredEntry) : Except GfsError IndexEntry := do
  let size
    ← if deferred.mode = Mode.gitlink then pure 0 else repo.db.readHeader deferred.oid
  let shown
    ← repo.expanded commit deferred.path (.fromMode deferred.mode) deferred.oid size
  pure ⟨deferred.path, deferred.mode, deferred.oid, shown.2⟩

end Repository

end Gfs.Git
