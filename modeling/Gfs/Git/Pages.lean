import Gfs.Git.Listing
import Gfs.Lib.Cursors

/-! Listings in pages (`gfs-git/src/libgit2.rs`, `list_tree`; `gfs-git/src/tree.rs`, `page`): a
page of a whole tree is a stretch of the walk that lists every directory, parents first, and a
page of one tree is a stretch of its entries.
-/

namespace Gfs.Git

open Gfs.Types
open Gfs.Lib.Cursors

-- Pages of one tree

namespace DecodedTree

/-- Where a page starts. -/
def start (tree : DecodedTree) : Option Bytes → Nat
  | none => 0
  | some after => (tree.entries.takeWhile (fun entry => decide (entry.sortKey ≤ after))).length

/-- `DecodedTree::page` over a `usize` of 64 bits: `none` where the end of the page overflows. -/
def checkedPage (tree : DecodedTree) (after : Option Bytes) (limit : Nat)
    : Option (List DecodedEntry × Option Bytes) :=
  if tree.start after + limit < 2 ^ 64 then
    let last := min (tree.start after + limit) tree.entries.length
    let page := (tree.entries.take last).drop (tree.start after)
    some (page, if last < tree.entries.length then page.getLast?.map DecodedEntry.sortKey else none)
  else none

theorem remaining_eq_drop (tree : DecodedTree) (after : Option Bytes)
    : tree.remaining after = tree.entries.drop (tree.start after) := by
  cases after with
  | none => rfl
  | some after =>
      have whole := List.takeWhile_append_dropWhile
        (p := fun entry : DecodedEntry => decide (entry.sortKey ≤ after)) (l := tree.entries)
      have cut := congrArg (List.drop (tree.start (some after))) whole
      rw [start, List.drop_left] at cut
      exact cut

theorem start_le (tree : DecodedTree) (after : Option Bytes)
    : tree.start after ≤ tree.entries.length := by
  cases after with
  | none => exact Nat.zero_le _
  | some after => exact List.Sublist.length_le (List.takeWhile_sublist _)

theorem checkedPage_eq (tree : DecodedTree) (after : Option Bytes) {limit : Nat}
    (fits : tree.start after + limit < 2 ^ 64)
    : tree.checkedPage after limit = some (tree.page after limit) := by
  have within := tree.start_le after
  have stretch
      : (tree.entries.take (min (tree.start after + limit) tree.entries.length)).drop
          (tree.start after)
        = (tree.remaining after).take limit := by
    rw [remaining_eq_drop, List.drop_take, List.take_eq_take_iff, List.length_drop]
    omega
  rw [checkedPage, if_pos fits, page_eq]
  simp only [stretch]
  rw [remaining_eq_drop, List.length_drop]
  by_cases more : limit < tree.entries.length - tree.start after
  · rw [if_pos more, if_pos (by omega)]
  · rw [if_neg more, if_neg (by omega)]

/-- A call of `page` under the limit of its turn. -/
def PageCall (tree : DecodedTree) (limits : Nat → Nat) (i : Nat) (after : Option Bytes)
    (page : List DecodedEntry) (next : Option Bytes)
    : Prop :=
  tree.checkedPage after (limits i) = some (page, next)

/-- How many entries the calls before one may list. -/
def asked (limits : Nat → Nat) (i : Nat) : Nat :=
  ((List.range i).map limits).sum

/-- No page that begins within the tree has an end that overflows. -/
def LimitsFit (tree : DecodedTree) (limits : Nat → Nat) : Prop :=
  ∀ i, i = 0 ∨ asked limits i < tree.entries.length → asked limits i + limits i < 2 ^ 64

theorem asked_succ (limits : Nat → Nat) (i : Nat)
    : asked limits (i + 1) = asked limits i + limits i := by
  rw [asked, asked, List.range_succ, List.map_append, List.sum_append]
  simp

theorem page_advances {object : TreeObject} (after : Option Bytes) {limit : Nat}
    (positive : 0 < limit)
    : Advances (DecodedTree.new object).remaining after
        ((DecodedTree.new object).page after limit).1
        ((DecodedTree.new object).page after limit).2 := by
  have advances := @DecodedTree.page_new object after limit positive
  cases listed : (DecodedTree.new object).page after limit with
  | mk page next =>
      rw [listed] at advances
      cases next with
      | none => exact advances
      | some token => exact advances

/-- The pages of one tree end, and make up its entries in Git's order. -/
theorem exists_pages (object : TreeObject) {limits : Nat → Nat} (positive : ∀ i, 1 ≤ limits i)
    (fits : LimitsFit (.new object) limits)
    : ∃ pages,
        Followed (PageCall (.new object) limits) 0 none pages
        ∧ pages.flatten = (DecodedTree.new object).entries := by
  apply exists_followed (DecodedTree.new object).remaining
    (fun i after => (DecodedTree.new object).start after = asked limits i
      ∧ (i = 0 ∨ asked limits i < (DecodedTree.new object).entries.length))
  · rintro i after ⟨begins, within⟩
    have called := @checkedPage_eq (.new object) after (limits i)
      (by rw [begins]; exact fits i within)
    have advances := @page_advances object after (limits i) (positive i)
    have count := congrArg List.length ((DecodedTree.new object).remaining_eq_drop after)
    rw [List.length_drop] at count
    rw [DecodedTree.page_eq] at called advances
    refine ⟨_, _, called, advances, ?_⟩
    intro token more
    rw [more] at advances
    split at more
    · rename_i short
      have whole := congrArg List.length advances.1
      have left := congrArg List.length ((DecodedTree.new object).remaining_eq_drop (some token))
      have bound := (DecodedTree.new object).start_le (some token)
      rw [List.length_append, List.length_take] at whole
      rw [List.length_drop] at left
      rw [asked_succ]
      exact ⟨by omega, .inr (by omega)⟩
    · cases more
  · exact ⟨rfl, .inl rfl⟩

end DecodedTree

-- What is stored

/-- Every object below a tree that a listing reads is stored. -/
inductive Held (db : ObjectDb) : ObjectId → Prop where
  | tree {oid : ObjectId} {object : TreeObject} (stored : db.tree oid = some object)
      (trees : ∀ entry ∈ object.entries, entry.isTree → Held db entry.oid)
      (blobs
        : ∀ entry ∈ object.entries,
            (EntryKind.fromMode entry.mode).hasBlobContent → (db.blob entry.oid).isSome)
      : Held db oid

/-- A decoded tree whose objects are stored. -/
def HeldTree (db : ObjectDb) (tree : DecodedTree) : Prop :=
  ∃ oid object, db.tree oid = some object ∧ tree = .new object ∧ Held db oid

section Stored

variable {db : ObjectDb} {tree : DecodedTree}

theorem Held.decodedTree {oid : ObjectId} (held : Held db oid)
    : ∃ tree, db.decodedTree oid = .ok tree ∧ HeldTree db tree := by
  have whole := held
  cases held with
  | tree stored trees blobs =>
      exact ⟨_, decodedTree_eq_ok.mpr ⟨_, stored, rfl⟩, oid, _, stored, rfl, whole⟩

variable {entry : DecodedEntry}

theorem HeldTree.subtree (held : HeldTree db tree) (member : entry ∈ tree.entries)
    (directory : entry.mode = Mode.directory)
    : ∃ below, db.decodedTree entry.oid = .ok below ∧ HeldTree db below := by
  obtain ⟨oid, object, stored, rfl, held⟩ := held
  cases held with
  | tree stored' trees blobs =>
      cases stored.symm.trans stored'
      exact (trees entry (DecodedTree.mem_new.mp member) (decide_eq_true directory)).decodedTree

theorem HeldTree.blob (held : HeldTree db tree) (member : entry ∈ tree.entries)
    (content : (EntryKind.fromMode entry.mode).hasBlobContent)
    : ∃ bytes, db.findBlob entry.oid = .ok bytes := by
  obtain ⟨oid, object, stored, rfl, held⟩ := held
  cases held with
  | tree stored' trees blobs =>
      cases stored.symm.trans stored'
      obtain ⟨bytes, found⟩ := Option.isSome_iff_exists.mp
        (blobs entry (DecodedTree.mem_new.mp member) content)
      exact ⟨bytes, by rw [ObjectDb.findBlob, found]; rfl⟩

theorem HeldTree.mem_of_get (held : HeldTree db tree) {name : Bytes}
    (found : tree.get name = some entry)
    : entry ∈ tree.entries := by
  obtain ⟨oid, object, -, rfl, -⟩ := held
  exact DecodedTree.mem_new.mpr (DecodedTree.get_new.mp found).1

theorem HeldTree.descend (held : HeldTree db tree) {names : List Bytes} {below : DecodedTree}
    (reached : db.descend tree names = .ok (some below))
    : HeldTree db below := by
  induction names generalizing tree with
  | nil =>
      cases reached
      exact held
  | cons name names ih =>
      rw [ObjectDb.descend] at reached
      split at reached
      · cases reached
      · rename_i entry found
        split at reached
        · cases reached
        · rename_i directory
          obtain ⟨child, read, held'⟩ := held.subtree (held.mem_of_get found) (not_not.mp directory)
          rw [read] at reached
          exact ih held' reached

/-- The attribute files on a way down from a stored tree are read. -/
theorem attributeLevels_ok (names : List Bytes) (above : Option DecodedTree)
    (held : ∀ tree, above = some tree → HeldTree db tree)
    : ∃ files, db.attributeLevels above names = .ok files := by
  have own : ∀ above : Option DecodedTree, (∀ tree, above = some tree → HeldTree db tree) →
      ∃ file, db.attributeFile above = .ok file := by
    intro above held
    rw [ObjectDb.attributeFile]
    split
    · exact ⟨_, rfl⟩
    · rename_i entry found
      obtain ⟨tree, rfl, got⟩ := Option.bind_eq_some_iff.mp found
      split
      · rename_i regular
        obtain ⟨bytes, read⟩ := (held tree rfl).blob ((held tree rfl).mem_of_get got)
          (by rw [regular]; rfl)
        exact ⟨_, by rw [read]; rfl⟩
      · exact ⟨_, rfl⟩
  induction names generalizing above with
  | nil =>
      obtain ⟨file, read⟩ := own above held
      exact ⟨[file], by rw [ObjectDb.attributeLevels, read]; rfl⟩
  | cons name names ih =>
      obtain ⟨file, read⟩ := own above held
      rw [ObjectDb.attributeLevels, read]
      simp only [bind, Except.bind]
      split
      · obtain ⟨files, rest⟩ := ih none (fun _ missing => nomatch missing)
        exact ⟨file :: files, by simp only [pure, Except.pure, rest]⟩
      · rename_i entry found
        obtain ⟨tree, rfl, got⟩ := Option.bind_eq_some_iff.mp found
        split
        · rename_i directory
          obtain ⟨child, below, held'⟩ :=
            (held tree rfl).subtree ((held tree rfl).mem_of_get got) directory
          obtain ⟨files, rest⟩ := ih (some child) (by rintro tree ⟨⟩; exact held')
          exact ⟨file :: files, by simp only [below, Except.map, pure, Except.pure, rest]⟩
        · obtain ⟨files, rest⟩ := ih none (fun _ missing => nomatch missing)
          exact ⟨file :: files, by simp only [pure, Except.pure, rest]⟩

end Stored

section Entries

variable {repo : Repository} {commit : ObjectId} {found : CommitMeta}

theorem exists_attributeStack (committed : repo.db.commit commit = some found)
    (held : Held repo.db found.tree) (path : BytePath)
    : ∃ stack, repo.db.attributeStack commit path = .ok stack := by
  rw [ObjectDb.attributeStack]
  split
  · exact ⟨_, rfl⟩
  · obtain ⟨root, rooted, heldRoot⟩ := held.decodedTree
    have within : ∀ tree, some root = some tree → HeldTree repo.db tree := by
      rintro tree ⟨⟩
      exact heldRoot
    obtain ⟨files, levels⟩ := attributeLevels_ok path.components.dropLast (some root) within
    exact ⟨files, by simp only [bind, Except.bind, findCommit_eq_ok.mpr committed, rooted, levels]⟩

/-- Whether an entry is an LFS pointer is found out, where its blob is stored. -/
theorem exists_lfsPointerFor (committed : repo.db.commit commit = some found)
    (held : Held repo.db found.tree) (path : BytePath) {kind : EntryKind} {oid : ObjectId}
    (blob : kind.hasBlobContent → ∃ bytes, repo.db.findBlob oid = .ok bytes) (size : Nat)
    : ∃ pointer, repo.db.lfsPointerFor commit path kind oid size = .ok pointer := by
  rw [ObjectDb.lfsPointerFor]
  split
  · exact ⟨_, rfl⟩
  · rename_i file
    split
    · exact ⟨_, rfl⟩
    · obtain ⟨stack, levels⟩ := exists_attributeStack committed held path
      have content : kind.hasBlobContent = true := by
        rcases not_and_or.mp file with regular | executable
        · rw [not_not.mp regular]
          rfl
        · rw [not_not.mp executable]
          rfl
      obtain ⟨bytes, read⟩ := blob content
      simp only [ObjectDb.lfsFiltered, levels, bind, Except.bind, pure, Except.pure, read]
      split
      · exact ⟨_, rfl⟩
      · exact ⟨_, rfl⟩

theorem exists_expanded (committed : repo.db.commit commit = some found)
    (held : Held repo.db found.tree) (path : BytePath) {kind : EntryKind} {oid : ObjectId}
    (blob : kind.hasBlobContent → ∃ bytes, repo.db.findBlob oid = .ok bytes) (size : Nat)
    : ∃ shown, repo.expanded commit path kind oid size = .ok shown := by
  cases checked : repo.lfsCheck with
  | none => exact ⟨_, by rw [Repository.expanded, checked]⟩
  | some contains =>
      obtain ⟨pointer, looked⟩ := exists_lfsPointerFor committed held path blob size
      exact ⟨_, by rw [Repository.expanded, checked, looked]; rfl⟩

theorem exists_entryInfo (committed : repo.db.commit commit = some found)
    (held : Held repo.db found.tree) {dir : BytePath} {tree : DecodedTree}
    (below : HeldTree repo.db tree) {entry : DecodedEntry} (member : entry ∈ tree.entries)
    : ∃ info, repo.entryInfo commit (dir.join entry.name) entry = .ok info := by
  have facts : ∃ facts, repo.blobFacts (.fromMode entry.mode) entry.oid = .ok facts := by
    cases kind : EntryKind.fromMode entry.mode with
    | symlink =>
        obtain ⟨bytes, read⟩ := below.blob member (by rw [kind]; rfl)
        exact ⟨_, by rw [Repository.blobFacts, read]; rfl⟩
    | regular | executable =>
        obtain ⟨bytes, read⟩ := below.blob member (by rw [kind]; rfl)
        exact ⟨_, by rw [Repository.blobFacts, ObjectDb.readHeader, read]; rfl⟩
    | directory | gitlink | unsupported mode => exact ⟨_, rfl⟩
  obtain ⟨facts, read⟩ := facts
  obtain ⟨shown, expanded⟩ := exists_expanded committed held (dir.join entry.name)
    (fun content => below.blob member content) facts.1
  exact ⟨_, by rw [Repository.entryInfo]; simp only [bind, Except.bind, read, expanded]; rfl⟩

end Entries

-- The walk

/-- A directory, with what is listed in it. -/
abbrev Visit := BytePath × List TreeEntryInfo

/-- What a directory path lists: every entry of its tree in Git's order, or nothing for a
gitlink.
-/
def Lists (repo : Repository) (commit : ObjectId) (visit : Visit) : Prop :=
  (repo.db.directoryTree commit visit.1 = .ok none ∧ visit.2 = [])
  ∨ ∃ tree,
      repo.db.directoryTree commit visit.1 = .ok (some tree)
      ∧ tree.entries.mapM (fun entry => repo.entryInfo commit (visit.1.join entry.name) entry)
        = .ok visit.2

/-- A path listed as a directory in another. -/
def IsChild (db : ObjectDb) (commit : ObjectId) (dir child : BytePath) : Prop :=
  ∃ tree, db.directoryTree commit dir = .ok (some tree) ∧ child ∈ childPaths dir tree

/-- The directories at and below a path. -/
inductive Below (db : ObjectDb) (commit : ObjectId) (root : BytePath) : BytePath → Prop where
  | here : Below db commit root root
  | child {dir child : BytePath} (above : Below db commit root dir)
      (listed : IsChild db commit dir child)
      : Below db commit root child

/-- The walk off a stack of directories, each before those in it. -/
inductive Visits (repo : Repository) (commit : ObjectId) : List BytePath → List Visit → Prop where
  | done : Visits repo commit [] []
  | gitlink {dir : BytePath} {stack : List BytePath} {visits : List Visit}
      (empty : repo.db.directoryTree commit dir = .ok none)
      (rest : Visits repo commit stack visits)
      : Visits repo commit (dir :: stack) ((dir, []) :: visits)
  | tree {dir : BytePath} {stack : List BytePath} {visits : List Visit} {tree : DecodedTree}
      {infos : List TreeEntryInfo}
      (listed : repo.db.directoryTree commit dir = .ok (some tree))
      (told
        : tree.entries.mapM (fun entry => repo.entryInfo commit (dir.join entry.name) entry)
          = .ok infos)
      (rest : Visits repo commit (childPaths dir tree ++ stack) visits)
      : Visits repo commit (dir :: stack) ((dir, infos) :: visits)

section Walk

variable {repo : Repository} {commit : ObjectId} {found : CommitMeta}

variable {dir : BytePath} {stack : List BytePath} {visits : List Visit}

theorem Below.trans {db : ObjectDb} {root path : BytePath} (above : Below db commit root dir)
    (below : Below db commit dir path)
    : Below db commit root path := by
  induction below with
  | here => exact above
  | child _ listed ih => exact ih.child listed

theorem below_iff {db : ObjectDb} {path : BytePath}
    : Below db commit dir path
      ↔ path = dir ∨ ∃ child, IsChild db commit dir child ∧ Below db commit child path := by
  constructor
  · intro below
    induction below with
    | here => exact .inl rfl
    | child above listed ih =>
        rcases ih with rfl | ⟨child, first, rest⟩
        · exact .inr ⟨_, listed, .here⟩
        · exact .inr ⟨child, first, rest.child listed⟩
  · rintro (rfl | ⟨child, listed, below⟩)
    · exact .here
    · exact (Below.here.child listed).trans below

theorem heldTree_of_directoryTree (committed : repo.db.commit commit = some found)
    (held : Held repo.db found.tree) {tree : DecodedTree}
    (read : repo.db.directoryTree commit dir = .ok (some tree))
    : HeldTree repo.db tree := by
  obtain ⟨found', root, committed', rooted, reached⟩ := (leads_of_directoryTree read).below
  cases committed.symm.trans committed'
  obtain ⟨root', rooted', heldRoot⟩ := held.decodedTree
  cases rooted.symm.trans rooted'
  exact heldRoot.descend reached

/-- A directory listed in another is read, if every object is stored. -/
theorem directoryTree_child (committed : repo.db.commit commit = some found)
    (held : Held repo.db found.tree) {child : BytePath} (listed : IsChild repo.db commit dir child)
    : ∃ tree, repo.db.directoryTree commit child = .ok tree := by
  obtain ⟨tree, read, member⟩ := listed
  obtain ⟨entry, listed, rfl⟩ := List.mem_map.mp member
  obtain ⟨member, directory⟩ := List.mem_filter.mp listed
  have leads := leads_of_directoryTree read
  have heldTree := heldTree_of_directoryTree committed held read
  obtain ⟨oid, object, -, -, rfl⟩ := leads.oid
  have stored := DecodedTree.mem_new.mp member
  have component := object.named entry stored
  have got : (DecodedTree.new object).get entry.name = some entry :=
    DecodedTree.get_new.mpr ⟨stored, rfl⟩
  rw [ObjectDb.directoryTree, if_neg (join_ne_nil component), leads.walkToParent component]
  simp only [bind, Except.bind, Option.bind_some, got]
  by_cases isTree : entry.mode = Mode.directory
  · obtain ⟨below, readBelow, -⟩ := heldTree.subtree member isTree
    exact ⟨some below, by rw [if_pos isTree, readBelow]; rfl⟩
  · have gitlink : entry.mode = Mode.gitlink := by
      simpa [DecodedEntry.isListed, isTree] using directory
    exact ⟨none, by rw [if_neg isTree, if_pos gitlink]; rfl⟩

/-- The walk goes through every stack of directories that are read. -/
theorem exists_visits (committed : repo.db.commit commit = some found)
    (held : Held repo.db found.tree) (stack : List BytePath)
    (read : ∀ dir ∈ stack, ∃ tree, repo.db.directoryTree commit dir = .ok tree)
    : ∃ visits, Visits repo commit stack visits := by
  match stack with
  | [] => exact ⟨[], .done⟩
  | dir :: stack =>
      obtain ⟨listed, own⟩ := read dir List.mem_cons_self
      have later := fun other member => read other (List.mem_cons_of_mem dir member)
      match listed, own with
      | none, own =>
          obtain ⟨visits, rest⟩ := exists_visits committed held stack later
          exact ⟨_, .gitlink own rest⟩
      | some tree, own =>
          have heldTree := heldTree_of_directoryTree committed held own
          have each
              : ∀ entry ∈ tree.entries,
                  ∃ info, repo.entryInfo commit (dir.join entry.name) entry = .ok info :=
            fun entry member => exists_entryInfo committed held heldTree member
          obtain ⟨infos, told⟩ := Lib.Mapped.exists_mapM each
          obtain ⟨visits, rest⟩ := exists_visits committed held (childPaths dir tree ++ stack) (by
            intro other member
            rcases List.mem_append.mp member with child | pending
            · exact directoryTree_child committed held ⟨tree, own, child⟩
            · exact later other pending)
          exact ⟨_, .tree own told rest⟩
termination_by ((stack.map (repo.db.pathWeight commit)).sum, stack.length)
decreasing_by
  · exact repo.db.stack_pop commit dir stack
  · exact repo.db.stack_expand own stack

/-- The walk comes by the directories at and below its stack's. -/
theorem Visits.every (walked : Visits repo commit stack visits) (path : BytePath)
    : path ∈ visits.map Prod.fst ↔ ∃ dir ∈ stack, Below repo.db commit dir path := by
  induction walked with
  | done => simp
  | @gitlink dir stack visits empty rest ih =>
      have leaf : Below repo.db commit dir path ↔ path = dir := by
        rw [below_iff]
        constructor
        · rintro (same | ⟨child, ⟨tree, listed, -⟩, -⟩)
          · exact same
          · cases empty.symm.trans listed
        · exact .inl
      rw [List.map_cons, List.mem_cons, ih, List.exists_mem_cons_iff, leaf]
  | @tree dir stack visits tree infos listed told rest ih =>
      rw [List.map_cons, List.mem_cons, ih, List.exists_mem_cons_iff, below_iff]
      constructor
      · rintro (same | ⟨next, member, below⟩)
        · exact .inl (.inl same)
        · rcases List.mem_append.mp member with child | pending
          · exact .inl (.inr ⟨next, ⟨tree, listed, child⟩, below⟩)
          · exact .inr ⟨next, pending, below⟩
      · rintro ((same | ⟨child, ⟨tree', listed', member⟩, below⟩) | ⟨next, pending, below⟩)
        · exact .inl same
        · cases listed.symm.trans listed'
          exact .inr ⟨child, List.mem_append_left _ member, below⟩
        · exact .inr ⟨next, List.mem_append_right _ pending, below⟩

theorem Visits.complete (walked : Visits repo commit stack visits)
    : ∀ visit ∈ visits, Lists repo commit visit := by
  induction walked with
  | done => exact fun _ member => nomatch member
  | gitlink empty rest ih => exact List.forall_mem_cons.mpr ⟨.inl ⟨empty, rfl⟩, ih⟩
  | tree listed told rest ih =>
      exact List.forall_mem_cons.mpr ⟨.inr ⟨_, listed, told⟩, ih⟩

/-- Each directory the walk comes by was on its stack, or is listed in one it came by before. -/
theorem Visits.parents {front back : List Visit} {visit : Visit}
    (walked : Visits repo commit stack visits) (whole : visits = front ++ visit :: back)
    : visit.1 ∈ stack ∨ ∃ dir ∈ front.map Prod.fst, IsChild repo.db commit dir visit.1 := by
  induction walked generalizing front with
  | done =>
      have count := congrArg List.length whole
      simp at count
  | gitlink empty rest ih =>
      cases front with
      | nil =>
          cases whole
          exact .inl List.mem_cons_self
      | cons first front =>
          obtain ⟨rfl, later⟩ := List.cons.inj whole
          rcases ih later with pending | ⟨dir, before, listed⟩
          · exact .inl (List.mem_cons_of_mem _ pending)
          · exact .inr ⟨dir, List.mem_cons_of_mem _ before, listed⟩
  | tree listed told rest ih =>
      cases front with
      | nil =>
          cases whole
          exact .inl List.mem_cons_self
      | cons first front =>
          obtain ⟨rfl, later⟩ := List.cons.inj whole
          rcases ih later with pending | ⟨dir, before, child⟩
          · rcases List.mem_append.mp pending with child | pending
            · exact .inr ⟨_, List.mem_cons_self, _, listed, child⟩
            · exact .inl (List.mem_cons_of_mem _ pending)
          · exact .inr ⟨dir, List.mem_cons_of_mem _ before, child⟩

end Walk

-- No directory twice

/-- Neither path leads to the other. -/
def Apart (a b : BytePath) : Prop :=
  ¬a.components <+: b.components ∧ ¬b.components <+: a.components

section Once

variable {db : ObjectDb} {commit : ObjectId}

variable {dir : BytePath}

theorem components_child {child : BytePath} (listed : IsChild db commit dir child)
    : ∃ name, child.components = dir.components ++ [name] := by
  obtain ⟨tree, read, member⟩ := listed
  obtain ⟨entry, listed, rfl⟩ := List.mem_map.mp member
  obtain ⟨oid, object, -, -, rfl⟩ := (leads_of_directoryTree read).oid
  have stored := DecodedTree.mem_new.mp (List.mem_filter.mp listed).1
  exact ⟨entry.name, components_join dir (object.named entry stored)⟩

theorem Below.components {root : BytePath} (below : Below db commit root dir)
    : root.components <+: dir.components := by
  induction below with
  | here => exact List.prefix_refl _
  | child above listed ih =>
      obtain ⟨name, longer⟩ := components_child listed
      rw [longer]
      exact ih.trans (List.prefix_append _ _)

theorem apart_children {tree : DecodedTree} (read : db.directoryTree commit dir = .ok (some tree))
    : (childPaths dir tree).Pairwise Apart := by
  obtain ⟨oid, object, -, -, rfl⟩ := (leads_of_directoryTree read).oid
  have names := ((List.mergeSort_perm object.entries inTreeOrder).map
    DecodedEntry.name).nodup_iff.mpr object.unique
  have distinct : (DecodedTree.new object).entries.Pairwise (fun a b => a.name ≠ b.name) :=
    List.pairwise_map.mp names
  rw [childPaths, List.pairwise_map]
  refine (distinct.filter _).imp_of_mem ?_
  intro a b left right differ
  have ofA := object.named a (DecodedTree.mem_new.mp (List.mem_filter.mp left).1)
  have ofB := object.named b (DecodedTree.mem_new.mp (List.mem_filter.mp right).1)
  rw [Apart, components_join dir ofA, components_join dir ofB]
  constructor
  · intro lead
    have same := lead.eq_of_length (by simp)
    exact differ (by simpa using same)
  · intro lead
    have same := lead.eq_of_length (by simp)
    exact differ (by simpa using same.symm)

theorem Apart.child {child other : BytePath} (apart : Apart dir other)
    (listed : IsChild db commit dir child)
    : Apart child other := by
  obtain ⟨name, longer⟩ := components_child listed
  rw [Apart, longer]
  constructor
  · intro lead
    exact apart.1 ((List.prefix_append _ _).trans lead)
  · intro lead
    rcases List.prefix_concat_iff.mp lead with same | shorter
    · exact apart.1 (by rw [same]; exact List.prefix_append _ _)
    · exact apart.2 shorter

end Once

/-- The walk off a stack of directories that are apart comes by none twice. -/
theorem Visits.once {repo : Repository} {commit : ObjectId} {stack : List BytePath}
    {visits : List Visit} (walked : Visits repo commit stack visits)
    (apart : stack.Pairwise Apart)
    : (visits.map Prod.fst).Nodup := by
  induction walked with
  | done => exact List.nodup_nil
  | gitlink empty rest ih =>
      obtain ⟨first, apart⟩ := List.pairwise_cons.mp apart
      rw [List.map_cons, List.nodup_cons, rest.every]
      refine ⟨?_, ih apart⟩
      rintro ⟨next, pending, below⟩
      exact (first next pending).2 below.components
  | tree listed told rest ih =>
      obtain ⟨first, apart⟩ := List.pairwise_cons.mp apart
      rw [List.map_cons, List.nodup_cons, rest.every]
      constructor
      · rintro ⟨next, member, below⟩
        rcases List.mem_append.mp member with child | pending
        · obtain ⟨name, longer⟩ := components_child ⟨_, listed, child⟩
          have count := below.components.length_le
          rw [longer, List.length_append] at count
          exact absurd count (Nat.not_succ_le_self _)
        · exact (first next pending).2 below.components
      · apply ih
        apply List.pairwise_append.mpr
        exact ⟨apart_children listed, apart,
          fun child member other pending => (first other pending).child ⟨_, listed, member⟩⟩

-- Pages of the walk

/-- What the walk still has to list after a token. -/
def remainingVisits (visits : List Visit) : Option Bytes → List Visit
  | none => visits
  | some after => visits.dropWhile (fun visit => decide (visit.1 ≠ after))

theorem remainingVisits_cons {dir token : BytePath} {infos : List TreeEntryInfo}
    (visits : List Visit) (passed : dir ≠ token)
    : remainingVisits ((dir, infos) :: visits) (some token)
      = remainingVisits visits (some token) := by
  rw [remainingVisits, List.dropWhile_cons_of_pos (by simpa using passed), remainingVisits]

/-- A page filled from the walk: up to the first directory that finds it full. -/
def fillPage (maxEntries : Nat) : List TreeEntryInfo → List BytePath → List Visit → TreePage
  | entries, directories, [] => ⟨entries, directories, none⟩
  | entries, directories, (dir, infos) :: visits =>
      if entries ≠ [] ∧ entries.length ≥ maxEntries then ⟨entries, directories, some dir⟩
      else fillPage maxEntries (entries ++ infos) (directories ++ [dir]) visits

section Paged

variable {repo : Repository} {commit : ObjectId}

variable {visits : List Visit}

/-- A page that is being filled is filled from the rest of the walk. -/
theorem listTreeFrom_emitting {stack : List BytePath} (walked : Visits repo commit stack visits)
    (after : Option Bytes) (maxEntries : Nat) (entries : List TreeEntryInfo)
    (directories : List BytePath)
    : repo.listTreeFrom commit after maxEntries stack true entries directories
      = .ok (fillPage maxEntries entries directories visits) := by
  induction walked generalizing entries directories with
  | done => rw [Repository.listTreeFrom, fillPage]
  | gitlink empty rest ih =>
      rw [Repository.listTreeFrom, fillPage]
      simp only [Bool.true_or, true_and, if_true]
      split
      · rfl
      · split
        · rename_i refused
          cases empty.symm.trans refused
        · rw [ih, List.append_nil]
        · rename_i listed
          cases empty.symm.trans listed
  | tree listed told rest ih =>
      rw [Repository.listTreeFrom, fillPage]
      simp only [Bool.true_or, true_and, if_true]
      split
      · rfl
      · split
        · rename_i refused
          cases listed.symm.trans refused
        · rename_i empty
          cases listed.symm.trans empty
        · rename_i read
          cases listed.symm.trans read
          rw [told]
          exact ih _ _

theorem resumes (dir : BytePath) (stack : List BytePath) (maxEntries : Nat)
    : repo.listTreeFrom commit (some dir) maxEntries (dir :: stack) (some dir).isNone [] []
      = repo.listTreeFrom commit (some dir) maxEntries (dir :: stack) true [] [] := by
  rw [Repository.listTreeFrom, Repository.listTreeFrom]
  simp only [decide_true, Bool.or_true]

/-- A page is filled from what the walk still has to list. -/
theorem listTreeFrom_eq {stack : List BytePath} (walked : Visits repo commit stack visits)
    (after : Option Bytes) (maxEntries : Nat)
    : repo.listTreeFrom commit after maxEntries stack after.isNone [] []
      = .ok (fillPage maxEntries [] [] (remainingVisits visits after)) := by
  cases after with
  | none => exact listTreeFrom_emitting walked none maxEntries [] []
  | some token =>
      induction walked with
      | done => rw [Repository.listTreeFrom, remainingVisits, List.dropWhile_nil, fillPage]
      | @gitlink dir stack visits empty rest ih =>
          by_cases here : dir = token
          · subst here
            rw [resumes, listTreeFrom_emitting (.gitlink empty rest), remainingVisits,
              List.dropWhile_cons_of_neg (by simp)]
          · rw [remainingVisits_cons visits here, ← ih, Repository.listTreeFrom]
            simp only [Option.isNone_some, Option.some.injEq, here, decide_false, Bool.or_self,
              Bool.false_eq_true, false_and, if_false]
            split
            · rename_i refused
              cases empty.symm.trans refused
            · rfl
            · rename_i listed
              cases empty.symm.trans listed
      | @tree dir stack visits tree infos listed told rest ih =>
          by_cases here : dir = token
          · subst here
            rw [resumes, listTreeFrom_emitting (.tree listed told rest), remainingVisits,
              List.dropWhile_cons_of_neg (by simp)]
          · rw [remainingVisits_cons visits here, ← ih, Repository.listTreeFrom]
            simp only [Option.isNone_some, Option.some.injEq, here, decide_false, Bool.or_self,
              Bool.false_eq_true, false_and, if_false]
            split
            · rename_i refused
              cases listed.symm.trans refused
            · rename_i empty
              cases listed.symm.trans empty
            · rename_i read
              cases listed.symm.trans read
              simp only [pure_bind, List.append_nil]

/-- What a page was filled with is the beginning of what there was, and its token the directory
after it.
-/
theorem fillPage_eq (maxEntries : Nat) (visits : List Visit) (entries : List TreeEntryInfo)
    (directories : List BytePath)
    : ∃ taken rest,
        visits = taken ++ rest
        ∧ fillPage maxEntries entries directories visits
          = ⟨entries ++ taken.flatMap Prod.snd, directories ++ taken.map Prod.fst,
              rest.head?.map Prod.fst⟩
        ∧ (entries = [] → rest ≠ [] → taken ≠ []) := by
  induction visits generalizing entries directories with
  | nil => exact ⟨[], [], rfl, by simp [fillPage], fun _ absent => absurd rfl absent⟩
  | cons visit visits ih =>
      rw [fillPage]
      split
      · rename_i full
        exact ⟨[], visit :: visits, rfl, by simp, fun empty => absurd empty full.1⟩
      · obtain ⟨taken, rest, rfl, filled, -⟩ := ih (entries ++ visit.2) (directories ++ [visit.1])
        refine ⟨visit :: taken, rest, rfl, ?_, fun _ _ => List.cons_ne_nil _ _⟩
        rw [filled]
        simp

/-- A call of `list_tree` under the limit of its turn, and the directories of its page with what
each lists.
-/
def ListTreeCall (repo : Repository) (commit : ObjectId) (root : BytePath) (limits : Nat → Nat)
    (i : Nat) (after : Option Bytes) (visits : List Visit) (next : Option Bytes)
    : Prop :=
  repo.listTree commit root after (limits i)
    = .ok ⟨visits.flatMap Prod.snd, visits.map Prod.fst, next⟩

theorem remainingVisits_append {front rest : List Visit} {visit : Visit}
    (once : ((front ++ visit :: rest).map Prod.fst).Nodup)
    : remainingVisits (front ++ visit :: rest) (some visit.1) = visit :: rest := by
  rw [remainingVisits, List.dropWhile_append_of_pos, List.dropWhile_cons_of_neg (by simp)]
  intro other member
  rw [List.map_append, List.map_cons, List.nodup_middle, List.nodup_cons] at once
  rw [decide_eq_true_eq]
  intro same
  apply once.1
  rw [← same]
  exact List.mem_append_left _ (List.mem_map_of_mem member)

/-- The pages of the walk off a directory end, and make up the walk. -/
theorem exists_treePages {root : BytePath} (walked : Visits repo commit [root] visits)
    (limits : Nat → Nat)
    : ∃ pages,
        Followed (ListTreeCall repo commit root limits) 0 none pages
        ∧ pages.flatten = visits := by
  have once := walked.once (List.pairwise_singleton _ _)
  apply exists_followed (remainingVisits visits) (fun _ _ => True)
  · rintro i after -
    obtain ⟨taken, rest, left, filled, advances⟩ :=
      fillPage_eq (min (max (limits i) 1) maxTreePageEntries) (remainingVisits visits after) [] []
    refine ⟨taken, rest.head?.map Prod.fst, ?_, ?_, fun _ _ => trivial⟩
    · rw [ListTreeCall, Repository.listTree, listTreeFrom_eq walked, filled]
      rfl
    · cases rest with
      | nil => simpa [Advances] using left.symm
      | cons visit rest =>
          have suffix_ : remainingVisits visits after <:+ visits := by
            cases after with
            | none => exact List.suffix_refl _
            | some token => exact List.dropWhile_suffix _
          obtain ⟨front, whole⟩ := suffix_
          rw [left, ← List.append_assoc] at whole
          rw [← whole] at once
          have goesOn := remainingVisits_append once
          rw [whole] at goesOn
          exact ⟨by rw [goesOn, left], advances rfl (List.cons_ne_nil _ _)⟩
  · trivial

end Paged

-- What a page lists

theorem IsChild.isDirPath {db : ObjectDb} {commit : ObjectId} {dir child : BytePath}
    (listed : IsChild db commit dir child) (isDir : IsDirPath dir)
    : IsDirPath child := by
  obtain ⟨tree, read, member⟩ := listed
  obtain ⟨entry, listed, rfl⟩ := List.mem_map.mp member
  obtain ⟨oid, object, -, -, rfl⟩ := (leads_of_directoryTree read).oid
  have stored := DecodedTree.mem_new.mp (List.mem_filter.mp listed).1
  exact .inr (isDir.wellFormed_join (object.named entry stored))

theorem Below.isDirPath {db : ObjectDb} {commit : ObjectId} {root dir : BytePath}
    (below : Below db commit root dir) (isDir : IsDirPath root)
    : IsDirPath dir := by
  induction below with
  | here => exact isDir
  | child above listed ih => exact listed.isDirPath ih

/-- Whatever a page is given of, it lists whole directories of the commit, and none twice. -/
structure Whole (repo : Repository) (commit : ObjectId) (stack : List BytePath)
    (visits : List Visit)
    : Prop where
  below : ∀ visit ∈ visits, ∃ dir ∈ stack, Below repo.db commit dir visit.1
  complete : ∀ visit ∈ visits, Lists repo commit visit
  once : (visits.map Prod.fst).Nodup

section Given

variable {repo : Repository} {commit : ObjectId}

theorem Whole.nil (stack : List BytePath)
    : Whole repo commit stack [] where
  below := nofun
  complete := nofun
  once := List.nodup_nil

/-- One more directory before a page of those below it, and of others that are apart from it. -/
theorem Whole.cons {dir : BytePath} {children stack : List BytePath} {infos : List TreeEntryInfo}
    {visits : List Visit} (whole : Whole repo commit (children ++ stack) visits)
    (own : Lists repo commit (dir, infos))
    (listed : ∀ child ∈ children, IsChild repo.db commit dir child)
    (apart : ∀ other ∈ stack, Apart dir other)
    : Whole repo commit (dir :: stack) ((dir, infos) :: visits) where
  below := by
    refine List.forall_mem_cons.mpr ⟨⟨dir, List.mem_cons_self, .here⟩, ?_⟩
    intro visit member
    obtain ⟨next, pending, below⟩ := whole.below visit member
    rcases List.mem_append.mp pending with child | later
    · exact ⟨dir, List.mem_cons_self, (Below.here.child (listed next child)).trans below⟩
    · exact ⟨next, List.mem_cons_of_mem _ later, below⟩
  complete := List.forall_mem_cons.mpr ⟨own, whole.complete⟩
  once := by
    refine List.nodup_cons.mpr ⟨?_, whole.once⟩
    intro again
    obtain ⟨⟨same, found⟩, member, rfl⟩ := List.mem_map.mp again
    obtain ⟨next, pending, below⟩ := whole.below _ member
    rcases List.mem_append.mp pending with child | later
    · obtain ⟨name, longer⟩ := components_child (listed next child)
      have count := below.components.length_le
      rw [longer, List.length_append] at count
      exact absurd count (Nat.not_succ_le_self _)
    · exact (apart next later).2 below.components

theorem Whole.skip {dir : BytePath} {children stack : List BytePath} {visits : List Visit}
    (whole : Whole repo commit (children ++ stack) visits)
    (listed : ∀ child ∈ children, IsChild repo.db commit dir child)
    : Whole repo commit (dir :: stack) visits where
  below := by
    intro visit member
    obtain ⟨next, pending, below⟩ := whole.below visit member
    rcases List.mem_append.mp pending with child | later
    · exact ⟨dir, List.mem_cons_self, (Below.here.child (listed next child)).trans below⟩
    · exact ⟨next, List.mem_cons_of_mem _ later, below⟩
  complete := whole.complete
  once := whole.once

/-- A page that is given adds whole directories to what it had, whatever else of the commit cannot
be read.
-/
theorem whole_of_listTreeFrom {after : Option Bytes} {maxEntries : Nat} {stack : List BytePath}
    {emitting : Bool} {entries : List TreeEntryInfo} {directories : List BytePath}
    {page : TreePage}
    (given
      : repo.listTreeFrom commit after maxEntries stack emitting entries directories = .ok page)
    (apart : stack.Pairwise Apart)
    : ∃ visits,
        page.entries = entries ++ visits.flatMap Prod.snd
        ∧ page.directories = directories ++ visits.map Prod.fst
        ∧ Whole repo commit stack visits := by
  match stack with
  | [] =>
      rw [Repository.listTreeFrom] at given
      cases given
      exact ⟨[], by simp, by simp, .nil []⟩
  | dir :: stack =>
      obtain ⟨first, apart⟩ := List.pairwise_cons.mp apart
      rw [Repository.listTreeFrom] at given
      dsimp only at given
      generalize (emitting || decide (some dir = after)) = emits at given
      split at given
      · cases given
        exact ⟨[], by simp, by simp, .nil _⟩
      · split at given
        · cases given
        · rename_i empty
          obtain ⟨visits, listed, named, whole⟩ := whole_of_listTreeFrom given apart
          cases emits with
          | true =>
              refine ⟨(dir, []) :: visits, by simpa using listed, by simpa using named, ?_⟩
              exact @Whole.cons _ _ dir [] stack [] visits whole (.inl ⟨empty, rfl⟩)
                (fun _ member => absurd member List.not_mem_nil) first
          | false =>
              refine ⟨visits, listed, named, ?_⟩
              exact @Whole.skip _ _ dir [] stack visits whole
                fun _ member => absurd member List.not_mem_nil
        · rename_i tree read
          have children : ∀ child ∈ childPaths dir tree, IsChild repo.db commit dir child :=
            fun child member => ⟨tree, read, member⟩
          have apart' : (childPaths dir tree ++ stack).Pairwise Apart := by
            refine List.pairwise_append.mpr ⟨apart_children read, apart, ?_⟩
            exact fun child member other pending =>
              (first other pending).child (children child member)
          cases emits with
          | true =>
              obtain ⟨infos, told, given⟩ := bind_eq_ok.mp given
              obtain ⟨visits, listed, named, whole⟩ := whole_of_listTreeFrom given apart'
              refine ⟨(dir, infos) :: visits, by simpa using listed, by simpa using named, ?_⟩
              exact whole.cons (.inr ⟨tree, read, told⟩) children first
          | false =>
              obtain ⟨visits, listed, named, whole⟩ := whole_of_listTreeFrom given apart'
              exact ⟨visits, by simpa using listed, named, whole.skip children⟩
termination_by ((stack.map (repo.db.pathWeight commit)).sum, stack.length)
decreasing_by
  · exact repo.db.stack_pop commit dir stack
  · exact repo.db.stack_expand ‹_› stack
  · exact repo.db.stack_expand ‹_› stack

end Given

/-- The walk covers everything at and below a directory: every directory once and none but those,
each after the one it is listed in and with all that it lists.
-/
structure Covers (repo : Repository) (commit : ObjectId) (root : BytePath) (visits : List Visit)
    : Prop where
  every : ∀ dir, dir ∈ visits.map Prod.fst ↔ Below repo.db commit root dir
  once : (visits.map Prod.fst).Nodup
  parents
    : ∀ front visit back,
        visits = front ++ visit :: back
        → visit.1 = root ∨ ∃ dir ∈ front.map Prod.fst, IsChild repo.db commit dir visit.1
  complete : ∀ visit ∈ visits, Lists repo commit visit
  inside : ∀ visit ∈ visits, root.components <+: visit.1.components

/-- Following the tokens of `list_tree` from none lists everything at and below a directory of a
stored commit, and following those of `page` lists the entries of a tree, in finitely many calls.
No end of a page of one tree may overflow.
-/
theorem pages_cover
    : (∀ (repo : Repository) (commit : ObjectId) (found : CommitMeta) (root : BytePath)
          (limits : Nat → Nat),
        repo.db.commit commit = some found
        → Held repo.db found.tree
        → (∃ listed, repo.db.directoryTree commit root = .ok listed)
        → ∃ pages,
            Followed (ListTreeCall repo commit root limits) 0 none pages
            ∧ Covers repo commit root pages.flatten)
      ∧ ∀ (object : TreeObject) (limits : Nat → Nat),
          (∀ i, 1 ≤ limits i)
          → DecodedTree.LimitsFit (.new object) limits
          → ∃ pages,
              Followed (DecodedTree.PageCall (.new object) limits) 0 none pages
              ∧ pages.flatten = (DecodedTree.new object).entries := by
  refine ⟨?_, fun object limits positive fits => DecodedTree.exists_pages object positive fits⟩
  intro repo commit found root limits committed held read
  obtain ⟨visits, walked⟩ := exists_visits committed held [root]
    (by intro dir member; rwa [List.mem_singleton.mp member])
  obtain ⟨pages, followed, rfl⟩ := exists_treePages walked limits
  have every (dir : BytePath)
      : dir ∈ pages.flatten.map Prod.fst ↔ Below repo.db commit root dir := by
    rw [walked.every]
    simp
  refine ⟨pages, followed, every, walked.once (List.pairwise_singleton _ _), ?_,
    walked.complete, ?_⟩
  · intro front visit back whole
    have before := walked.parents whole
    rwa [List.mem_singleton] at before
  · intro visit member
    exact ((every visit.1).mp (List.mem_map_of_mem member)).components

/-- Two files in Git's order. -/
def twoFiles : TreeObject where
  entries := [⟨[97], Mode.regular, ⟨.sha1, []⟩⟩, ⟨[98], Mode.regular, ⟨.sha1, []⟩⟩]
  named := by simp [IsComponent, slash]
  unique := by decide

/-- A commit of an empty directory and a gitlink. -/
def smallRepository : Repository where
  db := {
    commit := fun oid => if oid = ⟨.sha1, [0]⟩ then some ⟨⟨.sha1, [1]⟩, []⟩ else none
    tree := fun oid =>
      if oid = ⟨.sha1, [1]⟩ then
        some ⟨[⟨[97], Mode.directory, ⟨.sha1, [2]⟩⟩, ⟨[98], Mode.gitlink, ⟨.sha1, [3]⟩⟩],
          by simp [IsComponent, slash], by decide⟩
      else if oid = ⟨.sha1, [2]⟩ then some ⟨[], by simp, by decide⟩
      else none
    blob := fun _ => none
    weight := fun oid => if oid = ⟨.sha1, [1]⟩ then 2 else 1
    acyclic := by
      intro oid object stored
      split at stored
      · rename_i root
        cases stored
        rw [if_pos root]
        decide
      · split at stored
        · rename_i below
          cases stored
          rw [below]
          decide
        · cases stored
  }
  lfsCheck := none

/-- The small commit's two directories are listed by pages of one entry, and so are two files. -/
theorem small_pages_cover
    : (∃ pages,
        Followed (ListTreeCall smallRepository ⟨.sha1, [0]⟩ [] (fun _ => 1)) 0 none pages
        ∧ Covers smallRepository ⟨.sha1, [0]⟩ [] pages.flatten)
      ∧ ∃ pages,
          Followed (DecodedTree.PageCall (.new twoFiles) (fun _ => 1)) 0 none pages
          ∧ pages.flatten = (DecodedTree.new twoFiles).entries := by
  have held : Held smallRepository.db ⟨.sha1, [1]⟩ := by
    refine .tree rfl ?_ (by decide)
    intro entry member isTree
    rcases List.mem_cons.mp member with rfl | member
    · exact .tree rfl (fun _ absent => nomatch absent) (by decide)
    · rw [List.mem_singleton.mp member] at isTree
      cases isTree
  have fits : DecodedTree.LimitsFit (.new twoFiles) (fun _ => 1) := by
    intro i within
    have count : DecodedTree.asked (fun _ => 1) i = i := by simp [DecodedTree.asked]
    have sized : (DecodedTree.new twoFiles).entries.length = 2 :=
      (List.mergeSort_perm twoFiles.entries inTreeOrder).length_eq
    rw [count, sized] at within
    rw [count]
    change i + 1 < 2 ^ 64
    omega
  exact ⟨pages_cover.1 smallRepository ⟨.sha1, [0]⟩ _ [] (fun _ => 1) rfl held ⟨_, rfl⟩,
    pages_cover.2 twoFiles (fun _ => 1) (fun _ => Nat.le_refl 1) fits⟩

/-- A first page of one entry, and all further entries after it. -/
def oneThenAll (i : Nat) : Nat :=
  if i = 0 then 1 else 2 ^ 64 - 1

/-- The end of the second page overflows, so no pages list both files. -/
theorem page_end_overflows
    : (∀ i, 1 ≤ oneThenAll i)
      ∧ ¬∃ pages,
          Followed (DecodedTree.PageCall (.new twoFiles) oneThenAll) 0 none pages
          ∧ pages.flatten = (DecodedTree.new twoFiles).entries := by
  have sorted : (DecodedTree.new twoFiles).entries = twoFiles.entries :=
    List.mergeSort_of_pairwise (by decide)
  constructor
  · intro i
    rw [oneThenAll]
    split
    · decide
    · decide
  · rintro ⟨pages, followed, -⟩
    have first : (DecodedTree.new twoFiles).checkedPage none 1
        = some ([⟨[97], Mode.regular, ⟨.sha1, []⟩⟩], some [97]) := by
      rw [DecodedTree.checkedPage, sorted]
      decide
    have second : (DecodedTree.new twoFiles).checkedPage (some [97]) (2 ^ 64 - 1) = none := by
      rw [DecodedTree.checkedPage, DecodedTree.start, sorted]
      decide
    cases followed with
    | last called => cases first.symm.trans called
    | more called rest =>
        cases first.symm.trans called
        cases rest with
        | last called => cases second.symm.trans called
        | more called rest => cases second.symm.trans called

end Gfs.Git
