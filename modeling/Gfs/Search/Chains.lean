import Gfs.Git.Pages
import Gfs.Search.Building

/-! Chains of builds (`gfs-service/src/search/mod.rs`): which builds succeed where the objects of a
commit are stored, and what the manifests of a whole chain hold, whichever way each was built.
-/

namespace Gfs.Search.Manifests

open Gfs.Git
open Gfs.Types
open Gfs.Lib
open Gfs.Search.Index (BlobKey)

-- Walks and listings of what is stored

section Stored

variable {db : ObjectDb} {commit : ObjectId} {found : CommitMeta}

theorem blob_of_leafAt {oid : ObjectId} (held : Held db oid) {names : List Bytes}
    {entry : DecodedEntry} (leaf : db.leafAt oid names = some entry)
    (content : (EntryKind.fromMode entry.mode).hasBlobContent)
    : ∃ bytes, db.findBlob entry.oid = .ok bytes := by
  induction names generalizing oid with
  | nil => cases leaf
  | cons name names ih =>
      have whole := held
      cases held with
      | @tree _ object stored trees blobs =>
          cases names with
          | nil =>
              obtain ⟨member, -, -⟩ := (leafAt_singleton stored).mp leaf
              have heldTree : HeldTree db (.new object) := ⟨oid, object, stored, rfl, whole⟩
              exact heldTree.blob (DecodedTree.mem_new.mpr member) content
          | cons next names =>
              obtain ⟨directory, member, -, tree, below⟩ := (leafAt_cons stored).mp leaf
              exact ih (trees directory member tree) below

theorem hasBlobContent_of_searchable {mode : Nat} (searchable : isSearchable mode = true)
    : (EntryKind.fromMode mode).hasBlobContent = true := by
  rcases isSearchable_iff_kind.mp searchable with kind | kind
  · rw [kind]
    rfl
  · rw [kind]
    rfl

theorem header_of_leafAt {oid : ObjectId} (held : Held db oid) {names : List Bytes}
    {entry : DecodedEntry} (leaf : db.leafAt oid names = some entry)
    (searchable : isSearchable entry.mode = true)
    : ∃ size, db.readHeader entry.oid = .ok size := by
  obtain ⟨bytes, read⟩ := blob_of_leafAt held leaf (hasBlobContent_of_searchable searchable)
  exact ⟨bytes.length, by rw [ObjectDb.readHeader, read]; rfl⟩

/-- A walk of stored trees succeeds where every leaf is visited. -/
theorem exists_walk {α : Type} {lastFirst : Bool}
    {visit : BytePath → DecodedEntry → Except GfsError (List α)}
    {stack : List (ObjectId × BytePath)} (held : ∀ pending ∈ stack, Held db pending.1)
    (visits : ∀ path entry, db.Under stack path entry → ∃ results, visit path entry = .ok results)
    : ∃ visited, db.walk lastFirst visit stack = .ok visited := by
  induction stack using ObjectDb.walk.induct db lastFirst with
  | case1 => exact ⟨[], by rw [ObjectDb.walk]⟩
  | case2 oid lead stack missing =>
      cases held _ List.mem_cons_self with
      | tree stored trees blobs =>
          rw [missing] at stored
          cases stored
  | case3 oid lead stack object found ih =>
      obtain ⟨own, later⟩ := List.forall_mem_cons.mp held
      obtain ⟨here, visitedHere⟩ : ∃ here,
          ((DecodedTree.new object).entries.filter (fun entry => !entry.isTree)).mapM
              (fun entry => visit (lead.join entry.name) entry)
            = .ok here := by
        refine Mapped.exists_mapM fun entry member => ?_
        obtain ⟨listed, file⟩ := List.mem_filter.mp member
        refine visits _ entry ((under_cons found lead lastFirst stack).mpr (.inl ?_))
        exact ⟨DecodedTree.mem_new.mp listed, by simpa using file, rfl⟩
      obtain ⟨rest, walked⟩ := ih
        (by
          intro pending member
          rcases List.mem_append.mp member with child | other
          · have subtree : pending ∈ ObjectDb.subtrees lead (.new object) := by
              cases lastFirst with
              | true => exact List.mem_reverse.mp child
              | false => exact child
            obtain ⟨entry, listed, rfl⟩ := List.mem_map.mp subtree
            obtain ⟨member, tree⟩ := List.mem_filter.mp listed
            cases own with
            | tree stored trees blobs =>
                cases found.symm.trans stored
                exact trees entry (DecodedTree.mem_new.mp member) tree
          · exact later pending other)
        (fun path entry under =>
          visits path entry ((under_cons found lead lastFirst stack).mpr (.inr under)))
      refine ⟨here.flatten ++ rest, ?_⟩
      rw [ObjectDb.walk]
      split
      · rename_i missing
        rw [missing] at found
        cases found
      · rename_i other found'
        cases found.symm.trans found'
        rw [visitedHere]
        rw [dite_eq_ite] at walked
        simp only [bind, Except.bind, walked]
        rfl

/-- The LFS entries of a stored commit are found. -/
theorem exists_lfsPointers (committed : db.commit commit = some found)
    (held : Held db found.tree)
    : ∃ pointers, db.lfsPointers commit = .ok pointers := by
  obtain ⟨visited, walked⟩ : ∃ visited,
      db.walk true (db.visitPointer commit) [(found.tree, [])] = .ok visited := by
    refine exists_walk (by simpa using held) ?_
    rintro path entry ⟨oid, lead, names, member, leaf, -⟩
    cases List.mem_singleton.mp member
    rw [ObjectDb.visitPointer]
    split
    · rename_i searchable
      obtain ⟨size, header⟩ := header_of_leafAt held leaf searchable
      obtain ⟨pointer, looked⟩ :=
        @exists_lfsPointerFor ⟨db, none⟩ commit found committed held path
          (.fromMode entry.mode) entry.oid (blob_of_leafAt held leaf) size
      simp only [header, bind, Except.bind, looked]
      split
      · exact ⟨_, rfl⟩
      · exact ⟨_, rfl⟩
    · exact ⟨_, rfl⟩
  refine ⟨visited, ?_⟩
  rw [ObjectDb.lfsPointers, findCommit_eq_ok.mpr committed]
  exact walked

/-- The files below a top-level directory of a stored commit are listed. -/
theorem exists_walkTree {object : TreeObject} (committed : db.commit commit = some found)
    (held : Held db found.tree) (rooted : db.tree found.tree = some object)
    {directory : DecodedEntry} (member : directory ∈ object.entries)
    (tree : directory.isTree = true)
    : ∃ visited, db.walkTree commit directory.name = .ok visited := by
  rw [walkTree_child committed rooted member tree]
  have below : Held db directory.oid := by
    cases held with
    | tree stored trees blobs =>
        cases rooted.symm.trans stored
        exact trees directory member tree
  refine exists_walk (by simpa using below) ?_
  rintro path entry ⟨oid, lead, names, member, leaf, -⟩
  cases List.mem_singleton.mp member
  rw [ObjectDb.visitFile]
  split
  · rename_i searchable
    obtain ⟨size, header⟩ := header_of_leafAt below leaf searchable
    exact ⟨_, by rw [header]; rfl⟩
  · exact ⟨_, rfl⟩

/-- The root of a stored commit is listed. -/
theorem exists_rootEntries {repo : Repository} (committed : repo.db.commit commit = some found)
    (held : Held repo.db found.tree) (fuel : Nat) (after : Option Bytes)
    : ∃ listed, rootEntries repo commit fuel after = .ok listed := by
  induction fuel generalizing after with
  | zero => exact ⟨[], rfl⟩
  | succ fuel ih =>
      have whole := held
      cases held with
      | @tree _ object stored trees blobs =>
          have heldTree : HeldTree repo.db (.new object) := ⟨found.tree, object, stored, rfl, whole⟩
          obtain ⟨page, opened⟩ : ∃ page,
              repo.listDirectory commit [] after maxDirectoryPageSize = .ok page := by
            rw [Repository.listDirectory, directoryTree_root committed stored]
            obtain ⟨entries, told⟩ : ∃ entries,
                ((DecodedTree.new object).page after
                    (min (max maxDirectoryPageSize 1) maxDirectoryPageSize)).1.mapM
                  (fun decoded =>
                    repo.entryInfo commit (BytePath.join [] decoded.name) decoded)
                = .ok entries := by
              refine Mapped.exists_mapM fun entry member => ?_
              refine exists_entryInfo committed whole heldTree ?_
              rw [DecodedTree.page_eq] at member
              have remains := List.mem_of_mem_take member
              cases after with
              | none => exact remains
              | some token => exact (List.dropWhile_suffix _).subset remains
            exact ⟨_, by simp only [bind, Except.bind, told]; rfl⟩
          rw [rootEntries, opened]
          simp only [bind, Except.bind]
          split
          · exact ⟨_, rfl⟩
          · rename_i token _
            obtain ⟨rest, later⟩ := ih (some token)
            exact ⟨page.entries ++ rest, by rw [later]; rfl⟩

end Stored

-- Builds that succeed

section Builds

variable {git : Libgit2} {ingest : Ingest} {commit parent : ObjectId} {was found : CommitMeta}

/-- A commit is stored with everything its trees name. -/
def Libgit2.Holds (git : Libgit2) (commit : ObjectId) : Prop :=
  ∃ found, git.commit commit = some found ∧ Held git.db found.tree

theorem Libgit2.Legible.names {old new : ObjectId} (legible : git.Legible old new)
    : git.NamesModes old new :=
  fun path differs => ⟨(legible path differs).1, fun hidden => ((legible path differs).2 hidden).1⟩

/-- Stored trees can be compared. -/
def Libgit2.Answers (git : Libgit2) : Prop :=
  ∀ old new, Held git.db old → Held git.db new → ∃ deltas, git.diff old new = .ok deltas

/-- A full build of a stored commit succeeds. -/
theorem exists_buildFull {repo : Repository} {finish : List BytePath → List BytePath}
    (finishes : ∀ directories, (finish directories).Perm directories)
    (answers : ∀ facts, ∃ keys, ingest facts = .ok keys)
    (committed : repo.db.commit commit = some found) (held : Held repo.db found.tree)
    (lfs : List LfsEntry)
    : ∃ manifest, buildFull repo finish ingest commit lfs = .ok manifest := by
  obtain ⟨object, rooted⟩ : ∃ object, repo.db.tree found.tree = some object := by
    cases held with
    | tree stored trees blobs => exact ⟨_, stored⟩
  obtain ⟨listed, opened⟩ :=
    exists_rootEntries committed held (rootPages repo.db commit) none
  have pages : rootPages repo.db commit = (DecodedTree.new object).entries.length + 1 := by
    rw [rootPages, directoryTree_root committed rooted]
  have own := rootEntries_ok committed rooted _ none
    (by rw [pages]; exact Nat.lt_succ_self _) opened
  have walks
      : ∀ path
          ∈ finish
              ((listed.filter (fun info => info.kind = .directory)).map TreeEntryInfo.path),
          ∃ visited, repo.db.walkTree commit path = .ok visited := by
    intro path member
    obtain ⟨info, given, rfl⟩ := List.mem_map.mp ((finishes _).mem_iff.mp member)
    obtain ⟨shown, kind⟩ := List.mem_filter.mp given
    obtain ⟨decoded, there, built⟩ := Mapped.exists_of_forall₂_right own shown
    obtain ⟨named, kinded, -, -⟩ := entryInfo_ok built
    rw [named]
    refine exists_walkTree committed held rooted (DecodedTree.mem_new.mp there) ?_
    exact isTree_iff_kind.mpr (kinded ▸ of_decide_eq_true kind)
  obtain ⟨subtrees, walked⟩ := Mapped.exists_mapM walks
  obtain ⟨keys, ingested⟩ :=
    answers ((listed.filterMap rootFile ++ subtrees.flatten.map walkedFile).map
      (fun file => factOf lfs file.1 file.2.2.1 file.2.2.2))
  rw [buildFull, opened]
  simp only [bind, Except.bind, walked, ingested]
  exact ⟨_, rfl⟩

theorem header_of_shown (documented : git.Documented) {tree : ObjectId}
    (held : Held git.db tree) {path : BytePath} {attr : Nat} {oid : ObjectId}
    (shown : Libgit2.shownFile (git.storedFile tree path) = some (attr, oid))
    : ∃ size, git.db.readHeader oid = .ok size := by
  obtain ⟨there, searchable⟩ := Option.filter_eq_some_iff.mp shown
  obtain ⟨entry, stored, same⟩ := Option.map_eq_some_iff.mp there
  cases same
  have leaf
      : git.db.leafAt tree (path.splitOn slash) = some (entry.decoded git.filemode) := by
    rw [leafAt_db, stored, Option.map_some]
  refine header_of_leafAt held leaf ?_
  rw [StoredEntry.decoded, documented.filemode entry.attr searchable]
  exact searchable

/-- The difference of stored commits is listed where the modes have names. -/
theorem exists_diffCommits (documented : git.Documented) (compares : git.Answers)
    (parented : git.commit parent = some was) (before : Held git.db was.tree)
    (committed : git.commit commit = some found) (held : Held git.db found.tree)
    (names : git.NamesModes was.tree found.tree)
    : ∃ deltas, git.diffCommits parent commit = .ok deltas := by
  obtain ⟨raws, diffed⟩ := compares was.tree found.tree before held
  obtain ⟨results, mapped⟩ : ∃ results, raws.mapM git.treeDelta = .ok results := by
    refine Mapped.exists_mapM fun raw listed => ?_
    obtain ⟨path, differs, tells⟩ := documented.sound _ _ _ diffed raw listed
    obtain ⟨named, known⟩ := names path differs
    cases shown : Libgit2.shownFile (git.storedFile found.tree path) with
    | none => exact ⟨_, treeDelta_hidden documented tells shown named (known shown)⟩
    | some file =>
        obtain ⟨size, header⟩ := header_of_shown documented held shown
        exact ⟨_, (treeDelta_shown documented tells shown).trans (by rw [header]; rfl)⟩
  refine ⟨results.filterMap id, ?_⟩
  have old : git.db.findCommit parent = .ok was := findCommit_eq_ok.mpr parented
  have new : git.db.findCommit commit = .ok found := findCommit_eq_ok.mpr committed
  rw [Libgit2.diffCommits, old, new]
  simp only [bind, Except.bind, diffed, mapped]
  rfl

theorem exists_buildIncremental (documented : git.Documented) (compares : git.Answers)
    (answers : ∀ facts, ∃ keys, ingest facts = .ok keys)
    (parented : git.commit parent = some was) (before : Held git.db was.tree)
    (committed : git.commit commit = some found) (held : Held git.db found.tree)
    (names : git.NamesModes was.tree found.tree) (base : Manifest) (lfs : List LfsEntry)
    : ∃ manifest, buildIncremental git ingest commit parent base lfs = .ok manifest := by
  obtain ⟨deltas, diffed⟩ :=
    exists_diffCommits documented compares parented before committed held names
  obtain ⟨keys, ingested⟩ :=
    answers ((deltas.filterMap (upsertOf lfs)).map (fun upsert => upsert.2.2))
  rw [buildIncremental, diffed]
  simp only [bind, Except.bind, ingested]
  exact ⟨_, rfl⟩

end Builds

-- Chains of builds

section Chains

variable {git : Libgit2} {keyOf : ObjectId → BlobKey} {oidOf : BlobKey → Option ObjectId}

/-- The files a manifest holds, with the ids the registry has for their keys. -/
def Manifest.files (manifest : Manifest) (oidOf : BlobKey → Option ObjectId) (path : BytePath)
    : Option (Nat × ObjectId) :=
  (manifest.find path).bind (fun file => (oidOf file.2).map (fun oid => (file.1, oid)))

/-- Every READY manifest holds exactly the files of its commit's tree. -/
def Ready.Exact (git : Libgit2) (keyOf : ObjectId → BlobKey) (ready : Ready) : Prop :=
  ∀ commit manifest, ready commit = some manifest → manifest.Exact git.db keyOf commit

/-- Every READY commit is stored. -/
def Ready.Stored (git : Libgit2) (ready : Ready) : Prop :=
  ∀ commit manifest, ready commit = some manifest → git.Holds commit

/-- Where the preparation builds on its first parent, the modes tell of every path that differs
from it.
-/
def Preparation.Legible (git : Libgit2) (ready : Ready) (preparation : Preparation) : Prop :=
  preparation.incremental = true
  → ∀ parent base,
      incrementalBase git.db ready preparation.commit = .ok (some (parent, base))
      → ∀ was found,
          git.commit parent = some was
          → git.commit preparation.commit = some found
          → git.Legible was.tree found.tree

variable {ready : Ready} {commit : ObjectId} {manifest : Manifest}

theorem incrementalBase_ready {parent : ObjectId} {base : Manifest}
    (found : incrementalBase git.db ready commit = .ok (some (parent, base)))
    : ready parent = some base := by
  obtain ⟨recorded, -, same⟩ := bind_eq_ok.mp found
  obtain ⟨first, -, there⟩ := Option.bind_eq_some_iff.mp (Except.ok.inj same)
  obtain ⟨other, there, same⟩ := Option.map_eq_some_iff.mp there
  cases same
  exact there

/-- A preparation over exact manifests makes an exact one exactly where the modes tell, if it builds
on the first parent at all.
-/
theorem prepare_exact_iff (documented : git.Documented)
    (oneKey
      : ∀ commit path mode oid, git.db.fileAt commit path = some (mode, oid)
        → oidOf (keyOf oid) = some oid)
    {ready : Ready} (exact_ : ready.Exact git keyOf) {preparation : Preparation}
    (sound : preparation.Sound keyOf) {manifest : Manifest}
    (ran : prepare git ready preparation = .ok manifest)
    : manifest.Exact git.db keyOf preparation.commit ↔ preparation.Legible git ready := by
  obtain ⟨lfs, listed, ran⟩ := bind_eq_ok.mp ran
  obtain ⟨base, based, ran⟩ := bind_eq_ok.mp ran
  have full
      : buildFull ⟨git.db, preparation.lfsCheck⟩ preparation.finish preparation.ingest
          preparation.commit lfs = .ok manifest
        → manifest.Exact git.db keyOf preparation.commit := by
    intro built
    exact @buildFull_exact ⟨git.db, preparation.lfsCheck⟩ _ _ _ sound.finish _ sound.ingest _
      listed _ built
  cases base with
  | none =>
      refine iff_of_true (full ran) fun _ parent base other => ?_
      rw [based] at other
      cases other
  | some pair =>
      obtain ⟨parent, base⟩ := pair
      simp only at ran
      split at ran
      · rename_i incremental
        obtain ⟨deltas, diffed, -⟩ := bind_eq_ok.mp ran
        obtain ⟨was, old, diffed⟩ := bind_eq_ok.mp diffed
        obtain ⟨found, new, -⟩ := bind_eq_ok.mp diffed
        have parented : git.commit parent = some was := findCommit_eq_ok.mp old
        have committed : git.commit preparation.commit = some found := findCommit_eq_ok.mp new
        rw [buildIncremental_exact_iff documented oneKey sound.ingest parented committed
          (exact_ parent base (incrementalBase_ready based)) listed ran]
        constructor
        · intro legible _ parent' base' based' was' found' parented' committed'
          cases based.symm.trans based'
          cases parented.symm.trans parented'
          cases committed.symm.trans committed'
          exact legible
        · exact fun legible => legible incremental parent base based was found parented committed
      · rename_i whole
        exact iff_of_true (full ran) fun incremental => absurd incremental whole

/-- A preparation of a stored commit succeeds where the modes tell. -/
theorem exists_prepare (documented : git.Documented) (compares : git.Answers)
    (stored : ready.Stored git) {preparation : Preparation} (sound : preparation.Sound keyOf)
    (holds : git.Holds preparation.commit)
    (answers : ∀ facts, ∃ keys, preparation.ingest facts = .ok keys)
    (legible : preparation.Legible git ready)
    : ∃ manifest, prepare git ready preparation = .ok manifest := by
  obtain ⟨found, committed, held⟩ := holds
  obtain ⟨lfs, listed⟩ := exists_lfsPointers committed held
  have full :=
    @exists_buildFull preparation.ingest preparation.commit found
      ⟨git.db, preparation.lfsCheck⟩ preparation.finish sound.finish answers committed held lfs
  obtain ⟨base, based⟩ : ∃ base, incrementalBase git.db ready preparation.commit = .ok base := by
    rw [incrementalBase, findCommit_eq_ok.mpr
      (show git.db.commit preparation.commit = some found from committed)]
    exact ⟨_, rfl⟩
  rw [prepare, listed]
  simp only [bind, Except.bind, based]
  cases base with
  | none => exact full
  | some pair =>
      obtain ⟨parent, base⟩ := pair
      obtain ⟨was, parented, before⟩ := stored parent base (incrementalBase_ready based)
      dsimp only
      split
      · rename_i incremental
        exact exists_buildIncremental documented compares answers parented before committed held
          (legible incremental parent base based was found parented committed).names base lfs
      · exact full

/-- Every key of a manifest is the key of a file. -/
def Manifest.Keyed (git : Libgit2) (keyOf : ObjectId → BlobKey) (manifest : Manifest) : Prop :=
  ∀ path mode key,
    manifest.find path = some (mode, key)
    → ∃ commit path oid, git.db.fileAt commit path = some (mode, oid) ∧ key = keyOf oid

theorem Manifest.Exact.keyed (exact_ : manifest.Exact git.db keyOf commit)
    : manifest.Keyed git keyOf := by
  intro path mode key there
  rw [exact_ path] at there
  obtain ⟨⟨mode', oid⟩, file, same⟩ := Option.map_eq_some_iff.mp there
  cases same
  exact ⟨commit, path, oid, file, rfl⟩

/-- A manifest of files' keys is exact where its files are those of the commit. -/
theorem Manifest.Keyed.exact_iff
    (oneKey
      : ∀ commit path mode oid, git.db.fileAt commit path = some (mode, oid)
        → oidOf (keyOf oid) = some oid)
    (keyed : manifest.Keyed git keyOf)
    : manifest.Exact git.db keyOf commit
      ↔ ∀ path, manifest.files oidOf path = git.db.fileAt commit path := by
  refine forall_congr' fun path => ?_
  rw [Manifest.files]
  constructor
  · intro held
    rw [held]
    cases file : git.db.fileAt commit path with
    | none => rfl
    | some pair =>
        rw [Option.map_some, Option.bind_some, oneKey commit path pair.1 pair.2 file]
        rfl
  · intro files
    rw [← files]
    cases held : manifest.find path with
    | none => rfl
    | some pair =>
        obtain ⟨mode, key⟩ := pair
        obtain ⟨from_, path', oid, file, rfl⟩ := keyed path mode key held
        rw [Option.bind_some, oneKey from_ path' mode oid file]
        rfl

/-- A preparation over exact manifests makes one of files' keys. -/
theorem prepare_keyed (documented : git.Documented) (exact_ : ready.Exact git keyOf)
    {preparation : Preparation} (sound : preparation.Sound keyOf)
    (ran : prepare git ready preparation = .ok manifest)
    : manifest.Keyed git keyOf := by
  obtain ⟨lfs, listed, ran⟩ := bind_eq_ok.mp ran
  obtain ⟨base, based, ran⟩ := bind_eq_ok.mp ran
  have full
      : buildFull ⟨git.db, preparation.lfsCheck⟩ preparation.finish preparation.ingest
          preparation.commit lfs = .ok manifest
        → manifest.Keyed git keyOf := by
    intro built
    exact Manifest.Exact.keyed (@buildFull_exact ⟨git.db, preparation.lfsCheck⟩ _ _ _
      sound.finish _ sound.ingest _ listed _ built)
  cases base with
  | none => exact full ran
  | some pair =>
      obtain ⟨parent, base⟩ := pair
      simp only at ran
      split at ran
      · obtain ⟨deltas, diffed, -⟩ := bind_eq_ok.mp ran
        obtain ⟨was, old, diffed⟩ := bind_eq_ok.mp diffed
        obtain ⟨found, new, -⟩ := bind_eq_ok.mp diffed
        have parented : git.commit parent = some was := findCommit_eq_ok.mp old
        have committed : git.commit preparation.commit = some found := findCommit_eq_ok.mp new
        have inherited := (exact_ parent base (incrementalBase_ready based)).keyed
        intro path mode key there
        rw [find_buildIncremental documented sound.ingest parented committed listed ran,
          carried] at there
        split at there
        · exact inherited path mode key there
        · split at there
          · rename_i oid shown
            cases there
            obtain ⟨-, file⟩ := documented.fileOf_shown shown
            rw [← fileAt_eq committed] at file
            exact ⟨preparation.commit, path, oid, file, rfl⟩
          · split at there
            · cases there
            · exact inherited path mode key there
      · exact full ran

/-- An event as the service takes one. -/
def Event.Sound (keyOf : ObjectId → BlobKey) : Event → Prop
  | .prepare preparation => preparation.Sound keyOf
  | .collect _ => True

/-- An event at which nothing fails: the commit is stored, and the registry numbers what it is
given.
-/
def Event.Works (git : Libgit2) : Event → Prop
  | .prepare preparation =>
      git.Holds preparation.commit ∧ ∀ facts, ∃ keys, preparation.ingest facts = .ok keys
  | .collect _ => True

/-- An event at which the modes tell what a build has to be told. -/
def Event.Legible (git : Libgit2) (ready : Ready) : Event → Prop
  | .prepare preparation =>
      ready preparation.commit = none → preparation.Legible git ready
  | .collect _ => True

/-- After a preparation its commit is READY, with exactly the files of its tree. -/
def Event.Answered (git : Libgit2) (oidOf : BlobKey → Option ObjectId) (ready : Ready)
    : Event → Prop
  | .prepare preparation =>
      ∃ manifest,
        step git ready (.prepare preparation) preparation.commit = some manifest
        ∧ ∀ path, manifest.files oidOf path = git.db.fileAt preparation.commit path
  | .collect _ => True

/-- What is READY after an event was so before, or was built by it. -/
theorem step_cases {event : Event} (there : step git ready event commit = some manifest)
    : ready commit = some manifest
      ∨ ∃ preparation,
          event = .prepare preparation
          ∧ preparation.commit = commit
          ∧ ready commit = none
          ∧ prepare git ready preparation = .ok manifest := by
  cases event with
  | collect gone =>
      rw [step, Function.update_apply] at there
      split_ifs at there
      exact .inl there
  | prepare preparation =>
      rw [step] at there
      cases unready : ready preparation.commit with
      | some built =>
          rw [unready] at there
          exact .inl there
      | none =>
          rw [unready] at there
          cases ran : prepare git ready preparation with
          | error refusal =>
              rw [ran] at there
              exact .inl there
          | ok built =>
              rw [ran] at there
              simp only [Function.update_apply] at there
              split_ifs at there with same
              · cases there
                exact .inr ⟨preparation, rfl, same.symm, same ▸ unready, ran⟩
              · exact .inl there

theorem step_exact (documented : git.Documented)
    (oneKey
      : ∀ commit path mode oid, git.db.fileAt commit path = some (mode, oid)
        → oidOf (keyOf oid) = some oid)
    (ready : Ready) (event : Event) (exact_ : ready.Exact git keyOf) (sound : event.Sound keyOf)
    (legible : event.Legible git ready)
    : (step git ready event).Exact git keyOf := by
  intro commit manifest there
  rcases step_cases there with before | ⟨preparation, rfl, rfl, unready, ran⟩
  · exact exact_ commit manifest before
  · exact (prepare_exact_iff documented oneKey exact_ sound ran).mpr (legible unready)

theorem step_stored (ready : Ready) (event : Event) (stored : ready.Stored git)
    (works : event.Works git)
    : (step git ready event).Stored git := by
  intro commit manifest there
  rcases step_cases there with before | ⟨preparation, rfl, rfl, -, -⟩
  · exact stored commit manifest before
  · exact works.1

/-- A preparation at which nothing fails leaves its commit READY with exactly the files of its tree
exactly where the modes tell.
-/
theorem answered_iff (documented : git.Documented) (compares : git.Answers)
    (oneKey
      : ∀ commit path mode oid, git.db.fileAt commit path = some (mode, oid)
        → oidOf (keyOf oid) = some oid)
    (ready : Ready) (event : Event) (exact_ : ready.Exact git keyOf) (stored : ready.Stored git)
    (sound : event.Sound keyOf) (works : event.Works git)
    : event.Answered git oidOf ready ↔ event.Legible git ready := by
  cases event with
  | collect gone => exact Iff.rfl
  | prepare preparation =>
      rw [Event.Answered, Event.Legible]
      cases unready : ready preparation.commit with
      | some built =>
          have held := exact_ preparation.commit built unready
          refine iff_of_true ⟨built, ?_, (held.keyed.exact_iff oneKey).mp held⟩ ?_
          · rw [step, unready]
            exact unready
          · intro missing
            cases missing
      | none =>
          rw [imp_iff_right rfl]
          constructor
          · rintro ⟨manifest, there, files⟩
            rcases step_cases there with before | ⟨other, same, -, -, ran⟩
            · rw [unready] at before
              cases before
            · cases same
              exact (prepare_exact_iff documented oneKey exact_ sound ran).mp
                (((prepare_keyed documented exact_ sound ran).exact_iff oneKey).mpr files)
          · intro legible
            obtain ⟨manifest, ran⟩ :=
              exists_prepare documented compares stored sound works.1 works.2 legible
            refine ⟨manifest, by rw [step, unready, ran]; exact Function.update_self .., ?_⟩
            have held := (prepare_exact_iff documented oneKey exact_ sound ran).mpr legible
            exact (held.keyed.exact_iff oneKey).mp held

/-- Whatever the commits and the way each is built: while the modes tell every incremental build
what became of the paths that differ, each READY manifest holds exactly the regular and executable
files of its commit's tree. Where no preparation fails for another reason, each preparation of a
run leaves its commit READY with exactly these files if and only if the modes tell at every event
of it. Witness: the step lemmas `step_exact`, `step_stored` and `answered_iff`, along the run.
-/
theorem run_manifests_exact (documented : git.Documented) (oidOf : BlobKey → Option ObjectId)
    (oneKey
      : ∀ commit path mode oid, git.db.fileAt commit path = some (mode, oid)
        → oidOf (keyOf oid) = some oid)
    (events : List Event) (sound : ∀ event ∈ events, event.Sound keyOf)
    : (Runs.Along (step git) (Event.Legible git) (fun _ => none) events
        → ∀ ready ∈ Runs.states (step git) (fun _ => none) events,
            ∀ commit manifest,
              ready commit = some manifest
              → ∀ path, manifest.files oidOf path = git.db.fileAt commit path)
      ∧ (git.Answers
        → (∀ event ∈ events, event.Works git)
        → (Runs.Along (step git) (Event.Answered git oidOf) (fun _ => none) events
          ↔ Runs.Along (step git) (Event.Legible git) (fun _ => none) events)) := by
  have fresh : Ready.Exact git keyOf (fun _ => none) := fun _ _ there => nomatch there
  constructor
  · intro legible ready member commit manifest there
    have always
        : Runs.Along (step git) (fun _ event => event.Sound keyOf) (fun _ => none) events :=
      Runs.Along.of_mem (fun event given _ => sound event given) _
    have held :=
      Runs.invariant
        (fun ready event exact_ allowed =>
          step_exact documented oneKey ready event exact_ allowed.1 allowed.2)
        fresh (always.and legible) ready member commit manifest there
    exact (held.keyed.exact_iff oneKey).mp held
  · intro compares works
    have based
        : Runs.Along (step git) (fun _ event => event.Sound keyOf ∧ event.Works git)
            (fun _ => none) events :=
      Runs.Along.of_mem (fun event given _ => ⟨sound event given, works event given⟩) _
    have initial
        : Ready.Exact git keyOf (fun _ => none) ∧ Ready.Stored git (fun _ => none) :=
      ⟨fresh, fun _ _ there => nomatch there⟩
    refine @Runs.along_iff _ _ _ _ _ _
      (fun ready => Ready.Exact git keyOf ready ∧ Ready.Stored git ready) ?_ ?_ _ _ initial based
    · rintro ready event ⟨exact_, stored⟩ ⟨sound, works⟩
      exact answered_iff documented compares oneKey ready event exact_ stored sound works
    · rintro ready event ⟨exact_, stored⟩ ⟨sound, works⟩ legible
      exact ⟨step_exact documented oneKey ready event exact_ sound legible,
        step_stored ready event stored works⟩

-- Two commits, the second built on the first

/-- An object id of a sample. -/
private def sampleId (n : UInt8) : ObjectId :=
  ⟨.sha1, [n]⟩

/-- libgit2's normal form of a mode: by its type, and by whether any execute bit is set. -/
private def normalized (attr : Nat) : Nat :=
  if attr / 4096 = 4 then Mode.directory
  else if attr % 512 &&& 73 ≠ 0 then Mode.executable
  else if attr / 4096 = 14 then Mode.gitlink
  else if attr / 4096 = 10 then Mode.symlink
  else Mode.regular

/-- The name of a mode. -/
private def nameOf (attr : Nat) : Option FileMode :=
  [.blob, .blobExecutable, .link, .tree, .commit, .blobGroupWritable, .unreadable].find?
    (fun mode => gitMode mode = attr)

/-- The mode and the id of a name in a tree. -/
private def StoredTree.lookup (tree : StoredTree) (name : Bytes) : Option (Nat × ObjectId) :=
  (tree.entries.find? (fun entry => entry.name = name)).map (fun entry => (entry.attr, entry.oid))

/-- One side of a delta at a name. -/
private def sideOf (name : Bytes) : Option (Nat × ObjectId) → DiffFile
  | some (attr, oid) => ⟨some name, attr, oid, true⟩
  | none => ⟨none, 0, sampleId 0, false⟩

/-- The difference of two trees that hold no directories. -/
private def flatDiff (old new : StoredTree) : List DiffDelta :=
  (((old.entries ++ new.entries).map StoredEntry.name).filter
      (fun name => old.lookup name ≠ new.lookup name)).map
    (fun name => ⟨sideOf name (old.lookup name), sideOf name (new.lookup name)⟩)

/-- A tree of no directories, all of one blob. -/
private structure FlatTree extends StoredTree where
  flat : ∀ entry ∈ entries, (entry.decoded normalized).isTree = false
  oneBlob : ∀ entry ∈ entries, entry.oid = sampleId 3

/-- `a` alone, a regular file. -/
private def firstTree : FlatTree where
  entries := [⟨[97], Mode.regular, sampleId 3⟩]
  named := by simp [IsComponent, slash]
  unique := by decide
  flat := by decide
  oneBlob := by decide

/-- A tree's id. -/
private def sampleTree (second : FlatTree) (oid : ObjectId) : Option FlatTree :=
  if oid = sampleId 1 then some firstTree
  else if oid = sampleId 2 then some second
  else none

/-- A commit of the first tree, and one of another on top of it. -/
private def sampleGit (second : FlatTree) : Libgit2 where
  commit oid :=
    if oid = sampleId 11 then some ⟨sampleId 1, []⟩
    else if oid = sampleId 12 then some ⟨sampleId 2, [sampleId 11]⟩
    else none
  tree oid := (sampleTree second oid).map FlatTree.toStoredTree
  blob oid := if oid = sampleId 3 then some [120] else none
  filemode := normalized
  mode := nameOf
  diff old new :=
    match sampleTree second old, sampleTree second new with
    | some one, some other => .ok (flatDiff one.toStoredTree other.toStoredTree)
    | _, _ => .error (noSuch "tree")
  weight _ := 1
  acyclic := by
    intro oid object found
    obtain ⟨tree, -, rfl⟩ := Option.map_eq_some_iff.mp found
    have none_
        : (tree.toStoredTree.decoded normalized).entries.filter DecodedEntry.isTree = [] := by
      rw [List.filter_eq_nil_iff]
      intro entry member
      obtain ⟨stored, listed, rfl⟩ := List.mem_map.mp member
      rw [tree.flat stored listed]
      decide
    rw [none_]
    decide

section Samples

variable {second : FlatTree}

/-- A tree with no directories holds what it lists. -/
private theorem storedFile_flat {oid : ObjectId} {tree : FlatTree}
    (found : sampleTree second oid = some tree) (path : BytePath)
    : (sampleGit second).storedFile oid path = tree.toStoredTree.lookup path := by
  have stored : (sampleGit second).tree oid = some tree.toStoredTree :=
    congrArg (Option.map FlatTree.toStoredTree) found
  have whole : [slash].intercalate (path.splitOn slash) = path := List.intercalate_splitOn _
  rw [Libgit2.storedFile, StoredTree.lookup]
  congr 1
  rcases names : path.splitOn slash with _ | ⟨name, _ | ⟨next, rest⟩⟩
  · exact absurd names (List.splitOn_ne_nil _ _)
  · rw [names] at whole
    have only : name = path := by simpa using whole
    rw [Libgit2.storedAt, stored, Option.bind_some, only]
    refine Option.ext fun entry => ?_
    rw [Option.filter_eq_some_iff]
    refine ⟨And.left, fun first => ⟨first, ?_⟩⟩
    rw [show (sampleGit second).filemode = normalized from rfl,
      tree.flat entry (List.mem_of_find?_eq_some first)]
    rfl
  · rw [Libgit2.storedAt, stored, Option.bind_some]
    · have deep : tree.entries.find? (fun entry => entry.name = path) = none := by
        refine List.find?_eq_none.mpr fun entry member named => ?_
        have component := splitOn_component (tree.named entry member).2
        rw [of_decide_eq_true named, names] at component
        cases component
      have shallow
          : (tree.entries.find? (fun entry => entry.name = name)).filter
              (fun entry => (entry.decoded (sampleGit second).filemode).isTree) = none := by
        refine Option.filter_eq_none_iff.mpr fun entry first => ?_
        rw [show (sampleGit second).filemode = normalized from rfl,
          tree.flat entry (List.mem_of_find?_eq_some first)]
        exact Bool.false_ne_true
      rw [shallow, deep, Option.bind_none]
    · exact List.cons_ne_nil next rest

private theorem sideOf_shows (name : Bytes) (stored : Option (Nat × ObjectId))
    : (sideOf name stored).Shows name stored := by
  cases stored with
  | none => exact .inl ⟨rfl, rfl⟩
  | some file => exact ⟨rfl, rfl, rfl, rfl⟩

private theorem sample_diff {old new : ObjectId} {deltas : List DiffDelta}
    (diffed : (sampleGit second).diff old new = .ok deltas)
    : ∃ one other,
        sampleTree second old = some one
        ∧ sampleTree second new = some other
        ∧ deltas = flatDiff one.toStoredTree other.toStoredTree := by
  cases first : sampleTree second old with
  | none =>
      simp only [sampleGit, first] at diffed
      cases diffed
  | some one =>
      cases then_ : sampleTree second new with
      | none =>
          simp only [sampleGit, first, then_] at diffed
          cases diffed
      | some other =>
          simp only [sampleGit, first, then_] at diffed
          cases diffed
          exact ⟨one, other, rfl, rfl, rfl⟩

private theorem sample_documented : (sampleGit second).Documented where
  filemode := by
    intro attr searchable
    rcases gitMode_of_searchable searchable with rfl | rfl
    · rfl
    · rfl
  mode := by
    intro mode
    cases mode <;> rfl
  other := by
    intro attr mode named
    exact .inl (by simpa using List.find?_some named)
  sound := by
    intro old new deltas diffed delta member
    obtain ⟨one, other, first, then_, rfl⟩ := sample_diff diffed
    obtain ⟨name, listed, rfl⟩ := List.mem_map.mp member
    have differs := of_decide_eq_true (List.mem_filter.mp listed).2
    rw [← storedFile_flat first, ← storedFile_flat then_] at differs
    refine ⟨name, differs, ?_, ?_⟩
    · rw [storedFile_flat first]
      exact sideOf_shows name _
    · rw [storedFile_flat then_]
      exact sideOf_shows name _
  complete := by
    intro old new deltas diffed path differs
    obtain ⟨one, other, first, then_, rfl⟩ := sample_diff diffed
    rw [storedFile_flat first, storedFile_flat then_] at differs
    have named
        : ∀ tree : StoredTree,
            path ∉ tree.entries.map StoredEntry.name → tree.lookup path = none := by
      intro tree absent
      refine Option.map_eq_none_iff.mpr (List.find?_eq_none.mpr fun entry member called => ?_)
      exact absent (List.mem_map.mpr ⟨entry, member, of_decide_eq_true called⟩)
    have listed : path ∈ (one.entries ++ other.entries).map StoredEntry.name := by
      by_contra absent
      rw [List.map_append, List.mem_append, not_or] at absent
      exact differs ((named _ absent.1).trans (named _ absent.2).symm)
    refine ⟨_, List.mem_map.mpr ⟨path, List.mem_filter.mpr ⟨listed, ?_⟩, rfl⟩, ?_, ?_⟩
    · exact decide_eq_true differs
    · rw [storedFile_flat first]
      exact sideOf_shows path _
    · rw [storedFile_flat then_]
      exact sideOf_shows path _

private theorem sample_held {oid : ObjectId} {tree : FlatTree}
    (found : sampleTree second oid = some tree)
    : Held (sampleGit second).db oid := by
  have raw : (sampleGit second).tree oid = some tree.toStoredTree :=
    congrArg (Option.map FlatTree.toStoredTree) found
  have stored
      : (sampleGit second).db.tree oid = some (tree.toStoredTree.decoded normalized) :=
    congrArg (Option.map (StoredTree.decoded normalized)) raw
  refine .tree stored (fun entry member isTree => ?_) (fun entry member _ => ?_)
  · obtain ⟨raw, listed, rfl⟩ := List.mem_map.mp member
    rw [tree.flat raw listed] at isTree
    cases isTree
  · obtain ⟨raw, listed, rfl⟩ := List.mem_map.mp member
    have blob : (raw.decoded normalized).oid = sampleId 3 := tree.oneBlob raw listed
    rw [blob]
    rfl

private theorem sample_answers : (sampleGit second).Answers := by
  have known
      : ∀ oid, Held (sampleGit second).db oid → ∃ tree, sampleTree second oid = some tree := by
    intro oid held
    cases held with
    | tree stored trees blobs =>
        obtain ⟨tree, there, -⟩ := Option.map_eq_some_iff.mp stored
        obtain ⟨flat, there, -⟩ := Option.map_eq_some_iff.mp there
        exact ⟨flat, there⟩
  intro old new before held
  obtain ⟨one, first⟩ := known old before
  obtain ⟨other, then_⟩ := known new held
  exact ⟨flatDiff one.toStoredTree other.toStoredTree, by simp only [sampleGit, first, then_]⟩

private theorem sample_oneKey (commit : ObjectId) (path : BytePath) (mode : Nat) (oid : ObjectId)
    (file : (sampleGit second).db.fileAt commit path = some (mode, oid))
    : oid = sampleId 3 := by
  obtain ⟨found, committed⟩ : ∃ found, (sampleGit second).commit commit = some found := by
    obtain ⟨entry, leaf, -⟩ := fileAt_eq_some.mp file
    obtain ⟨found, committed, -⟩ := Option.bind_eq_some_iff.mp leaf
    exact ⟨found, committed⟩
  obtain ⟨tree, there⟩ : ∃ tree, sampleTree second found.tree = some tree := by
    simp only [sampleGit] at committed
    split_ifs at committed
    · cases committed
      exact ⟨firstTree, rfl⟩
    · cases committed
      exact ⟨second, rfl⟩
  rw [fileAt_eq committed, storedFile_flat there, Libgit2.fileOf] at file
  obtain ⟨mapped, -⟩ := Option.filter_eq_some_iff.mp file
  obtain ⟨raw, looked, same⟩ := Option.map_eq_some_iff.mp mapped
  obtain ⟨entry, first, rfl⟩ := Option.map_eq_some_iff.mp looked
  cases same
  exact tree.oneBlob entry (List.mem_of_find?_eq_some first)

/-- A preparation over a registry that knows one blob. -/
private def samplePreparation (commit : ObjectId) (incremental : Bool) : Preparation where
  commit
  incremental
  lfsCheck := none
  finish := id
  ingest facts := .ok (facts.map (fun _ => 0))

private theorem sample_sound (commit : ObjectId) (incremental : Bool)
    : (samplePreparation commit incremental).Sound (fun _ => 0) where
  finish _ := List.Perm.refl _
  ingest _ _ ingested := (Except.ok.inj ingested).symm

/-- The first commit from its trees, the second on top of it. -/
private def sampleEvents : List Event :=
  [.prepare (samplePreparation (sampleId 11) false),
    .prepare (samplePreparation (sampleId 12) true)]

private theorem sampleEvents_sound : ∀ event ∈ sampleEvents, event.Sound (fun _ => 0) := by
  intro event member
  rcases List.mem_pair.mp member with rfl | rfl
  · exact sample_sound _ _
  · exact sample_sound _ _

private theorem sampleEvents_work : ∀ event ∈ sampleEvents, event.Works (sampleGit second) := by
  intro event member
  rcases List.mem_pair.mp member with rfl | rfl
  · exact ⟨⟨⟨sampleId 1, []⟩, rfl, @sample_held second _ firstTree rfl⟩, fun facts => ⟨_, rfl⟩⟩
  · exact ⟨⟨⟨sampleId 2, [sampleId 11]⟩, rfl, @sample_held second _ second rfl⟩,
      fun facts => ⟨_, rfl⟩⟩

private theorem sampleEvents_legible
    (legible : (sampleGit second).Legible (sampleId 1) (sampleId 2))
    : Runs.Along (step (sampleGit second)) (Event.Legible (sampleGit second)) (fun _ => none)
        sampleEvents := by
  refine ⟨?_, ?_, trivial⟩
  · intro _ incremental
    cases incremental
  intro _ _ parent base based was found parented committed
  obtain ⟨recorded, read, same⟩ := bind_eq_ok.mp based
  cases (findCommit_eq_ok.mp read).symm.trans
    (show (sampleGit second).db.commit (sampleId 12) = some ⟨sampleId 2, [sampleId 11]⟩ from rfl)
  obtain ⟨first, there, same⟩ := Option.bind_eq_some_iff.mp (Except.ok.inj same)
  cases there
  obtain ⟨other, -, same⟩ := Option.map_eq_some_iff.mp same
  cases same
  cases parented
  cases committed
  exact legible

/-- `a`, a symlink by now, and an executable `b`. -/
private def linkedTree : FlatTree where
  entries := [⟨[97], Mode.symlink, sampleId 3⟩, ⟨[98], Mode.executable, sampleId 3⟩]
  named := by simp [IsComponent, slash]
  unique := by decide
  flat := by decide
  oneBlob := by decide

private theorem linkedTree_legible
    : (sampleGit linkedTree).Legible (sampleId 1) (sampleId 2) := by
  intro path differs
  rw [@storedFile_flat linkedTree (sampleId 1) firstTree rfl,
    @storedFile_flat linkedTree (sampleId 2) linkedTree rfl] at differs ⊢
  by_cases isA : path = [97]
  · subst isA
    exact ⟨fun file there => by cases there; decide, fun _ =>
      ⟨fun file there => by cases there; decide, rfl⟩⟩
  · by_cases isB : path = [98]
    · subst isB
      exact ⟨fun file there => (by cases there; decide), fun hidden => nomatch hidden⟩
    · refine absurd ?_ differs
      simp [StoredTree.lookup, firstTree, linkedTree, Ne.symm isA, Ne.symm isB]

/-- A file that becomes a symlink and a new one, by an incremental build. -/
theorem sample_manifests_exact
    : (∀ ready ∈ Runs.states (step (sampleGit linkedTree)) (fun _ => none) sampleEvents,
        ∀ commit manifest,
          ready commit = some manifest
          → ∀ path,
              manifest.files (fun _ => some (sampleId 3)) path
                = (sampleGit linkedTree).db.fileAt commit path)
      ∧ ∃ manifest,
          sampleEvents.foldl (step (sampleGit linkedTree)) (fun _ => none) (sampleId 12)
            = some manifest
          ∧ manifest.files (fun _ => some (sampleId 3)) [97] = none
          ∧ manifest.files (fun _ => some (sampleId 3)) [98]
            = some (Mode.executable, sampleId 3) := by
  have both :=
    @run_manifests_exact (sampleGit linkedTree) (fun _ => 0) sample_documented
      (fun _ => some (sampleId 3))
      (fun commit path mode oid file =>
        congrArg some (sample_oneKey commit path mode oid file).symm)
      sampleEvents sampleEvents_sound
  have legible := sampleEvents_legible linkedTree_legible
  refine ⟨both.1 legible, ?_⟩
  obtain ⟨-, ⟨manifest, there, files⟩, -⟩ :=
    (both.2 sample_answers sampleEvents_work).mpr legible
  refine ⟨manifest, there, ?_, ?_⟩
  · rw [files, fileAt_eq (show _ = some ⟨sampleId 2, [sampleId 11]⟩ from rfl),
      @storedFile_flat linkedTree _ linkedTree rfl]
    rfl
  · rw [files, fileAt_eq (show _ = some ⟨sampleId 2, [sampleId 11]⟩ from rfl),
      @storedFile_flat linkedTree _ linkedTree rfl]
    rfl

/-- `a` as it was, and a `b` that its group may write: 33204 is octal 100664. -/
private def groupTree : FlatTree where
  entries := [⟨[97], Mode.regular, sampleId 3⟩, ⟨[98], 33204, sampleId 3⟩]
  named := by simp [IsComponent, slash]
  unique := by decide
  flat := by decide
  oneBlob := by decide

private theorem groupTree_names
    : (sampleGit groupTree).NamesModes (sampleId 1) (sampleId 2) := by
  intro path differs
  rw [@storedFile_flat groupTree (sampleId 1) firstTree rfl,
    @storedFile_flat groupTree (sampleId 2) groupTree rfl] at differs ⊢
  by_cases isA : path = [97]
  · subst isA
    exact absurd rfl differs
  · by_cases isB : path = [98]
    · subst isB
      exact ⟨fun file there => by cases there; decide, fun _ file there => nomatch there⟩
    · refine absurd ?_ differs
      simp [StoredTree.lookup, firstTree, groupTree, Ne.symm isA, Ne.symm isB]

/-- A file its group may write is in the commit's tree and not in the manifest that was built on
the first parent.
-/
theorem group_writable_left_out
    : (sampleGit groupTree).Documented
      ∧ (∀ commit path mode oid,
          (sampleGit groupTree).db.fileAt commit path = some (mode, oid)
          → some (sampleId 3) = some oid)
      ∧ (∀ event ∈ sampleEvents,
          event.Sound (fun _ => 0) ∧ event.Works (sampleGit groupTree))
      ∧ ∃ manifest,
          sampleEvents.foldl (step (sampleGit groupTree)) (fun _ => none) (sampleId 12)
            = some manifest
          ∧ (sampleGit groupTree).db.fileAt (sampleId 12) [98]
            = some (Mode.regular, sampleId 3)
          ∧ manifest.files (fun _ => some (sampleId 3)) [98] = none := by
  have oneKey
      : ∀ commit path mode oid,
          (sampleGit groupTree).db.fileAt commit path = some (mode, oid)
          → some (sampleId 3) = some oid :=
    fun commit path mode oid file => congrArg some (sample_oneKey commit path mode oid file).symm
  refine ⟨sample_documented, oneKey,
    fun event member => ⟨sampleEvents_sound event member, sampleEvents_work event member⟩, ?_⟩
  have parented : (sampleGit groupTree).commit (sampleId 11) = some ⟨sampleId 1, []⟩ := rfl
  have committed
      : (sampleGit groupTree).commit (sampleId 12) = some ⟨sampleId 2, [sampleId 11]⟩ := rfl
  have before : Held (sampleGit groupTree).db (sampleId 1) := @sample_held _ _ firstTree rfl
  have held : Held (sampleGit groupTree).db (sampleId 2) := @sample_held _ _ groupTree rfl
  have fresh : Ready.Exact (sampleGit groupTree) (fun _ => 0) (fun _ => none) :=
    fun _ _ there => nomatch there
  -- The first commit is built from its trees.
  have whole
      : (samplePreparation (sampleId 11) false).Legible (sampleGit groupTree) (fun _ => none) := by
    intro incremental
    cases incremental
  obtain ⟨base, ran⟩ :=
    exists_prepare sample_documented sample_answers
      (show Ready.Stored (sampleGit groupTree) (fun _ => none) from fun _ _ there => nomatch there)
      (sample_sound (sampleId 11) false) ⟨_, parented, before⟩ (fun facts => ⟨_, rfl⟩) whole
  have exact_ : base.Exact (sampleGit groupTree).db (fun _ => 0) (sampleId 11) :=
    (@prepare_exact_iff _ _ (fun _ => some (sampleId 3)) sample_documented oneKey _ fresh _
      (sample_sound _ _) _ ran).mpr whole
  -- The second one is built on it, and nothing fails.
  obtain ⟨lfs, listed⟩ :=
    @exists_lfsPointers (sampleGit groupTree).db (sampleId 12) _ committed held
  have answers
      : ∀ facts, ∃ keys, (samplePreparation (sampleId 12) true).ingest facts = .ok keys :=
    fun facts => ⟨_, rfl⟩
  obtain ⟨built, incremental⟩ :=
    exists_buildIncremental sample_documented sample_answers answers parented before committed held
      groupTree_names base lfs
  have prepared
      : prepare (sampleGit groupTree)
          (Function.update (fun _ => none) (sampleId 11) (some base))
          (samplePreparation (sampleId 12) true)
        = .ok built := by
    have based
        : incrementalBase (sampleGit groupTree).db
            (Function.update (fun _ => none) (sampleId 11) (some base)) (sampleId 12)
          = .ok (some (sampleId 11, base)) := by
      rw [incrementalBase, findCommit_eq_ok.mpr committed]
      rfl
    rw [prepare, show (samplePreparation (sampleId 12) true).commit = sampleId 12 from rfl, listed]
    simp only [bind, Except.bind, based]
    exact incremental
  have read :=
    find_buildIncremental sample_documented (sample_sound (sampleId 12) true).ingest parented
      committed listed incremental [98]
  rw [@storedFile_flat groupTree (sampleId 1) firstTree rfl,
    @storedFile_flat groupTree (sampleId 2) groupTree rfl] at read
  have absent : base.find [98] = none := by
    rw [exact_ [98], fileAt_eq parented, @storedFile_flat groupTree (sampleId 1) firstTree rfl]
    rfl
  refine ⟨built, ?_, ?_, ?_⟩
  · rw [sampleEvents, List.foldl_cons, List.foldl_cons, List.foldl_nil]
    simp only [step, ran]
    rw [show (samplePreparation (sampleId 11) false).commit = sampleId 11 from rfl, prepared]
    exact Function.update_self ..
  · rw [fileAt_eq committed, @storedFile_flat groupTree (sampleId 2) groupTree rfl]
    rfl
  · rw [Manifest.files, read, absent]
    rfl

end Samples

end Chains

end Gfs.Search.Manifests
