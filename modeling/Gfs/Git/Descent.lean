import Gfs.Git.Pages
import Gfs.Git.Staging

/-! The descent of `index_for_commit` (`gfs-git/src/libgit2.rs`) with the cache tree it builds: the
index it leads to is accepted.
-/

namespace Gfs.Git

open Gfs.Types
open Index (CacheTree DistinctAt Sha1At CountedAt)

-- The descent

/-- `checked_add` of two counts of entries. -/
def addEntries (count more : Nat) : Except GfsError Nat :=
  if count + more < 2 ^ 32 then .ok (count + more)
  else .error ⟨.resourceLimit, "too many entries for an index".toList⟩

theorem addEntries_eq_ok {count more sum : Nat}
    : addEntries count more = .ok sum ↔ count + more < 2 ^ 32 ∧ sum = count + more := by
  rw [addEntries]
  split
  · rename_i fits
    rw [Except.ok.injEq, eq_comm, and_iff_right fits]
  · rename_i full
    exact iff_of_false (by simp) fun ok => full ok.1

/-- What the descent has of a directory: its files, how many they are, and its subdirectories. -/
structure Descended where
  files : List DeferredEntry
  entries : Nat
  children : List CacheTree

/-- The entries of a directory at a path, each subdirectory with `below`. -/
def descendEntries
    (below : ObjectId → Bytes → BytePath → Except GfsError (List DeferredEntry × CacheTree))
    (lead : BytePath)
    : List DecodedEntry → Descended → Except GfsError Descended
  | [], done => .ok done
  | entry :: rest, done =>
      let path := lead.join entry.name
      if entry.isTree then do
        let (files, child) ← below entry.oid entry.name path
        let entries ← addEntries done.entries child.entries
        descendEntries below lead rest ⟨done.files ++ files, entries, done.children ++ [child]⟩
      else do
        let entries ← addEntries done.entries 1
        descendEntries below lead rest
          ⟨done.files ++ [⟨path, entry.mode, entry.oid⟩], entries, done.children⟩

/-- The descent into a tree under a name and a path. The fuel bounds the trees below. -/
def ObjectDb.descendIndex (db : ObjectDb)
    : Nat → ObjectId → Bytes → BytePath → Except GfsError (List DeferredEntry × CacheTree)
  | 0, oid, name, _ => .ok ([], .node name oid 0 [])
  | fuel + 1, oid, name, lead => do
      let tree ← db.decodedTree oid
      let done ← descendEntries (db.descendIndex fuel) lead tree.entries ⟨[], 0, []⟩
      return (done.files, .node name oid done.entries done.children)

/-- `index_for_commit`: the index file of a commit. -/
def Repository.indexFile (repo : Repository) (sha1 : Bytes → Bytes) (commit : ObjectId)
    (stamp : Timestamp)
    : Except GfsError Bytes := do
  let found ← repo.db.findCommit commit
  let (files, tree) ← repo.db.descendIndex (repo.db.weight found.tree + 1) found.tree [] []
  let entries ← files.mapM (repo.indexEntry commit)
  Index.writeIndexV2 sha1 entries stamp (some tree)

-- Tree order and byte order

/-- What the paths under a directory begin with. -/
def leadOf (path : BytePath) : Bytes :=
  if path = [] then [] else path ++ [slash]

/-- A path that ends with a component, or is the root's. -/
def EndsWell (path : BytePath) : Prop :=
  path.getLast? ≠ some slash

variable {path : BytePath} {name : Bytes} {tree : CacheTree} {oid : ObjectId}
  {files : List DeferredEntry}

theorem join_eq (ends : EndsWell path) (name : Bytes)
    : path.join name = leadOf path ++ name := by
  rw [BytePath.join, leadOf]
  by_cases root : path = []
  · simp [root]
  · rw [if_pos ⟨root, ends⟩, if_neg root]

theorem endsWell_join (path : BytePath) (component : IsComponent name)
    : EndsWell (path.join name) := by
  intro last
  rw [BytePath.join, List.getLast?_append_of_ne_nil _ component.1] at last
  exact component.2 (List.mem_of_getLast? last)

theorem leadOf_join (ends : EndsWell path) (component : IsComponent name)
    : leadOf (path.join name) = leadOf path ++ name ++ [slash] := by
  rw [join_eq ends, leadOf, if_neg]
  simp [component.1]

/-- The paths of an entry: the file, or all under the directory. -/
def Under (lead : Bytes) (entry : DecodedEntry) (path : Bytes) : Prop :=
  if entry.isTree then lead ++ entry.name ++ [slash] <+: path else path = lead ++ entry.name

theorem append_lt_append {a b : Bytes} (less : a < b) (apart : ¬a <+: b) (x y : Bytes)
    : a ++ x < b ++ y := by
  induction a generalizing b with
  | nil => exact absurd List.nil_prefix apart
  | cons head a ih =>
      cases b with
      | nil => simp at less
      | cons other b =>
          rw [List.cons_append, List.cons_append, List.cons_lt_cons_iff]
          rcases List.cons_lt_cons_iff.mp less with below | ⟨rfl, below⟩
          · exact .inl below
          · refine .inr ⟨rfl, ih below fun extends_ => ?_⟩
            exact apart (List.cons_prefix_cons.mpr ⟨rfl, extends_⟩)

/-- A directory's prefix begins no other entry's path. -/
theorem name_of_slash {other rest : Bytes} (clean : slash ∉ name) (clean' : slash ∉ other)
    (stops : ∀ head ∈ rest.head?, head = slash) (begins : name ++ [slash] <+: other ++ rest)
    : name = other ∧ rest ≠ [] := by
  induction name generalizing other with
  | nil =>
      cases other with
      | nil =>
          refine ⟨rfl, ?_⟩
          rintro rfl
          simp at begins
      | cons head other =>
          have same := (List.cons_prefix_cons.mp begins).1
          exact absurd (same ▸ List.mem_cons_self) clean'
  | cons byte name ih =>
      rw [List.mem_cons, not_or] at clean
      cases other with
      | nil =>
          cases rest with
          | nil => simp at begins
          | cons head rest =>
              have same := (List.cons_prefix_cons.mp begins).1
              exact absurd (same.trans (stops head rfl)).symm clean.1
      | cons head other =>
          rw [List.mem_cons, not_or] at clean'
          obtain ⟨rfl, tails⟩ := List.cons_prefix_cons.mp begins
          obtain ⟨rfl, more⟩ := ih clean.2 clean'.2 tails
          exact ⟨rfl, more⟩

section Order

variable {lead : Bytes} {first second : DecodedEntry} {path path' : Bytes}

theorem sortKey_eq (entry : DecodedEntry)
    : entry.sortKey = entry.name ++ if entry.isTree then [slash] else [] := by
  by_cases tree : entry.mode = Mode.directory
  · simp [DecodedEntry.sortKey, sortKey, DecodedEntry.isTree, tree]
  · simp [DecodedEntry.sortKey, sortKey, DecodedEntry.isTree, tree]

theorem Under.key (under : Under lead first path)
    : ∃ rest, path = lead ++ (first.sortKey ++ rest) ∧ (first.isTree = false → rest = []) := by
  rw [sortKey_eq]
  rw [Under] at under
  split at under
  · rename_i tree
    obtain ⟨rest, rfl⟩ := under
    exact ⟨rest, by simp [tree], by simp [tree]⟩
  · rename_i file
    exact ⟨[], by simp [file, under], fun _ => rfl⟩

theorem Under.name_eq {name : Bytes} (under : Under lead second path) (clean : slash ∉ name)
    (clean' : slash ∉ second.name) (begins : lead ++ name ++ [slash] <+: path)
    : second.isTree = true ∧ name = second.name := by
  rw [Under] at under
  split at under
  · rename_i tree
    obtain ⟨rest, rfl⟩ := under
    refine ⟨tree, ?_⟩
    simp only [List.append_assoc, List.prefix_append_right_inj] at begins
    exact (name_of_slash clean clean' (by simp) begins).1
  · subst under
    rw [List.append_assoc, List.prefix_append_right_inj, ← List.append_nil second.name] at begins
    exact absurd rfl (name_of_slash clean clean' (by simp) begins).2

theorem Under.lt (under : Under lead first path) (under' : Under lead second path')
    (clean : slash ∉ first.name) (clean' : slash ∉ second.name)
    (less : first.sortKey < second.sortKey)
    : path < path' := by
  obtain ⟨rest, rfl, file⟩ := under.key
  obtain ⟨rest', rfl, -⟩ := under'.key
  apply List.append_left_lt
  by_cases begins : first.sortKey <+: second.sortKey
  · have file' : first.isTree = false := by
      rw [← Bool.not_eq_true]
      intro tree
      rw [sortKey_eq, sortKey_eq, tree, if_pos rfl] at begins
      obtain ⟨same, more⟩ := name_of_slash clean clean' (by split <;> simp) begins
      rw [sortKey_eq, sortKey_eq, same, tree, if_pos rfl, if_pos (by simpa using more)] at less
      exact Std.lt_irrefl less
    rw [file file', List.append_nil]
    exact Std.lt_of_lt_of_le less List.le_append_left
  · exact append_lt_append less begins rest rest'

end Order

-- A directory's entries

/-- What the descent builds of a directory, of the paths under it. -/
structure SoundAt (paths : List Bytes) (lead : Bytes) (tree : CacheTree) : Prop where
  known : Sha1At lead tree
  distinct : DistinctAt lead tree
  counted : CountedAt paths lead tree

theorem SoundAt.append (front back : List Bytes) {paths : List Bytes} {lead : Bytes}
    (sound : tree.Everywhere (SoundAt paths) lead) (before : ∀ path ∈ front, ¬lead <+: path)
    (after : ∀ path ∈ back, ¬lead <+: path)
    : tree.Everywhere (SoundAt (front ++ paths ++ back)) lead := by
  refine sound.mono_below fun below tree begins here => ⟨here.known, here.distinct, ?_⟩
  have outside {others : List Bytes} (none_ : ∀ path ∈ others, ¬lead <+: path)
      : others.countP (fun path => below.isPrefixOf path) = 0 := by
    rw [List.countP_eq_zero]
    intro path member inside
    exact none_ path member (begins.trans (List.isPrefixOf_iff_prefix.mp inside))
  rw [CountedAt, List.countP_append, List.countP_append, outside before, outside after,
    Nat.zero_add, Nat.add_zero]
  exact here.counted

/-- What holds of a directory whose first entries have been taken. -/
structure Level (lead : Bytes) (before : List DecodedEntry) (done : Descended) : Prop where
  under : ∀ file ∈ done.files, ∃ entry ∈ before, Under lead entry file.path
  sorted : (done.files.map DeferredEntry.path).Pairwise (fun a b => a < b)
  ids : ∀ file ∈ done.files, file.oid.algorithm = .sha1
  count : done.entries = done.files.length
  names :
    done.children.map CacheTree.name
      = (before.filter DecodedEntry.isTree).map DecodedEntry.name
  below :
    ∀ child ∈ done.children,
      child.Everywhere (SoundAt (done.files.map DeferredEntry.path))
        (lead ++ child.name ++ [slash])

/-- The entries of a directory: named by components, in tree order. -/
structure InTreeOrder (entries : List DecodedEntry) : Prop where
  named : ∀ entry ∈ entries, IsComponent entry.name
  ordered : entries.Pairwise (fun a b => a.sortKey < b.sortKey)

theorem inTreeOrder_new (object : TreeObject) : InTreeOrder (DecodedTree.new object).entries where
  named := fun entry member => object.named entry (DecodedTree.mem_new.mp member)
  ordered := DecodedTree.new_sorted

section Level

variable {lead : Bytes} {before : List DecodedEntry} {done : Descended}

/-- The next entry adds the paths under it, and its own directory if it is one. -/
theorem Level.extend (level : Level lead before done) {entry : DecodedEntry}
    (order : InTreeOrder (before ++ [entry])) {more : List DeferredEntry}
    (under : ∀ file ∈ more, Under lead entry file.path)
    (sorted : (more.map DeferredEntry.path).Pairwise (fun a b => a < b))
    (ids : ∀ file ∈ more, file.oid.algorithm = .sha1) {extra : List CacheTree}
    (names : extra.map CacheTree.name = if entry.isTree then [entry.name] else [])
    (below : ∀ child ∈ extra,
      child.Everywhere (SoundAt (more.map DeferredEntry.path)) (lead ++ child.name ++ [slash]))
    : Level lead (before ++ [entry])
        ⟨done.files ++ more, done.entries + more.length, done.children ++ extra⟩ := by
  have named := order.named entry (List.mem_append_right _ (List.mem_singleton_self entry))
  have earlier : ∀ other ∈ before, IsComponent other.name ∧ other.sortKey < entry.sortKey := by
    intro other member
    exact ⟨order.named other (List.mem_append_left _ member),
      (List.pairwise_append.mp order.ordered).2.2 other member entry (List.mem_singleton_self _)⟩
  -- two directories of one name would have one key
  have apart
      : ∀ other ∈ before, other.isTree → entry.isTree → other.name ≠ entry.name := by
    intro other member tree tree' same
    have less := (earlier other member).2
    rw [sortKey_eq, sortKey_eq, same, tree, tree'] at less
    exact Std.lt_irrefl less
  constructor
  · intro file member
    rcases List.mem_append.mp member with old | new
    · obtain ⟨other, listed, covers⟩ := level.under file old
      exact ⟨other, List.mem_append_left _ listed, covers⟩
    · exact ⟨entry, List.mem_append_right _ (List.mem_singleton_self entry), under file new⟩
  · rw [List.map_append, List.pairwise_append]
    refine ⟨level.sorted, sorted, ?_⟩
    intro path old path' new
    obtain ⟨file, listed, rfl⟩ := List.mem_map.mp old
    obtain ⟨file', listed', rfl⟩ := List.mem_map.mp new
    obtain ⟨other, member, covers⟩ := level.under file listed
    obtain ⟨component, less⟩ := earlier other member
    exact covers.lt (under file' listed') component.2 named.2 less
  · exact fun file member => (List.mem_append.mp member).elim (level.ids file) (ids file)
  · rw [level.count, List.length_append]
  · rw [List.map_append, level.names, names, List.filter_append, List.map_append]
    by_cases tree : entry.isTree <;> simp [tree]
  · intro child member
    rw [List.map_append]
    rcases List.mem_append.mp member with old | new
    · have listed : child.name ∈ (before.filter DecodedEntry.isTree).map DecodedEntry.name :=
        level.names ▸ List.mem_map_of_mem old
      obtain ⟨other, kept, same⟩ := List.mem_map.mp listed
      obtain ⟨listed, tree⟩ := List.mem_filter.mp kept
      refine SoundAt.append [] _ (level.below child old) (by simp) fun path member begins => ?_
      obtain ⟨file, within, rfl⟩ := List.mem_map.mp member
      obtain ⟨tree', equal⟩ := (under file within).name_eq (same ▸ (earlier other listed).1.2)
        named.2 begins
      exact apart other listed tree tree' (same.trans equal)
    · have tree : entry.isTree = true ∧ child.name = entry.name := by
        have listed := names ▸ List.mem_map_of_mem (f := CacheTree.name) new
        split at listed
        · exact ⟨by assumption, List.mem_singleton.mp listed⟩
        · cases listed
      rw [← List.append_nil (done.files.map DeferredEntry.path ++ _)]
      refine SoundAt.append _ [] (below child new) (fun path member begins => ?_) (by simp)
      obtain ⟨file, within, rfl⟩ := List.mem_map.mp member
      obtain ⟨other, listed, covers⟩ := level.under file within
      obtain ⟨tree', equal⟩ := covers.name_eq (tree.2 ▸ named.2) (earlier other listed).1.2 begins
      exact apart other listed tree' tree.1 (equal.symm.trans tree.2)

/-- What the descent returns for a directory at a path. -/
structure Described (path : BytePath) (files : List DeferredEntry) (tree : CacheTree) : Prop where
  under : ∀ file ∈ files, leadOf path <+: file.path
  sorted : (files.map DeferredEntry.path).Pairwise (fun a b => a < b)
  ids : ∀ file ∈ files, file.oid.algorithm = .sha1
  count : tree.entries = files.length
  sound : tree.Everywhere (SoundAt (files.map DeferredEntry.path)) (leadOf path)

/-- The ids of a SHA-1 repository's trees. -/
def Sha1Ids (entries : List DecodedEntry) : Prop :=
  ∀ entry ∈ entries, entry.oid.algorithm = .sha1 ∧ entry.oid.raw.length = 20

/-- The loop over a directory's entries. -/
theorem level_descendEntries
    {below : ObjectId → Bytes → BytePath → Except GfsError (List DeferredEntry × CacheTree)}
    {path : BytePath} (ends : EndsWell path) {rest : List DecodedEntry} {done' : Descended}
    (described : ∀ entry ∈ rest, entry.isTree → ∀ files child,
      below entry.oid entry.name (path.join entry.name) = .ok (files, child)
      → child.name = entry.name ∧ Described (path.join entry.name) files child)
    (order : InTreeOrder (before ++ rest)) (sha1 : Sha1Ids rest)
    (level : Level (leadOf path) before done)
    (walked : descendEntries below path rest done = .ok done')
    : Level (leadOf path) (before ++ rest) done' := by
  induction rest generalizing before done with
  | nil =>
      rw [descendEntries] at walked
      cases walked
      rwa [List.append_nil]
  | cons entry rest ih =>
      obtain ⟨ownDescribed, described⟩ := List.forall_mem_cons.mp described
      obtain ⟨ownId, sha1⟩ := List.forall_mem_cons.mp sha1
      rw [List.append_cons] at order ⊢
      have upTo : InTreeOrder (before ++ [entry]) :=
        ⟨fun other member => order.named other (List.mem_append_left _ member),
          (List.pairwise_append.mp order.ordered).1⟩
      have component := upTo.named entry (by simp)
      rw [descendEntries] at walked
      split at walked
      · rename_i tree
        obtain ⟨⟨files, child⟩, descended, walked⟩ := bind_eq_ok.mp walked
        obtain ⟨count, counted, walked⟩ := bind_eq_ok.mp walked
        obtain ⟨same, described_⟩ := ownDescribed tree files child descended
        obtain rfl := addEntries_eq_ok.mp counted |>.2
        have lead := leadOf_join ends component
        apply ih described order sha1 _ walked
        rw [described_.count]
        apply level.extend upTo _ described_.sorted described_.ids
        · simp [tree, same]
        · intro other member
          cases List.mem_singleton.mp member
          rw [same, ← lead]
          exact described_.sound
        · intro file member
          rw [Under, if_pos tree, ← lead]
          exact described_.under file member
      · rename_i file
        obtain ⟨count, counted, walked⟩ := bind_eq_ok.mp walked
        obtain rfl := addEntries_eq_ok.mp counted |>.2
        apply ih described order sha1 _ walked
        rw [← List.append_nil done.children]
        apply level.extend upTo
        · intro new member
          cases List.mem_singleton.mp member
          rw [Under, if_neg file, join_eq ends]
        · exact List.pairwise_singleton _ _
        · intro new member
          cases List.mem_singleton.mp member
          exact ownId.1
        · simp [file]
        · simp

theorem Level.start (lead : Bytes) : Level lead [] ⟨[], 0, []⟩ := by
  constructor <;> simp

theorem Level.described {path : BytePath} {entries : List DecodedEntry}
    (level : Level (leadOf path) entries done) (order : InTreeOrder entries) {oid : ObjectId}
    (known : oid.algorithm = .sha1 ∧ oid.raw.length = 20) (name : Bytes)
    : Described path done.files (.node name oid done.entries done.children) := by
  have under : ∀ file ∈ done.files, leadOf path <+: file.path := by
    intro file member
    obtain ⟨entry, -, covers⟩ := level.under file member
    obtain ⟨rest, same, -⟩ := covers.key
    exact same ▸ List.prefix_append _ _
  refine ⟨under, level.sorted, level.ids, level.count, .node ⟨known, ?_, ?_⟩ level.below⟩
  · rw [DistinctAt, CacheTree.children, level.names]
    rw [List.Nodup, List.pairwise_map]
    refine (order.ordered.sublist List.filter_sublist).imp_of_mem fun left right less same => ?_
    rw [sortKey_eq, sortKey_eq, same, (List.mem_filter.mp left).2,
      (List.mem_filter.mp right).2] at less
    exact Std.lt_irrefl less
  · rw [CountedAt, CacheTree.entries, level.count, List.countP_map, List.countP_eq_length.mpr]
    exact fun file member => List.isPrefixOf_iff_prefix.mpr (under file member)

end Level

/-- The trees of a SHA-1 repository: their entries have such ids, and modes Git writes. -/
structure Sha1Repository (db : ObjectDb) : Prop where
  ids : ∀ oid object, db.tree oid = some object → Sha1Ids object.entries
  modes :
    ∀ oid object, db.tree oid = some object → ∀ entry ∈ object.entries,
      entry.isTree ∨ entry.mode = Mode.gitlink ∨ (EntryKind.fromMode entry.mode).hasBlobContent

/-- What a descent returns is described. -/
theorem described_descendIndex {db : ObjectDb} (sha1 : Sha1Repository db) {fuel : Nat}
    (known : oid.algorithm = .sha1 ∧ oid.raw.length = 20) (ends : EndsWell path)
    (descended : db.descendIndex fuel oid name path = .ok (files, tree))
    : tree.name = name ∧ Described path files tree := by
  induction fuel generalizing oid name path files tree with
  | zero =>
      rw [ObjectDb.descendIndex] at descended
      cases descended
      exact ⟨rfl, (Level.start _).described ⟨by simp, .nil⟩ known name⟩
  | succ fuel ih =>
      rw [ObjectDb.descendIndex] at descended
      obtain ⟨decoded, read, descended⟩ := bind_eq_ok.mp descended
      obtain ⟨done, walked, descended⟩ := bind_eq_ok.mp descended
      cases descended
      obtain ⟨object, stored, rfl⟩ := decodedTree_eq_ok.mp read
      have order := inTreeOrder_new object
      have ids : Sha1Ids (DecodedTree.new object).entries :=
        fun entry member => sha1.ids oid object stored entry (DecodedTree.mem_new.mp member)
      have below
          : ∀ entry ∈ (DecodedTree.new object).entries, entry.isTree → ∀ files child,
              db.descendIndex fuel entry.oid entry.name (path.join entry.name) = .ok (files, child)
              → child.name = entry.name ∧ Described (path.join entry.name) files child :=
        fun entry member _ files child found =>
          ih (ids entry member) (endsWell_join path (order.named entry member)) found
      have level := level_descendEntries ends below (by exact order) ids (Level.start _) walked
      exact ⟨rfl, level.described order known name⟩

-- The descent succeeds

/-- The loop over a directory's entries takes the files of each, in turn. -/
theorem descendEntries_ok
    {below : ObjectId → Bytes → BytePath → Except GfsError (List DeferredEntry × CacheTree)}
    {listed : DecodedEntry → Except GfsError (List DeferredEntry)} {rest : List DecodedEntry}
    {parts : List (List DeferredEntry)} (done : Descended)
    (trees : ∀ entry ∈ rest, entry.isTree → ∀ files, listed entry = .ok files
      → files.length < 2 ^ 32
      → ∃ child,
          below entry.oid entry.name (path.join entry.name) = .ok (files, child)
          ∧ child.entries = files.length)
    (others : ∀ entry ∈ rest, ¬entry.isTree
      → listed entry = .ok [⟨path.join entry.name, entry.mode, entry.oid⟩])
    (all : rest.mapM listed = .ok parts) (few : done.entries + parts.flatten.length < 2 ^ 32)
    : ∃ count children,
        descendEntries below path rest done
        = .ok ⟨done.files ++ parts.flatten, count, children⟩ := by
  induction rest generalizing done parts with
  | nil =>
      cases all
      exact ⟨done.entries, done.children, by simp [descendEntries]⟩
  | cons entry rest ih =>
      obtain ⟨ownTree, trees⟩ := List.forall_mem_cons.mp trees
      obtain ⟨ownFile, others⟩ := List.forall_mem_cons.mp others
      rw [List.mapM_cons] at all
      obtain ⟨files, own, all⟩ := bind_eq_ok.mp all
      obtain ⟨others_, later, same⟩ := bind_eq_ok.mp all
      cases same
      rw [List.flatten_cons, List.length_append] at few
      by_cases tree : entry.isTree
      · obtain ⟨child, descended, counted⟩ := ownTree tree files own (by omega)
        have added : addEntries done.entries child.entries = .ok (done.entries + files.length) :=
          addEntries_eq_ok.mpr ⟨by omega, by rw [counted]⟩
        obtain ⟨count, children, walked⟩ :=
          ih ⟨done.files ++ files, done.entries + files.length, done.children ++ [child]⟩
            trees others later (by simpa only [Nat.add_assoc] using few)
        refine ⟨count, children, ?_⟩
        rw [descendEntries, if_pos tree, descended]
        simp only [bind, Except.bind, added, walked, List.flatten_cons, List.append_assoc]
      · obtain rfl : files = [⟨path.join entry.name, entry.mode, entry.oid⟩] := by
          rw [ownFile tree] at own
          exact (Except.ok.inj own).symm
        have added : addEntries done.entries 1 = .ok (done.entries + 1) :=
          addEntries_eq_ok.mpr ⟨by rw [List.length_singleton] at few; omega, rfl⟩
        rw [List.length_singleton] at few
        obtain ⟨count, children, walked⟩ :=
          ih ⟨done.files ++ [⟨path.join entry.name, entry.mode, entry.oid⟩], done.entries + 1,
              done.children⟩
            trees others later (by simpa only [Nat.add_assoc] using few)
        refine ⟨count, children, ?_⟩
        rw [descendEntries, if_neg tree]
        simp only [bind, Except.bind, added, walked, List.flatten_cons, List.append_assoc]

/-- Where a tree holds fewer files than 32 bits count, the descent returns them all. -/
theorem descendIndex_ok {db : ObjectDb} (sha1 : Sha1Repository db) {fuel : Nat}
    (known : oid.algorithm = .sha1 ∧ oid.raw.length = 20) (ends : EndsWell path)
    (listed : db.indexDescend fuel oid path = .ok files) (few : files.length < 2 ^ 32)
    : ∃ tree, db.descendIndex fuel oid name path = .ok (files, tree) := by
  induction fuel generalizing oid name path files with
  | zero =>
      cases listed
      exact ⟨_, rfl⟩
  | succ fuel ih =>
      rw [ObjectDb.indexDescend] at listed
      obtain ⟨decoded, read, listed⟩ := bind_eq_ok.mp listed
      obtain ⟨parts, all, listed⟩ := bind_eq_ok.mp listed
      cases listed
      obtain ⟨object, stored, same⟩ := decodedTree_eq_ok.mp read
      have ids : Sha1Ids decoded.entries := fun entry member =>
        sha1.ids oid object stored entry (DecodedTree.mem_new.mp (same ▸ member))
      have order : InTreeOrder decoded.entries := same ▸ inTreeOrder_new object
      have trees
          : ∀ entry ∈ decoded.entries, entry.isTree → ∀ files,
              (if entry.isTree then db.indexDescend fuel entry.oid (path.join entry.name)
                else .ok [⟨path.join entry.name, entry.mode, entry.oid⟩])
                = .ok files
              → files.length < 2 ^ 32
              → ∃ child,
                  db.descendIndex fuel entry.oid entry.name (path.join entry.name)
                    = .ok (files, child)
                  ∧ child.entries = files.length := by
        intro entry member tree files found few
        rw [if_pos tree] at found
        have ends := endsWell_join path (order.named entry member)
        obtain ⟨child, descended⟩ := ih (ids entry member) ends found few
        exact ⟨child, descended,
          (described_descendIndex sha1 (ids entry member) ends descended).2.count⟩
      obtain ⟨count, children, walked⟩ := descendEntries_ok ⟨[], 0, []⟩ trees
        (fun entry _ file => if_neg file) all (by simpa using few)
      refine ⟨.node name oid count children, ?_⟩
      rw [ObjectDb.descendIndex, read]
      simp only [bind, Except.bind, walked]
      rfl

-- The index of a commit

/-- A file of the index is a gitlink or has its blob in the repository. -/
def Sizable (db : ObjectDb) (file : DeferredEntry) : Prop :=
  file.mode = Mode.gitlink ∨ ∃ bytes, db.findBlob file.oid = .ok bytes

/-- A stored tree is listed, with files whose sizes can be read. -/
theorem exists_indexDescend {db : ObjectDb} (sha1 : Sha1Repository db) (fuel : Nat)
    (held : Held db oid) (path : BytePath)
    : ∃ files, db.indexDescend fuel oid path = .ok files ∧ ∀ file ∈ files, Sizable db file := by
  induction fuel generalizing oid path with
  | zero => exact ⟨[], rfl, by simp⟩
  | succ fuel ih =>
      obtain ⟨decoded, read, heldTree⟩ := held.decodedTree
      obtain ⟨object, stored, same⟩ := decodedTree_eq_ok.mp read
      have each
          : ∀ entry ∈ decoded.entries,
              ∃ files,
                (if entry.isTree then db.indexDescend fuel entry.oid (path.join entry.name)
                  else .ok [⟨path.join entry.name, entry.mode, entry.oid⟩])
                  = .ok files
                ∧ ∀ file ∈ files, Sizable db file := by
        intro entry member
        have listed := DecodedTree.mem_new.mp (same ▸ member)
        split
        · rename_i tree
          cases held with
          | tree stored' trees blobs =>
              cases stored.symm.trans stored'
              exact ih (trees entry listed tree) _
        · rename_i file
          refine ⟨_, rfl, fun listed' within => ?_⟩
          cases List.mem_singleton.mp within
          rcases sha1.modes oid object stored entry listed with tree | gitlink | content
          · exact absurd tree file
          · exact .inl gitlink
          · exact .inr (heldTree.blob member content)
      obtain ⟨parts, all⟩ := Lib.Mapped.exists_mapM fun entry member =>
        (each entry member).imp fun _ => And.left
      refine ⟨parts.flatten, ?_, ?_⟩
      · rw [ObjectDb.indexDescend, read]
        simp only [bind, Except.bind, all]
        rfl
      · intro file member
        obtain ⟨part, listed, within⟩ := List.mem_flatten.mp member
        obtain ⟨entry, given, ran⟩ :=
          Lib.Mapped.exists_of_forall₂_right (Lib.Mapped.mapM_eq_ok.mp all) listed
        obtain ⟨files, own, sizable⟩ := each entry given
        cases own.symm.trans ran
        exact sizable file within

/-- The size of an entry is found. -/
theorem exists_indexEntry {repo : Repository} {commit : ObjectId} {found : CommitMeta}
    (committed : repo.db.commit commit = some found) (held : Held repo.db found.tree)
    {file : DeferredEntry} (sizable : Sizable repo.db file)
    : ∃ entry, repo.indexEntry commit file = .ok entry := by
  have blob : (EntryKind.fromMode file.mode).hasBlobContent
      → ∃ bytes, repo.db.findBlob file.oid = .ok bytes := by
    intro content
    refine sizable.resolve_left fun link => ?_
    rw [link] at content
    cases content
  rw [Repository.indexEntry]
  split
  · obtain ⟨shown, expanded⟩ := exists_expanded committed held file.path blob 0
    refine ⟨⟨file.path, file.mode, file.oid, shown.2⟩, ?_⟩
    simp only [bind, Except.bind, pure, Except.pure, expanded]
  · rename_i notLink
    obtain ⟨bytes, read⟩ := sizable.resolve_left notLink
    obtain ⟨shown, expanded⟩ := exists_expanded committed held file.path blob bytes.length
    refine ⟨⟨file.path, file.mode, file.oid, shown.2⟩, ?_⟩
    simp only [bind, Except.bind, pure, Except.pure, ObjectDb.readHeader, read, Except.map,
      expanded]

theorem indexEntry_row {repo : Repository} {commit : ObjectId} {file : DeferredEntry}
    {entry : IndexEntry} (ran : repo.indexEntry commit file = .ok entry)
    : entry.path = file.path ∧ entry.oid = file.oid := by
  rw [Repository.indexEntry] at ran
  split at ran
  all_goals
    obtain ⟨size, -, ran⟩ := bind_eq_ok.mp ran
    obtain ⟨shown, -, same⟩ := bind_eq_ok.mp ran
    cases same
    exact ⟨rfl, rfl⟩

/-- Entries of the paths that a descent described are accepted with its cache tree, unless it is too
large.
-/
theorem writeIndexV2_of_described (sha1 : Bytes → Bytes) (stamp : Timestamp)
    {entries : List IndexEntry} (unnamed : tree.name = []) (described : Described [] files tree)
    (paths : entries.map IndexEntry.path = files.map DeferredEntry.path)
    (ids : ∀ entry ∈ entries, entry.oid.algorithm = .sha1) (few : files.length < 2 ^ 32)
    : (tree.encoded.length < 2 ^ 32
        → ∃ index, Index.writeIndexV2 sha1 entries stamp (some tree) = .ok index)
      ∧ (2 ^ 32 ≤ tree.encoded.length
        → Index.writeIndexV2 sha1 entries stamp (some tree)
          = .error ⟨.resourceLimit, "cache tree is too large to record".toList⟩) := by
  have sorted : entries.Pairwise (fun a b => a.path < b.path) := by
    rw [← List.pairwise_map, paths]
    exact described.sorted
  have lengths : entries.length = files.length := by
    rw [← List.length_map IndexEntry.path, paths, List.length_map]
  have consistent : Index.Consistent entries tree := by
    refine ⟨unnamed, ?_, ?_, ?_⟩
    · exact described.sound.mono fun _ _ sound => sound.known
    · exact described.sound.mono fun _ _ sound => sound.distinct
    · rw [paths]
      exact described.sound.mono fun _ _ sound => sound.counted
  rw [Index.writeIndexV2_eq sorted ids (lengths ▸ few), Index.writeExtension_some sorted consistent]
  constructor
  · intro small
    rw [if_neg (Nat.not_le.mpr small)]
    exact ⟨_, rfl⟩
  · intro large
    rw [if_pos large]
    rfl

/-- What becomes of the index of a commit whose trees and sizes can be read. -/
theorem indexFile_of_descended (sha1 : Bytes → Bytes) (stamp : Timestamp) {repo : Repository}
    {commit : ObjectId} {found : CommitMeta} (committed : repo.db.commit commit = some found)
    (held : Held repo.db found.tree) (valid : Sha1Repository repo.db)
    (root : found.tree.algorithm = .sha1 ∧ found.tree.raw.length = 20)
    (descended : repo.db.descendIndex (repo.db.weight found.tree + 1) found.tree [] []
      = .ok (files, tree))
    (sizable : ∀ file ∈ files, Sizable repo.db file) (few : files.length < 2 ^ 32)
    : ∃ entries,
        files.mapM (repo.indexEntry commit) = .ok entries
        ∧ entries.map IndexEntry.path = files.map DeferredEntry.path
        ∧ (tree.encoded.length < 2 ^ 32
          → ∃ index, repo.indexFile sha1 commit stamp = .ok index)
        ∧ (2 ^ 32 ≤ tree.encoded.length
          → repo.indexFile sha1 commit stamp
            = .error ⟨.resourceLimit, "cache tree is too large to record".toList⟩) := by
  have ends : EndsWell [] := nofun
  obtain ⟨unnamed, described⟩ := described_descendIndex valid root ends descended
  obtain ⟨entries, sized⟩ := Lib.Mapped.exists_mapM (fun file member =>
    exists_indexEntry committed held (sizable file member))
  have rows := (Lib.Mapped.mapM_eq_ok.mp sized).imp fun _ _ => indexEntry_row
  have paths : entries.map IndexEntry.path = files.map DeferredEntry.path := by
    rw [← List.forall₂_eq_eq_eq, List.forall₂_map_left_iff, List.forall₂_map_right_iff]
    exact rows.flip.imp fun _ _ row => row.1
  have ids : ∀ entry ∈ entries, entry.oid.algorithm = .sha1 := by
    intro entry member
    obtain ⟨file, given, row⟩ := Lib.Mapped.exists_of_forall₂_right rows member
    rw [row.2]
    exact described.ids file given
  have whole
      : repo.indexFile sha1 commit stamp = Index.writeIndexV2 sha1 entries stamp (some tree) := by
    rw [Repository.indexFile, findCommit_eq_ok.mpr committed]
    simp only [bind, Except.bind, descended, sized]
  rw [whole]
  exact ⟨entries, sized, paths,
    writeIndexV2_of_described sha1 stamp unnamed described paths ids few⟩

/-- Where a commit of a SHA-1 repository holds fewer than `2 ^ 32` files, its index is walked in the
order of the paths, with a cache tree that counts them, and is written unless that is too large. A
cache tree is accepted only if it counts the entries.
-/
theorem index_of_commit_accepted (sha1 : Bytes → Bytes)
    : (∀ (repo : Repository) (commit : ObjectId) (found : CommitMeta) (stamp : Timestamp),
        repo.db.commit commit = some found
        → Held repo.db found.tree
        → Sha1Repository repo.db
        → found.tree.algorithm = .sha1 ∧ found.tree.raw.length = 20
        → (∀ files,
            repo.db.indexDescend (repo.db.weight found.tree + 1) found.tree [] = .ok files
            → files.length < 2 ^ 32)
        → ∃ files tree entries,
            repo.db.descendIndex (repo.db.weight found.tree + 1) found.tree [] []
              = .ok (files, tree)
            ∧ files.mapM (repo.indexEntry commit) = .ok entries
            ∧ entries.Pairwise (fun a b => a.path < b.path)
            ∧ tree.Everywhere (CountedAt (entries.map IndexEntry.path)) []
            ∧ (tree.encoded.length < 2 ^ 32
              → ∃ index, repo.indexFile sha1 commit stamp = .ok index))
      ∧ ∀ (entries : List IndexEntry) (lead : Bytes) (tree : CacheTree),
          entries.Pairwise (fun a b => a.path < b.path)
          → Index.verifyCacheTree entries lead tree = .ok ()
          → tree.Everywhere (CountedAt (entries.map IndexEntry.path)) lead := by
  constructor
  · intro repo commit found stamp committed held valid root few
    obtain ⟨files, listed, sizable⟩ :=
      exists_indexDescend valid (repo.db.weight found.tree + 1) held []
    have few := few files listed
    have ends : EndsWell [] := nofun
    obtain ⟨tree, descended⟩ :
        ∃ tree,
          repo.db.descendIndex (repo.db.weight found.tree + 1) found.tree [] []
            = .ok (files, tree) :=
      descendIndex_ok valid root ends listed few
    have described := (described_descendIndex valid root ends descended).2
    obtain ⟨entries, sized, paths, written, -⟩ :=
      indexFile_of_descended sha1 stamp committed held valid root descended sizable few
    refine ⟨files, tree, entries, descended, sized, ?_, ?_, written⟩
    · rw [← List.pairwise_map, paths]
      exact described.sorted
    · rw [paths]
      exact described.sound.mono fun _ _ sound => sound.counted
  · intro entries lead tree sorted accepted
    rw [Index.verifyCacheTree_eq_ok] at accepted
    refine accepted.mono fun lead tree counted => ?_
    rw [CountedAt, ← counted, Index.covered_eq sorted]

-- Commits that are refused

theorem DecodedTree.new_of_sorted {object : TreeObject}
    (sorted : object.entries.Pairwise (fun a b => inTreeOrder a b = true))
    : DecodedTree.new object = ⟨object.entries⟩ := by
  rw [DecodedTree.new, List.mergeSort_of_pairwise sorted]

/-- The id of a level of the doubled trees. -/
def levelId (level : Nat) : ObjectId :=
  ⟨.sha1, List.replicate 20 level.toUInt8⟩

def levelOf (oid : ObjectId) : Option Nat :=
  let level := (oid.raw.headD 0).toNat
  if oid = levelId level then some level else none

def emptyBlobId : ObjectId :=
  ⟨.sha1, 0 :: List.replicate 19 1⟩

def commitId : ObjectId :=
  ⟨.sha1, 1 :: List.replicate 19 0⟩

/-- A file, and above it directories that each hold the level below twice. -/
def levelTree : Nat → TreeObject
  | 0 => ⟨[⟨[102], Mode.regular, emptyBlobId⟩], by simp [IsComponent, slash], by decide⟩
  | level + 1 =>
      ⟨[⟨[97], Mode.directory, levelId level⟩, ⟨[98], Mode.directory, levelId level⟩],
        by simp [IsComponent, slash], by simp⟩

theorem levelOf_levelId {level : Nat} (small : level < 256)
    : levelOf (levelId level) = some level := by
  have same : ((levelId level).raw.headD 0).toNat = level := by
    change level % 256 = level
    omega
  rw [levelOf, same, if_pos rfl]

theorem levelOf_eq_some {level : Nat} (found : levelOf oid = some level)
    : oid = levelId level ∧ level < 256 := by
  simp only [levelOf, Option.ite_none_right_eq_some, Option.some.injEq] at found
  obtain ⟨same, rfl⟩ := found
  exact ⟨same, UInt8.toNat_lt _⟩

/-- A commit of a level's tree. -/
def doubledRepository (top : Nat) : Repository where
  db := {
    commit := fun oid => if oid = commitId then some ⟨levelId top, []⟩ else none
    tree := fun oid => (levelOf oid).map levelTree
    blob := fun oid => if oid = emptyBlobId then some [] else none
    weight := fun oid => 3 ^ (levelOf oid).getD 0
    acyclic := by
      intro oid object stored
      obtain ⟨level, found, rfl⟩ := Option.map_eq_some_iff.mp stored
      have small := (levelOf_eq_some found).2
      rw [found, Option.getD_some]
      cases level with
      | zero => decide
      | succ level =>
          have below : (levelOf (levelId level)).getD 0 = level := by
            rw [levelOf_levelId (by omega), Option.getD_some]
          change 3 ^ (levelOf (levelId level)).getD 0
            + (3 ^ (levelOf (levelId level)).getD 0 + 0) < 3 ^ (level + 1)
          have positive : 0 < 3 ^ level := Nat.pow_pos (by decide)
          rw [below, Nat.pow_succ]
          omega
  }
  lfsCheck := none

section Doubled

variable {top : Nat}

theorem doubled_tree {level : Nat} (small : level < 256)
    : (doubledRepository top).db.tree (levelId level) = some (levelTree level) := by
  change (levelOf (levelId level)).map levelTree = _
  rw [levelOf_levelId small, Option.map_some]

theorem doubled_held {level : Nat} (small : level < 256)
    : Held (doubledRepository top).db (levelId level) := by
  induction level with
  | zero =>
      refine .tree (doubled_tree small) ?_ ?_
      · intro entry member tree
        cases List.mem_singleton.mp member
        cases tree
      · intro entry member _
        cases List.mem_singleton.mp member
        rfl
  | succ level ih =>
      refine .tree (doubled_tree small) ?_ ?_
      · intro entry member _
        rcases List.mem_pair.mp member with rfl | rfl
        · exact ih (by omega)
        · exact ih (by omega)
      · intro entry member content
        rcases List.mem_pair.mp member with rfl | rfl
        · cases content
        · cases content

theorem doubled_valid : Sha1Repository (doubledRepository top).db where
  ids := by
    intro oid object stored
    obtain ⟨level, -, rfl⟩ := Option.map_eq_some_iff.mp stored
    cases level with
    | zero =>
        intro entry member
        cases List.mem_singleton.mp member
        exact ⟨rfl, rfl⟩
    | succ level =>
        intro entry member
        rcases List.mem_pair.mp member with rfl | rfl
        · exact ⟨rfl, rfl⟩
        · exact ⟨rfl, rfl⟩
  modes := by
    intro oid object stored entry member
    obtain ⟨level, -, rfl⟩ := Option.map_eq_some_iff.mp stored
    cases level with
    | zero =>
        cases List.mem_singleton.mp member
        exact .inr (.inr rfl)
    | succ level =>
        rcases List.mem_pair.mp member with rfl | rfl
        · exact .inl rfl
        · exact .inl rfl

theorem doubled_decoded {level : Nat} (small : level < 256)
    : (doubledRepository top).db.decodedTree (levelId level) = .ok ⟨(levelTree level).entries⟩ := by
  rw [decodedTree_eq_ok]
  refine ⟨_, doubled_tree small, ?_⟩
  rw [DecodedTree.new_of_sorted]
  cases level with
  | zero => exact List.pairwise_singleton _ _
  | succ level => exact List.pairwise_pair.mpr rfl

theorem doubled_step {level fuel : Nat} (small : level + 1 < 256) {path : BytePath}
    {files files' : List DeferredEntry} {child child' : CacheTree}
    (first : (doubledRepository top).db.descendIndex fuel (levelId level) [97] (path.join [97])
      = .ok (files, child))
    (second : (doubledRepository top).db.descendIndex fuel (levelId level) [98] (path.join [98])
      = .ok (files', child'))
    (counted : child.entries < 2 ^ 32) (name : Bytes)
    : (doubledRepository top).db.descendIndex (fuel + 1) (levelId (level + 1)) name path
      = (addEntries child.entries child'.entries).map (fun count =>
          (files ++ files', .node name (levelId (level + 1)) count [child, child'])) := by
  have added : addEntries 0 child.entries = .ok child.entries :=
    addEntries_eq_ok.mpr ⟨by omega, (Nat.zero_add _).symm⟩
  rw [ObjectDb.descendIndex, doubled_decoded small, levelTree]
  simp only [bind, Except.bind, descendEntries, DecodedEntry.isTree, decide_true, if_true, first,
    second, added]
  cases addEntries child.entries child'.entries <;> rfl

theorem doubled_descent {level fuel : Nat} (few : level < 32) (enough : level < fuel) (name : Bytes)
    (path : BytePath)
    : ∃ files tree,
        (doubledRepository top).db.descendIndex fuel (levelId level) name path = .ok (files, tree)
        ∧ tree.entries = 2 ^ level := by
  induction level generalizing fuel name path with
  | zero =>
      obtain ⟨fuel, rfl⟩ := Nat.exists_eq_add_of_lt enough
      rw [Nat.zero_add, ObjectDb.descendIndex, doubled_decoded (by omega)]
      exact ⟨_, _, rfl, rfl⟩
  | succ level ih =>
      obtain ⟨fuel, rfl⟩ := Nat.exists_eq_add_of_lt enough
      obtain ⟨files, child, first, count⟩ :=
        @ih (level + 1 + fuel) (by omega) (by omega) [97] (path.join [97])
      obtain ⟨files', child', second, count'⟩ :=
        @ih (level + 1 + fuel) (by omega) (by omega) [98] (path.join [98])
      have power : 2 ^ level < 2 ^ 31 := Nat.pow_lt_pow_right (by decide) (by omega)
      refine ⟨files ++ files', .node name (levelId (level + 1)) (2 ^ (level + 1)) [child, child'],
        ?_, rfl⟩
      have added : addEntries (2 ^ level) (2 ^ level) = .ok (2 ^ (level + 1)) :=
        addEntries_eq_ok.mpr ⟨by omega, by rw [Nat.pow_succ]; omega⟩
      rw [doubled_step (by omega) first second (by omega), count, count', added]
      rfl

theorem doubled_refused {fuel : Nat} (enough : 32 < fuel)
    : (doubledRepository top).db.descendIndex fuel (levelId 32) [] []
      = .error ⟨.resourceLimit, "too many entries for an index".toList⟩ := by
  obtain ⟨fuel, rfl⟩ := Nat.exists_eq_add_of_lt enough
  obtain ⟨files, child, first, count⟩ :=
    @doubled_descent top 31 (32 + fuel) (by omega) (by omega) [97] (BytePath.join [] [97])
  obtain ⟨files', child', second, count'⟩ :=
    @doubled_descent top 31 (32 + fuel) (by omega) (by omega) [98] (BytePath.join [] [98])
  rw [doubled_step (by omega) first second (by omega), count, count', addEntries]
  rfl

end Doubled

/-- A commit of one file, in a directory whose name has some length. -/
def deepRepository (length : Nat) : Repository where
  db := {
    commit := fun oid => if oid = commitId then some ⟨levelId 1, []⟩ else none
    tree := fun oid =>
      if oid = levelId 1 then
        some ⟨[⟨List.replicate (length + 1) 97, Mode.directory, levelId 0⟩],
          by simp [IsComponent, slash], by simp⟩
      else if oid = levelId 0 then some (levelTree 0)
      else none
    blob := fun oid => if oid = emptyBlobId then some [] else none
    weight := fun oid => if oid = levelId 1 then 2 else 1
    acyclic := by
      intro oid object stored
      split at stored
      · rename_i root
        cases stored
        rw [if_pos root]
        exact Nat.one_lt_two
      · rename_i notRoot
        split at stored
        · cases stored
          rw [if_neg notRoot]
          exact Nat.zero_lt_one
        · cases stored
  }
  lfsCheck := none

section Deep

variable (length : Nat)

/-- Its root directory. -/
def deepRoot : TreeObject where
  entries := [⟨List.replicate (length + 1) 97, Mode.directory, levelId 0⟩]
  named := by simp [IsComponent, slash]
  unique := by simp

theorem deep_tree {oid : ObjectId} {object : TreeObject}
    (stored : (deepRepository length).db.tree oid = some object)
    : object = deepRoot length ∨ object = levelTree 0 := by
  simp only [deepRepository] at stored
  split at stored
  · cases stored
    exact .inl rfl
  · split at stored
    · cases stored
      exact .inr rfl
    · cases stored

theorem deep_held : Held (deepRepository length).db (levelId 1) := by
  have root : (deepRepository length).db.tree (levelId 1) = some (deepRoot length) := rfl
  have below : (deepRepository length).db.tree (levelId 0) = some (levelTree 0) := rfl
  refine .tree root ?_ ?_
  · intro entry member _
    cases List.mem_singleton.mp member
    refine .tree below ?_ ?_
    · intro entry member tree
      cases List.mem_singleton.mp member
      cases tree
    · intro entry member _
      cases List.mem_singleton.mp member
      rfl
  · intro entry member content
    cases List.mem_singleton.mp member
    cases content

theorem deep_valid : Sha1Repository (deepRepository length).db where
  ids := by
    intro oid object stored entry member
    rcases deep_tree length stored with rfl | rfl
    · cases List.mem_singleton.mp member
      exact ⟨rfl, rfl⟩
    · cases List.mem_singleton.mp member
      exact ⟨rfl, rfl⟩
  modes := by
    intro oid object stored entry member
    rcases deep_tree length stored with rfl | rfl
    · cases List.mem_singleton.mp member
      exact .inl rfl
    · cases List.mem_singleton.mp member
      exact .inr (.inr rfl)

theorem deep_descended
    : ∃ file tree,
        (deepRepository length).db.descendIndex 3 (levelId 1) [] [] = .ok ([file], tree)
        ∧ Sizable (deepRepository length).db file
        ∧ length ≤ tree.encoded.length := by
  have root : (deepRepository length).db.decodedTree (levelId 1)
      = .ok ⟨(deepRoot length).entries⟩ := by
    rw [decodedTree_eq_ok]
    refine ⟨deepRoot length, rfl, ?_⟩
    rw [DecodedTree.new_of_sorted (List.pairwise_singleton _ _)]
  have below : (deepRepository length).db.decodedTree (levelId 0)
      = .ok ⟨(levelTree 0).entries⟩ := by
    rw [decodedTree_eq_ok]
    refine ⟨levelTree 0, rfl, ?_⟩
    rw [DecodedTree.new_of_sorted (List.pairwise_singleton _ _)]
  let path := (BytePath.join [] (List.replicate (length + 1) 97)).join [102]
  refine ⟨⟨path, Mode.regular, emptyBlobId⟩,
    .node [] (levelId 1) 1 [.node (List.replicate (length + 1) 97) (levelId 0) 1 []], ?_,
    .inr ⟨[], rfl⟩, ?_⟩
  · rw [ObjectDb.descendIndex, root]
    simp only [bind, Except.bind, deepRoot, descendEntries, DecodedEntry.isTree, decide_true,
      if_true]
    rw [ObjectDb.descendIndex, below]
    rfl
  · simp only [CacheTree.encoded, CacheTree.encodedForest, List.length_append,
      List.length_replicate]
    omega

end Deep

/-- The digest of the index of `a/f` and `b/f`. -/
def levelSha1 (_content : Bytes) : Bytes :=
  [31, 249, 2, 17, 107, 220, 62, 17, 80, 23, 111, 90, 177, 116, 202, 131, 161, 94, 69, 40]

/-- Its entries. -/
def levelEntries : List IndexEntry :=
  [⟨[97, 47, 102], Mode.regular, emptyBlobId, 0⟩, ⟨[98, 47, 102], Mode.regular, emptyBlobId, 0⟩]

/-- Its cache tree. -/
def levelCacheTree : CacheTree :=
  .node [] (levelId 1) 2 [.node [97] (levelId 0) 1 [], .node [98] (levelId 0) 1 []]

/-- Witness: the commit of `a/f` and `b/f`. -/
theorem small_commit_accepted
    : (∃ files tree entries,
        (doubledRepository 1).db.descendIndex 4 (levelId 1) [] [] = .ok (files, tree)
        ∧ files.mapM ((doubledRepository 1).indexEntry commitId) = .ok entries
        ∧ entries.Pairwise (fun a b => a.path < b.path)
        ∧ tree.Everywhere (CountedAt (entries.map IndexEntry.path)) []
        ∧ (tree.encoded.length < 2 ^ 32
          → ∃ index, (doubledRepository 1).indexFile levelSha1 commitId ⟨1, 0⟩ = .ok index))
      ∧ levelCacheTree.Everywhere (CountedAt (levelEntries.map IndexEntry.path)) [] := by
  constructor
  · refine (index_of_commit_accepted levelSha1).1 (doubledRepository 1) commitId ⟨levelId 1, []⟩
      ⟨1, 0⟩ rfl (doubled_held (by decide)) doubled_valid ⟨rfl, rfl⟩ ?_
    intro files listed
    have below (path : BytePath)
        : (doubledRepository 1).db.indexDescend 3 (levelId 0) path
          = .ok [⟨path.join [102], Mode.regular, emptyBlobId⟩] := by
      rw [ObjectDb.indexDescend, doubled_decoded (by decide)]
      rfl
    have whole
        : (doubledRepository 1).db.indexDescend 4 (levelId 1) []
          = .ok [⟨[97, 47, 102], Mode.regular, emptyBlobId⟩,
            ⟨[98, 47, 102], Mode.regular, emptyBlobId⟩] := by
      rw [ObjectDb.indexDescend, doubled_decoded (by decide), levelTree]
      simp only [bind, Except.bind, List.mapM_cons, List.mapM_nil, DecodedEntry.isTree,
        decide_true, if_true, below]
      rfl
    cases whole.symm.trans listed
    decide
  · exact (index_of_commit_accepted levelSha1).2 levelEntries [] levelCacheTree (by decide) (by rfl)

/-- A commit of `2 ^ 32` files and a commit with a directory name of as many bytes are refused. -/
theorem large_commit_refused
    : ((doubledRepository 32).db.commit commitId = some ⟨levelId 32, []⟩
        ∧ Held (doubledRepository 32).db (levelId 32)
        ∧ Sha1Repository (doubledRepository 32).db
        ∧ (doubledRepository 32).indexFile (fun _ => []) commitId ⟨0, 0⟩
          = .error ⟨.resourceLimit, "too many entries for an index".toList⟩)
      ∧ ((deepRepository (2 ^ 32)).db.commit commitId = some ⟨levelId 1, []⟩
        ∧ Held (deepRepository (2 ^ 32)).db (levelId 1)
        ∧ Sha1Repository (deepRepository (2 ^ 32)).db
        ∧ (deepRepository (2 ^ 32)).indexFile (fun _ => []) commitId ⟨0, 0⟩
          = .error ⟨.resourceLimit, "cache tree is too large to record".toList⟩) := by
  refine ⟨⟨rfl, doubled_held (by decide), doubled_valid, ?_⟩, rfl, deep_held _, deep_valid _, ?_⟩
  · have weight : (doubledRepository 32).db.weight (levelId 32) = 3 ^ 32 := by
      change 3 ^ (levelOf (levelId 32)).getD 0 = 3 ^ 32
      rw [levelOf_levelId (by decide), Option.getD_some]
    have committed : (doubledRepository 32).db.findCommit commitId = .ok ⟨levelId 32, []⟩ :=
      findCommit_eq_ok.mpr rfl
    rw [Repository.indexFile, committed]
    simp only [bind, Except.bind]
    rw [weight, doubled_refused (by norm_num)]
  · obtain ⟨file, tree, descended, sizable, large⟩ := deep_descended (2 ^ 32)
    have committed : (deepRepository (2 ^ 32)).db.commit commitId = some ⟨levelId 1, []⟩ := rfl
    obtain ⟨-, -, -, -, refused⟩ := indexFile_of_descended (fun _ => []) ⟨0, 0⟩ committed
      (deep_held _) (deep_valid _) ⟨rfl, rfl⟩ descended
      (fun other member => List.mem_singleton.mp member ▸ sizable) (by norm_num)
    exact refused large

end Gfs.Git
