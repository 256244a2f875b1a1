import Gfs.Git.CacheTree

/-! Reading the Git index back (`gfs-git/src/index.rs`): the cursor yields the entries that were
written, the staged tree is the root's, and two indices differ where their entries do.
-/

namespace Gfs.Git.Index

open Gfs.Types
open Gfs.Service (beBytes beValue)

-- Reading an entry back

/-- What an entry of the writer's must be for its fields to hold it. -/
structure Storable (entry : IndexEntry) : Prop where
  clean : 0 ∉ entry.path
  mode : entry.mode < 2 ^ 32
  sha1 : entry.oid.algorithm = .sha1
  sized : entry.oid.raw.length = 20

/-- What the cursor makes of an entry. -/
def stagedOf (entry : IndexEntry) : Staged :=
  ⟨0, entry.mode, entry.oid.raw, false⟩

section Entry

variable {stamp : Timestamp} {entry : IndexEntry}

theorem length_statFields (stamp : Timestamp) : (statFields stamp).length = 24 := by
  simp [statFields]

theorem length_fixedFields (sized : entry.oid.raw.length = 20)
    : (fixedFields stamp entry).length = 62 := by
  simp [fixedFields, length_statFields, sized]

theorem length_writeEntry (sized : entry.oid.raw.length = 20)
    : (writeEntry stamp entry).length = ((62 + entry.path.length) / 8 + 1) * 8 := by
  simp only [writeEntry, List.length_append, length_fixedFields sized, List.length_replicate]
  omega

theorem mode_fixedFields (small : entry.mode < 2 ^ 32)
    : beValue (((fixedFields stamp entry).take 28).drop 24) = entry.mode := by
  rw [fixedFields, List.append_assoc, List.append_assoc, List.append_assoc,
    part_append (length_statFields stamp) (by rw [Gfs.Service.beBytes_length]),
    Gfs.Service.beValue_beBytes, Nat.mod_eq_of_lt (by simpa using small)]

theorem oid_fixedFields (sized : entry.oid.raw.length = 20)
    : ((fixedFields stamp entry).take 60).drop 40 = entry.oid.raw := by
  rw [fixedFields, List.append_assoc]
  apply part_append
  · simp [length_statFields]
  · rw [sized]

theorem flags_fixedFields (sized : entry.oid.raw.length = 20)
    : beValue ((fixedFields stamp entry).drop 60) = min entry.path.length 0xFFF := by
  have before : (statFields stamp ++ beBytes 4 entry.mode
      ++ (beBytes 4 0 ++ beBytes 4 0 ++ beBytes 4 entry.size) ++ entry.oid.raw).length = 60 := by
    simp [length_statFields, sized]
  rw [fixedFields, ← before, List.drop_left, Gfs.Service.beValue_beBytes]
  omega

theorem pathLength_writeEntry (clean : 0 ∉ entry.path) (after : Bytes)
    : EntryCursor.pathLength (min entry.path.length 0xFFF) (entry.path ++ (0 :: after))
      = some entry.path.length := by
  rw [EntryCursor.pathLength]
  split
  · exact findIdx?_first clean
  · congr 1
    omega

/-- The cursor reads an entry as it was written, and stands at the next. -/
theorem read_writeEntry {cursor : EntryCursor} (stored : Storable entry) {front back : Bytes}
    (bytes : cursor.bytes = front ++ (writeEntry stamp entry ++ back))
    (version : cursor.version = 2) (pos : cursor.pos = front.length)
    : cursor.read
      = some
          (stagedOf entry,
            {
              cursor with
              remaining := cursor.remaining - 1
              pos := front.length + (writeEntry stamp entry).length
              path := entry.path
            }) := by
  have padding
      : ∃ pad,
          writeEntry stamp entry = fixedFields stamp entry ++ (entry.path ++ (0 :: pad)) := by
    refine ⟨List.replicate ((((62 + entry.path.length) / 8 + 1) * 8
      - (62 + entry.path.length)) - 1) 0, ?_⟩
    simp only [writeEntry, List.length_append, length_fixedFields stored.sized, List.append_assoc]
    rw [← List.replicate_succ]
    congr 3
    omega
  obtain ⟨pad, whole⟩ := padding
  have fixed
      : slice cursor.bytes cursor.pos (cursor.pos + 62) = some (fixedFields stamp entry) := by
    rw [bytes, whole, List.append_assoc]
    exact slice_append pos.symm (by rw [length_fixedFields stored.sized])
  have rest
      : sliceFrom cursor.bytes (cursor.pos + 62) = some (entry.path ++ (0 :: (pad ++ back))) := by
    have split_ : cursor.bytes
        = (front ++ fixedFields stamp entry) ++ (entry.path ++ (0 :: (pad ++ back))) := by
      rw [bytes, whole]
      simp only [List.append_assoc, List.cons_append]
    have place : cursor.pos + 62 = (front ++ fixedFields stamp entry).length := by
      rw [List.length_append, length_fixedFields stored.sized, pos]
    rw [sliceFrom, split_, place, if_pos (by simp), List.drop_left]
  have path : slice (entry.path ++ (0 :: (pad ++ back))) 0 entry.path.length
      = some entry.path := by
    rw [slice, if_pos (by simp), List.take_left, List.drop_zero]
  have plain : (min entry.path.length 0xFFF).testBit 14 = false :=
    Nat.testBit_eq_false_of_lt (by omega)
  have found : cursor.readPath (min entry.path.length 0xFFF) (cursor.pos + 62)
      = some (entry.path, front.length + (writeEntry stamp entry).length) := by
    rw [EntryCursor.readPath, if_neg (by omega), rest, length_writeEntry stored.sized]
    simp only [Option.bind_eq_bind, Option.bind_some, pathLength_writeEntry stored.clean, path]
    congr 2
    omega
  rw [EntryCursor.read, fixed]
  simp only [Option.bind_eq_bind, Option.bind_some, flags_fixedFields stored.sized,
    mode_fixedFields stored.mode, oid_fixedFields stored.sized, EntryCursor.extendedFlags, plain,
    Bool.false_eq_true, if_false, Option.isSome_none, found, Option.any_none]
  rw [stagedOf, show min entry.path.length 0xFFF / 4096 % 4 = 0 by omega]

theorem next_writeEntry {cursor : EntryCursor} (stored : Storable entry) {front back : Bytes}
    (bytes : cursor.bytes = front ++ (writeEntry stamp entry ++ back))
    (version : cursor.version = 2) (pos : cursor.pos = front.length) {count : Nat}
    (some_ : cursor.remaining = count + 1)
    : cursor.next
      = .ok
          (some (stagedOf entry),
            {
              cursor with
              remaining := count
              pos := front.length + (writeEntry stamp entry).length
              path := entry.path
            }) := by
  rw [EntryCursor.next, if_neg (by omega), read_writeEntry stored bytes version pos, some_]
  rfl

end Entry

-- Reading a file back

/-- The entries a cursor yields, each with its path, and the cursor it stops at. -/
inductive Yields : EntryCursor → List (Bytes × Staged) → EntryCursor → Prop where
  | stop {cursor last : EntryCursor} (stops : cursor.next = .ok (none, last))
      : Yields cursor [] last
  | more {cursor after last : EntryCursor} {staged : Staged} {rest : List (Bytes × Staged)}
      (read : cursor.next = .ok (some staged, after)) (yields : Yields after rest last)
      : Yields cursor ((after.path, staged) :: rest) last

/-- An entry with what the cursor yields of it. -/
def yieldOf (entry : IndexEntry) : Bytes × Staged :=
  (entry.path, stagedOf entry)

/-- A cursor at the first of some entries yields them all, and stops behind the last. -/
theorem yields_records {stamp : Timestamp} {entries : List IndexEntry}
    (stored : ∀ entry ∈ entries, Storable entry) {cursor : EntryCursor} {front back : Bytes}
    (bytes : cursor.bytes = front ++ (entries.flatMap (writeEntry stamp) ++ back))
    (version : cursor.version = 2) (pos : cursor.pos = front.length)
    (count : cursor.remaining = entries.length)
    : ∃ last,
        Yields cursor (entries.map yieldOf) last
        ∧ last.pos = front.length + (entries.flatMap (writeEntry stamp)).length := by
  induction entries generalizing cursor front with
  | nil =>
      refine ⟨cursor, .stop ?_, by simpa using pos⟩
      rw [EntryCursor.next, if_pos (by simpa using count)]
  | cons entry entries ih =>
      obtain ⟨own, others⟩ := List.forall_mem_cons.mp stored
      rw [List.flatMap_cons, List.append_assoc] at bytes
      have read := next_writeEntry own bytes version pos count
      let after : EntryCursor :=
        {
          cursor with
          remaining := entries.length
          pos := front.length + (writeEntry stamp entry).length
          path := entry.path
        }
      have bytes
          : after.bytes
            = (front ++ writeEntry stamp entry)
              ++ (entries.flatMap (writeEntry stamp) ++ back) := by
        rw [List.append_assoc]
        exact bytes
      obtain ⟨last, yields, ends⟩ := ih others bytes version (List.length_append ▸ rfl) rfl
      refine ⟨last, .more read yields, ?_⟩
      rw [ends, List.flatMap_cons, List.length_append, List.length_append, Nat.add_assoc]

-- The whole file

/-- Entries an index can hold. -/
structure Indexable (entries : List IndexEntry) : Prop where
  stored : ∀ entry ∈ entries, Storable entry
  ordered : entries.Pairwise (fun a b => a.path < b.path)
  few : entries.length < 2 ^ 32

/-- A cache tree an index of some entries can hold. -/
structure Recordable (entries : List IndexEntry) (cacheTree : Option CacheTree) : Prop where
  consistent : ∀ root ∈ cacheTree, Consistent entries root
  small : ∀ root ∈ cacheTree, root.encoded.length < 2 ^ 32

/-- An index file up to its digest. -/
def contents (entries : List IndexEntry) (stamp : Timestamp) (cacheTree : Option CacheTree)
    : Bytes :=
  header entries.length ++ entries.flatMap (writeEntry stamp) ++ extensionOf cacheTree

section File

variable {sha1 : Bytes → Bytes} {entries : List IndexEntry} {stamp : Timestamp}
  {cacheTree : Option CacheTree}

theorem writeIndexV2_eq (ordered : entries.Pairwise (fun a b => a.path < b.path))
    (known : ∀ entry ∈ entries, entry.oid.algorithm = .sha1) (few : entries.length < 2 ^ 32)
    : writeIndexV2 sha1 entries stamp cacheTree
      = (writeExtension entries cacheTree).map (fun extension_ =>
          let out := header entries.length ++ entries.flatMap (writeEntry stamp) ++ extension_
          out ++ sha1 out) := by
  have records : writeEntries stamp none entries = .ok (entries.flatMap (writeEntry stamp)) := by
    rw [writeEntries_eq_ok]
    exact ⟨by simp, ordered, known, rfl⟩
  rw [writeIndexV2, if_neg (Nat.not_le.mpr few), records]
  cases writeExtension entries cacheTree <;> rfl

theorem writeIndexV2_ok (indexable : Indexable entries) (recordable : Recordable entries cacheTree)
    : writeIndexV2 sha1 entries stamp cacheTree
      = .ok (contents entries stamp cacheTree ++ sha1 (contents entries stamp cacheTree)) := by
  have known := fun entry member => (indexable.stored entry member).sha1
  rw [writeIndexV2_eq indexable.ordered known indexable.few,
    writeExtension_ok indexable.ordered recordable.consistent recordable.small]
  rfl

theorem length_header (count : Nat) : (header count).length = 12 := by
  simp [header]

/-- The cursor at the first of the entries. -/
theorem new_contents (few : entries.length < 2 ^ 32) (digest : Bytes)
    : EntryCursor.new (contents entries stamp cacheTree ++ digest)
      = .ok ⟨contents entries stamp cacheTree ++ digest, 2, entries.length, 12, []⟩ := by
  have whole
      : contents entries stamp cacheTree ++ digest
        = [68, 73, 82, 67] ++ (beBytes 4 2 ++ (beBytes 4 entries.length
            ++ (entries.flatMap (writeEntry stamp) ++ (extensionOf cacheTree ++ digest)))) := by
    simp only [contents, header, List.append_assoc]
  have long : ¬(contents entries stamp cacheTree ++ digest).length < 12 := by
    simp only [contents, List.length_append, length_header]
    omega
  generalize contents entries stamp cacheTree ++ digest = index at whole long ⊢
  have magic : index.take 4 = [68, 73, 82, 67] := by
    rw [whole]
    rfl
  have version : beValue ((index.take 8).drop 4) = 2 := by
    rw [whole, part_append (by rfl) (by simp), Gfs.Service.beValue_beBytes]
    rfl
  have count : beValue ((index.take 12).drop 8) = entries.length := by
    rw [whole, ← List.append_assoc, part_append (by simp) (by simp), Gfs.Service.beValue_beBytes,
      Nat.mod_eq_of_lt (by simpa using few)]
  rw [EntryCursor.new, if_neg (by simp [long, magic])]
  simp only [version, count]
  rfl

theorem yields_contents (indexable : Indexable entries) (stamp : Timestamp)
    (cacheTree : Option CacheTree) (digest : Bytes)
    : ∃ start last,
        EntryCursor.new (contents entries stamp cacheTree ++ digest) = .ok start
        ∧ Yields start (entries.map yieldOf) last
        ∧ last.pos = 12 + (entries.flatMap (writeEntry stamp)).length := by
  have bytes
      : (EntryCursor.mk (contents entries stamp cacheTree ++ digest) 2 entries.length 12 []).bytes
        = header entries.length
          ++ (entries.flatMap (writeEntry stamp) ++ (extensionOf cacheTree ++ digest)) := by
    simp only [contents, List.append_assoc]
  obtain ⟨last, yields, ends⟩ := yields_records indexable.stored
    bytes rfl (length_header _).symm rfl
  exact ⟨_, last, new_contents indexable.few digest, yields, by rw [ends, length_header]⟩

theorem drop_contents (digest : Bytes)
    : (contents entries stamp cacheTree ++ digest).drop
        (12 + (entries.flatMap (writeEntry stamp)).length)
      = extensionOf cacheTree ++ digest := by
  rw [contents, List.append_assoc, ← length_header entries.length, ← List.length_append,
    List.drop_left]

-- The staged tree

theorem skipEntries_of_yields {start last : EntryCursor} {rows : List (Bytes × Staged)}
    (yields : Yields start rows last)
    (plain : ∀ row ∈ rows, row.2.stage = 0 ∧ row.2.intentToAdd = false)
    : skipEntries start = .ok (some last) := by
  induction yields with
  | stop stops =>
      rw [skipEntries]
      split <;> rename_i found <;> rw [stops] at found <;> cases found
      rfl
  | more read yields ih =>
      obtain ⟨own, plain⟩ := List.forall_mem_cons.mp plain
      rw [skipEntries]
      split <;> rename_i found <;> rw [read] at found <;> cases found
      rw [if_neg (by simpa using own), ih plain]

theorem treeFrom_extension {front digest : Bytes} (sized : digest.length = 20)
    (recordable : Recordable entries cacheTree) (few : entries.length < 2 ^ 32)
    : treeFrom (front ++ (extensionOf cacheTree ++ digest)) front.length
      = .ok (cacheTree.map (fun root => root.oid.raw)) := by
  cases cacheTree with
  | none =>
      rw [treeFrom, if_neg]
      · rfl
      · simp only [extensionOf, List.length_append, List.length_nil, sized]
        omega
  | some root =>
      have described := recordable.consistent root rfl
      have small := recordable.small root rfl
      have unnamed : root.inOrder.name = [] := by
        rw [root.name_inOrder, described.unnamed]
      have sized' : root.inOrder.oid.raw.length = 20 := by
        rw [root.oid_inOrder]
        exact described.known.here.2
      have counted : root.inOrder.entries ≤ entries.length := by
        rw [root.entries_inOrder, described.counted.here, ← List.length_map IndexEntry.path]
        exact List.countP_le_length
      have id_ := rootOfTree_encoded unnamed sized' (by omega)
      have whole
          : front ++ (extensionOf (some root) ++ digest)
            = front ++ ([84, 82, 69, 69] ++ (beBytes 4 root.encoded.length
                ++ (root.inOrder.encoded ++ digest))) := by
        simp only [extensionOf, List.append_assoc]
      have signature
          : ((front ++ (extensionOf (some root) ++ digest)).take (front.length + 4)).drop
              front.length
            = [84, 82, 69, 69] := by
        rw [whole]
        exact part_append rfl rfl
      have len
          : beValue (((front ++ (extensionOf (some root) ++ digest)).take
              (front.length + 8)).drop (front.length + 4))
            = root.encoded.length := by
        rw [whole, ← List.append_assoc, part_append (by simp) (by simp),
          Gfs.Service.beValue_beBytes, Nat.mod_eq_of_lt (by simpa using small)]
      have body
          : slice (front ++ (extensionOf (some root) ++ digest)) (front.length + 8)
              (front.length + 8 + root.encoded.length)
            = some root.inOrder.encoded := by
        rw [whole, ← List.append_assoc, ← List.append_assoc]
        exact slice_append (by simp) (by rw [root.length_encoded_inOrder])
      rw [treeFrom, if_pos]
      · simp only [len, body, signature, if_true, id_, root.oid_inOrder, Option.map_some]
      · simp only [extensionOf, List.length_append, sized, Gfs.Service.beBytes_length,
          List.length_cons, List.length_nil]
        omega

theorem stagedTree_contents (indexable : Indexable entries)
    (recordable : Recordable entries cacheTree) {digest : Bytes} (sized : digest.length = 20)
    : stagedTree (contents entries stamp cacheTree ++ digest)
      = .ok (cacheTree.map (fun root => root.oid.raw)) := by
  obtain ⟨start, last, opened, yields, ends⟩ := yields_contents indexable stamp cacheTree digest
  have skipped : skipEntries start = .ok (some last) := by
    apply skipEntries_of_yields yields
    simp [yieldOf, stagedOf]
  have place : last.pos = (header entries.length ++ entries.flatMap (writeEntry stamp)).length := by
    rw [ends, List.length_append, length_header]
  rw [stagedTree, opened]
  simp only [bind, Except.bind, skipped]
  rw [place, contents, List.append_assoc]
  exact treeFrom_extension sized recordable indexable.few

end File

-- Two files

open Gfs.Lib.Sorted (firstDifference Differ)

theorem differenceFrom_of_yields {a b last last' : EntryCursor} {rows rows' : List (Bytes × Staged)}
    (yields : Yields a rows last) (yields' : Yields b rows' last')
    : differenceFrom a b = .ok (firstDifference rows rows') := by
  induction yields generalizing b rows' with
  | stop stops =>
      rw [differenceFrom]
      cases yields' with
      | stop stops' => split <;> simp_all [firstDifference]
      | more read' yields' => split <;> simp_all [firstDifference]
  | more read yields ih =>
      rw [differenceFrom]
      cases yields' with
      | stop stops' => split <;> simp_all [firstDifference]
      | more read' yields' =>
          split <;> simp_all only [Except.ok.injEq, Prod.mk.injEq, Option.some.injEq, reduceCtorEq,
            false_and]
          rw [ih yields', firstDifference]
          split <;> rfl

/-- What a commit stages of an entry: its path, mode and object. -/
def stagedRow (entry : IndexEntry) : Bytes × (Nat × ObjectId) :=
  (entry.path, entry.mode, entry.oid)

section Rows

variable {entries entries' : List IndexEntry}

theorem map_stagedRow (stored : ∀ entry ∈ entries, Storable entry)
    : entries.map stagedRow
      = (entries.map yieldOf).map
          (fun row => (row.1, row.2.mode, ObjectId.mk .sha1 row.2.oid)) := by
  rw [List.map_map]
  refine List.map_congr_left fun entry member => ?_
  rw [stagedRow, Function.comp_apply, yieldOf, stagedOf, ← (stored entry member).sha1]

theorem map_yieldOf (entries : List IndexEntry)
    : entries.map yieldOf
      = (entries.map stagedRow).map
          (fun row => (row.1, Staged.mk 0 row.2.1 row.2.2.raw false)) := by
  rw [List.map_map]
  rfl

theorem map_yieldOf_inj (stored : ∀ entry ∈ entries, Storable entry)
    (stored' : ∀ entry ∈ entries', Storable entry)
    : entries.map yieldOf = entries'.map yieldOf
      ↔ entries.map stagedRow = entries'.map stagedRow := by
  constructor
  · intro same
    rw [map_stagedRow stored, map_stagedRow stored', same]
  · intro same
    rw [map_yieldOf, map_yieldOf, same]

theorem mem_map_yieldOf (stored : ∀ entry ∈ entries, Storable entry) {path : Bytes}
    {staged : Staged}
    : (path, staged) ∈ entries.map yieldOf
      ↔ (staged.stage = 0 ∧ staged.intentToAdd = false)
        ∧ (path, staged.mode, ObjectId.mk .sha1 staged.oid) ∈ entries.map stagedRow := by
  simp only [List.mem_map, yieldOf, stagedOf, stagedRow, Prod.mk.injEq]
  constructor
  · rintro ⟨entry, listed, rfl, rfl⟩
    exact ⟨⟨rfl, rfl⟩, entry, listed, rfl, rfl, by rw [← (stored entry listed).sha1]⟩
  · rintro ⟨⟨stage, intentToAdd⟩, entry, listed, rfl, mode, oid⟩
    refine ⟨entry, listed, rfl, ?_⟩
    rw [mode, oid, ← stage, ← intentToAdd]

theorem mem_map_stagedRow (stored : ∀ entry ∈ entries, Storable entry) {path : Bytes}
    {mode : Nat} {oid : ObjectId}
    : (path, mode, oid) ∈ entries.map stagedRow
      ↔ oid.algorithm = .sha1
        ∧ (path, Staged.mk 0 mode oid.raw false) ∈ entries.map yieldOf := by
  simp only [List.mem_map, yieldOf, stagedOf, stagedRow, Prod.mk.injEq, Staged.mk.injEq]
  constructor
  · rintro ⟨entry, listed, rfl, rfl, rfl⟩
    exact ⟨(stored entry listed).sha1, entry, listed, by simp⟩
  · rintro ⟨sha1, entry, listed, rfl, -, rfl, raw, -⟩
    refine ⟨entry, listed, rfl, rfl, ?_⟩
    obtain ⟨algorithm, bytes⟩ := oid
    cases sha1
    cases raw
    rw [← (stored entry listed).sha1]

theorem differ_yieldOf (stored : ∀ entry ∈ entries, Storable entry)
    (stored' : ∀ entry ∈ entries', Storable entry)
    : Differ (entries.map yieldOf) (entries'.map yieldOf)
      = Differ (entries.map stagedRow) (entries'.map stagedRow) := by
  ext path
  constructor
  · rintro ⟨staged, differ⟩
    rw [mem_map_yieldOf stored, mem_map_yieldOf stored'] at differ
    exact ⟨_, fun same => differ (and_congr_right fun _ => same)⟩
  · rintro ⟨⟨mode, oid⟩, differ⟩
    rw [mem_map_stagedRow stored, mem_map_stagedRow stored'] at differ
    exact ⟨_, fun same => differ (and_congr_right fun _ => same)⟩

end Rows

-- What is written is read back

/-- What the index of some entries and a cache tree must be read back as. -/
structure ReadBack (sha1 : Bytes → Bytes) (entries : List IndexEntry) (stamp : Timestamp)
    (cacheTree : Option CacheTree) (index : Bytes) : Prop where
  written : writeIndexV2 sha1 entries stamp cacheTree = .ok index
  entries :
    ∃ start last extension_ digest,
      EntryCursor.new index = .ok start
      ∧ Yields start (entries.map yieldOf) last
      ∧ writeExtension entries cacheTree = .ok extension_
      ∧ digest.length = 20
      ∧ index.drop last.pos = extension_ ++ digest
  tree : stagedTree index = .ok (cacheTree.map (fun root => root.oid.raw))

/-- An index of fewer than `2 ^ 32` entries, with a cache tree of fewer than `2 ^ 32` bytes, is
read back as those entries and that tree, and two of them differ first at the least path where
what is staged does.
-/
theorem index_read_back (sha1 : Bytes → Bytes) (sized : ∀ bytes, (sha1 bytes).length = 20)
    : (∀ entries stamp cacheTree, Indexable entries → Recordable entries cacheTree
        → ∃ index, ReadBack sha1 entries stamp cacheTree index)
      ∧ (∀ first second : List IndexEntry, ∀ stamp stamp' tree tree' a b,
          Indexable first → Indexable second → Recordable first tree → Recordable second tree'
          → writeIndexV2 sha1 first stamp tree = .ok a
          → writeIndexV2 sha1 second stamp' tree' = .ok b
          → (firstStagedDifference a b = .ok none
              ↔ first.map stagedRow = second.map stagedRow)
            ∧ (first.map stagedRow ≠ second.map stagedRow
              → ∃ path,
                  firstStagedDifference a b = .ok (some path)
                  ∧ IsLeast (Differ (first.map stagedRow) (second.map stagedRow)) path)) := by
  constructor
  · intro entries stamp cacheTree indexable recordable
    refine ⟨_, writeIndexV2_ok indexable recordable, ?_,
      stagedTree_contents indexable recordable (sized _)⟩
    obtain ⟨start, last, opened, yields, ends⟩ := yields_contents indexable stamp cacheTree
      (sha1 (contents entries stamp cacheTree))
    have extension_ := writeExtension_ok indexable.ordered recordable.consistent recordable.small
    exact ⟨start, last, extensionOf cacheTree, sha1 (contents entries stamp cacheTree), opened,
      yields, extension_, sized _, by rw [ends, drop_contents]⟩
  · intro first second stamp stamp' tree tree' a b indexable indexable' recordable recordable'
      written written'
    rw [writeIndexV2_ok indexable recordable, Except.ok.injEq] at written
    rw [writeIndexV2_ok indexable' recordable', Except.ok.injEq] at written'
    obtain ⟨start, last, opened, yields, -⟩ := yields_contents indexable stamp tree
      (sha1 (contents first stamp tree))
    obtain ⟨start', last', opened', yields', -⟩ := yields_contents indexable' stamp' tree'
      (sha1 (contents second stamp' tree'))
    have walked
        : firstStagedDifference a b
          = .ok (firstDifference (first.map yieldOf) (second.map yieldOf)) := by
      rw [firstStagedDifference, ← written, ← written', opened, opened']
      exact differenceFrom_of_yields yields yields'
    have same := map_yieldOf_inj indexable.stored indexable'.stored
    constructor
    · rw [walked, Except.ok.injEq, Gfs.Lib.Sorted.firstDifference_eq_none, same]
    · intro apart
      obtain ⟨path, found⟩ := Option.ne_none_iff_exists'.mp
        (mt Gfs.Lib.Sorted.firstDifference_eq_none.mp (mt same.mp apart))
      rw [← differ_yieldOf indexable.stored indexable'.stored]
      refine ⟨path, by rw [walked, found], Gfs.Lib.Sorted.isLeast_firstDifference ?_ ?_ found⟩
      · exact List.pairwise_map.mpr indexable.ordered
      · exact List.pairwise_map.mpr indexable'.ordered

/-- The digests of the two files below. -/
def sampleSha1 (content : Bytes) : Bytes :=
  if content.length = 76 then
    [25, 5, 88, 37, 79, 46, 45, 26, 90, 205, 198, 252, 128, 99, 224, 107, 129, 119, 133,
     12]
  else
    [130, 16, 184, 197, 147, 63, 219, 82, 146, 123, 116, 130, 200, 42, 208, 35, 4, 50,
     102, 119]

def sampleFile : IndexEntry :=
  ⟨[97], 0o100644, ⟨.sha1, List.replicate 20 1⟩, 5⟩

def sampleEntries : List IndexEntry :=
  [sampleFile, ⟨[115, 114, 99, 47, 98], 0o100755, ⟨.sha1, List.replicate 20 2⟩, 7⟩]

def sampleTree : CacheTree :=
  .node [] ⟨.sha1, List.replicate 20 3⟩ 2
    [.node [115, 114, 99] ⟨.sha1, List.replicate 20 4⟩ 1 []]

/-- Witness: `a` and `src/b` with their cache tree, and `a` alone without one. -/
theorem small_index_read_back
    : ∃ a b,
        ReadBack sampleSha1 sampleEntries ⟨1, 0⟩ (some sampleTree) a
        ∧ ReadBack sampleSha1 [sampleFile] ⟨1, 0⟩ none b
        ∧ ∃ path,
            firstStagedDifference a b = .ok (some path)
            ∧ IsLeast (Differ (sampleEntries.map stagedRow) ([sampleFile].map stagedRow)) path := by
  have storable : ∀ entry ∈ sampleEntries, Storable entry := by
    intro entry member
    rcases List.mem_pair.mp member with rfl | rfl
    · exact ⟨by decide, by decide, rfl, rfl⟩
    · exact ⟨by decide, by decide, rfl, rfl⟩
  have indexable : Indexable sampleEntries := ⟨storable, by decide, by decide⟩
  have indexable' : Indexable [sampleFile] :=
    ⟨fun entry member => storable entry (List.mem_cons.mpr (.inl (List.mem_singleton.mp member))),
      by decide, by decide⟩
  have everywhere {holds : Bytes → CacheTree → Prop} (root : holds [] sampleTree)
      (below : holds [115, 114, 99, 47] (.node [115, 114, 99] ⟨.sha1, List.replicate 20 4⟩ 1 []))
      : sampleTree.Everywhere holds [] := by
    refine .node root fun child member => ?_
    cases List.mem_singleton.mp member
    exact .node below (by simp [CacheTree.children])
  have recordable : Recordable sampleEntries (some sampleTree) := by
    constructor
    · rintro root ⟨⟩
      exact ⟨rfl, everywhere ⟨rfl, rfl⟩ ⟨rfl, rfl⟩,
        everywhere (List.nodup_singleton _) List.nodup_nil, everywhere rfl rfl⟩
    · rintro root ⟨⟩
      decide
  have recordable' : Recordable [sampleFile] none := ⟨by simp, by simp⟩
  obtain ⟨readBack, differ⟩ := index_read_back sampleSha1 (fun content => by
    rw [sampleSha1]
    split <;> rfl)
  obtain ⟨a, first⟩ := readBack _ ⟨1, 0⟩ _ indexable recordable
  obtain ⟨b, second⟩ := readBack _ ⟨1, 0⟩ _ indexable' recordable'
  refine ⟨a, b, first, second, ?_⟩
  exact (differ _ _ _ _ _ _ _ _ indexable indexable' recordable recordable' first.written
    second.written).2 (by decide)

-- What is not written

/-- A file in a directory whose name has some length. -/
def deepEntry (length : Nat) : IndexEntry :=
  ⟨List.replicate length 97 ++ [slash] ++ [98], 0o100644, ⟨.sha1, List.replicate 20 1⟩, 0⟩

def deepTree (length : Nat) : CacheTree :=
  .node [] ⟨.sha1, List.replicate 20 2⟩ 1
    [.node (List.replicate length 97) ⟨.sha1, List.replicate 20 3⟩ 1 []]

/-- Files whose names are longer and longer. -/
def manyEntries (count : Nat) : List IndexEntry :=
  (List.range count).map
    (fun i => ⟨List.replicate (i + 1) 97, 0o100644, ⟨.sha1, List.replicate 20 1⟩, 0⟩)

theorem indexable_deep (length : Nat) : Indexable [deepEntry length] where
  stored := by
    rintro entry member
    cases List.mem_singleton.mp member
    exact ⟨by simp [deepEntry, slash], by norm_num [deepEntry], rfl, rfl⟩
  ordered := List.pairwise_singleton _ _
  few := by norm_num

theorem everywhere_deep {holds : Bytes → CacheTree → Prop} {length : Nat}
    (root : holds [] (deepTree length))
    (below : holds (List.replicate length 97 ++ [slash])
      (.node (List.replicate length 97) ⟨.sha1, List.replicate 20 3⟩ 1 []))
    : (deepTree length).Everywhere holds [] := by
  refine .node root fun child member => ?_
  cases List.mem_singleton.mp member
  exact .node below (by simp [CacheTree.children])

theorem consistent_deep (length : Nat) : Consistent [deepEntry length] (deepTree length) where
  unnamed := rfl
  known := everywhere_deep ⟨rfl, rfl⟩ ⟨rfl, rfl⟩
  distinct := everywhere_deep (List.nodup_singleton _) List.nodup_nil
  counted := by
    have inside : (List.replicate length 97 ++ [slash]).isPrefixOf (deepEntry length).path :=
      List.isPrefixOf_iff_prefix.mpr (List.prefix_append _ _)
    apply everywhere_deep
    · rfl
    · rw [CountedAt, List.map_singleton, List.countP_cons_of_pos inside]
      rfl

theorem le_length_encoded_deep (length : Nat) : length ≤ (deepTree length).encoded.length := by
  simp only [deepTree, CacheTree.encoded, CacheTree.encodedForest, List.length_append,
    List.length_replicate]
  omega

theorem stored_many {count : Nat} : ∀ entry ∈ manyEntries count, Storable entry := by
  intro entry member
  obtain ⟨i, -, rfl⟩ := List.mem_map.mp member
  exact ⟨by simp, by norm_num, rfl, rfl⟩

theorem sorted_many (count : Nat)
    : (manyEntries count).Pairwise (fun a b => a.path < b.path) := by
  rw [manyEntries, List.pairwise_map]
  refine List.pairwise_lt_range.imp fun {i j} less => ?_
  apply Std.lt_of_le_of_ne
  · refine le_of_prefix ⟨List.replicate (j - i) 97, ?_⟩
    rw [← List.replicate_add, show i + 1 + (j - i) = j + 1 by omega]
  · intro same
    have lengths := congrArg List.length same
    simp only [List.length_replicate] at lengths
    omega

/-- A cache tree of four gibibytes is refused, and so are as many entries as 32 bits count. -/
theorem large_index_refused
    : (Indexable [deepEntry (2 ^ 32)] ∧ Consistent [deepEntry (2 ^ 32)] (deepTree (2 ^ 32))
        ∧ writeIndexV2 (fun _ => List.replicate 20 0) [deepEntry (2 ^ 32)] ⟨0, 0⟩
            (some (deepTree (2 ^ 32)))
          = .error ⟨.resourceLimit, "cache tree is too large to record".toList⟩)
      ∧ ((∀ entry ∈ manyEntries (2 ^ 32), Storable entry)
        ∧ (manyEntries (2 ^ 32)).Pairwise (fun a b => a.path < b.path)
        ∧ writeIndexV2 (fun _ => List.replicate 20 0) (manyEntries (2 ^ 32)) ⟨0, 0⟩ none
          = .error ⟨.resourceLimit, "too many entries for an index".toList⟩) := by
  refine ⟨⟨indexable_deep _, consistent_deep _, ?_⟩, stored_many, sorted_many _, ?_⟩
  · have indexable := indexable_deep (2 ^ 32)
    have refused := writeExtension_some indexable.ordered (consistent_deep (2 ^ 32))
    rw [if_pos (le_length_encoded_deep (2 ^ 32))] at refused
    have known := fun entry member => (indexable.stored entry member).sha1
    rw [writeIndexV2_eq indexable.ordered known indexable.few, refused]
    rfl
  · rw [writeIndexV2, if_pos]
    rw [manyEntries, List.length_map, List.length_range]

end Gfs.Git.Index
