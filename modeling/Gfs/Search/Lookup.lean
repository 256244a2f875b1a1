import Gfs.Lib.Sorted
import Gfs.Search.Encoding

/-! The ways into a path table (`gfs-search/src/manifest.rs`): the ordinals of a blob key, the
range of a scope, which a client draws path by path (`gfs-search/src/local.rs`), and the table
of a parent with a delta.
-/

namespace Gfs.Search.Manifests

open Gfs.Types
open Gfs.Lib
open Gfs.Lib.Overwrites
open Gfs.Search.Index (BlobKey Bitmap)
open Std (ExtTreeMap)

-- Blob keys

theorem foldl_derive (rows : List (PathEntry × Nat))
    (derived : Bitmap × ExtTreeMap BlobKey (List Nat)) (key : BlobKey)
    : (key ∈ (rows.foldl derive derived).1
        ↔ key ∈ derived.1 ∨ ∃ row ∈ rows, row.1.key = key)
      ∧ ((rows.foldl derive derived).2[key]?.getD [])
        = (derived.2[key]?.getD [])
          ++ (rows.filter (fun row => row.1.key = key)).map (fun row => row.2 % 2 ^ 32) := by
  induction rows generalizing derived with
  | nil => simp
  | cons row rows ih =>
      obtain ⟨members, reverse⟩ := ih (derive derived row)
      rw [List.foldl_cons, members, reverse]
      constructor
      · simp only [derive, Finset.mem_insert, List.mem_cons, exists_eq_or_imp]
        rw [eq_comm, or_assoc, or_left_comm]
      · simp only [derive, ExtTreeMap.getElem?_insert, Std.LawfulEqCmp.compare_eq_iff_eq]
        by_cases same : row.1.key = key
        · simp [same]
        · simp [same]

theorem mem_members {commit : ObjectId} {paths : List PathEntry} {key : BlobKey}
    : key ∈ (Table.fromSorted commit paths).members ↔ ∃ entry ∈ paths, entry.key = key := by
  rw [Table.fromSorted, (foldl_derive paths.zipIdx (∅, ∅) key).1]
  constructor
  · rintro (absent | ⟨⟨entry, ordinal⟩, member, same⟩)
    · cases Finset.notMem_empty _ absent
    · exact ⟨entry, List.fst_mem_of_mem_zipIdx member, same⟩
  · rintro ⟨entry, member, same⟩
    obtain ⟨ordinal, inside, here⟩ := List.getElem_of_mem member
    exact .inr ⟨(entry, ordinal), by simp [List.mem_zipIdx_iff_getElem?, inside, here], same⟩

theorem pathsForKey_fromSorted (commit : ObjectId) (paths : List PathEntry) (key : BlobKey)
    : (Table.fromSorted commit paths).pathsForKey key
      = (paths.zipIdx.filter (fun row => row.1.key = key)).map (fun row => row.2 % 2 ^ 32) := by
  rw [Table.pathsForKey, Table.fromSorted, (foldl_derive paths.zipIdx (∅, ∅) key).2]
  simp

/-- Of a table whose ordinals fit, the ordinals of a key ascend and are exactly those of its
paths.
-/
theorem pathsForKey_spec {commit : ObjectId} {paths : List PathEntry}
    (few : paths.length ≤ 2 ^ 32) (key : BlobKey)
    : ((Table.fromSorted commit paths).pathsForKey key).Pairwise (· < ·)
      ∧ ∀ ordinal,
          ordinal ∈ (Table.fromSorted commit paths).pathsForKey key
          ↔ ∃ entry, paths[ordinal]? = some entry ∧ entry.key = key := by
  have fits : ∀ row ∈ paths.zipIdx, row.2 % 2 ^ 32 = row.2 := by
    intro row member
    have inside := List.snd_lt_of_mem_zipIdx member
    exact Nat.mod_eq_of_lt (by omega)
  have plain
      : (Table.fromSorted commit paths).pathsForKey key
        = (paths.zipIdx.filter (fun row => row.1.key = key)).map Prod.snd := by
    rw [pathsForKey_fromSorted]
    exact List.map_congr_left fun row member => fits row (List.mem_of_mem_filter member)
  rw [plain]
  constructor
  · refine List.Pairwise.sublist (List.filter_sublist.map Prod.snd) ?_
    rw [List.zipIdx_map_snd]
    exact List.pairwise_lt_range'
  · intro ordinal
    simp only [List.mem_map, List.mem_filter, List.mem_zipIdx_iff_getElem?, decide_eq_true_eq]
    constructor
    · rintro ⟨⟨entry, _⟩, ⟨here, same⟩, rfl⟩
      exact ⟨entry, here, same⟩
    · rintro ⟨entry, here, same⟩
      exact ⟨(entry, ordinal), ⟨here, same⟩, rfl⟩

-- Deltas

/-- A set of entries with a delta applied. -/
def amend (entries : List PathEntry) : ManifestDelta → List PathEntry
  | .removed path => entries.filter (fun entry => entry.path ≠ path)
  | .upserted path mode key =>
      ⟨path, mode, key⟩ :: entries.filter (fun entry => entry.path ≠ path)

theorem mem_amend {entries : List PathEntry} {delta : ManifestDelta} {entry : PathEntry}
    : entry ∈ amend entries delta
      ↔ if (Manifest.write delta).1 = entry.path then
          (Manifest.write delta).2 = some (entry.mode, entry.key)
        else entry ∈ entries := by
  obtain ⟨path, mode, key⟩ := entry
  cases delta with
  | removed gone =>
      by_cases same : gone = path
      · simp [amend, Manifest.write, same]
      · simp [amend, Manifest.write, same, Ne.symm same]
  | upserted written mode' key' =>
      by_cases same : written = path
      · simp [amend, Manifest.write, same, eq_comm]
      · simp [amend, Manifest.write, same, Ne.symm same]

theorem mem_foldl_amend {entries : List PathEntry} {deltas : List ManifestDelta}
    {entry : PathEntry}
    : entry ∈ deltas.foldl amend entries
      ↔ (lastWrite entry.path (deltas.map Manifest.write)).elim (entry ∈ entries)
          (fun written => written = some (entry.mode, entry.key)) := by
  induction deltas using List.reverseRecOn with
  | nil => simp
  | append_singleton deltas delta ih =>
      rw [List.foldl_append, List.foldl_cons, List.foldl_nil, mem_amend, ih, List.map_append,
        lastWrite_append, List.map_singleton, lastWrite_cons, lastWrite_nil, Option.none_or]
      by_cases same : (Manifest.write delta).1 = entry.path
      · simp [same]
      · simp [same]

theorem Manifest.path_unique {manifest : Manifest} {a b : PathEntry} (first : a ∈ manifest.paths)
    (second : b ∈ manifest.paths) (same : a.path = b.path)
    : a = b := by
  obtain ⟨path, mode, key⟩ := a
  obtain ⟨_, mode', key'⟩ := b
  cases same
  have found := Manifest.find_eq_some.mpr first
  rw [Manifest.find_eq_some.mpr second] at found
  cases found
  rfl

theorem Manifest.paths_ext {left right : Manifest}
    (same : ∀ entry, entry ∈ left.paths ↔ entry ∈ right.paths)
    : left.paths = right.paths := by
  have distinct : ∀ manifest : Manifest, manifest.paths.Nodup := fun manifest =>
    manifest.sorted.imp fun less equal => by
      rw [equal] at less
      exact List.lt_irrefl _ less
  have perm := (List.perm_ext_iff_of_nodup (distinct left) (distinct right)).mpr same
  refine perm.eq_of_pairwise ?_ left.sorted right.sorted
  intro a b _ _ less more
  exact absurd (List.lt_trans less more) (List.lt_irrefl _)

/-- Applying deltas to a manifest is building from its entries with the deltas applied. -/
theorem Manifest.apply_eq_build (manifest : Manifest) (commit : ObjectId)
    (deltas : List ManifestDelta)
    : manifest.apply commit deltas = build commit (deltas.foldl amend manifest.paths) := by
  have agree
      : ∀ a ∈ deltas.foldl amend manifest.paths,
          ∀ b ∈ deltas.foldl amend manifest.paths, a.path = b.path → a = b := by
    intro a first b second same
    rw [mem_foldl_amend] at first second
    rw [← same] at second
    cases last : lastWrite a.path (deltas.map write) with
    | none =>
        rw [last] at first second
        exact path_unique first second same
    | some written =>
        rw [last, Option.elim_some] at first second
        rw [first, Option.some.injEq, Prod.mk.injEq] at second
        obtain ⟨path, mode, key⟩ := a
        obtain ⟨path', mode', key'⟩ := b
        cases same
        cases second.1
        cases second.2
        rfl
  have paths
      : (manifest.apply commit deltas).paths
        = (build commit (deltas.foldl amend manifest.paths)).paths := by
    refine paths_ext fun entry => ?_
    rw [mem_build agree, mem_foldl_amend]
    change ⟨entry.path, entry.mode, entry.key⟩ ∈ (manifest.apply commit deltas).paths ↔ _
    rw [← find_eq_some, find_apply]
    cases last : lastWrite entry.path (deltas.map write) with
    | none => exact find_eq_some
    | some written => rfl
  have fields
      : ∀ {left right : Manifest},
          left.commit = right.commit → left.paths = right.paths → left = right := by
    rintro ⟨_, _, _⟩ ⟨_, _, _⟩ rfl rfl
    rfl
  exact fields rfl paths

-- Scopes

/-- Whether a path is inside a scope prefix, at a path boundary. -/
def withinScope (path scope : Bytes) : Bool :=
  scope.isEmpty || path = scope || (Index.Manifest.withSep scope).isPrefixOf path

/-- The table without the modes, as a query reads it. -/
def Manifest.searched (manifest : Manifest) : Index.Manifest where
  commit := manifest.commit
  paths := manifest.paths.map (fun entry => ⟨entry.path, entry.key⟩)
  sorted := List.pairwise_map.mpr manifest.sorted

/-- The half-open ordinal range covered by a path prefix. -/
def Manifest.scope (manifest : Manifest) (scope : Bytes) : Nat × Nat :=
  manifest.searched.scope scope

/-- Up to the next last byte are exactly the byte strings that begin alike. -/
theorem prefix_iff_between {lead : Bytes} {b : UInt8} (small : b < 255) {bytes : Bytes}
    : lead ++ [b] <+: bytes ↔ lead ++ [b] ≤ bytes ∧ bytes < lead ++ [b + 1] := by
  induction lead generalizing bytes with
  | nil =>
      cases bytes with
      | nil => simp
      | cons x bytes =>
          have next : b = x ↔ (b < x ∨ b = x) ∧ x < b + 1 := by
            have bound := UInt8.lt_iff_toNat_lt.mp small
            rw [UInt8.lt_iff_toNat_lt, UInt8.lt_iff_toNat_lt, ← UInt8.toNat_inj, UInt8.toNat_add]
            simp only [UInt8.reduceToNat] at bound ⊢
            omega
          simp only [List.nil_append, List.cons_prefix_cons, List.nil_prefix, and_true,
            List.cons_le_cons_iff, List.cons_lt_cons_iff, List.nil_le, List.not_lt_nil, and_false,
            or_false]
          exact next
  | cons c lead ih =>
      cases bytes with
      | nil => simp
      | cons x bytes =>
          simp only [List.cons_append, List.cons_prefix_cons, List.cons_le_cons_iff,
            List.cons_lt_cons_iff]
          rw [ih]
          constructor
          · rintro ⟨rfl, above, below⟩
            exact ⟨.inr ⟨rfl, above⟩, .inr ⟨rfl, below⟩⟩
          · rintro ⟨less | ⟨rfl, above⟩, below⟩
            · rcases below with more | ⟨same, _⟩
              · exact absurd (Std.lt_trans less more) Std.lt_irrefl
              · rw [same] at less
                exact absurd less Std.lt_irrefl
            · exact ⟨rfl, above, (below.resolve_left Std.lt_irrefl).2⟩

theorem withSep_spec (scope : Bytes)
    : ∃ lead,
        Index.Manifest.withSep scope = lead ++ [slash]
        ∧ Index.Manifest.upperBound (lead ++ [slash]) = some (lead ++ [slash + 1])
        ∧ (scope = lead ∨ scope = lead ++ [slash]) := by
  have bound
      : ∀ lead : Bytes,
          Index.Manifest.upperBound (lead ++ [slash]) = some (lead ++ [slash + 1]) := by
    intro lead
    have first : slash ≠ 255 := by decide
    simp [Index.Manifest.upperBound, first]
  by_cases ends : scope.getLast? = some slash
  · obtain ⟨lead, rfl⟩ := List.getLast?_eq_some_iff.mp ends
    exact ⟨lead, by simp [Index.Manifest.withSep], bound lead, .inr rfl⟩
  · exact ⟨scope, by simp [Index.Manifest.withSep, ends], bound scope, .inl rfl⟩

theorem lt_partitionPoint {manifest : Manifest} {bound : Bytes} {ordinal : Nat}
    (inside : ordinal < manifest.paths.length)
    : ordinal < manifest.searched.partitionPoint (fun entry => entry.path < bound)
      ↔ manifest.paths[ordinal].path < bound := by
  have inside' : ordinal < manifest.searched.paths.length := by
    simpa [Manifest.searched] using inside
  rw [Index.Manifest.partitionPoint,
    Sorted.lt_length_takeWhile_iff manifest.searched.sorted inside']
  simp [Manifest.searched]

theorem partitionPoint_le (manifest : Manifest) (bound : Bytes)
    : manifest.searched.partitionPoint (fun entry => entry.path < bound)
      ≤ manifest.paths.length := by
  have shorter := (List.takeWhile_sublist
    (fun entry : Index.PathEntry => decide (entry.path < bound))
    (l := manifest.searched.paths)).length_le
  simpa [Index.Manifest.partitionPoint, Manifest.searched] using shorter

/-- The first path not below a bound is the bound itself where it is in the table at all. -/
theorem exists_at_partitionPoint {manifest : Manifest} {bound : Bytes} {ordinal : Nat}
    (inside : ordinal < manifest.paths.length)
    : manifest.paths[ordinal].path = bound
      ↔ (manifest.searched.paths[manifest.searched.partitionPoint
            (fun entry => entry.path < bound)]?.map Index.PathEntry.path) = some bound
        ∧ ordinal = manifest.searched.partitionPoint (fun entry => entry.path < bound) := by
  have listed
      : ∀ i : Nat,
          manifest.searched.paths[i]?.map Index.PathEntry.path
          = manifest.paths[i]?.map PathEntry.path := by
    intro i
    simp [Manifest.searched, List.getElem?_map, Function.comp_def]
  rw [listed]
  have place := @lt_partitionPoint manifest bound
  generalize manifest.searched.partitionPoint (fun entry => entry.path < bound) = exact at place ⊢
  constructor
  · intro same
    have reached : ¬ordinal < exact := by
      rw [place inside, same]
      exact List.lt_irrefl _
    rcases Nat.lt_or_eq_of_le (Nat.le_of_not_lt reached) with before | here
    · -- A path before it would not be below the bound, and yet below this one.
      have lower := List.pairwise_iff_getElem.mp manifest.sorted exact ordinal
        (Nat.lt_trans before inside) inside before
      rw [same, ← place] at lower
      exact absurd lower (Nat.lt_irrefl exact)
    · subst here
      exact ⟨by rw [List.getElem?_eq_getElem inside, Option.map_some, same], rfl⟩
  · rintro ⟨found, rfl⟩
    rw [List.getElem?_eq_getElem inside, Option.map_some, Option.some.injEq] at found
    exact found

theorem between_iff {manifest : Manifest} {lead : Bytes} {ordinal : Nat}
    (inside : ordinal < manifest.paths.length)
    : manifest.searched.partitionPoint (fun entry => entry.path < lead ++ [slash]) ≤ ordinal
        ∧ ordinal
          < manifest.searched.partitionPoint (fun entry => entry.path < lead ++ [slash + 1])
      ↔ lead ++ [slash] <+: manifest.paths[ordinal].path := by
  rw [← Nat.not_lt, lt_partitionPoint inside, lt_partitionPoint inside,
    prefix_iff_between (by decide), List.not_lt]

theorem scope_le (manifest : Manifest) (scope : Bytes)
    : (manifest.scope scope).2 ≤ manifest.paths.length := by
  obtain ⟨lead, sep, upper, _⟩ := withSep_spec scope
  have bounded := partitionPoint_le manifest (lead ++ [slash + 1])
  rw [Manifest.scope, Index.Manifest.scope]
  split
  · simp [Manifest.searched]
  · simp only [sep, upper]
    split
    · split
      · rename_i exact
        obtain ⟨entry, found, _⟩ := Option.map_eq_some_iff.mp exact
        have inside := (List.getElem?_eq_some_iff.mp found).1
        simpa [Manifest.searched] using inside
      · exact bounded
    · exact bounded

/-- Where no path is a directory of another, the range of a scope holds exactly the ordinals of the
paths inside it. Witness: between the partition points lie the paths that begin with the scope and
a slash, so where a path is the scope itself they enclose nothing.
-/
theorem scope_spec {manifest : Manifest}
    (flat
      : ∀ a ∈ manifest.paths, ∀ b ∈ manifest.paths, ¬a.path ++ [slash] <+: b.path)
    (scope : Bytes) {ordinal : Nat} (inside : ordinal < manifest.paths.length)
    : (manifest.scope scope).1 ≤ ordinal ∧ ordinal < (manifest.scope scope).2
      ↔ withinScope manifest.paths[ordinal].path scope = true := by
  obtain ⟨lead, sep, upper, shape⟩ := withSep_spec scope
  have own := List.getElem_mem inside
  have accepted
      : withinScope manifest.paths[ordinal].path scope = true
        ↔ scope = []
          ∨ manifest.paths[ordinal].path = scope
          ∨ lead ++ [slash] <+: manifest.paths[ordinal].path := by
    simp [withinScope, sep, or_assoc]
  rw [accepted, Manifest.scope, Index.Manifest.scope]
  by_cases whole : scope = []
  · rw [if_pos whole]
    simpa [whole, Manifest.searched] using inside
  · rw [if_neg whole, or_iff_right whole]
    simp only [sep, upper]
    have between := @between_iff manifest lead
    by_cases none_
        : manifest.searched.partitionPoint (fun entry => entry.path < lead ++ [slash])
          ≥ manifest.searched.partitionPoint (fun entry => entry.path < lead ++ [slash + 1])
    · rw [if_pos none_]
      have outside : ¬lead ++ [slash] <+: manifest.paths[ordinal].path := by
        rw [← between inside]
        omega
      rw [or_iff_left outside, exists_at_partitionPoint inside]
      split
      · rename_i exact
        rw [and_iff_right exact]
        simp only
        omega
      · rename_i absent
        refine iff_of_false ?_ (fun both => absent both.1)
        simp only
        omega
    · rw [if_neg none_]
      simp only
      rw [between inside, eq_comm]
      -- A path under the scope leaves no room for one that is the scope.
      have some_ := Nat.lt_of_not_le none_
      have bounded := partitionPoint_le manifest (lead ++ [slash + 1])
      have under := (between (Nat.lt_of_lt_of_le some_ bounded)).mp ⟨Nat.le_refl _, some_⟩
      constructor
      · exact .inr
      · rintro (same | begins)
        · rcases shape with here | deeper
          · have apart := flat _ own _
              (List.getElem_mem (Nat.lt_of_lt_of_le some_ bounded))
            rw [← same, here] at apart
            exact absurd under apart
          · rw [← same, deeper]
        · exact begins

-- Manifests

/-- A built manifest reads back from its bytes with all that is derived of it. Deltas give what
building from the amended entries gives. In every manifest the paths ascend, the members are the
keys of the paths and, where an ordinal's 32 bits suffice, the ordinals of a key are those of its
paths in order. Where no path is a directory of another, a scope's range is what a client draws.
-/
theorem manifests_faithful {digests : Digests}
    (sized : ∀ bytes, (digests.sha256 bytes).length = 32)
    : (∀ (commit : ObjectId) (entries : List PathEntry),
        commit.Sized
        → (∀ entry ∈ entries, entry.Fits)
        → entries.length < 2 ^ 64
        → decode digests ((Manifest.build commit entries).encode digests)
          = .ok (Manifest.build commit entries).whole)
      ∧ (∀ (manifest : Manifest) (commit : ObjectId) (deltas : List ManifestDelta),
          manifest.apply commit deltas
          = Manifest.build commit (deltas.foldl amend manifest.paths))
      ∧ (∀ manifest : Manifest,
          manifest.whole.paths = manifest.paths
          ∧ manifest.paths.Pairwise (fun a b => a.path < b.path)
          ∧ (∀ key,
              key ∈ manifest.whole.members ↔ ∃ entry ∈ manifest.paths, entry.key = key)
          ∧ (manifest.paths.length ≤ 2 ^ 32
              → ∀ key,
                  (manifest.whole.pathsForKey key).Pairwise (· < ·)
                  ∧ ∀ ordinal,
                      ordinal ∈ manifest.whole.pathsForKey key
                      ↔ ∃ entry, manifest.paths[ordinal]? = some entry ∧ entry.key = key))
      ∧ (∀ manifest : Manifest,
          (∀ a ∈ manifest.paths, ∀ b ∈ manifest.paths, ¬a.path ++ [slash] <+: b.path)
          → ∀ scope : Bytes,
              (manifest.scope scope).2 ≤ manifest.paths.length
              ∧ ∀ (ordinal : Nat) (inside : ordinal < manifest.paths.length),
                  (manifest.scope scope).1 ≤ ordinal ∧ ordinal < (manifest.scope scope).2
                  ↔ withinScope manifest.paths[ordinal].path scope = true) := by
  refine ⟨?_, Manifest.apply_eq_build, ?_, ?_⟩
  · intro commit entries commitSized fits counted
    have kept := (dedupByPath_sublist (entries.mergeSort inPathOrder))
    refine decode_encode sized commitSized ?_ ?_
    · exact fun entry member => fits entry (List.mem_mergeSort.mp (kept.subset member))
    · have shorter := kept.length_le
      rw [List.length_mergeSort] at shorter
      exact Nat.lt_of_le_of_lt shorter counted
  · intro manifest
    exact ⟨rfl, manifest.sorted, fun _ => mem_members, fun few key => pathsForKey_spec few key⟩
  · intro manifest flat scope
    exact ⟨scope_le manifest scope, fun _ inside => scope_spec flat scope inside⟩

-- Ordinals beyond 32 bits

/-- Three files, two of them of one blob. -/
def threeFiles : List PathEntry :=
  [⟨[98], 33188, 2⟩, ⟨[97, 47, 98], 33188, 1⟩, ⟨[97, 45], 33188, 2⟩]

def demoDigests : Digests := ⟨fun _ => [], fun _ => List.replicate 32 0⟩

def demoCommit : ObjectId := ⟨.sha1, List.replicate 20 7⟩

/-- Witness: a digest of zeros, and the scopes of three files, none a directory. -/
theorem threeFiles_faithful
    : decode demoDigests ((Manifest.build demoCommit threeFiles).encode demoDigests)
        = .ok (Manifest.build demoCommit threeFiles).whole
      ∧ (Manifest.build demoCommit threeFiles).apply demoCommit [.removed [98]]
        = Manifest.build demoCommit
            (amend (Manifest.build demoCommit threeFiles).paths (.removed [98]))
      ∧ ((Manifest.build demoCommit threeFiles).whole.pathsForKey 2).Pairwise (· < ·)
      ∧ ∀ scope,
          ((Manifest.build demoCommit threeFiles).scope scope).2
          ≤ (Manifest.build demoCommit threeFiles).paths.length := by
  obtain ⟨reads, applies, derived, scopes⟩ := @manifests_faithful demoDigests (fun _ => rfl)
  have listed
      : ∀ {entry}, entry ∈ (Manifest.build demoCommit threeFiles).paths → entry ∈ threeFiles :=
    (Manifest.mem_build (by decide)).mp
  have short := ((dedupByPath_sublist (threeFiles.mergeSort inPathOrder))).length_le
  rw [List.length_mergeSort] at short
  refine ⟨reads _ _ rfl ?_ (by decide), applies _ _ _, ?_, fun scope => (scopes _ ?_ scope).1⟩
  · have numbers : ∀ entry ∈ threeFiles, entry.mode < 2 ^ 32 ∧ entry.key < 2 ^ 32 := by decide
    have paths : ∀ entry ∈ threeFiles, entry.path.length < 2 ^ 64 := by decide
    intro entry member
    exact ⟨(numbers entry member).1, (numbers entry member).2, paths entry member⟩
  · exact ((derived _).2.2.2 (Nat.le_trans short (by decide)) 2).1
  · intro a first b second
    have apart : ∀ a ∈ threeFiles, ∀ b ∈ threeFiles, ¬a.path ++ [slash] <+: b.path := by decide
    exact apart a (listed first) b (listed second)

/-- Files of one blob, as many as wanted. -/
def filesOfOneBlob (count : Nat) : List PathEntry :=
  (List.range count).map (fun i => ⟨putVarint i, Mode.regular, 7⟩)

theorem filesOfOneBlob_agree (count : Nat)
    : ∀ a ∈ filesOfOneBlob count, ∀ b ∈ filesOfOneBlob count, a.path = b.path → a = b := by
  intro a first b second same
  obtain ⟨i, _, rfl⟩ := List.mem_map.mp first
  obtain ⟨j, _, rfl⟩ := List.mem_map.mp second
  rw [Varints.put_injective same]

theorem length_build_filesOfOneBlob (commit : ObjectId) (count : Nat)
    : (Manifest.build commit (filesOfOneBlob count)).paths.length = count := by
  have distinct : (filesOfOneBlob count).Nodup := by
    refine List.nodup_range.map fun i j same => ?_
    exact Varints.put_injective (congrArg PathEntry.path same)
  have distinct' : (Manifest.build commit (filesOfOneBlob count)).paths.Nodup :=
    (Manifest.build commit (filesOfOneBlob count)).sorted.imp fun less equal => by
      rw [equal] at less
      exact List.lt_irrefl _ less
  have perm := (List.perm_ext_iff_of_nodup distinct' distinct).mpr fun _ =>
    Manifest.mem_build (filesOfOneBlob_agree count)
  rw [perm.length_eq, filesOfOneBlob, List.length_map, List.length_range]

/-- The last of `2 ^ 32 + 1` files of a blob is listed under the ordinal of the first. -/
theorem ordinals_wrap
    : ¬∀ (commit : ObjectId) (entries : List PathEntry),
        commit.Sized
        → (∀ entry ∈ entries, entry.Fits)
        → entries.length < 2 ^ 64
        → ∀ key ordinal,
            ordinal ∈ (Manifest.build commit entries).whole.pathsForKey key
            ↔ ∃ entry,
                (Manifest.build commit entries).paths[ordinal]? = some entry
                ∧ entry.key = key := by
  intro claim
  obtain ⟨count, many⟩ : ∃ count, count = 2 ^ 32 + 1 := ⟨_, rfl⟩
  have length := length_build_filesOfOneBlob demoCommit count
  have fits : ∀ entry ∈ filesOfOneBlob count, entry.Fits := by
    intro entry member
    obtain ⟨i, small, rfl⟩ := List.mem_map.mp member
    have short := Varints.length_put_le i
    have below := List.mem_range.mp small
    have mode : Mode.regular < 2 ^ 32 := by decide
    have key : 7 < 2 ^ 32 := by decide
    refine ⟨mode, key, ?_⟩
    change (Varints.put i).length < 2 ^ 64
    omega
  have counted : (filesOfOneBlob count).length < 2 ^ 64 := by
    rw [filesOfOneBlob, List.length_map, List.length_range]
    omega
  have inside : 2 ^ 32 < (Manifest.build demoCommit (filesOfOneBlob count)).paths.length := by omega
  have last := (claim demoCommit (filesOfOneBlob count) rfl fits counted 7 (2 ^ 32)).mpr
  have member := (Manifest.mem_build (filesOfOneBlob_agree count)).mp (List.getElem_mem inside)
  obtain ⟨i, _, same⟩ := List.mem_map.mp member
  have listed := last ⟨_, List.getElem?_eq_getElem inside, by rw [← same]⟩
  rw [Manifest.whole, pathsForKey_fromSorted] at listed
  obtain ⟨row, _, wrapped⟩ := List.mem_map.mp listed
  have small := Nat.mod_lt row.2 (show 2 ^ 32 > 0 by decide)
  omega

end Gfs.Search.Manifests
