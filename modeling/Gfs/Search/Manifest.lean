import Gfs.Git.Walk
import Gfs.Lib.Overwrites
import Gfs.Search.Query

/-! The path table of a snapshot (`gfs-search/src/manifest.rs`): building it from the entries of a
walk, and from a parent's table and a delta. The ways into it by blob key follow from the table.
-/

namespace Gfs.Search.Manifests

open Gfs.Types
open Gfs.Search.Index (BlobKey)
open Gfs.Lib.Overwrites
open Std (ExtTreeMap)

/-- One searchable file in a snapshot. -/
structure PathEntry where
  path : BytePath
  mode : Nat
  key : BlobKey
  deriving DecidableEq, Repr

/-- One commit's searchable contents, sorted by path bytes. -/
structure Manifest where
  commit : ObjectId
  paths : List PathEntry
  sorted : paths.Pairwise (fun a b => a.path < b.path)

/-- What happened to one path between two commits. -/
inductive ManifestDelta where
  | upserted (path : BytePath) (mode : Nat) (key : BlobKey)
  | removed (path : BytePath)
  deriving DecidableEq, Repr

-- The order of paths

theorem compare_eq_lt_iff {a b : Bytes} : compare a b = .lt ↔ a < b := by
  induction a generalizing b with
  | nil => cases b <;> simp
  | cons x xs ih =>
      cases b with
      | nil => simp
      | cons y ys =>
          rw [List.compare_cons_cons, Ordering.then_eq_lt, ih, List.cons_lt_cons_iff,
            Std.compare_eq_lt, Std.compare_eq_eq_iff_eq]

-- Building from entries

/-- The order of the paths. -/
def inPathOrder (a b : PathEntry) : Bool :=
  decide (a.path ≤ b.path)

/-- `Vec::dedup_by` of equal paths: the first of neighbours stays. -/
def dedupByPath : List PathEntry → List PathEntry
  | [] => []
  | [entry] => [entry]
  | entry :: next :: rest =>
      if entry.path = next.path then dedupByPath (entry :: rest)
      else entry :: dedupByPath (next :: rest)
termination_by entries => entries.length

theorem dedupByPath_sublist (entries : List PathEntry)
    : (dedupByPath entries).Sublist entries := by
  fun_induction dedupByPath entries with
  | case1 => exact List.Sublist.refl _
  | case2 => exact List.Sublist.refl _
  | case3 entry next rest same ih =>
      exact ih.trans ((List.sublist_cons_self next rest).cons_cons entry)
  | case4 entry next rest apart ih => exact ih.cons_cons entry

/-- Every path is still there once neighbours are merged. -/
theorem exists_mem_dedupByPath (entries : List PathEntry)
    : ∀ entry ∈ entries, ∃ kept ∈ dedupByPath entries, kept.path = entry.path := by
  fun_induction dedupByPath entries with
  | case1 =>
      intro entry member
      cases member
  | case2 only => exact fun entry member => ⟨entry, member, rfl⟩
  | case3 first next rest same ih =>
      intro entry member
      rcases List.mem_cons.mp member with rfl | later
      · exact ih entry List.mem_cons_self
      · rcases List.mem_cons.mp later with rfl | later
        · obtain ⟨kept, listed, named⟩ := ih first List.mem_cons_self
          exact ⟨kept, listed, named.trans same⟩
        · exact ih entry (List.mem_cons_of_mem _ later)
  | case4 first next rest apart ih =>
      intro entry member
      rcases List.mem_cons.mp member with rfl | later
      · exact ⟨entry, List.mem_cons_self, rfl⟩
      · obtain ⟨kept, listed, named⟩ := ih entry later
        exact ⟨kept, List.mem_cons_of_mem _ listed, named⟩

theorem dedupByPath_sorted (entries : List PathEntry)
    (sorted : entries.Pairwise (fun a b => a.path ≤ b.path))
    : (dedupByPath entries).Pairwise (fun a b => a.path < b.path) := by
  fun_induction dedupByPath entries with
  | case1 => exact .nil
  | case2 only => exact List.pairwise_singleton _ _
  | case3 first next rest same ih =>
      exact ih (sorted.sublist ((List.sublist_cons_self next rest).cons_cons first))
  | case4 first next rest apart ih =>
      obtain ⟨before, later⟩ := List.pairwise_cons.mp sorted
      refine List.pairwise_cons.mpr ⟨?_, ih later⟩
      intro entry member
      have listed := (dedupByPath_sublist (next :: rest)).subset member
      have below : first.path < next.path :=
        Std.lt_of_le_of_ne (before next List.mem_cons_self) apart
      rcases List.mem_cons.mp listed with rfl | deeper
      · exact below
      · exact Std.lt_of_lt_of_le below ((List.pairwise_cons.mp later).1 entry deeper)

namespace Manifest

/-- Build from an unordered set of entries. -/
def build (commit : ObjectId) (entries : List PathEntry) : Manifest where
  commit
  paths := dedupByPath (entries.mergeSort inPathOrder)
  sorted := by
    refine dedupByPath_sorted _ ((List.pairwise_mergeSort ?_ ?_ entries).imp of_decide_eq_true)
    · exact fun a b c first second =>
        decide_eq_true (List.le_trans (of_decide_eq_true first) (of_decide_eq_true second))
    · intro a b
      rcases List.le_total a.path b.path with le | le
      · simp [le]
      · simp [le]

theorem mem_build {commit : ObjectId} {entries : List PathEntry}
    (agree : ∀ a ∈ entries, ∀ b ∈ entries, a.path = b.path → a = b) {entry : PathEntry}
    : entry ∈ (build commit entries).paths ↔ entry ∈ entries := by
  have listed : ∀ {kept}, kept ∈ (build commit entries).paths → kept ∈ entries :=
    fun member => List.mem_mergeSort.mp ((dedupByPath_sublist _).subset member)
  refine ⟨listed, ?_⟩
  intro member
  obtain ⟨kept, present, named⟩ :=
    exists_mem_dedupByPath (entries.mergeSort inPathOrder) entry (List.mem_mergeSort.mpr member)
  rwa [← agree kept (listed present) entry member named]

-- Applying a delta

/-- The table as a map. -/
def table (manifest : Manifest) : ExtTreeMap BytePath (Nat × BlobKey) :=
  manifest.paths.foldl (fun table entry => table.insert entry.path (entry.mode, entry.key)) ∅

/-- What a delta does to the table. -/
def applyDelta (table : ExtTreeMap BytePath (Nat × BlobKey))
    : ManifestDelta → ExtTreeMap BytePath (Nat × BlobKey)
  | .removed path => table.erase path
  | .upserted path mode key => table.insert path (mode, key)

/-- Apply a first-parent delta, producing the child's manifest. -/
def apply (manifest : Manifest) (commit : ObjectId) (deltas : List ManifestDelta) : Manifest where
  commit
  paths := (deltas.foldl applyDelta manifest.table).toList.map
    (fun row => ⟨row.1, row.2.1, row.2.2⟩)
  sorted := by
    rw [List.pairwise_map]
    exact ExtTreeMap.ordered_keys_toList.imp compare_eq_lt_iff.mp

/-- The mode and the key of a path. -/
def find (manifest : Manifest) (path : BytePath) : Option (Nat × BlobKey) :=
  (manifest.paths.find? (fun entry => entry.path = path)).map (fun entry => (entry.mode, entry.key))

/-- A path is listed once. -/
theorem find_eq_some {manifest : Manifest} {path : BytePath} {mode : Nat} {key : BlobKey}
    : manifest.find path = some (mode, key) ↔ ⟨path, mode, key⟩ ∈ manifest.paths := by
  have unique : (manifest.paths.map PathEntry.path).Nodup :=
    List.pairwise_map.mpr (manifest.sorted.imp (fun less same => by
      rw [same] at less
      exact List.lt_irrefl _ less))
  rw [find, Option.map_eq_some_iff]
  constructor
  · rintro ⟨entry, found, same⟩
    have named : entry.path = path := by simpa using List.find?_some found
    cases same
    exact named ▸ List.mem_of_find?_eq_some found
  · intro member
    cases found : manifest.paths.find? (fun entry => entry.path = path) with
    | none =>
        have absent := List.find?_eq_none.mp found _ member
        simp at absent
    | some entry =>
        have named : entry.path = path := by simpa using List.find?_some found
        have same := List.inj_on_of_nodup_map unique (List.mem_of_find?_eq_some found) member named
        exact ⟨entry, rfl, by rw [same]⟩

/-- A delta as a write to the table. -/
def write : ManifestDelta → BytePath × Option (Nat × BlobKey)
  | .removed path => (path, none)
  | .upserted path mode key => (path, some (mode, key))

theorem foldl_applyDelta (table : ExtTreeMap BytePath (Nat × BlobKey))
    (deltas : List ManifestDelta)
    : deltas.foldl applyDelta table = overwrite table (deltas.map write) := by
  rw [overwrite, List.foldl_map]
  congr 1
  funext table delta
  cases delta <;> rfl

theorem getElem?_table (manifest : Manifest) (path : BytePath)
    : manifest.table[path]? = manifest.find path := by
  have writes
      : manifest.table
        = overwrite ∅
            (manifest.paths.map (fun entry => (entry.path, some (entry.mode, entry.key)))) := by
    rw [overwrite, List.foldl_map]
    rfl
  rw [writes, getElem?_overwrite]
  cases last : lastWrite path
      (manifest.paths.map (fun entry => (entry.path, some (entry.mode, entry.key)))) with
  | none =>
      rw [Option.getD_none, ExtTreeMap.getElem?_empty]
      cases found : manifest.find path with
      | none => rfl
      | some value =>
          have member :=
            find_eq_some.mp (show manifest.find path = some (value.1, value.2) from found)
          obtain ⟨written, exists_⟩ := exists_lastWrite
            (List.mem_map_of_mem
              (f := fun entry : PathEntry => (entry.path, some (entry.mode, entry.key))) member)
          rw [last] at exists_
          cases exists_
  | some written =>
      obtain ⟨entry, member, same⟩ := List.mem_map.mp (mem_of_lastWrite last)
      cases same
      exact (find_eq_some.mpr member).symm

theorem find_apply (manifest : Manifest) (commit : ObjectId) (deltas : List ManifestDelta)
    (path : BytePath)
    : (manifest.apply commit deltas).find path
      = (lastWrite path (deltas.map write)).getD (manifest.find path) := by
  have read : ∀ found : Nat × BlobKey,
      (manifest.apply commit deltas).find path = some found
        ↔ (deltas.foldl applyDelta manifest.table)[path]? = some found := by
    intro found
    rw [find_eq_some, apply, List.mem_map, ← ExtTreeMap.mem_toList_iff_getElem?_eq_some]
    constructor
    · rintro ⟨⟨row, mode, key⟩, member, same⟩
      cases same
      exact member
    · exact fun member => ⟨_, member, rfl⟩
  rw [Option.ext fun found => read found, foldl_applyDelta, getElem?_overwrite, getElem?_table]

end Manifest

end Gfs.Search.Manifests
