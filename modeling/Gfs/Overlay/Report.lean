import Gfs.Lib.Mapped
import Gfs.Overlay.Status

/-! What status reports, row by row: over sound rows it never fails, and its two lists are
read off the rows.
-/

namespace Gfs.Overlay

open Gfs.Types
open Std (ExtTreeMap ExtTreeSet)

variable {digests : Digests} {base : BaseTree} {overlay : Overlay}

/-- The object id of what a row holds, where it can be computed. -/
def Core.oid (digests : Digests) (core : Core) (entry : OverlayEntry) : ObjectId :=
  match entry.content with
  | .base oid => oid
  | .local id =>
      ⟨.sha1, digests.sha1 (blobFrame entry.size ++ core.files[id]?.getD [])⟩
  | .none =>
      ⟨.sha1, digests.sha1 (blobFrame (entry.symlinkTarget.getD []).length
        ++ entry.symlinkTarget.getD [])⟩

/-- What one row reports. -/
def Core.reported (digests : Digests) (core : Core) (entry : OverlayEntry)
    : Option StatusChange :=
  if !entry.present then absentChange (renamedAway core.rows) entry
  else if entry.kind.isDir then none
  else presentChange core.rows entry (core.oid digests entry)

-- Hashing

variable {entry : OverlayEntry}

theorem hashAlgorithm_eq {core : Core} (sound : Sound digests base core) {path : BytePath}
    (found : core.rows[path]? = some entry)
    : Overlay.hashAlgorithm .sha1 entry = .sha1 := by
  unfold Overlay.hashAlgorithm
  rcases sound.facts path entry found with unknown | known
  · rw [unknown]
    rfl
  · rw [known]
    unfold BaseTree.facts
    cases base.get path <;> simp [BaseTree.factsOfNode, BaseTree.oidOfNode]

theorem workspaceOid_eq (sound : Sound digests base overlay.core) {path : BytePath}
    (found : overlay.entries[path]? = some entry)
    : overlay.workspaceOid digests entry .sha1 = .ok (overlay.core.oid digests entry) := by
  unfold Overlay.workspaceOid Core.oid Overlay.openContent
  cases content : entry.content with
  | none => rfl
  | base oid => rfl
  | «local» id =>
      obtain ⟨file, stored⟩ :=
        Option.isSome_iff_exists.mp (sound.held path entry id found content).1
      have held : overlay.files[id]? = some file := stored
      simp [Content.localId, held, Digests.blobOidOfFile, Overlay.core]

theorem statusOfRow_eq (sound : Sound digests base overlay.core) {path : BytePath}
    (found : overlay.entries[path]? = some entry)
    : overlay.statusOfRow digests .sha1 (renamedAway overlay.entries) entry
      = .ok (overlay.core.reported digests entry) := by
  unfold Overlay.statusOfRow Core.reported
  split
  · rfl
  · split
    · rfl
    · rw [hashAlgorithm_eq sound (by exact found), workspaceOid_eq sound found]
      rfl

-- The directories without a record

/-- In path order, the first row that is not before `dir/` is under the directory exactly when
some row is.
-/
theorem find_under {rows : Rows} (keyed : Keyed rows) (dir : BytePath)
    : (((rows.toList.map Prod.snd).find? (fun other =>
          compare other.path (dir ++ [slash]) != .lt)).any
        (fun other => (dir ++ [slash]).isPrefixOf other.path)) = true
      ↔ ∃ (rel : BytePath) (entry : OverlayEntry), rows[dir ++ slash :: rel]? = some entry := by
  have listed {entry : OverlayEntry}
      : entry ∈ rows.toList.map Prod.snd ↔ rows[entry.path]? = some entry := by
    simp only [List.mem_map, Prod.exists, exists_eq_right,
      ExtTreeMap.mem_toList_iff_getElem?_eq_some]
    constructor
    · intro held
      obtain ⟨path, found⟩ := held
      rw [(keyed path entry found).1]
      exact found
    · exact fun found => ⟨entry.path, found⟩
  constructor
  · intro first
    obtain ⟨entry, found, begins⟩ := (Option.any_eq_true _ _).mp first
    obtain ⟨rel, path⟩ := List.isPrefixOf_iff_prefix.mp begins
    refine ⟨rel, entry, ?_⟩
    have held := listed.mp (List.mem_of_find?_eq_some found)
    rw [← path] at held
    simpa using held
  · intro there
    obtain ⟨rel, row, found⟩ := there
    have own := (keyed _ row found).1
    have member : row ∈ rows.toList.map Prod.snd := listed.mpr (own ▸ found)
    have after : compare row.path (dir ++ [slash]) ≠ .lt := by
      have range := ((compare_range dir row.path).mpr ⟨rel, own⟩).1
      intro before
      rw [Std.OrientedCmp.gt_of_lt before] at range
      cases range
    rw [Option.any_eq_true]
    cases first : (rows.toList.map Prod.snd).find? (fun other =>
        compare other.path (dir ++ [slash]) != .lt) with
    | none =>
        have missed := List.find?_eq_none.mp first row member
        simp [after] at missed
    | some entry =>
        refine ⟨entry, rfl, ?_⟩
        have notBefore := List.find?_some first
        simp only [bne_iff_ne, ne_eq] at notBefore
        have low : (compare (dir ++ [slash]) entry.path).isLE = true := by
          cases order : compare entry.path (dir ++ [slash]) with
          | lt => exact absurd order notBefore
          | eq =>
              have self : compare (dir ++ [slash]) (dir ++ [slash]) = .eq :=
                Std.ReflCmp.compare_self
              rw [Std.LawfulEqCmp.eq_of_compare order, self]
              rfl
          | gt =>
              rw [Std.OrientedCmp.lt_of_gt order]
              rfl
        -- The first such row is no later than the row that is there.
        have high : compare entry.path (dir ++ [slash + 1]) = .lt := by
          have bound := ((compare_range dir row.path).mpr ⟨rel, own⟩).2
          obtain ⟨before, after', split, earlier⟩ := List.find?_eq_some_iff_append.mp first |>.2
          have ordered : (rows.toList.map Prod.snd).Pairwise
              (fun a b => compare a.path b.path = .lt) := by
            rw [List.pairwise_map]
            refine ExtTreeMap.ordered_keys_toList.imp_of_mem ?_
            intro a b left right less
            have leftOwn := (keyed a.1 a.2
              (ExtTreeMap.mem_toList_iff_getElem?_eq_some.mp left)).1
            have rightOwn := (keyed b.1 b.2
              (ExtTreeMap.mem_toList_iff_getElem?_eq_some.mp right)).1
            rw [leftOwn, rightOwn]
            exact less
          rw [split] at member ordered
          rcases List.mem_append.mp member with early | late
          · have passed := earlier row early
            simp [after] at passed
          · rcases List.mem_cons.mp late with rfl | later
            · exact bound
            · have less := (List.pairwise_cons.mp
                (List.pairwise_append.mp ordered).2.1).1 row later
              exact Std.TransCmp.lt_trans less bound
        obtain ⟨rest, path⟩ := (compare_range dir entry.path).mp ⟨low, high⟩
        rw [List.isPrefixOf_iff_prefix, path]
        exact ⟨rest, by simp⟩

-- The whole report

/-- What a row reports is at the row's own path. -/
theorem Core.reported_path {core : Core} {change : StatusChange}
    (reports : core.reported digests entry = some change)
    : change.path = entry.path := by
  unfold Core.reported at reports
  split at reports
  · unfold absentChange at reports
    cases known : entry.base with
    | none => simp [known] at reports
    | some facts =>
        simp only [known] at reports
        split at reports
        · cases reports
        · split at reports
          · cases reports
          · cases reports
            rfl
  · split at reports
    · cases reports
    · unfold presentChange at reports
      simp only at reports
      split at reports
      · cases reports
        rfl
      · split at reports
        · cases reports
          rfl
        · obtain ⟨kind, -, rfl⟩ := Option.map_eq_some_iff.mp reports
          rfl

/-- The report of a status over sound rows: every row's own change, and the whiteouts of base
directories with no row under them; no path twice.
-/
structure Reports (digests : Digests) (core : Core) (status : Status) : Prop where
  changes
    : ∀ change, change ∈ status.changes
        ↔ ∃ (path : BytePath) (entry : OverlayEntry),
            core.rows[path]? = some entry ∧ core.reported digests entry = some change
  directories
    : ∀ dir, dir ∈ status.directoryDeletions
        ↔ ∃ entry : OverlayEntry,
            core.rows[dir]? = some entry
            ∧ entry.present = false
            ∧ entry.base.any (·.kind.isDirLike) = true
            ∧ ∀ rel : BytePath, core.rows[dir ++ slash :: rel]? = none
  once : (status.changes.map StatusChange.path).Nodup
  onceDirectory : status.directoryDeletions.Nodup

theorem status_spec (sound : Sound digests base overlay.core)
    : ∃ status, overlay.status digests .sha1 = .ok status
        ∧ Reports digests overlay.core status := by
  let rows := overlay.entries.toList.map Prod.snd
  have listed {entry : OverlayEntry}
      : entry ∈ rows ↔ ∃ path : BytePath, overlay.entries[path]? = some entry := by
    simp only [rows, List.mem_map, Prod.exists, exists_eq_right,
      ExtTreeMap.mem_toList_iff_getElem?_eq_some]
  have rowsOnce : (rows.map OverlayEntry.path).Nodup := by
    have keys : rows.map OverlayEntry.path = overlay.entries.keys := by
      rw [← ExtTreeMap.map_fst_toList_eq_keys]
      simp only [rows, List.map_map]
      refine List.map_congr_left ?_
      intro row member
      exact (sound.keyed row.1 row.2
        (ExtTreeMap.mem_toList_iff_getElem?_eq_some.mp member)).1
    rw [keys]
    exact ExtTreeMap.nodup_keys
  have computed
      : rows.mapM (overlay.statusOfRow digests .sha1 (renamedAway overlay.entries))
        = .ok (rows.map (overlay.core.reported digests)) := by
    refine Lib.Mapped.mapM_eq_map ?_
    intro entry member
    obtain ⟨path, found⟩ := listed.mp member
    exact statusOfRow_eq sound found
  refine ⟨_, by
    unfold Overlay.status
    simp only [show overlay.entries.toList.map Prod.snd = rows from rfl, computed]
    rfl, ?_, ?_, ?_, ?_⟩
  · intro change
    simp only [List.mem_insertionSort, List.mem_filterMap, List.mem_map, id_eq]
    constructor
    · intro reported
      obtain ⟨_, ⟨entry, member, rfl⟩, same⟩ := reported
      obtain ⟨path, found⟩ := listed.mp member
      exact ⟨path, entry, found, same⟩
    · intro there
      obtain ⟨path, entry, found, same⟩ := there
      exact ⟨_, ⟨entry, listed.mpr ⟨path, found⟩, rfl⟩, same⟩
  · intro dir
    simp only [List.mem_insertionSort, List.mem_map, List.mem_filter, isUnrecorded,
      Bool.and_eq_true, Bool.not_eq_true', listed]
    constructor
    · intro reported
      obtain ⟨entry, ⟨⟨path, found⟩, ⟨absent, isDir⟩, none_⟩, rfl⟩ := reported
      have own := (sound.keyed path entry found).1
      refine ⟨entry, by rw [own]; exact found, absent, isDir, ?_⟩
      intro rel
      cases there : overlay.core.rows[entry.path ++ slash :: rel]? with
      | none => rfl
      | some row =>
          have under := (find_under sound.keyed entry.path).mpr ⟨rel, row, there⟩
          rw [show overlay.core.rows.toList.map Prod.snd = rows from rfl, none_] at under
          cases under
    · intro there
      obtain ⟨entry, found, absent, isDir, bare⟩ := there
      have own := (sound.keyed dir entry found).1
      refine ⟨entry, ⟨⟨dir, found⟩, ⟨absent, isDir⟩, ?_⟩, own⟩
      cases under : (rows.find? (fun other =>
          compare other.path (entry.path ++ [slash]) != .lt)).any
          (fun other => (entry.path ++ [slash]).isPrefixOf other.path) with
      | false => rfl
      | true =>
          obtain ⟨rel, row, held⟩ := (find_under sound.keyed entry.path).mp under
          rw [own, bare rel] at held
          cases held
  · have perm := List.perm_insertionSort
      (fun left right : StatusChange => pathLE left.path right.path = true)
      ((rows.map (overlay.core.reported digests)).filterMap id)
    refine (perm.map StatusChange.path).nodup_iff.mpr ?_
    rw [List.filterMap_map, List.map_filterMap]
    have paths : rows.filterMap (fun entry =>
          Option.map StatusChange.path ((id ∘ overlay.core.reported digests) entry))
        = (rows.filter (fun entry => (overlay.core.reported digests entry).isSome)).map
            OverlayEntry.path := by
      clear computed rowsOnce listed
      induction rows with
      | nil => rfl
      | cons entry rest ih =>
          rw [List.filterMap_cons, List.filter_cons]
          cases reported : overlay.core.reported digests entry with
          | none => simpa [reported] using ih
          | some change => simpa [reported, Core.reported_path reported] using ih
    rw [paths]
    exact rowsOnce.sublist (List.filter_sublist.map _)
  · have perm := List.perm_insertionSort (fun left right => pathLE left right = true)
      ((rows.filter (isUnrecorded rows)).map OverlayEntry.path)
    refine perm.nodup_iff.mpr ?_
    exact rowsOnce.sublist (List.filter_sublist.map _)

end Gfs.Overlay
