import Gfs.Overlay.Balance

/-! Building the indexes from rows. A re-pin enters the rows it keeps into cleared indexes, and
opening enters the rows the journal holds, each read back from its content file.
-/

namespace Gfs.Overlay

open Gfs.Types
open Gfs.Lib.Overwrites
open Std (ExtTreeMap ExtTreeSet)

section Rebuilding

variable {overlay : Overlay}

-- Rebinding

/-- Two rows that can stand side by side. -/
def Apart (left right : OverlayEntry) : Prop :=
  left.path ≠ right.path ∧ ∀ id, left.content = .local id → right.content ≠ .local id

instance Apart.symm : Std.Symm Apart :=
  ⟨fun _ _ apart => ⟨apart.1.symm, fun id mine yours => apart.2 id yours mine⟩⟩

/-- A row whose content an overlay has given out, on something that can have content. -/
def Rightful (overlay : Overlay) (entry : OverlayEntry) : Prop :=
  ∀ id, entry.content = .local id → id < overlay.nextContentId ∧ entry.kind.isDir = false

variable {kept loaded rows : List OverlayEntry} {entry : OverlayEntry} {journaled : Rows}
  {recovery : Recovery} {files : ExtTreeMap Nat Bytes compare}

/-- Rows entered into cleared indexes one by one leave them tidy. -/
theorem Tidy.keepRows (tidy : Tidy none overlay) (apart : kept.Pairwise Apart)
    (rightful : ∀ entry ∈ kept, Rightful overlay entry)
    (fresh
      : ∀ entry ∈ kept,
          overlay.entries[entry.path]? = none
          ∧ ∀ (id : Nat) (path : BytePath),
              entry.content = .local id → ¬ Holds overlay.entries path id)
    : Tidy none (kept.foldl Overlay.keepRow overlay)
      ∧ (kept.foldl Overlay.keepRow overlay).entries
        = overwrite overlay.entries (kept.map (Change.write ∘ Change.put)) := by
  induction kept generalizing overlay with
  | nil => exact ⟨tidy, rfl⟩
  | cons entry kept ih =>
      obtain ⟨unused, unheld⟩ := fresh entry (by simp)
      have fits : (Change.put entry).Fits overlay := by
        intro id content
        obtain ⟨issued, leaf⟩ := rightful entry (by simp) id content
        refine ⟨issued, leaf, fun path owned => ?_⟩
        exact absurd ((tidy.exact id path).mp owned).2 (unheld id path content)
      have same : SameRows (overlay.applyChange true (.put entry)) (overlay.keepRow entry) := by
        refine ⟨rfl, ?_, Nat.le_refl _⟩
        simp only [Overlay.keepRow, Overlay.applyChange, Overlay.recordContent, unused]
        cases entry.content <;> rfl
      have kept' := (tidy.applyChange fits).congr same
      obtain ⟨first, later⟩ := List.pairwise_cons.mp apart
      have found (path : BytePath) (other : path ≠ entry.path)
          : (overlay.keepRow entry).entries[path]? = overlay.entries[path]? := by
        simp [Overlay.keepRow, ExtTreeMap.getElem?_insert, Ne.symm other]
      have here : (overlay.keepRow entry).entries[entry.path]? = some entry := by
        simp [Overlay.keepRow]
      obtain ⟨done, rows⟩ := ih kept' later (fun other member => rightful other (by simp [member]))
        (by
          intro other member
          obtain ⟨missing, none⟩ := fresh other (by simp [member])
          refine ⟨?_, ?_⟩
          · rw [found _ (Ne.symm (first other member).1)]
            exact missing
          · intro id path content holds
            by_cases own : path = entry.path
            · subst own
              obtain ⟨row, there, held⟩ := holds
              rw [here] at there
              cases there
              exact (first other member).2 id held content
            · exact none id path content ((Holds.congr (found path own)).mp holds))
      exact ⟨done, rows⟩

/-- A kept row stands on its own path, with its own content if with any. -/
theorem keptEntry_spec (tidy : Tidy none overlay) {row : Carried} {kept : OverlayEntry}
    (found : overlay.keptEntry row = some kept)
    : kept.path = row.path
      ∧ ∀ id, kept.content = .local id
          → Holds overlay.entries row.path id ∧ kept.kind.isDir = false := by
  unfold Overlay.keptEntry at found
  obtain ⟨entry, there, made⟩ := Option.map_eq_some_iff.mp found
  have own := tidy.keyed row.path entry there
  have whole (same : kept.path = entry.path ∧ kept.content = entry.content
      ∧ kept.kind = entry.kind)
      : kept.path = row.path
        ∧ ∀ id, kept.content = .local id
            → Holds overlay.entries row.path id ∧ kept.kind.isDir = false := by
    obtain ⟨path, content, kind⟩ := same
    refine ⟨path.trans own, fun id held => ?_⟩
    rw [content] at held
    rw [kind]
    exact ⟨⟨entry, there, held⟩, tidy.leaf there held⟩
  split at made
  · split at made
    · exact whole (by subst made; exact ⟨rfl, rfl, rfl⟩)
    · subst made
      exact ⟨own, fun id content => by cases content⟩
  · exact whole (by subst made; exact ⟨rfl, rfl, rfl⟩)

theorem keptEntry_row {row : Carried} {kept : OverlayEntry}
    (found : overlay.keptEntry row = some kept)
    : ∃ old, overlay.entries[row.path]? = some old ∧ kept.path = old.path
        ∧ kept.ino = old.ino ∧ kept.mtime = old.mtime ∧ kept.ctime = old.ctime := by
  unfold Overlay.keptEntry at found
  obtain ⟨old, there, made⟩ := Option.map_eq_some_iff.mp found
  refine ⟨old, there, ?_⟩
  split at made
  · split at made
    · subst made
      exact ⟨rfl, rfl, rfl, rfl⟩
    · subst made
      exact ⟨rfl, rfl, rfl, rfl⟩
  · subst made
    exact ⟨rfl, rfl, rfl, rfl⟩

/-- Directories made for kept rows take numbers and times, and have no content. -/
theorem madeDirectories_spec (clock : Nat → Timestamp) (overlay : Overlay)
    (directories : List (BytePath × Nat))
    : Poised overlay (Overlay.madeDirectories clock overlay directories).2
      ∧ (Overlay.madeDirectories clock overlay directories).1.map OverlayEntry.path
        = directories.map Prod.fst
      ∧ ∀ made ∈ (Overlay.madeDirectories clock overlay directories).1,
          made.content = .none := by
  induction directories generalizing overlay with
  | nil => exact ⟨.refl overlay, rfl, fun _ member => by cases member⟩
  | cons directory rest ih =>
      obtain ⟨path, ino⟩ := directory
      obtain ⟨poised, paths, blank⟩ :=
        ih (((overlay.adoptIno ino).2).nextTime (clock rest.length)).2
      refine ⟨?_, ?_, ?_⟩
      · exact ((adoptIno_poised overlay ino).trans (nextTime_poised _ _)).trans poised
      · exact congrArg (path :: ·) paths
      · intro made member
        rcases List.mem_cons.mp member with rfl | later
        · rfl
        · exact blank made later

theorem forall₂_of_mapM {α β : Type} {f : α → Option β} {inputs : List α} {outputs : List β}
    (mapped : inputs.mapM f = some outputs)
    : List.Forall₂ (fun input output => f input = some output) inputs outputs := by
  induction inputs generalizing outputs with
  | nil =>
      cases mapped
      exact .nil
  | cons input inputs ih =>
      rw [List.mapM_cons] at mapped
      obtain ⟨output, first, rest⟩ := Option.bind_eq_some_iff.mp mapped
      obtain ⟨others, later, same⟩ := Option.bind_eq_some_iff.mp rest
      cases same
      exact .cons first (ih later)

theorem forall₂_exists_left {α β : Type} {related : α → β → Prop} {left : List α}
    {right : List β} (pairs : List.Forall₂ related left right) {output : β}
    (member : output ∈ right)
    : ∃ input ∈ left, related input output := by
  induction pairs with
  | nil => cases member
  | cons first rest ih =>
      rcases List.mem_cons.mp member with rfl | later
      · exact ⟨_, List.mem_cons_self, first⟩
      · obtain ⟨input, listed, paired⟩ := ih later
        exact ⟨input, List.mem_cons_of_mem _ listed, paired⟩

/-- What a re-pin keeps, or that it is refused with nothing moved. -/
theorem planKept_cases (tidy : Tidy none overlay) (clock : Nat → Timestamp)
    (carry : Option Carry)
    : (∃ condition, overlay.planKept clock carry = (.error condition, overlay))
      ∨ ∃ kept report after,
          overlay.planKept clock carry = (.ok (kept, report), after)
          ∧ Poised overlay after
          ∧ kept.Pairwise Apart
          ∧ ∀ entry ∈ kept, ∀ id, entry.content = .local id
              → Holds overlay.entries entry.path id ∧ entry.kind.isDir = false := by
  cases carry with
  | none =>
      exact Or.inr ⟨[], [], overlay, rfl, .refl overlay, .nil, fun _ member => by cases member⟩
  | some carry =>
      simp only [Overlay.planKept]
      split
      · exact Or.inl ⟨_, rfl⟩
      · split
        · exact Or.inl ⟨_, rfl⟩
        · rename_i kept mapped
          obtain ⟨poised, paths, blank⟩ :=
            madeDirectories_spec clock overlay carry.directories
          have rows := forall₂_of_mapM mapped
          have named : kept.map OverlayEntry.path = carry.rows.map Carried.path := by
            rw [← List.forall₂_eq_eq_eq, List.forall₂_map_left_iff, List.forall₂_map_right_iff]
            exact rows.flip.imp (fun entry row found => (keptEntry_spec tidy found).1)
          have held (entry : OverlayEntry)
              (member
                : entry ∈ kept ++ (Overlay.madeDirectories clock overlay carry.directories).1)
              (id : Nat) (content : entry.content = .local id)
              : Holds overlay.entries entry.path id ∧ entry.kind.isDir = false := by
            rcases List.mem_append.mp member with old | made
            · obtain ⟨row, -, found⟩ := forall₂_exists_left rows old
              obtain ⟨path, holds⟩ := keptEntry_spec tidy found
              rw [path]
              exact holds id content
            · rw [blank entry made] at content
              cases content
          refine Or.inr ⟨_, _, _, rfl, poised, ?_, held⟩
          · have distinct
                : ((kept ++ (Overlay.madeDirectories clock overlay carry.directories).1).map
                    OverlayEntry.path).Nodup := by
              rw [List.map_append, named, paths]
              exact carry.distinct
            rw [List.Nodup, List.pairwise_map] at distinct
            refine distinct.imp_of_mem (fun {left right} here there differ => ⟨differ, ?_⟩)
            intro id mine yours
            exact differ (tidy.owner (by simp) (by simp) (held left here id mine).1
              (held right there id yours).1)

/-- Rows entered into an empty overlay. -/
theorem Tidy.ofRows {kept : List OverlayEntry} (rows : overlay.entries = ∅)
    (index : overlay.byContent = ∅) (apart : kept.Pairwise Apart)
    (rightful : ∀ entry ∈ kept, Rightful overlay entry)
    : Tidy none (kept.foldl Overlay.keepRow overlay)
      ∧ (kept.foldl Overlay.keepRow overlay).entries
        = overwrite ∅ (kept.map (Change.write ∘ Change.put)) := by
  have empty : Tidy none overlay := by
    refine ⟨?_, ?_, ?_, ?_⟩
    · intro path entry found
      simp [rows] at found
    · intro id path
      simp [rows, index, Holds]
    · intro path id holds
      simp [rows, Holds] at holds
    · intro path entry found
      simp [rows] at found
  obtain ⟨tidy, same⟩ := empty.keepRows apart rightful
    (fun entry _ => ⟨by simp [rows], by simp [rows, Holds]⟩)
  rw [rows] at same
  exact ⟨tidy, same⟩

theorem mem_of_written {path : BytePath}
    (written
      : (overwrite ∅ (kept.map (Change.write ∘ Change.put)) : Rows)[path]? = some entry)
    : entry ∈ kept ∧ entry.path = path := by
  rw [getElem?_overwrite] at written
  cases last : lastWrite path (kept.map (Change.write ∘ Change.put)) with
  | none =>
      rw [last] at written
      simp at written
  | some value =>
      rw [last] at written
      obtain ⟨row, member, same⟩ := List.mem_map.mp (mem_of_lastWrite last)
      cases same
      cases written
      exact ⟨member, rfl⟩

theorem Ledger.holds_iff (ledger : Ledger none journaled overlay) {path : BytePath} {id : Nat}
    : Holds journaled path id ↔ Holds overlay.entries path id := by
  rcases ledger.behind path (by simp) with
    equal | ⟨entry, own, size, mtime, ctime, there, content, -, row⟩
  · exact Holds.congr equal
  · unfold Holds
    rw [there, row]
    simp

-- Opening

/-- Rows that stand under their own paths, none with another's content. -/
structure Orderly (rows : Rows) : Prop where
  keyed
    : ∀ (path : BytePath) (entry : OverlayEntry),
        rows[path]? = some entry → entry.path = path
  single
    : ∀ (path other : BytePath) (id : Nat),
        Holds rows path id → Holds rows other id → path = other
  blank
    : ∀ (path : BytePath) (entry : OverlayEntry),
        rows[path]? = some entry → entry.kind.isDir = true → entry.content.localId = none

theorem Tidy.orderly (tidy : Tidy none overlay) : Orderly overlay.entries where
  keyed := tidy.keyed
  single := fun _ _ _ mine yours => tidy.owner (by simp) (by simp) mine yours
  blank := tidy.blank

theorem Ledger.orderly (ledger : Ledger none journaled overlay)
    : Orderly journaled := by
  have identity {path : BytePath} {entry : OverlayEntry} (found : journaled[path]? = some entry)
      : ∃ row, overlay.entries[path]? = some row ∧ entry.path = row.path
          ∧ entry.kind = row.kind ∧ entry.content = row.content := by
    rcases ledger.behind path (by simp) with
      equal | ⟨row, id, size, mtime, ctime, there, -, -, behind⟩
    · exact ⟨entry, equal ▸ found, rfl, rfl, rfl⟩
    · rw [behind] at found
      cases found
      exact ⟨row, there, rfl, rfl, rfl⟩
  refine ⟨?_, ?_, ?_⟩
  · intro path entry found
    obtain ⟨row, there, own, -⟩ := identity found
    exact own.trans (ledger.tidy.keyed path row there)
  · intro path other id mine yours
    exact ledger.tidy.owner (by simp) (by simp) (ledger.holds_iff.mp mine)
      (ledger.holds_iff.mp yours)
  · intro path entry found directory
    obtain ⟨row, there, -, kind, content⟩ := identity found
    rw [content]
    exact ledger.tidy.blank path row there (kind ▸ directory)

theorem mem_loaded {rows : Rows} (orderly : Orderly rows)
    : entry ∈ rows.toList.map Prod.snd ↔ rows[entry.path]? = some entry := by
  rw [List.mem_map]
  constructor
  · intro listed
    obtain ⟨⟨path, row⟩, member, same⟩ := listed
    cases same
    have found := ExtTreeMap.mem_toList_iff_getElem?_eq_some.mp member
    rw [orderly.keyed path row found]
    exact found
  · intro found
    exact ⟨(entry.path, entry), ExtTreeMap.mem_toList_iff_getElem?_eq_some.mpr found, rfl⟩

theorem loaded_apart {rows : Rows} (orderly : Orderly rows)
    : (rows.toList.map Prod.snd).Pairwise Apart := by
  rw [List.pairwise_map]
  refine ExtTreeMap.distinct_keys_toList.imp_of_mem (fun {left right} mine yours differ => ?_)
  have here := ExtTreeMap.mem_toList_iff_getElem?_eq_some.mp mine
  have there := ExtTreeMap.mem_toList_iff_getElem?_eq_some.mp yours
  have differs : left.1 ≠ right.1 := by
    intro same
    exact differ (Std.LawfulEqCmp.compare_eq_iff_eq.mpr same)
  refine ⟨?_, ?_⟩
  · rw [orderly.keyed _ _ here, orderly.keyed _ _ there]
    exact differs
  · intro id content other
    exact differs (orderly.single left.1 right.1 id ⟨left.2, here, content⟩
      ⟨right.2, there, other⟩)

/-- A row read back from its file: corrected, or itself where there is nothing to correct. -/
def Reread (recovery : Recovery) (files : ExtTreeMap Nat Bytes compare)
    (old new : OverlayEntry)
    : Prop :=
  ∃ clock host,
    (recovery.correction files clock host old = none ∧ new = old)
    ∨ recovery.correction files clock host old = some new

theorem Reread.identity {old new : OverlayEntry} (reread : Reread recovery files old new)
    : ∃ size mtime ctime, new = { old with size, mtime, ctime } := by
  obtain ⟨clock, host, ⟨-, same⟩ | found⟩ := reread
  · exact ⟨old.size, old.mtime, old.ctime, same⟩
  · unfold Recovery.correction at found
    obtain ⟨id, -, read⟩ := Option.bind_eq_some_iff.mp found
    obtain ⟨file, -, changed⟩ := Option.bind_eq_some_iff.mp read
    simp only at changed
    split at changed
    · exact ⟨_, _, _, (Option.some.inj changed).symm⟩
    · cases changed

/-- Every row is read back in its place, and the changed ones are the corrections. -/
theorem correct_spec (recovery : Recovery) (files : ExtTreeMap Nat Bytes compare)
    (clock : Timestamp) (loaded : List OverlayEntry)
    : List.Forall₂
        (fun old new =>
          Reread recovery files old new
          ∧ (new = old ∨ new ∈ (recovery.correct files clock loaded).2.1))
        loaded (recovery.correct files clock loaded).1
      ∧ (recovery.correct files clock loaded).2.1
        ⊆ (recovery.correct files clock loaded).1 := by
  induction loaded generalizing clock with
  | nil => exact ⟨.nil, fun _ member => member⟩
  | cons entry rest ih =>
      cases found : recovery.correction files clock (recovery.clock rest.length) entry with
      | none =>
          obtain ⟨rows, within⟩ := ih clock
          simp only [Recovery.correct, found]
          exact ⟨.cons ⟨⟨_, _, Or.inl ⟨found, rfl⟩⟩, Or.inl rfl⟩ rows,
            fun _ member => List.mem_cons_of_mem _ (within member)⟩
      | some corrected =>
          obtain ⟨rows, within⟩ := ih corrected.ctime
          simp only [Recovery.correct, found]
          refine ⟨.cons ⟨⟨_, _, Or.inr found⟩, Or.inr List.mem_cons_self⟩ ?_, ?_⟩
          · refine rows.imp (fun old new both => ⟨both.1, both.2.imp_right ?_⟩)
            exact List.mem_cons_of_mem _
          · intro row member
            rcases List.mem_cons.mp member with rfl | later
            · exact List.mem_cons_self
            · exact List.mem_cons_of_mem _ (within later)

theorem Reread.apart (pairs : List.Forall₂ (Reread recovery files) loaded rows)
    (apart : loaded.Pairwise Apart)
    : rows.Pairwise Apart := by
  have same : rows.map (fun row => (row.path, row.content))
      = loaded.map (fun row => (row.path, row.content)) := by
    rw [← List.forall₂_eq_eq_eq, List.forall₂_map_left_iff, List.forall₂_map_right_iff]
    refine pairs.flip.imp (fun new old reread => ?_)
    obtain ⟨size, mtime, ctime, rfl⟩ := Reread.identity reread
    rfl
  have pairwise : (loaded.map (fun row => (row.path, row.content))).Pairwise
      (fun left right => left.1 ≠ right.1
        ∧ ∀ id, left.2 = Content.local id → right.2 ≠ .local id) :=
    List.pairwise_map.mpr apart
  rw [← same, List.pairwise_map] at pairwise
  exact pairwise

theorem written_of_mem (apart : kept.Pairwise Apart) (member : entry ∈ kept)
    : (overwrite ∅ (kept.map (Change.write ∘ Change.put)) : Rows)[entry.path]? = some entry := by
  have named : (entry.path, some entry) ∈ kept.map (Change.write ∘ Change.put) :=
    List.mem_map.mpr ⟨entry, member, rfl⟩
  obtain ⟨value, last⟩ := exists_lastWrite named
  obtain ⟨row, listed, same⟩ := List.mem_map.mp (mem_of_lastWrite last)
  have paths : row.path = entry.path := congrArg Prod.fst same
  have equal : row = entry := by
    by_contra differ
    exact (apart.forall listed member differ).1 paths
  rw [getElem?_overwrite, last]
  rw [equal] at same
  exact (congrArg Prod.snd same).symm

/-- What stands at a path once every row is read back. -/
theorem reread_row (orderly : Orderly journaled) (listed : loaded = journaled.toList.map Prod.snd)
    (pairs : List.Forall₂ (Reread recovery files) loaded rows) (apart : rows.Pairwise Apart)
    (path : BytePath)
    : (journaled[path]? = none
        ∧ (overwrite ∅ (rows.map (Change.write ∘ Change.put)) : Rows)[path]? = none)
      ∨ ∃ old new,
          journaled[path]? = some old
          ∧ (overwrite ∅ (rows.map (Change.write ∘ Change.put)) : Rows)[path]? = some new
          ∧ new ∈ rows
          ∧ Reread recovery files old new := by
  cases found : journaled[path]? with
  | some old =>
      have own := orderly.keyed path old found
      have member : old ∈ loaded := listed ▸ (mem_loaded orderly).mpr (own.symm ▸ found)
      obtain ⟨new, kept, reread⟩ := forall₂_exists_left pairs.flip member
      obtain ⟨size, mtime, ctime, same⟩ := Reread.identity reread
      have there : new.path = path := by
        rw [same]
        exact own
      exact Or.inr ⟨old, new, rfl, there ▸ written_of_mem apart kept, kept, reread⟩
  | none =>
      refine Or.inl ⟨rfl, ?_⟩
      cases written : (overwrite ∅ (rows.map (Change.write ∘ Change.put)) : Rows)[path]? with
      | none => rfl
      | some new =>
          obtain ⟨member, rfl⟩ := mem_of_written written
          obtain ⟨old, kept, reread⟩ := forall₂_exists_left pairs member
          obtain ⟨size, mtime, ctime, same⟩ := Reread.identity reread
          have there : old.path = new.path := by rw [same]
          rw [← there, (mem_loaded orderly).mp (listed ▸ kept)] at found
          cases found

/-- Rows read back, written over the rows they were read from. -/
theorem corrected_rows {corrections : List OverlayEntry} (orderly : Orderly journaled)
    (listed : loaded = journaled.toList.map Prod.snd)
    (pairs
      : List.Forall₂
          (fun old new => Reread recovery files old new ∧ (new = old ∨ new ∈ corrections))
          loaded rows)
    (within : corrections ⊆ rows) (apart : rows.Pairwise Apart) (path : BytePath)
    : (overwrite journaled ((corrections.map Change.put).map Change.write))[path]?
      = (overwrite ∅ (rows.map (Change.write ∘ Change.put)) : Rows)[path]? := by
  rw [getElem?_overwrite]
  cases last : lastWrite path ((corrections.map Change.put).map Change.write) with
  | some value =>
      rw [List.map_map] at last
      obtain ⟨row, member, same⟩ := List.mem_map.mp (mem_of_lastWrite last)
      cases same
      exact (written_of_mem apart (within member)).symm
  | none =>
      have uncorrected {row : OverlayEntry} (member : row ∈ corrections) : row.path ≠ path := by
        rintro rfl
        have named : (row.path, some row) ∈ (corrections.map Change.put).map Change.write := by
          rw [List.map_map]
          exact List.mem_map.mpr ⟨row, member, rfl⟩
        obtain ⟨value, written⟩ := exists_lastWrite named
        rw [last] at written
        cases written
      simp only [Option.getD_none]
      rcases reread_row orderly listed (pairs.imp (fun _ _ both => both.1)) apart path with
        ⟨missing, unwritten⟩ | ⟨old, new, found, written, -, -⟩
      · rw [missing, unwritten]
      · obtain ⟨member, rfl⟩ := mem_of_written written
        obtain ⟨before, kept, reread, same | corrected⟩ := forall₂_exists_left pairs member
        · subst same
          rw [written, (mem_loaded orderly).mp (listed ▸ kept)]
        · exact absurd rfl (uncorrected corrected)

theorem keepRows_fields (kept : List OverlayEntry) (overlay : Overlay)
    : (kept.foldl Overlay.keepRow overlay).entries
        = overwrite overlay.entries (kept.map (Change.write ∘ Change.put))
      ∧ (kept.foldl Overlay.keepRow overlay).clock = overlay.clock
      ∧ (kept.foldl Overlay.keepRow overlay).rootTimes = overlay.rootTimes
      ∧ (kept.foldl Overlay.keepRow overlay).vanished = overlay.vanished
      ∧ (kept.foldl Overlay.keepRow overlay).vanishedOverflow = overlay.vanishedOverflow
      ∧ (kept.foldl Overlay.keepRow overlay).nextContentId = overlay.nextContentId
      ∧ (kept.foldl Overlay.keepRow overlay).nextIno = overlay.nextIno
      ∧ (kept.foldl Overlay.keepRow overlay).files = overlay.files := by
  induction kept generalizing overlay with
  | nil => exact ⟨rfl, rfl, rfl, rfl, rfl, rfl, rfl, rfl⟩
  | cons entry kept ih => exact ih (overlay.keepRow entry)

section Reopening

variable {journal : Journal} {recovery : Recovery}

/-- The content files opening keeps: those the journal's rows name. -/
def sweptFiles (journal : Journal) (files : ExtTreeMap Nat Bytes compare)
    : ExtTreeMap Nat Bytes compare :=
  files.filter (fun id _ =>
    ((journal.rows.toList.map Prod.snd).filterMap (·.content.localId)).contains id)

/-- What opening comes to: the rows it reads back, those it corrects and the clock. -/
theorem reopen_fields (journal : Journal) (files : ExtTreeMap Nat Bytes compare)
    (recovery : Recovery)
    : let read := recovery.correct (sweptFiles journal files) (recovery.seed journal)
        (journal.rows.toList.map Prod.snd)
      let opened := Durable.reopen journal files recovery
      opened.memory.entries = overwrite ∅ (read.1.map (Change.write ∘ Change.put))
      ∧ opened.journal.rows
        = overwrite journal.rows ((read.2.1.map Change.put).map Change.write)
      ∧ opened.memory.clock = read.2.2
      ∧ opened.memory.rootTimes = journal.rootTimes
      ∧ opened.memory.vanished = journal.vanished
      ∧ opened.memory.vanishedOverflow = journal.vanishedOverflow
      ∧ opened.memory.nextContentId = max journal.nextContentId 1
      ∧ opened.memory.nextIno = max journal.nextIno overlayInoBase
      ∧ opened.memory.files = sweptFiles journal files := by
  obtain ⟨rows, clock, root, vanished, overflow, ids, inos, files⟩ := keepRows_fields
    (recovery.correct (sweptFiles journal files) (recovery.seed journal)
      (journal.rows.toList.map Prod.snd)).1
    {
      Overlay.opened recovery.config recovery.snapshotTime with
      nextIno := max journal.nextIno overlayInoBase
      nextContentId := max journal.nextContentId 1
      clock :=
        (recovery.correct (sweptFiles journal files) (recovery.seed journal)
          (journal.rows.toList.map Prod.snd)).2.2
      vanished := journal.vanished
      vanishedOverflow := journal.vanishedOverflow
      rootTimes := journal.rootTimes
      instanceId := (journal.instanceId + 1) % 2 ^ 64
      files := sweptFiles journal files
    }
  refine ⟨rows, ?_, clock, root, vanished, overflow, ids, inos, files⟩
  simp only [Durable.reopen]
  split
  · rename_i none
    simp only [sweptFiles]
    rw [List.isEmpty_iff.mp none]
    rfl
  · rfl

/-- Opening an orderly journal gives tidy rows, level with the journal. -/
theorem Ledger.reopen (orderly : Orderly journal.rows)
    (issued
      : ∀ (path : BytePath) (id : Nat),
          Holds journal.rows path id → id < journal.nextContentId)
    (files : ExtTreeMap Nat Bytes compare) (recovery : Recovery)
    : Ledger none (Durable.reopen journal files recovery).journal.rows
        (Durable.reopen journal files recovery).memory := by
  obtain ⟨pairs, within⟩ := correct_spec recovery (sweptFiles journal files)
    (recovery.seed journal) (journal.rows.toList.map Prod.snd)
  have rereads := pairs.imp (fun _ _ both => both.1)
  have apart := Reread.apart rereads (loaded_apart orderly)
  obtain ⟨rows, journaled, -⟩ := reopen_fields journal files recovery
  let start : Overlay :=
    {
      Overlay.opened recovery.config recovery.snapshotTime with
      nextIno := max journal.nextIno overlayInoBase
      nextContentId := max journal.nextContentId 1
      clock :=
        (recovery.correct (sweptFiles journal files) (recovery.seed journal)
          (journal.rows.toList.map Prod.snd)).2.2
      vanished := journal.vanished
      vanishedOverflow := journal.vanishedOverflow
      rootTimes := journal.rootTimes
      instanceId := (journal.instanceId + 1) % 2 ^ 64
      files := sweptFiles journal files
    }
  have tidy := (@Tidy.ofRows start _ rfl rfl apart (by
    intro row member id content
    obtain ⟨old, listed, reread⟩ := forall₂_exists_left rereads member
    obtain ⟨size, mtime, ctime, same⟩ := Reread.identity reread
    have found := (mem_loaded orderly).mp listed
    have held : old.content = .local id := by
      rw [same] at content
      exact content
    refine ⟨lt_max_of_lt_left (issued old.path id ⟨old, found, held⟩), ?_⟩
    rw [same]
    cases directory : old.kind.isDir with
    | false => rfl
    | true =>
        have blank := orderly.blank old.path old found directory
        rw [localId_iff.mpr held] at blank
        cases blank)).1
  refine ⟨tidy.congr ⟨rfl, rfl, Nat.le_refl _⟩, ?_, ?_⟩
  · intro path _
    rw [rows, journaled, corrected_rows orderly rfl pairs within apart path]
    exact Or.inl rfl
  · intro path id absurd
    cases absurd

theorem reopen_row (orderly : Orderly journal.rows) (files : ExtTreeMap Nat Bytes compare)
    (recovery : Recovery) (path : BytePath)
    : (journal.rows[path]? = none
        ∧ (Durable.reopen journal files recovery).memory.entries[path]? = none)
      ∨ ∃ old new,
          journal.rows[path]? = some old
          ∧ (Durable.reopen journal files recovery).memory.entries[path]? = some new
          ∧ Reread recovery (sweptFiles journal files) old new := by
  obtain ⟨pairs, within⟩ := correct_spec recovery (sweptFiles journal files)
    (recovery.seed journal) (journal.rows.toList.map Prod.snd)
  have rereads := pairs.imp (fun _ _ both => both.1)
  have apart := Reread.apart rereads (loaded_apart orderly)
  rw [(reopen_fields journal files recovery).1]
  rcases reread_row orderly rfl rereads apart path with
    ⟨missing, unwritten⟩ | ⟨old, new, found, written, -, reread⟩
  · exact Or.inl ⟨missing, unwritten⟩
  · exact Or.inr ⟨old, new, found, written, reread⟩

end Reopening

end Rebuilding

end Gfs.Overlay
