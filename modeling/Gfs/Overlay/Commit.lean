import Gfs.Lib.Overwrites
import Gfs.Overlay.Operations

/-! What a commit does to the rows, to their index of children and to the content files. Every
mutation of the overlay reaches its rows through these lemmas.
-/

namespace Gfs.Overlay

open Gfs.Types
open Gfs.Lib.Overwrites
open Std (ExtTreeMap ExtTreeSet)

/-- Every row stands under its own path, and that path is well formed. -/
def Keyed (rows : Rows) : Prop :=
  ∀ (path : BytePath) (entry : OverlayEntry),
    rows[path]? = some entry → entry.path = path ∧ WellFormed path

/-- What a put must satisfy to keep the rows keyed: its path is well formed. -/
def Change.Formed : Change → Prop
  | .put entry => WellFormed entry.path
  | .delete _ => True

namespace Overlay

-- Rows and files

theorem applyChange_entries (stamp : Bool) (overlay : Overlay) (change : Change)
    : (overlay.applyChange stamp change).entries
      = overwrite overlay.entries [change.write] := by
  cases change <;> rfl

theorem applyChanges_fields (stamp : Bool) (changes : List Change) (overlay : Overlay)
    : (changes.foldl (applyChange stamp) overlay).entries
        = overwrite overlay.entries (changes.map Change.write)
      ∧ (changes.foldl (applyChange stamp) overlay).files = overlay.files
      ∧ (changes.foldl (applyChange stamp) overlay).nextContentId = overlay.nextContentId
      ∧ (changes.foldl (applyChange stamp) overlay).config = overlay.config := by
  induction changes generalizing overlay with
  | nil => exact ⟨rfl, rfl, rfl, rfl⟩
  | cons change changes ih =>
      obtain ⟨rows, files, ids, config⟩ := ih (overlay.applyChange stamp change)
      refine ⟨?_, files.trans ?_, ids.trans ?_, config.trans ?_⟩
      · rw [List.foldl_cons, rows, applyChange_entries]
        rfl
      all_goals cases change <;> rfl

@[simp]
theorem commitWith_entries (overlay : Overlay) (changes : List Change) (release : List Nat)
    (rootTimes : Option (Timestamp × Timestamp)) (stamp : Bool)
    : (overlay.commitWith changes release rootTimes stamp).entries
      = overwrite overlay.entries (changes.map Change.write) :=
  (applyChanges_fields stamp changes _).1

@[simp]
theorem commitWith_files (overlay : Overlay) (changes : List Change) (release : List Nat)
    (rootTimes : Option (Timestamp × Timestamp)) (stamp : Bool)
    : (overlay.commitWith changes release rootTimes stamp).files
      = release.foldl (·.erase ·) overlay.files := by
  simp only [commitWith, releaseFiles]
  rw [(applyChanges_fields stamp changes _).2.1]
  rfl

@[simp]
theorem commitWith_nextContentId (overlay : Overlay) (changes : List Change)
    (release : List Nat) (rootTimes : Option (Timestamp × Timestamp)) (stamp : Bool)
    : (overlay.commitWith changes release rootTimes stamp).nextContentId
      = overlay.nextContentId :=
  (applyChanges_fields stamp changes _).2.2.1

@[simp]
theorem commit_entries (overlay : Overlay) (changes : List Change) (release : List Nat)
    (rootTimes : Option (Timestamp × Timestamp))
    : (overlay.commit changes release rootTimes).entries
      = overwrite overlay.entries (changes.map Change.write) :=
  commitWith_entries ..

@[simp]
theorem commit_files (overlay : Overlay) (changes : List Change) (release : List Nat)
    (rootTimes : Option (Timestamp × Timestamp))
    : (overlay.commit changes release rootTimes).files
      = release.foldl (·.erase ·) overlay.files :=
  commitWith_files ..

@[simp]
theorem commit_nextContentId (overlay : Overlay) (changes : List Change) (release : List Nat)
    (rootTimes : Option (Timestamp × Timestamp))
    : (overlay.commit changes release rootTimes).nextContentId = overlay.nextContentId :=
  commitWith_nextContentId ..

theorem getElem?_releaseFiles (files : ExtTreeMap Nat Bytes compare) (release : List Nat)
    (id : Nat)
    : (release.foldl (·.erase ·) files)[id]?
      = if id ∈ release then none else files[id]? := by
  induction release generalizing files with
  | nil => simp
  | cons first release ih =>
      rw [List.foldl_cons, ih]
      by_cases same : first = id
      · simp [same]
      · by_cases later : id ∈ release
        · simp [later]
        · simp [later, Ne.symm same, ExtTreeMap.getElem?_erase, same]

-- The index of children

/-- The index lists under each directory exactly the names that have a row there. -/
def Indexed (overlay : Overlay) : Prop :=
  ∀ (dir : BytePath) (name : Bytes),
    name ∈ overlay.children[dir]?.getD ∅
    ↔ ∃ path : BytePath,
        parentOf path = dir
        ∧ path.fileName.getD [] = name
        ∧ (overlay.entries[path]?).isSome = true

private theorem mem_insertChild
    {children : ExtTreeMap BytePath (ExtTreeSet Bytes compare) compare}
    {dir parent : BytePath} {name added : Bytes}
    : name
          ∈ (children.insert parent ((children[parent]?.getD ∅).insert added))[dir]?.getD ∅
      ↔ (parent = dir ∧ added = name) ∨ name ∈ children[dir]?.getD ∅ := by
  rw [ExtTreeMap.getElem?_insert]
  split
  · rename_i same
    have equal : parent = dir := Std.LawfulEqCmp.compare_eq_iff_eq.mp same
    subst equal
    simp [ExtTreeSet.mem_insert, Std.LawfulEqCmp.compare_eq_iff_eq]
  · rename_i other
    have distinct : parent ≠ dir := fun equal =>
      other (Std.LawfulEqCmp.compare_eq_iff_eq.mpr equal)
    simp [distinct]

private theorem mem_removeChild
    {children : ExtTreeMap BytePath (ExtTreeSet Bytes compare) compare}
    {dir : BytePath} {name : Bytes} {previous : OverlayEntry}
    : name ∈ (removeChild children previous)[dir]?.getD ∅
      ↔ ¬ (previous.parent = dir ∧ previous.name = name) ∧ name ∈ children[dir]?.getD ∅ := by
  unfold removeChild
  cases found : children[previous.parent]? with
  | none =>
      simp only [not_and]
      constructor
      · intro member
        refine ⟨fun equal => ?_, member⟩
        rw [← equal, found] at member
        simp at member
      · exact fun both => both.2
  | some names =>
      simp only [ExtTreeMap.getElem?_insert]
      split
      · rename_i same
        have equal : previous.parent = dir := Std.LawfulEqCmp.compare_eq_iff_eq.mp same
        subst equal
        simp [found, ExtTreeSet.mem_erase, Std.LawfulEqCmp.compare_eq_iff_eq]
      · rename_i other
        have distinct : previous.parent ≠ dir := fun equal =>
          other (Std.LawfulEqCmp.compare_eq_iff_eq.mpr equal)
        simp [distinct]

/-- One change keeps the rows keyed and the index exact. A deletion uses that parent and
name determine a well-formed path.
-/
theorem applyChange_indexed (stamp : Bool) {overlay : Overlay} {change : Change}
    (keyed : Keyed overlay.entries) (indexed : Indexed overlay) (formed : Change.Formed change)
    : Keyed (overlay.applyChange stamp change).entries
      ∧ Indexed (overlay.applyChange stamp change) := by
  cases change with
  | put entry =>
      refine ⟨?_, ?_⟩
      · intro path row found
        simp only [applyChange, ExtTreeMap.getElem?_insert] at found
        split at found
        · rename_i same
          have equal : entry.path = path := Std.LawfulEqCmp.compare_eq_iff_eq.mp same
          cases found
          exact ⟨equal, equal ▸ formed⟩
        · exact keyed path row found
      · intro dir name
        simp only [applyChange, mem_insertChild, indexed dir name]
        constructor
        · intro member
          rcases member with ⟨parent, called⟩ | ⟨path, parent, called, found⟩
          · exact ⟨entry.path, parent, called, by simp⟩
          · refine ⟨path, parent, called, ?_⟩
            rw [ExtTreeMap.getElem?_insert]
            split
            · rfl
            · exact found
        · intro member
          obtain ⟨path, parent, called, found⟩ := member
          rw [ExtTreeMap.getElem?_insert] at found
          split at found
          · rename_i same
            have equal : entry.path = path := Std.LawfulEqCmp.compare_eq_iff_eq.mp same
            subst equal
            exact Or.inl ⟨parent, called⟩
          · exact Or.inr ⟨path, parent, called, found⟩
  | delete path =>
      refine ⟨?_, ?_⟩
      · intro other row found
        simp only [applyChange, ExtTreeMap.getElem?_erase] at found
        split at found
        · cases found
        · exact keyed other row found
      · intro dir name
        simp only [applyChange]
        cases removed : overlay.entries[path]? with
        | none =>
            simp only [Option.elim_none, indexed dir name, ExtTreeMap.getElem?_erase,
              Std.LawfulEqCmp.compare_eq_iff_eq]
            refine exists_congr fun other => and_congr_right fun _ => and_congr_right fun _ => ?_
            by_cases same : path = other
            · subst same
              simp [removed]
            · simp [same]
        | some previous =>
            obtain ⟨own, pathFormed⟩ := keyed path previous removed
            simp only [Option.elim_some, mem_removeChild, indexed dir name]
            constructor
            · intro member
              obtain ⟨distinct, other, parent, called, found⟩ := member
              refine ⟨other, parent, called, ?_⟩
              rw [ExtTreeMap.getElem?_erase]
              split
              · rename_i same
                have equal : path = other := Std.LawfulEqCmp.compare_eq_iff_eq.mp same
                subst equal
                refine absurd ⟨?_, ?_⟩ distinct
                · rw [OverlayEntry.parent, own, parent]
                · rw [OverlayEntry.name, own, called]
              · exact found
            · intro member
              obtain ⟨other, parent, called, found⟩ := member
              rw [ExtTreeMap.getElem?_erase] at found
              split at found
              · cases found
              · rename_i separate
                refine ⟨fun both => separate ?_, other, parent, called, found⟩
                obtain ⟨row, held⟩ := Option.isSome_iff_exists.mp found
                have otherFormed : WellFormed other := (keyed other row held).2
                rw [Std.LawfulEqCmp.compare_eq_iff_eq, ← pathFormed.split.2.2,
                  ← otherFormed.split.2.2, parent, called, ← both.1, ← both.2,
                  OverlayEntry.parent, OverlayEntry.name, own]

theorem commitWith_indexed {overlay : Overlay} {changes : List Change} {release : List Nat}
    {rootTimes : Option (Timestamp × Timestamp)} {stamp : Bool}
    (keyed : Keyed overlay.entries) (indexed : Indexed overlay)
    (formed : ∀ change ∈ changes, Change.Formed change)
    : Keyed (overlay.commitWith changes release rootTimes stamp).entries
      ∧ Indexed (overlay.commitWith changes release rootTimes stamp) := by
  have folded
      : ∀ start : Overlay, Keyed start.entries → Indexed start
        → Keyed (changes.foldl (applyChange stamp) start).entries
          ∧ Indexed (changes.foldl (applyChange stamp) start) := by
    induction changes with
    | nil => exact fun start keyed indexed => ⟨keyed, indexed⟩
    | cons change changes ih =>
        intro start keyed indexed
        obtain ⟨keyed, indexed⟩ :=
          applyChange_indexed stamp keyed indexed (formed change (by simp))
        exact ih (fun later member => formed later (by simp [member])) _ keyed indexed
  exact folded _ keyed indexed

end Overlay

end Gfs.Overlay
