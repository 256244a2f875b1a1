import Gfs.Overlay.Durable

/-! Bookkeeping across a transaction. Memory applies a transaction change by change: its index
of content ids stays the inverse of the rows, and the journal stays behind memory only in
rows whose content was written since. During a rename the source's row is a hole: its content
already belongs to the destination.
-/

namespace Gfs.Overlay

open Gfs.Types
open Gfs.Lib.Overwrites
open Std (ExtTreeMap ExtTreeSet)

-- Rows and their content

/-- The row at the path names the content file. -/
def Holds (rows : Rows) (path : BytePath) (id : Nat) : Prop :=
  ∃ entry, rows[path]? = some entry ∧ entry.content = .local id

/-- The rows stand under their own paths, and the content index is their inverse, but for the
hole.
-/
structure Tidy (hole : Option BytePath) (overlay : Overlay) : Prop where
  keyed
    : ∀ (path : BytePath) (entry : OverlayEntry),
        overlay.entries[path]? = some entry → entry.path = path
  exact
    : ∀ (id : Nat) (path : BytePath),
        overlay.byContent[id]? = some path
        ↔ hole ≠ some path ∧ Holds overlay.entries path id
  bounded
    : ∀ (path : BytePath) (id : Nat),
        Holds overlay.entries path id → id < overlay.nextContentId
  blank
    : ∀ (path : BytePath) (entry : OverlayEntry),
        overlay.entries[path]? = some entry → entry.kind.isDir = true
        → entry.content.localId = none

/-- A change leaves the index exact: content it puts belongs to no other path. -/
def Change.Fits (overlay : Overlay) : Change → Prop
  | .delete _ => True
  | .put entry =>
      ∀ id, entry.content = .local id
        → id < overlay.nextContentId
          ∧ entry.kind.isDir = false
          ∧ ∀ path, overlay.byContent[id]? = some path → path = entry.path

/-- What the journal holds at a path against what memory holds there. -/
def Behind (dirty : ExtTreeSet Nat compare) (journaled held : Option OverlayEntry) : Prop :=
  journaled = held
  ∨ ∃ (entry : OverlayEntry) (id size : Nat) (mtime ctime : Timestamp),
      held = some entry
      ∧ entry.content = .local id
      ∧ id ∈ dirty
      ∧ journaled = some { entry with size, mtime, ctime }

/-- The journal's rows against memory's. -/
structure Ledger (hole : Option BytePath) (journaled : Rows) (overlay : Overlay) : Prop where
  tidy : Tidy hole overlay
  behind
    : ∀ path : BytePath,
        hole ≠ some path
        → Behind overlay.dirty journaled[path]? overlay.entries[path]?
  settled
    : ∀ (path : BytePath) (id : Nat),
        hole = some path → Holds overlay.entries path id → id ∉ overlay.dirty

section Bookkeeping

variable {hole : Option BytePath} {overlay : Overlay} {change : Change} {stamp : Bool}
  {journaled : Rows}

variable {id : Nat}

theorem localId_iff {content : Content}
    : content.localId = some id ↔ content = .local id := by
  cases content <;> simp [Content.localId]

variable {path : BytePath}

theorem Holds.congr {rows rows' : Rows} (same : rows'[path]? = rows[path]?)
    : Holds rows' path id ↔ Holds rows path id := by
  unfold Holds
  rw [same]

theorem Tidy.leaf (tidy : Tidy hole overlay) {entry : OverlayEntry}
    (found : overlay.entries[path]? = some entry) (content : entry.content = .local id)
    : entry.kind.isDir = false := by
  cases directory : entry.kind.isDir with
  | false => rfl
  | true =>
      have blank := tidy.blank path entry found directory
      rw [localId_iff.mpr content] at blank
      cases blank

theorem Tidy.owner (tidy : Tidy hole overlay) {path other : BytePath} (left : hole ≠ some path)
    (right : hole ≠ some other) (holds : Holds overlay.entries path id)
    (held : Holds overlay.entries other id)
    : path = other := by
  have first := (tidy.exact id path).mpr ⟨left, holds⟩
  have second := (tidy.exact id other).mpr ⟨right, held⟩
  rw [first] at second
  exact Option.some.inj second

theorem getElem?_releaseContent {index : ExtTreeMap Nat BytePath compare} {other : Nat}
    : (releaseContent index id path)[other]?
      = if index[other]? = some path ∧ other = id then none else index[other]? := by
  unfold releaseContent
  by_cases same : other = id
  · subst same
    split <;> simp_all
  · split
    · simp [ExtTreeMap.getElem?_erase, Ne.symm same, same]
    · simp [same]

theorem applyChange_other (apart : path ≠ change.write.1)
    : (overlay.applyChange stamp change).entries[path]? = overlay.entries[path]? := by
  cases change with
  | put entry =>
      simp only [Change.write] at apart
      simp [Overlay.applyChange, ExtTreeMap.getElem?_insert, Ne.symm apart]
  | delete gone =>
      simp only [Change.write] at apart
      simp [Overlay.applyChange, ExtTreeMap.getElem?_erase, Ne.symm apart]

theorem applyChange_self
    : (overlay.applyChange stamp change).entries[change.write.1]? = change.write.2 := by
  cases change with
  | put entry => simp [Overlay.applyChange, Change.write]
  | delete gone => simp [Overlay.applyChange, Change.write]

/-- The index before a row's own content is entered. -/
def forgetting (overlay : Overlay) (entry : OverlayEntry)
    : Option Nat → ExtTreeMap Nat BytePath compare
  | some old =>
      if some old ≠ entry.content.localId then
        releaseContent overlay.byContent old entry.path
      else overlay.byContent
  | none => overlay.byContent

/-- The index after one change: what it puts belongs to its path, what it replaces is released
if that path owned it, and the rest stays.
-/
theorem applyChange_byContent
    : (overlay.applyChange stamp change).byContent[id]? = some path
      ↔ (change.write.1 = path ∧ ∃ entry, change.write.2 = some entry ∧ entry.content = .local id)
        ∨ (overlay.byContent[id]? = some path
            ∧ ¬ (∃ entry, change.write.2 = some entry ∧ entry.content = .local id)
            ∧ ¬ (path = change.write.1 ∧ Holds overlay.entries path id)) := by
  cases change with
  | delete gone =>
      simp only [Overlay.applyChange, Change.write, reduceCtorEq, false_and, exists_false,
        and_false, not_false_eq_true, true_and, false_or]
      cases previous : overlay.entries[gone]? with
      | none =>
          refine ⟨fun found => ⟨found, fun both => ?_⟩, fun both => both.1⟩
          obtain ⟨rfl, entry, held, -⟩ := both
          rw [previous] at held
          cases held
      | some entry =>
          cases content : entry.content.localId with
          | none =>
              simp only [Option.bind_some, content, Option.elim_none]
              refine ⟨fun found => ⟨found, fun both => ?_⟩, fun both => both.1⟩
              obtain ⟨rfl, row, held, here⟩ := both
              rw [previous] at held
              cases held
              rw [localId_iff.mpr here] at content
              cases content
          | some released =>
              simp only [Option.bind_some, content, Option.elim_some, getElem?_releaseContent]
              constructor
              · intro found
                split at found
                · cases found
                · rename_i kept
                  refine ⟨found, fun both => kept ?_⟩
                  obtain ⟨rfl, row, held, here⟩ := both
                  rw [previous] at held
                  cases held
                  rw [localId_iff.mpr here] at content
                  exact ⟨found, Option.some.inj content⟩
              · intro both
                rw [if_neg, both.1]
                intro dropped
                obtain ⟨owner, rfl⟩ := dropped
                rw [both.1] at owner
                cases owner
                exact both.2 ⟨rfl, entry, previous, localId_iff.mp content⟩
  | put entry =>
      simp only [Overlay.applyChange, Change.write, Overlay.recordContent,
        Option.some.injEq, exists_eq_left']
      have released {index : ExtTreeMap Nat BytePath compare}
          (step
            : index
              = forgetting overlay entry (overlay.entries[entry.path]?.bind (·.content.localId)))
          (other : entry.content ≠ .local id)
          : index[id]? = some path
            ↔ overlay.byContent[id]? = some path
              ∧ ¬ (path = entry.path ∧ Holds overlay.entries path id) := by
        subst step
        cases previous : overlay.entries[entry.path]? with
        | none =>
            refine ⟨fun found => ⟨found, fun both => ?_⟩, fun both => both.1⟩
            obtain ⟨rfl, row, held, -⟩ := both
            rw [previous] at held
            cases held
        | some row =>
            cases content : row.content.localId with
            | none =>
                simp only [Option.bind_some, content, forgetting]
                refine ⟨fun found => ⟨found, fun both => ?_⟩, fun both => both.1⟩
                obtain ⟨rfl, row', held, here⟩ := both
                rw [previous] at held
                cases held
                rw [localId_iff.mpr here] at content
                cases content
            | some old =>
                simp only [Option.bind_some, content, forgetting]
                by_cases again : some old = entry.content.localId
                · rw [if_neg (not_not.mpr again)]
                  refine ⟨fun found => ⟨found, fun both => ?_⟩, fun both => both.1⟩
                  obtain ⟨rfl, row', held, here⟩ := both
                  rw [previous] at held
                  cases held
                  rw [localId_iff.mpr here] at content
                  rw [← content] at again
                  exact other (localId_iff.mp again.symm)
                · rw [if_pos again, getElem?_releaseContent]
                  constructor
                  · intro found
                    split at found
                    · cases found
                    · rename_i kept
                      refine ⟨found, fun both => kept ?_⟩
                      obtain ⟨rfl, row', held, here⟩ := both
                      rw [previous] at held
                      cases held
                      rw [localId_iff.mpr here] at content
                      exact ⟨found, Option.some.inj content⟩
                  · intro both
                    rw [if_neg, both.1]
                    intro dropped
                    obtain ⟨owner, rfl⟩ := dropped
                    rw [both.1] at owner
                    cases owner
                    exact both.2 ⟨rfl, row, previous, localId_iff.mp content⟩
      cases content : entry.content with
      | «local» own =>
          simp only [Content.localId]
          rw [ExtTreeMap.getElem?_insert]
          by_cases same : own = id
          · subst same
            simp
          · have other : entry.content ≠ .local id := by
              rw [content]
              exact fun equal => same (Content.local.inj equal)
            simp only [Std.LawfulEqCmp.compare_eq_iff_eq, same, ↓reduceIte]
            rw [released (by rw [forgetting.eq_def, content]; rfl) other]
            simp [same]
      | none =>
          simp only [Content.localId]
          rw [released (by rw [forgetting.eq_def, content]; rfl)
            (by rw [content]; exact fun equal => by cases equal)]
          simp
      | base oid =>
          simp only [Content.localId]
          rw [released (by rw [forgetting.eq_def, content]; rfl)
            (by rw [content]; exact fun equal => by cases equal)]
          simp

/-- The hole after a change: filled if the change is at it. -/
def holeAfter (hole : Option BytePath) (change : Change) : Option BytePath :=
  hole.filter (· ≠ change.write.1)

theorem holeAfter_ne (apart : path ≠ change.write.1)
    : holeAfter hole change ≠ some path ↔ hole ≠ some path := by
  unfold holeAfter
  rw [ne_eq, ne_eq, not_iff_not, Option.filter_eq_some_iff]
  simp [apart]

theorem holeAfter_self : holeAfter hole change ≠ some change.write.1 := by
  intro same
  have dropped := (Option.filter_eq_some_iff.mp same).2
  simp at dropped

/-- A change that fits keeps the rows tidy. -/
theorem Tidy.applyChange (tidy : Tidy hole overlay) (fits : change.Fits overlay)
    : Tidy (holeAfter hole change) (overlay.applyChange stamp change) := by
  have ids : (overlay.applyChange stamp change).nextContentId = overlay.nextContentId := by
    cases change <;> rfl
  refine ⟨?_, ?_, ?_, ?_⟩
  · intro path entry found
    by_cases here : path = change.write.1
    · subst here
      rw [applyChange_self] at found
      cases change with
      | put put =>
          cases found
          rfl
      | delete => cases found
    · rw [applyChange_other here] at found
      exact tidy.keyed path entry found
  · intro id path
    rw [applyChange_byContent]
    by_cases here : path = change.write.1
    · subst here
      simp only [true_and, ne_eq, holeAfter_self, not_false_eq_true]
      unfold Holds
      rw [applyChange_self]
      constructor
      · intro owned
        rcases owned with put | ⟨found, -, kept⟩
        · exact put
        · exact absurd ((tidy.exact id _).mp found).2 kept
      · exact Or.inl
    · rw [holeAfter_ne here, Holds.congr (applyChange_other here), ← tidy.exact id path]
      constructor
      · intro owned
        rcases owned with ⟨same, -⟩ | ⟨found, -, -⟩
        · exact absurd same.symm here
        · exact found
      · intro found
        refine Or.inr ⟨found, ?_, fun both => here both.1⟩
        intro put
        obtain ⟨entry, written, content⟩ := put
        cases change with
        | delete => cases written
        | put row =>
            cases written
            exact here ((fits id content).2.2 path found)
  · intro path id holds
    rw [ids]
    by_cases here : path = change.write.1
    · subst here
      obtain ⟨entry, found, content⟩ := holds
      rw [applyChange_self] at found
      cases change with
      | put row =>
          cases found
          exact (fits id content).1
      | delete => cases found
    · exact tidy.bounded path id ((Holds.congr (applyChange_other here)).mp holds)
  · intro path entry found directory
    by_cases here : path = change.write.1
    · subst here
      rw [applyChange_self] at found
      cases change with
      | put row =>
          cases found
          cases content : entry.content with
          | none => rfl
          | base oid => rfl
          | «local» id =>
              have leaf := (fits id content).2.1
              rw [leaf] at directory
              cases directory
      | delete => cases found
    · rw [applyChange_other here] at found
      exact tidy.blank path entry found directory

/-- Whether a content id is still dirty after a change. -/
theorem mem_dirty_applyChange
    : id ∈ (overlay.applyChange stamp change).dirty
      ↔ id ∈ overlay.dirty
        ∧ ¬ (∃ entry, change.write.2 = some entry ∧ entry.content = .local id)
        ∧ ¬ (change.write.2 = none ∧ Holds overlay.entries change.write.1 id) := by
  cases change with
  | put entry =>
      simp only [Overlay.applyChange, Change.write, Option.some.injEq, exists_eq_left',
        reduceCtorEq, false_and, not_false_eq_true, and_true]
      cases entry.content with
      | «local» own =>
          simp [Content.localId, ExtTreeSet.mem_erase, and_comm]
      | none => simp [Content.localId]
      | base oid => simp [Content.localId]
  | delete gone =>
      simp only [Overlay.applyChange, Change.write, reduceCtorEq, false_and, exists_false,
        not_false_eq_true, true_and, Holds]
      cases overlay.entries[gone]? with
      | none => simp
      | some entry =>
          cases content : entry.content with
          | «local» own =>
              simp [content, Content.localId, ExtTreeSet.mem_erase, and_comm]
          | none => simp [content, Content.localId]
          | base oid => simp [content, Content.localId]

/-- A change that fits keeps the journal behind memory only in dirty rows. -/
theorem Ledger.applyChange (ledger : Ledger hole journaled overlay)
    (fits : change.Fits overlay)
    : Ledger (holeAfter hole change) (overwrite journaled [change.write])
        (overlay.applyChange stamp change) := by
  refine ⟨ledger.tidy.applyChange fits, ?_, ?_⟩
  · intro path outside
    rw [getElem?_overwrite]
    by_cases here : path = change.write.1
    · subst here
      left
      simp [applyChange_self]
    · have apart : change.write.1 ≠ path := Ne.symm here
      simp only [lastWrite_cons, lastWrite_nil, Option.none_or, apart, ↓reduceIte,
        Option.getD_none, applyChange_other here]
      have before := (holeAfter_ne here).mp outside
      rcases ledger.behind path before
        with same | ⟨entry, id, size, mtime, ctime, held, content, dirty, row⟩
      · exact Or.inl same
      · refine Or.inr ⟨entry, id, size, mtime, ctime, held, content,
          mem_dirty_applyChange.mpr ⟨dirty, ?_, ?_⟩, row⟩
        · intro put
          obtain ⟨row', written, again⟩ := put
          cases change with
          | delete => cases written
          | put new =>
              cases written
              have owned := (ledger.tidy.exact id path).mpr ⟨before, entry, held, content⟩
              exact here ((fits id again).2.2 path owned)
        · intro deleted
          by_cases gone : hole = some change.write.1
          · exact ledger.settled change.write.1 id gone deleted.2 dirty
          · exact here (ledger.tidy.owner before gone ⟨entry, held, content⟩ deleted.2)
  · intro path id same holds
    have apart : path ≠ change.write.1 := by
      intro here
      subst here
      exact holeAfter_self same
    have before : hole = some path := (Option.filter_eq_some_iff.mp same).1
    rw [Holds.congr (applyChange_other apart)] at holds
    exact fun dirty => ledger.settled path id before holds (mem_dirty_applyChange.mp dirty).1

/-- Putting the renamed row at its destination leaves its source as the hole. -/
theorem Ledger.dig (ledger : Ledger none journaled overlay) {source : BytePath}
    {row moved : OverlayEntry} (found : overlay.entries[source]? = some row)
    (apart : moved.path ≠ source) (content : moved.content = row.content)
    (kind : moved.kind = row.kind)
    : Ledger (some source) (overwrite journaled [(moved.path, some moved)])
        (overlay.applyChange stamp (.put moved)) := by
  have tidy := ledger.tidy
  have there : (overlay.applyChange stamp (.put moved)).entries[source]? = some row := by
    rw [applyChange_other (show source ≠ (Change.put moved).write.1 from Ne.symm apart), found]
  have here : (overlay.applyChange stamp (.put moved)).entries[moved.path]? = some moved :=
    applyChange_self
  have other {path : BytePath} (distinct : path ≠ moved.path)
      : (overlay.applyChange stamp (.put moved)).entries[path]? = overlay.entries[path]? :=
    applyChange_other distinct
  have same {id : Nat} : moved.content = .local id ↔ Holds overlay.entries source id := by
    rw [content]
    refine ⟨fun held => ⟨row, found, held⟩, ?_⟩
    intro holds
    obtain ⟨entry, held, here⟩ := holds
    rw [found] at held
    cases held
    exact here
  refine ⟨⟨?_, ?_, ?_, ?_⟩, ?_, ?_⟩
  · intro path entry held
    by_cases target : path = moved.path
    · subst target
      rw [here] at held
      cases held
      rfl
    · rw [other target] at held
      exact tidy.keyed path entry held
  · intro id path
    rw [applyChange_byContent]
    simp only [Change.write, Option.some.injEq, exists_eq_left', ne_eq]
    by_cases target : path = moved.path
    · subst target
      have outside : ¬ source = moved.path := Ne.symm apart
      constructor
      · intro owned
        refine ⟨outside, moved, here, ?_⟩
        rcases owned with ⟨-, put⟩ | ⟨held, -, kept⟩
        · exact put
        · exact absurd ⟨rfl, ((tidy.exact id moved.path).mp held).2⟩ kept
      · intro both
        obtain ⟨-, entry, held, put⟩ := both
        rw [here] at held
        cases held
        exact Or.inl ⟨rfl, put⟩
    · rw [Holds.congr (other target)]
      constructor
      · intro owned
        rcases owned with ⟨equal, -⟩ | ⟨held, elsewhere, -⟩
        · exact absurd equal.symm target
        · have holds := ((tidy.exact id path).mp held).2
          refine ⟨?_, holds⟩
          intro equal
          subst equal
          exact elsewhere (same.mpr holds)
      · intro both
        obtain ⟨outside, holds⟩ := both
        refine Or.inr ⟨(tidy.exact id path).mpr ⟨by simp, holds⟩, ?_, fun equal => target equal.1⟩
        intro put
        exact outside (tidy.owner (by simp) (by simp) (same.mp put) holds)
  · intro path id holds
    show id < overlay.nextContentId
    by_cases target : path = moved.path
    · subst target
      obtain ⟨entry, held, put⟩ := holds
      rw [here] at held
      cases held
      exact tidy.bounded source id (same.mp put)
    · exact tidy.bounded path id ((Holds.congr (other target)).mp holds)
  · intro path entry held directory
    by_cases target : path = moved.path
    · subst target
      rw [here] at held
      cases held
      rw [content]
      rw [kind] at directory
      exact tidy.blank source row found directory
    · rw [other target] at held
      exact tidy.blank path entry held directory
  · intro path outside
    rw [getElem?_overwrite]
    by_cases target : path = moved.path
    · subst target
      left
      simp [here]
    · have distinct : moved.path ≠ path := Ne.symm target
      simp only [lastWrite_cons, lastWrite_nil, Option.none_or, distinct, ↓reduceIte,
        Option.getD_none, other target]
      rcases ledger.behind path (by simp)
        with equal | ⟨entry, id, size, mtime, ctime, held, own, dirty, row'⟩
      · exact Or.inl equal
      · refine Or.inr ⟨entry, id, size, mtime, ctime, held, own,
          mem_dirty_applyChange.mpr ⟨dirty, ?_, by simp [Change.write]⟩, row'⟩
        intro put
        obtain ⟨_, written, again⟩ := put
        cases written
        exact outside (congrArg some
          (tidy.owner (by simp) (by simp) (same.mp again) ⟨entry, held, own⟩))
  · intro path id equal holds dirty
    cases equal
    rw [Holds.congr (other (Ne.symm apart))] at holds
    exact (mem_dirty_applyChange.mp dirty).2.1 ⟨moved, rfl, same.mpr holds⟩

-- Lists of changes

variable {changes : List Change}

/-- A row after a list of changes was put by one of them, or was there before and none of them
is at its path.
-/
theorem overwrite_cases {rows : Rows}
    {entry : OverlayEntry}
    (found : (overwrite rows (changes.map Change.write))[path]? = some entry)
    : (Change.put entry ∈ changes ∧ entry.path = path)
      ∨ (rows[path]? = some entry ∧ ∀ change ∈ changes, change.write.1 ≠ path) := by
  rw [getElem?_overwrite] at found
  cases last : lastWrite path (changes.map Change.write) with
  | none =>
      rw [last] at found
      refine Or.inr ⟨found, ?_⟩
      intro change member here
      subst here
      have listed : (change.write.1, change.write.2) ∈ changes.map Change.write :=
        List.mem_map.mpr ⟨change, member, rfl⟩
      obtain ⟨value, written⟩ := exists_lastWrite listed
      rw [last] at written
      cases written
  | some value =>
      rw [last] at found
      obtain ⟨change, member, same⟩ := List.mem_map.mp (mem_of_lastWrite last)
      cases change with
      | delete gone =>
          cases same
          cases found
      | put row =>
          cases same
          cases found
          exact Or.inl ⟨member, rfl⟩

/-- Every change fits the overlay it meets. -/
def Fitting (stamp : Bool) : Overlay → List Change → Prop
  | _, [] => True
  | overlay, change :: rest =>
      change.Fits overlay ∧ Fitting stamp (overlay.applyChange stamp change) rest

theorem Fitting.append {left right : List Change}
    (first : Fitting stamp overlay left)
    (second : Fitting stamp (left.foldl (Overlay.applyChange stamp) overlay) right)
    : Fitting stamp overlay (left ++ right) := by
  induction left generalizing overlay with
  | nil => exact second
  | cons change left ih => exact ⟨first.1, ih first.2 second⟩

theorem Ledger.applyChanges (ledger : Ledger hole journaled overlay)
    (fitting : Fitting stamp overlay changes)
    : Ledger (changes.foldl holeAfter hole) (overwrite journaled (changes.map Change.write))
        (changes.foldl (Overlay.applyChange stamp) overlay) := by
  induction changes generalizing hole journaled overlay with
  | nil => exact ledger
  | cons change changes ih => exact ih (ledger.applyChange fitting.1) fitting.2

theorem Tidy.applyChanges (tidy : Tidy hole overlay)
    (fitting : Fitting stamp overlay changes)
    : Tidy (changes.foldl holeAfter hole)
        (changes.foldl (Overlay.applyChange stamp) overlay) := by
  induction changes generalizing hole overlay with
  | nil => exact tidy
  | cons change changes ih => exact ih (tidy.applyChange fitting.1) fitting.2

theorem foldl_holeAfter_none (changes : List Change)
    : changes.foldl holeAfter none = none := by
  induction changes with
  | nil => rfl
  | cons change changes ih => exact ih

theorem foldl_holeAfter_filled
    (fills : ∃ change ∈ changes, change.write.1 = path)
    : changes.foldl holeAfter (some path) = none := by
  induction changes with
  | nil =>
      obtain ⟨change, member, -⟩ := fills
      cases member
  | cons change changes ih =>
      rw [List.foldl_cons]
      by_cases here : change.write.1 = path
      · rw [show holeAfter (some path) change = none by simp [holeAfter, here]]
        exact foldl_holeAfter_none changes
      · rw [show holeAfter (some path) change = some path by
          simp [holeAfter, Ne.symm here]]
        obtain ⟨filling, member, same⟩ := fills
        rcases List.mem_cons.mp member with rfl | later
        · exact absurd same here
        · exact ih ⟨filling, later, same⟩

/-- A change that puts no local content. -/
def Change.Plain (change : Change) : Prop :=
  ∀ entry, change.write.2 = some entry → entry.content.localId = none

theorem Change.Plain.fits (plain : change.Plain) : change.Fits overlay := by
  cases change with
  | delete => trivial
  | put entry =>
      intro id content
      have blank := plain entry rfl
      rw [localId_iff.mpr content] at blank
      cases blank

theorem Fitting.plain (plain : ∀ change ∈ changes, change.Plain)
    : Fitting stamp overlay changes := by
  induction changes generalizing overlay with
  | nil => trivial
  | cons change changes ih =>
      exact ⟨(plain change (by simp)).fits, ih (fun later member => plain later (by simp [member]))⟩

theorem applyChange_nextContentId
    : (overlay.applyChange stamp change).nextContentId = overlay.nextContentId := by
  cases change <;> rfl

theorem byContent_of_plain (plain : ∀ change ∈ changes, change.Plain)
    (owned
      : (changes.foldl (Overlay.applyChange stamp) overlay).byContent[id]? = some path)
    : overlay.byContent[id]? = some path := by
  induction changes generalizing overlay with
  | nil => exact owned
  | cons change changes ih =>
      have before := ih (fun later member => plain later (by simp [member])) owned
      rcases applyChange_byContent.mp before with ⟨-, entry, written, content⟩ | ⟨found, -, -⟩
      · have blank := plain change (by simp) entry written
        rw [localId_iff.mpr content] at blank
        cases blank
      · exact found

/-- Rows that move with their directory fit: each leaves its path before it is put again. -/
theorem Fitting.movers {source target : BytePath} {now : Timestamp}
    {movers : List OverlayEntry} (tidy : Tidy hole overlay)
    (outside : ∀ row ∈ movers, hole ≠ some row.path)
    (own
      : ∀ row ∈ movers, ∀ id, row.content = .local id
          → id < overlay.nextContentId
            ∧ row.kind.isDir = false
            ∧ ∀ path, overlay.byContent[id]? = some path → path = row.path)
    (apart
      : movers.Pairwise (fun left right =>
          ∀ id, left.content = .local id → right.content ≠ .local id))
    : Fitting stamp overlay (Overlay.moverChanges source target now movers) := by
  induction movers generalizing hole overlay with
  | nil => trivial
  | cons row rest ih =>
      obtain ⟨first, later⟩ := List.pairwise_cons.mp apart
      cases present : row.present with
      | false =>
          have skipped
              : Overlay.moverChanges source target now (row :: rest)
                = Overlay.moverChanges source target now rest := by
            simp [Overlay.moverChanges, present]
          rw [skipped]
          exact ih tidy (fun row member => outside row (by simp [member]))
            (fun row member => own row (by simp [member])) later
      | true =>
          have split
              : Overlay.moverChanges source target now (row :: rest)
                = .delete row.path
                  :: .put (Overlay.moverEntry source target now row)
                  :: Overlay.moverChanges source target now rest := by
            simp [Overlay.moverChanges, present]
          rw [split]
          have gone : (Change.delete row.path).Fits overlay := trivial
          -- Once its row is deleted, no path owns the row's content.
          have freed {id : Nat} {path : BytePath} (content : row.content = .local id)
              (owned
                : (overlay.applyChange stamp (.delete row.path)).byContent[id]? = some path)
              : False := by
            rcases applyChange_byContent.mp owned with ⟨-, _, written, -⟩ | ⟨found, -, kept⟩
            · cases written
            · have here := (own row (by simp) id content).2.2 path found
              exact kept ⟨here, ((tidy.exact id path).mp found).2⟩
          have fits
              : (Change.put (Overlay.moverEntry source target now row)).Fits
                  (overlay.applyChange stamp (.delete row.path)) := by
            intro id content
            have here : row.content = .local id := content
            refine ⟨(own row (by simp) id here).1, (own row (by simp) id here).2.1, ?_⟩
            intro path owned
            exact absurd owned (fun owned => freed here owned)
          refine ⟨gone, fits, ih ((tidy.applyChange gone).applyChange fits) ?_ ?_ later⟩
          · intro other member same
            have before := (Option.filter_eq_some_iff.mp (Option.filter_eq_some_iff.mp same).1).1
            exact outside other (by simp [member]) before
          · intro other member id content
            obtain ⟨bound, leaf, mine⟩ := own other (by simp [member]) id content
            refine ⟨bound, leaf, ?_⟩
            intro path owned
            rcases applyChange_byContent.mp owned with ⟨-, entry, written, again⟩ | ⟨found, -, -⟩
            · cases written
              exact absurd content (first other member id again)
            · rcases applyChange_byContent.mp found with ⟨-, _, written, -⟩ | ⟨found, -, -⟩
              · cases written
              · exact mine path found

end Bookkeeping

end Gfs.Overlay
