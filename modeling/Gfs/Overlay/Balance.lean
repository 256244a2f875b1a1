import Gfs.Overlay.Ledger
import Gfs.Overlay.Removal

/-! What each operation's transaction does to the books. Until the journal is written an
operation moves only allocators, clocks and content files; the changes it writes then keep the
content index exact and the journal level with memory.
-/

namespace Gfs.Overlay

open Gfs.Types
open Gfs.Lib.Overwrites
open Std (ExtTreeMap ExtTreeSet)

-- Same books

/-- The two overlays agree on the rows and the content index. -/
structure SameRows (left right : Overlay) : Prop where
  entries : right.entries = left.entries
  byContent : right.byContent = left.byContent
  nextContentId : left.nextContentId ≤ right.nextContentId

/-- The two overlays agree on what the books are about. -/
structure SameBooks (left right : Overlay) : Prop extends SameRows left right where
  dirty : right.dirty = left.dirty

/-- What an operation may do before it writes the journal. -/
structure Poised (overlay prepared : Overlay) : Prop extends SameBooks overlay prepared where
  vanished : prepared.vanished = overlay.vanished
  vanishedOverflow : prepared.vanishedOverflow = overlay.vanishedOverflow
  rootTimes : prepared.rootTimes = overlay.rootTimes
  nextIno : overlay.nextIno ≤ prepared.nextIno

section Books

variable {hole : Option BytePath} {overlay left right : Overlay} {stamp : Bool}
  {journaled : Rows}

theorem SameBooks.refl (overlay : Overlay) : SameBooks overlay overlay :=
  ⟨⟨rfl, rfl, Nat.le_refl _⟩, rfl⟩

theorem Poised.refl (overlay : Overlay) : Poised overlay overlay :=
  ⟨.refl overlay, rfl, rfl, rfl, Nat.le_refl _⟩

theorem Poised.trans {middle : Overlay} (first : Poised left middle)
    (second : Poised middle right)
    : Poised left right where
  entries := second.entries.trans first.entries
  byContent := second.byContent.trans first.byContent
  dirty := second.dirty.trans first.dirty
  nextContentId := Nat.le_trans first.nextContentId second.nextContentId
  vanished := second.vanished.trans first.vanished
  vanishedOverflow := second.vanishedOverflow.trans first.vanishedOverflow
  rootTimes := second.rootTimes.trans first.rootTimes
  nextIno := Nat.le_trans first.nextIno second.nextIno

theorem Tidy.congr (tidy : Tidy hole left) (same : SameRows left right) : Tidy hole right where
  keyed := by
    rw [same.entries]
    exact tidy.keyed
  exact := by
    rw [same.entries, same.byContent]
    exact tidy.exact
  bounded := by
    rw [same.entries]
    exact fun path id holds => Nat.lt_of_lt_of_le (tidy.bounded path id holds) same.nextContentId
  blank := by
    rw [same.entries]
    exact tidy.blank

theorem Ledger.congr (ledger : Ledger hole journaled left) (same : SameBooks left right)
    : Ledger hole journaled right where
  tidy := ledger.tidy.congr same.toSameRows
  behind := by
    rw [same.entries, same.dirty]
    exact ledger.behind
  settled := by
    rw [same.entries, same.dirty]
    exact ledger.settled

/-- A change that fits the books fits any overlay with the same books. -/
theorem Fitting.congr {changes : List Change} (fitting : Fitting stamp left changes)
    (same : SameBooks left right)
    : Fitting stamp right changes := by
  induction changes generalizing left right with
  | nil => trivial
  | cons change changes ih =>
      refine ⟨?_, ih fitting.2 ?_⟩
      · cases change with
        | delete => trivial
        | put entry =>
            intro id content
            obtain ⟨bound, leaf, own⟩ := fitting.1 id content
            rw [same.byContent]
            exact ⟨Nat.lt_of_lt_of_le bound same.nextContentId, leaf, own⟩
      · cases change with
        | delete path =>
            refine ⟨⟨?_, ?_, same.nextContentId⟩, ?_⟩
            · simp only [Overlay.applyChange, same.entries]
            · simp only [Overlay.applyChange, same.entries, same.byContent]
            · simp only [Overlay.applyChange, same.entries, same.dirty]
        | put entry =>
            refine ⟨⟨?_, ?_, same.nextContentId⟩, ?_⟩
            · simp only [Overlay.applyChange, same.entries]
            · simp only [Overlay.applyChange, same.entries, same.byContent]
            · simp only [Overlay.applyChange, same.dirty]

theorem Change.fits_own {path : BytePath} {entry updated : OverlayEntry}
    (tidy : Tidy none overlay) (found : overlay.entries[path]? = some entry)
    (own : updated.path = path) (content : updated.content = entry.content)
    (kind : updated.kind.isDir = entry.kind.isDir)
    : (Change.put updated).Fits overlay := by
  intro id local_
  rw [content] at local_
  have holds : Holds overlay.entries path id := ⟨entry, found, local_⟩
  refine ⟨tidy.bounded path id holds, ?_, ?_⟩
  · rw [kind, tidy.leaf found local_]
  · intro other owned
    rw [own]
    exact tidy.owner (by simp) (by simp) ((tidy.exact id other).mp owned).2 holds

theorem Change.fits_fresh {entry : OverlayEntry} {id : Nat} (tidy : Tidy none left)
    (same : SameBooks left right) (content : entry.content = .local id)
    (kind : entry.kind.isDir = false) (low : left.nextContentId ≤ id)
    (high : id < right.nextContentId)
    : (Change.put entry).Fits right := by
  intro other local_
  rw [content] at local_
  cases local_
  refine ⟨high, kind, ?_⟩
  intro path owned
  rw [same.byContent] at owned
  have bound := tidy.bounded path id ((tidy.exact id path).mp owned).2
  omega

end Books

-- Transactions

/-- Memory with everything of the transaction but its changes and its release. -/
def Transaction.begun (transaction : Transaction) : Overlay :=
  let memory := transaction.prepared
  let delta := VanishedDelta.of transaction.changes
  Overlay.applyVanished transaction.stamp
    {
      memory with
      sequence := if transaction.stamp then memory.sequence + 1 else memory.sequence
      rootTimes := transaction.rootTimes.or memory.rootTimes
    }
    delta
    (memory.vanishedOverflow || memory.vanished.size + delta.gone.length > vanishedLimit)

/-- The transaction keeps the books level. -/
def Transaction.Balanced (transaction : Transaction) : Prop :=
  ∀ journaled, Ledger none journaled transaction.prepared
    → Ledger none (overwrite journaled (transaction.changes.map Change.write))
        (transaction.changes.foldl (Overlay.applyChange transaction.stamp)
          transaction.begun)

/-- An operation moves only what it may before the journal, and its transaction balances. -/
def Attempt.Keeps {α : Type} (overlay : Overlay) : Attempt α → Prop
  | .refused _ after => Poised overlay after
  | .done _ after => Poised overlay after
  | .writes _ transaction => Poised overlay transaction.prepared ∧ transaction.Balanced

section Transactions

variable {overlay prepared : Overlay} {transaction : Transaction}

theorem Transaction.begun_books (transaction : Transaction)
    : SameBooks transaction.prepared transaction.begun :=
  ⟨⟨rfl, rfl, Nat.le_refl _⟩, rfl⟩

theorem Transaction.Balanced.of_fitting
    (fitting : Fitting transaction.stamp transaction.prepared transaction.changes)
    : transaction.Balanced := by
  intro journaled ledger
  have kept := (ledger.congr transaction.begun_books).applyChanges
    (fitting.congr transaction.begun_books)
  rw [foldl_holeAfter_none] at kept
  exact kept

theorem adoptIno_poised (overlay : Overlay) (ino : Nat)
    : Poised overlay (overlay.adoptIno ino).2 := by
  refine ⟨⟨⟨rfl, rfl, Nat.le_refl _⟩, rfl⟩, rfl, rfl, rfl, ?_⟩
  simp only [Overlay.adoptIno]
  split <;> omega

theorem nextTime_poised (overlay : Overlay) (host : Timestamp)
    : Poised overlay (overlay.nextTime host).2 :=
  ⟨⟨⟨rfl, rfl, Nat.le_refl _⟩, rfl⟩, rfl, rfl, rfl, Nat.le_refl _⟩

theorem allocateContentId_poised (overlay : Overlay)
    : Poised overlay overlay.allocateContentId.2 :=
  ⟨⟨⟨rfl, rfl, Nat.le_succ _⟩, rfl⟩, rfl, rfl, rfl, Nat.le_refl _⟩

/-- A parent's new times are a directory's row or none, and take at most a number. -/
theorem parentTouch_plain (tidy : Tidy none overlay) (path : BytePath) (parent : Parent)
    (now : Timestamp)
    : Poised overlay (overlay.parentTouch path parent now).2
      ∧ ∀ entry, (overlay.parentTouch path parent now).1 = .row entry
          → (Change.put entry).Plain := by
  unfold Overlay.parentTouch
  by_cases root : parentOf path = []
  · simp only [root, ↓reduceIte]
    exact ⟨.refl overlay, fun entry same => by cases same⟩
  · simp only [root, ↓reduceIte]
    cases resolved : resolve overlay.entries (parentOf path) with
    | absent => exact ⟨.refl overlay, fun entry same => by cases same⟩
    | overlay row =>
        simp only
        split
        · rename_i directory
          refine ⟨.refl overlay, ?_⟩
          intro entry same put written
          cases same
          cases written
          have found := (resolve_eq_overlay.mp resolved).2.1
          simp only [Bool.and_eq_true] at directory
          exact tidy.blank _ row found directory.2
        · exact ⟨.refl overlay, fun entry same => by cases same⟩
    | base =>
        cases parent.base with
        | none => exact ⟨.refl overlay, fun entry same => by cases same⟩
        | some facts =>
            simp only
            cases kinds : (OverlayKind.fromEntryKind facts.kind).filter OverlayKind.isDir with
            | none => exact ⟨.refl overlay, fun entry same => by cases same⟩
            | some kind =>
                refine ⟨adoptIno_poised overlay parent.ino, ?_⟩
                intro entry same put written
                cases same
                cases written
                have directory := (Option.filter_eq_some_iff.mp kinds).2
                simp [Overlay.adoptedEntry, directory, Content.localId]

theorem pushTouch_append (touch : ParentTouch) (changes : List Change)
    (rootTimes : Option (Timestamp × Timestamp)) (now : Timestamp)
    : ∃ touches, (Overlay.pushTouch touch changes rootTimes now).1 = changes ++ touches
        ∧ ∀ change ∈ touches, ∃ entry, touch = .row entry ∧ change = .put entry := by
  cases touch with
  | root => exact ⟨[], by simp [Overlay.pushTouch], by simp⟩
  | nothing => exact ⟨[], by simp [Overlay.pushTouch], by simp⟩
  | row entry => exact ⟨[.put entry], rfl, by simp⟩

theorem transactionTouching_eq (tidy : Tidy none overlay) (path : BytePath) (parent : Parent)
    (changes : List Change) (release : List Nat) (now : Timestamp)
    : Poised overlay (overlay.transactionTouching path parent changes release now).prepared
      ∧ (overlay.transactionTouching path parent changes release now).stamp = true
      ∧ ∃ touches,
          (overlay.transactionTouching path parent changes release now).changes
            = changes ++ touches
          ∧ ∀ change ∈ touches, change.Plain := by
  obtain ⟨poised, plain⟩ := parentTouch_plain tidy path parent now
  obtain ⟨touches, same, rows⟩ :=
    pushTouch_append (overlay.parentTouch path parent now).1 changes none now
  refine ⟨poised, rfl, touches, same, ?_⟩
  intro change member
  obtain ⟨entry, touched, rfl⟩ := rows change member
  exact plain entry touched

theorem transactionRename_eq (tidy : Tidy none overlay) (source target : BytePath)
    (sourceParent targetParent : Parent) (changes : List Change) (release : List Nat)
    (now : Timestamp)
    : Poised overlay (overlay.transactionRename source target sourceParent targetParent changes
          release now).prepared
      ∧ (overlay.transactionRename source target sourceParent targetParent changes release
          now).stamp = true
      ∧ ∃ touches,
          (overlay.transactionRename source target sourceParent targetParent changes release
            now).changes = changes ++ touches
          ∧ ∀ change ∈ touches, change.Plain := by
  obtain ⟨poised, plain⟩ := parentTouch_plain tidy source sourceParent now
  obtain ⟨touches, same, rows⟩ :=
    pushTouch_append (overlay.parentTouch source sourceParent now).1 changes none now
  have plainly : ∀ change ∈ touches, change.Plain := by
    intro change member
    obtain ⟨entry, touched, rfl⟩ := rows change member
    exact plain entry touched
  simp only [Overlay.transactionRename]
  split
  · exact ⟨poised, rfl, touches, same, plainly⟩
  · obtain ⟨poisedTarget, plainTarget⟩ :=
      parentTouch_plain (tidy.congr poised.toSameRows) target targetParent now
    obtain ⟨more, sameTarget, rowsTarget⟩ := pushTouch_append
      ((overlay.parentTouch source sourceParent now).2.parentTouch target targetParent now).1
      (Overlay.pushTouch (overlay.parentTouch source sourceParent now).1 changes none now).1
      (Overlay.pushTouch (overlay.parentTouch source sourceParent now).1 changes none now).2
      now
    refine ⟨poised.trans poisedTarget, rfl, touches ++ more, ?_, ?_⟩
    · rw [← List.append_assoc, ← same]
      exact sameTarget
    · intro change member
      rcases List.mem_append.mp member with first | second
      · exact plainly change first
      · obtain ⟨entry, touched, rfl⟩ := rowsTarget change second
        exact plainTarget entry touched

end Transactions

-- The operations

section Operations

variable {overlay : Overlay} (tidy : Tidy none overlay)

theorem Balanced.touching {prepared : Overlay} (tidy : Tidy none prepared)
    {changes : List Change} (fitting : Fitting true prepared changes) (path : BytePath)
    (parent : Parent) (release : List Nat) (now : Timestamp)
    : (prepared.transactionTouching path parent changes release now).Balanced := by
  obtain ⟨poised, stamped, touches, same, plain⟩ :=
    transactionTouching_eq tidy path parent changes release now
  refine Transaction.Balanced.of_fitting ?_
  rw [stamped, same]
  exact (fitting.append (Fitting.plain plain)).congr poised.toSameBooks

include tidy

theorem attemptCreateFile_keeps (contentIo : Bool) (host : Timestamp) (path : BytePath)
    (base : Option BaseFacts) (parent : Parent) (ino : Nat) (executable : Bool)
    : (overlay.attemptCreateFile contentIo host path base parent ino executable).Keeps
        overlay := by
  unfold Overlay.attemptCreateFile
  split
  · exact .refl overlay
  · have numbered := adoptIno_poised overlay ino
    have taken := numbered.trans (allocateContentId_poised (overlay.adoptIno ino).2)
    simp only
    split
    · exact taken
    · have stored
          : Poised overlay
              {
                (overlay.adoptIno ino).2.allocateContentId.2 with
                files :=
                  (overlay.adoptIno ino).2.allocateContentId.2.files.insert
                    (overlay.adoptIno ino).2.allocateContentId.1 []
                unsynced :=
                  (overlay.adoptIno ino).2.allocateContentId.2.unsynced.insert
                    (overlay.adoptIno ino).2.allocateContentId.1
              } :=
        ⟨⟨⟨taken.entries, taken.byContent, taken.nextContentId⟩, taken.dirty⟩, taken.vanished,
          taken.vanishedOverflow, taken.rootTimes, taken.nextIno⟩
      have timed := stored.trans (nextTime_poised _ host)
      have held := tidy.congr timed.toSameRows
      refine ⟨timed.trans (transactionTouching_eq held path parent _ _ _).1, ?_⟩
      apply Balanced.touching held
      refine ⟨?_, trivial⟩
      refine Change.fits_fresh tidy timed.toSameBooks rfl ?_ (Nat.le_refl _) (Nat.lt_succ_self _)
      cases executable <;> rfl

theorem attemptMkdir_keeps (host : Timestamp) (path : BytePath) (base : Option BaseFacts)
    (parent : Parent) (ino : Nat)
    : (overlay.attemptMkdir host path base parent ino).Keeps overlay := by
  unfold Overlay.attemptMkdir
  split
  · exact .refl overlay
  · have timed := (adoptIno_poised overlay ino).trans (nextTime_poised _ host)
    have held := tidy.congr timed.toSameRows
    refine ⟨timed.trans (transactionTouching_eq held path parent _ _ _).1, ?_⟩
    refine Balanced.touching held (Fitting.plain ?_) path parent [] _
    simp [Change.Plain, Change.write, Content.localId]

theorem attemptSymlink_keeps (host : Timestamp) (path : BytePath) (target : Bytes)
    (base : Option BaseFacts) (parent : Parent) (ino : Nat)
    : (overlay.attemptSymlink host path target base parent ino).Keeps overlay := by
  unfold Overlay.attemptSymlink
  split
  · exact .refl overlay
  · have timed := (adoptIno_poised overlay ino).trans (nextTime_poised _ host)
    have held := tidy.congr timed.toSameRows
    refine ⟨timed.trans (transactionTouching_eq held path parent _ _ _).1, ?_⟩
    refine Balanced.touching held (Fitting.plain ?_) path parent [] _
    simp [Change.Plain, Change.write, Content.localId]

omit tidy in
/-- What is copied up is a file. -/
theorem copyUpSource_kind {path : BytePath} {base : Option BaseFacts} {ino : Nat}
    {copy : Overlay.CopyUp} (found : overlay.copyUpSource path base ino = .ok (.inr copy))
    : copy.kind.isDir = false := by
  unfold Overlay.copyUpSource at found
  split at found
  · cases found
  · split at found
    · cases found
    · split at found
      · cases found
      · split at found
        · cases found
        · rename_i leaf _
          cases found
          simpa using leaf
  · split at found
    · cases found
    · split at found
      · cases found
      · split at found
        · cases found
        · split at found
          · cases found
          · rename_i leaf _
            cases found
            simpa using leaf

theorem attemptMaterialize_keeps (contentIo : Bool) (host : Timestamp) (path : BytePath)
    (base : Option BaseFacts) (ino : Nat) (source : Option Bytes)
    : (overlay.attemptMaterialize contentIo host path base ino source).Keeps overlay := by
  unfold Overlay.attemptMaterialize
  split
  · exact .refl overlay
  · exact .refl overlay
  · rename_i copy found
    have leaf : copy.kind.isDir = false := by
      cases checked : pathCondition path with
      | error refusal =>
          rw [checked] at found
          cases found
      | ok =>
          rw [checked] at found
          exact copyUpSource_kind found
    have taken := allocateContentId_poised overlay
    simp only
    split
    · exact taken
    · split
      · exact taken
      · have stored
            : Poised overlay
                {
                  overlay.allocateContentId.2 with
                  files :=
                    overlay.allocateContentId.2.files.insert overlay.allocateContentId.1
                      (source.getD [])
                  unsynced :=
                    overlay.allocateContentId.2.unsynced.insert overlay.allocateContentId.1
                } :=
          ⟨⟨⟨taken.entries, taken.byContent, taken.nextContentId⟩, taken.dirty⟩, taken.vanished,
            taken.vanishedOverflow, taken.rootTimes, taken.nextIno⟩
        have timed := stored.trans (nextTime_poised _ host)
        refine ⟨timed, Transaction.Balanced.of_fitting ⟨?_, trivial⟩⟩
        exact Change.fits_fresh tidy timed.toSameBooks rfl leaf (Nat.le_refl _)
          (Nat.lt_succ_self _)

theorem attemptTruncate_keeps (contentIo : Bool) (host : Timestamp) (path : BytePath)
    (size : Nat)
    : (overlay.attemptTruncate contentIo host path size).Keeps overlay := by
  unfold Overlay.attemptTruncate
  split
  · exact .refl overlay
  · rename_i entry found
    have there := (Option.filter_eq_some_iff.mp found).1
    split
    · exact .refl overlay
    · split
      · exact .refl overlay
      · rename_i id _
        split
        · exact .refl overlay
        · split
          · exact .refl overlay
          · rename_i file _
            have stored
                : Poised overlay
                    { overlay with files := overlay.files.insert id (setLen file size) } :=
              ⟨⟨⟨rfl, rfl, Nat.le_refl _⟩, rfl⟩, rfl, rfl, rfl, Nat.le_refl _⟩
            have timed := stored.trans (nextTime_poised _ host)
            refine ⟨timed, Transaction.Balanced.of_fitting ⟨?_, trivial⟩⟩
            exact Change.fits_own (tidy.congr timed.toSameRows) there
              (tidy.keyed path entry there) rfl rfl

theorem attemptSettle_keeps (contentId : Nat)
    (known : (overlay.byContent[contentId]?.bind (fun path => overlay.entries[path]?)).isSome
        = true ∨ contentId ∉ overlay.dirty)
    : (overlay.attemptSettle contentId).Keeps overlay := by
  unfold Overlay.attemptSettle
  split
  · rename_i missing
    rw [missing] at known
    rcases known with found | clean
    · cases found
    · refine ⟨⟨⟨rfl, rfl, Nat.le_refl _⟩, ?_⟩, rfl, rfl, rfl, Nat.le_refl _⟩
      ext id
      simp only [ExtTreeSet.mem_erase, and_iff_right_iff_imp]
      intro member same
      rw [← Std.LawfulEqCmp.compare_eq_iff_eq.mp same] at member
      exact clean member
  · rename_i entry found
    split
    · refine ⟨.refl overlay, Transaction.Balanced.of_fitting ⟨?_, trivial⟩⟩
      obtain ⟨path, -, there⟩ := Option.bind_eq_some_iff.mp found
      exact Change.fits_own tidy there (tidy.keyed path entry there) rfl rfl
    · exact .refl overlay

omit tidy in
theorem attemptAdopt_keeps (host : Timestamp) (path : BytePath) (base : Option BaseFacts)
    (ino : Nat)
    : (overlay.attemptAdopt host path base ino).Keeps overlay := by
  unfold Overlay.attemptAdopt
  split
  · exact .refl overlay
  · split
    · exact .refl overlay
    · split
      · exact .refl overlay
      · exact .refl overlay
      · split
        · exact .refl overlay
        · split
          · exact .refl overlay
          · refine ⟨nextTime_poised overlay host, Transaction.Balanced.of_fitting
              (Fitting.plain ?_)⟩
            intro change member entry written
            rw [List.mem_singleton.mp member] at written
            cases written
            simp only [Overlay.adoptedEntry]
            split <;> rfl

theorem attemptExecutable_keeps {path : BytePath} {entry : OverlayEntry}
    (found : overlay.entries[path]? = some entry) (host : Timestamp) (executable : Bool)
    : (overlay.attemptExecutable host entry executable).Keeps overlay := by
  unfold Overlay.attemptExecutable
  simp only
  by_cases changes : entry.kind.isDir = true ∨ entry.kind = .symlink
      ∨ entry.kind = if executable then .executable else .regular
  · rw [if_pos changes]
    exact .refl overlay
  · rw [if_neg changes]
    have timed := nextTime_poised overlay host
    refine ⟨timed, Transaction.Balanced.of_fitting ⟨?_, trivial⟩⟩
    refine Change.fits_own (tidy.congr timed.toSameRows) found (tidy.keyed path entry found)
      rfl ?_
    have leaf : entry.kind.isDir = false := by
      cases directory : entry.kind.isDir with
      | false => rfl
      | true => exact absurd (Or.inl directory) changes
    rw [leaf]
    cases executable <;> rfl

theorem attemptTimes_keeps {path : BytePath} {entry : OverlayEntry}
    (found : overlay.entries[path]? = some entry) (host : Timestamp)
    (mtime : Option Timestamp)
    : (overlay.attemptTimes host entry mtime).Keeps overlay := by
  have timed := nextTime_poised overlay host
  refine ⟨timed, Transaction.Balanced.of_fitting ⟨?_, trivial⟩⟩
  exact Change.fits_own (tidy.congr timed.toSameRows) found (tidy.keyed path entry found)
    rfl rfl

omit tidy in
theorem attemptTouchRoot_keeps (host : Timestamp) (mtime : Option Timestamp)
    : (overlay.attemptTouchRoot host mtime).Keeps overlay :=
  ⟨nextTime_poised overlay host, Transaction.Balanced.of_fitting trivial⟩

omit tidy in
theorem attemptReferenceBase_keeps (contentId : Nat) (hashed : OverlayEntry)
    (oid : ObjectId)
    : (overlay.attemptReferenceBase contentId hashed oid).Keeps overlay := by
  unfold Overlay.attemptReferenceBase
  split
  · exact .refl overlay
  · split
    · refine ⟨.refl overlay, Transaction.Balanced.of_fitting (Fitting.plain ?_)⟩
      simp [Overlay.transaction, Change.Plain, Change.write, Content.localId]
    · exact .refl overlay

omit tidy in
theorem departure_plain (row : Option OverlayEntry) (path : BytePath)
    (base : Option BaseFacts) (now : Timestamp)
    : (Overlay.departure row path base now).Plain := by
  intro entry written
  unfold Overlay.departure at written
  split at written
  · cases written
    rfl
  · cases written

theorem attemptRemove_keeps (host later : Timestamp) (path : BytePath)
    (base : Option BaseFacts) (parent : Parent) (expectDir mergedIsEmpty : Bool)
    : (overlay.attemptRemove host later path base parent expectDir mergedIsEmpty).Keeps
        overlay := by
  unfold Overlay.attemptRemove
  split
  · exact .refl overlay
  · split
    · exact .refl overlay
    · split
      · exact .refl overlay
      · split
        · exact .refl overlay
        · split
          · exact .refl overlay
          · rename_i kind _ _ _ _
            simp only
            generalize hides : ((overlay.entries[path]?.bind OverlayEntry.base).or base).isSome
              = hidden
            have first
                : Poised overlay
                    (if hidden = true then overlay.nextTime host
                      else (overlay.clock, overlay)).2 := by
              split
              · exact nextTime_poised overlay host
              · exact .refl overlay
            have timed := first.trans (nextTime_poised _ (if hidden = true then later else host))
            have held := tidy.congr timed.toSameRows
            refine ⟨timed.trans (transactionTouching_eq held path parent _ _ _).1, ?_⟩
            refine Balanced.touching held (Fitting.plain ?_) path parent _ _
            intro change member
            rcases List.mem_append.mp member with deleted | last
            · obtain ⟨victim, -, rfl⟩ := List.mem_map.mp deleted
              intro entry written
              cases written
            · rw [List.mem_singleton.mp last]
              exact departure_plain _ _ _ _

end Operations

-- Renaming

section Renaming

variable {overlay : Overlay} {journaled : Rows}

theorem deletions_entries {changes : List Change} {stamp : Bool}
    (deletions : ∀ change ∈ changes, ∃ path, change = .delete path) (path : BytePath)
    : (changes.foldl (Overlay.applyChange stamp) overlay).entries[path]? = none
      ∨ (changes.foldl (Overlay.applyChange stamp) overlay).entries[path]?
        = overlay.entries[path]? := by
  rw [(Overlay.applyChanges_fields stamp changes overlay).1, getElem?_overwrite]
  cases last : lastWrite path (changes.map Change.write) with
  | none => exact Or.inr rfl
  | some value =>
      obtain ⟨change, member, same⟩ := List.mem_map.mp (mem_of_lastWrite last)
      obtain ⟨gone, rfl⟩ := deletions change member
      cases same
      exact Or.inl rfl

/-- The content of a renamed row is that of the row it came from, or none of its own. -/
def BringsContent (overlay : Overlay) (source : BytePath) (moved : OverlayEntry) : Prop :=
  (∃ row,
      overlay.entries[source]? = some row
      ∧ moved.content = row.content
      ∧ moved.kind = row.kind)
  ∨ moved.content.localId = none

section Cleared

variable {stamp : Bool} {source target : BytePath} {now : Timestamp} {cleared : List Change}
  {moved : OverlayEntry} (ledger : Ledger none journaled overlay)
  (deletions : ∀ change ∈ cleared, ∃ path, change = .delete path)

include deletions in
theorem deletions_plain : ∀ change ∈ cleared, change.Plain := by
  intro change member entry written
  obtain ⟨path, rfl⟩ := deletions change member
  cases written

include ledger deletions

theorem Ledger.emptied
    : Ledger none (overwrite journaled (cleared.map Change.write))
        (cleared.foldl (Overlay.applyChange stamp) overlay) := by
  have plain := deletions_plain deletions
  have kept := ledger.applyChanges (Fitting.plain plain : Fitting stamp overlay cleared)
  rwa [foldl_holeAfter_none] at kept

theorem Ledger.holds_cleared {id : Nat} {path : BytePath}
    (owned : (cleared.foldl (Overlay.applyChange stamp) overlay).byContent[id]? = some path)
    : Holds overlay.entries path id :=
  ((ledger.tidy.exact id path).mp (byContent_of_plain (deletions_plain deletions) owned)).2

/-- The renamed row digs a hole at its source, unless the clearing took that row already. -/
theorem Ledger.put_renamed (apart : target ≠ source) (own : moved.path = target)
    (origin : BringsContent overlay source moved)
    : ∃ hole,
        (hole = none ∨ hole = some source)
        ∧ Ledger hole
            (overwrite (overwrite journaled (cleared.map Change.write))
              [(moved.path, some moved)])
            ((cleared.foldl (Overlay.applyChange stamp) overlay).applyChange stamp
              (.put moved)) := by
  have tidy := ledger.tidy
  have emptied : Ledger none _ (cleared.foldl (Overlay.applyChange stamp) overlay) :=
    ledger.emptied deletions
  have put := @Ledger.applyChange none _ (.put moved) stamp _ emptied
  rcases origin with ⟨row, found, content, kind⟩ | blank
  · rcases @deletions_entries overlay cleared stamp deletions source with gone | stays
    · refine ⟨none, Or.inl rfl, put ?_⟩
      intro id here
      rw [content] at here
      have holds : Holds overlay.entries source id := ⟨row, found, here⟩
      refine ⟨?_, by rw [kind, tidy.leaf found here], ?_⟩
      · rw [(Overlay.applyChanges_fields stamp cleared overlay).2.2.1]
        exact tidy.bounded source id holds
      · intro path owned
        have same : path = source :=
          tidy.owner (by simp) (by simp) (ledger.holds_cleared deletions owned) holds
        obtain ⟨-, entry, held, -⟩ := (emptied.tidy.exact id path).mp owned
        rw [same, gone] at held
        cases held
    · rw [found] at stays
      exact ⟨some source, Or.inr rfl, emptied.dig stays (own ▸ apart) content kind⟩
  · refine ⟨none, Or.inl rfl, put (Change.Plain.fits ?_)⟩
    intro entry written
    cases written
    exact blank

/-- The rows below the source fit where they follow the renamed row. -/
theorem Ledger.movers_fit {hole : Option BytePath} {movers : List OverlayEntry}
    (either : hole = none ∨ hole = some source)
    (dug
      : Tidy hole
          ((cleared.foldl (Overlay.applyChange stamp) overlay).applyChange stamp (.put moved)))
    (origin : BringsContent overlay source moved)
    (below : ∀ row ∈ movers, row.path ≠ source ∧ overlay.entries[row.path]? = some row)
    (distinct : movers.Pairwise (fun left right => left.path ≠ right.path))
    : Fitting stamp
        ((cleared.foldl (Overlay.applyChange stamp) overlay).applyChange stamp (.put moved))
        (Overlay.moverChanges source target now movers) := by
  have tidy := ledger.tidy
  refine Fitting.movers dug ?_ ?_ ?_
  · intro row member same
    rcases either with none_ | some_
    · rw [none_] at same
      cases same
    · rw [some_] at same
      exact (below row member).1 (Option.some.inj same).symm
  · intro row member id content
    obtain ⟨elsewhere, found⟩ := below row member
    have holds : Holds overlay.entries row.path id := ⟨row, found, content⟩
    refine ⟨?_, tidy.leaf found content, ?_⟩
    · rw [applyChange_nextContentId, (Overlay.applyChanges_fields stamp cleared overlay).2.2.1]
      exact tidy.bounded row.path id holds
    · intro path owned
      rcases applyChange_byContent.mp owned with ⟨-, entry, written, again⟩ | ⟨held, -, -⟩
      · cases written
        rcases origin with ⟨old, there, same, -⟩ | blank
        · rw [same] at again
          exact absurd (tidy.owner (by simp) (by simp) holds ⟨old, there, again⟩) elsewhere
        · rw [localId_iff.mpr again] at blank
          cases blank
      · exact tidy.owner (by simp) (by simp) (ledger.holds_cleared deletions held) holds
  · refine distinct.imp_of_mem ?_
    intro left right leftMember rightMember different id content again
    exact different (tidy.owner (by simp) (by simp)
      ⟨left, (below left leftMember).2, content⟩ ⟨right, (below right rightMember).2, again⟩)

/-- A rename's changes keep the ledger: the destination is cleared, the renamed row put there,
the rows below it follow one by one, and what is left at the source closes the hole.
-/
theorem Ledger.rename {rest : List Change} {movers : List OverlayEntry} (apart : target ≠ source)
    (own : moved.path = target) (origin : BringsContent overlay source moved)
    (below : ∀ row ∈ movers, row.path ≠ source ∧ overlay.entries[row.path]? = some row)
    (distinct : movers.Pairwise (fun left right => left.path ≠ right.path))
    (plain : ∀ change ∈ rest, change.Plain)
    (closes : ∃ change ∈ rest, change.write.1 = source)
    : Ledger none
        (overwrite journaled
          ((cleared ++ .put moved :: (Overlay.moverChanges source target now movers ++ rest)).map
            Change.write))
        ((cleared ++ .put moved :: (Overlay.moverChanges source target now movers ++ rest)).foldl
          (Overlay.applyChange stamp) overlay) := by
  obtain ⟨hole, either, dug⟩
      : ∃ hole,
          (hole = none ∨ hole = some source)
          ∧ Ledger hole _
              ((cleared.foldl (Overlay.applyChange stamp) overlay).applyChange stamp
                (.put moved)) :=
    ledger.put_renamed deletions apart own origin
  have fitting : Fitting stamp _ (Overlay.moverChanges source target now movers) :=
    ledger.movers_fit deletions either dug.tidy origin below distinct
  have kept := dug.applyChanges (fitting.append (Fitting.plain plain))
  have filled
      : (Overlay.moverChanges source target now movers ++ rest).foldl holeAfter hole = none := by
    rcases either with rfl | rfl
    · exact foldl_holeAfter_none _
    · refine foldl_holeAfter_filled ?_
      obtain ⟨change, member, same⟩ := closes
      exact ⟨change, List.mem_append_right _ member, same⟩
  rw [filled] at kept
  have writes
      : overwrite journaled
          (cleared.map Change.write
            ++ (Change.put moved).write
              :: (Overlay.moverChanges source target now movers ++ rest).map Change.write)
        = overwrite
            (overwrite (overwrite journaled (cleared.map Change.write)) [(moved.path, some moved)])
            ((Overlay.moverChanges source target now movers ++ rest).map Change.write) := by
    simp [overwrite, Change.write]
  rw [List.foldl_append, List.foldl_cons, List.map_append, List.map_cons, writes]
  exact kept

end Cleared

theorem movedEntry_books {row : Option OverlayEntry} {source target : BytePath}
    {sourceBase targetBase : Option BaseFacts} {now : Timestamp} {sourceIno : Nat}
    {moved : OverlayEntry} {after : Overlay}
    (done
      : Overlay.movedEntry row source target sourceBase targetBase now overlay sourceIno
        = .ok (moved, after))
    : after = { overlay with nextIno := after.nextIno }
      ∧ overlay.nextIno ≤ after.nextIno
      ∧ moved.path = target
      ∧ ((∃ old, row = some old
            ∧ moved.content = old.content ∧ moved.kind = old.kind ∧ moved.size = old.size)
          ∨ moved.content.localId = none) := by
  unfold Overlay.movedEntry at done
  split at done
  · rename_i old found
    cases done
    exact ⟨rfl, Nat.le_refl _, rfl,
      Or.inl ⟨old, (Option.filter_eq_some_iff.mp found).1, rfl, rfl, rfl⟩⟩
  · split at done
    · cases done
    · split at done
      · cases done
      · cases done
        refine ⟨rfl, (adoptIno_poised overlay sourceIno).nextIno, rfl, Or.inr ?_⟩
        simp only
        split <;> rfl

theorem descendantChanges_plain {rows : Rows} {source target : BytePath} {now : Timestamp}
    {nextIno : Nat} {descendants : List BaseDescendant}
    : nextIno ≤ (Overlay.descendantChanges rows source target now nextIno descendants).2
      ∧ ∀ change ∈ (Overlay.descendantChanges rows source target now nextIno descendants).1,
          change.Plain := by
  induction descendants generalizing nextIno with
  | nil => exact ⟨Nat.le_refl _, by simp [Overlay.descendantChanges]⟩
  | cons descendant rest ih =>
      unfold Overlay.descendantChanges
      split
      · exact ih
      · split
        · exact ih
        · rename_i kind _
          obtain ⟨grows, plain⟩ := @ih (nextIno + 1)
          refine ⟨Nat.le_trans (Nat.le_succ _) grows, ?_⟩
          intro change member
          rcases List.mem_cons.mp member with rfl | later
          · intro entry written
            cases written
            simp only [Overlay.descendantEntry]
            split <;> rfl
          · exact plain change later

theorem mem_rowsUnder_of {rows : Rows} {dir : BytePath} {entry : OverlayEntry}
    (member : entry ∈ rowsUnder rows dir)
    : ∃ path : BytePath, rows[path]? = some entry := by
  unfold rowsUnder at member
  split at member
  · obtain ⟨⟨path, row⟩, listed, same⟩ := List.mem_map.mp member
    cases same
    exact ⟨path, ExtTreeMap.mem_toList_iff_getElem?_eq_some.mp listed⟩
  · obtain ⟨⟨path, row⟩, listed, same⟩ := List.mem_map.mp member
    cases same
    exact ⟨path, ExtTreeMap.mem_toList_iff_getElem?_eq_some.mp (List.mem_filter.mp listed).1⟩

/-- The rows under a directory have paths of their own. -/
theorem rowsUnder_distinct {rows : Rows}
    (keyed
      : ∀ (path : BytePath) (entry : OverlayEntry),
          rows[path]? = some entry → entry.path = path)
    (dir : BytePath)
    : (rowsUnder rows dir).Pairwise (fun left right => left.path ≠ right.path) := by
  have listed : (rows.toList.map Prod.snd).Pairwise (fun left right => left.path ≠ right.path) := by
    rw [List.pairwise_map]
    refine ExtTreeMap.distinct_keys_toList.imp_of_mem ?_
    intro left right leftMember rightMember different same
    refine different ?_
    have leftOwn := keyed left.1 left.2
      (ExtTreeMap.mem_toList_iff_getElem?_eq_some.mp leftMember)
    have rightOwn := keyed right.1 right.2
      (ExtTreeMap.mem_toList_iff_getElem?_eq_some.mp rightMember)
    rw [← leftOwn, ← rightOwn, same]
    exact Std.ReflCmp.compare_self
  unfold rowsUnder
  split
  · exact listed
  · exact listed.sublist (List.filter_sublist.map _)

/-- Neither end of a rename that passes its checks is the root. -/
theorem rename_nonroot {source target : BytePath}
    (checked
      : (do
          pathCondition source
          pathCondition target
          if source = [] ∨ target = [] then throw Condition.invalid
            : Except Condition Unit) = .ok ())
    : source ≠ [] ∧ target ≠ [] := by
  rw [← not_or]
  intro root
  cases first : pathCondition source with
  | error refusal =>
      rw [first] at checked
      cases checked
  | ok =>
      cases second : pathCondition target with
      | error refusal =>
          rw [first, second] at checked
          cases checked
      | ok =>
          rw [first, second, if_pos root] at checked
          cases checked

/-- What a rename moves: the renamed row, the rows below it, what arrives of the base below it,
and what is left at the source.
-/
structure Moving (overlay : Overlay) (source target : BytePath) (moved : OverlayEntry)
    (movers : List OverlayEntry) (arrived : List Change) (left : Change)
    : Prop where
  own : moved.path = target
  origin
    : (∃ row, overlay.entries[source]? = some row
        ∧ moved.content = row.content ∧ moved.kind = row.kind ∧ moved.size = row.size)
      ∨ moved.content.localId = none
  below
    : (movers = [] ∧ arrived = [])
      ∨ (moved.kind.isDir = true ∧ movers = rowsUnder overlay.entries source)
  arrives : ∀ change ∈ arrived, change.Plain
  leaves : left.Plain
  there : left.write.1 = source

/-- What a rename's transaction writes, without its parents' new times. -/
def moveChanges (overlay : Overlay) (source target : BytePath) (now : Timestamp)
    (moved : OverlayEntry) (movers : List OverlayEntry) (arrived : List Change) (left : Change)
    : List Change :=
  (rowsUnder overlay.entries target).map (fun victim => Change.delete victim.path)
  ++ .put moved
    :: (Overlay.moverChanges source target now movers ++ (arrived ++ [left]))

/-- Memory once a rename has read the clock and taken inode numbers. -/
def renameReady (overlay : Overlay) (host : Timestamp) (nextIno : Nat) : Overlay :=
  { (overlay.nextTime host).2 with nextIno }

/-- The content that goes with what a rename replaces. -/
def renameRelease (overlay : Overlay) (target : BytePath) : List Nat :=
  (overlay.entries[target]?.bind (·.content.localId)).toList
  ++ (rowsUnder overlay.entries target).filterMap (·.content.localId)

theorem renameReady_poised {nextIno : Nat} (grows : overlay.nextIno ≤ nextIno)
    (host : Timestamp)
    : Poised overlay (renameReady overlay host nextIno) :=
  ⟨⟨⟨rfl, rfl, Nat.le_refl _⟩, rfl⟩, rfl, rfl, rfl, grows⟩

theorem departure_there (row : Option OverlayEntry) (path : BytePath)
    (base : Option BaseFacts) (now : Timestamp)
    : (Overlay.departure row path base now).write.1 = path := by
  unfold Overlay.departure
  split <;> rfl

section Attempt

variable {host : Timestamp} {source target : BytePath} {sourceIno : Nat}
  {sourceBase targetBase : Option BaseFacts} {sourceParent targetParent : Parent}
  {descendants : List BaseDescendant} {targetMergedIsEmpty noReplace : Bool} {nextIno : Nat}
  {moved : OverlayEntry} {movers : List OverlayEntry} {arrived : List Change}

/-- What comes along with the renamed row: behind a directory, the rows below it and what the base
has there.
-/
def Brings (overlay : Overlay) (host : Timestamp) (source target : BytePath) (sourceIno : Nat)
    (sourceBase targetBase : Option BaseFacts) (descendants : List BaseDescendant)
    (moved : OverlayEntry) (movers : List OverlayEntry) (arrived : List Change) (nextIno : Nat)
    : Prop :=
  ∃ after,
    Overlay.movedEntry overlay.entries[source]? source target sourceBase targetBase
        (overlay.nextTime host).1 (overlay.nextTime host).2 sourceIno
      = .ok (moved, after)
    ∧ ((movers = [] ∧ arrived = [] ∧ nextIno = after.nextIno)
      ∨ (moved.kind.isDir = true
        ∧ movers = rowsUnder overlay.entries source
        ∧ (arrived, nextIno)
          = Overlay.descendantChanges overlay.entries source target (overlay.nextTime host).1
              after.nextIno descendants))

/-- A rename is refused, has nothing to do, or writes what it moves. -/
theorem attemptRename_cases {motive : Attempt Unit → Prop}
    (refused : ∀ condition, motive (.refused condition overlay))
    (stopped
      : ∀ condition n, overlay.nextIno ≤ n
          → motive (.refused condition (renameReady overlay host n)))
    (done : motive (.done () overlay))
    (writes
      : source ≠ target → source ≠ [] → target ≠ [] → ¬ isWithin target source = true
        → (do
            overlay.checkParent target targetParent.base
            match overlay.existing source sourceBase with
            | none => throw Condition.noEntry
            | some sourceKind =>
                match overlay.existing target targetBase with
                | none => pure ()
                | some targetKind =>
                    Overlay.checkReplace sourceKind targetKind targetMergedIsEmpty noReplace
              : Except Condition Unit) = .ok ()
        → ∀ moved movers arrived nextIno,
            Brings overlay host source target sourceIno sourceBase targetBase descendants moved
              movers arrived nextIno
            → motive
                (.writes ()
                  ((renameReady overlay host nextIno).transactionRename source target
                    sourceParent targetParent
                    (moveChanges overlay source target (overlay.nextTime host).1 moved movers
                      arrived
                      (Overlay.departure overlay.entries[source]? source sourceBase
                        (overlay.nextTime host).1))
                    (renameRelease overlay target) (overlay.nextTime host).1)))
    : motive
        (overlay.attemptRename host source sourceIno sourceBase sourceParent target targetBase
          targetParent descendants targetMergedIsEmpty noReplace) := by
  unfold Overlay.attemptRename
  split
  · exact refused _
  · rename_i checked
    obtain ⟨nonroot, targetNonroot⟩ := rename_nonroot checked
    by_cases same : source = target
    · rw [if_pos same]
      exact done
    · rw [if_neg same]
      split
      · exact refused _
      · rename_i outside
        split
        · exact refused _
        · rename_i admitted
          simp only
          split
          · exact stopped _ overlay.nextIno (Nat.le_refl _)
          · rename_i moved after ran
            obtain ⟨ready, grows, -, -⟩ := movedEntry_books ran
            split
            · rename_i directory
              split
              · rw [ready]
                exact stopped _ _ grows
              · have moves :=
                  writes same nonroot targetNonroot outside admitted moved _ _ _
                    ⟨after, ran, .inr ⟨directory, rfl, rfl⟩⟩
                rw [ready]
                simpa only [renameReady, renameRelease, moveChanges, List.append_assoc,
                  List.cons_append, List.nil_append] using moves
            · have moves :=
                writes same nonroot targetNonroot outside admitted moved [] [] _
                  ⟨after, ran, .inl ⟨rfl, rfl, rfl⟩⟩
              rw [ready]
              simpa only [renameReady, renameRelease, moveChanges, Overlay.moverChanges,
                List.flatMap_nil, List.nil_append, List.append_assoc, List.cons_append] using moves

theorem Brings.moving
    (brings
      : Brings overlay host source target sourceIno sourceBase targetBase descendants moved
          movers arrived nextIno)
    : overlay.nextIno ≤ nextIno
      ∧ Moving overlay source target moved movers arrived
          (Overlay.departure overlay.entries[source]? source sourceBase
            (overlay.nextTime host).1) := by
  obtain ⟨after, done, along⟩ := brings
  obtain ⟨-, grows, own, origin⟩ := movedEntry_books done
  have leaves := departure_plain overlay.entries[source]? source sourceBase
    (overlay.nextTime host).1
  have there := departure_there overlay.entries[source]? source sourceBase
    (overlay.nextTime host).1
  rcases along with ⟨rfl, rfl, rfl⟩ | ⟨directory, rfl, same⟩
  · exact ⟨grows, own, origin, .inl ⟨rfl, rfl⟩, by simp, leaves, there⟩
  · obtain ⟨further, plain⟩ := @descendantChanges_plain overlay.entries source target
      (overlay.nextTime host).1 after.nextIno descendants
    rw [← same] at further plain
    exact ⟨Nat.le_trans grows further, own, origin, .inr ⟨directory, rfl⟩, plain, leaves, there⟩

/-- What a rename puts: the renamed row, the rows below it, what arrives, and what is left. -/
theorem put_mem_moveChanges {now : Timestamp} {left : Change} {entry : OverlayEntry}
    (member : Change.put entry ∈ moveChanges overlay source target now moved movers arrived left)
    : entry = moved
      ∨ (∃ row ∈ movers, entry = Overlay.moverEntry source target now row)
      ∨ Change.put entry ∈ arrived
      ∨ left = .put entry := by
  simp only [moveChanges, List.mem_append, List.mem_cons, List.not_mem_nil, or_false] at member
  rcases member with cleared | same | moves | arrives | last
  · obtain ⟨victim, -, same⟩ := List.mem_map.mp cleared
    cases same
  · cases same
    exact .inl rfl
  · obtain ⟨row, listed, parts⟩ := List.mem_flatMap.mp moves
    split at parts
    · simp only [List.mem_cons, reduceCtorEq, Change.put.injEq, List.not_mem_nil, or_false,
        false_or] at parts
      exact .inr (.inl ⟨row, listed, parts⟩)
    · cases parts
  · exact .inr (.inr (.inl arrives))
  · exact .inr (.inr (.inr last.symm))

theorem attemptRename_keeps (tidy : Tidy none overlay) (host : Timestamp)
    (source target : BytePath) (sourceIno : Nat) (sourceBase targetBase : Option BaseFacts)
    (sourceParent targetParent : Parent) (descendants : List BaseDescendant)
    (targetMergedIsEmpty noReplace : Bool)
    : (overlay.attemptRename host source sourceIno sourceBase sourceParent target targetBase
        targetParent descendants targetMergedIsEmpty noReplace).Keeps overlay := by
  refine attemptRename_cases (fun _ => .refl overlay)
    (fun _ n grows => renameReady_poised grows host) (.refl overlay) ?_
  intro same nonroot _ _ _ moved movers arrived n brings
  obtain ⟨grows, moving⟩ := brings.moving
  have settled := renameReady_poised grows host
  obtain ⟨prepared, stamped, touches, written, plainly⟩ :=
    transactionRename_eq (tidy.congr settled.toSameRows) source target sourceParent targetParent
      (moveChanges overlay source target (overlay.nextTime host).1 moved movers arrived _)
      (renameRelease overlay target) (overlay.nextTime host).1
  generalize (renameReady overlay host n).transactionRename _ _ _ _ _ _ _ = transaction
    at prepared stamped written ⊢
  have whole := settled.trans prepared
  refine ⟨whole, ?_⟩
  intro journaled ledger
  have begun := ledger.congr transaction.begun_books
  have rows := transaction.begun_books.entries.trans whole.entries
  have deletions
      : ∀ change
          ∈ (rowsUnder overlay.entries target).map (fun victim => Change.delete victim.path),
          ∃ path, change = .delete path := by
    intro change member
    obtain ⟨victim, -, rfl⟩ := List.mem_map.mp member
    exact ⟨victim.path, rfl⟩
  rw [written, moveChanges, List.append_assoc, List.cons_append, List.append_assoc]
  refine Ledger.rename begun deletions (Ne.symm same) moving.own ?_ ?_ ?_ ?_ ?_
  · rw [BringsContent, rows]
    refine moving.origin.imp_left ?_
    rintro ⟨row, found, content, kind, -⟩
    exact ⟨row, found, content, kind⟩
  · rw [rows]
    rcases moving.below with ⟨rfl, -⟩ | ⟨-, rfl⟩
    · intro row member
      cases member
    · intro row member
      obtain ⟨rel, found⟩ := (mem_rowsUnder nonroot).mp member
      rw [tidy.keyed _ row found]
      exact ⟨by simp, found⟩
  · rcases moving.below with ⟨rfl, -⟩ | ⟨-, rfl⟩
    · exact List.Pairwise.nil
    · exact rowsUnder_distinct tidy.keyed source
  · intro change member
    rcases List.mem_append.mp member with inner | touch
    · rcases List.mem_append.mp inner with first | last
      · exact moving.arrives change first
      · rw [List.mem_singleton.mp last]
        exact moving.leaves
    · exact plainly change touch
  · exact ⟨_, List.mem_append_left _ (List.mem_append_right _ (by simp)), moving.there⟩

end Attempt

end Renaming

end Gfs.Overlay
