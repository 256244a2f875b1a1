import Gfs.Overlay.Stock

/-! Stopping anywhere. A process can stop between any two of publishing content, the journal's
transaction, the update of memory and the removal of what was released; another then opens the
journal and the files that are left. What it opens holds every acknowledged row, each local
one with its file, and never issues again a number or a content id that a row carries.
-/

namespace Gfs.Overlay

open Gfs.Types
open Gfs.Lib.Overwrites
open Gfs.Lib.Runs
open Std (ExtTreeMap ExtTreeSet)

-- Where a process can stop

/-- An attempt whose answer is not looked at. -/
def Attempt.void {α : Type} : Attempt α → Attempt Unit
  | .refused condition overlay => .refused condition overlay
  | .done _ overlay => .done () overlay
  | .writes _ transaction => .writes () transaction

/-- What an operation of a single transaction attempts. -/
def attemptOf (overlay : Overlay) (weather : Weather) : Mutation → Option (Attempt Unit)
  | .createFile path base parent ino executable =>
      some (overlay.attemptCreateFile weather.contentIo (weather.clock 0) path base parent ino
        executable).void
  | .mkdir path base parent ino =>
      some (overlay.attemptMkdir (weather.clock 0) path base parent ino).void
  | .symlink path target base parent ino =>
      some (overlay.attemptSymlink (weather.clock 0) path target base parent ino).void
  | .materialize path base ino source =>
      some (overlay.attemptMaterialize weather.contentIo (weather.clock 0) path base ino
        source).void
  | .truncate path size =>
      some (overlay.attemptTruncate weather.contentIo (weather.clock 0) path size).void
  | .settleContent contentId => some (overlay.attemptSettle contentId).void
  | .adopt path base ino => some (overlay.attemptAdopt (weather.clock 0) path base ino).void
  | .touchRoot mtime => some (overlay.attemptTouchRoot (weather.clock 0) mtime)
  | .referenceBase contentId hashed oid =>
      some (overlay.attemptReferenceBase contentId hashed oid).void
  | .remove path base parent expectDir mergedIsEmpty =>
      some (overlay.attemptRemove (weather.clock 0) (weather.clock 1) path base parent
        expectDir mergedIsEmpty)
  | .rename source sourceIno sourceBase sourceParent target targetBase targetParent
      descendants targetMergedIsEmpty noReplace =>
      some (overlay.attemptRename (weather.clock 0) source sourceIno sourceBase sourceParent
        target targetBase targetParent descendants targetMergedIsEmpty noReplace)
  | _ => none

namespace Durable

/-- Content is in place and the journal not yet written. -/
def published (state : Durable) (transaction : Transaction) : Durable :=
  { state with memory := { state.memory with files := transaction.prepared.files } }

/-- The journal is written, and what the transaction releases is still there. -/
def journaled (state : Durable) (transaction : Transaction) : Durable :=
  ⟨{ transaction.committed with files := transaction.prepared.files },
    transaction.journaled state.journal⟩

/-- The points inside an attempt. -/
def pointsOf {α : Type} (state : Durable) (attempt : Attempt α) (succeeds : Bool)
    : List Durable :=
  match attempt with
  | .refused _ _ => []
  | .done _ _ => []
  | .writes _ transaction =>
      state.published transaction :: if succeeds then [state.journaled transaction] else []

/-- The points inside an adoption and the change that follows it. -/
def adoptPoints (state : Durable) (weather : Weather) (path : BytePath)
    (base : Option BaseFacts) (ino : Nat) (second : Overlay → OverlayEntry → Attempt OverlayEntry)
    : List Durable :=
  let first := state.memory.attemptAdopt (weather.clock 0) path base ino
  state.pointsOf first (weather.journal 0)
  ++ match state.perform first (weather.journal 0) with
    | (.error _, _) => []
    | (.ok entry, adopted) =>
        adopted :: adopted.pointsOf (second adopted.memory entry) (weather.journal 1)

/-- The point inside a re-pin: the journal is bound to the new base, and the copies no row
keeps are still there.
-/
def rebindPoints (state : Durable) (weather : Weather) (carry : Option Carry) : List Durable :=
  match state.memory.planKept weather.clock carry with
  | (.error _, _) => []
  | (.ok (kept, report), memory) =>
      if weather.journal 0 then
        let rootTimes := if kept.isEmpty then none else memory.rootTimes
        [⟨{ memory.rebound kept report rootTimes with files := memory.files },
          state.journal.rebind kept rootTimes⟩]
      else []

/-- The points inside an operation. Content written through is in its file before its row is
noted.
-/
def pointsInside (state : Durable) (weather : Weather) (mutation : Mutation) : List Durable :=
  match mutation with
  | .setExecutable path base ino executable =>
      state.adoptPoints weather path base ino (fun overlay entry =>
        overlay.attemptExecutable (weather.clock 1) entry executable)
  | .setTimes path base ino mtime =>
      state.adoptPoints weather path base ino (fun overlay entry =>
        overlay.attemptTimes (weather.clock 1) entry mtime)
  | .writeAt _ _ _ | .writeContent _ _ _ =>
      [{
        state with
        memory :=
          { state.memory with files := (state.apply weather mutation).2.memory.files }
      }]
  | .refreshContent contentId size mtime =>
      state.pointsOf
        (state.memory.attemptRefreshContent (weather.clock 0) contentId size mtime)
        (weather.journal 0)
  | .rebind carry => state.rebindPoints weather carry
  | .sync => state.pointsOf state.memory.attemptSettleAll (weather.journal 0)
  | mutation =>
      (attemptOf state.memory weather mutation).elim []
        (state.pointsOf · (weather.journal 0))

/-- Every point at which the process can stop during an operation: before it, inside it and
after it. Memory is what the process has acknowledged, the journal and the files what it
leaves.
-/
def points (state : Durable) (weather : Weather) (mutation : Mutation) : List Durable :=
  state :: state.pointsInside weather mutation ++ [(state.apply weather mutation).2]

/-- The point the process stops at. -/
def stoppedAt (state : Durable) (weather : Weather) (mutation : Mutation) (point : Nat)
    : Durable :=
  (state.points weather mutation)[point]?.getD state

end Durable

/-- A part of an overlay's life: an operation, or one that is stopped at some point, and the
opening of the journal and the files it leaves.
-/
inductive Passage where
  | operation (mutation : Mutation) (weather : Weather)
  | stop (mutation : Mutation) (weather : Weather) (point : Nat)
      (left : ExtTreeMap Nat Bytes compare) (recovery : Recovery)

def Durable.pass (state : Durable) : Passage → Durable
  | .operation mutation weather => (state.apply weather mutation).2
  | .stop mutation weather point left recovery =>
      Durable.reopen (state.stoppedAt weather mutation point).journal left recovery

-- What is promised

/-- A row that was acknowledged, as the next process has it. Local content is its file, and the
row says the file's length; its mtime is the acknowledged one unless the journal was behind.
-/
def Restored (stage opened : Durable) (path : BytePath) : Prop :=
  match stage.memory.entries[path]? with
  | none => opened.memory.entries[path]? = none
  | some entry =>
      match entry.content.localId with
      | none => opened.memory.entries[path]? = some entry
      | some id =>
          ∃ file mtime ctime,
            stage.memory.files[id]? = some file
            ∧ opened.memory.files[id]? = some file
            ∧ opened.memory.entries[path]?
              = some { entry with size := file.length, mtime, ctime }
            ∧ (stage.journal.rows[path]? = some entry → mtime = entry.mtime)

/-- What is promised of opening after a stop. -/
structure Recovers (stage opened : Durable) : Prop where
  restored : ∀ path : BytePath, Restored stage opened path
  swept : ∀ id ∈ opened.memory.files, ∃ path : BytePath, Holds opened.memory.entries path id

/-- What a row carries is never issued again: numbers and content ids are issued upwards from
the overlay's next ones.
-/
def Unissued (opened later : Durable) : Prop :=
  ∀ (path : BytePath) (entry : OverlayEntry),
    opened.memory.entries[path]? = some entry
    → entry.ino < later.memory.nextIno
      ∧ ∀ id, entry.content = .local id → id < later.memory.nextContentId

-- When it holds

/-- A stop loses no completed write: the files the journal's rows name are as they were. Any
other file may be there or not.
-/
def Leaves (stage : Durable) (left : ExtTreeMap Nat Bytes compare) : Prop :=
  ∀ (path : BytePath) (id : Nat),
    Holds stage.journal.rows path id → left[id]? = stage.memory.files[id]?

/-- No file is newer than its row, unless the row was written and not journaled since: opening
takes the file's time for a write it must catch up with.
-/
def Undated (stage : Durable) (recovery : Recovery) : Prop :=
  ∀ (path : BytePath) (entry : OverlayEntry) (id : Nat),
    stage.journal.rows[path]? = some entry
    → stage.memory.entries[path]? = some entry
    → entry.content = .local id
    → ¬ entry.mtime.lt (recovery.readBack entry id)

/-- What a caller gives: numbers of its own or of the overlay's rows, and a rename onto a
directory only with what that directory holds. A re-pin gives every directory it makes a
number: one it takes from the overlay is not journaled.
-/
def Careful (state : Durable) : Mutation → Prop
  | .createFile _ _ parent ino _ =>
      Known state.journal.nextIno ino ∧ Known state.journal.nextIno parent.ino
  | .mkdir _ _ parent ino =>
      Known state.journal.nextIno ino ∧ Known state.journal.nextIno parent.ino
  | .symlink _ _ _ parent ino =>
      Known state.journal.nextIno ino ∧ Known state.journal.nextIno parent.ino
  | .materialize _ _ ino _ => Known state.journal.nextIno ino
  | .adopt _ _ ino => Known state.journal.nextIno ino
  | .setExecutable _ _ ino _ => Known state.journal.nextIno ino
  | .setTimes _ _ ino _ => Known state.journal.nextIno ino
  | .remove _ _ parent _ _ => Known state.journal.nextIno parent.ino
  | .rename source sourceIno _ sourceParent target targetBase targetParent _
      targetMergedIsEmpty _ =>
      Known state.journal.nextIno sourceIno
      ∧ Known state.journal.nextIno sourceParent.ino
      ∧ Known state.journal.nextIno targetParent.ino
      ∧ Around state.memory source target targetBase targetMergedIsEmpty
  | .rebind carry =>
      ∀ kept ∈ carry, ∀ directory ∈ kept.directories,
        Known state.journal.nextIno directory.2 ∧ directory.2 ≠ 0
  | _ => True

/-- The condition on one part of a life. -/
def Recoverable (state : Durable) : Passage → Prop
  | .operation mutation _ => Careful state mutation
  | .stop mutation weather point left recovery =>
      Careful state mutation
      ∧ Leaves (state.stoppedAt weather mutation point) left
      ∧ Undated (state.stoppedAt weather mutation point) recovery

-- Stocked states

/-- The journal's row against memory's: the same, but for the size and times of local
content.
-/
def Trails (journaled held : Option OverlayEntry) : Prop :=
  journaled = held
  ∨ ∃ (entry : OverlayEntry) (id size : Nat) (mtime ctime : Timestamp),
      held = some entry
      ∧ entry.content = .local id
      ∧ journaled = some { entry with size, mtime, ctime }

/-- What a process can be recovered from at any moment. -/
structure Stocked (state : Durable) : Prop where
  stock : Stock state.memory
  trails : ∀ path : BytePath, Trails state.journal.rows[path]? state.memory.entries[path]?
  issued
    : ∀ (path : BytePath) (id : Nat),
        Holds state.memory.entries path id → id < state.journal.nextContentId
  numbered
    : ∀ (path : BytePath) (entry : OverlayEntry),
        state.memory.entries[path]? = some entry → Known state.journal.nextIno entry.ino
  ids : state.journal.nextContentId ≤ state.memory.nextContentId
  inos : state.journal.nextIno ≤ state.memory.nextIno
  based : overlayInoBase ≤ state.memory.nextIno

/-- The journal's counters do not go back. -/
structure Onward (before after : Journal) : Prop where
  ids : before.nextContentId ≤ after.nextContentId
  inos : before.nextIno ≤ after.nextIno

/-- The transaction keeps the stock and the order of the rows. -/
structure Transaction.Upholds (before : Overlay) (transaction : Transaction) : Prop
    extends transaction.Supplies before where
  idle : Idle before transaction.prepared
  tidy
    : Tidy none
        (transaction.changes.foldl (Overlay.applyChange transaction.stamp)
          transaction.begun)

def Attempt.Upholds {α : Type} (before : Overlay) : Attempt α → Prop
  | .refused _ after => Idle before after
  | .done _ after => Idle before after
  | .writes _ transaction => transaction.Upholds before

section Steps

variable {state : Durable} {weather : Weather} {overlay : Overlay} {α : Type}

theorem Onward.refl (journal : Journal) : Onward journal journal :=
  ⟨Nat.le_refl _, Nat.le_refl _⟩

theorem Onward.trans {first second third : Journal} (before : Onward first second)
    (after : Onward second third)
    : Onward first third :=
  ⟨Nat.le_trans before.ids after.ids, Nat.le_trans before.inos after.inos⟩

variable {attempt : Attempt α}

theorem Attempt.Keeps.upholds (keeps : attempt.Keeps overlay) (supplies : attempt.Supplies overlay)
    (tidy : Tidy none overlay)
    : attempt.Upholds overlay := by
  cases attempt with
  | refused condition after => exact keeps.idle supplies
  | done answer after => exact keeps.idle supplies
  | writes answer transaction =>
      obtain ⟨poised, balanced⟩ := keeps
      exact {
        toSupplies := supplies
        idle := poised.idle supplies.files
        tidy := balanced.tidy (tidy.congr poised.toSameRows)
      }

theorem Attempt.Upholds.void (upholds : attempt.Upholds overlay)
    : attempt.void.Upholds overlay := by
  cases attempt with
  | refused condition after => exact upholds
  | done answer after => exact upholds
  | writes answer transaction => exact upholds

theorem Stocked.idle (stocked : Stocked state) (idle : Idle state.memory overlay)
    : Stocked { state with memory := overlay } where
  stock := stocked.stock.idle idle
  trails := by
    rw [idle.entries]
    exact stocked.trails
  issued := by
    rw [idle.entries]
    exact stocked.issued
  numbered := by
    rw [idle.entries]
    exact stocked.numbered
  ids := Nat.le_trans stocked.ids idle.nextContentId
  inos := Nat.le_trans stocked.inos idle.nextIno
  based := Nat.le_trans stocked.based idle.nextIno

theorem Stocked.files (stocked : Stocked state) {files : ExtTreeMap Nat Bytes compare}
    (kept : ∀ id ∈ state.memory.files, id ∈ files)
    : Stocked { state with memory := { state.memory with files } } :=
  stocked.idle ⟨⟨rfl, rfl, Nat.le_refl _⟩, Nat.le_refl _, kept⟩

theorem Stocked.shed (stocked : Stocked state) {files : ExtTreeMap Nat Bytes compare}
    (kept
      : ∀ (path : BytePath) (id : Nat), Holds state.memory.entries path id
          → id ∈ state.memory.files → id ∈ files)
    : Stocked { state with memory := { state.memory with files } } where
  stock := {
    tidy := stocked.stock.tidy.congr ⟨rfl, rfl, Nat.le_refl _⟩
    numbered := stocked.stock.numbered
    stored := fun path id holds => kept path id holds (stocked.stock.stored path id holds)
  }
  trails := stocked.trails
  issued := stocked.issued
  numbered := stocked.numbered
  ids := stocked.ids
  inos := stocked.inos
  based := stocked.based

theorem committed_counters (transaction : Transaction)
    : transaction.committed.nextIno = transaction.prepared.nextIno
      ∧ transaction.committed.nextContentId = transaction.prepared.nextContentId := by
  have all (changes : List Change) (overlay : Overlay)
      : (changes.foldl (Overlay.applyChange transaction.stamp) overlay).nextIno
        = overlay.nextIno := by
    induction changes generalizing overlay with
    | nil => rfl
    | cons change changes ih => exact (ih _).trans (by cases change <;> rfl)
  exact ⟨all transaction.changes transaction.begun,
    (Overlay.applyChanges_fields _ transaction.changes transaction.begun).2.2.1⟩

/-- Once the journal is written the transaction's rows are the overlay's. -/
theorem Stocked.journaled (stocked : Stocked state) {transaction : Transaction}
    (upholds : transaction.Upholds state.memory)
    : Stocked (state.journaled transaction)
      ∧ Onward state.journal (state.journaled transaction).journal := by
  have rows : transaction.committed.entries
      = overwrite state.memory.entries (transaction.changes.map Change.write) := by
    rw [← upholds.idle.entries]
    exact Overlay.commitWith_entries ..
  obtain ⟨inos, ids⟩ := committed_counters transaction
  have tidy : Tidy none { transaction.committed with files := transaction.prepared.files } :=
    upholds.tidy.congr ⟨rfl, rfl, Nat.le_refl _⟩
  have known {path : BytePath} {entry : OverlayEntry}
      (found : transaction.committed.entries[path]? = some entry)
      : Known transaction.prepared.nextIno entry.ino := by
    rw [rows] at found
    rcases overwrite_cases found with ⟨put, -⟩ | ⟨old, -⟩
    · exact (upholds.puts entry put).numbered
    · exact (stocked.stock.numbered path entry old).mono upholds.idle.nextIno
  refine ⟨⟨⟨tidy, fun path entry found => ?_, fun path id holds => ?_⟩, fun path => ?_, ?_, ?_,
    ?_, ?_, ?_⟩, ?_⟩
  · exact (known found).mono (Nat.le_of_eq inos.symm)
  · obtain ⟨entry, found, content⟩ := holds
    change transaction.committed.entries[path]? = some entry at found
    rw [rows] at found
    rcases overwrite_cases found with ⟨put, -⟩ | ⟨old, -⟩
    · exact (upholds.puts entry put).stored id content
    · exact upholds.idle.files id (stocked.stock.stored path id ⟨entry, old, content⟩)
  · change Trails (overwrite state.journal.rows (transaction.changes.map Change.write))[path]?
      transaction.committed.entries[path]?
    rw [rows, getElem?_overwrite, getElem?_overwrite]
    cases lastWrite path (transaction.changes.map Change.write) with
    | none => exact stocked.trails path
    | some value => exact Or.inl rfl
  · intro path id holds
    have bound := tidy.bounded path id holds
    exact Nat.lt_of_lt_of_le bound (Nat.le_of_eq ids)
  · exact fun path entry found => known found
  · exact Nat.le_of_eq ids.symm
  · exact Nat.le_of_eq inos.symm
  · exact Nat.le_trans stocked.based
      (Nat.le_trans upholds.idle.nextIno (Nat.le_of_eq inos.symm))
  · exact ⟨Nat.le_trans stocked.ids upholds.idle.nextContentId,
      Nat.le_trans stocked.inos upholds.idle.nextIno⟩

/-- What the transaction releases may then go. -/
theorem Stocked.committed (stocked : Stocked state) {transaction : Transaction}
    (upholds : transaction.Upholds state.memory)
    : Stocked ⟨transaction.committed, transaction.journaled state.journal⟩ := by
  have whole := (stocked.journaled upholds).1
  refine @Stocked.shed (state.journaled transaction) whole transaction.committed.files ?_
  intro path id holds member
  change Holds transaction.committed.entries path id at holds
  change id ∈ transaction.prepared.files at member
  have kept : id ∉ transaction.release := by
    refine upholds.released path id ?_
    rw [← upholds.idle.entries]
    rw [show transaction.committed.entries
      = overwrite transaction.prepared.entries (transaction.changes.map Change.write) from
      Overlay.commitWith_entries ..] at holds
    exact holds
  rw [ExtTreeMap.mem_iff_isSome_getElem?] at member ⊢
  rw [show transaction.committed.files
    = transaction.release.foldl (·.erase ·) transaction.prepared.files from
    Overlay.commitWith_files .., Overlay.getElem?_releaseFiles, if_neg kept]
  exact member

/-- An attempt leaves a stocked state, at every point inside it and at its end. -/
theorem Stocked.perform (stocked : Stocked state) (upholds : attempt.Upholds state.memory)
    (succeeds : Bool)
    : (∀ stage ∈ state.pointsOf attempt succeeds,
          Stocked stage ∧ Onward state.journal stage.journal)
      ∧ Stocked (state.perform attempt succeeds).2
      ∧ Onward state.journal (state.perform attempt succeeds).2.journal := by
  cases attempt with
  | refused condition after =>
      exact ⟨fun _ absurd => (by cases absurd), stocked.idle upholds, .refl _⟩
  | done answer after =>
      exact ⟨fun _ absurd => (by cases absurd), stocked.idle upholds, .refl _⟩
  | writes answer transaction =>
      have published : Stocked (state.published transaction) :=
        stocked.files upholds.files
      obtain ⟨whole, onward⟩ := stocked.journaled upholds
      cases succeeds with
      | true =>
          refine ⟨?_, stocked.committed upholds, onward⟩
          intro stage member
          rcases List.mem_cons.mp member with rfl | last
          · exact ⟨published, .refl _⟩
          · rw [List.mem_singleton.mp last]
            exact ⟨whole, onward⟩
      | false =>
          refine ⟨?_, ?_, .refl _⟩
          · intro stage member
            rw [List.mem_singleton.mp member]
            exact ⟨published, .refl _⟩
          · exact stocked.idle ⟨⟨upholds.idle.entries, upholds.idle.byContent,
              upholds.idle.nextContentId⟩, upholds.idle.nextIno, upholds.idle.files⟩

-- Writing and settling

theorem noteWritten_row {path : BytePath} {entry : OverlayEntry} (own : entry.path = path)
    (host : Timestamp) (size : Nat) (mtime : Option Timestamp) (other : BytePath)
    : (other ≠ path
        ∧ (overlay.noteWritten host entry size mtime).entries[other]?
          = overlay.entries[other]?)
      ∨ (other = path
        ∧ ∃ written noted : Timestamp,
            (overlay.noteWritten host entry size mtime).entries[other]?
            = some { entry with size, mtime := written, ctime := noted }) := by
  by_cases same : other = path
  · subst same
    exact Or.inr ⟨rfl, mtime.getD (overlay.nextTime host).1, (overlay.nextTime host).1,
      by simp [Overlay.noteWritten, Overlay.replaceInMemory, own]⟩
  · refine Or.inl ⟨same, ?_⟩
    simp only [Overlay.noteWritten, Overlay.replaceInMemory, own]
    rw [ExtTreeMap.getElem?_insert, if_neg]
    · rfl
    · exact fun equal => same (Std.LawfulEqCmp.compare_eq_iff_eq.mp equal).symm

/-- A row noted as written keeps its number and its content. -/
theorem Stocked.noteWritten (stocked : Stocked state) {path : BytePath} {entry : OverlayEntry}
    {id : Nat} (found : state.memory.entries[path]? = some entry)
    (content : entry.content = .local id) (host : Timestamp) (size : Nat)
    (mtime : Option Timestamp)
    : Stocked { state with memory := state.memory.noteWritten host entry size mtime } := by
  have tidy := stocked.stock.tidy
  have rows := @noteWritten_row state.memory path entry (tidy.keyed path entry found) host size
    mtime
  have noted : Tidy none (state.memory.noteWritten host entry size mtime) :=
    (@Ledger.noteWritten state.memory state.memory.entries
      ⟨tidy, fun _ _ => Or.inl rfl, fun _ _ absurd => by cases absurd⟩ path entry id found content
      host size mtime).tidy
  have back {other : BytePath} {row : OverlayEntry}
      (there : (state.memory.noteWritten host entry size mtime).entries[other]? = some row)
      : ∃ old, state.memory.entries[other]? = some old ∧ row.ino = old.ino
          ∧ row.content = old.content := by
    rcases rows other with ⟨-, same⟩ | ⟨rfl, _, _, same⟩
    · exact ⟨row, same ▸ there, rfl, rfl⟩
    · rw [same] at there
      cases there
      exact ⟨entry, found, rfl, rfl⟩
  have held {other : BytePath} {held : Nat}
      (holds : Holds (state.memory.noteWritten host entry size mtime).entries other held)
      : Holds state.memory.entries other held := by
    obtain ⟨row, there, local_⟩ := holds
    obtain ⟨old, before, -, same⟩ := back there
    exact ⟨old, before, same ▸ local_⟩
  refine ⟨⟨noted, fun other row there => ?_, fun other held_ holds => ?_⟩, fun other => ?_, ?_, ?_,
    stocked.ids, stocked.inos, stocked.based⟩
  · obtain ⟨old, before, ino, -⟩ := back there
    exact ino ▸ stocked.stock.numbered other old before
  · exact stocked.stock.stored other held_ (held holds)
  · change Trails state.journal.rows[other]?
      (state.memory.noteWritten host entry size mtime).entries[other]?
    rcases rows other with ⟨-, same⟩ | ⟨rfl, written, noted, same⟩
    · rw [same]
      exact stocked.trails other
    · rw [same]
      rcases stocked.trails other with equal | ⟨row, _, size', mtime', ctime', there, _, journaled⟩
      · rw [equal, found]
        exact Or.inr ⟨_, id, entry.size, entry.mtime, entry.ctime, rfl, content, rfl⟩
      · rw [found] at there
        cases there
        rw [journaled]
        exact Or.inr ⟨_, id, size', mtime', ctime', rfl, content, rfl⟩
  · exact fun other held_ holds => stocked.issued other held_ (held holds)
  · intro other row there
    obtain ⟨old, before, ino, -⟩ := back there
    exact ino ▸ stocked.numbered other old before

theorem Stocked.writeAt (stocked : Stocked state) (contentIo : Bool) (host : Timestamp)
    (path : BytePath) (offset : Nat) (data : Bytes)
    : let after := (state.writeThrough contentIo (state.memory.writeAt host path offset data)).2
      Stocked after ∧ after.journal = state.journal
      ∧ ∀ id ∈ state.memory.files, id ∈ after.memory.files := by
  rcases writeAt_cases state.memory host path offset data with
    ⟨condition, same⟩ | ⟨entry, id, files, written, size, there, content, kept, same⟩
  · rw [same]
    exact ⟨stocked, rfl, fun _ member => member⟩
  · rw [same]
    cases contentIo with
    | false => exact ⟨stocked, rfl, fun _ member => member⟩
    | true => exact ⟨(stocked.files kept).noteWritten there content host size none, rfl, kept⟩

theorem Stocked.writeContent (stocked : Stocked state) (contentIo : Bool) (host : Timestamp)
    (contentId offset : Nat) (data : Bytes)
    : let after :=
        (state.writeThrough contentIo
          (state.memory.writeContent host contentId offset data)).2
      Stocked after ∧ after.journal = state.journal
      ∧ ∀ id ∈ state.memory.files, id ∈ after.memory.files := by
  rcases writeContent_cases state.memory host contentId offset data with
    ⟨condition, same⟩ | ⟨files, written, kept, same⟩
      | ⟨entry, files, written, size, found, kept, same⟩
  · rw [same]
    exact ⟨stocked, rfl, fun _ member => member⟩
  · rw [same]
    cases contentIo with
    | false => exact ⟨stocked, rfl, fun _ member => member⟩
    | true => exact ⟨stocked.files kept, rfl, kept⟩
  · obtain ⟨-, there, content⟩ := stocked.stock.tidy.rowOf found
    rw [same]
    cases contentIo with
    | false => exact ⟨stocked, rfl, fun _ member => member⟩
    | true => exact ⟨(stocked.files kept).noteWritten there content host size none, rfl, kept⟩

theorem attemptSettle_upholds (stock : Stock overlay) (contentId : Nat)
    : (overlay.attemptSettle contentId).Upholds overlay := by
  have supplies := attemptSettle_supplies stock contentId
  unfold Overlay.attemptSettle at supplies ⊢
  split
  · exact ⟨⟨rfl, rfl, Nat.le_refl _⟩, Nat.le_refl _, fun _ member => member⟩
  · rename_i entry found
    rw [found] at supplies
    simp only at supplies
    split
    · rename_i dirty
      rw [if_pos dirty] at supplies
      have balanced : (overlay.transaction [.put entry] [] none).Balanced :=
        Transaction.Balanced.of_fitting
          ⟨Change.fits_own stock.tidy (stock.tidy.rowOf found).2.1 rfl rfl rfl, trivial⟩
      exact { toSupplies := supplies, idle := .refl overlay, tidy := balanced.tidy stock.tidy }
    · exact .refl overlay

theorem attemptSettleAll_upholds (stock : Stock overlay)
    : overlay.attemptSettleAll.Upholds overlay := by
  have supplies := attemptSettleAll_supplies stock
  have cleared : Idle overlay { overlay with dirty := ∅ } :=
    ⟨⟨rfl, rfl, Nat.le_refl _⟩, Nat.le_refl _, fun _ member => member⟩
  unfold Overlay.attemptSettleAll at supplies ⊢
  split
  · exact .refl overlay
  · rename_i some_
    rw [if_neg some_] at supplies
    simp only at supplies ⊢
    split
    · exact cleared
    · rename_i changes
      rw [if_neg changes] at supplies
      have tidy := stock.tidy.congr cleared.toSameRows
      refine { toSupplies := supplies, idle := cleared, tidy := ?_ }
      refine Transaction.Balanced.tidy (Transaction.Balanced.of_fitting ?_) tidy
      refine Fitting.rows tidy ?_
      intro row member
      obtain ⟨id, -, found⟩ := List.mem_filterMap.mp member
      exact (stock.tidy.rowOf found).2.1

/-- Bringing a row up to date and settling it. -/
theorem Stocked.refreshContent (stocked : Stocked state) (contentId size : Nat)
    (mtime host : Timestamp) (succeeds : Bool)
    : let attempt := state.memory.attemptRefreshContent host contentId size mtime
      (∀ stage ∈ state.pointsOf attempt succeeds,
          Stocked stage ∧ Onward state.journal stage.journal)
      ∧ Stocked (state.perform attempt succeeds).2
      ∧ Onward state.journal (state.perform attempt succeeds).2.journal := by
  simp only
  unfold Overlay.attemptRefreshContent
  split
  · exact ⟨fun _ absurd => (by cases absurd), stocked, .refl _⟩
  · rename_i entry found
    split
    · obtain ⟨-, there, content⟩ := stocked.stock.tidy.rowOf found
      have noted := stocked.noteWritten there content host size (some mtime)
      have upholds := attemptSettle_upholds noted.stock contentId
      obtain ⟨-, after, onward⟩ := noted.perform upholds succeeds
      -- Inside, memory still has the row as it was.
      generalize (state.memory.noteWritten host entry size (some mtime)).attemptSettle contentId
        = attempt at upholds after onward ⊢
      cases attempt with
      | refused condition settled => exact ⟨fun _ absurd => (by cases absurd), after, onward⟩
      | done answer settled => exact ⟨fun _ absurd => (by cases absurd), after, onward⟩
      | writes answer transaction =>
          have published : Stocked (state.published transaction) :=
            stocked.files upholds.files
          refine ⟨?_, after, onward⟩
          intro stage member
          rcases List.mem_cons.mp member with rfl | last
          · exact ⟨published, .refl _⟩
          · cases succeeds with
            | false => cases last
            | true =>
                rw [List.mem_singleton.mp last]
                exact noted.journaled upholds
    · exact stocked.perform (attemptSettle_upholds stocked.stock contentId) succeeds

/-- An adoption and the change that follows it. -/
theorem Stocked.adoptThen (stocked : Stocked state) (path : BytePath)
    (base : Option BaseFacts) {ino : Nat} (known : Known state.memory.nextIno ino)
    {second : Overlay → OverlayEntry → Attempt OverlayEntry}
    (upholds
      : ∀ (overlay : Overlay) (entry : OverlayEntry),
          Stock overlay → overlay.entries[path]? = some entry
          → (second overlay entry).Upholds overlay)
    : (∀ stage ∈ state.adoptPoints weather path base ino second,
          Stocked stage ∧ Onward state.journal stage.journal)
      ∧ Stocked (state.adoptThen weather path base ino second).2
      ∧ Onward state.journal (state.adoptThen weather path base ino second).2.journal := by
  have adopts
      : (state.memory.attemptAdopt (weather.clock 0) path base ino).Upholds state.memory :=
    (attemptAdopt_keeps ..).upholds (attemptAdopt_supplies _ _ _ known) stocked.stock.tidy
  obtain ⟨inside, after, onward⟩ := stocked.perform adopts (weather.journal 0)
  simp only [Durable.adoptPoints, Durable.adoptThen]
  rcases adopted
      : state.perform (state.memory.attemptAdopt (weather.clock 0) path base ino)
          (weather.journal 0) with ⟨answer, middle⟩
  rw [adopted] at after onward
  cases answer with
  | error condition =>
      refine ⟨fun stage member => ?_, after, onward⟩
      rcases List.mem_append.mp member with first | absurd
      · exact inside stage first
      · cases absurd
  | ok entry =>
      have there := (adopted_row _ _ _ _ _ adopted).1
      obtain ⟨within, finally_, further⟩ :=
        after.perform (upholds middle.memory entry after.stock there) (weather.journal 1)
      refine ⟨fun stage member => ?_, finally_, onward.trans further⟩
      rcases List.mem_append.mp member with first | later
      · exact inside stage first
      · rcases List.mem_cons.mp later with rfl | last
        · exact ⟨after, onward⟩
        · exact (within stage last).imp_right onward.trans

-- Rebinding

theorem madeDirectories_numbers {clock : Nat → Timestamp} {directories : List (BytePath × Nat)}
    (given : ∀ directory ∈ directories, directory.2 ≠ 0) (overlay : Overlay)
    : ∀ made ∈ (Overlay.madeDirectories clock overlay directories).1,
        ∃ directory ∈ directories, made.ino = directory.2 := by
  induction directories generalizing overlay with
  | nil => exact fun _ member => by cases member
  | cons directory rest ih =>
      obtain ⟨path, ino⟩ := directory
      intro made member
      rcases List.mem_cons.mp member with rfl | later
      · refine ⟨(path, ino), List.mem_cons_self, ?_⟩
        exact if_neg (given (path, ino) List.mem_cons_self)
      · obtain ⟨directory, listed, same⟩ :=
          ih (fun directory listed => given directory (List.mem_cons_of_mem _ listed)) _ made later
        exact ⟨directory, List.mem_cons_of_mem _ listed, same⟩

theorem madeDirectories_files (clock : Nat → Timestamp) (directories : List (BytePath × Nat))
    (overlay : Overlay)
    : (Overlay.madeDirectories clock overlay directories).2.files = overlay.files := by
  induction directories generalizing overlay with
  | nil => rfl
  | cons directory rest ih => exact ih _

/-- The numbers of what a re-pin keeps. -/
theorem planKept_numbers {clock : Nat → Timestamp} {carry : Option Carry} {nextIno : Nat}
    (numbered
      : ∀ (path : BytePath) (entry : OverlayEntry),
          overlay.entries[path]? = some entry → Known nextIno entry.ino)
    (given
      : ∀ kept ∈ carry, ∀ directory ∈ kept.directories,
          Known nextIno directory.2 ∧ directory.2 ≠ 0)
    {kept : List OverlayEntry} {report : List BytePath} {after : Overlay}
    (planned : overlay.planKept clock carry = (.ok (kept, report), after))
    : after.files = overlay.files ∧ ∀ entry ∈ kept, Known nextIno entry.ino := by
  cases carry with
  | none =>
      cases planned
      exact ⟨rfl, fun _ member => by cases member⟩
  | some carry =>
      simp only [Overlay.planKept] at planned
      split at planned
      · cases planned
      · split at planned
        · cases planned
        · rename_i rows mapped
          cases planned
          refine ⟨madeDirectories_files clock carry.directories overlay, ?_⟩
          intro entry member
          rcases List.mem_append.mp member with old | made
          · obtain ⟨row, -, found⟩ := forall₂_exists_left (forall₂_of_mapM mapped) old
            obtain ⟨before, there, -, ino, -⟩ := keptEntry_row found
            exact ino ▸ numbered row.path before there
          · obtain ⟨directory, listed, same⟩ := madeDirectories_numbers
              (fun directory listed => (given carry rfl directory listed).2) overlay entry made
            exact same ▸ (given carry rfl directory listed).1

/-- What a re-pin keeps is stocked, before the copies no row keeps are removed and after. -/
theorem Stocked.rebound (stocked : Stocked state) {kept : List OverlayEntry}
    (poised : Poised state.memory overlay) (there : ∀ id ∈ state.memory.files, id ∈ overlay.files)
    (apart : kept.Pairwise Apart)
    (held
      : ∀ entry ∈ kept, ∀ id, entry.content = .local id
          → Holds state.memory.entries entry.path id ∧ entry.kind.isDir = false)
    (numbers : ∀ entry ∈ kept, Known state.journal.nextIno entry.ino)
    (report : List BytePath) (rootTimes : Option (Timestamp × Timestamp))
    : Stocked
          ⟨{ overlay.rebound kept report rootTimes with files := overlay.files },
            state.journal.rebind kept rootTimes⟩
      ∧ Stocked
          ⟨overlay.rebound kept report rootTimes, state.journal.rebind kept rootTimes⟩ := by
  let cleared : Overlay :=
    { overlay with entries := ∅, children := ∅, byContent := ∅, localBytes := 0 }
  obtain ⟨entered, rows⟩ := @Tidy.ofRows cleared kept rfl rfl apart (by
    intro entry member id content
    obtain ⟨holds, leaf⟩ := held entry member id content
    have issued := stocked.stock.tidy.bounded _ id holds
    exact ⟨Nat.lt_of_lt_of_le issued poised.nextContentId, leaf⟩)
  obtain ⟨-, -, -, -, -, ids, inos, files⟩ := keepRows_fields kept cleared
  have tidy : Tidy none (overlay.rebound kept report rootTimes) :=
    entered.congr ⟨rfl, rfl, Nat.le_refl _⟩
  have listed {path : BytePath} {entry : OverlayEntry}
      (found : (overlay.rebound kept report rootTimes).entries[path]? = some entry)
      : entry ∈ kept ∧ entry.path = path := by
    change (kept.foldl Overlay.keepRow cleared).entries[path]? = some entry at found
    rw [rows] at found
    exact mem_of_written found
  have before {path : BytePath} {id : Nat}
      (holds : Holds (overlay.rebound kept report rootTimes).entries path id)
      : Holds state.memory.entries path id := by
    obtain ⟨entry, found, content⟩ := holds
    obtain ⟨member, rfl⟩ := listed found
    exact (held entry member id content).1
  have ahead : state.journal.nextIno ≤ (overlay.rebound kept report rootTimes).nextIno := by
    refine Nat.le_trans (Nat.le_trans stocked.inos poised.nextIno) (Nat.le_of_eq ?_)
    exact inos.symm
  have whole : Stocked
      ⟨{ overlay.rebound kept report rootTimes with files := overlay.files },
        state.journal.rebind kept rootTimes⟩ := by
    refine ⟨⟨tidy.congr ⟨rfl, rfl, Nat.le_refl _⟩, ?_, ?_⟩, ?_, ?_, ?_, ?_, ahead, ?_⟩
    · intro path entry found
      exact (numbers entry (listed found).1).mono ahead
    · intro path id holds
      exact there id (stocked.stock.stored path id (before holds))
    · intro path
      exact Or.inl (congrArg (fun rows : Rows => rows[path]?) rows).symm
    · exact fun path id holds => stocked.issued path id (before holds)
    · exact fun path entry found => numbers entry (listed found).1
    · refine Nat.le_trans (Nat.le_trans stocked.ids poised.nextContentId) (Nat.le_of_eq ?_)
      exact ids.symm
    · refine Nat.le_trans (Nat.le_trans stocked.based poised.nextIno) (Nat.le_of_eq ?_)
      exact inos.symm
  refine ⟨whole, @Stocked.shed _ whole (overlay.rebound kept report rootTimes).files ?_⟩
  intro path id holds member
  have live : (overlay.rebound kept report rootTimes).byContent.contains id = true := by
    have owned := (tidy.exact id path).mpr ⟨by simp, holds⟩
    rw [ExtTreeMap.contains_eq_isSome_getElem?, owned]
    rfl
  have removed : (overlay.rebound kept report rootTimes).files
      = (overlay.byContent.keys.filter (fun id =>
          !(overlay.rebound kept report rootTimes).byContent.contains id)).foldl (·.erase ·)
          overlay.files := by
    simp only [Overlay.rebound]
    rw [files]
  rw [ExtTreeMap.mem_iff_isSome_getElem?] at member ⊢
  rw [removed, Overlay.getElem?_releaseFiles, if_neg]
  · exact member
  · intro gone
    have dead := (List.mem_filter.mp gone).2
    simp [live] at dead

/-- Binding to a new base, at each point. -/
theorem Stocked.rebind (stocked : Stocked state) {carry : Option Carry}
    (given
      : ∀ kept ∈ carry, ∀ directory ∈ kept.directories,
          Known state.journal.nextIno directory.2 ∧ directory.2 ≠ 0)
    : (∀ stage ∈ state.rebindPoints weather carry,
          Stocked stage ∧ Onward state.journal stage.journal)
      ∧ Stocked (state.rebind weather carry).2
      ∧ Onward state.journal (state.rebind weather carry).2.journal := by
  unfold Durable.rebindPoints Durable.rebind
  rcases planKept_cases stocked.stock.tidy weather.clock carry with
    ⟨condition, same⟩ | ⟨kept, report, after, same, poised, apart, held⟩
  · rw [same]
    exact ⟨fun _ absurd => (by cases absurd), stocked, .refl _⟩
  · obtain ⟨files, numbers⟩ := planKept_numbers stocked.numbered given same
    have there : ∀ id ∈ state.memory.files, id ∈ after.files := by
      rw [files]
      exact fun _ member => member
    rw [same]
    simp only
    split
    · obtain ⟨whole, swept⟩ := stocked.rebound poised there apart held numbers report
        (if kept.isEmpty = true then none else after.rootTimes)
      refine ⟨?_, swept, ⟨Nat.le_refl _, Nat.le_refl _⟩⟩
      intro stage member
      rw [List.mem_singleton.mp member]
      exact ⟨whole, ⟨Nat.le_refl _, Nat.le_refl _⟩⟩
    · exact ⟨fun _ absurd => (by cases absurd), stocked.idle (poised.idle there), .refl _⟩

end Steps

-- Opening

section Opening

variable {stage : Durable} {recovery : Recovery} {left : ExtTreeMap Nat Bytes compare}

theorem Stocked.ledger (stocked : Stocked stage)
    : ∃ dirty, Ledger none stage.journal.rows { stage.memory with dirty } := by
  have tidy := stocked.stock.tidy
  refine ⟨ExtTreeSet.ofList stage.memory.byContent.keys compare,
    tidy.congr ⟨rfl, rfl, Nat.le_refl _⟩, ?_, fun _ _ absurd => by cases absurd⟩
  intro path _
  rcases stocked.trails path with same | ⟨entry, id, size, mtime, ctime, found, content, behind⟩
  · exact Or.inl same
  · refine Or.inr ⟨entry, id, size, mtime, ctime, found, content, ?_, behind⟩
    have owned := (tidy.exact id path).mpr ⟨by simp, entry, found, content⟩
    rw [ExtTreeSet.mem_ofList, List.contains_iff_mem, ExtTreeMap.mem_keys,
      ExtTreeMap.mem_iff_isSome_getElem?, owned]
    rfl

theorem Reread.plain {files : ExtTreeMap Nat Bytes compare} {old new : OverlayEntry}
    (reread : Reread recovery files old new) (plain : old.content.localId = none)
    : new = old := by
  obtain ⟨clock, host, ⟨-, same⟩ | found⟩ := reread
  · exact same
  · simp [Recovery.correction, plain] at found

/-- A row with local content is read back with its file's length, and with its own mtime
unless the file is newer.
-/
theorem Reread.stored {files : ExtTreeMap Nat Bytes compare} {old new : OverlayEntry} {id : Nat}
    {file : Bytes} (reread : Reread recovery files old new) (content : old.content = .local id)
    (found : files[id]? = some file)
    : ∃ mtime ctime, new = { old with size := file.length, mtime, ctime }
        ∧ (¬ old.mtime.lt (recovery.readBack old id) → mtime = old.mtime) := by
  obtain ⟨clock, host, ⟨uncorrected, same⟩ | corrected⟩ := reread
  · refine ⟨old.mtime, old.ctime, ?_, fun _ => rfl⟩
    simp only [Recovery.correction, localId_iff.mpr content, Option.bind_some, found] at uncorrected
    split at uncorrected
    · cases uncorrected
    · rename_i agrees
      rw [not_or, not_not] at agrees
      rw [same, agrees.1]
  · simp only [Recovery.correction, localId_iff.mpr content, Option.bind_some, found] at corrected
    split at corrected
    · refine ⟨_, _, (Option.some.inj corrected).symm, fun older => ?_⟩
      simp [Timestamp.max, older]
    · cases corrected

theorem reopen_counters (journal : Journal) (files : ExtTreeMap Nat Bytes compare)
    (recovery : Recovery)
    : Onward journal (Durable.reopen journal files recovery).journal
      ∧ (Durable.reopen journal files recovery).journal.nextContentId
        ≤ max journal.nextContentId 1
      ∧ (Durable.reopen journal files recovery).journal.nextIno
        ≤ max journal.nextIno overlayInoBase := by
  simp only [Durable.reopen]
  split
  · exact ⟨⟨Nat.le_refl _, Nat.le_refl _⟩, Nat.le_max_left .., Nat.le_max_left ..⟩
  · exact ⟨⟨Nat.le_max_left .., Nat.le_max_left ..⟩, Nat.le_refl _, Nat.le_refl _⟩

theorem Stocked.survives (stocked : Stocked stage) (leaves : Leaves stage left)
    {path : BytePath} {id : Nat} (holds : Holds stage.journal.rows path id)
    : ∃ file, stage.memory.files[id]? = some file
        ∧ (sweptFiles stage.journal left)[id]? = some file := by
  obtain ⟨dirty, ledger⟩ := stocked.ledger
  have member := stocked.stock.stored path id (ledger.holds_iff.mp holds)
  rw [ExtTreeMap.mem_iff_isSome_getElem?, Option.isSome_iff_exists] at member
  obtain ⟨file, found⟩ := member
  refine ⟨file, found, ?_⟩
  obtain ⟨entry, there, content⟩ := holds
  have named : id ∈ (stage.journal.rows.toList.map Prod.snd).filterMap (·.content.localId) := by
    refine List.mem_filterMap.mpr ⟨entry, ?_, localId_iff.mpr content⟩
    refine (mem_loaded ledger.orderly).mpr ?_
    rw [ledger.orderly.keyed path entry there]
    exact there
  rw [sweptFiles, ExtTreeMap.getElem?_filter', leaves path id ⟨entry, there, content⟩, found]
  exact Option.filter_eq_some_iff.mpr ⟨rfl, List.contains_iff_mem.mpr named⟩

/-- Opening what a stop leaves shows every acknowledged row, and no other file. -/
theorem Stocked.recovers (stocked : Stocked stage) (leaves : Leaves stage left)
    (undated : Undated stage recovery)
    : Recovers stage (Durable.reopen stage.journal left recovery) := by
  obtain ⟨dirty, ledger⟩ := stocked.ledger
  have orderly := ledger.orderly
  obtain ⟨-, -, -, -, -, -, -, -, files⟩ := reopen_fields stage.journal left recovery
  refine ⟨fun path => ?_, fun id member => ?_⟩
  · unfold Restored
    have row := reopen_row orderly left recovery path
    cases held : stage.memory.entries[path]? with
    | none =>
        rcases stocked.trails path with same | ⟨_, _, _, _, _, found, -⟩
        · rcases row with ⟨-, missing⟩ | ⟨old, new, there, -⟩
          · exact missing
          · rw [same, held] at there
            cases there
        · rw [held] at found
          cases found
    | some entry =>
        simp only
        cases content : entry.content.localId with
        | none =>
            rcases stocked.trails path with same | ⟨row', id, _, _, _, found, local_, -⟩
            · rw [same, held] at row
              rcases row with ⟨absurd, -⟩ | ⟨old, new, there, here, reread⟩
              · cases absurd
              · cases there
                rw [here, reread.plain content]
            · rw [held] at found
              cases found
              rw [localId_iff.mpr local_] at content
              cases content
        | some id =>
            have local_ := localId_iff.mp content
            have holds : Holds stage.journal.rows path id :=
              ledger.holds_iff.mpr ⟨entry, held, local_⟩
            obtain ⟨file, stored, swept⟩ := stocked.survives leaves holds
            rcases row with ⟨absurd, -⟩ | ⟨old, new, there, here, reread⟩
            · obtain ⟨journaled, found, -⟩ := holds
              rw [absurd] at found
              cases found
            · have origin : ∃ size mtime ctime, old = { entry with size, mtime, ctime } := by
                rcases stocked.trails path
                  with same | ⟨row', _, size, mtime, ctime, found, -, behind⟩
                · rw [same, held] at there
                  cases there
                  exact ⟨entry.size, entry.mtime, entry.ctime, rfl⟩
                · rw [held] at found
                  cases found
                  rw [behind] at there
                  cases there
                  exact ⟨size, mtime, ctime, rfl⟩
              obtain ⟨size, before, after, same⟩ := origin
              have own : old.content = .local id := by
                rw [same]
                exact local_
              obtain ⟨mtime, ctime, read, timed⟩ := reread.stored own swept
              refine ⟨file, mtime, ctime, stored, files ▸ swept, ?_, fun caughtUp => ?_⟩
              · rw [here, read, same]
              · rw [there] at caughtUp
                obtain rfl := Option.some.inj caughtUp
                exact timed (undated path old id there held own)
  · rw [files, sweptFiles, ExtTreeMap.mem_iff_isSome_getElem?, ExtTreeMap.getElem?_filter',
      Option.isSome_iff_exists] at member
    obtain ⟨file, found⟩ := member
    have named := (Option.filter_eq_some_iff.mp found).2
    obtain ⟨entry, loaded, content⟩ :=
      List.mem_filterMap.mp (List.contains_iff_mem.mp named)
    have there := (mem_loaded orderly).mp loaded
    rcases reopen_row orderly left recovery entry.path with
      ⟨missing, -⟩ | ⟨old, new, journaled, here, reread⟩
    · rw [missing] at there
      cases there
    · rw [journaled] at there
      obtain rfl := Option.some.inj there
      obtain ⟨size, mtime, ctime, same⟩ := Reread.identity reread
      refine ⟨old.path, new, here, ?_⟩
      rw [same]
      exact localId_iff.mp content

/-- Opening what a stop leaves gives a stocked state again. -/
theorem Stocked.reopen (stocked : Stocked stage) (leaves : Leaves stage left)
    : Stocked (Durable.reopen stage.journal left recovery)
      ∧ Onward stage.journal (Durable.reopen stage.journal left recovery).journal := by
  obtain ⟨dirty, ledger⟩ := stocked.ledger
  have orderly := ledger.orderly
  obtain ⟨-, -, -, -, -, -, ids, inos, files⟩ := reopen_fields stage.journal left recovery
  obtain ⟨onward, idsBound, inosBound⟩ := reopen_counters stage.journal left recovery
  have opened := Ledger.reopen orderly
    (fun path id holds => stocked.issued path id (ledger.holds_iff.mp holds)) left recovery
  -- What opening shows at a path the journal held there, under the same number and content.
  have back {path : BytePath} {new : OverlayEntry}
      (found : (Durable.reopen stage.journal left recovery).memory.entries[path]? = some new)
      : ∃ old, stage.journal.rows[path]? = some old ∧ new.ino = old.ino
          ∧ new.content = old.content := by
    rcases reopen_row orderly left recovery path with ⟨-, missing⟩ | ⟨old, row, there, here, reread⟩
    · rw [missing] at found
      cases found
    · rw [here] at found
      cases found
      obtain ⟨size, mtime, ctime, same⟩ := Reread.identity reread
      rw [same]
      exact ⟨old, there, rfl, rfl⟩
  have known {path : BytePath} {new : OverlayEntry}
      (found : (Durable.reopen stage.journal left recovery).memory.entries[path]? = some new)
      : Known stage.journal.nextIno new.ino := by
    obtain ⟨old, there, ino, -⟩ := back found
    rw [ino]
    rcases stocked.trails path with same | ⟨entry, _, _, _, _, held, -, behind⟩
    · exact stocked.numbered path old (same ▸ there)
    · rw [behind] at there
      cases there
      exact stocked.numbered path entry held
  have journaled {path : BytePath} {id : Nat}
      (holds : Holds (Durable.reopen stage.journal left recovery).memory.entries path id)
      : Holds stage.journal.rows path id := by
    obtain ⟨new, found, content⟩ := holds
    obtain ⟨old, there, -, same⟩ := back found
    exact ⟨old, there, same ▸ content⟩
  refine ⟨⟨⟨opened.tidy, ?_, ?_⟩, ?_, ?_, ?_, ?_, ?_, ?_⟩, onward⟩
  · intro path new found
    rw [inos]
    exact (known found).mono (Nat.le_max_left ..)
  · intro path id holds
    obtain ⟨file, -, swept⟩ := stocked.survives leaves (journaled holds)
    rw [files, ExtTreeMap.mem_iff_isSome_getElem?, swept]
    rfl
  · intro path
    rcases opened.behind path (by simp) with
      same | ⟨entry, id, size, mtime, ctime, found, content, -, behind⟩
    · exact Or.inl same
    · exact Or.inr ⟨entry, id, size, mtime, ctime, found, content, behind⟩
  · intro path id holds
    exact Nat.lt_of_lt_of_le
      (stocked.issued path id (ledger.holds_iff.mp (journaled holds))) onward.ids
  · exact fun path new found => (known found).mono onward.inos
  · rw [ids]
    exact idsBound
  · rw [inos]
    exact inosBound
  · rw [inos]
    exact Nat.le_max_right ..

end Opening

-- Whole operations

section Operations

variable {state : Durable} {weather : Weather}

theorem perform_void {α : Type} (state : Durable) (attempt : Attempt α) (succeeds : Bool)
    : (state.perform attempt.void succeeds).2 = (state.perform attempt succeeds).2 := by
  cases attempt with
  | refused condition after => rfl
  | done answer after => rfl
  | writes answer transaction => cases succeeds <;> rfl

variable {mutation : Mutation}

theorem apply_attemptOf {attempt : Attempt Unit}
    (single : attemptOf state.memory weather mutation = some attempt)
    : (state.apply weather mutation).2 = (state.perform attempt (weather.journal 0)).2 := by
  cases mutation
  case touchRoot | remove | rename =>
    cases single
    rfl
  all_goals cases single
  all_goals
    rw [perform_void]
    rfl

/-- Every operation of a single transaction keeps the stock. -/
theorem attemptOf_upholds {attempt : Attempt Unit} (stocked : Stocked state)
    (careful : Careful state mutation)
    (single : attemptOf state.memory weather mutation = some attempt)
    : attempt.Upholds state.memory := by
  have stock := stocked.stock
  have tidy := stock.tidy
  have issued {ino : Nat} (known : Known state.journal.nextIno ino)
      : Known state.memory.nextIno ino :=
    known.mono stocked.inos
  cases mutation
  case createFile =>
    cases single
    exact ((attemptCreateFile_keeps tidy ..).upholds
      (attemptCreateFile_supplies stock _ _ _ _ _ (issued careful.1) (issued careful.2)) tidy).void
  case mkdir =>
    cases single
    exact ((attemptMkdir_keeps tidy ..).upholds
      (attemptMkdir_supplies stock _ _ _ (issued careful.1) (issued careful.2)) tidy).void
  case symlink =>
    cases single
    exact ((attemptSymlink_keeps tidy ..).upholds
      (attemptSymlink_supplies stock _ _ _ _ (issued careful.1) (issued careful.2)) tidy).void
  case materialize =>
    cases single
    exact ((attemptMaterialize_keeps tidy ..).upholds
      (attemptMaterialize_supplies stock _ _ _ _ _ (issued careful)) tidy).void
  case truncate =>
    cases single
    exact ((attemptTruncate_keeps tidy ..).upholds
      (attemptTruncate_supplies stock _ _ _ _) tidy).void
  case settleContent =>
    cases single
    exact (attemptSettle_upholds stock _).void
  case adopt =>
    cases single
    exact ((attemptAdopt_keeps ..).upholds
      (attemptAdopt_supplies _ _ _ (issued careful)) tidy).void
  case touchRoot =>
    cases single
    exact (attemptTouchRoot_keeps ..).upholds (attemptTouchRoot_supplies _ _) tidy
  case referenceBase =>
    cases single
    exact ((attemptReferenceBase_keeps ..).upholds
      (attemptReferenceBase_supplies stock _ _ _) tidy).void
  case remove =>
    cases single
    exact (attemptRemove_keeps tidy ..).upholds
      (attemptRemove_supplies stock _ _ _ _ _ _ (issued careful)) tidy
  case rename =>
    cases single
    obtain ⟨source, sourceParent, targetParent, around⟩ := careful
    exact (attemptRename_keeps tidy ..).upholds
      (attemptRename_supplies stock _ _ _ _ (issued source) (issued sourceParent)
        (issued targetParent) around) tidy
  all_goals cases single

theorem Stocked.sync (stocked : Stocked state)
    : (∀ stage ∈ state.pointsOf state.memory.attemptSettleAll (weather.journal 0),
          Stocked stage ∧ Onward state.journal stage.journal)
      ∧ Stocked (state.sync weather).2
      ∧ Onward state.journal (state.sync weather).2.journal := by
  obtain ⟨inside, after, onward⟩ :=
    stocked.perform (attemptSettleAll_upholds stocked.stock) (weather.journal 0)
  refine ⟨inside, ?_⟩
  unfold Durable.sync
  split
  · rename_i settled
    rw [settled] at after onward
    exact ⟨after, onward⟩
  · rename_i settled
    rw [settled] at after onward
    split
    · exact ⟨after, onward⟩
    · exact ⟨after.idle ⟨⟨rfl, rfl, Nat.le_refl _⟩, Nat.le_refl _, fun _ member => member⟩, onward⟩

theorem Stocked.writers (inside : state.pointsInside weather mutation = []) {overlay : Overlay}
    (result : (state.apply weather mutation).2 = { state with memory := overlay })
    (kept : Stocked { state with memory := overlay })
    : (∀ stage ∈ state.pointsInside weather mutation,
          Stocked stage ∧ Onward state.journal stage.journal)
      ∧ Stocked (state.apply weather mutation).2
      ∧ Onward state.journal (state.apply weather mutation).2.journal := by
  rw [inside, result]
  exact ⟨fun _ absurd => (by cases absurd), kept, .refl _⟩

/-- One operation leaves a stocked state, at every point inside it and at its end. -/
theorem Stocked.apply (stocked : Stocked state) {mutation : Mutation}
    (careful : Careful state mutation)
    : (∀ stage ∈ state.pointsInside weather mutation,
          Stocked stage ∧ Onward state.journal stage.journal)
      ∧ Stocked (state.apply weather mutation).2
      ∧ Onward state.journal (state.apply weather mutation).2.journal := by
  have single {attempt : Attempt Unit}
      (inside
        : state.pointsInside weather mutation
          = state.pointsOf attempt (weather.journal 0))
      (attempted : attemptOf state.memory weather mutation = some attempt)
      : (∀ stage ∈ state.pointsInside weather mutation,
            Stocked stage ∧ Onward state.journal stage.journal)
        ∧ Stocked (state.apply weather mutation).2
        ∧ Onward state.journal (state.apply weather mutation).2.journal := by
    rw [inside, apply_attemptOf attempted]
    exact stocked.perform (attemptOf_upholds stocked careful attempted) (weather.journal 0)
  have idle {overlay : Overlay} (same : SameRows state.memory overlay)
      (nextIno : overlay.nextIno = state.memory.nextIno)
      (files : overlay.files = state.memory.files)
      : Stocked { state with memory := overlay } :=
    stocked.idle ⟨same, Nat.le_of_eq nextIno.symm, fun id member => files.symm ▸ member⟩
  cases mutation with
  | createFile => exact single rfl rfl
  | mkdir => exact single rfl rfl
  | symlink => exact single rfl rfl
  | materialize => exact single rfl rfl
  | truncate => exact single rfl rfl
  | settleContent => exact single rfl rfl
  | adopt => exact single rfl rfl
  | touchRoot => exact single rfl rfl
  | referenceBase => exact single rfl rfl
  | remove => exact single rfl rfl
  | rename => exact single rfl rfl
  | writeAt path offset data =>
      obtain ⟨after, journal, kept⟩ :=
        stocked.writeAt weather.contentIo (weather.clock 0) path offset data
      refine ⟨fun stage member => ?_, after, ?_⟩
      · rw [List.mem_singleton.mp member]
        exact ⟨stocked.files kept, .refl _⟩
      · exact ⟨Nat.le_of_eq (congrArg _ journal.symm), Nat.le_of_eq (congrArg _ journal.symm)⟩
  | writeContent contentId offset data =>
      obtain ⟨after, journal, kept⟩ :=
        stocked.writeContent weather.contentIo (weather.clock 0) contentId offset data
      refine ⟨fun stage member => ?_, after, ?_⟩
      · rw [List.mem_singleton.mp member]
        exact ⟨stocked.files kept, .refl _⟩
      · exact ⟨Nat.le_of_eq (congrArg _ journal.symm), Nat.le_of_eq (congrArg _ journal.symm)⟩
  | refreshContent contentId size mtime =>
      exact stocked.refreshContent contentId size mtime (weather.clock 0) (weather.journal 0)
  | setExecutable path base ino executable =>
      refine @Stocked.adoptThen state weather stocked path base ino (careful.mono stocked.inos)
        (fun overlay entry => overlay.attemptExecutable (weather.clock 1) entry executable) ?_
      intro overlay entry stock there
      exact (attemptExecutable_keeps stock.tidy there _ _).upholds
        (attemptExecutable_supplies stock there _ _) stock.tidy
  | setTimes path base ino mtime =>
      refine @Stocked.adoptThen state weather stocked path base ino (careful.mono stocked.inos)
        (fun overlay entry => overlay.attemptTimes (weather.clock 1) entry mtime) ?_
      intro overlay entry stock there
      exact (attemptTimes_keeps stock.tidy there _ _).upholds
        (attemptTimes_supplies stock there _ _) stock.tidy
  | rebind carry => exact stocked.rebind careful
  | sync => exact stocked.sync
  | beginWrite path =>
      refine Stocked.writers rfl rfl ?_
      unfold Overlay.beginWrite
      repeat' split
      all_goals exact idle ⟨rfl, rfl, Nat.le_refl _⟩ rfl rfl
  | writerOpened contentId => exact Stocked.writers rfl rfl (idle ⟨rfl, rfl, Nat.le_refl _⟩ rfl rfl)
  | writerClosed contentId =>
      refine Stocked.writers rfl rfl ?_
      unfold Overlay.writerClosed
      split
      all_goals exact idle ⟨rfl, rfl, Nat.le_refl _⟩ rfl rfl
  | releaseCopy contentId =>
      refine Stocked.writers rfl rfl ?_
      unfold Overlay.releaseCopy
      split
      · exact stocked
      · rename_i unnamed
        have cleared : Stocked
            {
              state with
              memory :=
                { state.memory with unsynced := state.memory.unsynced.erase contentId }
            } := idle ⟨rfl, rfl, Nat.le_refl _⟩ rfl rfl
        refine @Stocked.shed _ cleared (state.memory.files.erase contentId) ?_
        intro path id holds member
        refine ExtTreeMap.mem_erase.mpr ⟨fun same => unnamed ?_, member⟩
        rw [Std.LawfulEqCmp.compare_eq_iff_eq.mp same]
        rw [ExtTreeMap.contains_eq_isSome_getElem?,
          (stocked.stock.tidy.exact id path).mpr ⟨by simp, holds⟩]
        rfl

theorem Stocked.stoppedAt (stocked : Stocked state) {mutation : Mutation}
    (careful : Careful state mutation) (point : Nat)
    : Stocked (state.stoppedAt weather mutation point)
      ∧ Onward state.journal (state.stoppedAt weather mutation point).journal := by
  obtain ⟨inside, after, onward⟩ := @Stocked.apply state weather stocked mutation careful
  unfold Durable.stoppedAt
  cases found : (state.points weather mutation)[point]? with
  | none => exact ⟨stocked, .refl _⟩
  | some stage =>
      have member := List.mem_of_getElem? found
      rcases List.mem_append.mp member with started | last
      · rcases List.mem_cons.mp started with rfl | within
        · exact ⟨stocked, .refl _⟩
        · exact inside stage within
      · rw [List.mem_singleton.mp last]
        exact ⟨after, onward⟩

end Operations

-- Lives

theorem Stocked.created (recovery : Recovery) : Stocked (Durable.created recovery) := by
  have empty : Stocked ⟨Overlay.opened recovery.config recovery.snapshotTime, Journal.fresh⟩ := by
    refine ⟨⟨⟨?_, ?_, ?_, ?_⟩, ?_, ?_⟩, fun path => Or.inl ?_, ?_, ?_, Nat.le_refl _,
      Nat.le_refl _, Nat.le_refl _⟩
    all_goals simp [Overlay.opened, Journal.fresh, Holds]
  refine (empty.reopen ?_).1
  intro path id holds
  simp [Journal.fresh, Holds] at holds

theorem Stocked.pass {state : Durable} (stocked : Stocked state) {passage : Passage}
    (recoverable : Recoverable state passage)
    : Stocked (state.pass passage) ∧ Onward state.journal (state.pass passage).journal := by
  cases passage with
  | operation mutation weather => exact (stocked.apply recoverable).2
  | stop mutation weather point left recovery =>
      obtain ⟨careful, leaves, -⟩ := recoverable
      obtain ⟨stage, onward⟩ := @Stocked.stoppedAt state weather stocked mutation careful point
      obtain ⟨opened, further⟩ := @Stocked.reopen _ recovery left stage leaves
      exact ⟨opened, onward.trans further⟩

theorem Stocked.unissued {opened : Durable} (stocked : Stocked opened) {later : List Passage}
    (recoverable : Along Durable.pass Recoverable opened later) {after : Durable}
    (member : after ∈ states Durable.pass opened later)
    : Unissued opened after := by
  have preserved (state : Durable) (passage : Passage)
      (kept : Stocked state ∧ Onward opened.journal state.journal)
      (allowed : Recoverable state passage)
      : Stocked (state.pass passage) ∧ Onward opened.journal (state.pass passage).journal :=
    (kept.1.pass allowed).imp_right kept.2.trans
  obtain ⟨further, onward⟩ := invariant preserved ⟨stocked, .refl _⟩ recoverable after member
  intro path entry found
  refine ⟨?_, fun id content => ?_⟩
  · rcases stocked.numbered path entry found with own | taken
    · exact Nat.lt_of_lt_of_le own further.based
    · exact Nat.lt_of_lt_of_le taken (Nat.le_trans onward.inos further.inos)
  · have issued := stocked.issued path id ⟨entry, found, content⟩
    exact Nat.lt_of_lt_of_le issued (Nat.le_trans onward.ids further.ids)

/-- In every life of an overlay whose parts meet the condition, at every point of every
operation: what is opened after a stop there has every acknowledged row, local ones with their
files and their lengths, and no other file; and no number or content id that one of its rows
carries is issued later. Witness: stock as the invariant of the life.
-/
theorem stopped_overlay_recovers (recovery : Recovery) (earlier later : List Passage)
    (mutation : Mutation) (weather : Weather) (point : Nat)
    (left : ExtTreeMap Nat Bytes compare) (again : Recovery)
    (recoverable
      : Along Durable.pass Recoverable (Durable.created recovery)
          (earlier ++ .stop mutation weather point left again :: later))
    : let stage :=
        (earlier.foldl Durable.pass (Durable.created recovery)).stoppedAt weather mutation point
      let opened := Durable.reopen stage.journal left again
      Recovers stage opened
      ∧ ∀ after ∈ states Durable.pass opened later, Unissued opened after := by
  obtain ⟨before, now, afterwards⟩ := Along.append.mp recoverable
  have stocked : Stocked (earlier.foldl Durable.pass (Durable.created recovery)) :=
    invariant (fun _ _ stocked allowed => (stocked.pass allowed).1) (Stocked.created recovery)
      before _ (foldl_mem_states _ _ _)
  obtain ⟨careful, leaves, undated⟩ := now
  obtain ⟨stage, -⟩ := @Stocked.stoppedAt _ weather stocked mutation careful point
  obtain ⟨opened, -⟩ := @Stocked.reopen _ again left stage leaves
  exact ⟨stage.recovers leaves undated, fun _ member => opened.unissued afterwards member⟩

/-- A file made and written. -/
def sampleWriting : List Passage :=
  [.operation (.createFile [102] none ⟨0, none⟩ 0 false) fairWeather,
    .operation (.writeAt [102] 0 [104, 105]) fairWeather]

/-- The overlay once the file is written. -/
def sampleWritten : Durable :=
  sampleWriting.foldl Durable.pass (Durable.created sampleRecovery)

/-- The removal of the file is stopped when it is journaled and the content still there. -/
theorem sampleRemoval_recovers
    : let stage :=
        sampleWritten.stoppedAt fairWeather (.remove [102] none ⟨0, none⟩ false true) 2
      let opened := Durable.reopen stage.journal stage.memory.files sampleRecovery
      Recovers stage opened
      ∧ ∀ after
          ∈ states Durable.pass opened
              [.operation (.mkdir [100] none ⟨0, none⟩ 0) fairWeather],
          Unissued opened after := by
  refine stopped_overlay_recovers sampleRecovery sampleWriting _ _ fairWeather 2 _
    sampleRecovery ⟨⟨Or.inl ?_, Or.inl ?_⟩, trivial, ⟨Or.inl ?_, fun _ _ _ => rfl, ?_⟩,
      ⟨Or.inl ?_, Or.inl ?_⟩, trivial⟩
  case refine_4 =>
    intro path entry id _ _ _
    simp [Recovery.readBack, sampleRecovery, Timestamp.lt]
  all_goals decide

/-- Opened over content files written at second 100. -/
def laterFiles : Recovery :=
  { sampleRecovery with fileTime := fun _ => some ⟨100, 0⟩ }

/-- A file is made and given an older time. -/
def datedFile : List Passage :=
  [.operation (.createFile [102] none ⟨0, none⟩ 0 false) fairWeather,
    .operation (.setTimes [102] none 0 (some ⟨5, 0⟩)) fairWeather]

/-- A re-pin makes a directory under a number of the overlay's. -/
def madeDirectory : List Passage :=
  [.operation (.rebind (some ⟨[], [([100], 0)], 0, by decide⟩)) fairWeather]

/-- The process stops after such a life. -/
def stoppedAfter (life : List Passage) : Durable :=
  (life.foldl Durable.pass (Durable.created sampleRecovery)).stoppedAt fairWeather .sync 0

def openedAfter (life : List Passage) (recovery : Recovery) : Durable :=
  Durable.reopen (stoppedAfter life).journal (stoppedAfter life).memory.files recovery

/-- The dated file's row, acknowledged and journaled. -/
def datedRow : OverlayEntry where
  path := [102]
  present := true
  kind := .regular
  opaqueDir := false
  ino := overlayInoBase
  content := .local 1
  symlinkTarget := none
  size := 0
  mtime := ⟨5, 0⟩
  ctime := ⟨0, 2⟩
  renamedFrom := none
  base := none

/-- Opening dates the file again by its content file, and the made directory's number is the
next one to be issued.
-/
theorem stops_not_recovered
    : ¬ Recovers (stoppedAfter datedFile) (openedAfter datedFile laterFiles)
      ∧ ¬ ∀ after
            ∈ states Durable.pass (openedAfter madeDirectory sampleRecovery)
                [.operation (.mkdir [101] none ⟨0, none⟩ 0) fairWeather],
            Unissued (openedAfter madeDirectory sampleRecovery) after := by
  constructor
  · intro recovers
    have restored := recovers.restored [102]
    have held : (stoppedAfter datedFile).memory.entries[([102] : BytePath)]? = some datedRow := by
      decide
    have journaled
        : (stoppedAfter datedFile).journal.rows[([102] : BytePath)]? = some datedRow := by
      decide
    have later
        : (openedAfter datedFile laterFiles).memory.entries[([102] : BytePath)]?.map
            OverlayEntry.mtime = some ⟨100, 0⟩ := by
      decide +kernel
    unfold Restored at restored
    rw [held] at restored
    obtain ⟨file, mtime, ctime, -, -, opened, same⟩ := restored
    rw [opened, same journaled] at later
    cases later
  · intro unissued
    have held
        : (openedAfter madeDirectory sampleRecovery).memory.entries[([100] : BytePath)]?.map
            OverlayEntry.ino = some (openedAfter madeDirectory sampleRecovery).memory.nextIno := by
      decide
    obtain ⟨entry, there, ino⟩ := Option.map_eq_some_iff.mp held
    have less := (unissued _ List.mem_cons_self [100] entry there).1
    rw [ino] at less
    exact Nat.lt_irrefl _ less

end Gfs.Overlay
