import Gfs.Overlay.Rebuilding
import Gfs.Overlay.View

/-! Journal and memory agree up to the dirty set. Every operation leaves the journal level with
memory, or behind it in the size and times of rows written since; a failed one leaves both as
they were; and a sync that reports success leaves nothing behind.
-/

namespace Gfs.Overlay

open Gfs.Types
open Gfs.Lib.Overwrites
open Gfs.Lib.Runs
open Std (ExtTreeMap ExtTreeSet)

-- What is promised

/-- The journal's tables hold what memory holds, up to the rows of dirty content. -/
structure Abreast (state : Durable) : Prop where
  rows
    : ∀ path : BytePath,
        Behind state.memory.dirty state.journal.rows[path]? state.memory.entries[path]?
  vanished : state.journal.vanished = state.memory.vanished
  vanishedOverflow : state.journal.vanishedOverflow = state.memory.vanishedOverflow
  rootTimes : state.journal.rootTimes = state.memory.rootTimes

/-- Rows, vanished names and root times are what they were, in the journal and in memory. -/
structure Unchanged (before after : Durable) : Prop where
  journal : after.journal = before.journal
  entries : after.memory.entries = before.memory.entries
  vanished : after.memory.vanished = before.memory.vanished
  vanishedOverflow : after.memory.vanishedOverflow = before.memory.vanishedOverflow
  rootTimes : after.memory.rootTimes = before.memory.rootTimes

/-- What is promised of one operation. A sync is no mutation: it may commit rows and then
fail to make them durable.
-/
structure Faithful (before : Durable) (mutation : Mutation)
    (result : Except Condition Unit × Durable)
    : Prop where
  abreast : Abreast result.2
  failed : mutation ≠ .sync → result.1 ≠ .ok () → Unchanged before result.2
  synced
    : mutation = .sync → result.1 = .ok ()
      → ∀ path : BytePath, result.2.journal.rows[path]? = result.2.memory.entries[path]?

/-- `set_executable` has nothing left to do after adopting this. -/
def alreadyAs (executable : Bool) (kind : OverlayKind) : Prop :=
  kind.isDir ∨ kind = .symlink ∨ kind = if executable then .executable else .regular

theorem attemptExecutable_already {overlay : Overlay} {host : Timestamp} {entry : OverlayEntry}
    {executable : Bool} (already : alreadyAs executable entry.kind)
    : overlay.attemptExecutable host entry executable = .done entry overlay :=
  if_pos already

theorem attemptExecutable_changes {overlay : Overlay} {host : Timestamp} {entry : OverlayEntry}
    {executable : Bool} (changes : ¬ alreadyAs executable entry.kind)
    : overlay.attemptExecutable host entry executable
      = .writes
          {
            entry with
            kind := if executable then .executable else .regular
            ctime := (overlay.nextTime host).1
          }
          ((overlay.nextTime host).2.transaction
            [.put
              {
                entry with
                kind := if executable then .executable else .regular
                ctime := (overlay.nextTime host).1
              }] [] none) :=
  if_neg changes

/-- No transaction fails whose operation has already moved something: the second of
`set_executable` and `set_times` after an adoption, the one of `refresh_content` after the row
was brought up to date, and the one of `sync`, which has cleared the dirty set.
-/
def Whole (state : Durable) (weather : Weather) : Mutation → Prop
  | .setExecutable path base _ executable =>
      resolve state.memory.entries path = .base → weather.journal 0 = true
      → (∀ facts ∈ base.toList, ∀ kind ∈ (OverlayKind.fromEntryKind facts.kind).toList,
            alreadyAs executable kind)
        ∨ weather.journal 1 = true
  | .setTimes path _ _ _ =>
      resolve state.memory.entries path = .base → weather.journal 0 = true
      → weather.journal 1 = true
  | .refreshContent contentId size mtime =>
      ∀ path ∈ state.memory.byContent[contentId]?.toList,
        ∀ entry ∈ state.memory.entries[path]?.toList,
          (entry.size = size ∧ entry.mtime = mtime) ∨ weather.journal 0 = true
  | .sync =>
      (∀ id ∈ state.memory.dirty.toList, state.memory.byContent[id]? = none)
      ∨ weather.journal 0 = true
  | _ => True

-- Level books

/-- What a journal can be opened from: its counter is past every content id its rows name, and
once too many names have vanished it holds none.
-/
structure Journal.Sealed (journal : Journal) : Prop where
  issued
    : ∀ (path : BytePath) (id : Nat),
        Holds journal.rows path id → id < journal.nextContentId
  spent : journal.vanishedOverflow = true → journal.vanished = ∅

/-- The journal is level with memory and memory's books are exact. -/
structure Level (state : Durable) : Prop where
  ledger : Ledger none state.journal.rows state.memory
  vanished : state.journal.vanished = state.memory.vanished
  vanishedOverflow : state.journal.vanishedOverflow = state.memory.vanishedOverflow
  rootTimes : state.journal.rootTimes = state.memory.rootTimes
  sealed_ : state.journal.Sealed

section Steps

variable {state : Durable} {weather : Weather} {overlay : Overlay} {α : Type}

theorem Level.abreast (level : Level state) : Abreast state where
  rows := fun path => level.ledger.behind path (by simp)
  vanished := level.vanished
  vanishedOverflow := level.vanishedOverflow
  rootTimes := level.rootTimes

theorem Behind.clean {dirty : ExtTreeSet Nat compare} {journaled held : Option OverlayEntry}
    (behind : Behind dirty journaled held) (clean : ∀ id, id ∉ dirty)
    : journaled = held := by
  rcases behind with equal | ⟨_, id, _, _, _, _, _, marked, _⟩
  · exact equal
  · exact absurd marked (clean id)

theorem Level.poised (level : Level state) (poised : Poised state.memory overlay)
    : Level { state with memory := overlay } where
  ledger := level.ledger.congr poised.toSameBooks
  vanished := level.vanished.trans poised.vanished.symm
  vanishedOverflow := level.vanishedOverflow.trans poised.vanishedOverflow.symm
  rootTimes := level.rootTimes.trans poised.rootTimes.symm
  sealed_ := level.sealed_

theorem Poised.unchanged (poised : Poised state.memory overlay)
    : Unchanged state { state with memory := overlay } :=
  ⟨rfl, poised.entries, poised.vanished, poised.vanishedOverflow, poised.rootTimes⟩

theorem Transaction.failed_poised (transaction : Transaction)
    : Poised transaction.prepared transaction.failed :=
  ⟨⟨⟨rfl, rfl, Nat.le_refl _⟩, rfl⟩, rfl, rfl, rfl, Nat.le_refl _⟩

theorem applyChanges_vanished (stamp : Bool) (changes : List Change) (overlay : Overlay)
    : (changes.foldl (Overlay.applyChange stamp) overlay).vanished = overlay.vanished
      ∧ (changes.foldl (Overlay.applyChange stamp) overlay).vanishedOverflow
        = overlay.vanishedOverflow
      ∧ (changes.foldl (Overlay.applyChange stamp) overlay).rootTimes = overlay.rootTimes := by
  induction changes generalizing overlay with
  | nil => exact ⟨rfl, rfl, rfl⟩
  | cons change changes ih =>
      obtain ⟨vanished, overflow, times⟩ := ih (overlay.applyChange stamp change)
      refine ⟨vanished.trans ?_, overflow.trans ?_, times.trans ?_⟩
      all_goals cases change <;> rfl

/-- A transaction over the same tables leaves the books level if it leaves the rows so. -/
theorem Level.written {transaction : Transaction} (level : Level state)
    (vanished : transaction.prepared.vanished = state.memory.vanished)
    (overflow : transaction.prepared.vanishedOverflow = state.memory.vanishedOverflow)
    (times : transaction.prepared.rootTimes = state.memory.rootTimes)
    (ledger
      : Ledger none (overwrite state.journal.rows (transaction.changes.map Change.write))
          (transaction.changes.foldl (Overlay.applyChange transaction.stamp)
            transaction.begun))
    : Level ⟨transaction.committed, transaction.journaled state.journal⟩ := by
  obtain ⟨gone, full, touched⟩ :=
    applyChanges_vanished transaction.stamp transaction.changes transaction.begun
  refine ⟨ledger.congr ⟨⟨rfl, rfl, Nat.le_refl _⟩, rfl⟩, ?_, ?_, ?_, ?_, ?_⟩
  · refine Eq.trans ?_ gone.symm
    simp only [Transaction.journaled, Journal.apply, Transaction.begun, Overlay.applyVanished,
      level.vanished, vanished]
  · refine Eq.trans ?_ full.symm
    simp only [Transaction.journaled, Journal.apply, Transaction.begun, Overlay.applyVanished,
      level.vanishedOverflow, overflow]
    cases state.memory.vanishedOverflow <;> simp
  · refine Eq.trans ?_ touched.symm
    simp only [Transaction.journaled, Journal.apply, Transaction.begun, Overlay.applyVanished,
      level.rootTimes, times]
  · intro path id holds
    have held := ledger.tidy.bounded path id (ledger.holds_iff.mp holds)
    rw [(Overlay.applyChanges_fields ..).2.2.1] at held
    exact held
  · intro overflowed
    simp only [Transaction.journaled, Journal.apply, level.vanishedOverflow, overflow]
      at overflowed ⊢
    rw [if_pos]
    cases spent : state.memory.vanishedOverflow with
    | true => rfl
    | false => simpa [spent] using overflowed

theorem Level.committed {transaction : Transaction} (level : Level state)
    (poised : Poised state.memory transaction.prepared) (balanced : transaction.Balanced)
    : Level ⟨transaction.committed, transaction.journaled state.journal⟩ :=
  level.written poised.vanished poised.vanishedOverflow poised.rootTimes
    (balanced state.journal.rows (level.ledger.congr poised.toSameBooks))

/-- An operation that keeps the books leaves them level, and leaves everything as it was when
it fails.
-/
theorem Level.perform (level : Level state) {attempt : Attempt α}
    (keeps : attempt.Keeps state.memory) (succeeds : Bool)
    : Level (state.perform attempt succeeds).2
      ∧ ∀ condition, (state.perform attempt succeeds).1 = .error condition
          → Unchanged state (state.perform attempt succeeds).2 := by
  cases attempt with
  | refused condition after => exact ⟨level.poised keeps, fun _ _ => keeps.unchanged⟩
  | done answer after => exact ⟨level.poised keeps, fun _ failed => by cases failed⟩
  | writes answer transaction =>
      obtain ⟨poised, balanced⟩ := keeps
      cases succeeds with
      | true => exact ⟨level.committed poised balanced, fun _ failed => by cases failed⟩
      | false =>
          have whole := poised.trans transaction.failed_poised
          exact ⟨level.poised whole, fun _ _ => whole.unchanged⟩

/-- Content noted as written is dirty, and its row may be ahead of the journal. -/
theorem Ledger.noteWritten {journaled : Rows} (ledger : Ledger none journaled overlay)
    {path : BytePath} {entry : OverlayEntry} {id : Nat}
    (found : overlay.entries[path]? = some entry) (content : entry.content = .local id)
    (host : Timestamp) (size : Nat) (mtime : Option Timestamp)
    : Ledger none journaled (overlay.noteWritten host entry size mtime) := by
  have tidy := ledger.tidy
  have own := tidy.keyed path entry found
  have dirty (other : Nat)
      : other ∈ (overlay.noteWritten host entry size mtime).dirty
        ↔ other = id ∨ other ∈ overlay.dirty := by
    simp only [Overlay.noteWritten, Overlay.replaceInMemory, content, Content.localId,
      Option.elim_some, Overlay.nextTime, ExtTreeSet.mem_insert,
      Std.LawfulEqCmp.compare_eq_iff_eq]
    exact or_congr eq_comm Iff.rfl
  have here
      : (overlay.noteWritten host entry size mtime).entries[path]?
        = some
            {
              entry with
              size
              mtime := mtime.getD (overlay.nextTime host).1
              ctime := (overlay.nextTime host).1
            } := by
    simp [Overlay.noteWritten, Overlay.replaceInMemory, own]
  have elsewhere {other : BytePath} (apart : other ≠ path)
      : (overlay.noteWritten host entry size mtime).entries[other]?
        = overlay.entries[other]? := by
    simp only [Overlay.noteWritten, Overlay.replaceInMemory, own]
    rw [ExtTreeMap.getElem?_insert, if_neg]
    · rfl
    · exact fun same => apart (Std.LawfulEqCmp.compare_eq_iff_eq.mp same).symm
  have holds (other : BytePath) (held : Nat)
      : Holds (overlay.noteWritten host entry size mtime).entries other held
        ↔ Holds overlay.entries other held := by
    by_cases same : other = path
    · subst same
      unfold Holds
      rw [here, found]
      simp
    · exact Holds.congr (elsewhere same)
  refine ⟨⟨?_, ?_, ?_, ?_⟩, ?_, ?_⟩
  · intro other row held
    by_cases same : other = path
    · subst same
      rw [here] at held
      cases held
      exact own
    · rw [elsewhere same] at held
      exact tidy.keyed other row held
  · intro held other
    rw [holds]
    exact tidy.exact held other
  · intro other held present
    exact tidy.bounded other held ((holds other held).mp present)
  · intro other row held directory
    by_cases same : other = path
    · subst same
      rw [here] at held
      cases held
      exact tidy.blank other entry found directory
    · rw [elsewhere same] at held
      exact tidy.blank other row held directory
  · intro other _
    by_cases same : other = path
    · subst same
      rw [here]
      rcases ledger.behind other (by simp)
        with equal | ⟨row, held, size', mtime', ctime', there, local_, -, row'⟩
      · rw [equal, found]
        exact Or.inr ⟨_, id, entry.size, entry.mtime, entry.ctime, rfl, content,
          (dirty id).mpr (Or.inl rfl), rfl⟩
      · rw [found] at there
        cases there
        rw [row']
        exact Or.inr ⟨_, id, size', mtime', ctime', rfl, content,
          (dirty id).mpr (Or.inl rfl), rfl⟩
    · rw [elsewhere same]
      rcases ledger.behind other (by simp)
        with equal | ⟨row, held, size', mtime', ctime', there, local_, marked, row'⟩
      · exact Or.inl equal
      · exact Or.inr ⟨row, held, size', mtime', ctime', there, local_,
          (dirty held).mpr (Or.inr marked), row'⟩
  · intro other held absurd
    cases absurd

theorem Level.noteWritten (level : Level state) {path : BytePath} {entry : OverlayEntry}
    {id : Nat} (found : state.memory.entries[path]? = some entry)
    (content : entry.content = .local id) (host : Timestamp) (size : Nat)
    (mtime : Option Timestamp)
    : Level { state with memory := state.memory.noteWritten host entry size mtime } :=
  ⟨level.ledger.noteWritten found content host size mtime, level.vanished,
    level.vanishedOverflow, level.rootTimes, level.sealed_⟩

theorem Ledger.forget {journaled : Rows} (ledger : Ledger none journaled overlay) {id : Nat}
    (unnamed : ∀ path, ¬ Holds overlay.entries path id)
    : Ledger none journaled { overlay with dirty := overlay.dirty.erase id } where
  tidy := ledger.tidy.congr ⟨rfl, rfl, Nat.le_refl _⟩
  behind := by
    intro path outside
    rcases ledger.behind path outside with
      same | ⟨entry, held, size, mtime, ctime, there, content, marked, row⟩
    · exact Or.inl same
    · refine Or.inr ⟨entry, held, size, mtime, ctime, there, content, ?_, row⟩
      rw [ExtTreeSet.mem_erase]
      refine ⟨fun equal => ?_, marked⟩
      rw [Std.LawfulEqCmp.compare_eq_iff_eq.mp equal] at unnamed
      exact unnamed path ⟨entry, there, content⟩
  settled := by
    intro path held absurd
    cases absurd

theorem Tidy.rowOf (tidy : Tidy none overlay) {id : Nat} {entry : OverlayEntry}
    (found
      : overlay.byContent[id]?.bind (fun path => overlay.entries[path]?) = some entry)
    : overlay.byContent[id]? = some entry.path
      ∧ overlay.entries[entry.path]? = some entry ∧ entry.content = .local id := by
  obtain ⟨path, owned, there⟩ := Option.bind_eq_some_iff.mp found
  have own := tidy.keyed path entry there
  subst own
  obtain ⟨-, row, held, content⟩ := (tidy.exact id entry.path).mp owned
  rw [there] at held
  cases held
  exact ⟨owned, there, content⟩

theorem Tidy.unnamed (tidy : Tidy none overlay) {id : Nat}
    (missing : overlay.byContent[id]?.bind (fun path => overlay.entries[path]?) = none)
    : ∀ path, ¬ Holds overlay.entries path id := by
  intro path holds
  have owned := (tidy.exact id path).mpr ⟨by simp, holds⟩
  obtain ⟨entry, there, -⟩ := holds
  rw [owned, Option.bind_some, there] at missing
  cases missing

theorem Level.settle (level : Level state) (contentId : Nat) (succeeds : Bool)
    : Level (state.perform (state.memory.attemptSettle contentId) succeeds).2
      ∧ ∀ condition,
          (state.perform (state.memory.attemptSettle contentId) succeeds).1 = .error condition
          → Unchanged state (state.perform (state.memory.attemptSettle contentId) succeeds).2 := by
  cases found
      : state.memory.byContent[contentId]?.bind (fun path => state.memory.entries[path]?) with
  | some entry =>
      exact level.perform (attemptSettle_keeps level.ledger.tidy contentId
        (Or.inl (by rw [found]; rfl))) succeeds
  | none =>
      have forgotten
          : state.memory.attemptSettle contentId
            = .done none { state.memory with dirty := state.memory.dirty.erase contentId } := by
        simp only [Overlay.attemptSettle, found]
      rw [forgotten]
      exact ⟨⟨level.ledger.forget (level.ledger.tidy.unnamed found), level.vanished,
        level.vanishedOverflow, level.rootTimes, level.sealed_⟩,
        fun _ failed => by cases failed⟩

theorem Fitting.rows {stamp : Bool} {rows : List OverlayEntry} (tidy : Tidy none overlay)
    (there : ∀ row ∈ rows, overlay.entries[row.path]? = some row)
    : Fitting stamp overlay (rows.map Change.put) := by
  induction rows generalizing overlay with
  | nil => trivial
  | cons row rows ih =>
      have fits : (Change.put row).Fits overlay :=
        Change.fits_own tidy (there row (by simp)) rfl rfl rfl
      have kept := @Tidy.applyChange none overlay (.put row) stamp tidy fits
      refine ⟨fits, ih kept ?_⟩
      intro other member
      by_cases same : other.path = (Change.put row).write.1
      · have first := there row (by simp)
        have second := there other (by simp [member])
        rw [show row.path = other.path from same.symm, second] at first
        rw [same, applyChange_self]
        exact congrArg some (Option.some.inj first).symm
      · rw [applyChange_other same]
        exact there other (by simp [member])

/-- Writing every dirty row over itself leaves nothing behind, whatever is dirty afterwards. -/
theorem Ledger.caughtUp {journaled : Rows} {stamp : Bool} {begun : Overlay}
    {rows : List OverlayEntry} (ledger : Ledger none journaled overlay)
    (there : ∀ row ∈ rows, overlay.entries[row.path]? = some row)
    (listed
      : ∀ (path : BytePath) (entry : OverlayEntry) (id : Nat),
          overlay.entries[path]? = some entry → entry.content = .local id
          → id ∈ overlay.dirty → entry ∈ rows)
    (same : SameRows overlay begun)
    : Ledger none (overwrite journaled ((rows.map Change.put).map Change.write))
        ((rows.map Change.put).foldl (Overlay.applyChange stamp) begun) := by
  have tidy := ledger.tidy.congr same
  have fitting := @Fitting.rows begun stamp rows tidy (by rw [same.entries]; exact there)
  refine ⟨?_, ?_, ?_⟩
  · have kept := tidy.applyChanges fitting
    rw [foldl_holeAfter_none] at kept
    exact kept
  · intro path _
    rw [(Overlay.applyChanges_fields ..).1, getElem?_overwrite, getElem?_overwrite, same.entries]
    cases last : lastWrite path ((rows.map Change.put).map Change.write) with
    | some value => exact Or.inl rfl
    | none =>
        refine Or.inl ?_
        rcases ledger.behind path (by simp) with
          equal | ⟨entry, id, size, mtime, ctime, found, content, marked, -⟩
        · exact equal
        · have own := ledger.tidy.keyed path entry found
          have member : (path, some entry) ∈ (rows.map Change.put).map Change.write := by
            rw [List.map_map]
            refine List.mem_map.mpr ⟨entry, listed path entry id found content marked, ?_⟩
            simp [Change.write, own]
          obtain ⟨value, written⟩ := exists_lastWrite member
          rw [last] at written
          cases written
  · intro path id absurd
    cases absurd

theorem dirty_of_applyChanges {stamp : Bool} {id : Nat} (changes : List Change)
    (marked : id ∈ (changes.foldl (Overlay.applyChange stamp) overlay).dirty)
    : id ∈ overlay.dirty := by
  induction changes generalizing overlay with
  | nil => exact marked
  | cons change changes ih => exact (mem_dirty_applyChange.mp (ih marked)).1

/-- Once every dirty row is written, nothing is behind. -/
theorem Level.settleAll (level : Level state) (succeeds : Bool)
    (whole
      : (∀ id ∈ state.memory.dirty.toList, state.memory.byContent[id]? = none)
        ∨ succeeds = true)
    : Level (state.perform state.memory.attemptSettleAll succeeds).2
      ∧ (state.perform state.memory.attemptSettleAll succeeds).1 = .ok ()
      ∧ ∀ path : BytePath,
          (state.perform state.memory.attemptSettleAll succeeds).2.journal.rows[path]?
          = (state.perform state.memory.attemptSettleAll succeeds).2.memory.entries[path]? := by
  have tidy := level.ledger.tidy
  by_cases clean : state.memory.dirty.isEmpty = true
  · have settled : state.memory.attemptSettleAll = .done () state.memory := by
      simp only [Overlay.attemptSettleAll, clean, ↓reduceIte]
    rw [settled]
    exact ⟨level, rfl, fun path => (level.abreast.rows path).clean
      (fun id => by rw [ExtTreeSet.isEmpty_iff.mp clean]; exact ExtTreeSet.not_mem_empty)⟩
  · let rows := state.memory.dirty.toList.filterMap (fun id =>
      state.memory.byContent[id]?.bind (fun path => state.memory.entries[path]?))
    have there : ∀ row ∈ rows, state.memory.entries[row.path]? = some row := by
      intro row member
      obtain ⟨id, -, found⟩ := List.mem_filterMap.mp member
      exact (tidy.rowOf found).2.1
    have listed (path : BytePath) (entry : OverlayEntry) (id : Nat)
        (found : state.memory.entries[path]? = some entry) (content : entry.content = .local id)
        (marked : id ∈ state.memory.dirty)
        : entry ∈ rows := by
      refine List.mem_filterMap.mpr ⟨id, ExtTreeSet.mem_toList.mpr marked, ?_⟩
      rw [(tidy.exact id path).mpr ⟨by simp, entry, found, content⟩, Option.bind_some, found]
    let cleared : Overlay := { state.memory with dirty := ∅ }
    let transaction := cleared.transaction (rows.map Change.put) [] none
    by_cases idle : (rows.map Change.put).isEmpty = true
    · have settled : state.memory.attemptSettleAll = .done () cleared := by
        simp only [Overlay.attemptSettleAll, clean, Bool.false_eq_true, ↓reduceIte]
        exact if_pos idle
      have ledger := @Ledger.caughtUp state.memory state.journal.rows true cleared rows
        level.ledger there listed ⟨rfl, rfl, Nat.le_refl _⟩
      rw [List.isEmpty_iff.mp idle] at ledger
      rw [settled]
      have levelled : Level ⟨cleared, state.journal⟩ :=
        ⟨ledger, level.vanished, level.vanishedOverflow, level.rootTimes, level.sealed_⟩
      exact ⟨levelled, rfl, fun path => (levelled.abreast.rows path).clean
        (fun _ => ExtTreeSet.not_mem_empty)⟩
    · have settled : state.memory.attemptSettleAll = .writes () transaction := by
        simp only [Overlay.attemptSettleAll, clean, Bool.false_eq_true, ↓reduceIte]
        exact if_neg idle
      have succeeded : succeeds = true := by
        rcases whole with unnamed | succeeded
        · refine absurd ?_ idle
          rw [List.isEmpty_iff, List.map_eq_nil_iff, List.filterMap_eq_nil_iff]
          intro id member
          rw [unnamed id member]
          rfl
        · exact succeeded
      subst succeeded
      have ledger := @Ledger.caughtUp state.memory state.journal.rows true transaction.begun
        rows level.ledger there listed ⟨rfl, rfl, Nat.le_refl _⟩
      have levelled : Level ⟨transaction.committed, transaction.journaled state.journal⟩ :=
        @Level.written state transaction level rfl rfl rfl ledger
      rw [settled]
      refine ⟨levelled, rfl, fun path => (levelled.abreast.rows path).clean ?_⟩
      intro id marked
      exact ExtTreeSet.not_mem_empty (dirty_of_applyChanges (rows.map Change.put) marked)

theorem perform_settle_ok (contentId : Nat)
    : (state.perform (overlay.attemptSettle contentId) true).1
      = .ok (overlay.byContent[contentId]?.bind (fun path => overlay.entries[path]?)) := by
  unfold Overlay.attemptSettle
  split
  · rename_i missing
    rw [missing]
    rfl
  · rename_i entry found
    rw [found]
    split <;> rfl

theorem Level.refreshContent (level : Level state) (contentId size : Nat) (mtime : Timestamp)
    (host : Timestamp) (succeeds : Bool)
    (whole
      : ∀ path ∈ state.memory.byContent[contentId]?.toList,
          ∀ entry ∈ state.memory.entries[path]?.toList,
            (entry.size = size ∧ entry.mtime = mtime) ∨ succeeds = true)
    : Level
        (state.perform (state.memory.attemptRefreshContent host contentId size mtime)
          succeeds).2
      ∧ ∀ condition,
          (state.perform (state.memory.attemptRefreshContent host contentId size mtime)
            succeeds).1 = .error condition
          → Unchanged state
              (state.perform (state.memory.attemptRefreshContent host contentId size mtime)
                succeeds).2 := by
  unfold Overlay.attemptRefreshContent
  split
  · exact ⟨level, fun _ failed => by cases failed⟩
  · rename_i entry found
    obtain ⟨owned, there, content⟩ := level.ledger.tidy.rowOf found
    split
    · rename_i stale
      have succeeded : succeeds = true := by
        rcases whole entry.path (by simp [owned]) entry (by simp [there]) with
          ⟨sized, timed⟩ | succeeded
        · exact absurd stale (by simp [sized, timed])
        · exact succeeded
      subst succeeded
      have noted := level.noteWritten there content host size (some mtime)
      obtain ⟨settled, -⟩ := noted.settle contentId true
      refine ⟨settled, fun condition failed => ?_⟩
      rw [perform_settle_ok] at failed
      cases failed
    · exact level.settle contentId succeeds

theorem Level.writeThrough (level : Level state) {result : Except Condition Nat × Overlay}
    (contentIo : Bool)
    (refused : ∀ condition, result.1 = .error condition → result.2 = state.memory)
    (noted : ∀ written, result.1 = .ok written → Level { state with memory := result.2 })
    : Level (state.writeThrough contentIo result).2
      ∧ ∀ condition, (state.writeThrough contentIo result).1 = .error condition
          → Unchanged state (state.writeThrough contentIo result).2 := by
  obtain ⟨answer, overlay⟩ := result
  cases answer with
  | error condition =>
      have same : overlay = state.memory := refused condition rfl
      subst same
      exact ⟨level, fun _ _ => ⟨rfl, rfl, rfl, rfl, rfl⟩⟩
  | ok written =>
      cases contentIo with
      | false => exact ⟨level, fun _ _ => ⟨rfl, rfl, rfl, rfl, rfl⟩⟩
      | true => exact ⟨noted written rfl, fun _ failed => by cases failed⟩

/-- What a write by path comes to. -/
theorem writeAt_cases (overlay : Overlay) (host : Timestamp) (path : BytePath) (offset : Nat)
    (data : Bytes)
    : (∃ condition, overlay.writeAt host path offset data = (.error condition, overlay))
      ∨ ∃ (entry : OverlayEntry) (id : Nat) (files : ExtTreeMap Nat Bytes compare)
          (written size : Nat),
          overlay.entries[path]? = some entry
          ∧ entry.content = .local id
          ∧ (∀ other ∈ overlay.files, other ∈ files)
          ∧ overlay.writeAt host path offset data
            = (.ok written, ({ overlay with files }).noteWritten host entry size none) := by
  unfold Overlay.writeAt
  split
  · exact Or.inl ⟨_, rfl⟩
  · rename_i entry found
    split
    · exact Or.inl ⟨_, rfl⟩
    · rename_i id content
      split
      · exact Or.inl ⟨_, rfl⟩
      · split
        · exact Or.inl ⟨_, rfl⟩
        · exact Or.inr ⟨entry, id, _, _, _, (Option.filter_eq_some_iff.mp found).1,
            localId_iff.mp content, fun other member => ExtTreeMap.mem_insert.mpr (Or.inr member),
            rfl⟩

theorem writeContent_cases (overlay : Overlay) (host : Timestamp) (contentId offset : Nat)
    (data : Bytes)
    : (∃ condition,
          overlay.writeContent host contentId offset data = (.error condition, overlay))
      ∨ (∃ files written,
          (∀ other ∈ overlay.files, other ∈ files)
          ∧ overlay.writeContent host contentId offset data
            = (.ok written, { overlay with files }))
      ∨ ∃ (entry : OverlayEntry) (files : ExtTreeMap Nat Bytes compare) (written size : Nat),
          overlay.byContent[contentId]?.bind (fun path => overlay.entries[path]?) = some entry
          ∧ (∀ other ∈ overlay.files, other ∈ files)
          ∧ overlay.writeContent host contentId offset data
            = (.ok written, ({ overlay with files }).noteWritten host entry size none) := by
  have kept (data : Bytes) (other : Nat) (member : other ∈ overlay.files)
      : other ∈ overlay.files.modify contentId (writeBytes · offset data) :=
    ExtTreeMap.mem_modify.mpr member
  simp only [Overlay.writeContent]
  split
  · exact Or.inl ⟨_, rfl⟩
  · split
    · exact Or.inr (Or.inl ⟨_, _, kept _, rfl⟩)
    · rename_i entry found
      exact Or.inr (Or.inr ⟨entry, _, _, _, found, kept _, rfl⟩)

theorem Level.files (level : Level state) (files : ExtTreeMap Nat Bytes compare)
    : Level ⟨{ state.memory with files }, state.journal⟩ :=
  level.poised ⟨⟨⟨rfl, rfl, Nat.le_refl _⟩, rfl⟩, rfl, rfl, rfl, Nat.le_refl _⟩

theorem Level.writeAt (level : Level state) (contentIo : Bool) (host : Timestamp)
    (path : BytePath) (offset : Nat) (data : Bytes)
    : Level (state.writeThrough contentIo (state.memory.writeAt host path offset data)).2
      ∧ ∀ condition,
          (state.writeThrough contentIo (state.memory.writeAt host path offset data)).1
            = .error condition
          → Unchanged state
              (state.writeThrough contentIo
                (state.memory.writeAt host path offset data)).2 := by
  rcases writeAt_cases state.memory host path offset data with
    ⟨condition, same⟩ | ⟨entry, id, files, written, size, there, content, -, same⟩
  · rw [same]
    exact level.writeThrough contentIo (fun _ _ => rfl) (fun _ done => by cases done)
  · rw [same]
    exact level.writeThrough contentIo (fun _ failed => by cases failed)
      (fun _ _ => (level.files files).noteWritten there content host size none)

theorem Level.writeContent (level : Level state) (contentIo : Bool) (host : Timestamp)
    (contentId offset : Nat) (data : Bytes)
    : Level
        (state.writeThrough contentIo (state.memory.writeContent host contentId offset data)).2
      ∧ ∀ condition,
          (state.writeThrough contentIo
            (state.memory.writeContent host contentId offset data)).1 = .error condition
          → Unchanged state
              (state.writeThrough contentIo
                (state.memory.writeContent host contentId offset data)).2 := by
  rcases writeContent_cases state.memory host contentId offset data with
    ⟨condition, same⟩ | ⟨files, written, -, same⟩ | ⟨entry, files, written, size, found, -, same⟩
  · rw [same]
    exact level.writeThrough contentIo (fun _ _ => rfl) (fun _ done => by cases done)
  · rw [same]
    exact level.writeThrough contentIo (fun _ failed => by cases failed)
      (fun _ _ => level.files files)
  · obtain ⟨-, there, content⟩ := level.ledger.tidy.rowOf found
    rw [same]
    exact level.writeThrough contentIo (fun _ failed => by cases failed)
      (fun _ _ => (level.files files).noteWritten there content host size none)

/-- An adoption that succeeds either found the row in memory or journaled it, and answers with
the row memory then has.
-/
theorem adopted_row (host : Timestamp) (path : BytePath) (base : Option BaseFacts) (ino : Nat)
    (succeeds : Bool) {entry : OverlayEntry} {after : Durable}
    (adopted
      : state.perform (state.memory.attemptAdopt host path base ino) succeeds
        = (.ok entry, after))
    : after.memory.entries[path]? = some entry
      ∧ (after = state
        ∨ (resolve state.memory.entries path = .base ∧ succeeds = true
          ∧ ∃ facts ∈ base, OverlayKind.fromEntryKind facts.kind = some entry.kind)) := by
  unfold Overlay.attemptAdopt at adopted
  split at adopted
  · cases adopted
  · split at adopted
    · cases adopted
    · split at adopted
      · rename_i row resolved
        cases adopted
        exact ⟨(resolve_eq_overlay.mp resolved).2.1, Or.inl rfl⟩
      · cases adopted
      · rename_i resolved
        split at adopted
        · cases adopted
        · rename_i facts
          split at adopted
          · cases adopted
          · rename_i kind known
            cases succeeds with
            | false => cases adopted
            | true =>
                cases adopted
                refine ⟨?_, Or.inr ⟨resolved, rfl, facts, rfl, known⟩⟩
                simp [Transaction.committed, Overlay.transaction, Change.write,
                  getElem?_overwrite, Overlay.adoptedEntry]

/-- The two transactions of `set_executable` and `set_times`: the second keeps the books too,
and does not fail after a fresh adoption.
-/
theorem Level.adoptThen (level : Level state) (path : BytePath) (base : Option BaseFacts)
    (ino : Nat) {second : Overlay → OverlayEntry → Attempt OverlayEntry}
    (keeps
      : ∀ (overlay : Overlay) (entry : OverlayEntry),
          Tidy none overlay → overlay.entries[path]? = some entry
          → (second overlay entry).Keeps overlay)
    (proceeds
      : ∀ (after : Durable) (entry : OverlayEntry),
          resolve state.memory.entries path = .base → weather.journal 0 = true
          → (∃ facts ∈ base, OverlayKind.fromEntryKind facts.kind = some entry.kind)
          → ∃ answer,
              (after.perform (second after.memory entry) (weather.journal 1)).1 = .ok answer)
    : Level (state.adoptThen weather path base ino second).2
      ∧ ∀ condition, (state.adoptThen weather path base ino second).1 = .error condition
          → Unchanged state (state.adoptThen weather path base ino second).2 := by
  have first := level.perform (attemptAdopt_keeps (weather.clock 0) path base ino)
    (weather.journal 0)
  unfold Durable.adoptThen
  split
  · rename_i condition after refused
    rw [refused] at first
    exact ⟨first.1, fun _ _ => first.2 condition rfl⟩
  · rename_i entry after adopted
    rw [adopted] at first
    obtain ⟨there, same | ⟨resolved, succeeded, kind⟩⟩ := adopted_row _ _ _ _ _ adopted
    · subst same
      exact level.perform (keeps after.memory entry level.ledger.tidy there) (weather.journal 1)
    · have next := first.1.perform (keeps after.memory entry first.1.ledger.tidy there)
        (weather.journal 1)
      refine ⟨next.1, fun condition failed => ?_⟩
      obtain ⟨answer, answered⟩ := proceeds after entry resolved succeeded kind
      rw [answered] at failed
      cases failed

theorem Level.setExecutable (level : Level state) (path : BytePath) (base : Option BaseFacts)
    (ino : Nat) (executable : Bool)
    (whole : Whole state weather (.setExecutable path base ino executable))
    : Level
        (state.adoptThen weather path base ino (fun overlay entry =>
          overlay.attemptExecutable (weather.clock 1) entry executable)).2
      ∧ ∀ condition,
          (state.adoptThen weather path base ino (fun overlay entry =>
            overlay.attemptExecutable (weather.clock 1) entry executable)).1 = .error condition
          → Unchanged state
              (state.adoptThen weather path base ino (fun overlay entry =>
                overlay.attemptExecutable (weather.clock 1) entry executable)).2 := by
  refine level.adoptThen path base ino
    (fun overlay entry tidy there => attemptExecutable_keeps tidy there _ _) ?_
  intro after entry resolved succeeded known
  obtain ⟨facts, given, kind⟩ := known
  by_cases settled : alreadyAs executable entry.kind
  · rw [attemptExecutable_already settled]
    exact ⟨entry, rfl⟩
  · rw [attemptExecutable_changes settled]
    rcases whole resolved succeeded with already | again
    · exact absurd (already facts (by simp [Option.mem_def.mp given]) entry.kind (by simp [kind]))
        settled
    · rw [again]
      exact ⟨_, rfl⟩

theorem Level.setTimes (level : Level state) (path : BytePath) (base : Option BaseFacts)
    (ino : Nat) (mtime : Option Timestamp)
    (whole : Whole state weather (.setTimes path base ino mtime))
    : Level
        (state.adoptThen weather path base ino (fun overlay entry =>
          overlay.attemptTimes (weather.clock 1) entry mtime)).2
      ∧ ∀ condition,
          (state.adoptThen weather path base ino (fun overlay entry =>
            overlay.attemptTimes (weather.clock 1) entry mtime)).1 = .error condition
          → Unchanged state
              (state.adoptThen weather path base ino (fun overlay entry =>
                overlay.attemptTimes (weather.clock 1) entry mtime)).2 := by
  refine level.adoptThen path base ino
    (fun overlay entry tidy there => attemptTimes_keeps tidy there _ _) ?_
  intro after entry resolved succeeded _
  rw [whole resolved succeeded]
  exact ⟨_, rfl⟩

-- Rebinding and opening

/-- Binding to a new base leaves the journal level with what is kept. -/
theorem Level.rebind (level : Level state) (carry : Option Carry)
    : Level (state.rebind weather carry).2
      ∧ ∀ condition, (state.rebind weather carry).1 = .error condition
          → Unchanged state (state.rebind weather carry).2 := by
  unfold Durable.rebind
  rcases planKept_cases level.ledger.tidy weather.clock carry with
    ⟨condition, same⟩ | ⟨kept, report, after, same, poised, apart, held⟩
  · rw [same]
    exact ⟨level, fun _ _ => ⟨rfl, rfl, rfl, rfl, rfl⟩⟩
  · rw [same]
    simp only
    split
    · refine ⟨⟨?_, rfl, rfl, rfl, ⟨?_, fun absurd => by cases absurd⟩⟩,
        fun _ failed => by cases failed⟩
      · let cleared : Overlay :=
          { after with entries := ∅, children := ∅, byContent := ∅, localBytes := 0 }
        obtain ⟨tidy, rows⟩ := @Tidy.ofRows cleared kept rfl rfl apart (by
          intro entry member id content
          obtain ⟨holds, leaf⟩ := held entry member id content
          have issued := level.ledger.tidy.bounded _ id holds
          exact ⟨Nat.lt_of_lt_of_le issued poised.nextContentId, leaf⟩)
        refine ⟨tidy.congr ⟨rfl, rfl, Nat.le_refl _⟩, ?_, ?_⟩
        · intro path _
          exact Or.inl (congrArg (fun rows : Rows => rows[path]?) rows).symm
        · intro path id absurd
          cases absurd
      · intro path id holds
        obtain ⟨entry, found, content⟩ := holds
        obtain ⟨member, rfl⟩ := mem_of_written found
        exact level.sealed_.issued _ id
          (level.ledger.holds_iff.mpr (held entry member id content).1)
    · exact ⟨level.poised poised, fun _ _ => poised.unchanged⟩

/-- Opening writes rows and counters only, and no counter goes back. -/
theorem reopen_tables {journal : Journal}
    (spent : journal.vanishedOverflow = true → journal.vanished = ∅)
    (files : ExtTreeMap Nat Bytes compare) (recovery : Recovery)
    : (Durable.reopen journal files recovery).journal.vanished = journal.vanished
      ∧ (Durable.reopen journal files recovery).journal.vanishedOverflow
        = journal.vanishedOverflow
      ∧ (Durable.reopen journal files recovery).journal.rootTimes = journal.rootTimes
      ∧ journal.nextContentId
        ≤ (Durable.reopen journal files recovery).journal.nextContentId := by
  simp only [Durable.reopen]
  split
  · exact ⟨rfl, rfl, rfl, Nat.le_refl _⟩
  · refine ⟨?_, ?_, rfl, Nat.le_max_left _ _⟩
    · simp only [Journal.apply, List.foldl_nil]
      split
      · rename_i overflowed
        exact (spent overflowed).symm
      · rfl
    · simp only [Journal.apply]
      exact Bool.or_self _

/-- Opening an orderly journal leaves it level with memory, whatever the files are. -/
theorem Level.reopen {journal : Journal} (orderly : Orderly journal.rows)
    (sealed_ : journal.Sealed) (files : ExtTreeMap Nat Bytes compare) (recovery : Recovery)
    : Level (Durable.reopen journal files recovery) := by
  have ledger := Ledger.reopen orderly sealed_.issued files recovery
  obtain ⟨-, -, -, times, vanished, overflow, -⟩ := reopen_fields journal files recovery
  obtain ⟨gone, full, touched, counted⟩ := reopen_tables sealed_.spent files recovery
  refine ⟨ledger, gone.trans vanished.symm, full.trans overflow.symm, touched.trans times.symm,
    ⟨?_, ?_⟩⟩
  · intro path id holds
    obtain ⟨row, found, content⟩ := ledger.holds_iff.mp holds
    rcases reopen_row orderly files recovery path
      with ⟨-, missing⟩ | ⟨old, new, there, here, reread⟩
    · rw [missing] at found
      cases found
    · rw [here] at found
      cases found
      obtain ⟨size, mtime, ctime, same⟩ := Reread.identity reread
      rw [same] at content
      exact Nat.lt_of_lt_of_le (sealed_.issued path id ⟨old, there, content⟩) counted
  · rw [gone, full]
    exact sealed_.spent

theorem Level.created (recovery : Recovery) : Level (Durable.created recovery) := by
  refine Level.reopen ⟨?_, ?_, ?_⟩ ⟨?_, ?_⟩ ∅ recovery
  · intro path entry found
    simp [Journal.fresh] at found
  · intro path other id holds
    simp [Journal.fresh, Holds] at holds
  · intro path entry found
    simp [Journal.fresh] at found
  · intro path id holds
    simp [Journal.fresh, Holds] at holds
  · intro overflowed
    cases overflowed

-- Runs

theorem Level.sync (level : Level state) (whole : Whole state weather .sync)
    : Level (state.sync weather).2
      ∧ ((state.sync weather).1 = .ok ()
          → ∀ path : BytePath,
              (state.sync weather).2.journal.rows[path]?
              = (state.sync weather).2.memory.entries[path]?) := by
  obtain ⟨levelled, succeeded, caught⟩ := level.settleAll (weather.journal 0) whole
  unfold Durable.sync
  split
  · rename_i refused
    rw [refused] at succeeded
    cases succeeded
  · rename_i after settled
    rw [settled] at levelled caught
    split
    · exact ⟨levelled, fun _ => caught⟩
    · exact ⟨levelled.poised ⟨⟨⟨rfl, rfl, Nat.le_refl _⟩, rfl⟩, rfl, rfl, rfl, Nat.le_refl _⟩,
        fun _ => caught⟩

private theorem voided {result : Except Condition α × Durable}
    (kept
      : Level result.2
        ∧ ∀ condition, result.1 = .error condition → Unchanged state result.2)
    : Level result.2
      ∧ (result.1.map (fun _ => ()) ≠ .ok () → Unchanged state result.2) := by
  refine ⟨kept.1, fun failed => ?_⟩
  obtain ⟨answer, after⟩ := result
  cases answer with
  | ok answer => exact absurd rfl failed
  | error condition => exact kept.2 condition rfl

private theorem Level.writers (level : Level state)
    (poised : Poised state.memory overlay)
    : Level { state with memory := overlay }
      ∧ ((Except.ok () : Except Condition Unit) ≠ .ok ()
          → Unchanged state { state with memory := overlay }) :=
  ⟨level.poised poised, fun failed => absurd rfl failed⟩

/-- One operation keeps the books level and, when it fails, leaves everything as it was. -/
theorem Level.apply (level : Level state) (mutation : Mutation)
    (whole : Whole state weather mutation) (other : mutation ≠ .sync)
    : Level (state.apply weather mutation).2
      ∧ ((state.apply weather mutation).1 ≠ .ok ()
          → Unchanged state (state.apply weather mutation).2) := by
  have tidy := level.ledger.tidy
  cases mutation with
  | createFile => exact voided (level.perform (attemptCreateFile_keeps tidy ..) _)
  | mkdir => exact voided (level.perform (attemptMkdir_keeps tidy ..) _)
  | symlink => exact voided (level.perform (attemptSymlink_keeps tidy ..) _)
  | materialize => exact voided (level.perform (attemptMaterialize_keeps tidy ..) _)
  | writeAt => exact voided (level.writeAt ..)
  | writeContent => exact voided (level.writeContent ..)
  | refreshContent => exact voided (level.refreshContent _ _ _ _ _ whole)
  | truncate => exact voided (level.perform (attemptTruncate_keeps tidy ..) _)
  | settleContent => exact voided (level.settle ..)
  | adopt => exact voided (level.perform (attemptAdopt_keeps ..) _)
  | setExecutable => exact voided (level.setExecutable _ _ _ _ whole)
  | setTimes => exact voided (level.setTimes _ _ _ _ whole)
  | touchRoot => exact voided (level.perform (attemptTouchRoot_keeps ..) _)
  | referenceBase => exact voided (level.perform (attemptReferenceBase_keeps ..) _)
  | remove => exact voided (level.perform (attemptRemove_keeps tidy ..) _)
  | rename => exact voided (level.perform (attemptRename_keeps tidy ..) _)
  | beginWrite path =>
      refine level.writers ?_
      unfold Overlay.beginWrite
      repeat' split
      all_goals exact ⟨⟨⟨rfl, rfl, Nat.le_refl _⟩, rfl⟩, rfl, rfl, rfl, Nat.le_refl _⟩
  | writerOpened contentId =>
      exact level.writers ⟨⟨⟨rfl, rfl, Nat.le_refl _⟩, rfl⟩, rfl, rfl, rfl, Nat.le_refl _⟩
  | writerClosed contentId =>
      refine level.writers ?_
      unfold Overlay.writerClosed
      split
      all_goals exact ⟨⟨⟨rfl, rfl, Nat.le_refl _⟩, rfl⟩, rfl, rfl, rfl, Nat.le_refl _⟩
  | releaseCopy contentId =>
      refine level.writers ?_
      unfold Overlay.releaseCopy
      split
      all_goals exact ⟨⟨⟨rfl, rfl, Nat.le_refl _⟩, rfl⟩, rfl, rfl, rfl, Nat.le_refl _⟩
  | rebind carry =>
      obtain ⟨levelled, unchanged⟩ := level.rebind carry
      refine ⟨levelled, fun failed => ?_⟩
      cases answer : (state.rebind weather carry).1 with
      | ok => exact absurd answer failed
      | error condition => exact unchanged condition answer
  | sync => exact absurd rfl other

theorem Level.faithful (level : Level state) (mutation : Mutation)
    (whole : Whole state weather mutation)
    : Level (state.apply weather mutation).2
      ∧ Faithful state mutation (state.apply weather mutation) := by
  by_cases syncs : mutation = .sync
  · subst syncs
    obtain ⟨levelled, synced⟩ := level.sync whole
    exact ⟨levelled, ⟨levelled.abreast, fun other => absurd rfl other, fun _ => synced⟩⟩
  · obtain ⟨levelled, unchanged⟩ := level.apply mutation whole syncs
    exact ⟨levelled, ⟨levelled.abreast, fun _ => unchanged, fun same => absurd same syncs⟩⟩

end Steps

/-- The event is an operation whose transactions do not fail half way, or a restart. -/
def Unbroken (state : Durable) : Event → Prop
  | .operation mutation weather => Whole state weather mutation
  | .restart _ => True

/-- In every run, with restarts anywhere, in which no transaction fails half way through its
operation, each operation leaves the journal abreast of memory, leaves both as they were when
it fails, and a sync that succeeds leaves them equal. Other transactions, content I/O and
checkpoints may fail as they will. Witness: levelness as the invariant of the run.
-/
theorem journal_keeps_pace (recovery : Recovery) (earlier later : List Event)
    (mutation : Mutation) (weather : Weather)
    (unbroken
      : Along Durable.next Unbroken (Durable.created recovery)
          (earlier ++ .operation mutation weather :: later))
    : Faithful (earlier.foldl Durable.next (Durable.created recovery)) mutation
        ((earlier.foldl Durable.next (Durable.created recovery)).apply weather mutation) := by
  obtain ⟨before, whole, -⟩ := Along.append.mp unbroken
  have level : Level (earlier.foldl Durable.next (Durable.created recovery)) := by
    refine invariant ?_ (Level.created recovery) before _ (foldl_mem_states _ _ _)
    intro state event level allowed
    cases event with
    | operation mutation weather => exact (level.faithful mutation allowed).1
    | restart recovery =>
        exact Level.reopen level.ledger.orderly level.sealed_ state.memory.files recovery
  exact (level.faithful mutation whole).2

/-- Everything succeeds and the host clock stands at the epoch. -/
def fairWeather : Weather where
  clock := fun _ => ⟨0, 0⟩
  contentIo := true
  journal := fun _ => true
  checkpoint := true

/-- Opened with the base at the epoch, and content files that tell no time. -/
def sampleRecovery : Recovery where
  config := ⟨1024, 16⟩
  snapshotTime := ⟨0, 0⟩
  fileTime := fun _ => none
  clock := fun _ => ⟨0, 0⟩

/-- A file made and written, a directory refused by the journal, and a restart. -/
def sampleEvents : List Event :=
  [.operation (.createFile [102] none ⟨0, none⟩ 0 false) fairWeather,
    .operation (.writeAt [102] 0 [104, 105]) fairWeather,
    .operation (.mkdir [100] none ⟨0, none⟩ 0) { fairWeather with journal := fun _ => false },
    .restart sampleRecovery]

theorem sampleEvents_keep_pace
    : Along Durable.next Unbroken (Durable.created sampleRecovery)
        (sampleEvents ++ [.operation .sync fairWeather])
      ∧ Faithful (sampleEvents.foldl Durable.next (Durable.created sampleRecovery)) .sync
          ((sampleEvents.foldl Durable.next (Durable.created sampleRecovery)).apply fairWeather
            .sync) := by
  have unbroken
      : Along Durable.next Unbroken (Durable.created sampleRecovery)
          (sampleEvents ++ [.operation .sync fairWeather]) :=
    ⟨trivial, trivial, trivial, trivial, Or.inr rfl, trivial⟩
  exact ⟨unbroken, journal_keeps_pace sampleRecovery sampleEvents [] .sync fairWeather unbroken⟩

/-- A file is made and written, and the sync that should commit its row fails in the journal. -/
def failedSync : List Event :=
  [.operation (.createFile [102] none ⟨0, none⟩ 0 false) fairWeather,
    .operation (.writeAt [102] 0 [104, 105]) fairWeather,
    .operation .sync { fairWeather with journal := fun _ => false }]

/-- The sync after a failed one reports success with the written row still not journaled. -/
theorem secondSync_not_faithful
    : ¬ Faithful (failedSync.foldl Durable.next (Durable.created sampleRecovery)) .sync
          ((failedSync.foldl Durable.next (Durable.created sampleRecovery)).apply fairWeather
            .sync) := by
  intro faithful
  have equal := faithful.synced rfl (by decide) [102]
  revert equal
  decide

end Gfs.Overlay
