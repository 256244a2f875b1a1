import Gfs.Overlay.Agreement
import Gfs.Types.Time

/-! Workspace time. The overlay's clock runs ahead of every time it has given to a row and of
the base it was opened on; a re-pin moves the base and not the clock. What keeps time from
running backwards, over runs with restarts and re-pins.
-/

namespace Gfs.Overlay

open Gfs.Types
open Gfs.Lib.Overwrites
open Gfs.Lib.Runs
open Std (ExtTreeMap ExtTreeSet)

-- Pins

/-- An overlay with the snapshot time of the commit it is pinned to. -/
structure Pinned where
  state : Durable
  commitTime : Timestamp

/-- Something that happens, with the snapshot time of the commit a re-pin moves to. -/
structure Occurrence where
  event : Event
  commitTime : Timestamp

/-- Only a re-pin that succeeds moves the pin, and a restart opens the overlay on it. -/
def Pinned.next (pinned : Pinned) (occurrence : Occurrence) : Pinned :=
  match occurrence.event with
  | .operation (.rebind carry) weather =>
      match pinned.state.apply weather (.rebind carry) with
      | (.ok (), state) => ⟨state, occurrence.commitTime⟩
      | (.error _, state) => ⟨state, pinned.commitTime⟩
  | .operation mutation weather => ⟨(pinned.state.apply weather mutation).2, pinned.commitTime⟩
  | .restart recovery =>
      ⟨pinned.state.next (.restart { recovery with snapshotTime := pinned.commitTime }),
        pinned.commitTime⟩

def Pinned.created (recovery : Recovery) : Pinned where
  state := Durable.created recovery
  commitTime := recovery.snapshotTime

-- What is promised

/-- A re-pin and a swap of content change rows without touching their times. -/
def Mutation.keepsTimes : Mutation → Bool
  | .rebind _ | .referenceBase .. => true
  | _ => false

/-- The mutation gave this row its ctime. -/
def Stamps (mutation : Mutation) (before after : Rows) (path : BytePath)
    (entry : OverlayEntry)
    : Prop :=
  after[path]? = some entry
  ∧ before[path]? ≠ some entry
  ∧ (mutation.keepsTimes = true → before[path]? = none)

/-- Every ctime the mutation gives is later than all there was before and than the base. -/
structure Advances (commitTime : Timestamp) (mutation : Mutation) (before after : Rows)
    : Prop where
  rows
    : ∀ (path other : BytePath) (entry old : OverlayEntry),
        Stamps mutation before after path entry → before[other]? = some old
        → old.mtime < entry.ctime ∧ old.ctime < entry.ctime
  base
    : ∀ (path : BytePath) (entry : OverlayEntry),
        Stamps mutation before after path entry → commitTime < entry.ctime

/-- No mtime is below the base's time plus one tick. -/
structure Floored (commitTime : Timestamp) (overlay : Overlay) : Prop where
  rows
    : ∀ (path : BytePath) (entry : OverlayEntry),
        overlay.entries[path]? = some entry → commitTime.nextTick ≤ entry.mtime
  root : ∀ times ∈ overlay.rootTimes, commitTime.nextTick ≤ times.1

-- When it holds

/-- Reading the clock gives a time after the base: the clock has a tick left, and the host
clock, the overlay's own floor or the clock is past the base.
-/
def Prompt (commitTime : Timestamp) (overlay : Overlay) (host : Timestamp) : Prop :=
  overlay.clock.Steady
  ∧ (commitTime.nextTick ≤ host
    ∨ commitTime.nextTick ≤ overlay.snapshotTime.nextTick
    ∨ commitTime.nextTick ≤ overlay.clock.nextTick)

/-- Two readings, or the second alone. -/
def PromptTwice (commitTime : Timestamp) (overlay : Overlay) (weather : Weather) : Prop :=
  Prompt commitTime overlay (weather.clock 0)
  ∧ Prompt commitTime overlay (weather.clock 1)
  ∧ (overlay.nextTime (weather.clock 0)).2.clock.Steady

/-- The time is not ahead of the reading it comes with. -/
def NotAhead (overlay : Overlay) (host time : Timestamp) : Prop :=
  time ≤ host ∨ time ≤ overlay.snapshotTime.nextTick ∨ time ≤ overlay.clock.nextTick

/-- A requested time that, clamped to the overlay's floor, is past the base and not ahead. -/
def Seasonable (commitTime : Timestamp) (overlay : Overlay) (host : Timestamp)
    (requested : Option Timestamp)
    : Prop :=
  ∀ time ∈ requested,
    (commitTime.nextTick ≤ overlay.snapshotTime.nextTick ∨ commitTime.nextTick ≤ time)
    ∧ NotAhead overlay host time

/-- Every reading for a made directory is past the new base. -/
def PromptMade (commitTime : Timestamp) (clock : Nat → Timestamp)
    : Overlay → List (BytePath × Nat) → Prop
  | _, [] => True
  | overlay, (_, ino) :: rest =>
      Prompt commitTime overlay (clock rest.length)
      ∧ PromptMade commitTime clock
          ((overlay.adoptIno ino).2.nextTime (clock rest.length)).2 rest

/-- Rows a re-pin keeps are already past the new base, and so is the root if it is kept. -/
def CarriesLater (commitTime : Timestamp) (overlay : Overlay) (clock : Nat → Timestamp)
    (carry : Carry)
    : Prop :=
  (∀ row ∈ carry.rows, ∀ entry ∈ overlay.entries[row.path]?.toList,
      commitTime.nextTick ≤ entry.mtime)
  ∧ (∀ times ∈ overlay.rootTimes,
      (carry.rows = [] ∧ carry.directories = []) ∨ commitTime.nextTick ≤ times.1)
  ∧ PromptMade commitTime clock overlay carry.directories

/-- No content file was changed after the reading its row is corrected with. -/
def ReadsBack (recovery : Recovery) (files : ExtTreeMap Nat Bytes compare)
    : Timestamp → List OverlayEntry → Prop
  | _, [] => True
  | clock, entry :: rest =>
      match recovery.correction files clock (recovery.clock rest.length) entry with
      | none => ReadsBack recovery files clock rest
      | some corrected =>
          clock.Steady
          ∧ (∀ id ∈ entry.content.localId, ∀ time ∈ recovery.fileTime id,
              time ≤ recovery.clock rest.length)
          ∧ ReadsBack recovery files corrected.ctime rest

/-- What an occurrence must meet for time to go on. -/
def Timely (pinned : Pinned) (occurrence : Occurrence) : Prop :=
  let overlay := pinned.state.memory
  let commitTime := pinned.commitTime
  match occurrence.event with
  | .operation mutation weather =>
      match mutation with
      | .createFile .. | .mkdir .. | .symlink .. | .materialize .. | .writeAt ..
      | .writeContent .. | .truncate .. | .adopt .. | .rename .. =>
          Prompt commitTime overlay (weather.clock 0)
      | .remove .. | .setExecutable .. => PromptTwice commitTime overlay weather
      | .setTimes _ _ _ mtime =>
          PromptTwice commitTime overlay weather
          ∧ Seasonable commitTime overlay (weather.clock 1) mtime
      | .touchRoot mtime =>
          Prompt commitTime overlay (weather.clock 0)
          ∧ Seasonable commitTime overlay (weather.clock 0) mtime
      | .refreshContent contentId size mtime =>
          ∀ entry
              ∈ overlay.byContent[contentId]?.bind (fun path => overlay.entries[path]?),
            (entry.size = size ∧ entry.mtime = mtime)
            ∨ (Prompt commitTime overlay (weather.clock 0)
              ∧ commitTime.nextTick ≤ mtime
              ∧ NotAhead overlay (weather.clock 0) mtime)
      | .rebind carry =>
          occurrence.commitTime.Steady
          ∧ ∀ kept ∈ carry,
              CarriesLater occurrence.commitTime overlay weather.clock kept
      | .settleContent _ | .referenceBase .. | .beginWrite _ | .writerOpened _
      | .writerClosed _ | .releaseCopy _ | .sync => True
  | .restart recovery =>
      let recovery := { recovery with snapshotTime := commitTime }
      let journal := pinned.state.journal
      let loaded := journal.rows.toList.map Prod.snd
      let referenced := loaded.filterMap (·.content.localId)
      ReadsBack recovery
        (pinned.state.memory.files.filter (fun id _ => referenced.contains id))
        (recovery.seed journal) loaded

-- Readings

section Readings

variable {commitTime host : Timestamp} {overlay : Overlay}

/-- The time was given between the two, and is past the base. -/
structure Fresh (commitTime : Timestamp) (before after : Overlay) (time : Timestamp)
    : Prop where
  after_ : before.clock < time
  reached : time ≤ after.clock
  floored : commitTime.nextTick ≤ time

theorem Prompt.fresh (prompt : Prompt commitTime overlay host)
    : Fresh commitTime overlay (overlay.nextTime host).2 (overlay.nextTime host).1 := by
  refine ⟨lt_overlayTime host overlay.snapshotTime prompt.1, le_refl _, ?_⟩
  rcases prompt.2 with early | early | early
  · exact early.trans (host_le_overlayTime ..)
  · exact early.trans (floor_le_overlayTime ..)
  · exact early.trans (nextTick_le_overlayTime ..)

theorem Prompt.clock_le (prompt : Prompt commitTime overlay host)
    : overlay.clock ≤ (overlay.nextTime host).2.clock :=
  (prompt.fresh.after_).le

theorem NotAhead.reached {time : Timestamp} (notAhead : NotAhead overlay host time)
    : time ≤ (overlay.nextTime host).1 := by
  rcases notAhead with early | early | early
  · exact early.trans (host_le_overlayTime ..)
  · exact early.trans (floor_le_overlayTime ..)
  · exact early.trans (nextTick_le_overlayTime ..)

theorem PromptTwice.second {weather : Weather} (prompt : PromptTwice commitTime overlay weather)
    : Prompt commitTime (overlay.nextTime (weather.clock 0)).2 (weather.clock 1) := by
  refine ⟨prompt.2.2, Or.inr (Or.inr ?_)⟩
  exact prompt.1.fresh.floored.trans (Timestamp.lt_nextTick prompt.2.2).le

end Readings

-- Transactions in time

/-- A row with a fresh ctime and an mtime past the base and not ahead of the clock. -/
structure Fitted (commitTime : Timestamp) (before after : Overlay) (entry : OverlayEntry)
    : Prop where
  ctime : Fresh commitTime before after entry.ctime
  floored : commitTime.nextTick ≤ entry.mtime
  reached : entry.mtime ≤ after.clock

/-- The operation has moved nothing but the clock, and that forward. -/
structure Waits (before after : Overlay) : Prop where
  entries : after.entries = before.entries
  rootTimes : after.rootTimes = before.rootTimes
  clock : before.clock ≤ after.clock

/-- The row stands where one with its times stood before, itself unless times may be kept. -/
def Retains (keeps : Bool) (before : Overlay) (entry : OverlayEntry) : Prop :=
  ∃ old,
    before.entries[entry.path]? = some old
    ∧ entry.mtime = old.mtime
    ∧ entry.ctime = old.ctime
    ∧ (keeps = false → entry = old)

/-- Rows are put with fresh times or over rows with theirs. -/
structure Transaction.Dated (keeps : Bool) (commitTime : Timestamp) (before : Overlay)
    (transaction : Transaction)
    : Prop where
  waits : Waits before transaction.prepared
  puts
    : ∀ entry, Change.put entry ∈ transaction.changes
        → Fitted commitTime before transaction.prepared entry ∨ Retains keeps before entry
  root : ∀ times ∈ transaction.rootTimes, commitTime.nextTick ≤ times.1

def Attempt.Dated {α : Type} (keeps : Bool) (commitTime : Timestamp) (before : Overlay)
    : Attempt α → Prop
  | .refused _ after | .done _ after => Waits before after
  | .writes _ transaction => transaction.Dated keeps commitTime before

/-- Time as it stands: rows are past the base and not ahead of the clock, in memory and, as
far as the base goes, in the journal.
-/
structure Punctual (pinned : Pinned) : Prop where
  steady : pinned.commitTime.Steady
  keyed
    : ∀ (path : BytePath) (entry : OverlayEntry),
        pinned.state.memory.entries[path]? = some entry → entry.path = path
  floored : Floored pinned.commitTime pinned.state.memory
  reached
    : ∀ (path : BytePath) (entry : OverlayEntry),
        pinned.state.memory.entries[path]? = some entry
        → entry.mtime ≤ pinned.state.memory.clock ∧ entry.ctime ≤ pinned.state.memory.clock
  journaled
    : ∀ (path : BytePath) (entry : OverlayEntry),
        pinned.state.journal.rows[path]? = some entry
        → pinned.commitTime.nextTick ≤ entry.mtime
  journaledRoot
    : ∀ times ∈ pinned.state.journal.rootTimes, pinned.commitTime.nextTick ≤ times.1

/-- Every row that changed, or where times may be kept every new row, has a fresh ctime. -/
structure Moved (keeps : Bool) (commitTime : Timestamp) (before after : Overlay) : Prop where
  clock : before.clock ≤ after.clock
  rows
    : ∀ (path : BytePath) (entry : OverlayEntry),
        after.entries[path]? = some entry → before.entries[path]? ≠ some entry
        → (keeps = true → before.entries[path]? = none)
        → Fresh commitTime before after entry.ctime

section Transactions

variable {commitTime : Timestamp} {state : Durable} {overlay before after : Overlay} {α : Type}

theorem Waits.refl (overlay : Overlay) : Waits overlay overlay :=
  ⟨rfl, rfl, le_refl _⟩

theorem Waits.trans {middle : Overlay} (first : Waits before middle)
    (second : Waits middle after)
    : Waits before after :=
  ⟨second.entries.trans first.entries, second.rootTimes.trans first.rootTimes,
    first.clock.trans second.clock⟩

theorem Waits.moved {keeps : Bool} (waits : Waits before after)
    : Moved keeps commitTime before after := by
  refine ⟨waits.clock, fun path entry found changed => ?_⟩
  rw [waits.entries] at found
  exact absurd found changed

theorem Moved.trans {middle : Overlay} (first : Moved false commitTime before middle)
    (second : Moved false commitTime middle after)
    : Moved false commitTime before after := by
  refine ⟨first.clock.trans second.clock, fun path entry found changed _ => ?_⟩
  by_cases kept : middle.entries[path]? = some entry
  · have fresh := first.rows path entry kept changed (fun absurd => by cases absurd)
    exact ⟨fresh.after_, fresh.reached.trans second.clock, fresh.floored⟩
  · have fresh := second.rows path entry found kept (fun absurd => by cases absurd)
    exact ⟨first.clock.trans_lt fresh.after_, fresh.reached, fresh.floored⟩

theorem Punctual.waits (punctual : Punctual ⟨state, commitTime⟩)
    (waits : Waits state.memory after)
    : Punctual ⟨{ state with memory := after }, commitTime⟩ where
  steady := punctual.steady
  keyed := by rw [waits.entries]; exact punctual.keyed
  floored :=
    ⟨by rw [waits.entries]; exact punctual.floored.rows,
      by rw [waits.rootTimes]; exact punctual.floored.root⟩
  reached := by
    intro path entry found
    rw [waits.entries] at found
    obtain ⟨mtime, ctime⟩ := punctual.reached path entry found
    exact ⟨mtime.trans waits.clock, ctime.trans waits.clock⟩
  journaled := punctual.journaled
  journaledRoot := punctual.journaledRoot

theorem committed_clock (transaction : Transaction)
    : transaction.committed.clock = transaction.prepared.clock := by
  have all (changes : List Change) (overlay : Overlay)
      : (changes.foldl (Overlay.applyChange transaction.stamp) overlay).clock
        = overlay.clock := by
    induction changes generalizing overlay with
    | nil => rfl
    | cons change changes ih => exact (ih _).trans (by cases change <;> rfl)
  exact all transaction.changes transaction.begun

/-- A dated transaction keeps time going, and gives fresh times to what it changes. -/
theorem Punctual.committed {keeps : Bool} {transaction : Transaction}
    (punctual : Punctual ⟨state, commitTime⟩)
    (dated : transaction.Dated keeps commitTime state.memory)
    : Punctual ⟨⟨transaction.committed, transaction.journaled state.journal⟩, commitTime⟩
      ∧ Moved keeps commitTime state.memory transaction.committed := by
  have clock := committed_clock transaction
  have later := dated.waits.clock
  have rows : transaction.committed.entries
      = overwrite state.memory.entries (transaction.changes.map Change.write) := by
    rw [← dated.waits.entries]
    exact Overlay.commitWith_entries ..
  have floored {entry : OverlayEntry} (put : Change.put entry ∈ transaction.changes)
      : commitTime.nextTick ≤ entry.mtime := by
    rcases dated.puts entry put with fitted | ⟨old, found, mtime, -⟩
    · exact fitted.floored
    · rw [mtime]
      exact punctual.floored.rows _ old found
  have root : ∀ times ∈ transaction.committed.rootTimes, commitTime.nextTick ≤ times.1 := by
    intro times member
    have touched : transaction.committed.rootTimes
        = transaction.rootTimes.or state.memory.rootTimes := by
      rw [← dated.waits.rootTimes]
      exact (applyChanges_vanished transaction.stamp transaction.changes transaction.begun).2.2
    rw [touched, Option.mem_def, Option.or_eq_some_iff] at member
    rcases member with new | ⟨-, old⟩
    · exact dated.root times new
    · exact punctual.floored.root times old
  refine ⟨⟨punctual.steady, ?_, ⟨?_, root⟩, ?_, ?_, ?_⟩, ⟨clock.symm ▸ later, ?_⟩⟩
  · intro path entry found
    rw [rows] at found
    rcases overwrite_cases found with ⟨-, own⟩ | ⟨old, -⟩
    · exact own
    · exact punctual.keyed path entry old
  · intro path entry found
    rw [rows] at found
    rcases overwrite_cases found with ⟨put, -⟩ | ⟨old, -⟩
    · exact floored put
    · exact punctual.floored.rows path entry old
  · intro path entry found
    rw [clock]
    rw [rows] at found
    rcases overwrite_cases found with ⟨put, -⟩ | ⟨old, -⟩
    · rcases dated.puts entry put with fitted | ⟨old, there, mtime, ctime, -⟩
      · exact ⟨fitted.reached, fitted.ctime.reached⟩
      · rw [mtime, ctime]
        exact (punctual.reached _ old there).imp (·.trans later) (·.trans later)
    · exact (punctual.reached path entry old).imp (·.trans later) (·.trans later)
  · intro path entry found
    rcases overwrite_cases found with ⟨put, -⟩ | ⟨old, -⟩
    · exact floored put
    · exact punctual.journaled path entry old
  · intro times member
    have touched : (transaction.journaled state.journal).rootTimes
        = transaction.rootTimes.or state.journal.rootTimes := rfl
    rw [touched, Option.mem_def, Option.or_eq_some_iff] at member
    rcases member with new | ⟨-, old⟩
    · exact dated.root times new
    · exact punctual.journaledRoot times old
  · intro path entry found changed new
    rw [rows] at found
    rcases overwrite_cases found with ⟨put, rfl⟩ | ⟨old, -⟩
    · rcases dated.puts entry put with fitted | ⟨old, there, -, -, same⟩
      · exact ⟨fitted.ctime.after_, clock.symm ▸ fitted.ctime.reached, fitted.ctime.floored⟩
      · cases keeps with
        | true =>
            rw [new rfl] at there
            cases there
        | false => exact absurd (same rfl ▸ there) changed
    · exact absurd old changed

theorem Punctual.perform {keeps : Bool} (punctual : Punctual ⟨state, commitTime⟩)
    {attempt : Attempt α} (dated : attempt.Dated keeps commitTime state.memory)
    (succeeds : Bool)
    : Punctual ⟨(state.perform attempt succeeds).2, commitTime⟩
      ∧ Moved keeps commitTime state.memory (state.perform attempt succeeds).2.memory := by
  cases attempt with
  | refused condition after => exact ⟨punctual.waits dated, dated.moved⟩
  | done answer after => exact ⟨punctual.waits dated, dated.moved⟩
  | writes answer transaction =>
      cases succeeds with
      | true => exact punctual.committed dated
      | false =>
          have waits : Waits state.memory transaction.failed :=
            dated.waits.trans ⟨rfl, rfl, le_refl _⟩
          exact ⟨punctual.waits waits, waits.moved⟩

end Transactions

-----------------------------------------------------------------------------------------
-- Each operation in time
-----------------------------------------------------------------------------------------

section Operations

variable {commitTime : Timestamp} {overlay before : Overlay}

theorem parentTouch_times (path : BytePath) (parent : Parent) (now : Timestamp)
    : Waits overlay (overlay.parentTouch path parent now).2
      ∧ (overlay.parentTouch path parent now).2.clock = overlay.clock
      ∧ ∀ entry, (overlay.parentTouch path parent now).1 = .row entry
          → entry.mtime = now ∧ entry.ctime = now := by
  unfold Overlay.parentTouch
  simp only
  repeat' split
  all_goals refine ⟨⟨rfl, rfl, le_refl _⟩, rfl, fun entry same => ?_⟩
  all_goals cases same
  all_goals exact ⟨rfl, rfl⟩

theorem mem_pushTouch_times {touch : ParentTouch} {changes : List Change} {now : Timestamp}
    {rootTimes : Option (Timestamp × Timestamp)}
    (times : ∀ entry, touch = .row entry → entry.mtime = now ∧ entry.ctime = now)
    : (∀ entry, Change.put entry ∈ (Overlay.pushTouch touch changes rootTimes now).1
        → Change.put entry ∈ changes ∨ (entry.mtime = now ∧ entry.ctime = now))
      ∧ ∀ times ∈ (Overlay.pushTouch touch changes rootTimes now).2,
          times.1 = now ∨ times ∈ rootTimes := by
  cases touch with
  | root =>
      refine ⟨fun entry member => Or.inl member, fun times member => Or.inl ?_⟩
      cases member
      rfl
  | row row =>
      refine ⟨fun entry member => ?_, fun times member => Or.inr member⟩
      rcases List.mem_append.mp member with old | new
      · exact Or.inl old
      · cases List.mem_singleton.mp new
        exact Or.inr (times row rfl)
  | nothing => exact ⟨fun entry member => Or.inl member, fun times member => Or.inr member⟩

variable {now host : Timestamp} {entry : OverlayEntry}

theorem Fresh.fitted (fresh : Fresh commitTime before overlay now) (mtime : entry.mtime = now)
    (ctime : entry.ctime = now)
    : Fitted commitTime before overlay entry := by
  subst ctime
  exact ⟨fresh, mtime ▸ fresh.floored, mtime ▸ fresh.reached⟩

theorem Dated.touching {path : BytePath} {parent : Parent} {changes : List Change}
    {release : List Nat} (waits : Waits before overlay)
    (fresh : Fresh commitTime before overlay now)
    (puts : ∀ entry, Change.put entry ∈ changes → Fitted commitTime before overlay entry)
    : (overlay.transactionTouching path parent changes release now).Dated false commitTime
        before := by
  obtain ⟨touched, clock, times⟩ := @parentTouch_times overlay path parent now
  obtain ⟨pushed, root⟩ := @mem_pushTouch_times _ changes now none times
  have further {time : Timestamp} (given : Fresh commitTime before overlay time)
      : Fresh commitTime before (overlay.parentTouch path parent now).2 time :=
    ⟨given.after_, clock.symm ▸ given.reached, given.floored⟩
  refine ⟨waits.trans touched, fun entry member => Or.inl ?_, fun times member => ?_⟩
  · rcases pushed entry member with old | ⟨mtime, ctime⟩
    · have fitted := puts entry old
      exact ⟨further fitted.ctime, fitted.floored, clock.symm ▸ fitted.reached⟩
    · exact (further fresh).fitted mtime ctime
  · rcases root times member with same | absurd
    · rw [same]
      exact fresh.floored
    · cases absurd

theorem Dated.single (waits : Waits before overlay)
    (fitted : Fitted commitTime before overlay entry)
    : (overlay.transaction [.put entry] [] none).Dated false commitTime before := by
  refine ⟨waits, fun row member => Or.inl ?_, fun _ absurd => by cases absurd⟩
  cases List.mem_singleton.mp member
  exact fitted

section Single

variable {host : Timestamp} (prompt : Prompt commitTime overlay host)

include prompt

theorem attemptCreateFile_dated (contentIo : Bool) (path : BytePath)
    (base : Option BaseFacts) (parent : Parent) (ino : Nat) (executable : Bool)
    : (overlay.attemptCreateFile contentIo host path base parent ino executable).Dated
        false commitTime overlay := by
  unfold Overlay.attemptCreateFile
  split
  · exact .refl overlay
  · simp only
    split
    · exact ⟨rfl, rfl, le_refl _⟩
    · have fresh := prompt.fresh
      refine Dated.touching ⟨rfl, rfl, prompt.clock_le⟩ ⟨fresh.1, fresh.2, fresh.3⟩ ?_
      intro entry member
      cases List.mem_singleton.mp member
      exact Fresh.fitted ⟨fresh.1, fresh.2, fresh.3⟩ rfl rfl

theorem attemptMkdir_dated (path : BytePath) (base : Option BaseFacts) (parent : Parent)
    (ino : Nat)
    : (overlay.attemptMkdir host path base parent ino).Dated false commitTime overlay := by
  unfold Overlay.attemptMkdir
  split
  · exact .refl overlay
  · have fresh := prompt.fresh
    refine Dated.touching ⟨rfl, rfl, prompt.clock_le⟩ ⟨fresh.1, fresh.2, fresh.3⟩ ?_
    intro entry member
    cases List.mem_singleton.mp member
    exact Fresh.fitted ⟨fresh.1, fresh.2, fresh.3⟩ rfl rfl

theorem attemptSymlink_dated (path : BytePath) (target : Bytes) (base : Option BaseFacts)
    (parent : Parent) (ino : Nat)
    : (overlay.attemptSymlink host path target base parent ino).Dated false commitTime overlay := by
  unfold Overlay.attemptSymlink
  split
  · exact .refl overlay
  · have fresh := prompt.fresh
    refine Dated.touching ⟨rfl, rfl, prompt.clock_le⟩ ⟨fresh.1, fresh.2, fresh.3⟩ ?_
    intro entry member
    cases List.mem_singleton.mp member
    exact Fresh.fitted ⟨fresh.1, fresh.2, fresh.3⟩ rfl rfl

theorem attemptMaterialize_dated (contentIo : Bool) (path : BytePath)
    (base : Option BaseFacts) (ino : Nat) (source : Option Bytes)
    : (overlay.attemptMaterialize contentIo host path base ino source).Dated false commitTime
        overlay := by
  unfold Overlay.attemptMaterialize
  split
  · exact .refl overlay
  · exact .refl overlay
  · simp only
    split
    · exact ⟨rfl, rfl, le_refl _⟩
    · split
      · exact ⟨rfl, rfl, le_refl _⟩
      · have fresh := prompt.fresh
        exact Dated.single ⟨rfl, rfl, prompt.clock_le⟩
          (Fresh.fitted ⟨fresh.1, fresh.2, fresh.3⟩ rfl rfl)

theorem attemptTruncate_dated (contentIo : Bool) (path : BytePath) (size : Nat)
    : (overlay.attemptTruncate contentIo host path size).Dated false commitTime overlay := by
  unfold Overlay.attemptTruncate
  repeat' split
  all_goals try exact .refl overlay
  have fresh := prompt.fresh
  exact Dated.single ⟨rfl, rfl, prompt.clock_le⟩
    (Fresh.fitted ⟨fresh.1, fresh.2, fresh.3⟩ rfl rfl)

theorem attemptAdopt_dated (path : BytePath) (base : Option BaseFacts) (ino : Nat)
    : (overlay.attemptAdopt host path base ino).Dated false commitTime overlay := by
  unfold Overlay.attemptAdopt
  split
  · exact .refl overlay
  · split
    · exact .refl overlay
    · split
      · exact .refl overlay
      · exact .refl overlay
      · split
        · exact .refl overlay
        · split
          · exact .refl overlay
          · exact Dated.single ⟨rfl, rfl, prompt.clock_le⟩
              (Fresh.fitted prompt.fresh rfl rfl)

end Single

theorem attemptExecutable_dated (prompt : Prompt commitTime overlay host)
    (floored : commitTime.nextTick ≤ entry.mtime) (reached : entry.mtime ≤ overlay.clock)
    (executable : Bool)
    : (overlay.attemptExecutable host entry executable).Dated false commitTime overlay := by
  by_cases settled : alreadyAs executable entry.kind
  · rw [attemptExecutable_already settled]
    exact .refl overlay
  · rw [attemptExecutable_changes settled]
    exact Dated.single ⟨rfl, rfl, prompt.clock_le⟩
      ⟨prompt.fresh, floored, reached.trans prompt.clock_le⟩

theorem Seasonable.clamped {requested : Option Timestamp} (prompt : Prompt commitTime overlay host)
    (seasonable : Seasonable commitTime overlay host requested)
    : commitTime.nextTick
        ≤ (requested.map (clampRequestedOverlayTime · overlay.snapshotTime)).getD
            (overlay.nextTime host).1
      ∧ (requested.map (clampRequestedOverlayTime · overlay.snapshotTime)).getD
            (overlay.nextTime host).1
          ≤ (overlay.nextTime host).1 := by
  cases requested with
  | none => exact ⟨prompt.fresh.floored, le_refl _⟩
  | some time =>
      obtain ⟨past, notAhead⟩ := seasonable time rfl
      simp only [Option.map_some, Option.getD_some, clampRequestedOverlayTime,
        Timestamp.max_eq]
      refine ⟨?_, max_le notAhead.reached (floor_le_overlayTime ..)⟩
      rcases past with floor | request
      · exact le_max_of_le_right floor
      · exact le_max_of_le_left request

theorem attemptTimes_dated (prompt : Prompt commitTime overlay host) {mtime : Option Timestamp}
    (seasonable : Seasonable commitTime overlay host mtime)
    : (overlay.attemptTimes host entry mtime).Dated false commitTime overlay := by
  obtain ⟨floored, reached⟩ := seasonable.clamped prompt
  exact Dated.single ⟨rfl, rfl, prompt.clock_le⟩ ⟨prompt.fresh, floored, reached⟩

theorem attemptTouchRoot_dated (prompt : Prompt commitTime overlay host) {mtime : Option Timestamp}
    (seasonable : Seasonable commitTime overlay host mtime)
    : (overlay.attemptTouchRoot host mtime).Dated false commitTime overlay := by
  refine ⟨⟨rfl, rfl, prompt.clock_le⟩, fun _ absurd => (by cases absurd), fun times member => ?_⟩
  cases member
  exact (seasonable.clamped prompt).1

theorem attemptSettle_dated (contentId : Nat)
    (keyed
      : ∀ entry,
          overlay.byContent[contentId]?.bind (fun path => overlay.entries[path]?) = some entry
          → overlay.entries[entry.path]? = some entry)
    : (overlay.attemptSettle contentId).Dated false commitTime overlay := by
  unfold Overlay.attemptSettle
  split
  · exact ⟨rfl, rfl, le_refl _⟩
  · rename_i entry found
    split
    · refine ⟨.refl overlay, fun row member => Or.inr ?_, fun _ absurd => by cases absurd⟩
      cases List.mem_singleton.mp member
      exact ⟨entry, keyed entry found, rfl, rfl, fun _ => rfl⟩
    · exact .refl overlay

theorem attemptSettleAll_dated
    (keyed
      : ∀ (path : BytePath) (entry : OverlayEntry),
          overlay.entries[path]? = some entry → entry.path = path)
    : overlay.attemptSettleAll.Dated false commitTime overlay := by
  unfold Overlay.attemptSettleAll
  split
  · exact .refl overlay
  · simp only
    split
    · exact ⟨rfl, rfl, le_refl _⟩
    · refine ⟨⟨rfl, rfl, le_refl _⟩, fun row member => Or.inr ?_, fun _ absurd => by cases absurd⟩
      obtain ⟨entry, listed, same⟩ := List.mem_map.mp member
      cases same
      obtain ⟨id, -, found⟩ := List.mem_filterMap.mp listed
      obtain ⟨path, -, there⟩ := Option.bind_eq_some_iff.mp found
      refine ⟨row, ?_, rfl, rfl, fun _ => rfl⟩
      rw [keyed path row there]
      exact there

theorem attemptReferenceBase_dated
    (keyed
      : ∀ (path : BytePath) (entry : OverlayEntry),
          overlay.entries[path]? = some entry → entry.path = path)
    (contentId : Nat) (hashed : OverlayEntry) (oid : ObjectId)
    : (overlay.attemptReferenceBase contentId hashed oid).Dated true commitTime overlay := by
  unfold Overlay.attemptReferenceBase
  split
  · exact .refl overlay
  · rename_i entry found
    split
    · refine ⟨.refl overlay, fun row member => Or.inr ?_, fun _ absurd => by cases absurd⟩
      cases List.mem_singleton.mp member
      refine ⟨entry, ?_, rfl, rfl, fun absurd => by cases absurd⟩
      rw [keyed hashed.path entry found]
      exact found
    · exact .refl overlay

theorem departure_times {row : Option OverlayEntry} {path : BytePath} {base : Option BaseFacts}
    (left : Overlay.departure row path base now = .put entry)
    : entry.mtime = now ∧ entry.ctime = now := by
  unfold Overlay.departure at left
  split at left
  · cases left
    exact ⟨rfl, rfl⟩
  · cases left

theorem attemptRemove_dated {weather : Weather}
    (prompt : PromptTwice commitTime overlay weather) (path : BytePath)
    (base : Option BaseFacts) (parent : Parent) (expectDir mergedIsEmpty : Bool)
    : (overlay.attemptRemove (weather.clock 0) (weather.clock 1) path base parent expectDir
        mergedIsEmpty).Dated false commitTime overlay := by
  unfold Overlay.attemptRemove
  split
  · exact .refl overlay
  · split
    · exact .refl overlay
    · split
      · exact .refl overlay
      · split
        · exact .refl overlay
        · split
          · exact .refl overlay
          · simp only
            generalize hides : ((overlay.entries[path]?.bind OverlayEntry.base).or base).isSome
              = hidden
            cases hidden with
            | true =>
                have first := prompt.1.fresh
                have second := prompt.second.fresh
                have later := prompt.second.clock_le
                refine Dated.touching ⟨rfl, rfl, prompt.1.clock_le.trans later⟩
                  ⟨first.after_.trans second.after_, second.reached, second.floored⟩ ?_
                intro entry member
                rcases List.mem_append.mp member with deleted | last
                · obtain ⟨victim, -, same⟩ := List.mem_map.mp deleted
                  cases same
                · obtain ⟨mtime, ctime⟩ := departure_times (List.mem_singleton.mp last).symm
                  exact Fresh.fitted ⟨first.after_, first.reached.trans later, first.floored⟩
                    mtime ctime
            | false =>
                refine Dated.touching ⟨rfl, rfl, prompt.1.clock_le⟩ prompt.1.fresh ?_
                intro entry member
                rcases List.mem_append.mp member with deleted | last
                · obtain ⟨victim, -, same⟩ := List.mem_map.mp deleted
                  cases same
                · -- Nothing is hidden, so nothing is put.
                  rw [List.mem_singleton, Overlay.departure] at last
                  rw [Option.isSome_eq_false_iff, Option.isNone_iff_eq_none] at hides
                  rw [hides] at last
                  cases last

/-- Changes dated `now`, with the touches of both parents. -/
theorem Dated.renaming {source target : BytePath} {sourceParent targetParent : Parent}
    {changes : List Change} {release : List Nat} (waits : Waits before overlay)
    (fresh : Fresh commitTime before overlay now)
    (puts : ∀ entry, Change.put entry ∈ changes → Fitted commitTime before overlay entry)
    : (overlay.transactionRename source target sourceParent targetParent changes release
        now).Dated false commitTime before := by
  obtain ⟨touched, clock, times⟩ := @parentTouch_times overlay source sourceParent now
  obtain ⟨pushed, root⟩ := @mem_pushTouch_times _ changes now none times
  have fitted {after : Overlay} (same : after.clock = overlay.clock) {entry : OverlayEntry}
      (given : Fitted commitTime before overlay entry ∨ (entry.mtime = now ∧ entry.ctime = now))
      : Fitted commitTime before after entry := by
    rcases given with fitted | ⟨mtime, ctime⟩
    · exact ⟨⟨fitted.ctime.after_, same.symm ▸ fitted.ctime.reached, fitted.ctime.floored⟩,
        fitted.floored, same.symm ▸ fitted.reached⟩
    · exact Fresh.fitted ⟨fresh.after_, same.symm ▸ fresh.reached, fresh.floored⟩ mtime ctime
  simp only [Overlay.transactionRename]
  split
  · refine ⟨waits.trans touched, fun entry member => Or.inl ?_, fun times member => ?_⟩
    · exact fitted clock ((pushed entry member).imp_left (puts entry))
    · rcases root times member with same | absurd
      · exact same ▸ fresh.floored
      · cases absurd
  · obtain ⟨touchedToo, clockToo, timesToo⟩ :=
      @parentTouch_times (overlay.parentTouch source sourceParent now).2 target targetParent now
    obtain ⟨pushedToo, rootToo⟩ := @mem_pushTouch_times _
      (Overlay.pushTouch (overlay.parentTouch source sourceParent now).1 changes none now).1 now
      (Overlay.pushTouch (overlay.parentTouch source sourceParent now).1 changes none now).2
      timesToo
    refine ⟨(waits.trans touched).trans touchedToo, fun entry member => Or.inl ?_,
      fun times member => ?_⟩
    · refine fitted (clockToo.trans clock) ?_
      rcases pushedToo entry member with earlier | now
      · exact (pushed entry earlier).imp_left (puts entry)
      · exact Or.inr now
    · rcases rootToo times member with same | earlier
      · exact same ▸ fresh.floored
      · rcases root times earlier with same | absurd
        · exact same ▸ fresh.floored
        · cases absurd

/-- The renamed row's ctime is the reading, and its mtime the row's own or the reading. -/
theorem movedEntry_times {row : Option OverlayEntry} {source target : BytePath}
    {sourceBase targetBase : Option BaseFacts} {sourceIno : Nat} {moved : OverlayEntry}
    {after : Overlay}
    (done
      : Overlay.movedEntry row source target sourceBase targetBase now overlay sourceIno
        = .ok (moved, after))
    : Waits overlay after
      ∧ after.clock = overlay.clock
      ∧ moved.ctime = now
      ∧ (moved.mtime = now ∨ ∃ old, row = some old ∧ moved.mtime = old.mtime) := by
  unfold Overlay.movedEntry at done
  split at done
  · rename_i old found
    cases done
    exact ⟨.refl overlay, rfl, rfl, Or.inr ⟨old, (Option.filter_eq_some_iff.mp found).1, rfl⟩⟩
  · split at done
    · cases done
    · split at done
      · cases done
      · cases done
        exact ⟨⟨rfl, rfl, le_refl _⟩, rfl, rfl, Or.inl rfl⟩

theorem descendantChanges_times {rows : Rows} {source target : BytePath} {nextIno : Nat}
    {descendants : List BaseDescendant}
    (member
      : Change.put entry
        ∈ (Overlay.descendantChanges rows source target now nextIno descendants).1)
    : entry.mtime = now ∧ entry.ctime = now := by
  induction descendants generalizing nextIno with
  | nil => cases member
  | cons descendant rest ih =>
      unfold Overlay.descendantChanges at member
      split at member
      · exact ih member
      · split at member
        · exact ih member
        · rcases List.mem_cons.mp member with same | later
          · cases same
            exact ⟨rfl, rfl⟩
          · exact ih later

theorem attemptRename_dated (prompt : Prompt commitTime overlay host)
    (rows
      : ∀ (path : BytePath) (entry : OverlayEntry),
          overlay.entries[path]? = some entry
          → commitTime.nextTick ≤ entry.mtime ∧ entry.mtime ≤ overlay.clock)
    (source target : BytePath) (sourceIno : Nat) (sourceBase targetBase : Option BaseFacts)
    (sourceParent targetParent : Parent) (descendants : List BaseDescendant)
    (targetMergedIsEmpty noReplace : Bool)
    : (overlay.attemptRename host source sourceIno sourceBase sourceParent target targetBase
        targetParent descendants targetMergedIsEmpty noReplace).Dated false commitTime
        overlay := by
  have read : Waits overlay (overlay.nextTime host).2 := ⟨rfl, rfl, prompt.clock_le⟩
  refine attemptRename_cases (fun _ => .refl overlay) (fun _ _ _ => ⟨rfl, rfl, prompt.clock_le⟩)
    (.refl overlay) ?_
  intro _ nonroot _ _ _ moved movers arrived n brings
  obtain ⟨-, moving⟩ := brings.moving
  obtain ⟨after, done, along⟩ := brings
  obtain ⟨-, -, ctime, mtime⟩ := movedEntry_times done
  have given : Fresh commitTime overlay (renameReady overlay host n) (overlay.nextTime host).1 :=
    ⟨prompt.fresh.after_, prompt.fresh.reached, prompt.fresh.floored⟩
  have old {entry : OverlayEntry} {path : BytePath} {row : OverlayEntry}
      (found : overlay.entries[path]? = some row)
      (ctime : entry.ctime = (overlay.nextTime host).1) (mtime : entry.mtime = row.mtime)
      : Fitted commitTime overlay (renameReady overlay host n) entry := by
    obtain ⟨floored, reached⟩ := rows path row found
    exact ⟨ctime ▸ given, mtime ▸ floored, mtime ▸ reached.trans read.clock⟩
  refine Dated.renaming ⟨rfl, rfl, prompt.clock_le⟩ given ?_
  intro entry member
  rcases put_mem_moveChanges member with rfl | ⟨row, listed, rfl⟩ | arrives | left
  · rcases mtime with now | ⟨row, found, same⟩
    · exact given.fitted now ctime
    · exact old found ctime same
  · rcases moving.below with ⟨rfl, -⟩ | ⟨-, rfl⟩
    · cases listed
    · obtain ⟨path, found⟩ := mem_rowsUnder_of listed
      exact old found rfl rfl
  · rcases along with ⟨-, rfl, -⟩ | ⟨-, -, same⟩
    · cases arrives
    · rw [(Prod.mk.inj same).1] at arrives
      obtain ⟨mtime, ctime⟩ := descendantChanges_times arrives
      exact given.fitted mtime ctime
  · obtain ⟨mtime, ctime⟩ := departure_times left
    exact given.fitted mtime ctime

end Operations

section Steps

variable {commitTime : Timestamp} {state : Durable} {weather : Weather}

/-- A row noted as written, with an mtime of its own or the reading. -/
theorem Punctual.noteWritten (punctual : Punctual ⟨state, commitTime⟩) {host : Timestamp}
    (prompt : Prompt commitTime state.memory host) (entry : OverlayEntry) (size : Nat)
    (mtime : Option Timestamp)
    (sound
      : ∀ time ∈ mtime, commitTime.nextTick ≤ time ∧ NotAhead state.memory host time)
    : Punctual
        ⟨{ state with memory := state.memory.noteWritten host entry size mtime }, commitTime⟩
      ∧ Moved false commitTime state.memory
          (state.memory.noteWritten host entry size mtime) := by
  have fresh := prompt.fresh
  have clock : (state.memory.noteWritten host entry size mtime).clock
      = (state.memory.nextTime host).2.clock := rfl
  have rows : (state.memory.noteWritten host entry size mtime).entries
      = state.memory.entries.insert entry.path
          {
            entry with
            size
            mtime := mtime.getD (state.memory.nextTime host).1
            ctime := (state.memory.nextTime host).1
          } := rfl
  have cases_ {path : BytePath} {row : OverlayEntry}
      (found : (state.memory.noteWritten host entry size mtime).entries[path]? = some row)
      : (row.path = path ∧ row.mtime = mtime.getD (state.memory.nextTime host).1
          ∧ row.ctime = (state.memory.nextTime host).1)
        ∨ state.memory.entries[path]? = some row := by
    rw [rows, ExtTreeMap.getElem?_insert] at found
    split at found
    · rename_i same
      cases found
      exact Or.inl ⟨Std.LawfulEqCmp.compare_eq_iff_eq.mp same, rfl, rfl⟩
    · exact Or.inr found
  have written : commitTime.nextTick ≤ mtime.getD (state.memory.nextTime host).1
      ∧ mtime.getD (state.memory.nextTime host).1 ≤ (state.memory.nextTime host).1 := by
    cases mtime with
    | none => exact ⟨fresh.floored, le_refl _⟩
    | some time => exact ⟨(sound time rfl).1, (sound time rfl).2.reached⟩
  refine ⟨⟨punctual.steady, ?_, ⟨?_, punctual.floored.root⟩, ?_, punctual.journaled,
    punctual.journaledRoot⟩, ⟨prompt.clock_le, ?_⟩⟩
  · intro path row found
    rcases cases_ found with ⟨own, -⟩ | old
    · exact own
    · exact punctual.keyed path row old
  · intro path row found
    rcases cases_ found with ⟨-, mtime, -⟩ | old
    · exact mtime ▸ written.1
    · exact punctual.floored.rows path row old
  · intro path row found
    rcases cases_ found with ⟨-, mtime, ctime⟩ | old
    · exact ⟨mtime ▸ written.2, ctime ▸ le_refl _⟩
    · exact (punctual.reached path row old).imp (·.trans prompt.clock_le)
        (·.trans prompt.clock_le)
  · intro path row found changed _
    rcases cases_ found with ⟨-, -, ctime⟩ | old
    · rw [ctime]
      exact ⟨fresh.after_, fresh.reached, fresh.floored⟩
    · exact absurd old changed

theorem Punctual.writeThrough (punctual : Punctual ⟨state, commitTime⟩)
    {result : Except Condition Nat × Overlay} (contentIo : Bool)
    (refused : ∀ condition, result.1 = .error condition → result.2 = state.memory)
    (noted
      : ∀ written, result.1 = .ok written
          → Punctual ⟨{ state with memory := result.2 }, commitTime⟩
            ∧ Moved false commitTime state.memory result.2)
    : Punctual ⟨(state.writeThrough contentIo result).2, commitTime⟩
      ∧ Moved false commitTime state.memory (state.writeThrough contentIo result).2.memory := by
  obtain ⟨answer, overlay⟩ := result
  have still : Moved false commitTime state.memory state.memory := (Waits.refl _).moved
  cases answer with
  | error condition =>
      have same : overlay = state.memory := refused condition rfl
      subst same
      exact ⟨punctual, still⟩
  | ok written =>
      cases contentIo with
      | false => exact ⟨punctual, still⟩
      | true => exact noted written rfl

theorem Punctual.files (punctual : Punctual ⟨state, commitTime⟩)
    (files : ExtTreeMap Nat Bytes compare)
    : Punctual ⟨⟨{ state.memory with files }, state.journal⟩, commitTime⟩ :=
  punctual.waits ⟨rfl, rfl, le_refl _⟩

theorem Punctual.written (punctual : Punctual ⟨state, commitTime⟩) {host : Timestamp}
    (prompt : Prompt commitTime state.memory host)
    (files : ExtTreeMap Nat Bytes compare) (entry : OverlayEntry) (size : Nat)
    : Punctual
        ⟨⟨({ state.memory with files }).noteWritten host entry size none, state.journal⟩,
          commitTime⟩
      ∧ Moved false commitTime state.memory
          (({ state.memory with files }).noteWritten host entry size none) := by
  obtain ⟨noted, moved⟩ := (punctual.files files).noteWritten prompt entry size none
    (fun _ absurd => by cases absurd)
  have still : Moved false commitTime state.memory { state.memory with files } :=
    Waits.moved ⟨rfl, rfl, le_refl _⟩
  exact ⟨noted, still.trans moved⟩

theorem Punctual.writeAt (punctual : Punctual ⟨state, commitTime⟩)
    (prompt : Prompt commitTime state.memory (weather.clock 0)) (path : BytePath)
    (offset : Nat) (data : Bytes)
    : Punctual
        ⟨(state.writeThrough weather.contentIo
          (state.memory.writeAt (weather.clock 0) path offset data)).2, commitTime⟩
      ∧ Moved false commitTime state.memory
          (state.writeThrough weather.contentIo
            (state.memory.writeAt (weather.clock 0) path offset data)).2.memory := by
  rcases writeAt_cases state.memory (weather.clock 0) path offset data with
    ⟨condition, same⟩ | ⟨entry, id, files, written, size, -, -, -, same⟩
  · rw [same]
    exact punctual.writeThrough _ (fun _ _ => rfl) (fun _ done => by cases done)
  · rw [same]
    exact punctual.writeThrough _ (fun _ failed => by cases failed) (fun _ _ =>
      punctual.written prompt files entry size)

theorem Punctual.writeContent (punctual : Punctual ⟨state, commitTime⟩)
    (prompt : Prompt commitTime state.memory (weather.clock 0)) (contentId offset : Nat)
    (data : Bytes)
    : Punctual
        ⟨(state.writeThrough weather.contentIo
          (state.memory.writeContent (weather.clock 0) contentId offset data)).2, commitTime⟩
      ∧ Moved false commitTime state.memory
          (state.writeThrough weather.contentIo
            (state.memory.writeContent (weather.clock 0) contentId offset data)).2.memory := by
  rcases writeContent_cases state.memory (weather.clock 0) contentId offset data with
    ⟨condition, same⟩ | ⟨files, written, -, same⟩ | ⟨entry, files, written, size, -, -, same⟩
  · rw [same]
    exact punctual.writeThrough _ (fun _ _ => rfl) (fun _ done => by cases done)
  · rw [same]
    exact punctual.writeThrough _ (fun _ failed => by cases failed) (fun _ _ =>
      ⟨punctual.files files, Waits.moved ⟨rfl, rfl, le_refl _⟩⟩)
  · rw [same]
    exact punctual.writeThrough _ (fun _ failed => by cases failed) (fun _ _ =>
      punctual.written prompt files entry size)

theorem Punctual.settle (punctual : Punctual ⟨state, commitTime⟩) (contentId : Nat)
    (succeeds : Bool)
    : Punctual ⟨(state.perform (state.memory.attemptSettle contentId) succeeds).2, commitTime⟩
      ∧ Moved false commitTime state.memory
          (state.perform (state.memory.attemptSettle contentId) succeeds).2.memory := by
  refine punctual.perform (attemptSettle_dated contentId ?_) succeeds
  intro entry found
  obtain ⟨path, -, there⟩ := Option.bind_eq_some_iff.mp found
  rw [punctual.keyed path entry there]
  exact there

theorem Punctual.refreshContent (punctual : Punctual ⟨state, commitTime⟩)
    (contentId size : Nat) (mtime : Timestamp)
    (timely
      : ∀ entry
          ∈ state.memory.byContent[contentId]?.bind (fun path => state.memory.entries[path]?),
          (entry.size = size ∧ entry.mtime = mtime)
          ∨ (Prompt commitTime state.memory (weather.clock 0)
            ∧ commitTime.nextTick ≤ mtime
            ∧ NotAhead state.memory (weather.clock 0) mtime))
    : Punctual
        ⟨(state.perform
          (state.memory.attemptRefreshContent (weather.clock 0) contentId size mtime)
          (weather.journal 0)).2, commitTime⟩
      ∧ Moved false commitTime state.memory
          (state.perform
            (state.memory.attemptRefreshContent (weather.clock 0) contentId size mtime)
            (weather.journal 0)).2.memory := by
  unfold Overlay.attemptRefreshContent
  split
  · exact ⟨punctual, (Waits.refl _).moved⟩
  · rename_i entry found
    split
    · rename_i stale
      rcases timely entry found with ⟨sized, timed⟩ | ⟨prompt, floored, notAhead⟩
      · exact absurd stale (by simp [sized, timed])
      · obtain ⟨noted, moved⟩ := punctual.noteWritten prompt entry size (some mtime)
          (fun time same => (by cases same; exact ⟨floored, notAhead⟩))
        obtain ⟨settled, last⟩ := noted.settle contentId (weather.journal 0)
        exact ⟨settled, moved.trans last⟩
    · exact punctual.settle contentId (weather.journal 0)

variable {entry : OverlayEntry}

/-- After an adoption, the clock is where it was or at the adoption's reading. -/
theorem adopted_clock {host : Timestamp} {path : BytePath} {base : Option BaseFacts} {ino : Nat}
    {succeeds : Bool} {after : Durable}
    (adopted
      : state.perform (state.memory.attemptAdopt host path base ino) succeeds
        = (.ok entry, after))
    : after = state
      ∨ (after.memory.clock = (state.memory.nextTime host).2.clock
        ∧ after.memory.snapshotTime = state.memory.snapshotTime) := by
  unfold Overlay.attemptAdopt at adopted
  split at adopted
  · cases adopted
  · split at adopted
    · cases adopted
    · split at adopted
      · cases adopted
        exact Or.inl rfl
      · cases adopted
      · split at adopted
        · cases adopted
        · split at adopted
          · cases adopted
          · cases succeeds with
            | false => cases adopted
            | true =>
                cases adopted
                exact Or.inr ⟨rfl, rfl⟩

/-- The second half of `set_executable` and `set_times`, over what the first half left. -/
theorem Punctual.adoptThen (punctual : Punctual ⟨state, commitTime⟩)
    (prompt : PromptTwice commitTime state.memory weather) (path : BytePath)
    (base : Option BaseFacts) (ino : Nat)
    {second : Overlay → OverlayEntry → Attempt OverlayEntry}
    (dated
      : ∀ (after : Durable) (entry : OverlayEntry),
          Punctual ⟨after, commitTime⟩
          → after.memory.entries[path]? = some entry
          → Prompt commitTime after.memory (weather.clock 1)
          → (∀ time, NotAhead state.memory (weather.clock 1) time
              → NotAhead after.memory (weather.clock 1) time)
          → after.memory.snapshotTime = state.memory.snapshotTime
          → (second after.memory entry).Dated false commitTime after.memory)
    : Punctual ⟨(state.adoptThen weather path base ino second).2, commitTime⟩
      ∧ Moved false commitTime state.memory
          (state.adoptThen weather path base ino second).2.memory := by
  have first := punctual.perform (attemptAdopt_dated prompt.1 path base ino) (weather.journal 0)
  unfold Durable.adoptThen
  split
  · rename_i condition after refused
    rw [refused] at first
    exact first
  · rename_i entry after adopted
    rw [adopted] at first
    have there := (adopted_row _ _ _ _ _ adopted).1
    have next : (second after.memory entry).Dated false commitTime after.memory := by
      rcases adopted_clock adopted with same | ⟨clock, snapshot⟩
      · subst same
        exact dated after entry first.1 there prompt.2.1 (fun _ notAhead => notAhead) rfl
      · have again := prompt.second
        refine dated after entry first.1 there ?_ ?_ snapshot
        · refine ⟨clock ▸ again.1, ?_⟩
          rw [clock, snapshot]
          exact again.2
        · intro time notAhead
          have room : after.memory.clock.Steady := clock ▸ again.1
          rcases notAhead with early | early | early
          · exact Or.inl early
          · exact Or.inr (Or.inl (snapshot ▸ early))
          · refine Or.inr (Or.inr (early.trans ?_))
            refine le_trans ?_ (Timestamp.lt_nextTick room).le
            rw [clock]
            exact nextTick_le_overlayTime ..
    have last := first.1.perform next (weather.journal 1)
    exact ⟨last.1, first.2.trans last.2⟩

/-- Made directories are dated by readings of their own. -/
theorem madeDirectories_times {overlay : Overlay} {clock : Nat → Timestamp}
    {directories : List (BytePath × Nat)}
    (prompt : PromptMade commitTime clock overlay directories)
    : Waits overlay (Overlay.madeDirectories clock overlay directories).2
      ∧ ∀ made ∈ (Overlay.madeDirectories clock overlay directories).1,
          Fitted commitTime overlay (Overlay.madeDirectories clock overlay directories).2
            made := by
  induction directories generalizing overlay with
  | nil => exact ⟨.refl overlay, fun _ member => by cases member⟩
  | cons directory rest ih =>
      obtain ⟨path, ino⟩ := directory
      obtain ⟨now, others⟩ := prompt
      obtain ⟨waits, fitted⟩ := ih others
      have first : Waits overlay
          ((overlay.adoptIno ino).2.nextTime (clock rest.length)).2 :=
        ⟨rfl, rfl, now.clock_le⟩
      have fresh := now.fresh
      refine ⟨first.trans waits, fun made member => ?_⟩
      rcases List.mem_cons.mp member with rfl | later
      · exact Fresh.fitted ⟨fresh.after_, waits.clock, fresh.floored⟩ rfl rfl
      · have fit := fitted made later
        exact ⟨⟨first.clock.trans_lt fit.ctime.after_, fit.ctime.reached, fit.ctime.floored⟩,
          fit.floored, fit.reached⟩

/-- What a re-pin keeps, in time. -/
theorem planKept_times {overlay : Overlay} {clock : Nat → Timestamp} {carry : Option Carry}
    (later : ∀ kept ∈ carry, CarriesLater commitTime overlay clock kept)
    : (∃ condition, overlay.planKept clock carry = (.error condition, overlay))
      ∨ ∃ kept report after,
          overlay.planKept clock carry = (.ok (kept, report), after)
          ∧ Waits overlay after
          ∧ (∀ entry ∈ kept,
              Fitted commitTime overlay after entry
              ∨ ∃ (path : BytePath) (old : OverlayEntry),
                  overlay.entries[path]? = some old
                  ∧ entry.path = old.path
                  ∧ entry.mtime = old.mtime
                  ∧ entry.ctime = old.ctime
                  ∧ commitTime.nextTick ≤ entry.mtime)
          ∧ (kept ≠ [] → ∀ times ∈ overlay.rootTimes, commitTime.nextTick ≤ times.1) := by
  cases carry with
  | none =>
      exact Or.inr ⟨[], [], overlay, rfl, .refl overlay, fun _ member => (by cases member),
        fun absurd => (by cases absurd rfl)⟩
  | some carry =>
      obtain ⟨kept, root, prompt⟩ := later carry rfl
      obtain ⟨waits, fitted⟩ := madeDirectories_times prompt
      simp only [Overlay.planKept]
      split
      · exact Or.inl ⟨_, rfl⟩
      · split
        · exact Or.inl ⟨_, rfl⟩
        · rename_i rows mapped
          refine Or.inr ⟨_, _, _, rfl, waits, ?_, ?_⟩
          · intro entry member
            rcases List.mem_append.mp member with old | made
            · obtain ⟨row, listed, found⟩ := forall₂_exists_left (forall₂_of_mapM mapped) old
              obtain ⟨before, there, path, -, mtime, ctime⟩ := keptEntry_row found
              refine Or.inr ⟨row.path, before, there, path, mtime, ctime, ?_⟩
              rw [mtime]
              exact kept row listed before (by simp [there])
            · exact Or.inl (fitted entry made)
          · intro some_ times member
            rcases root times member with ⟨noRows, noDirectories⟩ | floored
            · refine absurd ?_ some_
              rw [noRows] at mapped
              cases mapped
              rw [noDirectories]
              rfl
            · exact floored

/-- A re-pin that succeeds moves the pin; one that fails leaves it. -/
theorem Punctual.rebind {newTime : Timestamp} (punctual : Punctual ⟨state, commitTime⟩)
    (steady : newTime.Steady) {carry : Option Carry}
    (later : ∀ kept ∈ carry, CarriesLater newTime state.memory weather.clock kept)
    : (∃ after, state.rebind weather carry = (.ok (), after)
        ∧ Punctual ⟨after, newTime⟩ ∧ Moved true newTime state.memory after.memory)
      ∨ ∃ condition after, state.rebind weather carry = (.error condition, after)
        ∧ Punctual ⟨after, commitTime⟩ ∧ Waits state.memory after.memory := by
  unfold Durable.rebind
  rcases planKept_times later with
    ⟨condition, same⟩ | ⟨kept, report, after, same, waits, dated, root⟩
  · rw [same]
    exact Or.inr ⟨condition, _, rfl, punctual, .refl _⟩
  · rw [same]
    simp only
    split
    · refine Or.inl ⟨_, rfl, ?_⟩
      let rootTimes := if kept.isEmpty then none else after.rootTimes
      obtain ⟨rows, clock, -⟩ := keepRows_fields kept
        { after with entries := ∅, children := ∅, byContent := ∅, localBytes := 0 }
      have cases_ {path : BytePath} {entry : OverlayEntry}
          (found : (overwrite ∅ (kept.map (Change.write ∘ Change.put)) : Rows)[path]?
            = some entry)
          : entry.path = path ∧ newTime.nextTick ≤ entry.mtime ∧ entry.mtime ≤ after.clock
              ∧ entry.ctime ≤ after.clock := by
        obtain ⟨member, own⟩ := mem_of_written found
        refine ⟨own, ?_⟩
        rcases dated entry member with fitted | ⟨source, old, there, -, mtime, ctime, floored⟩
        · exact ⟨fitted.floored, fitted.reached, fitted.ctime.reached⟩
        · obtain ⟨timed, changed⟩ := punctual.reached source old there
          exact ⟨floored, mtime ▸ timed.trans waits.clock, ctime ▸ changed.trans waits.clock⟩
      have touched : ∀ times ∈ rootTimes, newTime.nextTick ≤ times.1 := by
        intro times member
        simp only [rootTimes] at member
        split at member
        · cases member
        · rename_i some_
          refine root (fun none => some_ (by rw [none]; rfl)) times ?_
          rw [← waits.rootTimes]
          exact member
      have found_ {path : BytePath} {entry : OverlayEntry}
          (found : (after.rebound kept report rootTimes).entries[path]? = some entry)
          : (overwrite ∅ (kept.map (Change.write ∘ Change.put)) : Rows)[path]? = some entry :=
        rows ▸ found
      refine ⟨⟨steady, ?_, ⟨?_, touched⟩, ?_, ?_, touched⟩, ⟨?_, ?_⟩⟩
      · intro path entry found
        exact (cases_ (found_ found)).1
      · intro path entry found
        exact (cases_ (found_ found)).2.1
      · intro path entry found
        obtain ⟨-, -, mtime, ctime⟩ := cases_ (found_ found)
        exact ⟨mtime.trans_eq clock.symm, ctime.trans_eq clock.symm⟩
      · intro path entry found
        exact (cases_ found).2.1
      · exact waits.clock.trans_eq clock.symm
      · intro path entry found changed new
        obtain ⟨member, rfl⟩ := mem_of_written (found_ found)
        rcases dated entry member with fitted | ⟨source, old, there, path, -⟩
        · exact ⟨fitted.ctime.after_, fitted.ctime.reached.trans_eq clock.symm,
            fitted.ctime.floored⟩
        · rw [← punctual.keyed source old there, ← path, new rfl] at there
          cases there
    · exact Or.inr ⟨.io, _, rfl, punctual.waits waits, waits⟩

/-- The clock opening starts from is past every row. -/
theorem seed_reached (recovery : Recovery) (journal : Journal)
    (member : entry ∈ journal.rows.toList.map Prod.snd)
    : entry.mtime ≤ recovery.seed journal ∧ entry.ctime ≤ recovery.seed journal := by
  have folded (rows : List OverlayEntry) (start : Timestamp)
      : start
          ≤ rows.foldl (fun clock entry => (clock.max entry.mtime).max entry.ctime) start
        ∧ ∀ row ∈ rows,
            row.mtime
              ≤ rows.foldl (fun clock entry => (clock.max entry.mtime).max entry.ctime) start
            ∧ row.ctime
              ≤ rows.foldl (fun clock entry => (clock.max entry.mtime).max entry.ctime)
                  start := by
    induction rows generalizing start with
    | nil => exact ⟨le_refl _, fun _ absurd => by cases absurd⟩
    | cons row rows ih =>
        obtain ⟨grows, reached⟩ := ih ((start.max row.mtime).max row.ctime)
        simp only [Timestamp.max_eq] at grows reached ⊢
        refine ⟨(le_max_of_le_left (le_max_left _ _)).trans grows, fun other listed => ?_⟩
        rcases List.mem_cons.mp listed with rfl | later
        · exact ⟨(le_max_of_le_left (le_max_right _ _)).trans grows,
            (le_max_right _ _).trans grows⟩
        · exact reached other later
  obtain ⟨mtime, ctime⟩ := (folded _ recovery.snapshotTime).2 entry member
  unfold Recovery.seed
  cases journal.rootTimes with
  | none => exact ⟨mtime, ctime⟩
  | some times =>
      simp only [Option.elim_some, Timestamp.max_eq] at mtime ctime ⊢
      exact ⟨mtime.trans (le_max_of_le_left (le_max_left _ _)),
        ctime.trans (le_max_of_le_left (le_max_left _ _))⟩

/-- A corrected row is past the base and not ahead of the reading it was corrected with. -/
theorem correction_times {recovery : Recovery} {files : ExtTreeMap Nat Bytes compare}
    {clock host : Timestamp} {corrected : OverlayEntry}
    (found : recovery.correction files clock host entry = some corrected) (steady : clock.Steady)
    (reached : entry.mtime ≤ clock)
    (read : ∀ id ∈ entry.content.localId, ∀ time ∈ recovery.fileTime id, time ≤ host)
    : entry.mtime ≤ corrected.mtime ∧ corrected.mtime ≤ corrected.ctime
      ∧ clock < corrected.ctime := by
  unfold Recovery.correction at found
  obtain ⟨id, named, rest⟩ := Option.bind_eq_some_iff.mp found
  obtain ⟨file, -, changed⟩ := Option.bind_eq_some_iff.mp rest
  simp only at changed
  split at changed
  · cases changed
    have advanced := lt_overlayTime host recovery.snapshotTime steady
    simp only [Timestamp.max_eq]
    refine ⟨le_max_left _ _, max_le (reached.trans advanced.le) ?_, advanced⟩
    unfold Recovery.readBack
    cases told : recovery.fileTime id with
    | none => exact reached.trans advanced.le
    | some time =>
        simp only [Option.map_some, Option.getD_some, clampRequestedOverlayTime,
          Timestamp.max_eq]
        exact max_le ((read id named time told).trans (host_le_overlayTime ..))
          (floor_le_overlayTime ..)
  · cases changed

/-- Rows read back are past the base and not ahead of the clock opening ends with. -/
theorem correct_times {recovery : Recovery} {files : ExtTreeMap Nat Bytes compare}
    {clock : Timestamp} {loaded : List OverlayEntry}
    (reads : ReadsBack recovery files clock loaded)
    (reached : ∀ entry ∈ loaded, entry.mtime ≤ clock ∧ entry.ctime ≤ clock)
    (floored : ∀ entry ∈ loaded, commitTime.nextTick ≤ entry.mtime)
    : clock ≤ (recovery.correct files clock loaded).2.2
      ∧ ∀ row ∈ (recovery.correct files clock loaded).1,
          commitTime.nextTick ≤ row.mtime
          ∧ row.mtime ≤ (recovery.correct files clock loaded).2.2
          ∧ row.ctime ≤ (recovery.correct files clock loaded).2.2 := by
  induction loaded generalizing clock with
  | nil => exact ⟨le_refl _, fun _ absurd => by cases absurd⟩
  | cons entry rest ih =>
      simp only [List.mem_cons, forall_eq_or_imp] at reached floored
      cases found : recovery.correction files clock (recovery.clock rest.length) entry with
      | none =>
          simp only [ReadsBack, found] at reads
          obtain ⟨grows, rows⟩ := ih reads reached.2 floored.2
          simp only [Recovery.correct, found]
          refine ⟨grows, fun row member => ?_⟩
          rcases List.mem_cons.mp member with rfl | later
          · exact ⟨floored.1, reached.1.1.trans grows, reached.1.2.trans grows⟩
          · exact rows row later
      | some corrected =>
          simp only [ReadsBack, found] at reads
          obtain ⟨steady, read, others⟩ := reads
          obtain ⟨kept, within, advanced⟩ := correction_times found steady reached.1.1 read
          obtain ⟨grows, rows⟩ := ih others
            (fun row member =>
              (reached.2 row member).imp (·.trans advanced.le) (·.trans advanced.le))
            floored.2
          simp only [Recovery.correct, found]
          refine ⟨advanced.le.trans grows, fun row member => ?_⟩
          rcases List.mem_cons.mp member with rfl | later
          · exact ⟨floored.1.trans kept, within.trans grows, grows⟩
          · exact rows row later

/-- Opening on the pinned commit keeps time going. -/
theorem Punctual.reopen {journal : Journal} {files : ExtTreeMap Nat Bytes compare}
    {recovery : Recovery} (steady : recovery.snapshotTime.Steady)
    (journaled
      : ∀ (path : BytePath) (entry : OverlayEntry),
          journal.rows[path]? = some entry → recovery.snapshotTime.nextTick ≤ entry.mtime)
    (root : ∀ times ∈ journal.rootTimes, recovery.snapshotTime.nextTick ≤ times.1)
    (reads
      : ReadsBack recovery
          (files.filter (fun id _ =>
            ((journal.rows.toList.map Prod.snd).filterMap
              (·.content.localId)).contains id))
          (recovery.seed journal) (journal.rows.toList.map Prod.snd))
    : Punctual ⟨Durable.reopen journal files recovery, recovery.snapshotTime⟩ := by
  have listed {entry : OverlayEntry} (member : entry ∈ journal.rows.toList.map Prod.snd)
      : recovery.snapshotTime.nextTick ≤ entry.mtime := by
    obtain ⟨⟨path, row⟩, pair, same⟩ := List.mem_map.mp member
    cases same
    exact journaled path row (ExtTreeMap.mem_toList_iff_getElem?_eq_some.mp pair)
  obtain ⟨-, times⟩ := correct_times reads (fun _ => seed_reached recovery journal)
    (fun _ => listed)
  have within := (correct_spec recovery (sweptFiles journal files) (recovery.seed journal)
    (journal.rows.toList.map Prod.snd)).2
  obtain ⟨rows, written, read, touched, -⟩ := reopen_fields journal files recovery
  have cases_ {path : BytePath} {entry : OverlayEntry}
      (found : (Durable.reopen journal files recovery).memory.entries[path]? = some entry)
      : entry.path = path ∧ recovery.snapshotTime.nextTick ≤ entry.mtime
          ∧ entry.mtime ≤ (Durable.reopen journal files recovery).memory.clock
          ∧ entry.ctime ≤ (Durable.reopen journal files recovery).memory.clock := by
    rw [rows] at found
    obtain ⟨member, own⟩ := mem_of_written found
    rw [read]
    exact ⟨own, times entry member⟩
  refine ⟨steady, fun path entry found => (cases_ found).1,
    ⟨fun path entry found => (cases_ found).2.1,
      fun times member => root times (touched.symm.trans member)⟩,
    fun path entry found => (cases_ found).2.2, ?_, ?_⟩
  · intro path entry found
    rw [written] at found
    rcases overwrite_cases found with ⟨put, -⟩ | ⟨old, -⟩
    · obtain ⟨row, corrected, same⟩ := List.mem_map.mp put
      cases same
      exact (times entry (within corrected)).1
    · exact journaled path entry old
  · intro times member
    simp only [Durable.reopen] at member
    split at member
    · exact root times member
    · exact root times member

end Steps

-- Runs

section Runs

variable {pinned : Pinned} {occurrence : Occurrence}

variable {commitTime newTime : Timestamp} {state : Durable} {mutation : Mutation}

theorem Punctual.advances {after : Overlay} (punctual : Punctual ⟨state, commitTime⟩)
    (steady : newTime.Steady) (moved : Moved mutation.keepsTimes newTime state.memory after)
    : Advances newTime mutation state.memory.entries after.entries := by
  refine ⟨fun path other entry old stamps found => ?_, fun path entry stamps => ?_⟩
  · have fresh := moved.rows path entry stamps.1 stamps.2.1 stamps.2.2
    obtain ⟨mtime, ctime⟩ := punctual.reached other old found
    exact ⟨mtime.trans_lt fresh.after_, ctime.trans_lt fresh.after_⟩
  · have fresh := moved.rows path entry stamps.1 stamps.2.1 stamps.2.2
    exact (Timestamp.lt_nextTick steady).trans_le fresh.floored

/-- What one occurrence comes to. -/
structure GoesOn (before : Pinned) (occurrence : Occurrence) : Prop where
  punctual : Punctual (before.next occurrence)
  advances
    : ∀ mutation weather, occurrence.event = .operation mutation weather
        → Advances (before.next occurrence).commitTime mutation before.state.memory.entries
            (before.next occurrence).state.memory.entries

private theorem Punctual.goesOn {weather : Weather} (punctual : Punctual ⟨state, commitTime⟩)
    (newTime : Timestamp) (other : ∀ carry, mutation ≠ .rebind carry)
    (stepped
      : Punctual ⟨(state.apply weather mutation).2, commitTime⟩
        ∧ Moved mutation.keepsTimes commitTime state.memory
            (state.apply weather mutation).2.memory)
    : GoesOn ⟨state, commitTime⟩ ⟨.operation mutation weather, newTime⟩ := by
  have next : Pinned.next ⟨state, commitTime⟩ ⟨.operation mutation weather, newTime⟩
      = ⟨(state.apply weather mutation).2, commitTime⟩ := by
    cases mutation with
    | rebind carry => exact absurd rfl (other carry)
    | _ => rfl
  refine ⟨next ▸ stepped.1, fun _ _ same => ?_⟩
  cases same
  rw [next]
  exact punctual.advances punctual.steady stepped.2

/-- A re-pin in time. -/
theorem Punctual.repins {weather : Weather} {carry : Option Carry}
    (punctual : Punctual ⟨state, commitTime⟩)
    (timely : Timely ⟨state, commitTime⟩ ⟨.operation (.rebind carry) weather, newTime⟩)
    : GoesOn ⟨state, commitTime⟩ ⟨.operation (.rebind carry) weather, newTime⟩ := by
  rcases punctual.rebind timely.1 timely.2 with
    ⟨after, done, kept, moved⟩ | ⟨condition, after, failed, kept, waits⟩
  · have next : Pinned.next ⟨state, commitTime⟩ ⟨.operation (.rebind carry) weather, newTime⟩
        = ⟨after, newTime⟩ := by
      simp only [Pinned.next, Durable.apply, done]
    refine ⟨next ▸ kept, fun _ _ same => ?_⟩
    cases same
    rw [next]
    exact punctual.advances timely.1 moved
  · have next : Pinned.next ⟨state, commitTime⟩ ⟨.operation (.rebind carry) weather, newTime⟩
        = ⟨after, commitTime⟩ := by
      simp only [Pinned.next, Durable.apply, failed]
    refine ⟨next ▸ kept, fun _ _ same => ?_⟩
    cases same
    rw [next]
    exact punctual.advances punctual.steady waits.moved

theorem Punctual.sync (punctual : Punctual ⟨state, commitTime⟩) (weather : Weather)
    : Punctual ⟨(state.sync weather).2, commitTime⟩
      ∧ Moved false commitTime state.memory (state.sync weather).2.memory := by
  have settled := punctual.perform (attemptSettleAll_dated punctual.keyed) (weather.journal 0)
  unfold Durable.sync
  split
  · rename_i refused
    rw [refused] at settled
    exact settled
  · rename_i after done
    rw [done] at settled
    split
    · exact settled
    · exact ⟨settled.1.waits ⟨rfl, rfl, le_refl _⟩,
        settled.2.trans (Waits.moved ⟨rfl, rfl, le_refl _⟩)⟩

theorem Punctual.operation (punctual : Punctual pinned) {weather : Weather}
    (timely : Timely pinned ⟨.operation mutation weather, newTime⟩)
    : GoesOn pinned ⟨.operation mutation weather, newTime⟩ := by
  obtain ⟨state, commitTime⟩ := pinned
  have still {after : Overlay} (waits : Waits state.memory after)
      : Punctual ⟨{ state with memory := after }, commitTime⟩
        ∧ Moved false commitTime state.memory after :=
    ⟨punctual.waits waits, waits.moved⟩
  have rows (path : BytePath) (entry : OverlayEntry)
      (found : state.memory.entries[path]? = some entry)
      : commitTime.nextTick ≤ entry.mtime ∧ entry.mtime ≤ state.memory.clock :=
    ⟨punctual.floored.rows path entry found, (punctual.reached path entry found).1⟩
  by_cases repins : ∃ carry, mutation = .rebind carry
  · obtain ⟨carry, rfl⟩ := repins
    exact punctual.repins timely
  · refine punctual.goesOn newTime (fun carry same => repins ⟨carry, same⟩) ?_
    cases mutation with
    | createFile => exact punctual.perform (attemptCreateFile_dated timely ..) _
    | mkdir => exact punctual.perform (attemptMkdir_dated timely ..) _
    | symlink => exact punctual.perform (attemptSymlink_dated timely ..) _
    | materialize => exact punctual.perform (attemptMaterialize_dated timely ..) _
    | writeAt => exact punctual.writeAt timely ..
    | writeContent => exact punctual.writeContent timely ..
    | refreshContent => exact punctual.refreshContent _ _ _ timely
    | truncate => exact punctual.perform (attemptTruncate_dated timely ..) _
    | settleContent => exact punctual.settle ..
    | adopt => exact punctual.perform (attemptAdopt_dated timely ..) _
    | setExecutable path base ino executable =>
        refine punctual.adoptThen timely path base ino ?_
        intro after entry kept there prompt _ _
        exact attemptExecutable_dated prompt (kept.floored.rows path entry there)
          (kept.reached path entry there).1 executable
    | setTimes path base ino mtime =>
        refine punctual.adoptThen timely.1 path base ino ?_
        intro after entry kept there prompt notAhead snapshot
        refine attemptTimes_dated prompt (fun time given => ?_)
        obtain ⟨floored, early⟩ := timely.2 time given
        exact ⟨snapshot.symm ▸ floored, notAhead time early⟩
    | touchRoot => exact punctual.perform (attemptTouchRoot_dated timely.1 timely.2) _
    | referenceBase =>
        exact punctual.perform (attemptReferenceBase_dated punctual.keyed ..) _
    | remove => exact punctual.perform (attemptRemove_dated timely ..) _
    | rename => exact punctual.perform (attemptRename_dated timely rows ..) _
    | beginWrite =>
        refine still ?_
        unfold Overlay.beginWrite
        repeat' split
        all_goals exact ⟨rfl, rfl, le_refl _⟩
    | writerOpened => exact still ⟨rfl, rfl, le_refl _⟩
    | writerClosed =>
        refine still ?_
        unfold Overlay.writerClosed
        split
        all_goals exact ⟨rfl, rfl, le_refl _⟩
    | releaseCopy =>
        refine still ?_
        unfold Overlay.releaseCopy
        split
        all_goals exact ⟨rfl, rfl, le_refl _⟩
    | rebind carry => exact absurd ⟨carry, rfl⟩ repins
    | sync => exact punctual.sync weather

theorem Punctual.next (punctual : Punctual pinned) (timely : Timely pinned occurrence)
    : GoesOn pinned occurrence := by
  obtain ⟨event, newTime⟩ := occurrence
  cases event with
  | operation mutation weather => exact punctual.operation timely
  | restart recovery =>
      refine ⟨?_, fun _ _ absurd => by cases absurd⟩
      exact Punctual.reopen punctual.steady punctual.journaled punctual.journaledRoot timely

theorem Punctual.created {recovery : Recovery} (steady : recovery.snapshotTime.Steady)
    : Punctual (Pinned.created recovery) := by
  refine Punctual.reopen steady ?_ (fun _ absurd => by cases absurd) trivial
  intro path entry found
  simp [Journal.fresh] at found

end Runs

/-- In every run of mutations, restarts and re-pins that meets the conditions, every mutation
gives ctimes later than every time a row had before it and than the pinned commit's snapshot
time, and no mtime is below that time plus one tick. Witness: rows stay at or before the
overlay's clock, and every reading is after it.
-/
theorem workspace_time_advances (recovery : Recovery) (steady : recovery.snapshotTime.Steady)
    (earlier later : List Occurrence) (occurrence : Occurrence)
    (timely
      : Along Pinned.next Timely (Pinned.created recovery) (earlier ++ occurrence :: later))
    : (∀ mutation weather, occurrence.event = .operation mutation weather
        → Advances
            ((earlier.foldl Pinned.next (Pinned.created recovery)).next occurrence).commitTime
            mutation
            (earlier.foldl Pinned.next (Pinned.created recovery)).state.memory.entries
            ((earlier.foldl Pinned.next (Pinned.created recovery)).next
              occurrence).state.memory.entries)
      ∧ Floored
          ((earlier.foldl Pinned.next (Pinned.created recovery)).next occurrence).commitTime
          ((earlier.foldl Pinned.next (Pinned.created recovery)).next
            occurrence).state.memory := by
  obtain ⟨before, now, -⟩ := Along.append.mp timely
  have punctual : Punctual (earlier.foldl Pinned.next (Pinned.created recovery)) :=
    invariant (fun _ _ punctual allowed => (punctual.next allowed).punctual)
      (Punctual.created steady) before _ (foldl_mem_states _ _ _)
  have goesOn := punctual.next now
  exact ⟨goesOn.advances, goesOn.punctual.floored⟩

/-- A file made on a commit of the epoch, and the overlay moved to a commit of a second later
without it.
-/
def sampleRepin : List Occurrence :=
  [⟨.operation (.createFile [102] none ⟨0, none⟩ 0 false) fairWeather, ⟨0, 0⟩⟩,
    ⟨.operation (.rebind none) fairWeather, ⟨1, 0⟩⟩]

/-- A directory made once the host clock is past the new commit. -/
def sampleMkdir : Occurrence where
  event := .operation (.mkdir [100] none ⟨0, none⟩ 0)
    { fairWeather with clock := fun _ => ⟨2, 0⟩ }
  commitTime := ⟨1, 0⟩

theorem sampleMkdir_advances
    : sampleRecovery.snapshotTime.Steady
      ∧ Along Pinned.next Timely (Pinned.created sampleRecovery)
          (sampleRepin ++ [sampleMkdir])
      ∧ Advances ⟨1, 0⟩ (.mkdir [100] none ⟨0, none⟩ 0)
          (sampleRepin.foldl Pinned.next (Pinned.created sampleRecovery)).state.memory.entries
          ((sampleRepin.foldl Pinned.next (Pinned.created sampleRecovery)).next
            sampleMkdir).state.memory.entries := by
  have steady : sampleRecovery.snapshotTime.Steady := by decide
  have timely
      : Along Pinned.next Timely (Pinned.created sampleRecovery)
          (sampleRepin ++ [sampleMkdir]) := by
    refine ⟨⟨?_, ?_⟩, ⟨?_, fun _ absurd => by cases absurd⟩, ⟨?_, ?_⟩, trivial⟩
    all_goals decide
  exact ⟨steady, timely,
    (workspace_time_advances sampleRecovery steady sampleRepin [] sampleMkdir timely).1 _ _ rfl⟩

/-- The overlay is opened on a commit ahead of the host clock. -/
def aheadRecovery : Recovery :=
  { sampleRecovery with snapshotTime := ⟨100, 0⟩ }

/-- A file is made, and written by the kernel directly under the host's own clock. -/
def kernelWrite : List Occurrence :=
  [⟨.operation (.createFile [102] none ⟨0, none⟩ 0 false) fairWeather, ⟨100, 0⟩⟩,
    ⟨.operation (.refreshContent 1 3 ⟨50, 0⟩) fairWeather, ⟨100, 0⟩⟩]

/-- The content file's time is taken as it is, below the base's. -/
theorem kernelWrite_not_floored
    : ¬ Floored (kernelWrite.foldl Pinned.next (Pinned.created aheadRecovery)).commitTime
          (kernelWrite.foldl Pinned.next (Pinned.created aheadRecovery)).state.memory := by
  intro floored
  have all : ((kernelWrite.foldl Pinned.next
        (Pinned.created aheadRecovery)).state.memory.entries[([102] : BytePath)]?).all
      (fun entry =>
        (kernelWrite.foldl Pinned.next
          (Pinned.created aheadRecovery)).commitTime.nextTick ≤ entry.mtime) = true := by
    rw [Option.all_eq_true]
    intro entry found
    exact decide_eq_true (floored.rows [102] entry found)
  revert all
  decide

end Gfs.Overlay
