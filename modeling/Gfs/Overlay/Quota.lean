import Gfs.Lib.Checked
import Gfs.Overlay.Accounts

/-! The overlay's quota (`gfs-overlay/src/lib.rs`, `check_quota`, `write_at` and
`write_content`): the local bytes stay within it over every run of creations, writes,
truncations, copy-ups, renames and removals, and its arithmetic stays within its words.
-/

namespace Gfs.Overlay

open Gfs.Types
open Gfs.Lib.Checked
open Gfs.Lib.Overwrites
open Gfs.Lib.Runs
open Gfs.Lib.Totals
open Std (ExtTreeMap ExtTreeSet)

-- What a transaction may cost

/-- How far into a file the host writes, and how long it makes one: `i64::MAX`. -/
def fileLimit : Nat := 2 ^ 63 - 1

/-- No local row is larger than a file may be, and below 2^63 the account is exact: only a quota
that large lets the sums saturate.
-/
structure Booked (overlay : Overlay) : Prop where
  small
    : ∀ (path : BytePath) (entry : OverlayEntry),
        overlay.entries[path]? = some entry → entry.weight ≤ fileLimit
  exact : overlay.config.quotaBytes ≤ fileLimit → Exact overlay

/-- The local bytes are within the quota. -/
def Within (overlay : Overlay) : Prop :=
  overlay.localBytes ≤ overlay.config.quotaBytes

/-- The two overlays agree on what the quota is about. -/
structure SameAccounts (left right : Overlay) : Prop where
  entries : right.entries = left.entries
  localBytes : right.localBytes = left.localBytes
  config : right.config = left.config

/-- Changes that an overlay within its quota can make. -/
structure Affordable (overlay : Overlay) (changes : List Change) : Prop where
  small : ∀ change ∈ changes, change.weight ≤ fileLimit
  room
    : overlay.config.quotaBytes ≤ fileLimit
      → overlay.rowBytes + (changes.map Change.weight).sum < 2 ^ 64
  within
    : ∀ stamp (start : Overlay),
        SameAccounts overlay start
        → (changes.foldl (Overlay.applyChange stamp) start).localBytes
          ≤ overlay.config.quotaBytes

/-- An operation leaves the account alone, or makes changes the overlay can afford. -/
def Attempt.Affords {α : Type} (overlay : Overlay) : Attempt α → Prop
  | .refused _ after => SameAccounts overlay after
  | .done _ after => SameAccounts overlay after
  | .writes _ transaction =>
      SameAccounts overlay transaction.prepared ∧ Affordable overlay transaction.changes

section Costs

variable {overlay left right : Overlay}

theorem SameAccounts.refl (overlay : Overlay) : SameAccounts overlay overlay :=
  ⟨rfl, rfl, rfl⟩

theorem SameAccounts.trans {middle : Overlay} (first : SameAccounts left middle)
    (second : SameAccounts middle right)
    : SameAccounts left right where
  entries := second.entries.trans first.entries
  localBytes := second.localBytes.trans first.localBytes
  config := second.config.trans first.config

theorem SameAccounts.rowBytes (same : SameAccounts left right)
    : right.rowBytes = left.rowBytes := by
  rw [Overlay.rowBytes, Overlay.rowBytes, same.entries]

theorem SameAccounts.exact (same : SameAccounts left right) (exact_ : Exact left)
    : Exact right := by
  rw [Exact, same.localBytes, same.rowBytes]
  exact exact_

theorem Booked.congr (booked : Booked left) (same : SameAccounts left right)
    : Booked right where
  small := by
    rw [same.entries]
    exact booked.small
  exact := by
    rw [same.config]
    exact fun limited => same.exact (booked.exact limited)

theorem Within.congr (within : Within left) (same : SameAccounts left right) : Within right := by
  rw [Within, same.localBytes, same.config]
  exact within

theorem Booked.heldAt_le (booked : Booked overlay) (path : BytePath)
    : overlay.heldAt path ≤ fileLimit := by
  cases found : overlay.entries[path]? with
  | none =>
      rw [Overlay.heldAt, found]
      exact Nat.zero_le _
  | some entry =>
      rw [heldAt_of_row found]
      exact booked.small path entry found

theorem Booked.heldAt_within (booked : Booked overlay) (within : Within overlay)
    (path : BytePath)
    : overlay.heldAt path ≤ overlay.config.quotaBytes := by
  by_cases limited : overlay.config.quotaBytes ≤ fileLimit
  · have exact_ := booked.exact limited
    rw [Exact] at exact_
    rw [Within, exact_] at within
    exact Nat.le_trans (heldAt_le_rowBytes overlay path) within
  · exact Nat.le_trans (booked.heldAt_le path) (by omega)

theorem Booked.heldAt_le_localBytes (booked : Booked overlay) (path : BytePath)
    : overlay.heldAt path ≤ overlay.localBytes ∨ fileLimit < overlay.config.quotaBytes := by
  by_cases limited : overlay.config.quotaBytes ≤ fileLimit
  · have exact_ := booked.exact limited
    rw [Exact] at exact_
    rw [exact_]
    exact .inl (heldAt_le_rowBytes overlay path)
  · exact .inr (by omega)

theorem Booked.bytesWith_le (booked : Booked overlay) {entry : OverlayEntry}
    {added : Nat} (roomy : Roomy overlay added) (within : Within overlay)
    (small : entry.weight ≤ fileLimit)
    (covers : entry.weight ≤ overlay.heldAt entry.path + added)
    : overlay.bytesWith entry ≤ overlay.config.quotaBytes := by
  rw [Roomy, saturatingAdd] at roomy
  rw [Within] at within
  have there := booked.heldAt_le_localBytes entry.path
  rw [OverlayEntry.weight] at small covers
  rw [Overlay.bytesWith, bytesWithout_eq, saturatingAdd]
  split
  · rename_i here
    rw [if_pos here] at small covers
    omega
  · omega

theorem Affordable.plain (booked : Booked overlay) (within : Within overlay)
    {changes : List Change} (plain : ∀ change ∈ changes, change.Plain)
    : Affordable overlay changes where
  small := by
    intro change member
    rw [(plain change member).weight]
    exact Nat.zero_le _
  room := by
    intro limited
    rw [weights_of_plain plain, ← booked.exact limited]
    rw [Within] at within
    rw [fileLimit] at limited
    omega
  within := by
    intro stamp start same
    have lower := @localBytes_of_plain start stamp _ plain
    rw [same.localBytes] at lower
    exact Nat.le_trans lower within

/-- One row that fits, with changes without content. -/
theorem Affordable.put (booked : Booked overlay) (within : Within overlay)
    {entry : OverlayEntry} (small : entry.weight ≤ fileLimit)
    (fits : overlay.bytesWith entry ≤ overlay.config.quotaBytes) {touches : List Change}
    (plain : ∀ change ∈ touches, change.Plain)
    : Affordable overlay (.put entry :: touches) where
  small := by
    intro change member
    cases List.mem_cons.mp member with
    | inl here =>
        rw [here]
        exact small
    | inr later =>
        rw [(plain change later).weight]
        exact Nat.zero_le _
  room := by
    intro limited
    rw [List.map_cons, List.sum_cons, weights_of_plain plain, ← booked.exact limited]
    rw [Within] at within
    simp only [Change.weight]
    rw [fileLimit] at limited small
    omega
  within := by
    intro stamp start same
    apply Nat.le_trans (localBytes_of_plain plain)
    have alike : start.bytesWith entry = overlay.bytesWith entry := by
      simp only [Overlay.bytesWith, Overlay.bytesWithout, same.entries, same.localBytes]
    exact Nat.le_trans (Nat.le_of_eq alike) fits

/-- A transaction that was afforded keeps the account and the quota. -/
theorem Affordable.committed (booked : Booked overlay) {transaction : Transaction}
    (same : SameAccounts overlay transaction.prepared)
    (affordable : Affordable overlay transaction.changes)
    : Booked transaction.committed
      ∧ Within transaction.committed
      ∧ transaction.committed.config = overlay.config := by
  have begun : SameAccounts overlay transaction.begun := same.trans ⟨rfl, rfl, rfl⟩
  obtain ⟨rows, -, -, config⟩ :=
    Overlay.applyChanges_fields transaction.stamp transaction.changes transaction.begun
  have configured : transaction.committed.config = overlay.config := config.trans begun.config
  refine ⟨⟨?_, ?_⟩, ?_, configured⟩
  · intro path entry found
    change (transaction.changes.foldl _ transaction.begun).entries[path]? = some entry at found
    rw [rows, begun.entries] at found
    rcases overwrite_cases found with ⟨put, -⟩ | ⟨kept, -⟩
    · exact affordable.small _ put
    · exact booked.small path entry kept
  · intro limited
    rw [configured] at limited
    apply Exact.applyChanges (begun.exact (booked.exact limited))
    rw [begun.rowBytes]
    exact affordable.room limited
  · rw [Within, configured]
    exact affordable.within _ _ begun

/-- An operation that is afforded keeps the account and the quota, whether its journal succeeds
or not.
-/
theorem Attempt.Affords.perform {α : Type} {state : Durable} {attempt : Attempt α}
    (affords : attempt.Affords state.memory) (booked : Booked state.memory)
    (within : Within state.memory) (succeeds : Bool)
    : Booked (state.perform attempt succeeds).2.memory
      ∧ Within (state.perform attempt succeeds).2.memory
      ∧ (state.perform attempt succeeds).2.memory.config = state.memory.config := by
  have alone {after : Overlay} (same : SameAccounts state.memory after)
      : Booked after ∧ Within after ∧ after.config = state.memory.config :=
    ⟨booked.congr same, within.congr same, same.config⟩
  cases attempt with
  | refused condition after => exact alone affords
  | done answer after => exact alone affords
  | writes answer transaction =>
      obtain ⟨same, affordable⟩ := affords
      cases succeeds with
      | true => exact affordable.committed booked same
      | false => exact alone (same.trans ⟨rfl, rfl, rfl⟩)

end Costs

-- The operations

section Operations

variable {overlay : Overlay}

theorem parentTouch_accounts (overlay : Overlay) (path : BytePath) (parent : Parent)
    (now : Timestamp)
    : SameAccounts overlay (overlay.parentTouch path parent now).2 := by
  unfold Overlay.parentTouch
  by_cases root : parentOf path = []
  · simp only [root, if_true]
    exact .refl overlay
  · simp only [root, if_false]
    cases resolve overlay.entries (parentOf path) with
    | absent => exact .refl overlay
    | overlay row =>
        simp only
        split
        · exact .refl overlay
        · exact .refl overlay
    | base =>
        cases parent.base with
        | none => exact .refl overlay
        | some facts =>
            simp only
            cases (OverlayKind.fromEntryKind facts.kind).filter OverlayKind.isDir with
            | none => exact .refl overlay
            | some kind => exact ⟨rfl, rfl, rfl⟩

theorem transactionRename_accounts (overlay : Overlay) (source target : BytePath)
    (sourceParent targetParent : Parent) (changes : List Change) (release : List Nat)
    (now : Timestamp)
    : SameAccounts overlay
        (overlay.transactionRename source target sourceParent targetParent changes release
          now).prepared := by
  have first := parentTouch_accounts overlay source sourceParent now
  simp only [Overlay.transactionRename]
  split
  · exact first
  · exact first.trans (parentTouch_accounts _ target targetParent now)

variable (tidy : Tidy none overlay) (booked : Booked overlay) (within : Within overlay)

include tidy booked within

omit booked within in
theorem Affords.touching {α : Type} {prepared : Overlay} {changes : List Change}
    (same : SameAccounts overlay prepared) (rows : SameRows overlay prepared)
    (affordable
      : ∀ touches : List Change,
          (∀ change ∈ touches, change.Plain) → Affordable overlay (changes ++ touches))
    (answer : α) (path : BytePath) (parent : Parent) (release : List Nat) (now : Timestamp)
    : (Attempt.writes answer
        (prepared.transactionTouching path parent changes release now)).Affords overlay := by
  obtain ⟨-, -, touches, written, plain⟩ :=
    transactionTouching_eq (tidy.congr rows) path parent changes release now
  refine ⟨same.trans (parentTouch_accounts prepared path parent now), ?_⟩
  rw [written]
  exact affordable touches plain

theorem attemptCreateFile_affords (contentIo : Bool) (host : Timestamp) (path : BytePath)
    (base : Option BaseFacts) (parent : Parent) (ino : Nat) (executable : Bool)
    : (overlay.attemptCreateFile contentIo host path base parent ino executable).Affords
        overlay := by
  unfold Overlay.attemptCreateFile
  split
  · exact .refl overlay
  · simp only
    split
    · exact ⟨rfl, rfl, rfl⟩
    · apply Affords.touching tidy
      · exact ⟨rfl, rfl, rfl⟩
      · exact ⟨rfl, rfl, Nat.le_succ _⟩
      · intro touches plain
        apply Affordable.put booked within _ _ plain
        · exact Nat.zero_le _
        · apply Nat.le_trans (bytesWith_le overlay _)
          exact Nat.le_trans (Nat.sub_le _ _) within

theorem attemptMkdir_affords (host : Timestamp) (path : BytePath) (base : Option BaseFacts)
    (parent : Parent) (ino : Nat)
    : (overlay.attemptMkdir host path base parent ino).Affords overlay := by
  unfold Overlay.attemptMkdir
  split
  · exact .refl overlay
  · apply Affords.touching tidy
    · exact ⟨rfl, rfl, rfl⟩
    · exact ⟨rfl, rfl, Nat.le_refl _⟩
    · intro touches plain
      apply Affordable.plain booked within
      simpa [Change.Plain, Change.write, Content.localId] using plain

theorem attemptSymlink_affords (host : Timestamp) (path : BytePath) (target : Bytes)
    (base : Option BaseFacts) (parent : Parent) (ino : Nat)
    : (overlay.attemptSymlink host path target base parent ino).Affords overlay := by
  unfold Overlay.attemptSymlink
  split
  · exact .refl overlay
  · apply Affords.touching tidy
    · exact ⟨rfl, rfl, rfl⟩
    · exact ⟨rfl, rfl, Nat.le_refl _⟩
    · intro touches plain
      apply Affordable.plain booked within
      simpa [Change.Plain, Change.write, Content.localId] using plain

omit tidy in
theorem attemptMaterialize_affords {contentIo : Bool} (host : Timestamp) (path : BytePath)
    (base : Option BaseFacts) (ino : Nat) {source : Option Bytes}
    (stored : contentIo = true → (source.getD []).length ≤ fileLimit)
    : (overlay.attemptMaterialize contentIo host path base ino source).Affords overlay := by
  unfold Overlay.attemptMaterialize
  split
  · exact .refl overlay
  · exact .refl overlay
  · simp only
    split
    · exact ⟨rfl, rfl, rfl⟩
    · rename_i admitted
      split
      · exact ⟨rfl, rfl, rfl⟩
      · rename_i io
        have roomy : Roomy overlay (source.getD []).length := by
          split at admitted
          · exact checkQuota_ok.mp (checks_ok.mp admitted).2
          · exact checkQuota_ok.mp admitted
        have small := stored (by simpa using io)
        refine ⟨⟨rfl, rfl, rfl⟩, ?_⟩
        apply Affordable.put booked within _ _ (by simp)
        · exact small
        · exact booked.bytesWith_le roomy within small (Nat.le_add_left _ _)

theorem attemptTruncate_affords {contentIo : Bool} (host : Timestamp) (path : BytePath)
    {size : Nat} (reaches : contentIo = true → size ≤ fileLimit)
    : (overlay.attemptTruncate contentIo host path size).Affords overlay := by
  unfold Overlay.attemptTruncate
  split
  · exact .refl overlay
  · rename_i entry found
    have found := (Option.filter_eq_some_iff.mp found).1
    split
    · exact .refl overlay
    · split
      · exact .refl overlay
      · rename_i id content
        split
        · exact .refl overlay
        · rename_i admitted
          split
          · exact .refl overlay
          · rename_i file opened
            have io := (Option.filter_eq_some_iff.mp opened).2
            have weighs := heldAt_of_row found
            have own := tidy.keyed path entry found
            have roomy : Roomy overlay (size - entry.size) := by
              split at admitted
              · exact checkQuota_ok.mp admitted
              · rename_i shrinks
                rw [Roomy, saturatingAdd, Nat.sub_eq_zero_of_le (by omega)]
                rw [Within] at within
                omega
            refine ⟨⟨rfl, rfl, rfl⟩, Affordable.put booked within ?_ ?_ (by simp)⟩
            · simp only [OverlayEntry.weight, content, Option.isSome_some, if_true]
              exact reaches io
            · apply booked.bytesWith_le roomy within
              · simp only [OverlayEntry.weight, content, Option.isSome_some, if_true]
                exact reaches io
              · simp only [OverlayEntry.weight, content, Option.isSome_some, if_true, own]
                rw [weighs, OverlayEntry.weight, content, Option.isSome_some, if_pos rfl]
                omega

theorem attemptRemove_affords (host later : Timestamp) (path : BytePath)
    (base : Option BaseFacts) (parent : Parent) (expectDir mergedIsEmpty : Bool)
    : (overlay.attemptRemove host later path base parent expectDir mergedIsEmpty).Affords
        overlay := by
  unfold Overlay.attemptRemove
  split
  · exact .refl overlay
  · split
    · exact .refl overlay
    · split
      · exact .refl overlay
      · split
        · exact .refl overlay
        · split
          · exact .refl overlay
          · simp only
            generalize hides : ((overlay.entries[path]?.bind OverlayEntry.base).or base).isSome
              = hidden
            have timed
                : Poised overlay
                      (if hidden = true then overlay.nextTime host
                        else (overlay.clock, overlay)).2
                  ∧ SameAccounts overlay
                      (if hidden = true then overlay.nextTime host
                        else (overlay.clock, overlay)).2 := by
              split
              · exact ⟨nextTime_poised overlay host, rfl, rfl, rfl⟩
              · exact ⟨.refl overlay, .refl overlay⟩
            apply Affords.touching tidy
            · exact timed.2.trans ⟨rfl, rfl, rfl⟩
            · exact (timed.1.trans (nextTime_poised _ _)).toSameRows
            · intro touches plain
              apply Affordable.plain booked within
              intro change member
              rcases List.mem_append.mp member with first | touch
              · rcases List.mem_append.mp first with deleted | last
                · obtain ⟨victim, -, rfl⟩ := List.mem_map.mp deleted
                  intro entry written
                  cases written
                · rw [List.mem_singleton.mp last]
                  exact departure_plain _ _ _ _
              · exact plain change touch

theorem attemptRename_affords (host : Timestamp) {source target : BytePath} (sourceIno : Nat)
    (sourceBase : Option BaseFacts) {targetBase : Option BaseFacts}
    (sourceParent targetParent : Parent) (descendants : List BaseDescendant)
    {targetMergedIsEmpty : Bool} (noReplace : Bool)
    (around : Around overlay source target targetBase targetMergedIsEmpty)
    : (overlay.attemptRename host source sourceIno sourceBase sourceParent target targetBase
        targetParent descendants targetMergedIsEmpty noReplace).Affords overlay := by
  refine attemptRename_cases (fun _ => .refl overlay) (fun _ _ _ => ⟨rfl, rfl, rfl⟩)
    (.refl overlay) ?_
  intro _ nonroot targetNonroot outside admitted moved movers arrived n brings
  have inside := around.refused admitted
  obtain ⟨grows, moving⟩ := brings.moving
  have settled := renameReady_poised grows host
  obtain ⟨-, -, touches, written, plain⟩ :=
    transactionRename_eq (tidy.congr settled.toSameRows) source target sourceParent
      targetParent
      (moveChanges overlay source target (overlay.nextTime host).1 moved movers arrived _)
      (renameRelease overlay target) (overlay.nextTime host).1
  have ready : SameAccounts overlay (renameReady overlay host n) := ⟨rfl, rfl, rfl⟩
  refine ⟨ready.trans (transactionRename_accounts _ _ _ _ _ _ _ _), ?_⟩
  rw [written]
  refine ⟨?_, ?_, ?_⟩
  · intro change member
    obtain ⟨path, light⟩ := weight_of_mem_moveChanges tidy moving nonroot plain member
    exact Nat.le_trans light (booked.heldAt_le path)
  · intro limited
    have light := @weights_moveChanges overlay source target _ _
      (overlay.nextTime host).1 _ _ _ tidy moving nonroot plain
    have exact_ := booked.exact limited
    rw [Exact] at exact_
    rw [Within] at within
    rw [fileLimit] at limited
    omega
  · intro stamp start same
    apply localBytes_moveChanges tidy moving nonroot targetNonroot outside inside plain
      same.entries
    · exact booked.heldAt_within within
    · rw [same.localBytes]
      exact within

end Operations

-- Writing

/-- `&data[..count]`, which panics behind the end. -/
def slice (data : Bytes) (count : Nat) : Option Bytes :=
  if count ≤ data.length then some (data.take count) else none

/-- What the host makes of a `pwrite` of some data at an offset: the number of bytes that land,
unless it fails.
-/
abbrev Pwrite := Nat → Bytes → Option Nat

/-- `pwrite(2)`: a write may be short, but not empty where there is something to write, and no
file reaches beyond the limit.
-/
structure Pwrite.Lawful (pwrite : Pwrite) : Prop where
  short : ∀ offset data written, pwrite offset data = some written → written ≤ data.length
  some_
    : ∀ offset data written, pwrite offset data = some written → data ≠ [] → 0 < written
  reach
    : ∀ offset data written, pwrite offset data = some written → offset + written ≤ fileLimit

namespace Overlay

/-- The part of a write the quota admits, in the arithmetic of the code; `none` is a panic. -/
def admission (overlay : Overlay) (current offset : Nat) (data : Bytes)
    : Option (Except Condition Bytes) :=
  let growth := saturatingAdd offset data.length - current
  let headroom := overlay.config.quotaBytes - overlay.localBytes
  if growth > headroom then do
    let excess ← checkedSub growth headroom
    let allowed := data.length - excess
    if allowed = 0 then some (.error .quotaExceeded)
    else
      let admitted ← slice data allowed
      some (.ok admitted)
  else some (.ok data)

/-- Write into an already-materialized file, on a host whose writes may fail or be short. -/
def writeAtOn (overlay : Overlay) (pwrite : Pwrite) (host : Timestamp) (path : BytePath)
    (offset : Nat) (data : Bytes)
    : Option (Except Condition Nat × Overlay) :=
  match overlay.entries[path]?.filter (·.present) with
  | none => some (.error .noEntry, overlay)
  | some entry =>
      match entry.content.localId with
      | none => some (.error .io, overlay)
      | some id => do
          let admitted ← overlay.admission entry.size offset data
          match admitted with
          | .error refusal => some (.error refusal, overlay)
          | .ok data =>
              match overlay.files[id]? with
              | none => some (.error .io, overlay)
              | some file =>
                  match pwrite offset data with
                  | none => some (.error .io, overlay)
                  | some written =>
                      let overlay :=
                        {
                          overlay with
                          files :=
                            overlay.files.insert id
                              (writeBytes file offset (data.take written))
                        }
                      let size := max entry.size (saturatingAdd offset written)
                      some (.ok written, overlay.noteWritten host entry size none)

/-- Write through an open descriptor, on a host whose writes may fail or be short. -/
def writeContentOn (overlay : Overlay) (pwrite : Pwrite) (host : Timestamp)
    (contentId offset : Nat) (data : Bytes)
    : Option (Except Condition Nat × Overlay) := do
  let entry := overlay.byContent[contentId]?.bind (fun path => overlay.entries[path]?)
  let admitted ← overlay.admission (entry.elim 0 OverlayEntry.size) offset data
  match admitted with
  | .error refusal => some (.error refusal, overlay)
  | .ok data =>
      match pwrite offset data with
      | none => some (.error .io, overlay)
      | some written =>
          let overlay :=
            {
              overlay with
              files :=
                overlay.files.modify contentId (writeBytes · offset (data.take written))
            }
          match entry with
          | none => some (.ok written, overlay)
          | some entry =>
              let size := max entry.size (saturatingAdd offset written)
              some (.ok written, overlay.noteWritten host entry size none)

/-- What a truncation asks the quota for; `none` is a panic. -/
def truncateGrowth (entry : OverlayEntry) (size : Nat) : Option Nat :=
  if size > entry.size then checkedSub size entry.size else some 0

end Overlay

section Writing

variable {overlay : Overlay}

theorem admission_eq (overlay : Overlay) (current offset : Nat) (data : Bytes)
    : overlay.admission current offset data = some (overlay.admitWrite current offset data) := by
  simp only [Overlay.admission, Overlay.admitWrite]
  split
  · rename_i excess
    rw [checkedSub_of_le (Nat.le_of_lt excess)]
    simp only [Option.bind_eq_bind, Option.bind_some, slice, Nat.sub_le, if_true]
    split
    · rfl
    · rfl
  · rfl

theorem truncateGrowth_isSome (entry : OverlayEntry) (size : Nat)
    : (Overlay.truncateGrowth entry size).isSome = true := by
  rw [Overlay.truncateGrowth]
  split
  · rename_i grows
    rw [checkedSub_of_le (Nat.le_of_lt grows)]
    rfl
  · rfl

/-- What is admitted is a part of the data, all of it where it fits, and something where there is
something to write; landing it grows the file by no more than the headroom.
-/
theorem admitWrite_ok {current offset : Nat} {data handed : Bytes}
    (admitted : overlay.admitWrite current offset data = .ok handed)
    : handed <+: data
      ∧ (data ≠ [] → handed ≠ [])
      ∧ (saturatingAdd offset data.length - current
            ≤ overlay.config.quotaBytes - overlay.localBytes
          → handed = data)
      ∧ (data.length ≤ fileLimit → ∀ written ≤ handed.length, offset + written ≤ fileLimit
          → offset + written - current ≤ overlay.config.quotaBytes - overlay.localBytes) := by
  simp only [Overlay.admitWrite] at admitted
  split at admitted
  · rename_i excess
    split at admitted
    · cases admitted
    · rename_i some_
      cases admitted
      refine ⟨List.take_prefix _ _, ?_, fun fits => absurd fits (by omega), ?_⟩
      · intro _ empty
        have length := congrArg List.length empty
        rw [List.length_take, List.length_nil] at length
        omega
      · intro bounded written short reaches
        rw [List.length_take] at short
        rw [saturatingAdd] at short some_ excess
        rw [fileLimit] at bounded reaches
        omega
  · rename_i fits
    cases admitted
    refine ⟨List.prefix_refl _, id, fun _ => rfl, ?_⟩
    intro bounded written short reaches
    rw [saturatingAdd] at fits
    rw [fileLimit] at bounded reaches
    omega

/-- A write that landed: a part of the data, not empty where there is something to write and all
of it where it fits and the host takes it, stands in the file at the offset; the row has grown to
it, and the local bytes stay within the quota, or where they were.
-/
structure Wrote (pwrite : Pwrite) (overlay after : Overlay) (entry : OverlayEntry) (id : Nat)
    (file : Bytes) (offset : Nat) (data : Bytes) (written : Nat)
    : Prop where
  some_ : data ≠ [] → 0 < written
  short : written ≤ data.length
  handed
    : ∃ handed,
        handed <+: data
        ∧ pwrite offset handed = some written
        ∧ (saturatingAdd offset data.length - entry.size
              ≤ overlay.config.quotaBytes - overlay.localBytes
            → handed = data)
  content
    : ∀ other,
        after.files[other]?
        = if other = id then some (writeBytes file offset (data.take written))
          else overlay.files[other]?
  row
    : ∃ mtime ctime,
        after.entries
        = overlay.entries.insert entry.path
            { entry with size := max entry.size (offset + written), mtime, ctime }
  bytes : after.localBytes ≤ max overlay.localBytes overlay.config.quotaBytes

/-- What a write through a row comes to: nothing has changed, or some of the data landed. -/
def Landed (pwrite : Pwrite) (overlay after : Overlay) (path : BytePath) (offset : Nat)
    (data : Bytes)
    : Except Condition Nat → Prop
  | .error _ => after = overlay
  | .ok written =>
      ∃ entry id file,
        overlay.entries[path]? = some entry
        ∧ entry.content = .local id
        ∧ overlay.files[id]? = some file
        ∧ Wrote pwrite overlay after entry id file offset data written

/-- A row noted as written takes what it grew by. -/
theorem noteWritten_localBytes (booked : Booked overlay) {path : BytePath}
    {entry : OverlayEntry} {id size : Nat} (found : overlay.entries[path]? = some entry)
    (own : entry.path = path) (content : entry.content = .local id)
    (bounded : size ≤ fileLimit)
    (grows : size - entry.size ≤ overlay.config.quotaBytes - overlay.localBytes)
    (host : Timestamp)
    : (overlay.noteWritten host entry (max entry.size size) none).localBytes
      ≤ max overlay.localBytes overlay.config.quotaBytes := by
  have small := booked.small path entry found
  have there := booked.heldAt_le_localBytes path
  have weighs := heldAt_of_row found
  have local_ : entry.content.localId.isSome = true := by rw [content]; rfl
  rw [OverlayEntry.weight, if_pos local_] at small weighs
  let updated : OverlayEntry :=
    {
      entry with
      size := max entry.size size
      mtime := (overlay.nextTime host).1
      ctime := (overlay.nextTime host).1
    }
  have after := bytesWith_le overlay updated
  have weight : updated.weight = max entry.size size := if_pos local_
  rw [weight, show updated.path = path from own, weighs] at after
  rw [weighs] at there
  change overlay.bytesWith updated ≤ _
  omega

/-- A row noted as written keeps the account. -/
theorem Booked.noteWritten (booked : Booked overlay) (within : Within overlay)
    {path : BytePath} {entry : OverlayEntry} {id size : Nat}
    (found : overlay.entries[path]? = some entry) (own : entry.path = path)
    (content : entry.content = .local id) (bounded : size ≤ fileLimit) (host : Timestamp)
    : Booked (overlay.noteWritten host entry (max entry.size size) none) := by
  have small := booked.small path entry found
  have weighs := heldAt_of_row found
  have local_ : entry.content.localId.isSome = true := by rw [content]; rfl
  rw [OverlayEntry.weight, if_pos local_] at small weighs
  let updated : OverlayEntry :=
    {
      entry with
      size := max entry.size size
      mtime := (overlay.nextTime host).1
      ctime := (overlay.nextTime host).1
    }
  have weight : updated.weight = max entry.size size := if_pos local_
  have rows
      : (overlay.noteWritten host entry (max entry.size size) none).entries
        = overlay.entries.insert updated.path updated :=
    rfl
  refine ⟨?_, ?_⟩
  · intro other row there
    rw [rows, ExtTreeMap.getElem?_insert] at there
    split at there
    · cases there
      rw [weight]
      exact Nat.max_le.mpr ⟨small, bounded⟩
    · exact booked.small other row there
  · intro limited
    change overlay.config.quotaBytes ≤ fileLimit at limited
    have exact_ := booked.exact limited
    have here := heldAt_le_rowBytes overlay path
    have taken : total OverlayEntry.weight (overlay.entries.insert updated.path updated)
        + overlay.heldAt updated.path = overlay.rowBytes + updated.weight :=
      total_insert updated.path updated
    have bytes : overlay.bytesWith updated
        = overlay.localBytes - overlay.heldAt updated.path + updated.weight := by
      apply bytesWith_eq
      rw [weight]
      rw [Within] at within
      rw [fileLimit] at limited bounded small
      omega
    rw [Exact] at exact_ ⊢
    change overlay.bytesWith updated
      = total OverlayEntry.weight (overlay.entries.insert updated.path updated)
    rw [show updated.path = path from own] at bytes taken
    rw [show updated.path = path from own]
    omega

theorem Wrote.of_pwrite {pwrite : Pwrite} (lawful : pwrite.Lawful)
    (booked : Booked overlay) {path : BytePath} {entry : OverlayEntry}
    {id offset written : Nat} {file data handed : Bytes} {files : ExtTreeMap Nat Bytes compare}
    (found : overlay.entries[path]? = some entry) (own : entry.path = path)
    (content : entry.content = .local id) (bounded : data.length ≤ fileLimit)
    (admitted : overlay.admitWrite entry.size offset data = .ok handed)
    (landed : pwrite offset handed = some written)
    (stored
      : ∀ other,
          files[other]?
          = if other = id then some (writeBytes file offset (handed.take written))
            else overlay.files[other]?)
    (host : Timestamp)
    : Wrote pwrite overlay
        ({ overlay with files }.noteWritten host entry
          (max entry.size (saturatingAdd offset written)) none)
        entry id file offset data written := by
  obtain ⟨part, some_, whole, grows⟩ := admitWrite_ok admitted
  have short := lawful.short offset handed written landed
  have reach := lawful.reach offset handed written landed
  have exact_ : saturatingAdd offset written = offset + written := by
    rw [saturatingAdd]
    rw [fileLimit] at reach
    omega
  have taken : handed.take written = data.take written := by
    obtain ⟨rest, rfl⟩ := part
    rw [List.take_append_of_le_length short]
  rw [exact_]
  refine ⟨?_, ?_, ⟨handed, part, landed, whole⟩, ?_, ⟨_, _, rfl⟩, ?_⟩
  · exact fun full => lawful.some_ offset handed written landed (some_ full)
  · exact Nat.le_trans short part.length_le
  · intro other
    rw [← taken]
    exact stored other
  · have changed : Booked { overlay with files } := booked.congr ⟨rfl, rfl, rfl⟩
    exact noteWritten_localBytes changed found own content reach
      (grows bounded written short reach) host

/-- A write through a path is refused, or lands in the file of the path's row. -/
theorem writeAtOn_cases (overlay : Overlay) (pwrite : Pwrite) (host : Timestamp)
    (path : BytePath) (offset : Nat) (data : Bytes)
    : (∃ condition,
        overlay.writeAtOn pwrite host path offset data = some (.error condition, overlay))
      ∨ ∃ entry id file handed written,
          overlay.entries[path]? = some entry
          ∧ entry.content = .local id
          ∧ overlay.files[id]? = some file
          ∧ overlay.admitWrite entry.size offset data = .ok handed
          ∧ pwrite offset handed = some written
          ∧ overlay.writeAtOn pwrite host path offset data
            = some
                (.ok written,
                  {
                    overlay with
                    files :=
                      overlay.files.insert id (writeBytes file offset (handed.take written))
                  }.noteWritten host entry (max entry.size (saturatingAdd offset written))
                    none) := by
  unfold Overlay.writeAtOn
  split
  · exact .inl ⟨_, rfl⟩
  · rename_i entry present
    split
    · exact .inl ⟨_, rfl⟩
    · rename_i id content
      rw [admission_eq]
      simp only [Option.bind_eq_bind, Option.bind_some]
      split
      · exact .inl ⟨_, rfl⟩
      · rename_i handed admitted
        split
        · exact .inl ⟨_, rfl⟩
        · rename_i file opened
          split
          · exact .inl ⟨_, rfl⟩
          · rename_i written landed
            exact .inr ⟨entry, id, file, handed, written,
              (Option.filter_eq_some_iff.mp present).1, localId_iff.mp content, opened, admitted,
              landed, rfl⟩

/-- A write through a descriptor is refused, lands in a file that no row names, or lands in the
file of a row.
-/
theorem writeContentOn_cases (overlay : Overlay) (pwrite : Pwrite) (host : Timestamp)
    (contentId offset : Nat) (data : Bytes)
    : (∃ condition,
        overlay.writeContentOn pwrite host contentId offset data
        = some (.error condition, overlay))
      ∨ (overlay.byContent[contentId]?.bind (fun path => overlay.entries[path]?) = none
          ∧ ∃ files written,
              overlay.writeContentOn pwrite host contentId offset data
              = some (.ok written, { overlay with files }))
      ∨ ∃ entry handed written,
          overlay.byContent[contentId]?.bind (fun path => overlay.entries[path]?) = some entry
          ∧ overlay.admitWrite entry.size offset data = .ok handed
          ∧ pwrite offset handed = some written
          ∧ overlay.writeContentOn pwrite host contentId offset data
            = some
                (.ok written,
                  {
                    overlay with
                    files :=
                      overlay.files.modify contentId
                        (writeBytes · offset (handed.take written))
                  }.noteWritten host entry (max entry.size (saturatingAdd offset written))
                    none) := by
  simp only [Overlay.writeContentOn, admission_eq, Option.bind_eq_bind, Option.bind_some]
  cases overlay.byContent[contentId]?.bind (fun path => overlay.entries[path]?) with
  | none =>
      simp only
      split
      · exact .inl ⟨_, rfl⟩
      · split
        · exact .inl ⟨_, rfl⟩
        · exact .inr (.inl ⟨trivial, _, _, rfl⟩)
  | some entry =>
      simp only [Option.elim_some]
      split
      · exact .inl ⟨_, rfl⟩
      · rename_i handed admitted
        split
        · exact .inl ⟨_, rfl⟩
        · rename_i written landed
          exact .inr (.inr ⟨entry, handed, written, rfl, admitted, landed, rfl⟩)

theorem writeAtOn_landed {pwrite : Pwrite} (lawful : pwrite.Lawful) (tidy : Tidy none overlay)
    (booked : Booked overlay) (host : Timestamp) (path : BytePath) (offset : Nat)
    {data : Bytes} (bounded : data.length ≤ fileLimit)
    : ∃ answer after,
        overlay.writeAtOn pwrite host path offset data = some (answer, after)
        ∧ Landed pwrite overlay after path offset data answer := by
  rcases writeAtOn_cases overlay pwrite host path offset data with
    ⟨condition, refused⟩
    | ⟨entry, id, file, handed, written, found, content, opened, admitted, landed, wrote⟩
  · exact ⟨_, _, refused, rfl⟩
  · refine ⟨_, _, wrote, entry, id, file, found, content, opened, ?_⟩
    apply Wrote.of_pwrite lawful booked found (tidy.keyed path entry found) content bounded
      admitted landed
    intro other
    rw [ExtTreeMap.getElem?_insert]
    by_cases same : other = id
    · simp [same]
    · simp [same, Ne.symm same]

/-- A write through a descriptor of a named file leaves everything as it was, or lands. -/
theorem writeContentOn_landed {pwrite : Pwrite} (lawful : pwrite.Lawful)
    (tidy : Tidy none overlay) (booked : Booked overlay) (host : Timestamp)
    {path : BytePath} {contentId : Nat} {file : Bytes}
    (named : overlay.byContent[contentId]? = some path)
    (opened : overlay.files[contentId]? = some file) (offset : Nat) {data : Bytes}
    (bounded : data.length ≤ fileLimit)
    : ∃ answer after,
        overlay.writeContentOn pwrite host contentId offset data = some (answer, after)
        ∧ Landed pwrite overlay after path offset data answer := by
  obtain ⟨-, row, there, content⟩ := (tidy.exact contentId path).mp named
  rcases writeContentOn_cases overlay pwrite host contentId offset data with
    ⟨condition, refused⟩ | ⟨unnamed, -⟩ | ⟨entry, handed, written, found, admitted, landed, wrote⟩
  · exact ⟨_, _, refused, rfl⟩
  · rw [named, Option.bind_some, there] at unnamed
    cases unnamed
  · rw [named, Option.bind_some, there] at found
    cases found
    refine ⟨_, _, wrote, row, contentId, file, there, content, opened, ?_⟩
    apply Wrote.of_pwrite lawful booked there (tidy.keyed path row there) content bounded
      admitted landed
    intro other
    rw [ExtTreeMap.getElem?_modify]
    by_cases same : other = contentId
    · subst same
      simp [opened]
    · simp [same, Ne.symm same]

end Writing

-- Runs

/-- A mutation with what it meets. -/
structure Errand where
  mutation : Mutation
  weather : Weather
  pwrite : Pwrite

/-- One mutation on such a host; `none` is a panic. -/
def Durable.serve (state : Durable) (errand : Errand) : Option Durable :=
  match errand.mutation with
  | .writeAt path offset data =>
      (state.memory.writeAtOn errand.pwrite (errand.weather.clock 0) path offset data).map
        (fun result => { state with memory := result.2 })
  | .writeContent contentId offset data =>
      (state.memory.writeContentOn errand.pwrite (errand.weather.clock 0) contentId offset
        data).map (fun result => { state with memory := result.2 })
  | .truncate path size =>
      match state.memory.entries[path]? with
      | none => some (state.apply errand.weather errand.mutation).2
      | some entry =>
          (Overlay.truncateGrowth entry size).map (fun _ =>
            (state.apply errand.weather errand.mutation).2)
  | _ => some (state.apply errand.weather errand.mutation).2

/-- The state after a mutation that does not panic. -/
def Durable.served (state : Durable) (errand : Errand) : Durable :=
  (state.serve errand).getD state

/-- A creation, write, truncation, copy-up, rename or removal, with what the host and the caller
promise: no file beyond the limit, no buffer longer than memory holds, and no rename onto a
directory around its source that is said to be empty.
-/
def Errand.Allowed (state : Durable) (errand : Errand) : Prop :=
  match errand.mutation with
  | .createFile .. | .mkdir .. | .symlink .. | .remove .. => True
  | .materialize _ _ _ source =>
      errand.weather.contentIo = true → (source.getD []).length ≤ fileLimit
  | .truncate _ size => errand.weather.contentIo = true → size ≤ fileLimit
  | .writeAt _ _ data | .writeContent _ _ data =>
      data.length ≤ fileLimit ∧ errand.pwrite.Lawful
  | .rename source _ _ _ target targetBase _ _ targetMergedIsEmpty _ =>
      Around state.memory source target targetBase targetMergedIsEmpty
  | _ => False

/-- What every state of a run within the quota satisfies. -/
structure Thrifty (config : OverlayConfig) (state : Durable) : Prop where
  level : Level state
  booked : Booked state.memory
  within : Within state.memory
  config : state.memory.config = config

section Running

variable {state : Durable} {config : OverlayConfig}

/-- No mutation panics, whatever its offset and size. -/
theorem serve_isSome (state : Durable) (errand : Errand)
    : (state.serve errand).isSome = true := by
  unfold Durable.serve
  split
  · rename_i path offset data _
    rw [Option.isSome_map]
    rcases writeAtOn_cases state.memory errand.pwrite (errand.weather.clock 0) path offset data
      with ⟨condition, same⟩ | ⟨_, _, _, _, _, _, _, _, _, _, same⟩
    · rw [same]
      rfl
    · rw [same]
      rfl
  · rename_i contentId offset data _
    rw [Option.isSome_map]
    rcases writeContentOn_cases state.memory errand.pwrite (errand.weather.clock 0) contentId
      offset data with ⟨condition, same⟩ | ⟨-, _, _, same⟩ | ⟨_, _, _, _, _, _, same⟩
    · rw [same]
      rfl
    · rw [same]
      rfl
    · rw [same]
      rfl
  · split
    · rfl
    · rw [Option.isSome_map]
      exact truncateGrowth_isSome _ _
  · rfl

/-- A row noted as written within the quota keeps the books. -/
theorem Thrifty.noteWritten (thrifty : Thrifty config state) {pwrite : Pwrite}
    (lawful : pwrite.Lawful) {path : BytePath} {entry : OverlayEntry} {id offset written : Nat}
    {data handed : Bytes} (files : ExtTreeMap Nat Bytes compare)
    (found : state.memory.entries[path]? = some entry) (content : entry.content = .local id)
    (bounded : data.length ≤ fileLimit)
    (admitted : state.memory.admitWrite entry.size offset data = .ok handed)
    (landed : pwrite offset handed = some written) (host : Timestamp)
    : Thrifty config
        {
          state with
          memory :=
            { state.memory with files }.noteWritten host entry
              (max entry.size (saturatingAdd offset written)) none
        } := by
  obtain ⟨-, -, -, grows⟩ := admitWrite_ok admitted
  have short := lawful.short offset handed written landed
  have reach := lawful.reach offset handed written landed
  have exact_ : saturatingAdd offset written = offset + written := by
    rw [saturatingAdd]
    rw [fileLimit] at reach
    omega
  have own := thrifty.level.ledger.tidy.keyed path entry found
  have same : SameAccounts state.memory { state.memory with files } := ⟨rfl, rfl, rfl⟩
  have booked := thrifty.booked.congr same
  have within := thrifty.within.congr same
  refine ⟨(thrifty.level.files files).noteWritten found content host _ none, ?_, ?_,
    thrifty.config⟩
  · rw [exact_]
    exact booked.noteWritten within found own content reach host
  · rw [exact_]
    have bytes := noteWritten_localBytes booked found own content reach
      (grows bounded written short reach) host
    exact Nat.le_trans bytes (Nat.max_le.mpr ⟨within, Nat.le_refl _⟩)

theorem Thrifty.perform (thrifty : Thrifty config state) {weather : Weather}
    (mutation : Mutation) (whole : Whole state weather mutation) (other : mutation ≠ .sync)
    {α : Type} {attempt : Attempt α} {succeeds : Bool}
    (made : (state.apply weather mutation).2 = (state.perform attempt succeeds).2)
    (affords : attempt.Affords state.memory)
    : Thrifty config (state.apply weather mutation).2 := by
  have level := (thrifty.level.apply mutation whole other).1
  obtain ⟨booked, within, kept⟩ :=
    affords.perform thrifty.booked thrifty.within succeeds
  rw [made] at level ⊢
  exact ⟨level, booked, within, kept.trans thrifty.config⟩

/-- What a mutation of a run keeps. -/
theorem Thrifty.served (thrifty : Thrifty config state) {errand : Errand}
    (allowed : errand.Allowed state)
    : Thrifty config (state.served errand) := by
  obtain ⟨level, booked, within, -⟩ := id thrifty
  have tidy := level.ledger.tidy
  obtain ⟨mutation, weather, pwrite⟩ := errand
  cases mutation with
  | createFile path base parent ino executable =>
      exact thrifty.perform (.createFile path base parent ino executable) trivial (by simp) rfl
        (attemptCreateFile_affords tidy booked within ..)
  | mkdir path base parent ino =>
      exact thrifty.perform (.mkdir path base parent ino) trivial (by simp) rfl
        (attemptMkdir_affords tidy booked within ..)
  | symlink path target base parent ino =>
      exact thrifty.perform (.symlink path target base parent ino) trivial (by simp) rfl
        (attemptSymlink_affords tidy booked within ..)
  | materialize path base ino source =>
      exact thrifty.perform (.materialize path base ino source) trivial (by simp) rfl
        (attemptMaterialize_affords booked within _ _ _ _ allowed)
  | remove path base parent expectDir mergedIsEmpty =>
      exact thrifty.perform (.remove path base parent expectDir mergedIsEmpty) trivial (by simp) rfl
        (attemptRemove_affords tidy booked within ..)
  | rename source sourceIno sourceBase sourceParent target targetBase targetParent descendants
      empty noReplace =>
      exact thrifty.perform
        (.rename source sourceIno sourceBase sourceParent target targetBase targetParent
          descendants empty noReplace)
        trivial (by simp) rfl
        (attemptRename_affords tidy booked within _ _ _ _ _ _ _ allowed)
  | truncate path size =>
      have applied
          : state.served ⟨.truncate path size, weather, pwrite⟩
            = (state.apply weather (.truncate path size)).2 := by
        simp only [Durable.served, Durable.serve]
        cases state.memory.entries[path]? with
        | none => rfl
        | some entry =>
            obtain ⟨growth, some_⟩ :=
              Option.isSome_iff_exists.mp (truncateGrowth_isSome entry size)
            simp only [some_, Option.map_some, Option.getD_some]
      rw [applied]
      exact thrifty.perform (.truncate path size) trivial (by simp) rfl
        (attemptTruncate_affords tidy booked within _ _ allowed)
  | writeAt path offset data =>
      obtain ⟨bounded, lawful⟩ := allowed
      rw [Durable.served, Durable.serve]
      simp only
      rcases writeAtOn_cases state.memory pwrite (weather.clock 0) path offset data with
        ⟨condition, refused⟩
        | ⟨entry, id, file, handed, written, found, content, -, admitted, landed, wrote⟩
      · rw [refused]
        exact thrifty
      · rw [wrote]
        exact thrifty.noteWritten lawful _ found content bounded admitted landed _
  | writeContent contentId offset data =>
      obtain ⟨bounded, lawful⟩ := allowed
      rw [Durable.served, Durable.serve]
      simp only
      rcases writeContentOn_cases state.memory pwrite (weather.clock 0) contentId offset data with
        ⟨condition, refused⟩ | ⟨-, files, written, wrote⟩
        | ⟨entry, handed, written, found, admitted, landed, wrote⟩
      · rw [refused]
        exact thrifty
      · have same : SameAccounts state.memory { state.memory with files } := ⟨rfl, rfl, rfl⟩
        rw [wrote]
        exact ⟨level.files files, booked.congr same, within.congr same, thrifty.config⟩
      · obtain ⟨-, there, content⟩ := tidy.rowOf found
        rw [wrote]
        exact thrifty.noteWritten lawful _ there content bounded admitted landed _
  | _ => exact absurd allowed id

theorem Thrifty.created (recovery : Recovery)
    : Thrifty recovery.config (Durable.created recovery) := by
  have rows : (Durable.created recovery).memory.entries = ∅ := rfl
  have bytes : (Durable.created recovery).memory.localBytes = 0 := rfl
  refine ⟨Level.created recovery, ⟨?_, ?_⟩, ?_, rfl⟩
  · intro path entry found
    rw [rows] at found
    simp at found
  · intro _
    rw [Exact, bytes, Overlay.rowBytes, rows, total_empty]
  · rw [Within, bytes]
    exact Nat.zero_le _

theorem Thrifty.run {start : Durable} (thrifty : Thrifty config start) {errands : List Errand}
    (allowed
      : Along Durable.served (fun state errand => errand.Allowed state) start errands)
    : ∀ state ∈ states Durable.served start errands, Thrifty config state :=
  invariant (fun _ _ kept meets => kept.served meets) thrifty allowed

end Running

/-- A write through a path or a descriptor fails and changes nothing, or a part of the data lands
that is not empty where there is something to write; no mutation's arithmetic panics; and in every
run of creations, writes, truncations, copy-ups, renames and removals that begins within the
quota, the local bytes stay within it.
Witness: the booked bytes are the sum of the rows, or the quota is beyond what a file holds.
-/
theorem quota_kept
    : (∀ (overlay : Overlay) (pwrite : Pwrite) (host : Timestamp) (path : BytePath)
          (offset : Nat) (data : Bytes),
        pwrite.Lawful → Tidy none overlay → Booked overlay → data.length ≤ fileLimit
        → (∃ answer after,
              overlay.writeAtOn pwrite host path offset data = some (answer, after)
              ∧ Landed pwrite overlay after path offset data answer)
          ∧ ∀ contentId file,
              overlay.byContent[contentId]? = some path
              → overlay.files[contentId]? = some file
              → ∃ answer after,
                  overlay.writeContentOn pwrite host contentId offset data = some (answer, after)
                  ∧ Landed pwrite overlay after path offset data answer)
      ∧ (∀ (state : Durable) (errand : Errand), (state.serve errand).isSome = true)
      ∧ ∀ (start : Durable) (errands : List Errand),
          Thrifty start.memory.config start
          → Along Durable.served (fun state errand => errand.Allowed state) start errands
          → ∀ state ∈ states Durable.served start errands,
              state.memory.localBytes ≤ start.memory.config.quotaBytes := by
  refine ⟨?_, serve_isSome, ?_⟩
  · intro overlay pwrite host path offset data lawful tidy booked bounded
    refine ⟨writeAtOn_landed lawful tidy booked host path offset bounded, ?_⟩
    intro contentId file named opened
    exact writeContentOn_landed lawful tidy booked host named opened offset bounded
  · intro start errands thrifty allowed state member
    have kept := thrifty.run allowed state member
    have within := kept.within
    rw [Within, kept.config] at within
    exact within

/-- A host that writes everything it is handed, up to the limit. -/
def wholePwrite : Pwrite := fun offset data =>
  if offset + data.length ≤ fileLimit then some data.length else none

theorem wholePwrite_lawful : wholePwrite.Lawful where
  short := by
    intro offset data written landed
    rw [wholePwrite] at landed
    split at landed
    · cases landed
      exact Nat.le_refl _
    · cases landed
  some_ := by
    intro offset data written landed full
    rw [wholePwrite] at landed
    split at landed
    · cases landed
      exact List.length_pos_iff.mpr full
    · cases landed
  reach := by
    intro offset data written landed
    rw [wholePwrite] at landed
    split at landed
    · rename_i within
      cases landed
      exact within
    · cases landed

/-- A file is made, written and cut. -/
def sampleErrands : List Errand :=
  [⟨.createFile [102] none ⟨0, none⟩ 0 false, fairWeather, wholePwrite⟩,
    ⟨.writeAt [102] 0 [104, 105], fairWeather, wholePwrite⟩,
    ⟨.truncate [102] 1, fairWeather, wholePwrite⟩]

theorem sampleErrands_within
    : ∀ state ∈ states Durable.served (Durable.created sampleRecovery) sampleErrands,
        state.memory.localBytes ≤ 1024 := by
  apply quota_kept.2.2 (Durable.created sampleRecovery) sampleErrands
    (Thrifty.created sampleRecovery)
  exact ⟨trivial, ⟨by decide, wholePwrite_lawful⟩, fun _ => by decide, trivial⟩

/-- Writing no bytes succeeds without any that landed. -/
theorem empty_write_succeeds
    : ¬∀ (overlay : Overlay) (pwrite : Pwrite) (host : Timestamp) (path : BytePath)
          (offset : Nat) (data : Bytes),
        pwrite.Lawful → Tidy none overlay → Booked overlay → data.length ≤ fileLimit
        → ∃ answer after,
            overlay.writeAtOn pwrite host path offset data = some (answer, after)
            ∧ (answer.toOption = none ∧ after = overlay
              ∨ ∃ written, answer.toOption = some written ∧ 0 < written) := by
  intro claim
  have allowed
      : Errand.Allowed (Durable.created sampleRecovery)
          ⟨.createFile [102] none ⟨0, none⟩ 0 false, fairWeather, wholePwrite⟩ :=
    trivial
  have thrifty := (Thrifty.created sampleRecovery).served allowed
  obtain ⟨answer, after, wrote, outcome⟩ := claim _ wholePwrite ⟨0, 0⟩ [102] 0 []
    wholePwrite_lawful thrifty.level.ledger.tidy thrifty.booked (by decide)
  have zero
      : (((Durable.created sampleRecovery).served
            ⟨.createFile [102] none ⟨0, none⟩ 0 false, fairWeather, wholePwrite⟩).memory.writeAtOn
          wholePwrite ⟨0, 0⟩ [102] 0 []).map (fun result => result.1.toOption)
        = some (some 0) := by
    decide
  rw [wrote] at zero
  rcases outcome with ⟨refused, -⟩ | ⟨written, landed, positive⟩
  · simp [refused] at zero
  · simp [landed] at zero
    omega

end Gfs.Overlay
