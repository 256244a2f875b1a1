import Gfs.Overlay.Agreement

/-! What an overlay has in stock. Every content id a row names has its file, every inode number
a row carries is one the overlay will not issue, and an operation keeps it so: it publishes
content before the row that names it, and removes a file only after the last row that named it.
-/

namespace Gfs.Overlay

open Gfs.Lib.Nesting
open Gfs.Lib.Overwrites
open Gfs.Types
open Std (ExtTreeMap ExtTreeSet)

-- Stock

/-- A number the overlay will not issue: a caller's own, below its range, or one it has issued
before.
-/
def Known (nextIno ino : Nat) : Prop :=
  ino < overlayInoBase ∨ ino < nextIno

/-- The rows are tidy, their numbers known and their files there. -/
structure Stock (overlay : Overlay) : Prop where
  tidy : Tidy none overlay
  numbered
    : ∀ (path : BytePath) (entry : OverlayEntry),
        overlay.entries[path]? = some entry → Known overlay.nextIno entry.ino
  stored : ∀ (path : BytePath) (id : Nat), Holds overlay.entries path id → id ∈ overlay.files

/-- A row the overlay can put: its number is known and its file is there. -/
structure Provided (overlay : Overlay) (entry : OverlayEntry) : Prop where
  numbered : Known overlay.nextIno entry.ino
  stored : ∀ id, entry.content = .local id → id ∈ overlay.files

/-- What an operation may do before it writes the journal: take numbers and ids, and publish
content.
-/
structure Idle (before after : Overlay) : Prop extends SameRows before after where
  nextIno : before.nextIno ≤ after.nextIno
  files : ∀ id ∈ before.files, id ∈ after.files

/-- A transaction that keeps the stock: it puts what is provided, and releases no content that
a row still names.
-/
structure Transaction.Supplies (before : Overlay) (transaction : Transaction) : Prop where
  files : ∀ id ∈ before.files, id ∈ transaction.prepared.files
  puts
    : ∀ entry, Change.put entry ∈ transaction.changes
        → Provided transaction.prepared entry
  released
    : ∀ (path : BytePath) (id : Nat),
        Holds (overwrite before.entries (transaction.changes.map Change.write)) path id
        → id ∉ transaction.release

/-- An operation that keeps the stock. -/
def Attempt.Supplies {α : Type} (before : Overlay) : Attempt α → Prop
  | .refused _ after => ∀ id ∈ before.files, id ∈ after.files
  | .done _ after => ∀ id ∈ before.files, id ∈ after.files
  | .writes _ transaction => transaction.Supplies before

section Stocks

variable {overlay before after prepared : Overlay} {entry : OverlayEntry}

theorem Known.mono {ino next later : Nat} (known : Known next ino) (further : next ≤ later)
    : Known later ino :=
  known.imp_right (Nat.lt_of_lt_of_le · further)

theorem Provided.mono (provided : Provided before entry)
    (further : before.nextIno ≤ after.nextIno) (files : ∀ id ∈ before.files, id ∈ after.files)
    : Provided after entry where
  numbered := provided.numbered.mono further
  stored := fun id content => files id (provided.stored id content)

theorem Idle.refl (overlay : Overlay) : Idle overlay overlay :=
  ⟨⟨rfl, rfl, Nat.le_refl _⟩, Nat.le_refl _, fun _ member => member⟩

theorem Poised.idle (poised : Poised before after)
    (files : ∀ id ∈ before.files, id ∈ after.files)
    : Idle before after :=
  ⟨poised.toSameRows, poised.nextIno, files⟩

theorem Stock.idle (stock : Stock before) (idle : Idle before after) : Stock after where
  tidy := stock.tidy.congr idle.toSameRows
  numbered := by
    rw [idle.entries]
    exact fun path entry found => (stock.numbered path entry found).mono idle.nextIno
  stored := by
    rw [idle.entries]
    exact fun path id holds => idle.files id (stock.stored path id holds)

theorem Stock.provides (stock : Stock overlay) {path : BytePath} {row : OverlayEntry}
    (found : overlay.entries[path]? = some row) (ino : entry.ino = row.ino)
    (content : entry.content = row.content)
    : Provided overlay entry where
  numbered := ino ▸ stock.numbered path row found
  stored := fun id held => stock.stored path id ⟨row, found, content ▸ held⟩

theorem Provided.plain (known : Known overlay.nextIno entry.ino)
    (plain : entry.content.localId = none)
    : Provided overlay entry where
  numbered := known
  stored := by
    intro id content
    rw [localId_iff.mpr content] at plain
    cases plain

theorem adoptIno_known {ino : Nat} (known : Known overlay.nextIno ino)
    : Known (overlay.adoptIno ino).2.nextIno (overlay.adoptIno ino).1 := by
  simp only [Overlay.adoptIno]
  split
  · exact Or.inr (Nat.lt_succ_self _)
  · exact known

theorem Transaction.Balanced.tidy {transaction : Transaction} (balanced : transaction.Balanced)
    (tidy : Tidy none transaction.prepared)
    : Tidy none
        (transaction.changes.foldl (Overlay.applyChange transaction.stamp)
          transaction.begun) :=
  (balanced transaction.prepared.entries
    ⟨tidy, fun _ _ => Or.inl rfl, fun _ _ absurd => by cases absurd⟩).tidy

/-- Content that a transaction releases is named by no row after it, if it was named only where
the transaction writes and the transaction puts it nowhere.
-/
theorem unreleased {rows : Rows} (orderly : Orderly rows) {changes : List Change}
    {release : List Nat}
    (covered
      : ∀ id ∈ release, ∃ path, Holds rows path id ∧ ∃ change ∈ changes, change.write.1 = path)
    (others
      : ∀ entry, Change.put entry ∈ changes
          → ∀ id, entry.content = .local id → id ∉ release)
    {path : BytePath} {id : Nat}
    (holds : Holds (overwrite rows (changes.map Change.write)) path id)
    : id ∉ release := by
  obtain ⟨entry, found, content⟩ := holds
  rcases overwrite_cases found with ⟨put, -⟩ | ⟨old, untouched⟩
  · exact others entry put id content
  · intro released
    obtain ⟨owner, held, change, member, written⟩ := covered id released
    have same : owner = path := orderly.single owner path id held ⟨entry, old, content⟩
    exact untouched change member (written.trans same)

end Stocks

-- The operations

section Operations

variable {overlay before : Overlay}

/-- A parent's new times are a row the overlay can put. -/
theorem parentTouch_provided (stock : Stock overlay) (path : BytePath) (parent : Parent)
    (known : Known overlay.nextIno parent.ino) (now : Timestamp)
    : (overlay.parentTouch path parent now).2.files = overlay.files
      ∧ ∀ entry, (overlay.parentTouch path parent now).1 = .row entry
          → Known (overlay.parentTouch path parent now).2.nextIno entry.ino := by
  unfold Overlay.parentTouch
  simp only
  split
  · exact ⟨rfl, fun entry same => by cases same⟩
  · split
    · rename_i row resolved
      split
      · refine ⟨rfl, fun entry same => ?_⟩
        cases same
        exact stock.numbered _ row (resolve_eq_overlay.mp resolved).2.1
      · exact ⟨rfl, fun entry same => by cases same⟩
    · exact ⟨rfl, fun entry same => by cases same⟩
    · split
      · exact ⟨rfl, fun entry same => by cases same⟩
      · split
        · exact ⟨rfl, fun entry same => by cases same⟩
        · refine ⟨rfl, fun entry same => ?_⟩
          cases same
          exact adoptIno_known known

theorem Supplies.touched {path : BytePath} {parent : Parent} {changes : List Change}
    {release : List Nat} {now : Timestamp} {rootTimes : Option (Timestamp × Timestamp)}
    (stock : Stock overlay) (known : Known overlay.nextIno parent.ino)
    (files : ∀ id ∈ before.files, id ∈ overlay.files)
    (puts : ∀ entry, Change.put entry ∈ changes → Provided overlay entry)
    (released
      : ∀ touches : List Change, (∀ change ∈ touches, change.Plain)
          → ∀ (path : BytePath) (id : Nat),
              Holds (overwrite before.entries ((changes ++ touches).map Change.write)) path id
              → id ∉ release)
    : Transaction.Supplies before
        ((overlay.parentTouch path parent now).2.transaction
          (Overlay.pushTouch (overlay.parentTouch path parent now).1 changes rootTimes now).1
          release
          (Overlay.pushTouch (overlay.parentTouch path parent now).1 changes rootTimes
            now).2) := by
  obtain ⟨same, numbers⟩ := parentTouch_provided stock path parent known now
  obtain ⟨poised, plain⟩ := parentTouch_plain stock.tidy path parent now
  obtain ⟨touches, written, rows⟩ :=
    pushTouch_append (overlay.parentTouch path parent now).1 changes rootTimes now
  have kept : ∀ id ∈ overlay.files, id ∈ (overlay.parentTouch path parent now).2.files := by
    rw [same]
    exact fun _ member => member
  rw [written]
  refine ⟨fun id member => kept id (files id member), fun entry member => ?_, ?_⟩
  · rcases List.mem_append.mp member with given | touch
    · exact (puts entry given).mono poised.nextIno kept
    · obtain ⟨row, touched, put⟩ := rows _ touch
      cases put
      exact Provided.plain (numbers entry touched) (plain entry touched entry rfl)
  · refine released touches ?_
    intro change member
    obtain ⟨entry, touched, rfl⟩ := rows change member
    exact plain entry touched

variable {changes : List Change} {now : Timestamp} {source target : BytePath}
  {targetParent : Parent} {targetBase : Option BaseFacts}

theorem Supplies.touching {path : BytePath} {parent : Parent} {release : List Nat}
    (stock : Stock overlay) (known : Known overlay.nextIno parent.ino)
    (files : ∀ id ∈ before.files, id ∈ overlay.files)
    (puts : ∀ entry, Change.put entry ∈ changes → Provided overlay entry)
    (released
      : ∀ touches : List Change, (∀ change ∈ touches, change.Plain)
          → ∀ (path : BytePath) (id : Nat),
              Holds (overwrite before.entries ((changes ++ touches).map Change.write)) path id
              → id ∉ release)
    : (overlay.transactionTouching path parent changes release now).Supplies before :=
  Supplies.touched stock known files puts released

theorem Supplies.single {entry : OverlayEntry}
    (files : ∀ id ∈ before.files, id ∈ overlay.files) (provided : Provided overlay entry)
    : (overlay.transaction [.put entry] [] none).Supplies before := by
  refine ⟨files, fun row member => ?_, fun _ _ _ absurd => by cases absurd⟩
  cases List.mem_singleton.mp member
  exact provided

theorem rowsUnder_row (tidy : Tidy none overlay) {dir : BytePath} (nonroot : dir ≠ [])
    {row : OverlayEntry} (member : row ∈ rowsUnder overlay.entries dir)
    : overlay.entries[row.path]? = some row ∧ Below slash dir row.path := by
  obtain ⟨rel, found⟩ := (mem_rowsUnder nonroot).mp member
  have own := tidy.keyed _ row found
  rw [own]
  exact ⟨found, below_append dir rel⟩

section Single

variable (stock : Stock overlay)

include stock

variable {parent : Parent} {ino : Nat} {path : BytePath} {entry : OverlayEntry}

theorem attemptCreateFile_supplies (contentIo : Bool) (host : Timestamp) (path : BytePath)
    (base : Option BaseFacts) (executable : Bool) (known : Known overlay.nextIno ino)
    (parentKnown : Known overlay.nextIno parent.ino)
    : (overlay.attemptCreateFile contentIo host path base parent ino executable).Supplies
        overlay := by
  unfold Overlay.attemptCreateFile
  split
  · exact fun _ member => member
  · have numbered := adoptIno_poised overlay ino
    have taken := numbered.trans (allocateContentId_poised (overlay.adoptIno ino).2)
    simp only
    split
    · exact fun _ member => member
    · have stored
          : ∀ id ∈ overlay.files,
              id ∈ (overlay.adoptIno ino).2.allocateContentId.2.files.insert
                (overlay.adoptIno ino).2.allocateContentId.1 [] :=
        fun id member => ExtTreeMap.mem_insert.mpr (Or.inr member)
      refine Supplies.touching (stock.idle ⟨⟨rfl, rfl, taken.nextContentId⟩, taken.nextIno, stored⟩)
        (parentKnown.mono taken.nextIno) stored ?_ (fun _ _ _ _ _ absurd => by cases absurd)
      intro entry member
      cases List.mem_singleton.mp member
      refine ⟨adoptIno_known known, fun id content => ?_⟩
      cases content
      exact ExtTreeMap.mem_insert_self

theorem attemptMkdir_supplies (host : Timestamp) (path : BytePath) (base : Option BaseFacts)
    (known : Known overlay.nextIno ino) (parentKnown : Known overlay.nextIno parent.ino)
    : (overlay.attemptMkdir host path base parent ino).Supplies overlay := by
  unfold Overlay.attemptMkdir
  split
  · exact fun _ member => member
  · have numbered := adoptIno_poised overlay ino
    refine Supplies.touching
      (stock.idle ⟨⟨rfl, rfl, numbered.nextContentId⟩, numbered.nextIno, fun _ member => member⟩)
      (parentKnown.mono numbered.nextIno) (fun _ member => member) ?_
      (fun _ _ _ _ _ absurd => by cases absurd)
    intro entry member
    cases List.mem_singleton.mp member
    exact Provided.plain (adoptIno_known known) rfl

theorem attemptSymlink_supplies (host : Timestamp) (path : BytePath) (target : Bytes)
    (base : Option BaseFacts) (known : Known overlay.nextIno ino)
    (parentKnown : Known overlay.nextIno parent.ino)
    : (overlay.attemptSymlink host path target base parent ino).Supplies overlay := by
  unfold Overlay.attemptSymlink
  split
  · exact fun _ member => member
  · have numbered := adoptIno_poised overlay ino
    refine Supplies.touching
      (stock.idle ⟨⟨rfl, rfl, numbered.nextContentId⟩, numbered.nextIno, fun _ member => member⟩)
      (parentKnown.mono numbered.nextIno) (fun _ member => member) ?_
      (fun _ _ _ _ _ absurd => by cases absurd)
    intro entry member
    cases List.mem_singleton.mp member
    exact Provided.plain (adoptIno_known known) rfl

/-- What is copied up keeps its row's number, or takes the caller's. -/
theorem copyUpSource_known {base : Option BaseFacts} {copy : Overlay.CopyUp}
    (known : Known overlay.nextIno ino)
    (found : overlay.copyUpSource path base ino = .ok (.inr copy))
    : Known overlay.nextIno copy.ino := by
  unfold Overlay.copyUpSource at found
  split at found
  · cases found
  · rename_i row resolved
    split at found
    · cases found
    · split at found
      · cases found
      · split at found
        · cases found
        · cases found
          exact stock.numbered path row (resolve_eq_overlay.mp resolved).2.1
  · split at found
    · cases found
    · split at found
      · cases found
      · split at found
        · cases found
        · split at found
          · cases found
          · cases found
            exact known

theorem attemptMaterialize_supplies (contentIo : Bool) (host : Timestamp) (path : BytePath)
    (base : Option BaseFacts) (source : Option Bytes) (known : Known overlay.nextIno ino)
    : (overlay.attemptMaterialize contentIo host path base ino source).Supplies overlay := by
  unfold Overlay.attemptMaterialize
  split
  · exact fun _ member => member
  · exact fun _ member => member
  · rename_i copy found
    have numbered : Known overlay.nextIno copy.ino := by
      cases checked : pathCondition path with
      | error refusal =>
          rw [checked] at found
          cases found
      | ok =>
          rw [checked] at found
          exact copyUpSource_known stock known found
    simp only
    split
    · exact fun _ member => member
    · split
      · exact fun _ member => member
      · refine Supplies.single (fun id member => ExtTreeMap.mem_insert.mpr (Or.inr member))
          ⟨numbered, fun id content => ?_⟩
        cases content
        exact ExtTreeMap.mem_insert_self

theorem attemptTruncate_supplies (contentIo : Bool) (host : Timestamp) (path : BytePath)
    (size : Nat)
    : (overlay.attemptTruncate contentIo host path size).Supplies overlay := by
  unfold Overlay.attemptTruncate
  split
  · exact fun _ member => member
  · rename_i entry found
    have there := (Option.filter_eq_some_iff.mp found).1
    split
    · exact fun _ member => member
    · split
      · exact fun _ member => member
      · split
        · exact fun _ member => member
        · split
          · exact fun _ member => member
          · rename_i id _ _ _ _ file _
            have kept
                : ∀ other ∈ overlay.files, other ∈ overlay.files.insert id (setLen file size) :=
              fun other member => ExtTreeMap.mem_insert.mpr (Or.inr member)
            have provided : Provided overlay
                {
                  entry with
                  size
                  mtime := (overlay.nextTime host).1
                  ctime := (overlay.nextTime host).1
                } := stock.provides there rfl rfl
            exact Supplies.single kept (provided.mono (Nat.le_refl _) kept)

theorem attemptSettle_supplies (contentId : Nat)
    : (overlay.attemptSettle contentId).Supplies overlay := by
  unfold Overlay.attemptSettle
  split
  · exact fun _ member => member
  · rename_i entry found
    split
    · exact Supplies.single (fun _ member => member)
        (stock.provides (stock.tidy.rowOf found).2.1 rfl rfl)
    · exact fun _ member => member

theorem attemptSettleAll_supplies : overlay.attemptSettleAll.Supplies overlay := by
  unfold Overlay.attemptSettleAll
  split
  · exact fun _ member => member
  · simp only
    split
    · exact fun _ member => member
    · refine ⟨fun _ member => member, fun entry member => ?_, fun _ _ _ absurd => by cases absurd⟩
      obtain ⟨row, listed, same⟩ := List.mem_map.mp member
      cases same
      obtain ⟨id, -, found⟩ := List.mem_filterMap.mp listed
      have provided := @Stock.provides overlay entry stock _ entry
        (stock.tidy.rowOf found).2.1 rfl rfl
      exact provided.mono (Nat.le_refl _) (fun _ member => member)

omit stock in
theorem attemptAdopt_supplies (host : Timestamp) (path : BytePath) (base : Option BaseFacts)
    (known : Known overlay.nextIno ino)
    : (overlay.attemptAdopt host path base ino).Supplies overlay := by
  unfold Overlay.attemptAdopt
  split
  · exact fun _ member => member
  · split
    · exact fun _ member => member
    · split
      · exact fun _ member => member
      · exact fun _ member => member
      · split
        · exact fun _ member => member
        · split
          · exact fun _ member => member
          · refine Supplies.single (fun _ member => member) (Provided.plain known ?_)
            simp only [Overlay.adoptedEntry]
            split <;> rfl

theorem attemptExecutable_supplies (found : overlay.entries[path]? = some entry) (host : Timestamp)
    (executable : Bool)
    : (overlay.attemptExecutable host entry executable).Supplies overlay := by
  by_cases settled : alreadyAs executable entry.kind
  · rw [attemptExecutable_already settled]
    exact fun _ member => member
  · rw [attemptExecutable_changes settled]
    have provided := @Stock.provides overlay
      {
        entry with
        kind := if executable then .executable else .regular
        ctime := (overlay.nextTime host).1
      } stock path entry found rfl rfl
    exact Supplies.single (fun _ member => member)
      (provided.mono (Nat.le_refl _) (fun _ member => member))

theorem attemptTimes_supplies (found : overlay.entries[path]? = some entry) (host : Timestamp)
    (mtime : Option Timestamp)
    : (overlay.attemptTimes host entry mtime).Supplies overlay := by
  refine Supplies.single (fun _ member => member) ⟨?_, ?_⟩
  · exact stock.numbered path entry found
  · exact fun id content => stock.stored path id ⟨entry, found, content⟩

omit stock in
theorem attemptTouchRoot_supplies (host : Timestamp) (mtime : Option Timestamp)
    : (overlay.attemptTouchRoot host mtime).Supplies overlay :=
  ⟨fun _ member => member, fun _ absurd => (by cases absurd), fun _ _ _ absurd => by cases absurd⟩

theorem attemptReferenceBase_supplies (contentId : Nat) (hashed : OverlayEntry)
    (oid : ObjectId)
    : (overlay.attemptReferenceBase contentId hashed oid).Supplies overlay := by
  unfold Overlay.attemptReferenceBase
  split
  · exact fun _ member => member
  · rename_i entry found
    split
    · refine ⟨fun _ member => member, fun row member => ?_, fun _ _ _ absurd => by cases absurd⟩
      cases List.mem_singleton.mp member
      exact Provided.plain (stock.numbered hashed.path entry found) rfl
    · exact fun _ member => member

theorem departure_provided {base : Option BaseFacts} {now : Timestamp}
    (left : Overlay.departure overlay.entries[path]? path base now = .put entry)
    : Provided overlay entry := by
  refine Provided.plain ?_ (departure_plain _ _ _ _ entry (by rw [left]; rfl))
  unfold Overlay.departure at left
  split at left
  · cases left
    cases found : overlay.entries[path]? with
    | none =>
        have unnumbered : 0 < overlayInoBase := by decide
        exact Or.inl unnumbered
    | some row => exact stock.numbered path row found
  · cases left

omit stock in
theorem mem_release {doomed : List OverlayEntry}
    (there : ∀ victim ∈ doomed, overlay.entries[victim.path]? = some victim) {id : Nat}
    (released
      : id ∈ (overlay.entries[path]?.bind (·.content.localId)).toList
          ++ doomed.filterMap (·.content.localId))
    : Holds overlay.entries path id
      ∨ ∃ victim ∈ doomed, Holds overlay.entries victim.path id := by
  rcases List.mem_append.mp released with own | below
  · obtain ⟨row, found, content⟩ := Option.bind_eq_some_iff.mp (Option.mem_toList.mp own)
    exact Or.inl ⟨row, found, localId_iff.mp content⟩
  · obtain ⟨victim, member, content⟩ := List.mem_filterMap.mp below
    exact Or.inr ⟨victim, member, victim, there victim member, localId_iff.mp content⟩

theorem attemptRemove_supplies (host later : Timestamp) (path : BytePath) (base : Option BaseFacts)
    (expectDir mergedIsEmpty : Bool) (parentKnown : Known overlay.nextIno parent.ino)
    : (overlay.attemptRemove host later path base parent expectDir mergedIsEmpty).Supplies
        overlay := by
  unfold Overlay.attemptRemove
  split
  · exact fun _ member => member
  · rename_i nonroot
    split
    · exact fun _ member => member
    · split
      · exact fun _ member => member
      · split
        · exact fun _ member => member
        · split
          · exact fun _ member => member
          · rename_i kind _ _ _ _
            simp only
            generalize hides : ((overlay.entries[path]?.bind OverlayEntry.base).or base).isSome
              = hidden
            generalize listed
              : (if kind.isDirLike = true then
                  (rowsUnder overlay.entries path).filter (fun entry => entry.present)
                else []) = doomed
            have there : ∀ victim ∈ doomed, overlay.entries[victim.path]? = some victim := by
              intro victim member
              rw [← listed] at member
              split at member
              · exact (rowsUnder_row stock.tidy nonroot (List.mem_filter.mp member).1).1
              · cases member
            have idle
                : Idle overlay
                    ((if hidden = true then overlay.nextTime host
                      else (overlay.clock, overlay)).2.nextTime
                        (if hidden = true then later else host)).2 := by
              split <;> exact ⟨⟨rfl, rfl, Nat.le_refl _⟩, Nat.le_refl _, fun _ member => member⟩
            refine Supplies.touching (stock.idle idle) (parentKnown.mono idle.nextIno) idle.files
              ?_ ?_
            · intro entry member
              rcases List.mem_append.mp member with deleted | last
              · obtain ⟨victim, -, same⟩ := List.mem_map.mp deleted
                cases same
              · exact (departure_provided stock (List.mem_singleton.mp last).symm).mono
                  idle.nextIno idle.files
            · intro touches plain other id holds
              refine unreleased stock.tidy.orderly ?_ ?_ holds
              · intro released member
                rcases mem_release there member with own | ⟨victim, doomed_, held⟩
                · refine ⟨path, own, _, List.mem_append_left _
                    (List.mem_append_right _ (List.mem_singleton_self _)), ?_⟩
                  unfold Overlay.departure
                  split <;> rfl
                · exact ⟨victim.path, held, .delete victim.path, List.mem_append_left _
                    (List.mem_append_left _ (List.mem_map.mpr ⟨victim, doomed_, rfl⟩)), rfl⟩
              · intro entry member released content
                have blank : (Change.put entry).Plain := by
                  rcases List.mem_append.mp member with inner | touch
                  · rcases List.mem_append.mp inner with deleted | last
                    · obtain ⟨victim, -, same⟩ := List.mem_map.mp deleted
                      cases same
                    · rw [List.mem_singleton.mp last]
                      exact departure_plain _ _ _ _
                  · exact plain _ touch
                have none := blank entry rfl
                rw [localId_iff.mpr content] at none
                cases none

end Single

-- Renaming

/-- Changes that are provided, with the touches of both parents. -/
theorem Supplies.renaming {sourceParent : Parent} {release : List Nat} (stock : Stock overlay)
    (known : Known overlay.nextIno sourceParent.ino)
    (knownToo : Known overlay.nextIno targetParent.ino)
    (files : ∀ id ∈ before.files, id ∈ overlay.files)
    (puts : ∀ entry, Change.put entry ∈ changes → Provided overlay entry)
    (released
      : ∀ touches : List Change, (∀ change ∈ touches, change.Plain)
          → ∀ (path : BytePath) (id : Nat),
              Holds (overwrite before.entries ((changes ++ touches).map Change.write)) path id
              → id ∉ release)
    : (overlay.transactionRename source target sourceParent targetParent changes release
        now).Supplies before := by
  have first := @Supplies.touched overlay before source sourceParent changes release now none
    stock known files puts released
  simp only [Overlay.transactionRename]
  split
  · exact first
  · obtain ⟨poised, plain⟩ := parentTouch_plain stock.tidy source sourceParent now
    obtain ⟨same, -⟩ := parentTouch_provided stock source sourceParent known now
    have touched := stock.idle (poised.idle (fun id member => same.symm ▸ member))
    refine Supplies.touched touched (knownToo.mono poised.nextIno) first.files first.puts ?_
    obtain ⟨touches, written, rows⟩ :=
      pushTouch_append (overlay.parentTouch source sourceParent now).1 changes none now
    intro more plainToo
    rw [written, List.append_assoc]
    refine released (touches ++ more) ?_
    intro change member
    rcases List.mem_append.mp member with touch | later
    · obtain ⟨entry, row, rfl⟩ := rows change touch
      exact plain entry row
    · exact plainToo change later

/-- The renamed row keeps its number and content, or takes the caller's number. -/
theorem movedEntry_provided (stock : Stock overlay) {sourceBase : Option BaseFacts}
    {sourceIno : Nat} {moved : OverlayEntry} {after : Overlay}
    (known : Known overlay.nextIno sourceIno)
    (done
      : Overlay.movedEntry overlay.entries[source]? source target sourceBase targetBase now
          overlay sourceIno = .ok (moved, after))
    : after.files = overlay.files
      ∧ Provided after moved
      ∧ (moved.content.localId = none
          ∨ ∀ id, moved.content = .local id → Holds overlay.entries source id) := by
  unfold Overlay.movedEntry at done
  split at done
  · rename_i old found
    have there := (Option.filter_eq_some_iff.mp found).1
    cases done
    exact ⟨rfl, stock.provides there rfl rfl, Or.inr fun id content => ⟨old, there, content⟩⟩
  · split at done
    · cases done
    · split at done
      · cases done
      · cases done
        refine ⟨rfl, Provided.plain (adoptIno_known known) ?_, Or.inl ?_⟩
        all_goals
          simp only
          split <;> rfl

/-- Descendants the rename materializes take numbers of their own. -/
theorem descendantChanges_known {rows : Rows} {nextIno : Nat} {descendants : List BaseDescendant}
    {entry : OverlayEntry}
    (member
      : Change.put entry
        ∈ (Overlay.descendantChanges rows source target now nextIno descendants).1)
    : entry.ino < (Overlay.descendantChanges rows source target now nextIno descendants).2 := by
  induction descendants generalizing nextIno with
  | nil => cases member
  | cons descendant rest ih =>
      unfold Overlay.descendantChanges at member ⊢
      split at member
      · rename_i hidden
        rw [if_pos hidden]
        exact ih member
      · rename_i shown
        rw [if_neg shown]
        split at member
        · exact ih member
        · rename_i kind known
          rcases List.mem_cons.mp member with same | later
          · cases same
            exact Nat.lt_of_lt_of_le (Nat.lt_succ_self nextIno)
              (@descendantChanges_plain rows source target now (nextIno + 1) rest).1
          · exact ih later

/-- A rename releases what its destination held, and that is nowhere in the rows it moves:
source and destination do not lie in one another.
-/
theorem rename_unreleased (stock : Stock overlay) {moved : OverlayEntry}
    {movers : List OverlayEntry} (nonroot : target ≠ []) (outside : ¬ isWithin target source = true)
    (inside : ¬ isWithin source target = true) (own : moved.path = target)
    (origin
      : moved.content.localId = none
        ∨ ∀ id, moved.content = .local id → Holds overlay.entries source id)
    (below
      : ∀ row ∈ movers,
          overlay.entries[row.path]? = some row ∧ Below slash source row.path)
    (cleared
      : ∀ victim ∈ rowsUnder overlay.entries target, Change.delete victim.path ∈ changes)
    (arrives : Change.put moved ∈ changes)
    (puts
      : ∀ entry, Change.put entry ∈ changes
          → entry = moved
            ∨ entry.content.localId = none
            ∨ ∃ row ∈ movers, entry.content = row.content)
    {path : BytePath} {id : Nat}
    (holds : Holds (overwrite overlay.entries (changes.map Change.write)) path id)
    : id ∉ (overlay.entries[target]?.bind (·.content.localId)).toList
        ++ (rowsUnder overlay.entries target).filterMap (·.content.localId) := by
  have there {victim : OverlayEntry} (member : victim ∈ rowsUnder overlay.entries target) :=
    rowsUnder_row stock.tidy nonroot member
  -- What is released was held at the destination or below it.
  have holder {released : Nat}
      (member
        : released ∈ (overlay.entries[target]?.bind (·.content.localId)).toList
            ++ (rowsUnder overlay.entries target).filterMap (·.content.localId))
      {other : BytePath} (held : Holds overlay.entries other released)
      : isWithin other target = true := by
    rw [isWithin_iff]
    rcases mem_release (fun _ member => (there member).1) member with
      ownContent | ⟨victim, doomed, content⟩
    · exact Or.inr (Or.inl (stock.tidy.owner (by simp) (by simp) held ownContent))
    · rw [stock.tidy.owner (by simp) (by simp) held content]
      exact Or.inr (Or.inr (there doomed).2)
  refine unreleased stock.tidy.orderly ?_ ?_ holds
  · intro released member
    rcases mem_release (fun _ member => (there member).1) member with
      ownContent | ⟨victim, doomed, content⟩
    · exact ⟨target, ownContent, _, arrives, own⟩
    · exact ⟨victim.path, content, _, cleared victim doomed, rfl⟩
  · intro entry member released content releasing
    rcases puts entry member with rfl | blank | ⟨row, moves, same⟩
    · rcases origin with blank | held
      · rw [localId_iff.mpr content] at blank
        cases blank
      · exact inside (holder releasing (held released content))
    · rw [localId_iff.mpr content] at blank
      cases blank
    · obtain ⟨found, under⟩ := below row moves
      have within := holder releasing ⟨row, found, same ▸ content⟩
      rw [isWithin_iff] at within outside inside
      -- The moved row is below both ends, so one end lies in the other.
      rcases within with root | equal | beyond
      · exact nonroot root
      · exact outside (Or.inr (Or.inr (equal ▸ under)))
      · rcases under.linear beyond with equal | above | above
        · exact outside (Or.inr (Or.inl equal.symm))
        · exact outside (Or.inr (Or.inr above))
        · exact inside (Or.inr (Or.inr above))

/-- A caller that renames something onto a directory around it says that the directory is
there and not empty.
-/
def Around (overlay : Overlay) (source target : BytePath) (targetBase : Option BaseFacts)
    (targetMergedIsEmpty : Bool)
    : Prop :=
  isWithin source target = true
  → targetMergedIsEmpty = false
    ∧ ∃ kind, overlay.existing target targetBase = some kind ∧ kind.isDirLike = true

/-- Such a rename is refused. -/
theorem Around.refused {sourceBase : Option BaseFacts} {targetMergedIsEmpty noReplace : Bool}
    (around : Around overlay source target targetBase targetMergedIsEmpty)
    (checked
      : (do
          overlay.checkParent target targetParent.base
          match overlay.existing source sourceBase with
          | none => throw Condition.noEntry
          | some sourceKind =>
              match overlay.existing target targetBase with
              | none => pure ()
              | some targetKind =>
                  Overlay.checkReplace sourceKind targetKind targetMergedIsEmpty noReplace
            : Except Condition Unit) = .ok ())
    : ¬ isWithin source target = true := by
  intro inside
  obtain ⟨full, kind, there, directory⟩ := around inside
  cases parent : overlay.checkParent target targetParent.base with
  | error refusal =>
      rw [parent] at checked
      cases checked
  | ok =>
      rw [parent] at checked
      change (match overlay.existing source sourceBase with
        | none => throw Condition.noEntry
        | some sourceKind =>
            match overlay.existing target targetBase with
            | none => pure ()
            | some targetKind =>
                Overlay.checkReplace sourceKind targetKind targetMergedIsEmpty noReplace
          : Except Condition Unit) = .ok () at checked
      rw [there] at checked
      split at checked
      · cases checked
      · rename_i sourceKind _
        simp only [Overlay.checkReplace, full, directory] at checked
        split at checked
        · cases checked
        · cases kinds : sourceKind.isDirLike <;> simp [kinds] at checked

theorem attemptRename_supplies (stock : Stock overlay) (host : Timestamp) {sourceIno : Nat}
    (sourceBase : Option BaseFacts) {sourceParent : Parent} (descendants : List BaseDescendant)
    {targetMergedIsEmpty : Bool} (noReplace : Bool) (known : Known overlay.nextIno sourceIno)
    (sourceKnown : Known overlay.nextIno sourceParent.ino)
    (targetKnown : Known overlay.nextIno targetParent.ino)
    (around : Around overlay source target targetBase targetMergedIsEmpty)
    : (overlay.attemptRename host source sourceIno sourceBase sourceParent target targetBase
        targetParent descendants targetMergedIsEmpty noReplace).Supplies overlay := by
  refine attemptRename_cases (fun _ _ member => member) (fun _ _ _ _ member => member)
    (fun _ member => member) ?_
  intro _ nonroot targetNonroot outside admitted moved movers arrived n brings
  have inside := around.refused admitted
  obtain ⟨grows, moving⟩ := brings.moving
  obtain ⟨after, done, along⟩ := brings
  have timed : Stock (overlay.nextTime host).2 :=
    stock.idle ((nextTime_poised overlay host).idle (fun _ member => member))
  obtain ⟨files, provided, origin⟩ := movedEntry_provided timed known done
  have ready := renameReady_poised grows host
  have kept {entry : OverlayEntry} (provided : Provided overlay entry)
      : Provided (renameReady overlay host n) entry :=
    provided.mono grows (fun _ member => member)
  have below : ∀ row ∈ movers,
      overlay.entries[row.path]? = some row ∧ Below slash source row.path := by
    rcases moving.below with ⟨rfl, -⟩ | ⟨-, rfl⟩
    · exact fun _ member => nomatch member
    · exact fun _ member => rowsUnder_row stock.tidy nonroot member
  have puts {entry : OverlayEntry}
      (member
        : Change.put entry
          ∈ moveChanges overlay source target (overlay.nextTime host).1 moved movers arrived
              (Overlay.departure overlay.entries[source]? source sourceBase
                (overlay.nextTime host).1))
      : Provided (renameReady overlay host n) entry
        ∧ (entry = moved
          ∨ entry.content.localId = none
          ∨ ∃ row ∈ movers, entry.content = row.content) := by
    rcases put_mem_moveChanges member with rfl | ⟨row, listed, rfl⟩ | arrives | left
    · have further : after.nextIno ≤ n := by
        rcases along with ⟨-, -, rfl⟩ | ⟨-, -, same⟩
        · exact Nat.le_refl _
        · rw [(Prod.mk.inj same).2]
          exact descendantChanges_plain.1
      exact ⟨provided.mono further (fun _ member => files ▸ member), .inl rfl⟩
    · exact ⟨kept (stock.provides (below row listed).1 rfl rfl), .inr (.inr ⟨row, listed, rfl⟩)⟩
    · have blank := moving.arrives _ arrives entry rfl
      refine ⟨Provided.plain (.inr ?_) blank, .inr (.inl blank)⟩
      rcases along with ⟨-, rfl, -⟩ | ⟨-, -, same⟩
      · cases arrives
      · obtain ⟨rfl, rfl⟩ := Prod.mk.inj same
        exact descendantChanges_known arrives
    · have blank := moving.leaves entry (by rw [left]; rfl)
      exact ⟨kept (departure_provided stock left), .inr (.inl blank)⟩
  refine Supplies.renaming (stock.idle (ready.idle (fun _ member => member)))
    (sourceKnown.mono grows) (targetKnown.mono grows) (fun _ member => member)
    (fun _ member => (puts member).1) ?_
  intro touches plainly other id holds
  refine rename_unreleased stock targetNonroot outside inside moving.own origin below ?_ ?_ ?_ holds
  · intro victim member
    simp only [moveChanges, List.append_assoc, List.mem_append]
    exact .inl (List.mem_map.mpr ⟨victim, member, rfl⟩)
  · simp [moveChanges]
  · intro entry member
    rcases List.mem_append.mp member with inner | touch
    · exact (puts inner).2
    · exact .inr (.inl (plainly _ touch entry rfl))

end Operations

end Gfs.Overlay
