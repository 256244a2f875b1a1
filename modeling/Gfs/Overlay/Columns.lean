import Gfs.Overlay.Durable
import Gfs.Types.Oid
import Gfs.Types.Signed

/-! The journal's columns (`gfs-overlay/src/state.rs`, `Row`; `journal.rs`): how an entry is spread
over them, how the root's times are written as text, and what is read back of both.
-/

namespace Gfs.Overlay

open Gfs.Types
open Gfs.Lib.Overwrites

-- Rows

def OverlayKind.code : OverlayKind → Int
  | .regular => 0
  | .executable => 1
  | .symlink => 2
  | .directory => 3

def OverlayKind.fromCode (code : Int) : Option OverlayKind :=
  if code = 0 then some .regular
  else if code = 1 then some .executable
  else if code = 2 then some .symlink
  else if code = 3 then some .directory
  else none

/-- The stored form of an entry: the column tuple, in schema order. -/
structure Row where
  path : Bytes
  parent : Bytes
  present : Int
  kind : Int
  opaqueDir : Int
  ino : Int
  contentKind : Int
  contentId : Option Int
  contentOid : Option Text
  symlinkTarget : Option Bytes
  size : Int
  mtimeSecs : Int
  mtimeNanos : Int
  ctimeSecs : Int
  ctimeNanos : Int
  renamedFrom : Option Bytes
  baseOid : Option Text
  baseMode : Option Int
  baseSize : Option Int
  deriving DecidableEq, Repr

def contentNone : Int := 0
def contentLocal : Int := 1
def contentBase : Int := 2

namespace Row

def of (entry : OverlayEntry) : Row :=
  let (contentKind, contentId, contentOid) :=
    match entry.content with
    | .none => (contentNone, none, none)
    | .local id => (contentLocal, some (asI64 id), none)
    | .base oid => (contentBase, none, some oid.toQualified)
  {
    path := entry.path
    parent := entry.parent
    present := if entry.present then 1 else 0
    kind := entry.kind.code
    opaqueDir := if entry.opaqueDir then 1 else 0
    ino := asI64 entry.ino
    contentKind
    contentId
    contentOid
    symlinkTarget := entry.symlinkTarget
    size := asI64 entry.size
    mtimeSecs := entry.mtime.secs
    mtimeNanos := entry.mtime.nanos
    ctimeSecs := entry.ctime.secs
    ctimeNanos := entry.ctime.nanos
    renamedFrom := entry.renamedFrom
    baseOid := entry.base.map (fun facts => facts.oid.toQualified)
    baseMode := entry.base.map (fun facts => (facts.kind.asMode : Int))
    baseSize := entry.base.map (fun facts => asI64 facts.size)
  }

/-- Where the row's bytes live. -/
def decodeContent (row : Row) : Except Text Content :=
  if row.contentKind = contentNone then .ok .none
  else if row.contentKind = contentLocal then
    match row.contentId with
    | some id => .ok (.local (asU64 id))
    | none => .error "a local content row has no content id".toList
  else if row.contentKind = contentBase then
    match row.contentOid with
    | some oid => ((ObjectId.parseQualified oid).mapError OidError.message).map .base
    | none => .error "a base content row has no object id".toList
  else .error ("unknown content kind ".toList ++ displayInt row.contentKind)

/-- What the row says the pinned commit has; nothing unless all three columns are there. -/
def decodeBase (row : Row) : Except Text (Option BaseFacts) :=
  match row.baseOid, row.baseMode, row.baseSize with
  | some oid, some mode, some size => do
      let oid ← (ObjectId.parseQualified oid).mapError OidError.message
      return some ⟨oid, EntryKind.fromMode (asU32 mode), asU64 size⟩
  | _, _, _ => .ok none

def decode (row : Row) : Except Text OverlayEntry := do
  let kind ←
    match OverlayKind.fromCode row.kind with
    | some kind => .ok kind
    | none => .error ("unknown overlay kind ".toList ++ displayInt row.kind)
  let content ← row.decodeContent
  let base ← row.decodeBase
  return {
    path := row.path
    present := row.present != 0
    kind
    opaqueDir := row.opaqueDir != 0
    ino := asU64 row.ino
    content
    symlinkTarget := row.symlinkTarget
    size := asU64 row.size
    mtime := ⟨row.mtimeSecs, asU32 row.mtimeNanos⟩
    ctime := ⟨row.ctimeSecs, asU32 row.ctimeNanos⟩
    renamedFrom := row.renamedFrom
    base
  }

end Row

-- Times as text

/-- `<secs>.<nanos>`. -/
def formatTime (time : Timestamp) : Text :=
  displayInt time.secs ++ '.' :: Nat.toDigits 10 time.nanos

def parseTime (raw : Text) : Option Timestamp :=
  match raw.dropWhile (· ≠ '.') with
  | [] => none
  | _ :: nanos => do
      let secs ← parseSigned 64 (raw.takeWhile (· ≠ '.'))
      let nanos ← parseUnsigned 32 nanos
      return ⟨secs, nanos⟩

-- The tables

/-- The table of rows, in the order they were written, and the root's times in the meta table.
The path is the rows' primary key.
-/
structure Tables where
  entries : List Row
  rootMtime : Option Text
  rootCtime : Option Text

namespace Tables

/-- A journal no process has written to. -/
def fresh : Tables :=
  ⟨[], none, none⟩

/-- `INSERT OR REPLACE`. -/
def insertEntry (tables : Tables) (entry : OverlayEntry) : Tables :=
  {
    tables with
    entries := tables.entries.filter (·.path != entry.path) ++ [Row.of entry]
  }

def change (tables : Tables) : Change → Tables
  | .put entry => tables.insertEntry entry
  | .delete path =>
      { tables with entries := tables.entries.filter (·.path != path) }

/-- The rows and root times one transaction writes. -/
def apply (tables : Tables) (changes : List Change)
    (rootTimes : Option (Timestamp × Timestamp))
    : Tables :=
  let tables := changes.foldl change tables
  match rootTimes with
  | some (mtime, ctime) =>
      { tables with rootMtime := some (formatTime mtime), rootCtime := some (formatTime ctime) }
  | none => tables

/-- The rows and root times a new base begins with. The text no time is written as is read as
no time.
-/
def rebind (tables : Tables) (keep : List OverlayEntry)
    (rootTimes : Option (Timestamp × Timestamp))
    : Tables :=
  let tables := keep.foldl insertEntry { tables with entries := [] }
  match rootTimes with
  | some (mtime, ctime) =>
      { tables with rootMtime := some (formatTime mtime), rootCtime := some (formatTime ctime) }
  | none => { tables with rootMtime := some [] }

/-- The mount root's recorded times. -/
def rootTimes (tables : Tables) : Option (Timestamp × Timestamp) :=
  match tables.rootMtime with
  | none => none
  | some raw =>
      match parseTime raw, tables.rootCtime.bind parseTime with
      | some mtime, some ctime => some (mtime, ctime)
      | some mtime, none => some (mtime, mtime)
      | none, _ => none

/-- Every row, for the index built at open. -/
def load (tables : Tables) : Except Text (List OverlayEntry) :=
  tables.entries.mapM (fun row =>
    row.decode.mapError ("an overlay row is undecodable: ".toList ++ ·))

end Tables

-- What the source's types hold

/-- A time of an `i64` of seconds and a `u32` of nanoseconds. -/
structure TimeFits (time : Timestamp) : Prop where
  low : -2 ^ 63 ≤ time.secs
  high : time.secs < 2 ^ 63
  nanos : time.nanos < 2 ^ 32

/-- Every kind in the source is made from a `u32` mode. -/
def KindFits (kind : EntryKind) : Prop :=
  ∃ mode < 2 ^ 32, kind = EntryKind.fromMode mode

structure BaseFacts.Fits (facts : BaseFacts) : Prop where
  oid : facts.oid.Sized
  kind : KindFits facts.kind
  size : facts.size < 2 ^ 64

def Content.Fits : Content → Prop
  | .none => True
  | .local id => id < 2 ^ 64
  | .base oid => oid.Sized

/-- The numbers, object ids and kinds of an entry are ones its fields' types hold. -/
structure OverlayEntry.Fits (entry : OverlayEntry) : Prop where
  ino : entry.ino < 2 ^ 64
  content : entry.content.Fits
  size : entry.size < 2 ^ 64
  mtime : TimeFits entry.mtime
  ctime : TimeFits entry.ctime
  base : ∀ facts, entry.base = some facts → facts.Fits

/-- The root's times a transaction writes, if it writes any. -/
def TimesFit (times : Option (Timestamp × Timestamp)) : Prop :=
  ∀ mtime ctime, times = some (mtime, ctime) → TimeFits mtime ∧ TimeFits ctime

-- Reading back

theorem fromMode_asMode {kind : EntryKind} (fits : KindFits kind)
    : EntryKind.fromMode kind.asMode = kind ∧ kind.asMode < 2 ^ 32 := by
  obtain ⟨mode, small, rfl⟩ := fits
  have same : (EntryKind.fromMode mode).asMode = mode := by
    unfold EntryKind.fromMode
    repeat' split
    all_goals simp_all [EntryKind.asMode]
  rw [same]
  exact ⟨rfl, small⟩

theorem fromCode_code (kind : OverlayKind) : OverlayKind.fromCode kind.code = some kind := by
  cases kind <;> rfl

section Entry

variable {entry : OverlayEntry}

theorem decodeContent_of (fits : entry.content.Fits)
    : (Row.of entry).decodeContent = .ok entry.content := by
  cases held : entry.content with
  | none => simp [Row.of, Row.decodeContent, held]
  | «local» id =>
      rw [held] at fits
      simp [Row.of, Row.decodeContent, held, contentNone, contentLocal, asU64_asI64 fits]
  | base oid =>
      rw [held] at fits
      simp [Row.of, Row.decodeContent, held, contentNone, contentLocal, contentBase,
        ObjectId.parseQualified_toQualified fits, Except.mapError, Except.map]

theorem decodeBase_of (fits : ∀ facts, entry.base = some facts → facts.Fits)
    : (Row.of entry).decodeBase = .ok entry.base := by
  cases held : entry.base with
  | none => simp [Row.of, Row.decodeBase, held]
  | some facts =>
      obtain ⟨oid, kind, size⟩ := fits facts held
      obtain ⟨made, small⟩ := fromMode_asMode kind
      simp [Row.of, Row.decodeBase, held, ObjectId.parseQualified_toQualified oid,
        asU32_cast small, made, asU64_asI64 size, Except.mapError]

/-- A row gives back the entry it was made of. -/
theorem decode_of (fits : entry.Fits) : (Row.of entry).decode = .ok entry := by
  have flag (held : Bool) : ((if held then (1 : Int) else 0) != 0) = held := by
    cases held <;> rfl
  have kind : OverlayKind.fromCode (Row.of entry).kind = some entry.kind :=
    fromCode_code entry.kind
  have rebuilt
      : ({
          path := (Row.of entry).path
          present := (Row.of entry).present != 0
          kind := entry.kind
          opaqueDir := (Row.of entry).opaqueDir != 0
          ino := asU64 (Row.of entry).ino
          content := entry.content
          symlinkTarget := (Row.of entry).symlinkTarget
          size := asU64 (Row.of entry).size
          mtime := ⟨(Row.of entry).mtimeSecs, asU32 (Row.of entry).mtimeNanos⟩
          ctime := ⟨(Row.of entry).ctimeSecs, asU32 (Row.of entry).ctimeNanos⟩
          renamedFrom := (Row.of entry).renamedFrom
          base := entry.base
        } : OverlayEntry)
        = entry := by
    simp only [Row.of, flag, asU64_asI64 fits.ino, asU64_asI64 fits.size,
      asU32_cast fits.mtime.nanos, asU32_cast fits.ctime.nanos]
  rw [Row.decode, decodeContent_of fits.content, decodeBase_of fits.base, kind]
  exact congrArg Except.ok rebuilt

end Entry

theorem parseTime_formatTime {time : Timestamp} (fits : TimeFits time)
    : parseTime (formatTime time) = some time := by
  have clean : ∀ c ∈ displayInt time.secs, decide (c ≠ '.') = true := by
    intro c member
    rw [decide_eq_true_eq]
    rintro rfl
    exact notMem_displayInt time.secs (by decide) (by decide) member
  have after : (formatTime time).dropWhile (· ≠ '.') = '.' :: Nat.toDigits 10 time.nanos := by
    rw [formatTime, List.dropWhile_append_of_pos clean]
    simp
  have before : (formatTime time).takeWhile (· ≠ '.') = displayInt time.secs := by
    rw [formatTime, List.takeWhile_append_of_pos clean]
    simp
  rw [parseTime, after, before]
  have secs : parseSigned 64 (displayInt time.secs) = some time.secs :=
    parseSigned_displayInt fits.low fits.high
  simp only [secs, parseUnsigned_toDigits fits.nanos]
  rfl

-- Runs of transactions

/-- Every entry a change writes fits its columns. -/
def Change.FitsColumns : Change → Prop
  | .put entry => entry.Fits
  | .delete _ => True

/-- The journal that a run of transactions leaves, and its tables. -/
inductive Written : Journal → Tables → Prop where
  | fresh : Written Journal.fresh Tables.fresh
  | apply {journal : Journal} {tables : Tables} (before : Written journal tables)
      (changes : List Change) (delta : VanishedDelta) (overflow : Bool)
      (nextIno nextContentId : Nat) (rootTimes : Option (Timestamp × Timestamp))
      (fits : ∀ change ∈ changes, change.FitsColumns) (timesFit : TimesFit rootTimes)
      : Written (journal.apply changes delta overflow nextIno nextContentId rootTimes)
          (tables.apply changes rootTimes)
  | rebind {journal : Journal} {tables : Tables} (before : Written journal tables)
      (keep : List OverlayEntry) (rootTimes : Option (Timestamp × Timestamp))
      (fits : ∀ entry ∈ keep, entry.Fits) (timesFit : TimesFit rootTimes)
      : Written (journal.rebind keep rootTimes) (tables.rebind keep rootTimes)

/-- The table of rows holds the columns of these entries, one a path. -/
structure HoldsRows (rows : Rows) (table : List Row) (entries : List OverlayEntry) : Prop where
  columns : table = entries.map Row.of
  fits : ∀ entry ∈ entries, entry.Fits
  distinct : (entries.map OverlayEntry.path).Nodup
  same : ∀ entry, entry ∈ entries ↔ rows[entry.path]? = some entry

/-- The meta table holds these root times. -/
def HoldsTimes (times : Option (Timestamp × Timestamp)) (tables : Tables) : Prop :=
  match times with
  | some (mtime, ctime) =>
      tables.rootMtime = some (formatTime mtime)
      ∧ tables.rootCtime = some (formatTime ctime)
      ∧ TimeFits mtime
      ∧ TimeFits ctime
  | none => tables.rootMtime = none ∨ tables.rootMtime = some []

section Tables

variable {rows : Rows} {tables : Tables} {entries : List OverlayEntry}

theorem filter_columns (entries : List OverlayEntry) (path : BytePath)
    : (entries.map Row.of).filter (·.path != path)
      = (entries.filter (·.path != path)).map Row.of := by
  rw [List.filter_map]
  rfl

theorem holdsRows_nil : HoldsRows ∅ [] [] := by
  refine ⟨rfl, ?_, List.nodup_nil, ?_⟩
  · intro entry member
    cases member
  · intro entry
    simp

theorem HoldsRows.delete (held : HoldsRows rows tables.entries entries) (path : BytePath)
    : HoldsRows (rows.erase path) (tables.change (.delete path)).entries
        (entries.filter (·.path != path)) := by
  refine ⟨?_, ?_, ?_, ?_⟩
  · rw [← filter_columns, ← held.columns]
    rfl
  · intro entry member
    exact held.fits entry (List.mem_of_mem_filter member)
  · exact held.distinct.sublist (List.filter_sublist.map _)
  · intro entry
    rw [List.mem_filter, held.same, Std.ExtTreeMap.getElem?_erase, bne_iff_ne, ne_eq]
    simp only [Std.compare_eq_iff_eq]
    by_cases same : path = entry.path
    · simp [same]
    · simp [same, Ne.symm same]

/-- A row that is written replaces the one at its path. -/
theorem HoldsRows.put (held : HoldsRows rows tables.entries entries) {entry : OverlayEntry}
    (fits : entry.Fits)
    : HoldsRows (rows.insert entry.path entry) (tables.insertEntry entry).entries
        (entries.filter (·.path != entry.path) ++ [entry]) := by
  have rest := held.delete entry.path
  refine ⟨?_, ?_, ?_, ?_⟩
  · rw [List.map_append, ← rest.columns]
    rfl
  · intro other member
    rcases List.mem_append.mp member with listed | new
    · exact rest.fits other listed
    · rwa [List.mem_singleton.mp new]
  · rw [List.map_append, List.map_singleton]
    apply rest.distinct.append (List.nodup_singleton _)
    intro path listed new
    obtain ⟨other, member, rfl⟩ := List.mem_map.mp listed
    have apart := (List.mem_filter.mp member).2
    rw [List.mem_singleton.mp new] at apart
    simp at apart
  · intro other
    rw [List.mem_append, rest.same, List.mem_singleton, Std.ExtTreeMap.getElem?_insert,
      Std.ExtTreeMap.getElem?_erase]
    simp only [Std.compare_eq_iff_eq]
    by_cases same : entry.path = other.path
    · simp [same, eq_comm]
    · have apart : other ≠ entry := fun equal => same (by rw [equal])
      simp [same, apart]

theorem HoldsRows.change (held : HoldsRows rows tables.entries entries) {change : Change}
    (fits : change.FitsColumns)
    : ∃ entries',
        HoldsRows (overwrite rows [change.write]) (tables.change change).entries entries' := by
  cases change with
  | put entry => exact ⟨_, held.put fits⟩
  | delete path => exact ⟨_, held.delete path⟩

theorem HoldsRows.changes (held : HoldsRows rows tables.entries entries)
    (changes : List Change) (fits : ∀ change ∈ changes, change.FitsColumns)
    : ∃ entries',
        HoldsRows (overwrite rows (changes.map Change.write))
          (changes.foldl Tables.change tables).entries entries' := by
  induction changes generalizing rows tables entries with
  | nil => exact ⟨entries, held⟩
  | cons change changes ih =>
      obtain ⟨entries', stepped⟩ := held.change (fits change List.mem_cons_self)
      exact ih stepped (fun other member => fits other (List.mem_cons_of_mem _ member))

theorem foldl_change_times (changes : List Change) (tables : Tables)
    : (changes.foldl Tables.change tables).rootMtime = tables.rootMtime
      ∧ (changes.foldl Tables.change tables).rootCtime = tables.rootCtime := by
  induction changes generalizing tables with
  | nil => exact ⟨rfl, rfl⟩
  | cons change changes ih =>
      rw [List.foldl_cons, (ih _).1, (ih _).2]
      cases change <;> exact ⟨rfl, rfl⟩

theorem HoldsTimes.congr {times : Option (Timestamp × Timestamp)} {tables' : Tables}
    (held : HoldsTimes times tables)
    (same : tables'.rootMtime = tables.rootMtime ∧ tables'.rootCtime = tables.rootCtime)
    : HoldsTimes times tables' := by
  cases times with
  | none => rwa [HoldsTimes, same.1]
  | some pair => rwa [HoldsTimes, same.1, same.2]

theorem rootTimes_of_holds {times : Option (Timestamp × Timestamp)}
    (held : HoldsTimes times tables)
    : tables.rootTimes = times := by
  cases times with
  | none =>
      rcases held with missing | empty
      · rw [Tables.rootTimes, missing]
      · rw [Tables.rootTimes, empty]
        rfl
  | some pair =>
      obtain ⟨mtime, ctime, mtimeFits, ctimeFits⟩ := held
      rw [Tables.rootTimes, mtime, ctime]
      simp only [Option.bind_some, parseTime_formatTime mtimeFits,
        parseTime_formatTime ctimeFits]

theorem HoldsRows.load (held : HoldsRows rows tables.entries entries)
    : tables.load = .ok entries := by
  rw [Tables.load, held.columns]
  have fits := held.fits
  clear held
  induction entries with
  | nil => rfl
  | cons entry entries ih =>
      rw [List.map_cons, List.mapM_cons, decode_of (fits entry List.mem_cons_self),
        ih (fun other member => fits other (List.mem_cons_of_mem _ member))]
      rfl

end Tables

/-- A run of transactions leaves the journal's rows and root times in its tables. -/
theorem Written.holds {journal : Journal} {tables : Tables} (written : Written journal tables)
    : (∃ entries, HoldsRows journal.rows tables.entries entries)
      ∧ HoldsTimes journal.rootTimes tables := by
  induction written with
  | fresh =>
      exact ⟨⟨[], holdsRows_nil⟩, .inl rfl⟩
  | apply before changes delta overflow nextIno nextContentId rootTimes fits timesFit ih =>
      obtain ⟨⟨entries, held⟩, times⟩ := ih
      obtain ⟨entries', stepped⟩ := held.changes changes fits
      cases rootTimes with
      | none =>
          exact ⟨⟨entries', stepped⟩, times.congr (foldl_change_times changes _)⟩
      | some pair =>
          obtain ⟨mtimeFits, ctimeFits⟩ := timesFit pair.1 pair.2 rfl
          exact ⟨⟨entries', stepped⟩, rfl, rfl, mtimeFits, ctimeFits⟩
  | rebind before keep rootTimes fits timesFit ih =>
      have kept : ∀ change ∈ keep.map Change.put, change.FitsColumns := by
        intro change member
        obtain ⟨entry, listed, rfl⟩ := List.mem_map.mp member
        exact fits entry listed
      rename_i journal tables
      have cleared : HoldsRows ∅ ({ tables with entries := [] } : Tables).entries [] :=
        holdsRows_nil
      obtain ⟨entries', stepped⟩ := cleared.changes (keep.map Change.put) kept
      rw [List.map_map, List.foldl_map] at stepped
      cases rootTimes with
      | none => exact ⟨⟨entries', stepped⟩, .inr rfl⟩
      | some pair =>
          obtain ⟨mtimeFits, ctimeFits⟩ := timesFit pair.1 pair.2 rfl
          exact ⟨⟨entries', stepped⟩, rfl, rfl, mtimeFits, ctimeFits⟩

/-- Every entry is read back from its columns and every root time from its text, so a journal
opened again has the rows and root times that were written.
-/
theorem restart_keeps_rows
    : (∀ entry : OverlayEntry, entry.Fits → (Row.of entry).decode = .ok entry)
      ∧ (∀ time, TimeFits time → parseTime (formatTime time) = some time)
      ∧ ∀ journal tables, Written journal tables →
          tables.rootTimes = journal.rootTimes
          ∧ ∃ entries,
              tables.load = .ok entries
              ∧ (entries.map OverlayEntry.path).Nodup
              ∧ ∀ entry, entry ∈ entries ↔ journal.rows[entry.path]? = some entry := by
  refine ⟨fun _ => decode_of, fun _ => parseTime_formatTime, ?_⟩
  intro journal tables written
  obtain ⟨⟨entries, held⟩, times⟩ := written.holds
  exact ⟨rootTimes_of_holds times, entries, held.load, held.distinct, held.same⟩

/-- A deleted file with the largest inode number, whose base had an unsupported mode and times
before the epoch.
-/
def edgeEntry : OverlayEntry where
  path := [255, 47, 0]
  present := false
  kind := .executable
  opaqueDir := true
  ino := 2 ^ 64 - 1
  content := .local (2 ^ 63)
  symlinkTarget := some []
  size := 2 ^ 64 - 1
  mtime := ⟨-2 ^ 63, 2 ^ 32 - 1⟩
  ctime := ⟨-1, 5⟩
  renamedFrom := some [47]
  base := some ⟨⟨.lfsSha256, List.replicate 32 171⟩, .unsupported 33204, 2 ^ 63⟩

theorem restart_keeps_edge_row
    : (Row.of edgeEntry).decode = .ok edgeEntry
      ∧ parseTime (formatTime ⟨-7, 5⟩) = some ⟨-7, 5⟩
      ∧ ∃ entries,
          (Tables.fresh.apply [.put edgeEntry] (some (⟨-1, 5⟩, ⟨0, 0⟩))).load = .ok entries
          ∧ edgeEntry ∈ entries := by
  have fits : edgeEntry.Fits := by
    refine ⟨by decide, by unfold edgeEntry Content.Fits; decide, by decide, ⟨by decide, by decide,
      by decide⟩, ⟨by decide, by decide, by decide⟩, ?_⟩
    intro facts held
    cases held
    exact ⟨by decide, ⟨33204, by decide, rfl⟩, by decide⟩
  have times : TimesFit (some (⟨-1, 5⟩, ⟨0, 0⟩)) := by
    intro mtime ctime same
    cases same
    exact ⟨⟨by decide, by decide, by decide⟩, ⟨by decide, by decide, by decide⟩⟩
  have written := Written.fresh.apply [.put edgeEntry] ⟨[], []⟩ false 0 0 _
    (by intro change member; rw [List.mem_singleton.mp member]; exact fits) times
  obtain ⟨-, entries, loaded, -, same⟩ := restart_keeps_rows.2.2 _ _ written
  refine ⟨restart_keeps_rows.1 _ fits, restart_keeps_rows.2.1 _ ⟨by decide, by decide, by decide⟩,
    entries, loaded, (same _).mpr ?_⟩
  simp [Journal.apply, Change.write, overwrite]

end Gfs.Overlay
