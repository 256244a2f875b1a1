import Gfs.Mount.Projecting

/-! What a scan leaves of the protected blocks (`gfs-mount/src/odb.rs`): reads one after another,
and when the blocks that were read again before them survive.
-/

namespace Gfs.Mount.Odb

open Gfs.Types
open Gfs.Lib
open Gfs.Service.Odb

-----------------------------------------------------------------------------------------
-- Protected blocks
-----------------------------------------------------------------------------------------

/-- A block is in the protected queue. -/
def Residency.guards (residency : Residency) (key : BlockKey) : Bool :=
  (residency.entries.lookup key).any BlockEntry.isProtected

/-- What an entry weighs in probation. -/
def BlockEntry.probationLen (entry : BlockEntry) : Nat :=
  if entry.isProtected then 0 else entry.len

section Guards

variable {residency after : Residency} {key : BlockKey} {entry : BlockEntry}

theorem Residency.guards_eq_true
    : residency.guards key = true
      ↔ ∃ entry, residency.entries.lookup key = some entry ∧ entry.isProtected = true := by
  rw [Residency.guards, Option.any_eq_true]

theorem Residency.Queued.resident_eq (queued : residency.Queued)
    : residency.residentBytes
      = residency.protectedBytes + Tallies.total BlockEntry.probationLen residency.entries := by
  rw [queued.resident, queued.guarded, ← Tallies.total_add]
  congr 1
  funext entry
  rw [BlockEntry.protectedLen, BlockEntry.probationLen]
  cases entry.isProtected with
  | true => rfl
  | false => exact (Nat.zero_add _).symm

theorem Residency.demoteLoop_fits (fits : residency.protectedBytes ≤ residency.limit / 2)
    (fuel : Nat)
    : Residency.demoteLoop fuel residency = residency := by
  cases fuel with
  | zero => rfl
  | succ fuel => rw [Residency.demoteLoop, if_neg (Nat.not_lt.mpr fits)]

theorem Residency.removeQueued_limit (residency : Residency) (entry : BlockEntry)
    : (residency.removeQueued entry).limit = residency.limit := by
  rw [Residency.removeQueued]
  split
  · rfl
  · rfl

/-- A block that is read again where it fits the protected half joins it, and none leaves. -/
theorem Residency.touch_fits (on : residency.limit ≠ 0)
    (found : residency.entries.lookup key = some entry)
    (fits : residency.protectedBytes + entry.probationLen ≤ residency.limit / 2)
    : (residency.touch key).protectedBytes = residency.protectedBytes + entry.probationLen
      ∧ ∀ other,
        (residency.touch key).guards other
        = (decide (other = key) || residency.guards other) := by
  have bytes
      : (if entry.isProtected then residency.protectedBytes
          else residency.protectedBytes + entry.len)
        = residency.protectedBytes + entry.probationLen := by
    rw [BlockEntry.probationLen]
    cases entry.isProtected with
    | true => rfl
    | false => rfl
  have limit := residency.removeQueued_limit entry
  rw [Residency.touch, if_neg on, found]
  dsimp only
  rw [Residency.demoteLoop_fits (by dsimp only; rw [bytes, limit]; exact fits)]
  refine ⟨bytes, fun other => ?_⟩
  rw [Residency.guards, Residency.guards]
  dsimp only
  rw [Tallies.lookup_insert]
  by_cases same : other = key
  · rw [if_pos same, decide_eq_true same]
    rfl
  · rw [if_neg same, decide_eq_false same, Bool.false_or]

theorem Residency.admitBlock_guards (missing : residency.entries.lookup key = none) (len : Nat)
    : (residency.admitBlock key len).protectedBytes = residency.protectedBytes
      ∧ ∀ other, (residency.admitBlock key len).guards other = residency.guards other := by
  rw [Residency.admitBlock]
  split
  · exact ⟨rfl, fun _ => rfl⟩
  · rw [missing]
    refine ⟨rfl, fun other => ?_⟩
    rw [Residency.guards, Residency.guards]
    dsimp only
    rw [Tallies.lookup_insert]
    split
    · rename_i same
      rw [same, missing]
      rfl
    · rfl

theorem Residency.Queued.forget_guards (queued : residency.Queued)
    (forgotten : residency.forget key = some (after, entry))
    (unguarded : residency.guards key = false)
    : after.protectedBytes = residency.protectedBytes
      ∧ ∀ other, after.guards other = residency.guards other := by
  obtain ⟨right, found, -, -, -, erased⟩ := queued.forget forgotten
  have kind : entry.isProtected = false := by
    rw [Residency.guards, found] at unguarded
    exact unguarded
  constructor
  · rw [right.guarded, queued.guarded, erased, Tallies.total_erase found, BlockEntry.protectedLen,
      kind]
    exact (Nat.zero_add _).symm
  · intro other
    rw [Residency.guards, Residency.guards, erased, Tallies.lookup_erase]
    split
    · rename_i same
      rw [same, found]
      exact kind.symm
    · rfl

theorem Residency.Queued.victim_unguarded (queued : residency.Queued) {keys : List BlockKey}
    (pinned : ∀ key, (residency.pins.lookup key).isSome = true → key ∈ keys)
    (room
      : residency.protectedBytes
          + (keys.map fun key =>
              ((residency.entries.lookup key).map BlockEntry.probationLen).getD 0).sum
        ≤ residency.limit)
    (full : residency.overLimit = true) (chosen : residency.victim = some key)
    : residency.guards key = false := by
  by_contra guarded
  obtain ⟨entry, found, kind⟩ := Residency.guards_eq_true.mp (by simpa using guarded)
  have free : residency.pins.lookup key = none := (queued.victim_some chosen).2
  -- The blocks in probation come before the victim, so all of them are pinned.
  have probation : ∀ other held, residency.entries.lookup other = some held → other ∉ keys →
      held.probationLen = 0 := by
    intro other held found' absent
    rw [BlockEntry.probationLen]
    split
    · rfl
    · rename_i unprotected
      have unprotected := Bool.eq_false_of_not_eq_true unprotected
      have row := queued.queued other held found'
      rw [unprotected, if_neg Bool.false_ne_true] at row
      rw [Residency.victim, List.map_append, List.find?_append] at chosen
      cases first : (residency.probation.rows.map Prod.snd).find?
          (fun key => (residency.pins.lookup key).isNone) with
      | none =>
          have pin := List.find?_eq_none.mp first other (List.mem_map_of_mem row)
          exact absurd (pinned other (Option.ne_none_iff_isSome.mp (by simpa using pin))) absent
      | some before =>
          rw [first, Option.some_or] at chosen
          cases chosen
          obtain ⟨row, member, same⟩ := List.mem_map.mp (List.mem_of_find?_eq_some first)
          obtain ⟨entry', found'', -, kind'⟩ := queued.probation row member
          rw [same] at found''
          cases found.symm.trans found''
          rw [kind] at kind'
          cases kind'
  have few := Tallies.total_le_sum keys residency.entries probation
  rw [Residency.overLimit, Bool.and_eq_true, decide_eq_true_eq, decide_eq_true_eq,
    queued.resident_eq] at full
  omega

theorem Residency.admitBlock_limit (residency : Residency) (key : BlockKey) (len : Nat)
    : (residency.admitBlock key len).limit = residency.limit := by
  rw [Residency.admitBlock]
  split
  · rfl
  · dsimp only
    split
    · exact Residency.removeQueued_limit _ _
    · rfl

theorem Residency.forget_limit (forgotten : residency.forget key = some (after, entry))
    : after.limit = residency.limit := by
  obtain ⟨held, -, pair⟩ := Option.map_eq_some_iff.mp forgotten
  cases pair
  exact Residency.removeQueued_limit _ _

end Guards

theorem markBlock_limit (path : Text) (state : StoreState) (index : Nat)
    : (Odb.markBlock path state index).residency.limit = state.residency.limit := by
  rw [Odb.markBlock]
  split
  · rfl
  · dsimp only
    split
    · rfl
    · exact Residency.admitBlock_limit _ _ _

theorem evictLoop_limit (punches : BlockKey → Bool) (fuel : Nat) (state : StoreState) (disk : Disk)
    : (Odb.evictLoop punches fuel state disk).1.residency.limit = state.residency.limit := by
  induction fuel generalizing state disk with
  | zero => rfl
  | succ fuel ih =>
      rw [Odb.evictLoop]
      split
      · split
        · rfl
        · split
          · rfl
          · rename_i residency entry forgotten
            have limit := Residency.forget_limit forgotten
            split
            · exact (ih _ _).trans limit
            · split
              · exact (ih _ _).trans limit
              · exact (ih _ _).trans limit
      · rfl

theorem mark_limit (state : StoreState) (disk : Disk) (read : Read) (bytes : Bytes) (run : Run)
    (punches : BlockKey → Bool)
    : (state.mark disk read bytes run punches).1.residency.limit = state.residency.limit := by
  have marked : ∀ indices : List Nat,
      (indices.foldl (Odb.markBlock read.path) state).residency.limit = state.residency.limit := by
    intro indices
    induction indices using List.reverseRecOn with
    | nil => rfl
    | append_singleton indices index ih =>
        rw [List.foldl_concat, markBlock_limit, ih]
  rw [StoreState.mark, evictToLimit]
  exact (evictLoop_limit _ _ _ _).trans (marked _)

-- The bookkeeping, whatever the bytes

/-- The bookkeeping is right, whatever the files hold. -/
def StoreState.Tracked (state : StoreState) : Prop :=
  ∃ version disk, state.Sound version disk

/-- The files as the local ones have them. -/
def StoreState.contents (state : StoreState) (disk : Disk) (path : Text) : Bytes :=
  match state.files path with
  | some file => (List.range file.size).map (disk path)
  | none => []

section Contents

variable {state after : StoreState} {path : Text} {file : FileState}

theorem contents_length (disk : Disk) (found : state.files path = some file)
    : (state.contents disk path).length = file.size := by
  rw [StoreState.contents, found, List.length_map, List.length_range]

theorem holds_contents (disk : Disk) (path : Text) (index : Nat)
    : disk.Holds (state.contents disk) path index := by
  intro place _ _ within
  rw [StoreState.contents] at within ⊢
  split
  · rename_i file found
    rw [found, List.length_map, List.length_range] at within
    rw [List.getElem?_map, List.getElem?_range within]
    rfl
  · rename_i missing
    rw [missing] at within
    exact absurd within (Nat.not_lt_zero _)

theorem StoreState.Tracked.sound (tracked : state.Tracked) (disk : Disk)
    : state.Sound (state.contents disk) disk := by
  obtain ⟨version, held, sound⟩ := tracked
  exact ⟨sound.named, fun path file found => (contents_length disk found).symm, sound.words,
    fun path file found index has =>
      ⟨(sound.present path file found index has).1, holds_contents disk path index⟩,
    sound.queued, sound.tracked, sound.off, sound.positive⟩

theorem StoreState.Tracked.withResidency (tracked : state.Tracked) {residency : Residency}
    (stats : OdbStats) (queued : residency.Queued)
    (lens : ∀ key, residency.lenOf key = state.residency.lenOf key)
    (limit : residency.limit = state.residency.limit)
    (off : state.residency.limit = 0 → residency.entries = state.residency.entries)
    (positive : residency.PinsPositive)
    : StoreState.Tracked { state with residency, stats } := by
  obtain ⟨version, disk, sound⟩ := tracked
  refine ⟨version, disk, sound.named, sound.sized, sound.words, sound.present, queued,
    fun on key len => ?_, fun zero => ?_, positive⟩
  · rw [lens]
    exact sound.tracked (limit ▸ on) key len
  · rw [limit] at zero
    exact (off zero).trans (sound.off zero)

theorem StoreState.Tracked.lookup (tracked : state.Tracked) (on : state.residency.limit ≠ 0)
    (found : state.files path = some file) {index : Nat} (has : file.has index = true)
    : ∃ entry,
        state.residency.entries.lookup (file.id, index) = some entry
        ∧ entry.len = file.blockLen index := by
  obtain ⟨version, disk, sound⟩ := tracked
  have held := (sound.tracked on (file.id, index) _).mpr ⟨path, file, found, rfl, has, rfl⟩
  exact Option.map_eq_some_iff.mp held

theorem StoreState.Tracked.present (tracked : state.Tracked)
    (found : state.files path = some file) {index : Nat} {entry : BlockEntry}
    (held : state.residency.entries.lookup (file.id, index) = some entry)
    : file.has index = true ∧ entry.len = file.blockLen index := by
  obtain ⟨version, disk, sound⟩ := tracked
  have on : state.residency.limit ≠ 0 := by
    intro zero
    rw [sound.off zero] at held
    cases held
  obtain ⟨other, file', found', id, has, len⟩ :=
    (sound.tracked on (file.id, index) entry.len).mp (by rw [Residency.lenOf, held]; rfl)
  cases sound.path_unique found found' id
  cases found.symm.trans found'
  exact ⟨has, len.symm⟩

end Contents

-- One step of a read

/-- What a read's next step does to the store and to the read. -/
inductive Projection.Advanced (projection : Projection) (read : Read) (punches : BlockKey → Bool)
    : StoreState → Read → Prop where
  | moved {phase : Phase} (live : phase.live = read.phase.live)
      (runs : ∀ run ∈ phase.runs, run ∈ read.phase.runs)
      : Advanced projection read punches projection.state { read with phase }
  | stopped {outcome : Outcome} (poisoned : projection.poisoned = true)
      : Advanced projection read punches projection.state { read with phase := .done outcome }
  | marked {bytes : Bytes} {run : Run} {rest : List Run} {cost : ReadCost}
      (running : projection.poisoned = false) (phase : read.phase = .marking bytes run rest)
      : Advanced projection read punches
          (projection.state.mark projection.disk read bytes run punches).1
          { read with cost, phase := afterRuns rest }
  | released {outcome : Outcome} (running : projection.poisoned = false)
      (phase : read.phase = .releasing outcome)
      : Advanced projection read punches
          { projection.state with residency := projection.state.residency.release read }
          { read with phase := .done outcome }

theorem Projection.advanced (projection : Projection) (read : Read) (given : Surroundings)
    : projection.Advanced read given.punches (projection.advance read given).1
        (projection.advance read given).2.2 := by
  rw [Projection.advance]
  split
  · rename_i run rest phase
    dsimp only
    split
    · exact .moved (by rw [phase]; rfl)
        (by rw [phase]; exact fun _ member => absurd member List.not_mem_nil)
    · split
      · exact .moved (by rw [phase]; rfl)
          (by rw [phase]; exact fun _ member => absurd member List.not_mem_nil)
      · exact .moved (by rw [phase]; rfl) (by rw [phase]; exact fun _ => id)
  · rename_i bytes run rest phase
    dsimp only
    split
    · exact .moved (by rw [phase]; rfl) (by rw [phase]; exact fun _ => id)
    · exact .moved (by rw [phase]; rfl)
        (by rw [phase]; exact fun _ member => absurd member List.not_mem_nil)
  · rename_i bytes run rest phase
    split
    · rename_i poisoned
      exact .stopped poisoned
    · rename_i running
      exact .marked (Bool.eq_false_of_not_eq_true running) phase
  · rename_i phase
    exact .moved (by rw [phase]; rfl)
      (by rw [phase]; exact fun _ member => absurd member List.not_mem_nil)
  · rename_i outcome phase
    split
    · rename_i poisoned
      exact .stopped poisoned
    · rename_i running
      exact .released (Bool.eq_false_of_not_eq_true running) phase
  · rename_i outcome phase
    exact .moved rfl (fun _ => id)

/-- What the start of a read does: it ends there, or it classifies the blocks of its file. -/
inductive Projection.Started (projection : Projection) (path : Text) (offset size : Nat)
    : Projection → Prop where
  | ended {read : Read} {poisoned : Bool} (dead : read.phase.live = false)
      (stays : projection.poisoned = true → poisoned = true)
      : Started projection path offset size
          { projection with poisoned, reads := projection.reads ++ [read] }
  | classified {file : FileState} {read : Read} {stats : OdbStats}
      (running : projection.poisoned = false) (found : projection.state.files path = some file)
      (inside : offset < file.size) (some_end : 0 < min (offset + size) file.size)
      (same
        : read.path = path
          ∧ read.fileId = file.id
          ∧ read.total = file.size
          ∧ read.first = offset / block
          ∧ read.last = (min (offset + size) file.size - 1) / block)
      (phase
        : read.phase
          = afterRuns
              (classify file projection.state.residency read.first read.last).2.1)
      : Started projection path offset size
          { projection with
            state :=
              { projection.state with
                residency := (classify file projection.state.residency read.first read.last).1
                stats }
            reads := projection.reads ++ [read] }

theorem Projection.started (projection : Projection) (path : Text) (offset size : Nat)
    : projection.Started path offset size (projection.start path offset size) := by
  rw [Projection.start]
  split
  · rename_i poisoned
    exact @Started.ended projection path offset size _ projection.poisoned rfl id
  · rename_i running
    split
    · exact @Started.ended projection path offset size _ projection.poisoned rfl id
    · rename_i file found
      split
      · exact @Started.ended projection path offset size _ projection.poisoned rfl id
      · rename_i inside
        dsimp only
        split
        · exact .ended rfl (fun _ => rfl)
        · rename_i some_end
          exact @Started.classified projection path offset size file
            ⟨path, offset, size, file.id, file.size, offset / block,
              (min (offset + size) file.size - 1) / block, ⟨0, 0, _⟩, afterRuns _⟩
            _ (Bool.eq_false_of_not_eq_true running) found (Nat.lt_of_not_le inside)
            (Nat.pos_of_ne_zero some_end) ⟨rfl, rfl, rfl, rfl, rfl⟩ rfl

-- Every read

/-- A read stands at its file, and its runs are of its blocks. -/
structure Read.Placed (state : StoreState) (read : Read) : Prop where
  bounds
    : read.phase.live = true → ∃ file,
        state.files read.path = some file
        ∧ file.id = read.fileId
        ∧ file.size = read.total
        ∧ read.last * block < read.total
  runs
    : ∀ run ∈ read.phase.runs, read.first ≤ run.1 ∧ run.1 ≤ run.2 ∧ run.2 ≤ read.last

/-- The bookkeeping is right, and a block is pinned once for each read that holds it. -/
structure Projection.Booked (limit : Nat) (projection : Projection) : Prop where
  tracked : projection.state.Tracked
  limit : projection.state.residency.limit = limit
  pins
    : projection.poisoned = false
        → ∀ key,
          projection.state.residency.pinsOn key
          = projection.reads.countP (fun read => read.pinning key)
  reads : ∀ read ∈ projection.reads, read.Placed projection.state

section Booked

variable {limit : Nat} {projection : Projection}

theorem Read.Placed.keeps {state after : StoreState} {read : Read} (placed : read.Placed state)
    (same
      : ∀ path file, state.files path = some file
          → ∃ next, after.files path = some next ∧ file.Same next)
    : read.Placed after := by
  refine ⟨fun live => ?_, placed.runs⟩
  obtain ⟨file, found, id, size, within⟩ := placed.bounds live
  obtain ⟨next, found', same⟩ := same read.path file found
  exact ⟨next, found', same.id.trans id, same.size.trans size, within⟩

theorem Projection.Booked.holder (booked : projection.Booked limit)
    (running : projection.poisoned = false) {key : BlockKey}
    (pinned : (projection.state.residency.pins.lookup key).isSome = true)
    : ∃ read ∈ projection.reads, read.pinning key = true := by
  obtain ⟨version, disk, sound⟩ := booked.tracked
  have positive : 0 < projection.state.residency.pinsOn key := by
    obtain ⟨count, found⟩ := Option.isSome_iff_exists.mp pinned
    rw [Residency.pinsOn, found]
    exact sound.positive key count found
  rw [booked.pins running] at positive
  exact List.countP_pos_iff.mp positive

theorem Projection.Booked.pinned (booked : projection.Booked limit)
    (running : projection.poisoned = false) {read : Read} (member : read ∈ projection.reads)
    {key : BlockKey} (holds : read.pinning key = true)
    : (projection.state.residency.pins.lookup key).isSome = true := by
  have positive : 0 < projection.state.residency.pinsOn key := by
    rw [booked.pins running]
    exact List.countP_pos_iff.mpr ⟨read, member, holds⟩
  rw [Residency.pinsOn] at positive
  cases found : projection.state.residency.pins.lookup key with
  | none =>
      rw [found] at positive
      exact absurd positive (Nat.lt_irrefl 0)
  | some count => rfl

theorem Projection.Booked.mark (booked : projection.Booked limit)
    (running : projection.poisoned = false) {read : Read} (member : read ∈ projection.reads)
    {bytes : Bytes} {run : Run} {rest : List Run} (phase : read.phase = .marking bytes run rest)
    (punches : BlockKey → Bool)
    : let after := (projection.state.mark projection.disk read bytes run punches).1
      after.Tracked
      ∧ (∀ path file, projection.state.files path = some file
        → ∃ next, after.files path = some next ∧ file.Same next)
      ∧ after.residency.pins = projection.state.residency.pins := by
  intro after
  have live : read.phase.live = true := by rw [phase]; rfl
  have placed := booked.reads read member
  obtain ⟨file, found, id, size, within⟩ := placed.bounds live
  have bounds := placed.runs run (by rw [phase]; exact List.mem_cons_self)
  obtain ⟨sound, keeps, -, pins, -⟩ :=
    (booked.tracked.sound projection.disk).mark read bytes run punches
      (by
        intro index inside
        refine ⟨?_, holds_contents _ _ _⟩
        rw [contents_length _ found, size]
        refine lt_of_le_of_lt (Nat.mul_le_mul_right _ ?_) within
        exact inside.2.trans bounds.2.2)
      (by
        intro file' found' index inside
        cases found.symm.trans found'
        refine booked.pinned running member (Read.pinning_iff.mpr ⟨live, id.symm, ?_, ?_⟩)
        · exact bounds.1.trans inside.1
        · exact inside.2.trans bounds.2.2)
  refine ⟨⟨_, _, sound⟩, fun path file found => ?_, pins⟩
  obtain ⟨next, found', same, -⟩ := keeps path file found
  exact ⟨next, found', same⟩

/-- The reads after one of them took a step. -/
theorem Projection.Booked.replace (booked : projection.Booked limit) {place : Nat}
    {read next : Read} {state : StoreState} {disk : Disk}
    (at_place : projection.reads[place]? = some read)
    (tracked : state.Tracked)
    (same
      : ∀ path file, projection.state.files path = some file
          → ∃ next, state.files path = some next ∧ file.Same next)
    (kept : state.residency.limit = projection.state.residency.limit)
    (pins
      : projection.poisoned = false
          → ∀ key,
            state.residency.pinsOn key + (if read.pinning key then 1 else 0)
            = projection.state.residency.pinsOn key + (if next.pinning key then 1 else 0))
    (placed : next.Placed state)
    : Projection.Booked limit
        { projection with state, disk, reads := projection.reads.set place next } := by
  refine ⟨tracked, kept.trans booked.limit, fun running key => ?_, fun other listed => ?_⟩
  · have counted := @countP_set projection.reads place read next
      (fun read => read.pinning key) at_place
    have held := pins running key
    rw [booked.pins running] at held
    dsimp only at counted ⊢
    omega
  · rcases List.mem_or_eq_of_mem_set listed with old | rfl
    · exact (booked.reads other old).keeps same
    · exact placed

theorem sameFiles_refl (state : StoreState) (path : Text) (file : FileState)
    (found : state.files path = some file)
    : ∃ next, state.files path = some next ∧ file.Same next :=
  ⟨file, found, rfl, rfl, rfl⟩

/-- A read's next step keeps the books. -/
theorem Projection.Booked.advance (booked : projection.Booked limit) {place : Nat} {read : Read}
    (at_place : projection.reads[place]? = some read) {punches : BlockKey → Bool}
    {state : StoreState} {next : Read} (disk : Disk)
    (advanced : projection.Advanced read punches state next)
    : Projection.Booked limit
        { projection with state, disk, reads := projection.reads.set place next } := by
  have member := List.mem_of_getElem? at_place
  have own := booked.reads read member
  cases advanced with
  | @moved phase live runs =>
      refine booked.replace at_place booked.tracked (sameFiles_refl _) rfl (fun _ key => ?_) ?_
      · rw [Read.pinning, Read.pinning, live]
      · refine ⟨fun alive => own.bounds (live ▸ alive), fun run listed => ?_⟩
        exact own.runs run (runs run listed)
  | stopped poisoned =>
      refine booked.replace at_place booked.tracked (sameFiles_refl _) rfl (fun running => ?_) ?_
      · rw [poisoned] at running
        cases running
      · exact ⟨fun live => absurd live Bool.false_ne_true,
               fun _ member => absurd member List.not_mem_nil⟩
  | @marked bytes run rest cost running phase =>
      obtain ⟨tracked, same, pins⟩ := booked.mark running member phase punches
      have still : (afterRuns rest).live = true := by cases rest <;> rfl
      have listed : (afterRuns rest).runs = rest := by cases rest <;> rfl
      have live : read.phase.live = true := by rw [phase]; rfl
      refine booked.replace at_place tracked same (mark_limit _ _ _ _ _ _) (fun _ key => ?_) ?_
      · rw [Residency.pinsOn, pins, Read.pinning, Read.pinning, live]
        dsimp only
        rw [still]
        rfl
      · refine Read.Placed.keeps ⟨fun _ => own.bounds live, fun other inside => ?_⟩ same
        dsimp only at inside
        rw [listed] at inside
        exact own.runs other (by rw [phase]; exact List.mem_cons_of_mem _ inside)
  | @released outcome running phase =>
      have live : read.phase.live = true := by rw [phase]; rfl
      obtain ⟨version, disk', sound⟩ := booked.tracked
      obtain ⟨pins, same, positive, counts⟩ := release_spec sound.positive read
      refine booked.replace at_place ?_ (sameFiles_refl _) (by rw [same]) (fun _ key => ?_)
        ⟨fun live => absurd live Bool.false_ne_true,
         fun _ member => absurd member List.not_mem_nil⟩
      · rw [same] at positive ⊢
        exact booked.tracked.withResidency _
          ⟨sound.queued.queued, sound.queued.probation, sound.queued.protectedQueue,
            sound.queued.recent, sound.queued.resident, sound.queued.guarded⟩
          (fun _ => rfl) rfl (fun _ => rfl) positive
      · have mine
            : (if read.fileId = key.1 ∧ read.first ≤ key.2 ∧ key.2 ≤ read.last then 1 else 0)
              = if read.pinning key = true then 1 else 0 := by
          refine if_congr ?_ rfl rfl
          rw [Read.pinning_iff]
          exact ⟨fun covers => ⟨live, covers⟩, fun holds => holds.2⟩
        have held : (if read.pinning key = true then 1 else 0)
            ≤ projection.state.residency.pinsOn key := by
          split
          · rename_i holds
            rw [booked.pins running]
            exact List.countP_pos_iff.mpr ⟨read, member, holds⟩
          · exact Nat.zero_le _
        have gone : Read.pinning { read with phase := .done outcome } key = false := rfl
        rw [gone]
        dsimp only
        rw [counts, mine]
        simp only [Bool.false_eq_true, if_false, Nat.add_zero]
        exact Nat.sub_add_cancel held

/-- A read's start keeps the books. -/
theorem Projection.Booked.start (booked : projection.Booked limit) {path : Text} {offset size : Nat}
    {after : Projection} (started : projection.Started path offset size after)
    : after.Booked limit := by
  cases started with
  | @ended read poisoned dead stays =>
      refine ⟨booked.tracked, booked.limit, fun running key => ?_, fun other member => ?_⟩
      · have before : projection.poisoned = false := by
          cases already : projection.poisoned with
          | false => rfl
          | true => cases (stays already).symm.trans running
        have idle : read.pinning key = false := by
          rw [Read.pinning, dead]
          rfl
        rw [booked.pins before, List.countP_append, List.countP_singleton, idle]
        rfl
      · rcases List.mem_append.mp member with old | new
        · exact booked.reads other old
        · rw [List.mem_singleton.mp new]
          refine ⟨fun live => ?_, fun run listed => ?_⟩
          · cases dead.symm.trans live
          · cases phase : read.phase with
            | done outcome =>
                rw [phase] at listed
                cases listed
            | _ =>
                rw [phase] at dead
                cases dead
  | @classified file read stats running found inside some_end same phase =>
      obtain ⟨version, disk, sound⟩ := booked.tracked
      obtain ⟨at_path, id, total, first, last⟩ := same
      obtain ⟨queued, lens, kept, off, positive, counts, runs, -⟩ :=
        @classify_spec file _ sound.queued sound.positive read.first read.last (by
          rw [first, last]
          exact first_le_last _ _ _ inside)
      have live : read.phase.live = true := by
        rw [phase]
        cases (classify file projection.state.residency read.first read.last).2.1 <;> rfl
      refine ⟨booked.tracked.withResidency _ queued lens kept off positive,
        kept.trans booked.limit, fun _ key => ?_, fun other member => ?_⟩
      · rw [List.countP_append, List.countP_singleton, ← booked.pins running]
        refine (counts key).trans ?_
        congr 1
        refine if_congr ?_ rfl rfl
        rw [Read.pinning_iff, id]
        exact ⟨fun covers => ⟨live, covers.1.symm, covers.2⟩,
          fun holds => ⟨holds.2.1.symm, holds.2.2⟩⟩
      · rcases List.mem_append.mp member with old | new
        · exact (booked.reads other old).keeps (sameFiles_refl _)
        · rw [List.mem_singleton.mp new]
          refine ⟨fun _ => ⟨file, ?_, id.symm, total.symm, ?_⟩, fun run listed => ?_⟩
          · rw [at_path]
            exact found
          · rw [last, total]
            have whole := Nat.div_mul_le_self (min (offset + size) file.size - 1) block
            omega
          · refine runs run ?_
            rw [phase] at listed
            generalize (classify file projection.state.residency read.first read.last).2.1 = those
              at listed
            cases those <;> exact listed

/-- Every step keeps the books. -/
theorem Projection.Booked.step (booked : projection.Booked limit) (event : Event)
    : (projection.step event).Booked limit := by
  cases event with
  | start path offset size => exact booked.start (projection.started path offset size)
  | advance place given =>
      rw [Projection.step]
      split
      · exact booked
      · rename_i read at_place
        exact booked.advance at_place _ (projection.advanced read given)
  | cancel place =>
      rw [Projection.step]
      split
      · exact booked
      · rename_i read at_place
        split
        · rename_i run rest phase
          exact @Projection.Booked.advance limit projection booked place read at_place
            (fun _ => false) _ _ projection.disk
            (.moved (by rw [phase]; rfl)
              (by rw [phase]; exact fun _ member => absurd member List.not_mem_nil))
        · exact booked
  | sync gateway => exact ⟨booked.tracked, booked.limit, booked.pins, booked.reads⟩

theorem Projection.Booked.open (gateway : Objects) {manifest : List OdbFile}
    (few : manifest.length ≤ 2 ^ 32) (limit : Nat)
    : (Projection.open gateway manifest limit).Booked limit := by
  refine ⟨⟨fun path => ?_, fun _ _ => 0, StoreState.sound_open few limit ?_ _⟩, rfl,
    fun _ _ => rfl, nofun⟩
  · exact (StoreState.open manifest limit).contents (fun _ _ => 0) path
  · intro path file found
    exact (contents_length _ found).symm

end Booked

-- What fits beside the protected blocks

/-- What a block of a file weighs, unless it is protected. -/
def Residency.unguardedLen (residency : Residency) (id size index : Nat) : Nat :=
  if residency.guards (id, index) then 0 else min (size - index * block) block

/-- What reading a block of a file adds to the protected bytes. -/
def FileState.promotedLen (file : FileState) (residency : Residency) (index : Nat) : Nat :=
  if file.has index then residency.unguardedLen file.id file.size index else 0

/-- The blocks of a read fit the limit beside the protected ones. -/
def Residency.Fits (residency : Residency) (id size first last : Nat) : Prop :=
  residency.protectedBytes
    + ((List.range' first (last + 1 - first)).map (residency.unguardedLen id size)).sum
  ≤ residency.limit

/-- The protected bytes, and which blocks they are of, are the same. -/
structure Residency.SameGuards (residency after : Residency) : Prop where
  bytes : after.protectedBytes = residency.protectedBytes
  guards : ∀ key, after.guards key = residency.guards key

section Fits

variable {version : Text → Bytes} {state : StoreState} {disk : Disk} {residency after : Residency}

theorem Residency.SameGuards.refl (residency : Residency) : residency.SameGuards residency :=
  ⟨rfl, fun _ => rfl⟩

theorem Residency.SameGuards.trans {last : Residency} (first : residency.SameGuards after)
    (second : after.SameGuards last)
    : residency.SameGuards last :=
  ⟨second.bytes.trans first.bytes, fun key => (second.guards key).trans (first.guards key)⟩

theorem Residency.Fits.same {id size first last : Nat} (fits : residency.Fits id size first last)
    (same : residency.SameGuards after) (limit : after.limit = residency.limit)
    : after.Fits id size first last := by
  have lens : after.unguardedLen id size = residency.unguardedLen id size := by
    funext index
    rw [Residency.unguardedLen, Residency.unguardedLen, same.guards]
  rw [Residency.Fits, same.bytes, limit, lens]
  exact fits

theorem StoreState.Sound.markBlock_guards (sound : state.Sound version disk) (path : Text)
    (index : Nat)
    : state.residency.SameGuards (Odb.markBlock path state index).residency := by
  rw [Odb.markBlock]
  split
  · exact .refl _
  · rename_i file found
    split
    · exact .refl _
    · rename_i absent
      dsimp only
      have missing : state.residency.entries.lookup (file.id, index) = none := by
        cases held : state.residency.entries.lookup (file.id, index) with
        | none => rfl
        | some entry =>
            have tracked : state.Tracked := ⟨version, disk, sound⟩
            exact absurd (tracked.present found held).1 absent
      obtain ⟨bytes, guards⟩ := Residency.admitBlock_guards missing _
      exact ⟨bytes, guards⟩

theorem StoreState.Sound.markBlocks_guards (sound : state.Sound version disk) {path : Text}
    {indices : List Nat}
    (right
      : ∀ index ∈ indices,
          index * block < (version path).length ∧ disk.Holds version path index)
    : state.residency.SameGuards (indices.foldl (Odb.markBlock path) state).residency := by
  induction indices generalizing state with
  | nil => exact .refl _
  | cons index indices ih =>
      obtain ⟨⟨within, held⟩, others⟩ := List.forall_mem_cons.mp right
      obtain ⟨sound', -⟩ := sound.markBlock within held
      exact (sound.markBlock_guards path index).trans (ih sound' others)

/-- Where the pinned blocks fit the limit beside the protected ones, evicting changes nothing of
the protected ones.
-/
theorem StoreState.Sound.evictLoop_guards (sound : state.Sound version disk) {id : Nat}
    {file : FileState} {path : Text} (found : state.files path = some file) (same : file.id = id)
    {size first last : Nat} (sized : file.size = size)
    (pinned
      : ∀ key, (state.residency.pins.lookup key).isSome = true
          → key.1 = id ∧ first ≤ key.2 ∧ key.2 ≤ last)
    (fits : state.residency.Fits id size first last) (punches : BlockKey → Bool) (fuel : Nat)
    : state.residency.SameGuards (Odb.evictLoop punches fuel state disk).1.residency := by
  induction fuel generalizing state disk file with
  | zero => exact .refl _
  | succ fuel ih =>
      rw [Odb.evictLoop]
      split
      · rename_i full
        split
        · exact .refl _
        · rename_i key chosen
          split
          · exact .refl _
          · rename_i residency entry forgotten
            obtain ⟨listed, free⟩ := sound.queued.victim_some chosen
            obtain ⟨right, lookup, lens, limit, pins, erased⟩ := sound.queued.forget forgotten
            have unguarded : state.residency.guards key = false := by
              refine @Residency.Queued.victim_unguarded _ key sound.queued
                ((List.range' first (last + 1 - first)).map (fun index => (id, index)))
                (fun key held => ?_) (le_trans (Nat.add_le_add_left ?_ _) fits) full chosen
              · obtain ⟨here, above, below⟩ := pinned key held
                refine List.mem_map.mpr ⟨key.2, List.mem_range'_1.mpr (by omega), ?_⟩
                rw [← here]
              · rw [List.map_map]
                refine List.sum_le_sum fun index _ => ?_
                cases held : state.residency.entries.lookup (id, index) with
                | none =>
                    simp only [Function.comp_apply, held]
                    exact Nat.zero_le _
                | some entry =>
                    simp only [Function.comp_apply, held]
                    rw [Option.map_some, Option.getD_some, BlockEntry.probationLen,
                      Residency.unguardedLen, Residency.guards, held, Option.any_some]
                    split
                    · exact Nat.zero_le _
                    · have tracked : state.Tracked := ⟨version, disk, sound⟩
                      have len := (tracked.present found (by rw [same]; exact held)).2
                      rw [len, FileState.blockLen, sized]
            obtain ⟨bytes, guards⟩ := sound.queued.forget_guards forgotten unguarded
            have on : state.residency.limit ≠ 0 := by
              intro zero
              rw [sound.off zero] at lookup
              cases lookup
            obtain ⟨path', file', found', id', -, -⟩ :=
              (sound.tracked on key entry.len).mp (by rw [Residency.lenOf, lookup]; rfl)
            have named := sound.named path' file' found'
            rw [id'] at named
            simp only [named, found']
            obtain ⟨next, keeps⟩ :=
              @StoreState.Sound.evict_one version state disk path' file' sound key residency
                entry
                { state.stats with evictedBlocks := state.stats.evictedBlocks + 1 }
                (punches key) found' id' forgotten free
            obtain ⟨file'', found'', same'', -⟩ := keeps path file found
            refine .trans ⟨bytes, guards⟩ ?_
            refine ih next found'' (same''.id.trans same) (same''.size.trans sized)
              (fun key held => pinned key ?_) (fits.same ⟨bytes, guards⟩ limit)
            rw [← pins]
            exact held
      · exact .refl _

/-- What a read's blocks that are read again are classified as joins the protected blocks, and none
leaves, where they fit the protected half.
-/
theorem classify_guards {file : FileState} {path : Text} (tracked : state.Tracked)
    (on : state.residency.limit ≠ 0) (found : state.files path = some file) {first last : Nat}
    (fits
      : state.residency.protectedBytes
          + ((List.range' first (last + 1 - first)).map
              (file.promotedLen state.residency)).sum
        ≤ state.residency.limit / 2)
    : let scanned := (classify file state.residency first last).1
      scanned.protectedBytes
        = state.residency.protectedBytes
          + ((List.range' first (last + 1 - first)).map (file.promotedLen state.residency)).sum
      ∧ ∀ key,
        scanned.guards key
        = (state.residency.guards key
          || decide
              (key.1 = file.id ∧ first ≤ key.2 ∧ key.2 < first + (last + 1 - first)
                ∧ file.has key.2 = true)) := by
  obtain ⟨version, disk, sound⟩ := tracked
  have tracked : state.Tracked := ⟨version, disk, sound⟩
  rw [classify]
  dsimp only
  generalize last + 1 - first = count at fits ⊢
  suffices scanned
      : let scan := (List.range' first count).foldl (Scan.visit file) ⟨state.residency, [], none, 0⟩
        scan.Sound file state.residency first count
        ∧ scan.residency.protectedBytes
          = state.residency.protectedBytes
            + ((List.range' first count).map (file.promotedLen state.residency)).sum
        ∧ ∀ key,
          scan.residency.guards key
          = (state.residency.guards key
            || decide
                (key.1 = file.id ∧ first ≤ key.2 ∧ key.2 < first + count
                  ∧ file.has key.2 = true)) from
    scanned.2
  induction count with
  | zero =>
      refine ⟨?_, rfl, fun key => ?_⟩
      · refine ⟨sound.queued, fun _ => rfl, rfl, fun _ => rfl, sound.positive, fun key => ?_,
          fun _ member => absurd member List.not_mem_nil, by nofun, fun index above below => ?_⟩
        · rw [if_neg (by omega)]
          rfl
        · omega
      · rw [decide_eq_false (by omega), Bool.or_false]
        rfl
  | succ count ih =>
      rw [List.range'_concat, Nat.one_mul, List.map_append, List.sum_append, List.map_singleton,
        List.sum_singleton] at fits
      obtain ⟨scanned, bytes, guards⟩ := ih (by omega)
      rw [List.range'_concat, Nat.one_mul, List.foldl_append, List.map_append, List.sum_append,
        List.map_singleton, List.sum_singleton]
      generalize (List.range' first count).foldl (Scan.visit file) ⟨state.residency, [], none, 0⟩
        = scan at scanned bytes guards ⊢
      refine ⟨scanned.visit, ?_⟩
      have fresh : scan.residency.guards (file.id, first + count)
          = state.residency.guards (file.id, first + count) := by
        rw [guards, decide_eq_false (by dsimp only; omega), Bool.or_false]
      rw [List.foldl_cons, List.foldl_nil, Scan.visit]
      by_cases has : file.has (first + count) = true
      · rw [if_pos has]
        dsimp only
        obtain ⟨entry, held, len⟩ := tracked.lookup on found has
        have lenOf := scanned.lens (file.id, first + count)
        rw [Residency.lenOf, Residency.lenOf, held, Option.map_some, Option.map_eq_some_iff]
          at lenOf
        obtain ⟨entry', held', len'⟩ := lenOf
        have weight : entry'.probationLen = file.promotedLen state.residency (first + count) := by
          rw [FileState.promotedLen, if_pos has, Residency.unguardedLen, ← fresh,
            Residency.guards, held', Option.any_some, BlockEntry.probationLen, len', len]
          rfl
        obtain ⟨promoted, joined⟩ :=
          @Residency.touch_fits (scan.residency.pin (file.id, first + count))
            (file.id, first + count) entry'
            (by
              change scan.residency.limit ≠ 0
              rw [scanned.limit]
              exact on)
            held'
            (by
              change scan.residency.protectedBytes + _ ≤ scan.residency.limit / 2
              rw [bytes, weight, scanned.limit]
              omega)
        refine ⟨?_, fun key => ?_⟩
        · rw [promoted, weight]
          change scan.residency.protectedBytes + _ = _
          rw [bytes, Nat.add_assoc]
        · rw [joined]
          change (decide (key = (file.id, first + count)) || scan.residency.guards key) = _
          rw [guards]
          by_cases this : key = (file.id, first + count)
          · subst this
            rw [decide_eq_true rfl, Bool.true_or,
              decide_eq_true ⟨rfl, Nat.le_add_right _ _, Nat.lt_succ_self _, has⟩, Bool.or_true]
          · rw [decide_eq_false this, Bool.false_or]
            congr 1
            refine decide_eq_decide.mpr ⟨fun inside =>
              ⟨inside.1, inside.2.1, Nat.lt_succ_of_lt inside.2.2.1, inside.2.2.2⟩,
              fun inside => ?_⟩
            refine ⟨inside.1, inside.2.1, ?_, inside.2.2.2⟩
            refine Nat.lt_of_le_of_ne (Nat.lt_succ_iff.mp inside.2.2.1) fun same => this ?_
            exact Prod.ext inside.1 same
      · rw [if_neg has]
        dsimp only
        refine ⟨?_, fun key => ?_⟩
        · rw [FileState.promotedLen, if_neg has, Nat.add_zero]
          exact bytes
        · change scan.residency.guards key = _
          rw [guards]
          congr 1
          refine decide_eq_decide.mpr ⟨fun inside =>
            ⟨inside.1, inside.2.1, Nat.lt_succ_of_lt inside.2.2.1, inside.2.2.2⟩,
            fun inside => ?_⟩
          refine ⟨inside.1, inside.2.1, ?_, inside.2.2.2⟩
          refine Nat.lt_of_le_of_ne (Nat.lt_succ_iff.mp inside.2.2.1) fun same => has ?_
          rw [← same]
          exact inside.2.2.2

/-- What fits before the blocks of a read are classified fits afterwards. -/
theorem fits_of_classify {file : FileState} {path : Text} (tracked : state.Tracked)
    (on : state.residency.limit ≠ 0) (found : state.files path = some file) {first last : Nat}
    (ordered : first ≤ last + 1)
    (promoted
      : state.residency.protectedBytes
          + ((List.range' first (last + 1 - first)).map
              (file.promotedLen state.residency)).sum
        ≤ state.residency.limit / 2)
    (fits : state.residency.Fits file.id file.size first last)
    : (classify file state.residency first last).1.Fits file.id file.size first last := by
  obtain ⟨bytes, guards⟩ := classify_guards tracked on found promoted
  obtain ⟨version, disk, sound⟩ := tracked
  have limit : (classify file state.residency first last).1.limit = state.residency.limit :=
    (@classify_spec file _ sound.queued sound.positive first last ordered).2.2.1
  have both
      : ((List.range' first (last + 1 - first)).map (file.promotedLen state.residency)).sum
          + ((List.range' first (last + 1 - first)).map
              ((classify file state.residency first last).1.unguardedLen file.id file.size)).sum
        = ((List.range' first (last + 1 - first)).map
            (state.residency.unguardedLen file.id file.size)).sum := by
    rw [← List.sum_map_add]
    refine congrArg List.sum (List.map_congr_left fun index member => ?_)
    obtain ⟨above, below⟩ := List.mem_range'_1.mp member
    rw [FileState.promotedLen, Residency.unguardedLen, Residency.unguardedLen, guards]
    by_cases has : file.has index = true
    · rw [if_pos has, decide_eq_true ⟨rfl, above, below, has⟩, Bool.or_true, if_pos rfl,
        Nat.add_zero]
    · rw [if_neg has, decide_eq_false (fun inside => has inside.2.2.2), Bool.or_false,
        Nat.zero_add]
  rw [Residency.Fits, bytes, limit, Nat.add_assoc, both]
  exact fits

end Fits

section Alone

variable {limit : Nat} {projection : Projection}

/-- Marking a run of the only read changes nothing of the protected blocks, where its blocks fit the
limit beside them.
-/
theorem Projection.Booked.mark_guards (booked : projection.Booked limit) {read : Read}
    (member : read ∈ projection.reads) {bytes : Bytes} {run : Run} {rest : List Run}
    (phase : read.phase = .marking bytes run rest)
    (alone
      : ∀ key, (projection.state.residency.pins.lookup key).isSome = true
          → read.pinning key = true)
    (fits : projection.state.residency.Fits read.fileId read.total read.first read.last)
    (punches : BlockKey → Bool)
    : projection.state.residency.SameGuards
        (projection.state.mark projection.disk read bytes run punches).1.residency := by
  have live : read.phase.live = true := by rw [phase]; rfl
  have placed := booked.reads read member
  obtain ⟨file, found, id, size, within⟩ := placed.bounds live
  have bounds := placed.runs run (by rw [phase]; exact List.mem_cons_self)
  have sound := booked.tracked.sound projection.disk
  have right : ∀ index ∈ List.range' run.1 (run.2 + 1 - run.1),
      index * block < (projection.state.contents projection.disk read.path).length
      ∧ projection.disk.Holds (projection.state.contents projection.disk) read.path index := by
    intro index inside
    refine ⟨?_, holds_contents _ _ _⟩
    rw [contents_length _ found, size]
    refine lt_of_le_of_lt (Nat.mul_le_mul_right _ ?_) within
    exact (mem_run.mp inside).2.trans bounds.2.2
  have marked := sound.markBlocks_guards right
  obtain ⟨sound', keeps, -, pins, limit'⟩ := sound.markBlocks right
  obtain ⟨file', found', same, -⟩ := keeps read.path file found
  refine marked.trans ?_
  obtain ⟨stats, fuel, evicted⟩
      : ∃ stats fuel,
          projection.state.mark projection.disk read bytes run punches
          = Odb.evictLoop punches fuel
              { (List.range' run.1 (run.2 + 1 - run.1)).foldl (Odb.markBlock read.path)
                  projection.state with
                stats }
              projection.disk :=
    ⟨_, _, rfl⟩
  rw [evicted]
  refine (sound'.withStats stats).evictLoop_guards found' (same.id.trans id)
    (same.size.trans size) (fun key held => ?_) (fits.same marked limit') punches fuel
  obtain ⟨-, here, above, below⟩ := Read.pinning_iff.mp (alone key (by rw [← pins]; exact held))
  exact ⟨here.symm, above, below⟩

end Alone

-- Reads one after another

/-- No read is in flight. -/
def Projection.Quiet (projection : Projection) : Prop :=
  ∀ read ∈ projection.reads, read.phase.live = false

/-- There is room for a read: those of its blocks that it reads again fit the protected half beside
what is protected, and all of them fit the limit beside it.
-/
def Projection.HasRoom (projection : Projection) (path : Text) (offset size : Nat) : Prop :=
  ∀ file, projection.state.files path = some file → offset < file.size →
    let first := offset / block
    let last := (min (offset + size) file.size - 1) / block
    projection.state.residency.protectedBytes
        + ((List.range' first (last + 1 - first)).map
            (file.promotedLen projection.state.residency)).sum
      ≤ projection.state.residency.limit / 2
    ∧ projection.state.residency.Fits file.id file.size first last

/-- Reads start one after another. -/
def Serial (projection : Projection) : Event → Prop
  | .start _ _ _ => projection.Quiet
  | _ => True

/-- There is room for every read at its start. -/
def Roomy (projection : Projection) : Event → Prop
  | .start path offset size => projection.HasRoom path offset size
  | _ => True

/-- Some blocks are protected, and the only read in flight has room. -/
structure Projection.Guarding (limit : Nat) (kept : BlockKey → Prop) (projection : Projection)
    : Prop where
  booked : projection.Booked limit
  kept : ∀ key, kept key → projection.state.residency.guards key = true
  alone
    : projection.poisoned = false
        → ∀ read ∈ projection.reads, read.phase.live = true
          → (∀ key, (projection.state.residency.pins.lookup key).isSome = true
              → read.pinning key = true)
            ∧ projection.state.residency.Fits read.fileId read.total read.first read.last

section Serial

variable {limit : Nat} {kept : BlockKey → Prop} {projection : Projection}

/-- A step of a read that leaves the protected blocks as they are, and pins nothing more. -/
theorem Projection.Guarding.replace (guarding : projection.Guarding limit kept) {place : Nat}
    {read next : Read} {state : StoreState} {disk : Disk}
    (at_place : projection.reads[place]? = some read)
    (booked
      : Projection.Booked limit
          { projection with state, disk, reads := projection.reads.set place next })
    (same : projection.state.residency.SameGuards state.residency)
    (pins
      : ∀ key, (state.residency.pins.lookup key).isSome = true
          → (projection.state.residency.pins.lookup key).isSome = true)
    (still
      : next.phase.live = true
          → ∃ phase cost, next = { read with phase, cost } ∧ read.phase.live = true)
    : Projection.Guarding limit kept
        { projection with state, disk, reads := projection.reads.set place next } := by
  have limits : state.residency.limit = projection.state.residency.limit :=
    booked.limit.trans guarding.booked.limit.symm
  refine ⟨booked, fun key held => (same.guards key).trans (guarding.kept key held), ?_⟩
  intro running other listed live
  rcases List.mem_or_eq_of_mem_set listed with old | rfl
  · obtain ⟨mine, fits⟩ := guarding.alone running other old live
    exact ⟨fun key held => mine key (pins key held), fits.same same limits⟩
  · obtain ⟨phase, cost, rfl, before⟩ := still live
    obtain ⟨mine, fits⟩ := guarding.alone running read (List.mem_of_getElem? at_place) before
    refine ⟨fun key held => ?_, fits.same same limits⟩
    obtain ⟨-, covers⟩ := Read.pinning_iff.mp (mine key (pins key held))
    exact Read.pinning_iff.mpr ⟨live, covers⟩

/-- A read's next step leaves the protected blocks as they are. -/
theorem Projection.Guarding.advance (guarding : projection.Guarding limit kept) {place : Nat}
    {read : Read} (at_place : projection.reads[place]? = some read) {punches : BlockKey → Bool}
    {state : StoreState} {next : Read} (disk : Disk)
    (advanced : projection.Advanced read punches state next)
    : Projection.Guarding limit kept
        { projection with state, disk, reads := projection.reads.set place next } := by
  have member := List.mem_of_getElem? at_place
  have booked := guarding.booked.advance at_place disk advanced
  cases advanced with
  | @moved phase live runs =>
      refine guarding.replace at_place booked (.refl _) (fun _ => id) fun alive => ?_
      exact ⟨phase, read.cost, rfl, live ▸ alive⟩
  | stopped poisoned => exact guarding.replace at_place booked (.refl _) (fun _ => id) nofun
  | @marked bytes run rest cost running phase =>
      have live : read.phase.live = true := by rw [phase]; rfl
      obtain ⟨mine, fits⟩ := guarding.alone running read member live
      obtain ⟨-, -, pins⟩ := guarding.booked.mark running member phase punches
      refine guarding.replace at_place booked
        (guarding.booked.mark_guards member phase mine fits punches)
        (fun key held => by rw [← pins]; exact held) fun _ => ?_
      exact ⟨afterRuns rest, cost, rfl, live⟩
  | @released outcome running phase =>
      obtain ⟨version, disk', sound⟩ := guarding.booked.tracked
      obtain ⟨pins, same, positive, counts⟩ := release_spec sound.positive read
      refine guarding.replace at_place booked ?_ (fun key held => ?_) nofun
      · rw [same]
        exact ⟨rfl, fun _ => rfl⟩
      · dsimp only at held
        obtain ⟨count, found⟩ := Option.isSome_iff_exists.mp held
        have left := positive key count found
        have fewer := counts key
        rw [Residency.pinsOn, found, Option.getD_some, Residency.pinsOn] at fewer
        cases before : projection.state.residency.pins.lookup key with
        | some more => rfl
        | none =>
            rw [before, Option.getD_none] at fewer
            omega

/-- A read that starts with room leaves the protected blocks protected. -/
theorem Projection.Guarding.start (guarding : projection.Guarding limit kept) (on : limit ≠ 0)
    (quiet : projection.Quiet) {path : Text} {offset size : Nat}
    (room : projection.HasRoom path offset size) {after : Projection}
    (started : projection.Started path offset size after)
    : after.Guarding limit kept := by
  have booked := guarding.booked.start started
  cases started with
  | @ended read poisoned dead stays =>
      refine ⟨booked, guarding.kept, ?_⟩
      intro _ other listed live
      rcases List.mem_append.mp listed with old | new
      · cases (quiet other old).symm.trans live
      · rw [List.mem_singleton.mp new] at live
        cases dead.symm.trans live
  | @classified file read stats running found inside some_end same phase =>
      obtain ⟨-, id, total, first, last⟩ := same
      have on' : projection.state.residency.limit ≠ 0 := by
        rw [guarding.booked.limit]
        exact on
      obtain ⟨promoted, fits⟩ := room file found inside
      rw [← first, ← last] at promoted fits
      have tracked := guarding.booked.tracked
      have ordered : read.first ≤ read.last + 1 := by
        rw [first, last]
        exact first_le_last _ _ _ inside
      obtain ⟨bytes, guards⟩ := classify_guards tracked on' found promoted
      refine ⟨booked, fun key held => ?_, ?_⟩
      · dsimp only
        rw [guards, guarding.kept key held, Bool.true_or]
      · intro _ other listed live
        rcases List.mem_append.mp listed with old | new
        · cases (quiet other old).symm.trans live
        · obtain rfl := List.mem_singleton.mp new
          refine ⟨fun key held => ?_, ?_⟩
          · obtain ⟨holder, member, holds⟩ := booked.holder running held
            rcases List.mem_append.mp member with old | new
            · have dead := quiet holder old
              rw [(Read.pinning_iff.mp holds).1] at dead
              cases dead
            · rwa [List.mem_singleton.mp new] at holds
          · rw [id, total]
            exact fits_of_classify tracked on' found ordered promoted fits

/-- Every step of reads one after another, each with room, leaves the protected blocks protected. -/
theorem Projection.Guarding.step (guarding : projection.Guarding limit kept) (on : limit ≠ 0)
    {event : Event} (serial : Serial projection event) (roomy : Roomy projection event)
    : (projection.step event).Guarding limit kept := by
  cases event with
  | start path offset size =>
      exact guarding.start on serial roomy (projection.started path offset size)
  | advance place given =>
      rw [Projection.step]
      split
      · exact guarding
      · rename_i read at_place
        exact guarding.advance at_place _ (projection.advanced read given)
  | cancel place =>
      rw [Projection.step]
      split
      · exact guarding
      · rename_i read at_place
        split
        · rename_i run rest phase
          exact @Projection.Guarding.advance limit kept projection guarding place read at_place
            (fun _ => false) _ _ projection.disk
            (.moved (by rw [phase]; rfl)
              (by rw [phase]; exact fun _ member => absurd member List.not_mem_nil))
        · exact guarding
  | sync gateway =>
      exact ⟨guarding.booked.step (.sync gateway), guarding.kept, guarding.alone⟩

end Serial

/-- What a store over a gateway comes to by some events. -/
def Projection.reached (gateway : Objects) (manifest : List OdbFile) (limit : Nat)
    (events : List Event)
    : Projection :=
  events.foldl Projection.step (.open gateway manifest limit)

theorem Projection.Booked.reached (gateway : Objects) {manifest : List OdbFile}
    (few : manifest.length ≤ 2 ^ 32) (limit : Nat) (events : List Event)
    : (Projection.reached gateway manifest limit events).Booked limit :=
  Runs.invariant (fun _ event booked (_ : True) => booked.step event) (.open gateway few limit)
    (.of_mem (fun _ _ _ => trivial) _) _ (Runs.foldl_mem_states _ _ events)

/-- Whatever a store has come to while no read is in flight, every block that is protected then
stays protected and present in every state of reads one after another that have room.
-/
theorem protected_survives (gateway : Objects) {manifest : List OdbFile}
    (few : manifest.length ≤ 2 ^ 32) {limit : Nat} (large : 4 * block ≤ limit)
    (before scan : List Event)
    (quiet : (Projection.reached gateway manifest limit before).Quiet)
    (serial : Runs.Along Projection.step Serial (.reached gateway manifest limit before) scan)
    (roomy : Runs.Along Projection.step Roomy (.reached gateway manifest limit before) scan)
    : ∀ projection ∈ Runs.states Projection.step (.reached gateway manifest limit before) scan,
        ∀ key,
          (Projection.reached gateway manifest limit before).state.residency.guards key = true
          → projection.state.residency.guards key = true
            ∧ ∃ len, projection.state.Present key len := by
  intro projection member key guarded
  have on : limit ≠ 0 := by
    have size : block = 65536 := rfl
    omega
  have guarding
      : (Projection.reached gateway manifest limit before).Guarding limit
          (fun key =>
            (Projection.reached gateway manifest limit before).state.residency.guards key
              = true) := by
    refine ⟨.reached gateway few limit before, fun _ => id, fun _ read listed live => ?_⟩
    cases (quiet read listed).symm.trans live
  have survives :=
    Runs.invariant (fun _ _ guarding allowed => guarding.step on allowed.1 allowed.2) guarding
      (serial.and roomy) projection member
  refine ⟨survives.kept key guarded, ?_⟩
  obtain ⟨entry, found, -⟩ := Residency.guards_eq_true.mp (survives.kept key guarded)
  obtain ⟨version, disk, sound⟩ := survives.booked.tracked
  refine ⟨entry.len, (sound.tracked ?_ key entry.len).mp (by rw [Residency.lenOf, found]; rfl)⟩
  rw [survives.booked.limit]
  exact on

/-- The chain is read twice. -/
def chainTwice : List Event :=
  readWhole chain 3 0 ++ readWhole chain 3 1

/-- The chain's block is protected once it has been read twice, and reading the graph leaves it. -/
theorem chain_survives
    : (Projection.reached (graphs [1, 2, 3]) graphManifest (4 * block)
          chainTwice).state.residency.guards (0, 0) = true
      ∧ ∀ projection ∈ Runs.states Projection.step
            (.reached (graphs [1, 2, 3]) graphManifest (4 * block) chainTwice)
            (readWhole graph 9 2),
          projection.state.residency.guards (0, 0) = true
          ∧ ∃ len, projection.state.Present (0, 0) len := by
  have guarded
      : (Projection.reached (graphs [1, 2, 3]) graphManifest (4 * block)
          chainTwice).state.residency.guards (0, 0) = true := by
    decide
  have quiet
      : (Projection.reached (graphs [1, 2, 3]) graphManifest (4 * block) chainTwice).Quiet := by
    unfold Projection.Quiet
    decide
  have room
      : (Projection.reached (graphs [1, 2, 3]) graphManifest (4 * block) chainTwice).HasRoom
          graph 0 9 := by
    intro file found _
    have same
        : (Projection.reached (graphs [1, 2, 3]) graphManifest (4 * block)
            chainTwice).state.files graph
          = some ⟨1, 1, [0#64], [0#64]⟩ := by
      decide
    cases found.symm.trans same
    unfold Residency.Fits
    decide
  refine ⟨guarded, fun projection member =>
    protected_survives (graphs [1, 2, 3]) (by decide) le_rfl chainTwice (readWhole graph 9 2) quiet
      ?_ ?_ projection member (0, 0) guarded⟩
  · exact ⟨quiet, trivial, trivial, trivial, trivial, trivial, trivial⟩
  · exact ⟨room, trivial, trivial, trivial, trivial, trivial, trivial⟩

end Gfs.Mount.Odb
