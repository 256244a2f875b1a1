import Gfs.Mount.Residency
import Gfs.Lib.Runs

/-! What a block store serves, over any interleaving of reads and of changes of the gateway's
files. The invariant is stated against one version of each file. It holds while the version
answers every fetch, and what a read returns is then that version's bytes.
-/

namespace Gfs.Mount.Odb

open Gfs.Types
open Gfs.Lib
open Gfs.Service.Odb

-- Blocks on disk

/-- The local file holds a block's true bytes. -/
def Disk.Holds (disk : Disk) (version : Text → Bytes) (path : Text) (index : Nat) : Prop :=
  ∀ place, index * block ≤ place → place < (index + 1) * block
    → place < (version path).length
    → (version path)[place]? = some (disk path place)

/-- Bytes of a version from an offset on. -/
def TrueBytes (version : Text → Bytes) (path : Text) (start : Nat) (bytes : Bytes) : Prop :=
  ∀ place byte, bytes[place]? = some byte → (version path)[start + place]? = some byte

section Disks

variable {version : Text → Bytes} {disk : Disk} {path other : Text} {start len index : Nat}
  {bytes : Bytes}

theorem TrueBytes.take (right : TrueBytes version path start bytes) (count : Nat)
    : TrueBytes version path start (bytes.take count) := by
  intro place byte at_place
  rw [List.getElem?_take] at at_place
  split at at_place
  · exact right place byte at_place
  · cases at_place

theorem Disk.Holds.write (holds : disk.Holds version other index)
    (right : TrueBytes version path start bytes)
    : (disk.write path start bytes).Holds version other index := by
  intro place above below within
  rw [Disk.write]
  by_cases same : other = path
  · subst same
    rw [Function.update_self]
    split
    · rename_i from_start
      cases written : bytes[place - start]? with
      | none => exact holds place above below within
      | some byte =>
          have told := right _ _ written
          rw [Nat.add_sub_cancel' from_start] at told
          exact told
    · exact holds place above below within
  · rw [Function.update_of_ne same]
    exact holds place above below within

theorem Disk.holds_of_write (right : TrueBytes version path start bytes)
    (above : start ≤ index * block)
    (below : min ((index + 1) * block) (version path).length ≤ start + bytes.length)
    : (disk.write path start bytes).Holds version path index := by
  intro place first last within
  have inside : place - start < bytes.length := by omega
  have from_start : start ≤ place := above.trans first
  have told := right _ _ (List.getElem?_eq_getElem inside)
  rw [Disk.write, Function.update_self, if_pos from_start, List.getElem?_eq_getElem inside]
  rw [Nat.add_sub_cancel' from_start] at told
  exact told

theorem Disk.Holds.punchHole (holds : disk.Holds version other index) {hole : Nat}
    (short : len ≤ block) (apart : other ≠ path ∨ index ≠ hole)
    : (disk.punchHole path (hole * block) len).Holds version other index := by
  intro place above below within
  rw [Disk.punchHole]
  by_cases same : other = path
  · subst same
    rw [Function.update_self, if_neg]
    · exact holds place above below within
    · have ne : index ≠ hole := apart.resolve_left (fun differs => differs rfl)
      intro inside
      have upper : place < (hole + 1) * block := by
        rw [Nat.add_mul, Nat.one_mul]
        omega
      rcases Nat.lt_or_gt_of_ne ne with before | after
      · exact absurd (below.trans_le (Nat.mul_le_mul_right block before)) (Nat.not_lt.mpr inside.1)
      · exact absurd (upper.trans_le (Nat.mul_le_mul_right block after)) (Nat.not_lt.mpr above)
  · rw [Function.update_of_ne same]
    exact holds place above below within

theorem Disk.read_eq {start finish : Nat}
    (holds
      : ∀ index, start / block ≤ index → index ≤ (finish - 1) / block
          → disk.Holds version path index)
    (within : finish ≤ (version path).length)
    : disk.read path start finish = slice (version path) start finish := by
  refine List.ext_getElem? fun place => ?_
  rw [Disk.read, List.getElem?_map]
  by_cases inside : place < finish - start
  · rw [slice_getElem? (by omega), List.getElem?_range' inside, Option.map_some, Nat.one_mul]
    have positive : 0 < block := by decide
    refine (holds ((start + place) / block) ?_ ?_ _ ?_ ?_ ?_).symm
    · exact Nat.div_le_div_right (Nat.le_add_right _ _)
    · exact Nat.div_le_div_right (by omega)
    · exact Nat.div_mul_le_self _ _
    · rw [Nat.mul_comm]
      exact Nat.lt_mul_div_succ _ positive
    · omega
  · rw [List.getElem?_eq_none (by rw [List.length_range']; omega), Option.map_none]
    exact (List.getElem?_eq_none (by rw [slice_length]; omega)).symm

end Disks

-- The store

/-- A block that is marked present, with its length. -/
def StoreState.Present (state : StoreState) (key : BlockKey) (len : Nat) : Prop :=
  ∃ path file,
    state.files path = some file
    ∧ file.id = key.1
    ∧ file.has key.2 = true
    ∧ file.blockLen key.2 = len

/-- What holds of the store: ids name files, present blocks are held on disk, and the bookkeeping
has exactly the present blocks, or nothing where it is off.
-/
structure StoreState.Sound (version : Text → Bytes) (state : StoreState) (disk : Disk) : Prop where
  named : ∀ path file, state.files path = some file → state.paths[file.id]? = some path
  sized : ∀ path file, state.files path = some file → file.size = (version path).length
  words
    : ∀ path file, state.files path = some file
        → ∀ index, index * block < file.size → index / 64 < file.present.length
  present
    : ∀ path file, state.files path = some file
        → ∀ index, file.has index = true
          → index * block < file.size ∧ disk.Holds version path index
  queued : state.residency.Queued
  tracked
    : state.residency.limit ≠ 0
        → ∀ key len, state.residency.lenOf key = some len ↔ state.Present key len
  off : state.residency.limit = 0 → state.residency.entries = ∅
  positive : state.residency.PinsPositive

/-- A file with the same place in the manifest and the same size. -/
structure FileState.Same (file next : FileState) : Prop where
  id : next.id = file.id
  size : next.size = file.size
  words : next.present.length = file.present.length

/-- What a step of the store keeps: every file with its id and size, and of some blocks, that they
are present and that they are held.
-/
def StoreState.Keeps (version : Text → Bytes) (kept : BlockKey → Prop) (state after : StoreState)
    (disk disk' : Disk) : Prop :=
  ∀ path file, state.files path = some file
    → ∃ next, after.files path = some next
      ∧ file.Same next
      ∧ ∀ index, kept (file.id, index)
        → (file.has index = true → next.has index = true)
          ∧ (disk.Holds version path index → disk'.Holds version path index)

section Stores

variable {version : Text → Bytes} {kept : BlockKey → Prop} {state middle after : StoreState}
  {disk disk' disk'' : Disk} {path : Text} {file : FileState} {index : Nat}

theorem StoreState.Keeps.refl (version : Text → Bytes) (kept : BlockKey → Prop)
    (state : StoreState) (disk : Disk)
    : state.Keeps version kept state disk disk :=
  fun _ file found => ⟨file, found, ⟨rfl, rfl, rfl⟩, fun _ _ => ⟨id, id⟩⟩

theorem StoreState.Keeps.trans (first : state.Keeps version kept middle disk disk')
    (second : middle.Keeps version kept after disk' disk'')
    : state.Keeps version kept after disk disk'' := by
  intro path file found
  obtain ⟨next, found', same, blocks⟩ := first path file found
  obtain ⟨last, found'', same', blocks'⟩ := second path next found'
  refine ⟨last, found'', ⟨same'.id.trans same.id, same'.size.trans same.size,
    same'.words.trans same.words⟩, fun index held => ?_⟩
  obtain ⟨there, holds⟩ := blocks index held
  obtain ⟨there', holds'⟩ := blocks' index (by rw [same.id]; exact held)
  exact ⟨there' ∘ there, holds' ∘ holds⟩

theorem StoreState.Keeps.mono {fewer : BlockKey → Prop}
    (keeps : state.Keeps version kept after disk disk') (weaken : ∀ key, fewer key → kept key)
    : state.Keeps version fewer after disk disk' := by
  intro path file found
  obtain ⟨next, found', same, blocks⟩ := keeps path file found
  exact ⟨next, found', same, fun index held => blocks index (weaken _ held)⟩

theorem StoreState.Sound.path_unique (sound : state.Sound version disk) {other : Text}
    {file' : FileState} (found : state.files path = some file)
    (found' : state.files other = some file') (same : file'.id = file.id)
    : other = path := by
  have first := sound.named path file found
  have second := sound.named other file' found'
  rw [same, first] at second
  exact (Option.some.inj second).symm

theorem blockLen_le (file : FileState) (index : Nat) : file.blockLen index ≤ block :=
  Nat.min_le_right _ _

-- Eviction

theorem has_clear (file : FileState) (index other : Nat)
    : FileState.has { file with present := bitClear file.present index } other
      = (file.has other && decide (index ≠ other)) :=
  bitGet_bitClear _ _ _

theorem StoreState.Sound.evict_one (sound : state.Sound version disk) {key : BlockKey}
    {residency : Residency} {entry : BlockEntry} {evicted : OdbStats} {gone : Bool}
    (found : state.files path = some file) (same : file.id = key.1)
    (forgotten : state.residency.forget key = some (residency, entry))
    (unpinned : state.residency.pins.lookup key = none)
    : let next : StoreState :=
        { state with
          residency
          files :=
            Function.update state.files path
              (some { file with present := bitClear file.present key.2 })
          stats := evicted }
      let disk' := if gone then disk.punchHole path (key.2 * block) entry.len else disk
      next.Sound version disk'
      ∧ state.Keeps version (fun key => (state.residency.pins.lookup key).isSome = true) next disk
          disk' := by
  intro next disk'
  obtain ⟨queued, present, lens, limit, pins, erased⟩ := sound.queued.forget forgotten
  have lookup : ∀ other file', next.files other = some file' →
      other = path ∧ file' = { file with present := bitClear file.present key.2 }
      ∨ other ≠ path ∧ state.files other = some file' := by
    intro other file' found'
    by_cases this : other = path
    · subst this
      rw [show next.files other = _ from Function.update_self _ _ _] at found'
      exact .inl ⟨rfl, (Option.some.inj found').symm⟩
    · rw [show next.files other = _ from Function.update_of_ne this _ _] at found'
      exact .inr ⟨this, found'⟩
  -- The limit is on, since there was an entry.
  have on : state.residency.limit ≠ 0 := by
    intro zero
    rw [sound.off zero] at present
    cases present
  have short : entry.len ≤ block := by
    have told : state.Present key entry.len :=
      (sound.tracked on key entry.len).mp (by rw [Residency.lenOf, present]; rfl)
    obtain ⟨other, file', -, -, -, len⟩ := told
    exact len ▸ blockLen_le _ _
  have holds : ∀ other index, disk.Holds version other index → other ≠ path ∨ index ≠ key.2 →
      disk'.Holds version other index := by
    intro other index held apart
    cases gone with
    | true => exact held.punchHole short apart
    | false => exact held
  refine ⟨⟨?_, ?_, ?_, ?_, queued, ?_, ?_, ?_⟩, ?_⟩
  · intro other file' found'
    rcases lookup other file' found' with ⟨rfl, rfl⟩ | ⟨-, old⟩
    · exact sound.named other file found
    · exact sound.named other file' old
  · intro other file' found'
    rcases lookup other file' found' with ⟨rfl, rfl⟩ | ⟨-, old⟩
    · exact sound.sized other file found
    · exact sound.sized other file' old
  · intro other file' found' index within
    rcases lookup other file' found' with ⟨rfl, rfl⟩ | ⟨-, old⟩
    · rw [show FileState.present _ = bitClear file.present key.2 from rfl, bitClear_length]
      exact sound.words other file found index within
    · exact sound.words other file' old index within
  · intro other file' found' index has
    rcases lookup other file' found' with ⟨rfl, rfl⟩ | ⟨apart, old⟩
    · rw [has_clear, Bool.and_eq_true, decide_eq_true_iff] at has
      obtain ⟨within, held⟩ := sound.present other file found index has.1
      exact ⟨within, holds other index held (.inr (Ne.symm has.2))⟩
    · obtain ⟨within, held⟩ := sound.present other file' old index has
      exact ⟨within, holds other index held (.inl apart)⟩
  · intro limited other len
    rw [show next.residency = residency from rfl, lens]
    constructor
    · intro told
      split at told
      · cases told
      · rename_i apart
        obtain ⟨path', file', found', id', has', len'⟩ := (sound.tracked on other len).mp told
        by_cases this : path' = path
        · subst this
          rw [found] at found'
          cases found'
          refine ⟨path', _, Function.update_self _ _ _, id', ?_, len'⟩
          rw [has_clear, has', Bool.true_and, decide_eq_true_iff]
          intro equal
          exact apart (Prod.ext (id'.symm.trans same) equal.symm)
        · exact ⟨path', file', (Function.update_of_ne this _ _).trans found', id', has', len'⟩
    · rintro ⟨path', file', found', id', has', len'⟩
      rcases lookup path' file' found' with ⟨rfl, rfl⟩ | ⟨this, old⟩
      · rw [has_clear, Bool.and_eq_true, decide_eq_true_iff] at has'
        rw [if_neg]
        · exact (sound.tracked on other len).mpr ⟨path', file, found, id', has'.1, len'⟩
        · intro equal
          exact has'.2 (by rw [equal])
      · rw [if_neg]
        · exact (sound.tracked on other len).mpr ⟨path', file', old, id', has', len'⟩
        · intro equal
          exact this (sound.path_unique found old (by rw [id', equal, same]))
  · intro zero
    rw [show next.residency = residency from rfl, limit] at zero
    exact absurd zero on
  · intro other count found'
    rw [show next.residency.pins = residency.pins from rfl, pins] at found'
    exact sound.positive other count found'
  · intro other file' found'
    by_cases this : other = path
    · subst this
      rw [found] at found'
      cases found'
      refine ⟨_, Function.update_self _ _ _, ⟨rfl, rfl, bitClear_length _ _⟩, ?_⟩
      intro index pinned
      have apart : key.2 ≠ index := by
        intro equal
        rw [show ((file.id, index) : BlockKey) = key from Prod.ext same equal.symm, unpinned]
          at pinned
        cases pinned
      refine ⟨fun has => ?_, fun held => holds other index held (.inr (Ne.symm apart))⟩
      rw [has_clear, has, Bool.true_and]
      exact decide_eq_true apart
    · refine ⟨file', (Function.update_of_ne this _ _).trans found', ⟨rfl, rfl, rfl⟩, ?_⟩
      exact fun index _ => ⟨id, fun held => holds other index held (.inl this)⟩

/-- Evicting keeps the store sound, and every pinned block. It ends within the limit, or with
pinned blocks only.
-/
theorem StoreState.Sound.evictLoop (sound : state.Sound version disk)
    (punches : BlockKey → Bool) {fuel : Nat}
    (enough : state.residency.entries.entries.length ≤ fuel)
    : let after := Odb.evictLoop punches fuel state disk
      after.1.Sound version after.2
      ∧ state.Keeps version (fun key => (state.residency.pins.lookup key).isSome = true) after.1
          disk after.2
      ∧ after.1.residency.pins = state.residency.pins
      ∧ after.1.residency.limit = state.residency.limit
      ∧ (after.1.residency.overLimit = false
        ∨ ∀ key entry, after.1.residency.entries.lookup key = some entry
          → (after.1.residency.pins.lookup key).isSome = true) := by
  intro after
  induction fuel generalizing state disk with
  | zero =>
      refine ⟨sound, .refl _ _ _ _, rfl, rfl, .inr fun key entry found => ?_⟩
      have empty := List.length_eq_zero_iff.mp (Nat.le_zero.mp enough)
      have listed := Tallies.mem_entries.mpr found
      rw [show (Odb.evictLoop punches 0 state disk).1 = state from rfl, empty] at listed
      cases listed
  | succ fuel ih =>
      by_cases exceeded : state.residency.overLimit = true
      · cases chosen : state.residency.victim with
        | none =>
            have stops : Odb.evictLoop punches (fuel + 1) state disk = (state, disk) := by
              rw [Odb.evictLoop, if_pos exceeded, chosen]
            refine ⟨by rw [show after = (state, disk) from stops]; exact sound,
              by rw [show after = (state, disk) from stops]; exact .refl _ _ _ _,
              by rw [show after = (state, disk) from stops],
              by rw [show after = (state, disk) from stops], .inr ?_⟩
            rw [show after = (state, disk) from stops]
            exact fun key entry found => sound.queued.victim_none chosen found
        | some key =>
            obtain ⟨listed, unpinned⟩ := sound.queued.victim_some chosen
            obtain ⟨entry, found⟩ := Option.isSome_iff_exists.mp listed
            cases forgotten : state.residency.forget key with
            | none =>
                have missing := Option.map_eq_none_iff.mp forgotten
                cases missing.symm.trans found
            | some pair =>
                obtain ⟨residency, entry'⟩ := pair
                obtain ⟨-, found', -, limit, pins, erased⟩ := sound.queued.forget forgotten
                have on : state.residency.limit ≠ 0 := by
                  intro zero
                  rw [sound.off zero] at found
                  cases found
                obtain ⟨path, file, held, id, -, -⟩ :=
                  (sound.tracked on key entry.len).mp (by rw [Residency.lenOf, found]; rfl)
                have named := sound.named path file held
                rw [id] at named
                obtain ⟨next, keeps⟩ :=
                  @StoreState.Sound.evict_one version state disk path file sound key residency
                    entry'
                    { state.stats with evictedBlocks := state.stats.evictedBlocks + 1 }
                    (punches key) held id forgotten unpinned
                have smaller : residency.entries.entries.length ≤ fuel := by
                  have present : key ∈ state.residency.entries.entries.keys :=
                    AList.lookup_isSome.mp listed
                  obtain ⟨value, before, behind, -, whole, rest⟩ := List.exists_of_kerase present
                  rw [erased, show (state.residency.entries.erase key).entries
                    = state.residency.entries.entries.kerase key from rfl, rest]
                  rw [whole] at enough
                  simp only [List.length_append, List.length_cons] at enough ⊢
                  omega
                have goes
                    : Odb.evictLoop punches (fuel + 1) state disk
                      = Odb.evictLoop punches fuel
                          { state with
                            residency
                            files :=
                              Function.update state.files path
                                (some { file with present := bitClear file.present key.2 })
                            stats :=
                              { state.stats with
                                evictedBlocks := state.stats.evictedBlocks + 1 } }
                          (if punches key then disk.punchHole path (key.2 * block) entry'.len
                          else disk) := by
                  rw [Odb.evictLoop, if_pos exceeded, chosen]
                  simp only [forgotten, named, held]
                obtain ⟨right, keeps', pins', limit', ends⟩ := ih next smaller
                rw [show after = _ from goes]
                refine ⟨right, keeps.trans (keeps'.mono fun other pinned => ?_), pins'.trans pins,
                  limit'.trans limit, ends⟩
                rw [show StoreState.residency _ = residency from rfl, pins]
                exact pinned
      · have stops : Odb.evictLoop punches (fuel + 1) state disk = (state, disk) := by
          rw [Odb.evictLoop, if_neg exceeded]
        rw [show after = (state, disk) from stops]
        exact ⟨sound, .refl _ _ _ _, rfl, rfl, .inl (by simpa using exceeded)⟩

-----------------------------------------------------------------------------------------
-- Marking
-----------------------------------------------------------------------------------------

theorem StoreState.Sound.has_mark (sound : state.Sound version disk)
    (found : state.files path = some file) (within : index * block < (version path).length)
    (words : Words) (other : Nat)
    : FileState.has { file.set index with fetchedEver := words } other
      = (file.has other || decide (index = other)) := by
  have inside := sound.words path file found index (by
    rw [sound.sized path file found]
    exact within)
  rw [FileState.has, FileState.set, bitGet_bitSet]
  simp [inside, FileState.has]

/-- Marking a block that is held keeps the store sound and makes the block present. -/
theorem StoreState.Sound.markBlock (sound : state.Sound version disk)
    (within : index * block < (version path).length) (held : disk.Holds version path index)
    : let after := Odb.markBlock path state index
      after.Sound version disk
      ∧ state.Keeps version (fun _ => True) after disk disk
      ∧ (∀ file, after.files path = some file → file.has index = true)
      ∧ after.residency.pins = state.residency.pins
      ∧ after.residency.limit = state.residency.limit := by
  rw [Odb.markBlock]
  split
  · rename_i missing
    exact ⟨sound, .refl _ _ _ _, fun file found => (by cases missing.symm.trans found), rfl, rfl⟩
  · rename_i file found
    split
    · rename_i has
      refine ⟨sound, .refl _ _ _ _, fun file' found' => ?_, rfl, rfl⟩
      cases found.symm.trans found'
      exact has
    · rename_i absent
      -- Whether the block was fetched before only matters to the counters.
      obtain ⟨words, same⟩ : ∃ words,
          (if bitGet (file.set index).fetchedEver index = true then file.set index
          else { file.set index with
            fetchedEver := bitSet (file.set index).fetchedEver index })
          = { file.set index with fetchedEver := words } := by
        split
        · exact ⟨_, rfl⟩
        · exact ⟨_, rfl⟩
      dsimp only
      rw [same]
      have len : (file.set index).blockLen index = file.blockLen index := rfl
      have has := sound.has_mark found within words
      have unlisted : state.residency.limit ≠ 0 →
          state.residency.lenOf (file.id, index) = none := by
        intro on
        cases told : state.residency.lenOf (file.id, index) with
        | none => rfl
        | some old =>
            obtain ⟨path', file', found', id, has', -⟩ := (sound.tracked on _ _).mp told
            cases sound.path_unique found found' id
            cases found.symm.trans found'
            exact absurd has' absent
      have admitted
          : (state.residency.admitBlock (file.id, index) (file.blockLen index)).Queued
            ∧ (state.residency.limit ≠ 0 → ∀ other,
              (state.residency.admitBlock (file.id, index) (file.blockLen index)).lenOf other
              = if other = (file.id, index) then some (file.blockLen index)
                else state.residency.lenOf other)
            ∧ (state.residency.admitBlock (file.id, index) (file.blockLen index)).limit
              = state.residency.limit
            ∧ (state.residency.admitBlock (file.id, index) (file.blockLen index)).pins
              = state.residency.pins
            ∧ (state.residency.limit = 0 →
              (state.residency.admitBlock (file.id, index) (file.blockLen index)).entries = ∅) := by
        by_cases on : state.residency.limit = 0
        · rw [Residency.admitBlock, if_pos on]
          exact ⟨sound.queued, fun off => absurd on off, rfl, rfl, sound.off⟩
        · obtain ⟨queued, lens, limit, pins⟩ := sound.queued.admitBlock on (unlisted on) _
          exact ⟨queued, fun _ => lens, limit, pins, fun off => absurd off on⟩
      obtain ⟨queued, lens, limit, pins, off⟩ := admitted
      have lookup : ∀ other file',
          Function.update state.files path (some { file.set index with fetchedEver := words })
            other = some file' →
          other = path ∧ file' = { file.set index with fetchedEver := words }
          ∨ other ≠ path ∧ state.files other = some file' := by
        intro other file' found'
        by_cases this : other = path
        · subst this
          rw [Function.update_self] at found'
          exact .inl ⟨rfl, (Option.some.inj found').symm⟩
        · rw [Function.update_of_ne this] at found'
          exact .inr ⟨this, found'⟩
      have size := sound.sized path file found
      refine ⟨⟨?_, ?_, ?_, ?_, queued, ?_, ?_, ?_⟩, ?_, ?_, pins, limit⟩
      · intro other file' found'
        rcases lookup other file' found' with ⟨rfl, rfl⟩ | ⟨-, old⟩
        · exact sound.named other file found
        · exact sound.named other file' old
      · intro other file' found'
        rcases lookup other file' found' with ⟨rfl, rfl⟩ | ⟨-, old⟩
        · exact size
        · exact sound.sized other file' old
      · intro other file' found' place inside
        rcases lookup other file' found' with ⟨rfl, rfl⟩ | ⟨-, old⟩
        · rw [show FileState.present _ = bitSet file.present index from rfl, bitSet_length]
          exact sound.words other file found place inside
        · exact sound.words other file' old place inside
      · intro other file' found' place there
        rcases lookup other file' found' with ⟨rfl, rfl⟩ | ⟨-, old⟩
        · rw [has, Bool.or_eq_true, decide_eq_true_iff] at there
          rcases there with old | rfl
          · exact sound.present other file found place old
          · exact ⟨within.trans_eq size.symm, held⟩
        · exact sound.present other file' old place there
      · intro on other len'
        have on' : state.residency.limit ≠ 0 := by rwa [← limit]
        rw [len, lens on']
        constructor
        · intro told
          split at told
          · rename_i this
            cases told
            refine ⟨path, _, Function.update_self _ _ _, ?_, ?_, ?_⟩
            · rw [this]
              rfl
            · rw [has, this]
              simp
            · rw [this]
              rfl
          · obtain ⟨path', file', found', id, has', same'⟩ :=
              (sound.tracked on' other len').mp told
            by_cases this : path' = path
            · subst this
              cases found.symm.trans found'
              refine ⟨path', _, Function.update_self _ _ _, id, ?_, same'⟩
              rw [has, has', Bool.true_or]
            · exact ⟨path', file', (Function.update_of_ne this _ _).trans found', id, has', same'⟩
        · rintro ⟨path', file', found', id, has', same'⟩
          rcases lookup path' file' found' with ⟨rfl, rfl⟩ | ⟨this, old⟩
          · rw [has, Bool.or_eq_true, decide_eq_true_iff] at has'
            split
            · rename_i equal
              rw [← same', equal]
              rfl
            · rename_i apart
              refine (sound.tracked on' other len').mpr
                ⟨path', file, found, id, has'.resolve_right fun equal => ?_, same'⟩
              exact apart (Prod.ext id.symm equal.symm)
          · rw [if_neg]
            · exact (sound.tracked on' other len').mpr ⟨path', file', old, id, has', same'⟩
            · intro equal
              exact this (sound.path_unique found old (by rw [id, equal]))
      · intro zero
        rw [len]
        exact off (by rwa [len, limit] at zero)
      · intro other count found'
        rw [len, pins] at found'
        exact sound.positive other count found'
      · intro other file' found'
        by_cases this : other = path
        · subst this
          cases found.symm.trans found'
          refine ⟨_, Function.update_self _ _ _, ⟨rfl, rfl, bitSet_length _ _⟩, ?_⟩
          intro place _
          refine ⟨fun there => ?_, id⟩
          rw [has, there, Bool.true_or]
        · exact ⟨file', (Function.update_of_ne this _ _).trans found', ⟨rfl, rfl, rfl⟩,
            fun place _ => ⟨id, id⟩⟩
      · intro file' found'
        rcases lookup path file' found' with ⟨-, rfl⟩ | ⟨apart, -⟩
        · rw [has]
          simp
        · exact absurd rfl apart

theorem foldl_markBlock_absent (missing : state.files path = none) (indices : List Nat)
    : indices.foldl (Odb.markBlock path) state = state := by
  induction indices with
  | nil => rfl
  | cons index indices ih =>
      rw [List.foldl_cons, show Odb.markBlock path state index = state by
        rw [Odb.markBlock, missing]]
      exact ih

/-- Marking blocks that are held makes them all present. -/
theorem StoreState.Sound.markBlocks (sound : state.Sound version disk) {indices : List Nat}
    (right
      : ∀ index ∈ indices,
          index * block < (version path).length ∧ disk.Holds version path index)
    : let after := indices.foldl (Odb.markBlock path) state
      after.Sound version disk
      ∧ state.Keeps version (fun _ => True) after disk disk
      ∧ (∀ file, after.files path = some file → ∀ index ∈ indices, file.has index = true)
      ∧ after.residency.pins = state.residency.pins
      ∧ after.residency.limit = state.residency.limit := by
  induction indices generalizing state with
  | nil =>
      exact ⟨sound, .refl _ _ _ _, fun _ _ _ member => absurd member List.not_mem_nil, rfl, rfl⟩
  | cons index indices ih =>
      obtain ⟨⟨within, held⟩, others⟩ := List.forall_mem_cons.mp right
      obtain ⟨sound', keeps, marked, pins, limit⟩ := sound.markBlock within held
      obtain ⟨sound'', keeps', all, pins', limit'⟩ := ih sound' others
      refine ⟨sound'', keeps.trans keeps', fun file found => ?_, pins'.trans pins,
        limit'.trans limit⟩
      refine List.forall_mem_cons.mpr ⟨?_, all file found⟩
      cases before : (Odb.markBlock path state index).files path with
      | none =>
          rw [List.foldl_cons, foldl_markBlock_absent before] at found
          cases before.symm.trans found
      | some middle =>
          obtain ⟨next, found', -, blocks⟩ := keeps' path middle before
          cases found.symm.trans found'
          exact (blocks index trivial).1 (marked middle before)

theorem StoreState.Sound.withStats (sound : state.Sound version disk) (stats : OdbStats)
    : StoreState.Sound version { state with stats } disk :=
  ⟨sound.named, sound.sized, sound.words, sound.present, sound.queued, sound.tracked, sound.off,
    sound.positive⟩

/-- A block of a run, by its index. -/
def Run.Has (run : Run) (index : Nat) : Prop :=
  run.1 ≤ index ∧ index ≤ run.2

theorem mem_run {run : Run}
    : index ∈ List.range' run.1 (run.2 + 1 - run.1) ↔ Run.Has run index := by
  rw [List.mem_range'_1, Run.Has]
  omega

/-- Marking a run and evicting keeps the store sound, and every pinned block; the blocks of the
run, which are pinned, are present. It ends within the limit, or with pinned blocks only.
-/
theorem StoreState.Sound.mark (sound : state.Sound version disk) (read : Read) (bytes : Bytes)
    (run : Run) (punches : BlockKey → Bool)
    (right
      : ∀ index, Run.Has run index
          → index * block < (version read.path).length ∧ disk.Holds version read.path index)
    (pinned
      : ∀ file, state.files read.path = some file
          → ∀ index, Run.Has run index
            → (state.residency.pins.lookup (file.id, index)).isSome = true)
    : let after := state.mark disk read bytes run punches
      after.1.Sound version after.2
      ∧ state.Keeps version (fun key => (state.residency.pins.lookup key).isSome = true) after.1
          disk after.2
      ∧ (∀ file, state.files read.path = some file
        → ∃ next, after.1.files read.path = some next
          ∧ ∀ index, Run.Has run index → next.has index = true)
      ∧ after.1.residency.pins = state.residency.pins
      ∧ (after.1.residency.overLimit = false
        ∨ ∀ key entry, after.1.residency.entries.lookup key = some entry
          → (after.1.residency.pins.lookup key).isSome = true) := by
  intro after
  obtain ⟨sound', keeps, marked, pins, -⟩ :=
    @StoreState.Sound.markBlocks version state disk read.path sound
      (List.range' run.1 (run.2 + 1 - run.1)) fun index member => right index (mem_run.mp member)
  have counted :=
    sound'.withStats
      { ((List.range' run.1 (run.2 + 1 - run.1)).foldl (Odb.markBlock read.path) state).stats with
        blocksFetched :=
          ((List.range' run.1 (run.2 + 1 - run.1)).foldl (Odb.markBlock read.path)
            state).stats.blocksFetched + (run.2 - run.1 + 1)
        bytesFetched :=
          ((List.range' run.1 (run.2 + 1 - run.1)).foldl (Odb.markBlock read.path)
            state).stats.bytesFetched + bytes.length }
  obtain ⟨sound'', keeps', pins', -, ends⟩ := counted.evictLoop punches (Nat.le_refl _)
  have held : ∀ key, (state.residency.pins.lookup key).isSome = true →
      (((List.range' run.1 (run.2 + 1 - run.1)).foldl (Odb.markBlock read.path)
        state).residency.pins.lookup key).isSome = true := by
    intro key pinned
    rw [pins]
    exact pinned
  refine ⟨sound'', (keeps.mono fun _ _ => trivial).trans (keeps'.mono held), ?_,
    pins'.trans pins, ends⟩
  intro file found
  obtain ⟨middle, found', same, -⟩ := keeps read.path file found
  obtain ⟨next, found'', -, blocks⟩ := keeps' read.path middle found'
  refine ⟨next, found'', fun index within => ?_⟩
  refine (blocks index ?_).1 (marked middle found' index (mem_run.mpr within))
  rw [same.id]
  exact held _ (pinned file found index within)

end Stores

-- Classification

section Classify

variable {file : FileState} {residency : Residency}

/-- What has been found after some of a read's blocks. -/
structure Scan.Sound (file : FileState) (residency : Residency) (first count : Nat) (scan : Scan)
    : Prop where
  queued : scan.residency.Queued
  lens : ∀ key, scan.residency.lenOf key = residency.lenOf key
  limit : scan.residency.limit = residency.limit
  off : residency.limit = 0 → scan.residency.entries = residency.entries
  positive : scan.residency.PinsPositive
  pins
    : ∀ key,
        scan.residency.pinsOn key
        = residency.pinsOn key
          + if key.1 = file.id ∧ first ≤ key.2 ∧ key.2 < first + count then 1 else 0
  runs : ∀ run ∈ scan.runs, first ≤ run.1 ∧ run.1 ≤ run.2 ∧ run.2 < first + count
  started : ∀ start, scan.runStart = some start → first ≤ start ∧ start < first + count
  covered
    : ∀ index, first ≤ index → index < first + count
        → file.has index = true
          ∨ (∃ run ∈ scan.runs, Run.Has run index)
          ∨ ∃ start, scan.runStart = some start ∧ start ≤ index

/-- One more block is pinned, and is present or of a run. -/
theorem Scan.Sound.visit {first count : Nat} {scan : Scan}
    (sound : scan.Sound file residency first count)
    : (scan.visit file (first + count)).Sound file residency first (count + 1) := by
  have counts : ∀ key, (scan.residency.pin (file.id, first + count)).pinsOn key
      = residency.pinsOn key
        + if key.1 = file.id ∧ first ≤ key.2 ∧ key.2 < first + (count + 1) then 1 else 0 := by
    intro key
    rw [Residency.pinsOn_pin, sound.pins, Nat.add_assoc]
    congr 1
    by_cases this : key = (file.id, first + count)
    · subst this
      simp
    · by_cases id : key.1 = file.id
      · have apart : key.2 ≠ first + count := fun same => this (Prod.ext id same)
        simp only [this, id, true_and, if_false, Nat.add_zero]
        refine if_congr ?_ rfl rfl
        omega
      · simp [this, id]
  have positive := sound.positive.pin (file.id, first + count)
  have queued := sound.queued.pin (file.id, first + count)
  rw [Scan.visit]
  by_cases has : file.has (first + count) = true
  · obtain ⟨queued', lens, limit, pins⟩ := queued.touch (file.id, first + count)
    simp only [has, if_true]
    refine ⟨queued', fun key => (lens key).trans (sound.lens key), limit.trans sound.limit, ?_, ?_,
      ?_, ?_, by nofun, ?_⟩
    · intro zero
      have on : (scan.residency.pin (file.id, first + count)).limit = 0 :=
        sound.limit.trans zero
      rw [Residency.touch, if_pos on]
      exact sound.off zero
    · intro key held found
      rw [pins] at found
      exact positive key held found
    · intro key
      rw [Residency.pinsOn, pins]
      exact counts key
    · intro run member
      split at member
      · rename_i start at_start
        rcases List.mem_append.mp member with old | new
        · obtain ⟨above, ordered, below⟩ := sound.runs run old
          exact ⟨above, ordered, by omega⟩
        · obtain ⟨above, below⟩ := sound.started start at_start
          rw [List.mem_singleton.mp new]
          dsimp only
          omega
      · obtain ⟨above, ordered, below⟩ := sound.runs run member
        exact ⟨above, ordered, by omega⟩
    · intro index above below
      by_cases this : index = first + count
      · exact .inl (this ▸ has)
      · rcases sound.covered index above (by omega) with there | ⟨run, member, within⟩ |
          ⟨start, at_start, below'⟩
        · exact .inl there
        · refine .inr (.inl ⟨run, ?_, within⟩)
          split
          · exact List.mem_append_left _ member
          · exact member
        · refine .inr (.inl ⟨(start, first + count - 1), ?_, ⟨below', by omega⟩⟩)
          rw [at_start]
          exact List.mem_append_right _ (List.mem_singleton_self _)
  · rw [Bool.not_eq_true] at has
    simp only [has, Bool.false_eq_true, if_false]
    refine ⟨queued, sound.lens, sound.limit, sound.off, positive, counts, ?_, ?_, ?_⟩
    · intro run member
      obtain ⟨above, ordered, below⟩ := sound.runs run member
      exact ⟨above, ordered, by omega⟩
    · intro start at_start
      cases was : scan.runStart with
      | none =>
          rw [was, Option.getD_none, Option.some.injEq] at at_start
          omega
      | some old =>
          rw [was, Option.getD_some, Option.some.injEq] at at_start
          have bounds := sound.started old was
          omega
    · intro index above below
      by_cases this : index = first + count
      · refine .inr (.inr ⟨_, rfl, ?_⟩)
        cases was : scan.runStart with
        | none => exact this.ge
        | some old =>
            have bounds := sound.started old was
            rw [Option.getD_some]
            omega
      · rcases sound.covered index above (by omega) with there | run | ⟨start, at_start, below'⟩
        · exact .inl there
        · exact .inr (.inl run)
        · refine .inr (.inr ⟨start, ?_, below'⟩)
          rw [at_start]
          rfl

/-- The runs of a scan, its open one with them. -/
def Scan.closed (scan : Scan) (last : Nat) : List Run :=
  match scan.runStart with
  | some start => scan.runs ++ [(start, last)]
  | none => scan.runs

/-- Classifying a read's blocks pins each of them once, keeps the bookkeeping right, and lists
every absent block in a run.
-/
theorem classify_spec (queued : residency.Queued) (positive : residency.PinsPositive)
    {first last : Nat} (ordered : first ≤ last + 1)
    : let found := classify file residency first last
      found.1.Queued
      ∧ (∀ key, found.1.lenOf key = residency.lenOf key)
      ∧ found.1.limit = residency.limit
      ∧ (residency.limit = 0 → found.1.entries = residency.entries)
      ∧ found.1.PinsPositive
      ∧ (∀ key,
        found.1.pinsOn key
        = residency.pinsOn key
          + if key.1 = file.id ∧ first ≤ key.2 ∧ key.2 ≤ last then 1 else 0)
      ∧ (∀ run ∈ found.2.1, first ≤ run.1 ∧ run.1 ≤ run.2 ∧ run.2 ≤ last)
      ∧ ∀ index, first ≤ index → index ≤ last
        → file.has index = true ∨ ∃ run ∈ found.2.1, Run.Has run index := by
  intro found
  have scanned : ∀ count,
      Scan.Sound file residency first count
        ((List.range' first count).foldl (Scan.visit file) ⟨residency, [], none, 0⟩) := by
    intro count
    induction count with
    | zero =>
        refine ⟨queued, fun _ => rfl, rfl, fun _ => rfl, positive, fun key => ?_,
          fun _ member => absurd member List.not_mem_nil, by nofun, fun index above below => ?_⟩
        · rw [if_neg (by omega)]
          rfl
        · omega
    | succ count ih =>
        rw [List.range'_concat, Nat.one_mul, List.foldl_append]
        exact ih.visit
  have right := scanned (last + 1 - first)
  have listed
      : found.2.1
        = ((List.range' first (last + 1 - first)).foldl (Scan.visit file)
            ⟨residency, [], none, 0⟩).closed last :=
    rfl
  have whole : first + (last + 1 - first) = last + 1 := by omega
  refine ⟨right.queued, right.lens, right.limit, right.off, right.positive, ?_, ?_, ?_⟩
  · intro key
    refine (right.pins key).trans ?_
    congr 1
    refine if_congr ?_ rfl rfl
    rw [whole, Nat.lt_succ_iff]
  · intro run member
    rw [listed, Scan.closed] at member
    split at member
    · rename_i start at_start
      rcases List.mem_append.mp member with old | new
      · obtain ⟨above, upward, below⟩ := right.runs run old
        omega
      · have bounds := right.started start at_start
        rw [List.mem_singleton.mp new]
        dsimp only
        omega
    · obtain ⟨above, upward, below⟩ := right.runs run member
      omega
  · intro index above below
    rcases right.covered index above (by omega) with there | ⟨run, member, within⟩ |
      ⟨start, at_start, below'⟩
    · exact .inl there
    · refine .inr ⟨run, ?_, within⟩
      rw [listed, Scan.closed]
      split
      · exact List.mem_append_left _ member
      · exact member
    · refine .inr ⟨(start, last), ?_, ⟨below', below⟩⟩
      rw [listed, Scan.closed, at_start]
      exact List.mem_append_right _ (List.mem_singleton_self _)

end Classify

-- One read

/-- A read that has pins to release. -/
def Phase.live : Phase → Bool
  | .done _ => false
  | _ => true

/-- A read that is on its way to an answer. -/
def Phase.working : Phase → Bool
  | .releasing _ | .done _ => false
  | _ => true

/-- The runs that are not marked yet. -/
def Phase.runs : Phase → List Run
  | .fetching run rest | .writing _ run rest | .marking _ run rest => run :: rest
  | _ => []

/-- A read holds a block. -/
def Read.pinning (read : Read) (key : BlockKey) : Bool :=
  read.phase.live && (read.fileId = key.1 && read.first ≤ key.2 && key.2 ≤ read.last)

/-- What holds of a read: it stands at the file that it found, every block that it needs is
present or of a run that it will mark, what has arrived and what it answers are the version's.
-/
structure Read.Sound (version : Text → Bytes) (state : StoreState) (disk : Disk) (read : Read)
    : Prop where
  bounds
    : read.phase.live = true → ∃ file,
        state.files read.path = some file
        ∧ file.id = read.fileId
        ∧ file.size = read.total
        ∧ read.offset < read.total
        ∧ 0 < read.finish
        ∧ read.first = read.offset / block
        ∧ read.last = (read.finish - 1) / block
  runs
    : ∀ run ∈ read.phase.runs, read.first ≤ run.1 ∧ run.1 ≤ run.2 ∧ run.2 ≤ read.last
  covered
    : read.phase.working = true
        → ∀ file, state.files read.path = some file
          → ∀ index, read.first ≤ index → index ≤ read.last
            → file.has index = true ∨ ∃ run ∈ read.phase.runs, Run.Has run index
  arrived
    : ∀ bytes run rest,
        read.phase = .writing bytes run rest ∨ read.phase = .marking bytes run rest
        → TrueBytes version read.path (read.range run).1 bytes
          ∧ bytes.length = (read.range run).2 - (read.range run).1 + 1
  written
    : ∀ bytes run rest, read.phase = .marking bytes run rest
        → ∀ index, Run.Has run index → disk.Holds version read.path index
  answered
    : ∀ bytes, read.phase = .releasing (.ok bytes) ∨ read.phase = .done (.ok bytes)
        → (state.files read.path).isSome = true
          ∧ bytes
            = slice (version read.path) read.offset
                (min (read.offset + read.size) (version read.path).length)

section Reads

variable {version : Text → Bytes} {kept : BlockKey → Prop} {state after : StoreState}
  {disk disk' : Disk} {read : Read}

theorem Read.pinning_iff {key : BlockKey}
    : read.pinning key = true
      ↔ read.phase.live = true
        ∧ read.fileId = key.1
        ∧ read.first ≤ key.2
        ∧ key.2 ≤ read.last := by
  simp [Read.pinning, and_assoc]

/-- What keeps the blocks that a read holds keeps the read sound. -/
theorem Read.Sound.keeps (sound : read.Sound version state disk)
    (keeps : state.Keeps version kept after disk disk')
    (held : ∀ key, read.pinning key = true → kept key)
    : read.Sound version after disk' := by
  have pinned : read.phase.live = true → ∀ index, read.first ≤ index → index ≤ read.last →
      kept (read.fileId, index) := fun live index above below =>
    held _ (Read.pinning_iff.mpr ⟨live, rfl, above, below⟩)
  refine ⟨?_, sound.runs, ?_, sound.arrived, ?_, ?_⟩
  · intro live
    obtain ⟨file, found, id, size, rest⟩ := sound.bounds live
    obtain ⟨next, found', same, -⟩ := keeps read.path file found
    exact ⟨next, found', same.id.trans id, same.size.trans size, rest⟩
  · intro working next found' index above below
    have live : read.phase.live = true := by
      cases phase : read.phase <;> rw [phase] at working <;> first | rfl | cases working
    obtain ⟨file, found, id, -⟩ := sound.bounds live
    obtain ⟨next', found'', -, blocks⟩ := keeps read.path file found
    cases found'.symm.trans found''
    have stays := blocks index (by rw [id]; exact pinned live index above below)
    exact (sound.covered working file found index above below).imp_left stays.1
  · intro bytes run rest phase index within
    have live : read.phase.live = true := by rw [phase]; rfl
    obtain ⟨file, found, id, -⟩ := sound.bounds live
    obtain ⟨next, -, -, blocks⟩ := keeps read.path file found
    have bounds := sound.runs run (by rw [phase]; exact List.mem_cons_self)
    have stays := blocks index (by
      rw [id]
      exact pinned live index (bounds.1.trans within.1) (within.2.trans bounds.2.2))
    exact stays.2 (sound.written bytes run rest phase index within)
  · intro bytes phase
    obtain ⟨there, same⟩ := sound.answered bytes phase
    obtain ⟨file, found⟩ := Option.isSome_iff_exists.mp there
    obtain ⟨next, found', -⟩ := keeps read.path file found
    exact ⟨by rw [found']; rfl, same⟩

theorem Read.pinning_of_live (live : read.phase.live = true) {phase : Phase}
    (still : phase.live = true) (key : BlockKey)
    : Read.pinning { read with phase } key = read.pinning key := by
  rw [Read.pinning, Read.pinning, live]
  exact congrArg (· && _) still

theorem Read.Sound.panicked (read : Read)
    : Read.Sound version state disk { read with phase := .done .panicked } :=
  ⟨by nofun, fun _ member => absurd member List.not_mem_nil, by nofun, by nofun, by nofun,
    by nofun⟩

theorem Read.Sound.fail (sound : read.Sound version state disk) (live : read.phase.live = true)
    {outcome : Outcome} (fails : ∀ bytes, outcome ≠ .ok bytes)
    : Read.Sound version state disk { read with phase := .releasing outcome } := by
  refine ⟨fun _ => sound.bounds live, fun _ member => absurd member List.not_mem_nil, by nofun,
    by nofun, by nofun, ?_⟩
  rintro bytes (phase | phase)
  · exact absurd (Phase.releasing.inj phase) (fails bytes)
  · cases phase

theorem Read.Sound.within (sound : read.Sound version state disk)
    (right : state.Sound version disk) (live : read.phase.live = true) {index : Nat}
    (below : index ≤ read.last)
    : index * block < (version read.path).length := by
  obtain ⟨file, found, -, size, -, positive, -, last⟩ := sound.bounds live
  have whole := right.sized read.path file found
  have inside : read.finish ≤ read.total := Nat.min_le_right _ _
  rw [last] at below
  have first := (Nat.le_div_iff_mul_le (by decide : 0 < block)).mp below
  omega

theorem Read.Sound.holds_written (sound : read.Sound version state disk)
    (right : state.Sound version disk) {bytes : Bytes} {run : Run} {rest : List Run}
    (phase : read.phase = .writing bytes run rest) {index : Nat} (within : Run.Has run index)
    : (disk.write read.path (read.range run).1 bytes).Holds version read.path index := by
  have live : read.phase.live = true := by rw [phase]; rfl
  obtain ⟨told, length⟩ := sound.arrived bytes run rest (.inl phase)
  obtain ⟨file, found, -, size, -⟩ := sound.bounds live
  have whole := right.sized read.path file found
  have bounds := sound.runs run (by rw [phase]; exact List.mem_cons_self)
  have inside := sound.within right live (within.2.trans bounds.2.2)
  refine Disk.holds_of_write told (Nat.mul_le_mul_right block within.1) ?_
  have upper : (index + 1) * block ≤ (run.2 + 1) * block :=
    Nat.mul_le_mul_right block (Nat.succ_le_succ within.2)
  have lower : run.1 * block ≤ index * block := Nat.mul_le_mul_right block within.1
  have step : (index + 1) * block = index * block + block := by rw [Nat.add_mul, Nat.one_mul]
  have positive : 0 < block := by decide
  rw [length, Read.range]
  dsimp only
  generalize block = size at bounds inside upper lower step positive ⊢
  omega

theorem Read.Sound.serve (sound : read.Sound version state disk)
    (right : state.Sound version disk) (phase : read.phase = .serving)
    : disk.read read.path read.offset read.finish
      = slice (version read.path) read.offset
          (min (read.offset + read.size) (version read.path).length) := by
  obtain ⟨file, found, -, size, -, -, first, last⟩ := sound.bounds (by rw [phase]; rfl)
  have whole := right.sized read.path file found
  have finish
      : read.finish = min (read.offset + read.size) (version read.path).length := by
    rw [Read.finish, ← size, whole]
  rw [← finish]
  refine Disk.read_eq (fun index above below => ?_) (by rw [finish]; exact Nat.min_le_right _ _)
  rcases sound.covered (by rw [phase]; rfl) file found index (first ▸ above) (last ▸ below) with
    there | ⟨run, member, -⟩
  · exact (right.present read.path file found index there).2
  · rw [phase] at member
    cases member

end Reads

-- Releasing

/-- Releasing a read's pins takes one from each block that it covers. -/
theorem release_spec {residency : Residency} (positive : residency.PinsPositive) (read : Read)
    : ∃ pins,
        residency.release read = { residency with pins }
        ∧ (residency.release read).PinsPositive
        ∧ ∀ key,
          (residency.release read).pinsOn key
          = residency.pinsOn key
            - if read.fileId = key.1 ∧ read.first ≤ key.2 ∧ key.2 ≤ read.last then 1 else 0 := by
  have released : ∀ count, ∃ pins,
      (List.range' read.first count).foldl
          (fun residency index => residency.unpin (read.fileId, index)) residency
        = { residency with pins }
      ∧ Residency.PinsPositive { residency with pins }
      ∧ ∀ key,
        Residency.pinsOn { residency with pins } key
        = residency.pinsOn key
          - if read.fileId = key.1 ∧ read.first ≤ key.2 ∧ key.2 < read.first + count then 1
            else 0 := by
    intro count
    induction count with
    | zero =>
        refine ⟨residency.pins, rfl, positive, fun key => ?_⟩
        rw [if_neg (by omega)]
        rfl
    | succ count ih =>
        obtain ⟨pins, same, positive', counts⟩ := ih
        rw [List.range'_concat, Nat.one_mul, List.foldl_append, same]
        obtain ⟨pins', same'⟩ :=
          Residency.unpin_fields { residency with pins } (read.fileId, read.first + count)
        have positive'' := positive'.unpin (read.fileId, read.first + count)
        have counts' := Residency.pinsOn_unpin { residency with pins }
          (read.fileId, read.first + count)
        rw [same'] at positive'' counts'
        refine ⟨pins', same', positive'', fun key => ?_⟩
        rw [counts', counts, Nat.sub_sub]
        refine congrArg (residency.pinsOn key - ·) ?_
        by_cases this : key = (read.fileId, read.first + count)
        · subst this
          simp
        · rw [if_neg this, Nat.add_zero]
          by_cases id : read.fileId = key.1
          · have apart : key.2 ≠ read.first + count := fun equal => this (Prod.ext id.symm equal)
            refine if_congr ?_ rfl rfl
            omega
          · simp [id]
  obtain ⟨pins, same, positive', counts⟩ := released (read.last + 1 - read.first)
  refine ⟨pins, same, by rw [Residency.release, same]; exact positive', fun key => ?_⟩
  rw [Residency.release, same, counts]
  congr 1
  refine if_congr ?_ rfl rfl
  omega

-- Every read

/-- The store and every read are sound, and a block is pinned once for each read that holds it. -/
structure Projection.Sound (version : Text → Bytes) (projection : Projection) : Prop where
  state : projection.state.Sound version projection.disk
  pins
    : projection.poisoned = false
        → ∀ key,
          projection.state.residency.pinsOn key
          = projection.reads.countP (fun read => read.pinning key)
  reads : ∀ read ∈ projection.reads, read.Sound version projection.state projection.disk

/-- A fetch is answered from the version. -/
def Projection.Answered (version : Text → Bytes) (projection : Projection) : Event → Prop
  | .advance place _ =>
      ∀ read run rest, projection.reads[place]? = some read → read.phase = .fetching run rest
        → ∀ content, projection.gateway read.path = some content
          → content = version read.path
  | _ => True

section Projections

variable {version : Text → Bytes} {projection : Projection}

theorem Projection.Sound.pinned (sound : projection.Sound version)
    (running : projection.poisoned = false) {read : Read} (member : read ∈ projection.reads)
    {key : BlockKey} (holds : read.pinning key = true)
    : (projection.state.residency.pins.lookup key).isSome = true := by
  have positive : 0 < projection.state.residency.pinsOn key := by
    rw [sound.pins running]
    exact List.countP_pos_iff.mpr ⟨read, member, holds⟩
  rw [Residency.pinsOn] at positive
  cases found : projection.state.residency.pins.lookup key with
  | some count => rfl
  | none =>
      rw [found] at positive
      cases positive

theorem countP_set {reads : List Read} {place : Nat} {read next : Read} {test : Read → Bool}
    (at_place : reads[place]? = some read)
    : (reads.set place next).countP test + (if test read then 1 else 0)
      = reads.countP test + (if test next then 1 else 0) := by
  obtain ⟨bound, same⟩ := List.getElem?_eq_some_iff.mp at_place
  have whole : reads = reads.take place ++ read :: reads.drop (place + 1) := by
    rw [← same, ← List.drop_eq_getElem_cons bound]
    exact (List.take_append_drop place reads).symm
  have changed : reads.set place next = reads.take place ++ next :: reads.drop (place + 1) :=
    List.set_eq_take_append_cons_drop.trans (if_pos bound)
  rw [changed]
  conv_rhs => rw [whole]
  simp only [List.countP_append, List.countP_cons]
  omega

variable {state : StoreState}

theorem Projection.Sound.set (sound : projection.Sound version) {place : Nat} {read next : Read}
    {disk : Disk} {kept : BlockKey → Prop} (at_place : projection.reads[place]? = some read)
    (right : state.Sound version disk)
    (keeps : projection.state.Keeps version kept state projection.disk disk)
    (held : ∀ other ∈ projection.reads, ∀ key, other.pinning key = true → kept key)
    (pins : state.residency.pins = projection.state.residency.pins)
    (holding
      : projection.poisoned = false → ∀ key, next.pinning key = read.pinning key)
    (stays : next.Sound version state disk)
    : Projection.Sound version
        { projection with state, disk, reads := projection.reads.set place next } := by
  refine ⟨right, fun running key => ?_, fun other member => ?_⟩
  · have counts := @countP_set _ place read next (fun read => read.pinning key) at_place
    rw [holding running key] at counts
    rw [Residency.pinsOn, pins]
    exact (sound.pins running key).trans (Nat.add_right_cancel counts).symm
  · rcases List.mem_or_eq_of_mem_set member with old | rfl
    · exact (sound.reads other old).keeps keeps (held other old)
    · exact stays

theorem Projection.Sound.move (sound : projection.Sound version) {place : Nat} {read next : Read}
    (at_place : projection.reads[place]? = some read)
    (holding : projection.poisoned = false → ∀ key, next.pinning key = read.pinning key)
    (stays : next.Sound version projection.state projection.disk)
    : Projection.Sound version { projection with reads := projection.reads.set place next } :=
  sound.set at_place sound.state (.refl version (fun _ => True) _ _) (fun _ _ _ _ => trivial) rfl
    holding stays

theorem StoreState.Sound.write {disk : Disk} (sound : state.Sound version disk) {path : Text}
    {start : Nat} {bytes : Bytes} (right : TrueBytes version path start bytes)
    : state.Sound version (disk.write path start bytes)
      ∧ state.Keeps version (fun _ => True) state disk (disk.write path start bytes) :=
  ⟨⟨sound.named, sound.sized, sound.words,
      fun path file found index has =>
        have told := sound.present path file found index has
        ⟨told.1, told.2.write right⟩,
      sound.queued, sound.tracked, sound.off, sound.positive⟩,
    fun _ file found => ⟨file, found, ⟨rfl, rfl, rfl⟩, fun _ _ =>
      ⟨id, fun held => held.write right⟩⟩⟩

/-- Marking the run of a read that has written it. -/
theorem Projection.Sound.mark (sound : projection.Sound version)
    (running : projection.poisoned = false) {read : Read} (member : read ∈ projection.reads)
    {bytes : Bytes} {run : Run} {rest : List Run} (phase : read.phase = .marking bytes run rest)
    (punches : BlockKey → Bool)
    : let after := projection.state.mark projection.disk read bytes run punches
      after.1.Sound version after.2
      ∧ projection.state.Keeps version
          (fun key => (projection.state.residency.pins.lookup key).isSome = true) after.1
          projection.disk after.2
      ∧ (∀ file, projection.state.files read.path = some file
        → ∃ next, after.1.files read.path = some next
          ∧ ∀ index, Run.Has run index → next.has index = true)
      ∧ after.1.residency.pins = projection.state.residency.pins
      ∧ (after.1.residency.overLimit = false
        ∨ ∀ key entry, after.1.residency.entries.lookup key = some entry
          → (after.1.residency.pins.lookup key).isSome = true) := by
  have live : read.phase.live = true := by rw [phase]; rfl
  have own := sound.reads read member
  have bounds := own.runs run (by rw [phase]; exact List.mem_cons_self)
  obtain ⟨file, found, id, -⟩ := own.bounds live
  refine sound.state.mark read bytes run punches (fun index within => ?_)
    (fun file' found' index within => ?_)
  · exact ⟨own.within sound.state live (within.2.trans bounds.2.2),
      own.written bytes run rest phase index within⟩
  · cases found.symm.trans found'
    refine sound.pinned running member (Read.pinning_iff.mpr ⟨live, ?_, ?_, ?_⟩)
    · exact id.symm
    · exact bounds.1.trans within.1
    · exact within.2.trans bounds.2.2

theorem trueBytes_of_fetch {read : Read} {run : Run} {length : Nat} {body : Bytes}
    {gateway : Objects}
    (answered : ∀ content, gateway read.path = some content → content = version read.path)
    (fetched : readRange gateway read.path (read.range run).1 (read.range run).2 = .ok body)
    : TrueBytes version read.path (read.range run).1 (body.take length) := by
  obtain ⟨content, found, same⟩ := readRange_eq_ok fetched
  refine .take (fun place byte at_place => ?_) length
  rw [← answered content found]
  rw [same, slice, List.getElem?_take] at at_place
  split at at_place
  · rwa [List.getElem?_drop] at at_place
  · cases at_place

/-- The projection after a read's step. -/
def Projection.advancedAt (projection : Projection) (place : Nat) (read : Read)
    (given : Surroundings)
    : Projection :=
  { projection with
    state := (projection.advance read given).1
    disk := (projection.advance read given).2.1
    reads := projection.reads.set place (projection.advance read given).2.2 }

section Advance

variable (sound : projection.Sound version) {place : Nat} {read : Read} {given : Surroundings}
  (at_place : projection.reads[place]? = some read)

include sound at_place

theorem Projection.Sound.reading : read.Sound version projection.state projection.disk :=
  sound.reads read (List.mem_of_getElem? at_place)

theorem Projection.Sound.advance_failed (live : read.phase.live = true)
    (refusal : GfsError)
    (fails
      : projection.advance read given
        = (projection.state, projection.disk, { read with phase := .releasing (.failed refusal) }))
    : (projection.advancedAt place read given).Sound version := by
  rw [Projection.advancedAt, fails]
  exact sound.move at_place (fun _ key => Read.pinning_of_live live rfl key)
    ((sound.reading at_place).fail live (by nofun))

theorem Projection.Sound.advance_panicked (poisoned : projection.poisoned = true)
    (panics
      : projection.advance read given
        = (projection.state, projection.disk, { read with phase := .done .panicked }))
    : (projection.advancedAt place read given).Sound version := by
  rw [Projection.advancedAt, panics]
  refine sound.move at_place (fun running => ?_) (.panicked read)
  rw [poisoned] at running
  cases running

/-- A fetch that arrives whole is written next. -/
theorem Projection.Sound.advance_fetching {run : Run} {rest : List Run}
    (phase : read.phase = .fetching run rest)
    (answered
      : ∀ content, projection.gateway read.path = some content → content = version read.path)
    : (projection.advancedAt place read given).Sound version := by
  have own := sound.reading at_place
  have live : read.phase.live = true := by rw [phase]; rfl
  cases arrives : given.arrives with
  | error refusal =>
      refine sound.advance_failed at_place live refusal ?_
      rw [Projection.advance, phase, arrives]
      rfl
  | ok length =>
      cases fetched : readRange projection.gateway read.path (read.range run).1
          (read.range run).2 with
      | error refusal =>
          refine sound.advance_failed at_place live refusal ?_
          rw [Projection.advance, phase, arrives]
          simp only [fetched]
          rfl
      | ok body =>
          by_cases short
              : (body.take length).length ≠ (read.range run).2 - (read.range run).1 + 1
          · refine sound.advance_failed at_place live ⟨.internal, "short odb range".toList⟩ ?_
            rw [Projection.advance, phase, arrives]
            simp only [fetched]
            exact if_pos short
          · have goes
                : projection.advance read given
                  = (projection.state, projection.disk,
                      { read with phase := .writing (body.take length) run rest }) := by
              rw [Projection.advance, phase, arrives]
              simp only [fetched]
              exact if_neg short
            rw [Projection.advancedAt, goes]
            refine sound.move at_place (fun _ key => Read.pinning_of_live live rfl key) ?_
            have right := @trueBytes_of_fetch version read run length body _ answered fetched
            refine ⟨fun _ => own.bounds live, ?_, ?_, ?_, by nofun, by nofun⟩
            · have runs := own.runs
              rw [phase] at runs
              exact runs
            · have covered := own.covered
              rw [phase] at covered
              exact fun _ => covered rfl
            · rintro bytes run' rest' (same | same)
              · cases same
                exact ⟨right, not_not.mp short⟩
              · cases same

/-- A write of what has arrived, which may stop short and then fails the read. -/
theorem Projection.Sound.advance_writing {bytes : Bytes} {run : Run} {rest : List Run}
    (phase : read.phase = .writing bytes run rest)
    : (projection.advancedAt place read given).Sound version := by
  have own := sound.reading at_place
  have live : read.phase.live = true := by rw [phase]; rfl
  obtain ⟨told, length⟩ := own.arrived bytes run rest (.inl phase)
  cases writes : given.writes with
  | none =>
      have goes
          : projection.advance read given
            = (projection.state,
                projection.disk.write read.path (read.range run).1 bytes,
                { read with phase := .marking bytes run rest }) := by
        rw [Projection.advance, phase]
        simp only [writes]
      rw [Projection.advancedAt, goes]
      obtain ⟨right, keeps⟩ := sound.state.write told
      refine sound.set at_place right keeps (fun _ _ _ _ => trivial) rfl
        (fun _ key => Read.pinning_of_live live rfl key) ?_
      refine ⟨fun _ => own.bounds live, ?_, ?_, ?_, ?_, by nofun⟩
      · have runs := own.runs
        rw [phase] at runs
        exact runs
      · have covered := own.covered
        rw [phase] at covered
        exact fun _ => covered rfl
      · rintro bytes' run' rest' (same | same)
        · cases same
        · cases same
          exact ⟨told, length⟩
      · intro bytes' run' rest' same index within
        cases same
        exact own.holds_written sound.state phase within
  | some count =>
      have goes
          : projection.advance read given
            = (projection.state,
                projection.disk.write read.path (read.range run).1 (bytes.take count),
                { read with
                  phase := .releasing (.failed ⟨.internal, "writing blocks".toList⟩) }) := by
        rw [Projection.advance, phase]
        simp only [writes]
      rw [Projection.advancedAt, goes]
      obtain ⟨right, keeps⟩ := sound.state.write (.take told count)
      exact sound.set at_place right keeps (fun _ _ _ _ => trivial) rfl
        (fun _ key => Read.pinning_of_live live rfl key)
        ((own.keeps keeps fun _ _ => trivial).fail live (by nofun))

/-- The run that is written is marked, and the read goes on to the next one. -/
theorem Projection.Sound.advance_marking {bytes : Bytes} {run : Run} {rest : List Run}
    (phase : read.phase = .marking bytes run rest)
    : (projection.advancedAt place read given).Sound version := by
  have own := sound.reading at_place
  have member := List.mem_of_getElem? at_place
  have live : read.phase.live = true := by rw [phase]; rfl
  by_cases poisoned : projection.poisoned = true
  · refine sound.advance_panicked at_place poisoned ?_
    rw [Projection.advance, phase]
    exact if_pos poisoned
  · have running : projection.poisoned = false := Bool.eq_false_of_not_eq_true poisoned
    have goes
        : projection.advance read given
          = ((projection.state.mark projection.disk read bytes run given.punches).1,
              (projection.state.mark projection.disk read bytes run given.punches).2,
              { read with
                cost :=
                  { read.cost with
                    blocksFetched := read.cost.blocksFetched + (run.2 - run.1 + 1)
                    bytesFetched := read.cost.bytesFetched + bytes.length }
                phase := afterRuns rest }) := by
      rw [Projection.advance, phase]
      exact if_neg poisoned
    rw [Projection.advancedAt, goes]
    obtain ⟨file, found, id, size, others⟩ := own.bounds live
    obtain ⟨right, keeps, marked, pins, -⟩ := sound.mark running member phase given.punches
    have still : (afterRuns rest).live = true := by cases rest <;> rfl
    have runs : (afterRuns rest).runs = rest := by cases rest <;> rfl
    refine sound.set at_place right keeps ?_ pins (fun _ key => ?_) ?_
    · exact fun other listed key holds => sound.pinned running listed holds
    · rw [Read.pinning, Read.pinning, live]
      dsimp only
      rw [still]
    · obtain ⟨next, found', same, blocks⟩ := keeps read.path file found
      obtain ⟨next', found'', has⟩ := marked file found
      cases found'.symm.trans found''
      refine ⟨fun _ => ⟨next, found', same.id.trans id, same.size.trans size, others⟩,
        ?_, ?_, ?_, ?_, ?_⟩
      · intro other listed
        dsimp only at listed
        rw [runs] at listed
        exact own.runs other (by rw [phase]; exact List.mem_cons_of_mem _ listed)
      · intro _ file' found' index above below
        cases found''.symm.trans found'
        dsimp only
        rw [runs]
        have pinned
            : (projection.state.residency.pins.lookup (file.id, index)).isSome = true := by
          refine sound.pinned running member (Read.pinning_iff.mpr ⟨live, ?_, above, below⟩)
          exact id.symm
        rcases own.covered (by rw [phase]; rfl) file found index above below with
          there | ⟨other, listed, within⟩
        · exact .inl ((blocks index pinned).1 there)
        · rw [phase] at listed
          rcases List.mem_cons.mp listed with rfl | later
          · exact .inl (has index within)
          · exact .inr ⟨other, later, within⟩
      · rintro bytes' run' rest' (here | here) <;> cases rest <;> cases here
      · rintro bytes' run' rest' here
        cases rest <;> cases here
      · rintro bytes' (here | here) <;> cases rest <;> cases here

/-- The answer is read from the blocks that the read holds. -/
theorem Projection.Sound.advance_serving (phase : read.phase = .serving)
    : (projection.advancedAt place read given).Sound version := by
  have own := sound.reading at_place
  have live : read.phase.live = true := by rw [phase]; rfl
  have goes
      : projection.advance read given
        = (projection.state, projection.disk,
            { read with
              phase :=
                .releasing
                  (if given.serves then
                    .ok (projection.disk.read read.path read.offset read.finish)
                  else .failed ⟨.internal, "reading cached blocks".toList⟩) }) := by
    rw [Projection.advance, phase]
  rw [Projection.advancedAt, goes]
  refine sound.move at_place (fun _ key => Read.pinning_of_live live rfl key) ?_
  cases given.serves with
  | false => exact own.fail live (by nofun)
  | true =>
      refine ⟨fun _ => own.bounds live, fun _ member => absurd member List.not_mem_nil,
        by nofun, by nofun, by nofun, ?_⟩
      rintro bytes (same | same)
      · cases same
        obtain ⟨file, found, -⟩ := own.bounds live
        exact ⟨by rw [found]; rfl, own.serve sound.state phase⟩
      · cases same

/-- The pins of a read that has its outcome are released. -/
theorem Projection.Sound.advance_releasing {outcome : Outcome}
    (phase : read.phase = .releasing outcome)
    : (projection.advancedAt place read given).Sound version := by
  have own := sound.reading at_place
  have live : read.phase.live = true := by rw [phase]; rfl
  by_cases poisoned : projection.poisoned = true
  · refine sound.advance_panicked at_place poisoned ?_
    rw [Projection.advance, phase]
    exact if_pos poisoned
  · have goes
        : projection.advance read given
          = ({ projection.state with residency := projection.state.residency.release read },
              projection.disk, { read with phase := .done outcome }) := by
      rw [Projection.advance, phase]
      exact if_neg poisoned
    rw [Projection.advancedAt, goes]
    obtain ⟨pins, same, positive, counts⟩ := release_spec sound.state.positive read
    have right : StoreState.Sound version
        { projection.state with residency := projection.state.residency.release read }
        projection.disk := by
      rw [same] at positive ⊢
      exact ⟨sound.state.named, sound.state.sized, sound.state.words, sound.state.present,
        ⟨sound.state.queued.queued, sound.state.queued.probation,
          sound.state.queued.protectedQueue, sound.state.queued.recent,
          sound.state.queued.resident, sound.state.queued.guarded⟩,
        sound.state.tracked, sound.state.off, positive⟩
    refine ⟨right, fun running key => ?_, fun other listed => ?_⟩
    · have counted := @countP_set _ place read { read with phase := .done outcome }
        (fun read => read.pinning key) at_place
      dsimp only at counted ⊢
      rw [counts, sound.pins running]
      have gone : Read.pinning { read with phase := .done outcome } key = false := rfl
      simp only [gone, Bool.false_eq_true, if_false, Nat.add_zero] at counted
      rw [← counted]
      have mine
          : (if read.fileId = key.1 ∧ read.first ≤ key.2 ∧ key.2 ≤ read.last then 1 else 0)
            = if read.pinning key = true then 1 else 0 := by
        refine if_congr ?_ rfl rfl
        rw [Read.pinning_iff]
        exact ⟨fun covers => ⟨live, covers⟩, fun holds => holds.2⟩
      rw [mine]
      exact Nat.add_sub_cancel _ _
    · rcases List.mem_or_eq_of_mem_set listed with old | rfl
      · have kept := sound.reads other old
        exact ⟨kept.bounds, kept.runs, kept.covered, kept.arrived, kept.written, kept.answered⟩
      · refine ⟨by nofun, fun _ member => absurd member List.not_mem_nil, by nofun, by nofun,
          by nofun, ?_⟩
        rintro bytes (here | here)
        · cases here
        · cases here
          exact own.answered bytes (.inl phase)

theorem Projection.Sound.advance
    (answered : projection.Answered version (.advance place given))
    : (projection.step (.advance place given)).Sound version := by
  have stepped
      : projection.step (.advance place given) = projection.advancedAt place read given := by
    rw [Projection.step, at_place]
    rfl
  rw [stepped]
  cases phase : read.phase with
  | fetching run rest =>
      exact sound.advance_fetching at_place phase (answered read run rest at_place phase)
  | writing bytes run rest => exact sound.advance_writing at_place phase
  | marking bytes run rest => exact sound.advance_marking at_place phase
  | serving => exact sound.advance_serving at_place phase
  | releasing outcome => exact sound.advance_releasing at_place phase
  | done outcome =>
      have goes : projection.advance read given = (projection.state, projection.disk, read) := by
        rw [Projection.advance, phase]
      rw [Projection.advancedAt, goes]
      exact sound.move at_place (fun _ _ => rfl) (sound.reading at_place)

end Advance

theorem Projection.Sound.add (sound : projection.Sound version) {next : Read} {poisoned : Bool}
    (right : state.Sound version projection.disk)
    (keeps
      : projection.state.Keeps version (fun _ => True) state projection.disk projection.disk)
    (counts
      : poisoned = false
          → projection.poisoned = false
            ∧ ∀ key,
              state.residency.pinsOn key
              = projection.state.residency.pinsOn key + if next.pinning key then 1 else 0)
    (stays : next.Sound version state projection.disk)
    : Projection.Sound version
        { projection with state, poisoned, reads := projection.reads ++ [next] } := by
  refine ⟨right, fun running key => ?_, fun other member => ?_⟩
  · obtain ⟨before, counted⟩ := counts running
    rw [counted, sound.pins before, List.countP_append, List.countP_singleton]
  · rcases List.mem_append.mp member with old | new
    · exact (sound.reads other old).keeps keeps fun _ _ => trivial
    · rw [List.mem_singleton.mp new]
      exact stays

theorem Read.sound_ended {disk : Disk} {path : Text} {offset size : Nat} {outcome : Outcome}
    (answers
      : ∀ bytes, outcome = .ok bytes
          → (state.files path).isSome = true
            ∧ bytes
              = slice (version path) offset (min (offset + size) (version path).length))
    : Read.Sound version state disk
        ⟨path, offset, size, 0, 0, 0, 0, ⟨0, 0, 0⟩, .done outcome⟩ := by
  refine ⟨by nofun, fun _ member => absurd member List.not_mem_nil, by nofun, by nofun, by nofun,
    ?_⟩
  rintro bytes (same | same)
  · cases same
  · exact answers bytes (Phase.done.inj same)

theorem first_le_last (offset size total : Nat) (inside : offset < total)
    : offset / block ≤ (min (offset + size) total - 1) / block + 1 := by
  have positive : 0 < block := by decide
  rw [← Nat.add_div_right _ positive]
  exact Nat.div_le_div_right (by have : block = 65536 := rfl; omega)

/-- A read's start keeps the projection sound. -/
theorem Projection.Sound.start (sound : projection.Sound version) (path : Text)
    (offset size : Nat)
    : (projection.start path offset size).Sound version := by
  have same := StoreState.Keeps.refl version (fun _ => True) projection.state projection.disk
  have idle : ∀ outcome key,
      Read.pinning ⟨path, offset, size, 0, 0, 0, 0, ⟨0, 0, 0⟩, .done outcome⟩ key = false :=
    fun _ _ => rfl
  rw [Projection.start]
  split
  · rename_i poisoned
    refine sound.add sound.state same (fun running => ?_) (Read.sound_ended (by nofun))
    rw [poisoned] at running
    cases running
  · split
    · refine sound.add sound.state same (fun running => ⟨running, fun key => ?_⟩)
        (Read.sound_ended (by nofun))
      rw [idle]
      rfl
    · rename_i file found
      have whole := sound.state.sized path file found
      split
      · rename_i past
        refine sound.add sound.state same (fun running => ⟨running, fun key => ?_⟩)
          (Read.sound_ended fun bytes empty => ?_)
        · rw [idle]
          rfl
        · cases empty
          refine ⟨by rw [found]; rfl, (List.length_eq_zero_iff.mp ?_).symm⟩
          rw [slice_length]
          omega
      · rename_i inside
        dsimp only
        split
        · exact sound.add sound.state same (by nofun) (Read.sound_ended (by nofun))
        · rename_i some_end
          obtain ⟨queued, lens, limit, off, positive, counts, runs, covered⟩ :=
            @classify_spec file _ sound.state.queued sound.state.positive (offset / block)
              ((min (offset + size) file.size - 1) / block)
              (first_le_last _ _ _ (Nat.lt_of_not_le inside))
          have right
              : StoreState.Sound version
                  { projection.state with
                    residency :=
                      (classify file projection.state.residency (offset / block)
                        ((min (offset + size) file.size - 1) / block)).1
                    stats :=
                      { projection.state.stats with
                        blockHits :=
                          projection.state.stats.blockHits
                          + (classify file projection.state.residency (offset / block)
                              ((min (offset + size) file.size - 1) / block)).2.2 } }
                  projection.disk := by
            refine ⟨sound.state.named, sound.state.sized, sound.state.words, sound.state.present,
              queued, fun on key len => ?_, fun zero => ?_, positive⟩
            · rw [lens]
              exact sound.state.tracked (limit ▸ on) key len
            · rw [limit] at zero
              exact (off zero).trans (sound.state.off zero)
          refine sound.add right ?_ (fun running => ⟨running, fun key => ?_⟩) ?_
          · exact fun path' file' found' =>
              ⟨file', found', ⟨rfl, rfl, rfl⟩, fun _ _ => ⟨id, id⟩⟩
          · refine (counts key).trans ?_
            congr 1
            refine if_congr ?_ rfl rfl
            rw [Read.pinning_iff]
            have live : ∀ runs, (afterRuns runs).live = true := by
              intro runs
              cases runs <;> rfl
            exact ⟨fun covers => ⟨live _, covers.1.symm, covers.2⟩,
              fun holds => ⟨holds.2.1.symm, holds.2.2⟩⟩
          · have listed : ∀ runs, (afterRuns runs).runs = runs := by
              intro runs
              cases runs <;> rfl
            refine ⟨fun _ => ⟨file, found, rfl, rfl, Nat.lt_of_not_le inside,
              Nat.pos_of_ne_zero some_end, rfl, rfl⟩, ?_, ?_, ?_, ?_, ?_⟩
            · dsimp only
              rw [listed]
              exact runs
            · intro _ file' found' index above below
              cases found.symm.trans found'
              dsimp only
              rw [listed]
              exact covered index above below
            · intro bytes run rest here
              dsimp only at here
              generalize (classify _ _ _ _).2.1 = runs at here
              rcases here with here | here <;> cases runs <;> cases here
            · intro bytes run rest here
              dsimp only at here
              generalize (classify _ _ _ _).2.1 = runs at here
              cases runs <;> cases here
            · intro bytes here
              dsimp only at here
              generalize (classify _ _ _ _).2.1 = runs at here
              rcases here with here | here <;> cases runs <;> cases here

theorem Projection.Sound.step (sound : projection.Sound version) {event : Event}
    (answered : projection.Answered version event)
    : (projection.step event).Sound version := by
  cases event with
  | start path offset size => exact sound.start path offset size
  | advance place given =>
      cases at_place : projection.reads[place]? with
      | none =>
          rw [Projection.step, at_place]
          exact sound
      | some read => exact sound.advance at_place answered
  | cancel place =>
      rw [Projection.step]
      split
      · exact sound
      · rename_i read at_place
        split
        · rename_i phase
          have live : read.phase.live = true := by rw [phase]; rfl
          exact sound.move at_place (fun _ key => Read.pinning_of_live live rfl key)
            ((sound.reading at_place).fail live (by nofun))
        · exact sound
  | sync gateway => exact ⟨sound.state, sound.pins, sound.reads⟩

end Projections

end Gfs.Mount.Odb
