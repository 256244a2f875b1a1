import Gfs.Mount.Odb

/-! The bookkeeping of the block store: presence bits, the entries with their two queues and byte
counts, pins, and what one eviction leaves.
-/

namespace Gfs.Mount.Odb

open Gfs.Types
open Gfs.Lib

-- Bits

theorem bitGet_eq (words : Words) (index : Nat)
    : bitGet words index = (words[index / 64]?).any (fun word => word.getLsbD (index % 64)) := by
  have small : index % 64 < 64 := Nat.mod_lt _ (by decide)
  rw [bitGet]
  cases words[index / 64]? with
  | none => rfl
  | some word =>
      have shifted : 1#64 <<< (index % 64) = BitVec.twoPow 64 (index % 64) := by
        rw [BitVec.twoPow_eq]
      have nonzero : BitVec.twoPow 64 (index % 64) ≠ 0#64 := by
        intro zero
        have bit := congrArg (fun vector : BitVec 64 => vector.getLsbD (index % 64)) zero
        simp [small] at bit
      dsimp only [Option.any_some]
      rw [shifted, BitVec.and_twoPow]
      cases word.getLsbD (index % 64) with
      | true => simpa using nonzero
      | false => simp

theorem index_ext {first second : Nat} (word : first / 64 = second / 64)
    (place : first % 64 = second % 64)
    : first = second := by
  omega

theorem bitGet_bitSet (words : Words) (index other : Nat)
    : bitGet (bitSet words index) other
      = (bitGet words other || decide (index = other ∧ index / 64 < words.length)) := by
  have small : index % 64 < 64 := Nat.mod_lt _ (by decide)
  rw [bitGet_eq, bitGet_eq, bitSet, List.getElem?_modify]
  by_cases same : index / 64 = other / 64
  · simp only [if_pos same, Option.map_eq_map]
    cases held : words[other / 64]? with
    | none =>
        have outside : ¬index / 64 < words.length := by
          rw [same]
          exact fun inside => by rw [List.getElem?_eq_getElem inside] at held; cases held
        simp [outside]
    | some word =>
        have inside : index / 64 < words.length := by
          rw [same]
          exact (List.getElem?_eq_some_iff.mp held).1
        have place : (index = other) ↔ index % 64 = other % 64 :=
          ⟨fun equal => by rw [equal], index_ext same⟩
        simp only [Option.map_some, Option.any_some, BitVec.getLsbD_or, inside, and_true, place]
        congr 1
        rw [show (1#64 <<< (index % 64)) = BitVec.twoPow 64 (index % 64) from
          (BitVec.twoPow_eq 64 (index % 64)).symm, BitVec.getLsbD_twoPow]
        simp [small]
  · have apart : index ≠ other := fun equal => same (by rw [equal])
    simp [same, apart]

theorem bitGet_bitClear (words : Words) (index other : Nat)
    : bitGet (bitClear words index) other = (bitGet words other && decide (index ≠ other)) := by
  have small : index % 64 < 64 := Nat.mod_lt _ (by decide)
  have small' : other % 64 < 64 := Nat.mod_lt _ (by decide)
  rw [bitGet_eq, bitGet_eq, bitClear, List.getElem?_modify]
  by_cases same : index / 64 = other / 64
  · simp only [if_pos same, Option.map_eq_map]
    cases held : words[other / 64]? with
    | none => simp
    | some word =>
        have place : (index ≠ other) ↔ index % 64 ≠ other % 64 :=
          not_congr ⟨fun equal => by rw [equal], index_ext same⟩
        simp only [Option.map_some, Option.any_some, BitVec.getLsbD_and, place]
        congr 1
        rw [show (1#64 <<< (index % 64)) = BitVec.twoPow 64 (index % 64) from
          (BitVec.twoPow_eq 64 (index % 64)).symm, BitVec.getLsbD_not, BitVec.getLsbD_twoPow]
        simp [small, small']
  · have apart : index ≠ other := fun equal => same (by rw [equal])
    simp [same, apart]

theorem bitSet_length (words : Words) (index : Nat)
    : (bitSet words index).length = words.length :=
  List.length_modify _ _ _

theorem bitClear_length (words : Words) (index : Nat)
    : (bitClear words index).length = words.length :=
  List.length_modify _ _ _

-- Entries and queues

/-- What a protected entry weighs. -/
def BlockEntry.protectedLen (entry : BlockEntry) : Nat :=
  if entry.isProtected then entry.len else 0

/-- The entries and the two queues hold the same blocks, each in the queue of its kind, and the
byte counts are the sums of the blocks' lengths.
-/
structure Residency.Queued (residency : Residency) : Prop where
  queued
    : ∀ key entry, residency.entries.lookup key = some entry
        → (entry.seq, key)
          ∈ (if entry.isProtected then residency.protectedQueue else residency.probation).rows
  probation
    : ∀ row ∈ residency.probation.rows, ∃ entry,
        residency.entries.lookup row.2 = some entry
        ∧ entry.seq = row.1
        ∧ entry.isProtected = false
  protectedQueue
    : ∀ row ∈ residency.protectedQueue.rows, ∃ entry,
        residency.entries.lookup row.2 = some entry
        ∧ entry.seq = row.1
        ∧ entry.isProtected = true
  recent : ∀ key entry, residency.entries.lookup key = some entry → entry.seq ≤ residency.seq
  resident : residency.residentBytes = Tallies.total BlockEntry.len residency.entries
  guarded : residency.protectedBytes = Tallies.total BlockEntry.protectedLen residency.entries

/-- The length of a resident block. -/
def Residency.lenOf (residency : Residency) (key : BlockKey) : Option Nat :=
  (residency.entries.lookup key).map BlockEntry.len

section Queues

variable {residency after : Residency} {key : BlockKey} {entry old : BlockEntry}

theorem Residency.Queued.new (limit : Nat) : (Residency.new limit).Queued where
  queued _ _ found := by cases found
  probation _ member := absurd member List.not_mem_nil
  protectedQueue _ member := absurd member List.not_mem_nil
  recent _ _ found := by cases found
  resident := rfl
  guarded := rfl

theorem Residency.Queued.rows_le (queued : residency.Queued) {row : Nat × BlockKey}
    (member : row ∈ residency.probation.rows ∨ row ∈ residency.protectedQueue.rows)
    : row.1 ≤ residency.seq := by
  rcases member with probation | guarded
  · obtain ⟨entry, found, same, -⟩ := queued.probation row probation
    exact same ▸ queued.recent row.2 entry found
  · obtain ⟨entry, found, same, -⟩ := queued.protectedQueue row guarded
    exact same ▸ queued.recent row.2 entry found

/-- Taking an entry out of its queue takes its row out, and no other. -/
theorem Residency.Queued.mem_removeQueued (queued : residency.Queued)
    (found : residency.entries.lookup key = some entry) (row : Nat × BlockKey)
    : (row ∈ (residency.removeQueued entry).probation.rows
        ↔ row ∈ residency.probation.rows ∧ row.2 ≠ key)
      ∧ (row ∈ (residency.removeQueued entry).protectedQueue.rows
        ↔ row ∈ residency.protectedQueue.rows ∧ row.2 ≠ key) := by
  have own := queued.queued key entry found
  rw [Residency.removeQueued]
  cases kind : entry.isProtected with
  | true =>
      rw [kind, if_pos rfl] at own
      rw [if_pos rfl]
      refine ⟨⟨fun member => ⟨member, ?_⟩, fun member => member.1⟩, ?_⟩
      · rintro rfl
        obtain ⟨other, found', -, probation⟩ := queued.probation row member
        rw [found] at found'
        rw [Option.some.inj found', probation] at kind
        cases kind
      · rw [Ordered.mem_remove]
        constructor
        · rintro ⟨apart, member⟩
          refine ⟨member, ?_⟩
          rintro rfl
          obtain ⟨other, found', same, -⟩ := queued.protectedQueue row member
          rw [found] at found'
          exact apart (by rw [Option.some.inj found', same])
        · rintro ⟨member, apart⟩
          refine ⟨fun same => apart ?_, member⟩
          rw [Ordered.row_unique member own same]
  | false =>
      rw [kind, if_neg (by simp)] at own
      rw [if_neg (by simp)]
      refine ⟨?_, ⟨fun member => ⟨member, ?_⟩, fun member => member.1⟩⟩
      · rw [Ordered.mem_remove]
        constructor
        · rintro ⟨apart, member⟩
          refine ⟨member, ?_⟩
          rintro rfl
          obtain ⟨other, found', same, -⟩ := queued.probation row member
          rw [found] at found'
          exact apart (by rw [Option.some.inj found', same])
        · rintro ⟨member, apart⟩
          refine ⟨fun same => apart ?_, member⟩
          rw [Ordered.row_unique member own same]
      · rintro rfl
        obtain ⟨other, found', -, guarded⟩ := queued.protectedQueue row member
        rw [found] at found'
        rw [Option.some.inj found', guarded] at kind
        cases kind

/-- An entry that takes the place of a block's old one, at the recent end of its queue. -/
theorem Residency.Queued.requeue (queued : residency.Queued) (seq : after.seq = residency.seq + 1)
    (newest : entry.seq = residency.seq + 1)
    (entries : after.entries = residency.entries.insert key entry)
    (probation
      : ∀ row,
          row ∈ after.probation.rows
          ↔ entry.isProtected = false ∧ row = (entry.seq, key)
            ∨ row ∈ residency.probation.rows ∧ row.2 ≠ key)
    (protectedQueue
      : ∀ row,
          row ∈ after.protectedQueue.rows
          ↔ entry.isProtected = true ∧ row = (entry.seq, key)
            ∨ row ∈ residency.protectedQueue.rows ∧ row.2 ≠ key)
    (resident : after.residentBytes = Tallies.total BlockEntry.len after.entries)
    (guarded : after.protectedBytes = Tallies.total BlockEntry.protectedLen after.entries)
    : after.Queued := by
  have lookup : ∀ other, after.entries.lookup other
      = if other = key then some entry else residency.entries.lookup other := by
    intro other
    rw [entries, Tallies.lookup_insert]
  refine ⟨?_, ?_, ?_, ?_, resident, guarded⟩
  · intro other held found
    rw [lookup] at found
    split at found
    · rename_i same
      cases found
      cases kind : entry.isProtected with
      | true => exact (protectedQueue _).mpr (.inl ⟨kind, by rw [same]⟩)
      | false => exact (probation _).mpr (.inl ⟨kind, by rw [same]⟩)
    · rename_i apart
      have old := queued.queued other held found
      cases kind : held.isProtected with
      | true =>
          rw [kind] at old
          exact (protectedQueue _).mpr (.inr ⟨old, apart⟩)
      | false =>
          rw [kind] at old
          exact (probation _).mpr (.inr ⟨old, apart⟩)
  · intro row member
    rcases (probation row).mp member with ⟨kind, rfl⟩ | ⟨old, apart⟩
    · exact ⟨entry, by rw [lookup, if_pos rfl], rfl, kind⟩
    · rw [lookup, if_neg apart]
      exact queued.probation row old
  · intro row member
    rcases (protectedQueue row).mp member with ⟨kind, rfl⟩ | ⟨old, apart⟩
    · exact ⟨entry, by rw [lookup, if_pos rfl], rfl, kind⟩
    · rw [lookup, if_neg apart]
      exact queued.protectedQueue row old
  · intro other held found
    rw [lookup] at found
    rw [seq]
    split at found
    · cases found
      exact newest.le
    · exact (queued.recent other held found).trans (Nat.le_succ _)

theorem mem_insert_next {queue : Ordered BlockKey} {seq : Nat}
    (before : ∀ row ∈ queue.rows, row.1 ≤ seq) (row : Nat × BlockKey)
    : row ∈ (queue.insert (seq + 1) key).rows ↔ row = (seq + 1, key) ∨ row ∈ queue.rows := by
  rw [Ordered.mem_insert]
  refine or_congr_right ⟨fun member => member.2, fun member => ⟨?_, member⟩⟩
  exact (Nat.lt_succ_of_le (before row member)).ne

/-- Demoting keeps the bookkeeping right, and every block with its length. -/
theorem Residency.Queued.demoteLoop (queued : residency.Queued) (fuel : Nat)
    : (Residency.demoteLoop fuel residency).Queued
      ∧ (∀ other, (Residency.demoteLoop fuel residency).lenOf other = residency.lenOf other)
      ∧ (Residency.demoteLoop fuel residency).limit = residency.limit
      ∧ (Residency.demoteLoop fuel residency).pins = residency.pins := by
  induction fuel generalizing residency with
  | zero => exact ⟨queued, fun _ => rfl, rfl, rfl⟩
  | succ fuel ih =>
      rw [Residency.demoteLoop]
      split
      · split
        · exact ⟨queued, fun _ => rfl, rfl, rfl⟩
        · rename_i oldest victim rows front
          have first : (oldest, victim) ∈ residency.protectedQueue.rows := by
            rw [front]
            exact List.mem_cons_self
          obtain ⟨demoted, found, used, kind⟩ := queued.protectedQueue _ first
          dsimp only at found used
          dsimp only
          rw [found]
          dsimp only
          have removed := queued.mem_removeQueued found
          have below : demoted.len ≤ residency.protectedBytes := by
            rw [queued.guarded, Tallies.total_erase found, BlockEntry.protectedLen, kind,
              if_pos rfl]
            exact Nat.le_add_right _ _
          have next : Residency.Queued
              { residency with
                protectedQueue := residency.protectedQueue.remove oldest
                seq := residency.seq + 1
                protectedBytes := residency.protectedBytes - demoted.len
                probation := residency.probation.insert (residency.seq + 1) victim
                entries :=
                  residency.entries.insert victim
                    { demoted with isProtected := false, seq := residency.seq + 1 } } := by
            refine queued.requeue rfl rfl rfl (fun row => ?_) (fun row => ?_) ?_ ?_
            · have probation := (removed row).1
              rw [Residency.removeQueued, kind, if_pos rfl] at probation
              rw [mem_insert_next fun row member => queued.rows_le (.inl member), ← probation]
              simp
            · have guarded := (removed row).2
              rw [Residency.removeQueued, kind, if_pos rfl, used] at guarded
              simp only [guarded, Bool.false_eq_true, false_and, false_or]
            · dsimp only
              rw [queued.resident, Tallies.total_erase found, Tallies.total_insert]
            · dsimp only
              rw [Tallies.total_insert, queued.guarded, Tallies.total_erase found,
                BlockEntry.protectedLen, kind, if_pos rfl, Nat.add_sub_cancel_left]
              exact (Nat.zero_add _).symm
          obtain ⟨right, lens, limit, pins⟩ := ih next
          refine ⟨right, fun other => (lens other).trans ?_, limit, pins⟩
          rw [Residency.lenOf, Tallies.lookup_insert]
          split
          · rename_i same
            rw [Residency.lenOf, same, found]
            rfl
          · rfl
      · exact ⟨queued, fun _ => rfl, rfl, rfl⟩

/-- Touching keeps the bookkeeping right, and every block with its length. -/
theorem Residency.Queued.touch (queued : residency.Queued) (key : BlockKey)
    : (residency.touch key).Queued
      ∧ (∀ other, (residency.touch key).lenOf other = residency.lenOf other)
      ∧ (residency.touch key).limit = residency.limit
      ∧ (residency.touch key).pins = residency.pins := by
  rw [Residency.touch]
  split
  · exact ⟨queued, fun _ => rfl, rfl, rfl⟩
  · split
    · exact ⟨queued, fun _ => rfl, rfl, rfl⟩
    · rename_i entry found
      dsimp only
      have removed := queued.mem_removeQueued found
      have fields
          : (residency.removeQueued entry).limit = residency.limit
            ∧ (residency.removeQueued entry).pins = residency.pins
            ∧ (residency.removeQueued entry).residentBytes = residency.residentBytes := by
        rw [Residency.removeQueued]
        split <;> exact ⟨rfl, rfl, rfl⟩
      have promoted : Residency.Queued
          { residency.removeQueued entry with
            seq := residency.seq + 1
            protectedBytes :=
              if entry.isProtected then residency.protectedBytes
              else residency.protectedBytes + entry.len
            protectedQueue :=
              (residency.removeQueued entry).protectedQueue.insert (residency.seq + 1) key
            entries :=
              residency.entries.insert key
                { entry with isProtected := true, seq := residency.seq + 1 } } := by
        refine queued.requeue rfl rfl rfl (fun row => ?_) (fun row => ?_) ?_ ?_
        · dsimp only
          rw [(removed row).1]
          simp
        · dsimp only
          rw [mem_insert_next fun row member =>
            queued.rows_le (.inr (((removed row).2.mp member).1)), (removed row).2]
          simp
        · dsimp only
          rw [fields.2.2, queued.resident, Tallies.total_erase found, Tallies.total_insert]
        · dsimp only
          rw [Tallies.total_insert, queued.guarded, Tallies.total_erase found]
          cases kind : entry.isProtected with
          | true => simp [BlockEntry.protectedLen, kind]
          | false => simp [BlockEntry.protectedLen, kind, Nat.add_comm]
      obtain ⟨right, lens, limit, pins⟩ := promoted.demoteLoop _
      refine ⟨right, fun other => (lens other).trans ?_, limit.trans fields.1,
        pins.trans fields.2.1⟩
      rw [Residency.lenOf, Tallies.lookup_insert]
      split
      · rename_i same
        rw [Residency.lenOf, same, found]
        rfl
      · rfl

/-- Admitting a block that was absent adds it with its length. -/
theorem Residency.Queued.admitBlock (queued : residency.Queued) (on : residency.limit ≠ 0)
    (absent : residency.lenOf key = none) (len : Nat)
    : (residency.admitBlock key len).Queued
      ∧ (∀ other,
        (residency.admitBlock key len).lenOf other
        = if other = key then some len else residency.lenOf other)
      ∧ (residency.admitBlock key len).limit = residency.limit
      ∧ (residency.admitBlock key len).pins = residency.pins := by
  have missing : residency.entries.lookup key = none := Option.map_eq_none_iff.mp absent
  rw [Residency.admitBlock, if_neg on, missing]
  refine ⟨?_, fun other => ?_, rfl, rfl⟩
  · have unlisted : ∀ row, row ∈ residency.probation.rows ∨ row ∈ residency.protectedQueue.rows
        → row.2 ≠ key := by
      rintro row (member | member) rfl
      · obtain ⟨entry, found, -⟩ := queued.probation row member
        cases missing.symm.trans found
      · obtain ⟨entry, found, -⟩ := queued.protectedQueue row member
        cases missing.symm.trans found
    refine @Residency.Queued.requeue residency _ key ⟨residency.seq + 1, len, false⟩ queued rfl
      rfl rfl (fun row => ?_) (fun row => ?_) ?_ ?_
    · dsimp only
      rw [mem_insert_next fun row member => queued.rows_le (.inl member)]
      simp only [true_and]
      exact or_congr_right ⟨fun member => ⟨member, unlisted row (.inl member)⟩, And.left⟩
    · simp only [Bool.false_eq_true, false_and, false_or]
      exact ⟨fun member => ⟨member, unlisted row (.inr member)⟩, And.left⟩
    · dsimp only
      rw [Tallies.total_insert, Tallies.total_erase_absent missing, queued.resident, Nat.add_comm]
    · dsimp only
      rw [Tallies.total_insert, Tallies.total_erase_absent missing, queued.guarded]
      exact (Nat.zero_add _).symm
  · rw [Residency.lenOf, Tallies.lookup_insert]
    split <;> rfl

/-- Forgetting a block takes it out of the entries, its queue and the byte counts. -/
theorem Residency.Queued.forget (queued : residency.Queued)
    (forgotten : residency.forget key = some (after, entry))
    : after.Queued
      ∧ residency.entries.lookup key = some entry
      ∧ (∀ other, after.lenOf other = if other = key then none else residency.lenOf other)
      ∧ after.limit = residency.limit
      ∧ after.pins = residency.pins
      ∧ after.entries = residency.entries.erase key := by
  obtain ⟨held, found, pair⟩ := Option.map_eq_some_iff.mp forgotten
  obtain ⟨same, this⟩ := Prod.mk.inj pair
  subst this
  have removed := queued.mem_removeQueued found
  have fields
      : after.probation = (residency.removeQueued held).probation
        ∧ after.protectedQueue = (residency.removeQueued held).protectedQueue
        ∧ after.entries = residency.entries.erase key
        ∧ after.limit = residency.limit
        ∧ after.pins = residency.pins
        ∧ after.seq = residency.seq
        ∧ after.residentBytes = residency.residentBytes - held.len
        ∧ after.protectedBytes
          = if held.isProtected then residency.protectedBytes - held.len
            else residency.protectedBytes := by
    rw [← same]
    cases kind : held.isProtected <;> simp [Residency.removeQueued, kind]
  obtain ⟨probation, guarded, entries, limit, pins, seq, resident, guardedBytes⟩ := fields
  have lookup : ∀ other, after.entries.lookup other
      = if other = key then none else residency.entries.lookup other := by
    intro other
    rw [entries, Tallies.lookup_erase]
  refine ⟨⟨?_, ?_, ?_, ?_, ?_, ?_⟩, found, fun other => ?_, limit, pins, entries⟩
  · intro other kept found'
    rw [lookup] at found'
    split at found'
    · cases found'
    · rename_i apart
      have old := queued.queued other kept found'
      cases kind : kept.isProtected with
      | true =>
          rw [kind] at old
          rw [if_pos rfl, guarded]
          exact (removed _).2.mpr ⟨old, apart⟩
      | false =>
          rw [kind] at old
          rw [if_neg (by simp), probation]
          exact (removed _).1.mpr ⟨old, apart⟩
  · intro row member
    rw [probation] at member
    obtain ⟨old, apart⟩ := (removed row).1.mp member
    rw [lookup, if_neg apart]
    exact queued.probation row old
  · intro row member
    rw [guarded] at member
    obtain ⟨old, apart⟩ := (removed row).2.mp member
    rw [lookup, if_neg apart]
    exact queued.protectedQueue row old
  · intro other kept found'
    rw [lookup] at found'
    split at found'
    · cases found'
    · rw [seq]
      exact queued.recent other kept found'
  · rw [resident, entries, queued.resident, Tallies.total_erase found, Nat.add_sub_cancel_left]
  · rw [guardedBytes, entries, queued.guarded, Tallies.total_erase found]
    cases kind : held.isProtected with
    | true => simp [BlockEntry.protectedLen, kind]
    | false => simp [BlockEntry.protectedLen, kind]
  · rw [Residency.lenOf, lookup]
    split <;> rfl

theorem Residency.Queued.len_le (queued : residency.Queued)
    (found : residency.entries.lookup key = some entry)
    : entry.len ≤ residency.residentBytes
      ∧ (entry.isProtected = true → entry.len ≤ residency.protectedBytes) := by
  refine ⟨?_, fun kind => ?_⟩
  · rw [queued.resident]
    exact Tallies.weight_le_total found
  · have below := @Tallies.weight_le_total _ _ _ BlockEntry.protectedLen _ _ _ found
    rw [BlockEntry.protectedLen, kind, if_pos rfl, ← queued.guarded] at below
    exact below

theorem Residency.Queued.victim_some (queued : residency.Queued)
    (chosen : residency.victim = some key)
    : (residency.entries.lookup key).isSome = true ∧ residency.pins.lookup key = none := by
  refine ⟨?_, by simpa using List.find?_some chosen⟩
  obtain ⟨row, member, rfl⟩ := List.mem_map.mp (List.mem_of_find?_eq_some chosen)
  rcases List.mem_append.mp member with probation | guarded
  · obtain ⟨entry, found, -⟩ := queued.probation row probation
    rw [found]
    rfl
  · obtain ⟨entry, found, -⟩ := queued.protectedQueue row guarded
    rw [found]
    rfl

theorem Residency.Queued.victim_none (queued : residency.Queued)
    (none_left : residency.victim = none) (found : residency.entries.lookup key = some entry)
    : (residency.pins.lookup key).isSome = true := by
  have row := queued.queued key entry found
  have member
      : key ∈ (residency.probation.rows ++ residency.protectedQueue.rows).map Prod.snd := by
    refine List.mem_map.mpr ⟨(entry.seq, key), ?_, rfl⟩
    cases kind : entry.isProtected with
    | true =>
        rw [kind] at row
        exact List.mem_append_right _ row
    | false =>
        rw [kind] at row
        exact List.mem_append_left _ row
  have pinned := List.find?_eq_none.mp none_left key member
  exact Option.ne_none_iff_isSome.mp (by simpa using pinned)

-- Pins

/-- How many reads hold a block. -/
def Residency.pinsOn (residency : Residency) (key : BlockKey) : Nat :=
  (residency.pins.lookup key).getD 0

/-- No block is recorded as pinned no times. -/
def Residency.PinsPositive (residency : Residency) : Prop :=
  ∀ key count, residency.pins.lookup key = some count → 0 < count

theorem Residency.Queued.pin (queued : residency.Queued) (key : BlockKey)
    : (residency.pin key).Queued :=
  ⟨queued.queued, queued.probation, queued.protectedQueue, queued.recent, queued.resident,
    queued.guarded⟩

theorem Residency.pinsOn_pin (residency : Residency) (key other : BlockKey)
    : (residency.pin key).pinsOn other
      = residency.pinsOn other + if other = key then 1 else 0 := by
  rw [Residency.pinsOn, Residency.pin, Tallies.lookup_insert]
  split
  · rename_i same
    rw [same]
    rfl
  · rfl

theorem Residency.PinsPositive.pin (positive : residency.PinsPositive) (key : BlockKey)
    : (residency.pin key).PinsPositive := by
  intro other count found
  rw [Residency.pin, Tallies.lookup_insert] at found
  split at found
  · cases found
    exact Nat.succ_pos _
  · exact positive other count found

theorem Residency.unpin_fields (residency : Residency) (key : BlockKey)
    : ∃ pins, residency.unpin key = { residency with pins } := by
  rw [Residency.unpin]
  split
  · exact ⟨residency.pins, rfl⟩
  · exact ⟨_, rfl⟩

theorem Residency.pinsOn_unpin (residency : Residency) (key other : BlockKey)
    : (residency.unpin key).pinsOn other
      = residency.pinsOn other - if other = key then 1 else 0 := by
  rw [Residency.unpin]
  split
  · rename_i missing
    split
    · rename_i same
      rw [Residency.pinsOn, same, missing]
      rfl
    · rfl
  · rename_i count found
    rw [Residency.pinsOn]
    dsimp only
    by_cases same : other = key
    · rw [if_pos same, Residency.pinsOn, same, found]
      split
      · rename_i released
        rw [AList.lookup_erase]
        exact released.symm
      · rw [AList.lookup_insert]
        rfl
    · rw [if_neg same]
      split
      · rw [Tallies.lookup_erase, if_neg same]
        rfl
      · rw [Tallies.lookup_insert, if_neg same]
        rfl

theorem Residency.PinsPositive.unpin (positive : residency.PinsPositive) (key : BlockKey)
    : (residency.unpin key).PinsPositive := by
  rw [Residency.unpin]
  split
  · exact positive
  · rename_i held found
    intro other count found'
    dsimp only at found'
    split at found'
    · rw [Tallies.lookup_erase] at found'
      split at found'
      · cases found'
      · exact positive other count found'
    · rename_i kept
      rw [Tallies.lookup_insert] at found'
      split at found'
      · cases found'
        exact Nat.pos_of_ne_zero kept
      · exact positive other count found'

end Queues

end Gfs.Mount.Odb
