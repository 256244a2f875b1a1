import Gfs.Git.TreeCache
import Gfs.Types.Text

/-! The memory of inflated blobs (`gfs-mount/src/local.rs`), and the books that it and the cache of
trees keep.
-/

namespace Gfs.Mount

open Gfs.Types
open Gfs.Lib
open Gfs.Lib.Checked
open Gfs.Lib.Recency

-- The source

/-- A bounded LRU of inflated blobs, keyed by object id. -/
structure BlobMemory where
  cap : Nat
  bytes : Nat
  tick : Nat
  entries : AList fun _ : Text => Nat × Bytes
  order : Ordered Text

namespace BlobMemory

def new (cap : Nat) : BlobMemory where
  cap := cap
  bytes := 0
  tick := 0
  entries := ∅
  order := .empty

def get (key : Text) (memory : BlobMemory) : Option Bytes × BlobMemory :=
  match memory.entries.lookup key with
  | none => (none, memory)
  | some (oldTick, bytes) =>
      let tick := memory.tick + 1
      (some bytes,
        {
          memory with
          tick
          entries := memory.entries.insert key (tick, bytes)
          order := (memory.order.remove oldTick).insert tick key
        })

def remove (key : Text) (memory : BlobMemory) : Option BlobMemory :=
  match memory.entries.lookup key with
  | none => some memory
  | some (tick, bytes) => do
      let left ← checkedSub memory.bytes bytes.length
      return {
        memory with
        bytes := left
        entries := memory.entries.erase key
        order := memory.order.remove tick
      }

/-- Pop the least ticks until a size fits; `rows` are the ticks left, oldest first. -/
def evict (size : Nat) : List (Nat × Text) → BlobMemory → Option BlobMemory
  | [], memory => some memory
  | (oldestTick, oldest) :: rows, memory =>
      if memory.bytes + size ≤ memory.cap then some memory
      else
        let order := memory.order.remove oldestTick
        match memory.entries.lookup oldest with
        | none => evict size rows { memory with order }
        | some (_, evicted) => do
            let bytes ← checkedSub memory.bytes evicted.length
            evict size rows { memory with order, bytes, entries := memory.entries.erase oldest }

def insert (key : Text) (bytes : Bytes) (memory : BlobMemory) : Option BlobMemory := do
  let size := bytes.length
  if size > memory.cap || (memory.entries.lookup key).isSome then
    return memory
  else
    let memory ← evict size memory.order.rows memory
    let tick := memory.tick + 1
    return {
      memory with
      tick
      order := memory.order.insert tick key
      entries := memory.entries.insert key (tick, bytes)
      bytes := memory.bytes + size
    }

/-- One call. -/
def step (memory : BlobMemory) : Op Text Bytes → Option BlobMemory
  | .get key => some (memory.get key).2
  | .insert key bytes => memory.insert key bytes
  | .remove key => memory.remove key

/-- The blobs held, the longest unused first. -/
def recency (memory : BlobMemory) : List (Text × Bytes) :=
  memory.order.rows.filterMap fun row =>
    (memory.entries.lookup row.2).map fun entry => (row.2, entry.2)

-- The books

/-- The two maps hold one list, and the bytes are what it weighs. -/
structure Kept (memory : BlobMemory) (held : List (Nat × Text × Bytes)) : Prop where
  books : Books memory.entries.lookup memory.order memory.tick held
  bytes_eq : memory.bytes = weightOf List.length (untimed held)

variable {memory : BlobMemory} {held : List (Nat × Text × Bytes)}

theorem lookup_erase (table : AList fun _ : Text => Nat × Bytes) (key : Text)
    : (table.erase key).lookup = Function.update table.lookup key none := by
  funext other
  rw [Tallies.lookup_erase, Function.update_apply]

theorem lookup_insert (table : AList fun _ : Text => Nat × Bytes) (key : Text)
    (entry : Nat × Bytes)
    : (table.insert key entry).lookup = Function.update table.lookup key (some entry) := by
  funext other
  rw [Tallies.lookup_insert, Function.update_apply]

theorem Kept.recency_eq (kept : Kept memory held) : memory.recency = untimed held := by
  rw [recency, kept.books.rows, List.filterMap_map, untimed, ← List.filterMap_eq_map]
  refine List.filterMap_congr fun row member => ?_
  rw [Function.comp_apply, (kept.books.found row.2.1 row.1 row.2.2).mpr member]
  rfl

theorem Kept.get (kept : Kept memory held) (key : Text)
    : ∃ held',
        Kept (memory.get key).2 held'
        ∧ untimed held' = touch key (untimed held)
        ∧ (memory.get key).1 = (untimed held).lookup key := by
  rw [kept.books.lookup_untimed, BlobMemory.get]
  cases found : memory.entries.lookup key with
  | none => exact ⟨held, kept, (kept.books.touch_absent found).symm, rfl⟩
  | some entry =>
      obtain ⟨oldTick, bytes⟩ := entry
      have put := (kept.books.erase found).put (Function.update_self ..) bytes
      rw [Function.update_idem, ← lookup_insert] at put
      refine ⟨held.filter (fun row => row.2.1 ≠ key) ++ [(memory.tick + 1, key, bytes)],
        ⟨put, ?_⟩, ?_, rfl⟩
      · dsimp only
        rw [kept.bytes_eq, kept.books.weightOf_found found, untimed_append, weightOf_append,
          Nat.add_comm]
        rfl
      · rw [kept.books.touch_found found, untimed_append]
        rfl

theorem Kept.remove (kept : Kept memory held) (key : Text)
    : ∃ left held',
        memory.remove key = some left
        ∧ Kept left held'
        ∧ untimed held' = without key (untimed held)
        ∧ left.tick = memory.tick
        ∧ left.cap = memory.cap := by
  rw [without_untimed, BlobMemory.remove]
  cases found : memory.entries.lookup key with
  | none =>
      rw [(kept.books.filter_absent found).1]
      exact ⟨memory, held, rfl, kept, rfl, rfl, rfl⟩
  | some entry =>
      obtain ⟨tick, bytes⟩ := entry
      have paid : checkedSub memory.bytes bytes.length
          = some (weightOf List.length (untimed (held.filter (fun row => row.2.1 ≠ key)))) := by
        rw [kept.bytes_eq, kept.books.weightOf_found found]
        exact checkedSub_add _ _
      dsimp only
      rw [paid]
      refine ⟨_, held.filter (fun row => row.2.1 ≠ key), rfl, ⟨?_, rfl⟩, rfl, rfl, rfl⟩
      dsimp only
      rw [lookup_erase]
      exact kept.books.erase found

/-- The loop pops the longest unused blobs until the size fits. -/
theorem Kept.evict (kept : Kept memory held) (size : Nat)
    : ∃ left held',
        memory.evict size memory.order.rows = some left
        ∧ Kept left held'
        ∧ untimed held' = room List.length memory.cap size (untimed held)
        ∧ (∀ key, memory.entries.lookup key = none → left.entries.lookup key = none)
        ∧ left.tick = memory.tick
        ∧ left.cap = memory.cap := by
  rw [kept.books.rows]
  induction held generalizing memory with
  | nil => exact ⟨memory, [], rfl, kept, rfl, fun _ absent => absent, rfl, rfl⟩
  | cons row rest ih =>
      obtain ⟨tick, key, bytes⟩ := row
      rw [List.map_cons, BlobMemory.evict]
      by_cases fits : memory.bytes + size ≤ memory.cap
      · rw [if_pos fits]
        refine ⟨memory, _, rfl, kept, ?_, fun _ absent => absent, rfl, rfl⟩
        rw [kept.bytes_eq] at fits
        exact (room_of_fits fits).symm
      · rw [if_neg fits]
        obtain ⟨found, left⟩ := kept.books.pop
        dsimp only at found
        have paid : checkedSub memory.bytes bytes.length
            = some (weightOf List.length (untimed rest)) := by
          rw [kept.bytes_eq]
          exact checkedSub_add _ _
        dsimp only
        rw [found]
        dsimp only
        rw [paid]
        dsimp only [Option.bind_eq_bind, Option.bind_some]
        have next : Kept
            {
              memory with
              order := memory.order.remove tick
              bytes := weightOf List.length (untimed rest)
              entries := memory.entries.erase key
            }
            rest := by
          refine ⟨?_, rfl⟩
          dsimp only
          rw [lookup_erase]
          exact left
        obtain ⟨after, held', done, kept', dropped, absents, ticks, caps⟩ := ih next
        refine ⟨after, held', done, kept', ?_, fun other absent => absents other ?_, ticks, caps⟩
        · rw [kept.bytes_eq] at fits
          exact dropped.trans (if_neg fits).symm
        · rw [Tallies.lookup_erase, absent, ite_self]

/-- The textbook cache that an insertion of a held key leaves as it is. -/
def heldStep (cap : Nat) (list : List (Text × Bytes)) : Op Text Bytes → List (Text × Bytes)
  | .insert key bytes =>
      if (list.lookup key).isSome then list
      else Recency.step List.length cap list (.insert key bytes)
  | op => Recency.step List.length cap list op

theorem Kept.insert (kept : Kept memory held) (key : Text) (bytes : Bytes)
    : ∃ after held',
        memory.insert key bytes = some after
        ∧ Kept after held'
        ∧ untimed held' = heldStep memory.cap (untimed held) (.insert key bytes)
        ∧ after.tick ≤ memory.tick + 1
        ∧ after.cap = memory.cap := by
  rw [heldStep, kept.books.lookup_untimed, Option.isSome_map, Recency.step, BlobMemory.insert]
  by_cases known : (memory.entries.lookup key).isSome = true
  · rw [if_pos known]
    exact ⟨memory, held, by simp [known], kept, rfl, Nat.le_succ _, rfl⟩
  · rw [if_neg known]
    have absent : memory.entries.lookup key = none := by simpa using known
    by_cases large : memory.cap < bytes.length
    · rw [if_pos large]
      exact ⟨memory, held, by simp [large], kept, rfl, Nat.le_succ _, rfl⟩
    · rw [if_neg large]
      obtain ⟨left, held', done, kept', dropped, absents, ticks, caps⟩ := kept.evict bytes.length
      have put := kept'.books.put (absents key absent) bytes
      rw [← lookup_insert] at put
      have others : without key (untimed held) = untimed held := by
        rw [without_untimed, (kept.books.filter_absent absent).1]
      have stored : ¬(decide (memory.cap < bytes.length)
          || (memory.entries.lookup key).isSome) = true := by
        simp [large, absent]
      refine ⟨{
          left with
          tick := left.tick + 1
          order := left.order.insert (left.tick + 1) key
          entries := left.entries.insert key (left.tick + 1, bytes)
          bytes := left.bytes + bytes.length
        },
        held' ++ [(left.tick + 1, key, bytes)], ?_, ⟨put, ?_⟩, ?_, ?_, caps⟩
      · dsimp only [GT.gt]
        rw [if_neg stored, done]
        rfl
      · dsimp only
        rw [kept'.bytes_eq, untimed_append, weightOf_append]
        rfl
      · rw [untimed_append, dropped, others]
        rfl
      · dsimp only
        rw [ticks]

theorem Kept.step (kept : Kept memory held) (call : Op Text Bytes)
    : ∃ after held',
        memory.step call = some after
        ∧ Kept after held'
        ∧ untimed held' = heldStep memory.cap (untimed held) call
        ∧ after.tick ≤ memory.tick + 1
        ∧ after.cap = memory.cap := by
  cases call with
  | get key =>
      obtain ⟨held', kept', used, _⟩ := kept.get key
      refine ⟨_, held', rfl, kept', used, ?_, ?_⟩ <;> rw [BlobMemory.get] <;>
        cases memory.entries.lookup key <;> simp
  | insert key bytes => exact kept.insert key bytes
  | remove key =>
      obtain ⟨left, held', done, kept', list, ticks, cap⟩ := kept.remove key
      exact ⟨left, held', done, kept', list, ticks.trans_le (Nat.le_succ _), cap⟩

theorem heldStep_fits {cap : Nat} {list : List (Text × Bytes)} (call : Op Text Bytes)
    (fits : weightOf List.length list ≤ cap)
    : weightOf List.length (heldStep cap list call) ≤ cap := by
  cases call with
  | get key => exact step_fits (.get key) fits
  | insert key bytes =>
      rw [heldStep]
      split
      · exact fits
      · exact step_fits _ fits
  | remove key => exact step_fits (.remove key) fits

/-- Any calls leave the books of the textbook cache, and no more ticks than calls. -/
theorem run_kept (cap : Nat) (calls : List (Op Text Bytes))
    : ∃ memory held,
        calls.foldlM step (new cap) = some memory
        ∧ Kept memory held
        ∧ memory.bytes ≤ memory.cap
        ∧ untimed held = calls.foldl (heldStep cap) []
        ∧ memory.tick ≤ calls.length
        ∧ memory.cap = cap := by
  induction calls using List.reverseRecOn with
  | nil => exact ⟨new cap, [], rfl, ⟨.empty, rfl⟩, Nat.zero_le _, rfl, Nat.le_refl 0, rfl⟩
  | append_singleton calls call ih =>
      obtain ⟨memory, held, ran, kept, fits, list, ticks, caps⟩ := ih
      obtain ⟨after, held', stepped, kept', list', ticks', caps'⟩ := kept.step call
      refine ⟨after, held', ?_, kept', ?_, ?_, ?_, caps'.trans caps⟩
      · rw [List.foldlM_append, ran]
        simp [stepped]
      · rw [kept.bytes_eq] at fits
        rw [kept'.bytes_eq, list', caps']
        exact heldStep_fits call fits
      · rw [list', list, caps, List.foldl_append]
        rfl
      · rw [List.length_append]
        exact ticks'.trans (Nat.add_le_add_right ticks 1)

theorem Kept.insert_evicts (kept : Kept memory held) {key : Text} {bytes : Bytes}
    (absent : memory.entries.lookup key = none) (small : bytes.length ≤ memory.cap)
    : ∃ after,
        memory.insert key bytes = some after
        ∧ LosesShortest (fun rest => weightOf List.length rest ≤ memory.cap)
            (memory.recency ++ [(key, bytes)]) after.recency := by
  obtain ⟨after, held', done, kept', list, _, _⟩ := kept.insert key bytes
  refine ⟨after, done, ?_⟩
  have others : without key (untimed held) = untimed held := by
    rw [without_untimed, (kept.books.filter_absent absent).1]
  have stored : ¬((untimed held).lookup key).isSome = true := by
    rw [kept.books.lookup_untimed, absent]
    decide
  rw [kept.recency_eq, kept'.recency_eq, list, heldStep, if_neg stored]
  have lost : LosesShortest _ (without key (untimed held) ++ [(key, bytes)])
      (Recency.step List.length memory.cap (untimed held) (.insert key bytes)) :=
    step_insert_losesShortest small
  rwa [others] at lost

/-- What is right after any calls: the bytes are what is held and at most the cap, the maps are
inverse, and what is held is the list in order of use.
-/
structure Sound (memory : BlobMemory) (list : List (Text × Bytes)) : Prop where
  bytes_eq : memory.bytes = Tallies.total (fun entry => entry.2.length) memory.entries
  bytes_le : memory.bytes ≤ memory.cap
  inverse : Inverse memory.entries.lookup memory.order
  recency_eq : memory.recency = list

theorem Kept.sound (kept : Kept memory held) (fits : memory.bytes ≤ memory.cap)
    : memory.Sound (untimed held) where
  bytes_eq := by
    have books : Books (fun key => (memory.entries.lookup key).map id) memory.order memory.tick
        held := by
      simpa using kept.books
    rw [kept.bytes_eq]
    exact books.total_eq.symm
  bytes_le := fits
  inverse := kept.books.inverse
  recency_eq := kept.recency_eq

end BlobMemory

-- Both caches

open Gfs.Git (TreeCache DecodedTree)

/-- Whatever the calls, both caches keep their books and hold what the textbook cache does: values
above the cap are not stored, an insertion evicts the shortest prefix in order of use that makes
room, and one of a blob that the memory holds leaves it as it is. No tick passes the number of
calls.
-/
theorem caches_keep_books (entrySize cap : Nat)
    (treeCalls : List (ObjectId ⊕ ObjectId × DecodedTree)) (blobCalls : List (Op Text Bytes))
    : (∃ cache,
          treeCalls.foldlM (TreeCache.step entrySize) (.new cap) = some cache
          ∧ cache.Sound entrySize
              ((treeCalls.map TreeCache.opOf).foldl
                (Recency.step (·.heapBytes entrySize) cap) [])
          ∧ cache.tick ≤ treeCalls.length
          ∧ (∀ oid, (cache.get oid).1 = cache.recency.lookup oid)
          ∧ ∀ oid tree,
              tree.heapBytes entrySize ≤ cap
              → ∃ after,
                  cache.insert entrySize oid tree = some (tree, after)
                  ∧ LosesShortest (fun rest => weightOf (·.heapBytes entrySize) rest ≤ cap)
                      (without oid cache.recency ++ [(oid, tree)]) after.recency)
      ∧ ∃ memory,
          blobCalls.foldlM BlobMemory.step (.new cap) = some memory
          ∧ memory.Sound (blobCalls.foldl (BlobMemory.heldStep cap) [])
          ∧ memory.tick ≤ blobCalls.length
          ∧ (∀ key, (memory.get key).1 = memory.recency.lookup key)
          ∧ ∀ key bytes,
              memory.entries.lookup key = none
              → bytes.length ≤ cap
              → ∃ after,
                  memory.insert key bytes = some after
                  ∧ LosesShortest (fun rest => weightOf List.length rest ≤ cap)
                      (memory.recency ++ [(key, bytes)]) after.recency := by
  constructor
  · obtain ⟨cache, held, ran, kept, fits, list, ticks, rfl⟩ :=
      TreeCache.run_kept entrySize cap treeCalls
    refine ⟨cache, ran, list ▸ kept.sound fits, ticks, fun oid => ?_, fun oid tree small => ?_⟩
    · obtain ⟨_, _, _, found⟩ := kept.get oid
      rw [found, kept.recency_eq]
    · exact kept.insert_evicts fits small
  · obtain ⟨memory, held, ran, kept, fits, list, ticks, rfl⟩ := BlobMemory.run_kept cap blobCalls
    refine ⟨memory, ran, list ▸ kept.sound fits, ticks, fun key => ?_,
      fun key bytes absent small => ?_⟩
    · obtain ⟨_, _, _, found⟩ := kept.get key
      rw [found, kept.recency_eq]
    · exact kept.insert_evicts absent small

/-- A blob inserted again is still the longest unused, and goes next. -/
theorem blobMemory_forgets_insert
    : ¬∀ cap (calls : List (Op Text Bytes)),
        ∃ memory,
          calls.foldlM BlobMemory.step (.new cap) = some memory
          ∧ memory.recency = calls.foldl (Recency.step List.length cap) [] := by
  intro all
  obtain ⟨memory, ran, same⟩ := all 2
    [.insert ['a'] [0], .insert ['b'] [0], .insert ['a'] [0], .insert ['c'] [0]]
  have holds : (List.foldlM BlobMemory.step (.new 2)
        [.insert ['a'] [0], .insert ['b'] [0], .insert ['a'] [0], .insert ['c'] [0]]).map
          BlobMemory.recency
      = some [(['b'], [0]), (['c'], [0])] := by
    decide
  rw [ran, Option.map_some, same] at holds
  revert holds
  decide

end Gfs.Mount
