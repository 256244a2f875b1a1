import Gfs.Git.Tree
import Gfs.Lib.Recency

/-! The bounded cache of decoded trees (`gfs-git/src/tree.rs`): entries by id, ids by tick, and the
bytes of what is held.
-/

namespace Gfs.Git

open Gfs.Types
open Gfs.Lib
open Gfs.Lib.Checked
open Gfs.Lib.Recency

-- The source

/-- Approximate heap cost, with the size a compiled entry has. -/
def DecodedTree.heapBytes (entrySize : Nat) (tree : DecodedTree) : Nat :=
  (tree.entries.map fun entry => entry.name.length + entry.oid.raw.length + entrySize).sum
    + tree.entries.length * 4

structure TreeCache where
  byOid : AList fun _ : ObjectId => DecodedTree × Nat
  byTick : Ordered ObjectId
  tick : Nat
  bytes : Nat
  hits : Nat
  misses : Nat
  maxBytes : Nat

namespace TreeCache

variable (entrySize : Nat)

def new (maxBytes : Nat) : TreeCache where
  byOid := ∅
  byTick := .empty
  tick := 0
  bytes := 0
  hits := 0
  misses := 0
  maxBytes := maxBytes

def get (oid : ObjectId) (cache : TreeCache) : Option DecodedTree × TreeCache :=
  match cache.byOid.lookup oid with
  | none => (none, { cache with misses := cache.misses + 1 })
  | some (tree, oldTick) =>
      let newTick := cache.tick + 1
      (some tree,
        {
          cache with
          hits := cache.hits + 1
          tick := newTick
          byTick := (cache.byTick.remove oldTick).insert newTick oid
          byOid := cache.byOid.insert oid (tree, newTick)
        })

/-- Evict the least tick's tree until the rest fits; `rows` are the ticks left, oldest first. -/
def evict : List (Nat × ObjectId) → TreeCache → Option TreeCache
  | [], cache => some cache
  | (oldestTick, oldestOid) :: rows, cache =>
      if cache.bytes ≤ cache.maxBytes then some cache
      else
        let byTick := cache.byTick.remove oldestTick
        match cache.byOid.lookup oldestOid with
        | none => evict rows { cache with byTick }
        | some (evicted, _) => do
            let bytes ← checkedSub cache.bytes (evicted.heapBytes entrySize)
            evict rows { cache with byTick, bytes, byOid := cache.byOid.erase oldestOid }

/-- Take out what an id had. -/
def replace (oid : ObjectId) (cache : TreeCache) : Option TreeCache :=
  match cache.byOid.lookup oid with
  | none => some cache
  | some (old, oldTick) => do
      let bytes ← checkedSub cache.bytes (old.heapBytes entrySize)
      return {
        cache with
        bytes
        byOid := cache.byOid.erase oid
        byTick := cache.byTick.remove oldTick
      }

/-- The tree comes back in any case; none where a subtraction fails. -/
def insert (oid : ObjectId) (tree : DecodedTree) (cache : TreeCache)
    : Option (DecodedTree × TreeCache) := do
  let cost := tree.heapBytes entrySize
  if cost > cache.maxBytes then
    return (tree, cache)
  else
    let cache ← cache.replace entrySize oid
    let tick := cache.tick + 1
    let cache := {
      cache with
      tick
      byOid := cache.byOid.insert oid (tree, tick)
      byTick := cache.byTick.insert tick oid
      bytes := cache.bytes + cost
    }
    let cache ← evict entrySize cache.byTick.rows cache
    return (tree, cache)

/-- One call; the source has no `remove`. -/
def step (cache : TreeCache) : ObjectId ⊕ ObjectId × DecodedTree → Option TreeCache
  | .inl oid => some (cache.get oid).2
  | .inr (oid, tree) => (cache.insert entrySize oid tree).map Prod.snd

/-- What is found by id, its tick in front. -/
def find (cache : TreeCache) (oid : ObjectId) : Option (Nat × DecodedTree) :=
  (cache.byOid.lookup oid).map Prod.swap

/-- The trees held, the longest unused first. -/
def recency (cache : TreeCache) : List (ObjectId × DecodedTree) :=
  cache.byTick.rows.filterMap fun row =>
    (cache.byOid.lookup row.2).map fun entry => (row.2, entry.1)

-- The books

/-- The two maps hold one list, and the bytes are what it weighs. -/
structure Kept (cache : TreeCache) (held : List (Nat × ObjectId × DecodedTree)) : Prop where
  books : Books cache.find cache.byTick cache.tick held
  bytes_eq : cache.bytes = weightOf (·.heapBytes entrySize) (untimed held)

variable {entrySize} {cache : TreeCache} {held : List (Nat × ObjectId × DecodedTree)}

theorem find_eq_some {oid : ObjectId} {tick : Nat} {tree : DecodedTree}
    : cache.find oid = some (tick, tree) ↔ cache.byOid.lookup oid = some (tree, tick) := by
  rw [find, Option.map_eq_some_iff]
  constructor
  · rintro ⟨⟨_, _⟩, found, same⟩
    cases same
    exact found
  · exact fun found => ⟨_, found, rfl⟩

theorem find_eq_none {oid : ObjectId} : cache.find oid = none ↔ cache.byOid.lookup oid = none := by
  rw [find, Option.map_eq_none_iff]

theorem find_erase (table : AList fun _ : ObjectId => DecodedTree × Nat) (oid : ObjectId)
    : (fun other => ((table.erase oid).lookup other).map Prod.swap)
      = Function.update (fun other => (table.lookup other).map Prod.swap) oid none := by
  funext other
  rw [Tallies.lookup_erase, Function.update_apply]
  split <;> rfl

theorem find_insert (table : AList fun _ : ObjectId => DecodedTree × Nat) (oid : ObjectId)
    (tree : DecodedTree) (tick : Nat)
    : (fun other => ((table.insert oid (tree, tick)).lookup other).map Prod.swap)
      = Function.update (fun other => (table.lookup other).map Prod.swap) oid
          (some (tick, tree)) := by
  funext other
  rw [Tallies.lookup_insert, Function.update_apply]
  split <;> rfl

theorem Kept.recency_eq (kept : Kept entrySize cache held) : cache.recency = untimed held := by
  rw [recency, kept.books.rows, List.filterMap_map, untimed, ← List.filterMap_eq_map]
  refine List.filterMap_congr fun row member => ?_
  have found := find_eq_some.mp ((kept.books.found row.2.1 row.1 row.2.2).mpr member)
  rw [Function.comp_apply, found]
  rfl

/-- A used tree's row is taken out and put at the end. -/
theorem Kept.get (kept : Kept entrySize cache held) (oid : ObjectId)
    : ∃ held',
        Kept entrySize (cache.get oid).2 held'
        ∧ untimed held' = touch oid (untimed held)
        ∧ (cache.get oid).1 = (untimed held).lookup oid := by
  rw [kept.books.lookup_untimed, TreeCache.get]
  cases found : cache.byOid.lookup oid with
  | none =>
      have absent := find_eq_none.mpr found
      rw [absent]
      exact ⟨held, ⟨kept.books, kept.bytes_eq⟩, (kept.books.touch_absent absent).symm, rfl⟩
  | some entry =>
      obtain ⟨tree, oldTick⟩ := entry
      have foundAt := find_eq_some.mpr found
      have put := (kept.books.erase foundAt).put (Function.update_self ..) tree
      rw [Function.update_idem] at put
      rw [foundAt]
      refine ⟨held.filter (fun row => row.2.1 ≠ oid) ++ [(cache.tick + 1, oid, tree)],
        ⟨?_, ?_⟩, ?_, rfl⟩
      · unfold find
        dsimp only
        rw [find_insert]
        exact put
      · dsimp only
        rw [kept.bytes_eq, kept.books.weightOf_found foundAt, untimed_append, weightOf_append,
          Nat.add_comm]
        rfl
      · rw [kept.books.touch_found foundAt, untimed_append]
        rfl

/-- What an id had is taken out, with its bytes. -/
theorem Kept.replace (kept : Kept entrySize cache held) (oid : ObjectId)
    : ∃ left,
        cache.replace entrySize oid = some left
        ∧ Kept entrySize left (held.filter (fun row => row.2.1 ≠ oid))
        ∧ left.find oid = none
        ∧ left.tick = cache.tick
        ∧ left.maxBytes = cache.maxBytes := by
  rw [TreeCache.replace]
  cases found : cache.byOid.lookup oid with
  | none =>
      have absent := find_eq_none.mpr found
      refine ⟨cache, rfl, ?_, absent, rfl, rfl⟩
      rw [(kept.books.filter_absent absent).1]
      exact kept
  | some entry =>
      obtain ⟨old, oldTick⟩ := entry
      have foundAt := find_eq_some.mpr found
      have paid : checkedSub cache.bytes (old.heapBytes entrySize)
          = some (weightOf (·.heapBytes entrySize)
              (untimed (held.filter (fun row => row.2.1 ≠ oid)))) := by
        rw [kept.bytes_eq, kept.books.weightOf_found foundAt]
        exact checkedSub_add _ _
      dsimp only
      rw [paid]
      refine ⟨_, rfl, ⟨?_, rfl⟩, ?_, rfl, rfl⟩
      · unfold find
        dsimp only
        rw [find_erase]
        exact kept.books.erase foundAt
      · exact find_eq_none.mpr (AList.lookup_erase _ _)

/-- The loop drops the longest unused trees until the rest fits. -/
theorem Kept.evict (kept : Kept entrySize cache held)
    : ∃ left held',
        cache.evict entrySize cache.byTick.rows = some left
        ∧ Kept entrySize left held'
        ∧ untimed held' = room (·.heapBytes entrySize) cache.maxBytes 0 (untimed held)
        ∧ left.tick = cache.tick
        ∧ left.maxBytes = cache.maxBytes := by
  rw [kept.books.rows]
  induction held generalizing cache with
  | nil => exact ⟨cache, [], rfl, kept, rfl, rfl, rfl⟩
  | cons row rest ih =>
      obtain ⟨tick, oid, tree⟩ := row
      rw [List.map_cons, TreeCache.evict]
      by_cases fits : cache.bytes ≤ cache.maxBytes
      · rw [if_pos fits]
        refine ⟨cache, _, rfl, kept, ?_, rfl, rfl⟩
        rw [kept.bytes_eq] at fits
        exact (room_of_fits fits).symm
      · rw [if_neg fits]
        obtain ⟨found, left⟩ := kept.books.pop
        have paid : checkedSub cache.bytes (tree.heapBytes entrySize)
            = some (weightOf (·.heapBytes entrySize) (untimed rest)) := by
          rw [kept.bytes_eq]
          exact checkedSub_add _ _
        dsimp only
        rw [find_eq_some.mp found]
        dsimp only
        rw [paid]
        dsimp only [Option.bind_eq_bind, Option.bind_some]
        have next : Kept entrySize
            {
              cache with
              byTick := cache.byTick.remove tick
              bytes := weightOf (·.heapBytes entrySize) (untimed rest)
              byOid := cache.byOid.erase oid
            }
            rest := by
          refine ⟨?_, rfl⟩
          unfold find
          dsimp only
          rw [find_erase]
          exact left
        obtain ⟨after, held', done, kept', dropped, ticks, caps⟩ := ih next
        refine ⟨after, held', done, kept', ?_, ticks, caps⟩
        rw [kept.bytes_eq] at fits
        exact dropped.trans (if_neg fits).symm

/-- An insertion is the textbook's. -/
theorem Kept.insert (kept : Kept entrySize cache held) (fits : cache.bytes ≤ cache.maxBytes)
    (oid : ObjectId) (tree : DecodedTree)
    : ∃ after held',
        cache.insert entrySize oid tree = some (tree, after)
        ∧ Kept entrySize after held'
        ∧ after.bytes ≤ after.maxBytes
        ∧ untimed held'
          = Recency.step (·.heapBytes entrySize) cache.maxBytes (untimed held) (.insert oid tree)
        ∧ after.tick ≤ cache.tick + 1
        ∧ after.maxBytes = cache.maxBytes := by
  rw [TreeCache.insert, Recency.step]
  by_cases large : cache.maxBytes < tree.heapBytes entrySize
  · rw [if_pos large, if_pos large]
    exact ⟨cache, held, rfl, kept, fits, rfl, Nat.le_succ _, rfl⟩
  · rw [if_neg large, if_neg large]
    obtain ⟨left, replaced, keptLeft, absent, ticks, caps⟩ := kept.replace oid
    have next : Kept entrySize
        {
          left with
          tick := left.tick + 1
          byOid := left.byOid.insert oid (tree, left.tick + 1)
          byTick := left.byTick.insert (left.tick + 1) oid
          bytes := left.bytes + tree.heapBytes entrySize
        }
        (held.filter (fun row => row.2.1 ≠ oid) ++ [(left.tick + 1, oid, tree)]) := by
      refine ⟨?_, ?_⟩
      · unfold find
        dsimp only
        rw [find_insert]
        exact keptLeft.books.put absent tree
      · dsimp only
        rw [keptLeft.bytes_eq, untimed_append, weightOf_append]
        rfl
    obtain ⟨after, held', done, kept', dropped, ticks', caps'⟩ := next.evict
    have listed : untimed held'
        = room (·.heapBytes entrySize) cache.maxBytes (tree.heapBytes entrySize)
            (without oid (untimed held)) ++ [(oid, tree)] := by
      have small : (oid, tree).2.heapBytes entrySize ≤ cache.maxBytes := Nat.le_of_not_lt large
      rw [dropped, untimed_append, without_untimed, ← caps]
      rw [← caps] at small
      exact room_append _ small
    refine ⟨after, held', ?_, kept', ?_, listed, ?_, caps'.trans caps⟩
    · rw [replaced]
      dsimp only [Option.bind_eq_bind, Option.bind_some]
      rw [done]
      rfl
    · rw [kept'.bytes_eq, dropped, caps']
      exact room_fits (Nat.zero_le _)
    · rw [ticks', ticks]

/-- What is right after any calls: the bytes are what is held and at most the cap, the maps are
inverse, and what is held is the list in order of use.
-/
structure Sound (entrySize : Nat) (cache : TreeCache) (list : List (ObjectId × DecodedTree)) : Prop
    where
  bytes_eq : cache.bytes = Tallies.total (fun entry => entry.1.heapBytes entrySize) cache.byOid
  bytes_le : cache.bytes ≤ cache.maxBytes
  inverse : Inverse cache.find cache.byTick
  recency_eq : cache.recency = list

/-- The call as a use of the textbook cache. -/
def opOf : ObjectId ⊕ ObjectId × DecodedTree → Op ObjectId DecodedTree
  | .inl oid => .get oid
  | .inr (oid, tree) => .insert oid tree

theorem Kept.sound (kept : Kept entrySize cache held) (fits : cache.bytes ≤ cache.maxBytes)
    : cache.Sound entrySize (untimed held) where
  bytes_eq := by
    have books : Books (fun oid => (cache.byOid.lookup oid).map Prod.swap) cache.byTick cache.tick
        held :=
      kept.books
    rw [kept.bytes_eq]
    exact books.total_eq.symm
  bytes_le := fits
  inverse := kept.books.inverse
  recency_eq := kept.recency_eq

theorem Kept.step (kept : Kept entrySize cache held) (fits : cache.bytes ≤ cache.maxBytes)
    (call : ObjectId ⊕ ObjectId × DecodedTree)
    : ∃ after held',
        cache.step entrySize call = some after
        ∧ Kept entrySize after held'
        ∧ after.bytes ≤ after.maxBytes
        ∧ untimed held'
          = Recency.step (·.heapBytes entrySize) cache.maxBytes (untimed held) (opOf call)
        ∧ after.tick ≤ cache.tick + 1
        ∧ after.maxBytes = cache.maxBytes := by
  cases call with
  | inl oid =>
      obtain ⟨held', kept', used, _⟩ := kept.get oid
      refine ⟨_, held', rfl, kept', ?_, used, ?_, ?_⟩ <;> rw [TreeCache.get] <;>
        cases cache.byOid.lookup oid <;> simp [fits]
  | inr entry =>
      obtain ⟨oid, tree⟩ := entry
      obtain ⟨after, held', done, rest⟩ := kept.insert fits oid tree
      refine ⟨after, held', ?_, rest⟩
      rw [TreeCache.step, done]
      rfl

/-- Any calls leave the books of the textbook cache, and no more ticks than calls. -/
theorem run_kept (entrySize maxBytes : Nat) (calls : List (ObjectId ⊕ ObjectId × DecodedTree))
    : ∃ cache held,
        calls.foldlM (step entrySize) (new maxBytes) = some cache
        ∧ Kept entrySize cache held
        ∧ cache.bytes ≤ cache.maxBytes
        ∧ untimed held
          = (calls.map opOf).foldl (Recency.step (·.heapBytes entrySize) maxBytes) []
        ∧ cache.tick ≤ calls.length
        ∧ cache.maxBytes = maxBytes := by
  induction calls using List.reverseRecOn with
  | nil => exact ⟨new maxBytes, [], rfl, ⟨.empty, rfl⟩, Nat.zero_le _, rfl, Nat.le_refl 0, rfl⟩
  | append_singleton calls call ih =>
      obtain ⟨cache, held, ran, kept, fits, list, ticks, cap⟩ := ih
      obtain ⟨after, held', stepped, kept', fits', list', ticks', cap'⟩ := kept.step fits call
      refine ⟨after, held', ?_, kept', fits', ?_, ?_, cap'.trans cap⟩
      · rw [List.foldlM_append, ran]
        simp [stepped]
      · rw [list', list, cap, List.map_append, List.foldl_append]
        rfl
      · rw [List.length_append]
        exact ticks'.trans (Nat.add_le_add_right ticks 1)

theorem Kept.insert_evicts (kept : Kept entrySize cache held) (fits : cache.bytes ≤ cache.maxBytes)
    {oid : ObjectId} {tree : DecodedTree} (small : tree.heapBytes entrySize ≤ cache.maxBytes)
    : ∃ after,
        cache.insert entrySize oid tree = some (tree, after)
        ∧ LosesShortest
            (fun rest => weightOf (·.heapBytes entrySize) rest ≤ cache.maxBytes)
            (without oid cache.recency ++ [(oid, tree)]) after.recency := by
  obtain ⟨after, held', done, kept', _, list, _, _⟩ := kept.insert fits oid tree
  refine ⟨after, done, ?_⟩
  rw [kept.recency_eq, kept'.recency_eq, list]
  exact step_insert_losesShortest small

end TreeCache

end Gfs.Git
