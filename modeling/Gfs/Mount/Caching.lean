import Gfs.Mount.Cache
import Gfs.Lib.Runs

/-! What holds of the blob cache under any interleaving of calls, evictions and cancellations. The
byte count, the order of eviction and the verification of files hold of every run. A pin survives
while nothing is published over it, an entry keeps its file while no eviction gets between a
rename and its record, and a registration outlives its task only if the task is dropped.
-/

namespace Gfs.Mount.Cache

open Gfs.Types
open Gfs.Lib

-- Eviction

/-- The byte count is the sum of the entries' sizes. -/
def Index.Counted (index : Index) : Prop :=
  index.bytes = Tallies.total Entry.size index.entries

section Eviction

variable {quota : Nat} {removes : Text → Bool} {index : Index} {files : Files}

theorem Index.Counted.forget (counted : index.Counted) {hex : Text} {entry : Entry}
    (found : index.entries.lookup hex = some entry)
    : (index.forget hex entry.size).Counted := by
  rw [Index.Counted, Index.forget, counted, Tallies.total_erase found]
  exact Nat.add_sub_cancel_left _ _

/-- A list of candidates: distinct unpinned entries with their sizes. -/
structure Candidates (index : Index) (rows : List (Text × Nat × Nat)) : Prop where
  nodup : (rows.map Prod.fst).Nodup
  entries
    : ∀ row ∈ rows, ∃ entry,
        index.entries.lookup row.1 = some entry
        ∧ entry.pins = 0
        ∧ entry.lastUsed = row.2.1
        ∧ entry.size = row.2.2

variable {row : Text × Nat × Nat}

theorem Candidates.forget {rows : List (Text × Nat × Nat)}
    (candidates : Candidates index (row :: rows)) (size : Nat)
    : Candidates (index.forget row.1 size) rows := by
  obtain ⟨fresh, nodup⟩ := List.nodup_cons.mp candidates.nodup
  refine ⟨nodup, fun other member => ?_⟩
  obtain ⟨entry, found, right⟩ := candidates.entries other (List.mem_cons_of_mem _ member)
  refine ⟨entry, ?_, right⟩
  have apart : other.1 ≠ row.1 := by
    intro same
    exact fresh (same ▸ List.mem_map_of_mem member)
  rw [Index.forget, Tallies.lookup_erase, if_neg apart, found]

theorem Candidates.tail {rows : List (Text × Nat × Nat)}
    (candidates : Candidates index (row :: rows))
    : Candidates index rows :=
  ⟨(List.nodup_cons.mp candidates.nodup).2, fun other member =>
    candidates.entries other (List.mem_cons_of_mem _ member)⟩

/-- An eviction keeps the byte count right, and either leaves an id alone or takes an unpinned
entry together with its file.
-/
theorem evictLoop_spec {rows : List (Text × Nat × Nat)} (counted : index.Counted)
    (candidates : Candidates index rows)
    : (evictLoop quota removes rows index files).1.Counted
      ∧ ∀ hex,
        (evictLoop quota removes rows index files).1.entries.lookup hex
            = index.entries.lookup hex
          ∧ (evictLoop quota removes rows index files).2 hex = files hex
        ∨ hex ∈ rows.map Prod.fst
          ∧ (evictLoop quota removes rows index files).1.entries.lookup hex = none
          ∧ (evictLoop quota removes rows index files).2 hex = none := by
  induction rows generalizing index files with
  | nil => exact ⟨counted, fun hex => .inl ⟨rfl, rfl⟩⟩
  | cons row rows ih =>
      obtain ⟨hex, lastUsed, size⟩ := row
      obtain ⟨entry, found, -, -, same⟩ := candidates.entries _ List.mem_cons_self
      have same : entry.size = size := same
      have counted' : (index.forget hex size).Counted := same ▸ counted.forget found
      have erased : (index.forget hex size).entries.lookup hex = none := by
        rw [Index.forget, Tallies.lookup_erase, if_pos rfl]
      have others : ∀ other, other ≠ hex →
          (index.forget hex size).entries.lookup other = index.entries.lookup other := by
        intro other apart
        rw [Index.forget, Tallies.lookup_erase, if_neg apart]
      -- Once this candidate is forgotten and its file gone, the rest leaves it so.
      have taken : ∀ files' : Files, files' hex = none
          → (∀ other, other ≠ hex → files' other = files other)
          → ∀ other,
            (evictLoop quota removes rows (index.forget hex size) files').1.entries.lookup other
                = index.entries.lookup other
              ∧ (evictLoop quota removes rows (index.forget hex size) files').2 other
                = files other
            ∨ other ∈ ((hex, lastUsed, size) :: rows).map Prod.fst
              ∧ (evictLoop quota removes rows (index.forget hex size) files').1.entries.lookup
                  other = none
              ∧ (evictLoop quota removes rows (index.forget hex size) files').2 other = none := by
        intro files' gone kept other
        by_cases this : other = hex
        · subst this
          refine .inr ⟨List.mem_cons_self, ?_⟩
          rcases (@ih _ files' counted' (candidates.forget size)).2 other with
            ⟨entry', file'⟩ | ⟨-, entry', file'⟩
          · exact ⟨entry'.trans erased, file'.trans gone⟩
          · exact ⟨entry', file'⟩
        · rcases (@ih _ files' counted' (candidates.forget size)).2 other with
            ⟨entry', file'⟩ | ⟨member, entry', file'⟩
          · exact .inl ⟨entry'.trans (others other this), file'.trans (kept other this)⟩
          · exact .inr ⟨List.mem_cons_of_mem _ member, entry', file'⟩
      rw [evictLoop]
      split
      · exact ⟨counted, fun other => .inl ⟨rfl, rfl⟩⟩
      · split
        · rename_i missing
          exact ⟨(ih counted' (candidates.forget size)).1, taken files missing fun _ _ => rfl⟩
        · split
          · refine ⟨(ih counted' (candidates.forget size)).1, taken _ ?_ ?_⟩
            · exact Function.update_self _ _ _
            · exact fun other apart => Function.update_of_ne apart _ _
          · obtain ⟨counted'', kept⟩ := @ih _ files counted candidates.tail
            exact ⟨counted'', fun other => (kept other).imp_right fun taken =>
              ⟨List.mem_cons_of_mem _ taken.1, taken.2⟩⟩

/-- Where every file can be removed, the candidates are evicted in order until the quota is met. -/
theorem evictLoop_order {rows : List (Text × Nat × Nat)} (candidates : Candidates index rows)
    (removable : ∀ hex, removes hex = true)
    : ∃ evicted kept,
        rows = evicted ++ kept
        ∧ (kept = [] ∨ (evictLoop quota removes rows index files).1.bytes ≤ quota)
        ∧ ∀ hex,
          (evictLoop quota removes rows index files).1.entries.lookup hex
          = if hex ∈ evicted.map Prod.fst then none else index.entries.lookup hex := by
  induction rows generalizing index files with
  | nil => exact ⟨[], [], rfl, .inl rfl, fun hex => rfl⟩
  | cons row rows ih =>
      obtain ⟨hex, lastUsed, size⟩ := row
      have taken : ∀ files' : Files, ∃ evicted kept,
          (hex, lastUsed, size) :: rows = evicted ++ kept
          ∧ (kept = []
            ∨ (evictLoop quota removes rows (index.forget hex size) files').1.bytes ≤ quota)
          ∧ ∀ other,
            (evictLoop quota removes rows (index.forget hex size) files').1.entries.lookup other
            = if other ∈ evicted.map Prod.fst then none else index.entries.lookup other := by
        intro files'
        obtain ⟨evicted, kept, split, met, rest⟩ := @ih _ files' (candidates.forget size)
        refine ⟨(hex, lastUsed, size) :: evicted, kept, ?_, met, fun other => ?_⟩
        · rw [split, List.cons_append]
        · rw [rest, Index.forget, Tallies.lookup_erase]
          by_cases same : other = hex
          · rw [if_pos same, ite_self, if_pos (by rw [same]; exact List.mem_cons_self)]
          · have listed
                : other ∈ ((hex, lastUsed, size) :: evicted).map Prod.fst
                  ↔ other ∈ evicted.map Prod.fst := by
              rw [List.map_cons, List.mem_cons, or_iff_right same]
            simp only [if_neg same, listed]
      rw [evictLoop]
      split
      · rename_i met
        exact ⟨[], _, rfl, .inr met, fun other => rfl⟩
      · split
        · exact taken files
        · rw [if_pos (removable hex)]
          exact taken _

theorem Index.mem_candidates
    : row ∈ index.candidates
      ↔ ∃ entry,
          index.entries.lookup row.1 = some entry
          ∧ entry.pins = 0
          ∧ entry.lastUsed = row.2.1
          ∧ entry.size = row.2.2 := by
  rw [Index.candidates, List.mem_insertionSort, List.mem_map]
  constructor
  · intro listed
    obtain ⟨⟨hex, entry⟩, member, rfl⟩ := listed
    obtain ⟨member, unpinned⟩ := List.mem_filter.mp member
    exact ⟨entry, Tallies.mem_entries.mp member, of_decide_eq_true unpinned, rfl, rfl⟩
  · intro found
    obtain ⟨hex, lastUsed, size⟩ := row
    obtain ⟨entry, found, unpinned, rfl, rfl⟩ := found
    exact ⟨⟨hex, entry⟩, List.mem_filter.mpr
      ⟨Tallies.mem_entries.mpr found, decide_eq_true unpinned⟩, rfl⟩

theorem Index.candidates_spec (index : Index) : Candidates index index.candidates := by
  refine ⟨?_, fun row member => Index.mem_candidates.mp member⟩
  have perm := (List.perm_insertionSort (fun first second : Text × Nat × Nat =>
    first.2.1 ≤ second.2.1) ((index.entries.entries.filter (fun row => row.2.pins = 0)).map
      (fun row => (row.1, row.2.lastUsed, row.2.size)))).map Prod.fst
  refine perm.nodup_iff.mpr ?_
  rw [List.map_map]
  exact (List.filter_sublist.map _).nodup index.entries.nodupKeys

theorem Index.candidates_sorted (index : Index)
    : index.candidates.Pairwise (fun first second => first.2.1 ≤ second.2.1) := by
  have total : Std.Total (fun first second : Text × Nat × Nat => first.2.1 ≤ second.2.1) :=
    ⟨fun first second => Nat.le_total _ _⟩
  have trans : IsTrans (Text × Nat × Nat) (fun first second => first.2.1 ≤ second.2.1) :=
    ⟨fun _ _ _ => Nat.le_trans⟩
  exact List.pairwise_insertionSort _ _

/-- Evicting to the quota keeps the byte count right, and either leaves an id alone or takes an
unpinned entry together with its file.
-/
theorem evictToQuota_spec (quota : Nat) (removes : Text → Bool) (counted : index.Counted)
    (files : Files)
    : (evictToQuota quota removes index files).1.Counted
      ∧ ∀ hex,
        (evictToQuota quota removes index files).1.entries.lookup hex
            = index.entries.lookup hex
          ∧ (evictToQuota quota removes index files).2 hex = files hex
        ∨ (∃ entry, index.entries.lookup hex = some entry ∧ entry.pins = 0)
          ∧ (evictToQuota quota removes index files).1.entries.lookup hex = none
          ∧ (evictToQuota quota removes index files).2 hex = none := by
  rw [evictToQuota]
  split
  · exact ⟨counted, fun hex => .inl ⟨rfl, rfl⟩⟩
  · obtain ⟨counted', kept⟩ :=
      @evictLoop_spec quota removes index files _ counted index.candidates_spec
    refine ⟨counted', fun hex => (kept hex).imp_right fun taken => ⟨?_, taken.2⟩⟩
    obtain ⟨row, member, rfl⟩ := List.mem_map.mp taken.1
    obtain ⟨entry, found, unpinned, -⟩ := Index.mem_candidates.mp member
    exact ⟨entry, found, unpinned⟩

/-- Where every file can be removed, an eviction ends within the quota or with pinned entries
only, and evicts no entry before one that was used less recently.
-/
theorem evictToQuota_order (quota : Nat) (index : Index) (files : Files)
    (removable : ∀ hex, removes hex = true)
    : ((evictToQuota quota removes index files).1.bytes ≤ quota
        ∨ ∀ hex entry,
          (evictToQuota quota removes index files).1.entries.lookup hex = some entry
          → 0 < entry.pins)
      ∧ ∀ hex evicted, index.entries.lookup hex = some evicted
        → (evictToQuota quota removes index files).1.entries.lookup hex = none
        → ∀ other entry,
          (evictToQuota quota removes index files).1.entries.lookup other = some entry
          → entry.pins = 0
          → evicted.lastUsed ≤ entry.lastUsed := by
  rw [evictToQuota]
  split
  · rename_i met
    refine ⟨.inl met, fun hex evicted found gone => ?_⟩
    rw [found] at gone
    cases gone
  · obtain ⟨evicted, kept, whole, met, rest⟩ :=
      @evictLoop_order quota removes index files _ index.candidates_spec removable
    have ordered := index.candidates_sorted
    rw [whole, List.pairwise_append] at ordered
    -- What an eviction leaves unpinned was a candidate that it did not get to.
    have remaining : ∀ hex entry,
        (evictLoop quota removes index.candidates index files).1.entries.lookup hex = some entry
        → entry.pins = 0
        → index.entries.lookup hex = some entry
          ∧ (hex, entry.lastUsed, entry.size) ∈ kept := by
      intro hex entry found unpinned
      rw [rest] at found
      split at found
      · cases found
      · rename_i spared
        refine ⟨found, ?_⟩
        have member : (hex, entry.lastUsed, entry.size) ∈ index.candidates :=
          Index.mem_candidates.mpr ⟨entry, found, unpinned, rfl, rfl⟩
        rw [whole] at member
        rcases List.mem_append.mp member with taken | left
        · exact absurd (List.mem_map_of_mem taken) spared
        · exact left
    constructor
    · rcases met with none | within
      · refine .inr fun hex entry found => Nat.pos_of_ne_zero fun unpinned => ?_
        obtain ⟨-, left⟩ := remaining hex entry found unpinned
        rw [none] at left
        cases left
      · exact .inl within
    · intro hex entry found gone other entry' found' unpinned
      rw [rest] at gone
      split at gone
      · rename_i taken
        obtain ⟨row, member, rfl⟩ := List.mem_map.mp taken
        obtain ⟨first, found'', -, used, -⟩ :=
          index.candidates_spec.entries row (whole ▸ List.mem_append_left _ member)
        obtain ⟨-, left⟩ := remaining other entry' found' unpinned
        rw [found] at found''
        rw [Option.some.inj found'', used]
        exact ordered.2.2 row member _ left
      · rw [found] at gone
        cases gone

end Eviction

-- One step of a call

/-- A call that stands between its registration and its removal from the in-flight map. -/
def Phase.registered : Phase → Bool
  | .fetching | .staging _ | .publishing _ | .recording _ | .evicting _ | .finishing _ => true
  | _ => false

/-- Bytes that hash to an id of a name. -/
def Verifies (digests : Digests) (hex : Text) (content : Bytes) : Prop :=
  ∃ oid : ObjectId, toHex oid.raw = hex ∧ hashBlob digests oid.algorithm content = .ok oid

section Advance

variable {digests : Digests} {tasks : List Task} {place : Nat} {task next : Task}
  {given : Surroundings} {cache after : BlobCache}

theorem verifies_of_verified {oid : ObjectId} {bytes kept : Bytes}
    (passed : verified digests oid bytes = .ok kept)
    : Verifies digests (toHex oid.raw) kept := by
  rw [verified] at passed
  split at passed
  · cases passed
  · rename_i computed hashed
    split at passed
    · rename_i same
      cases passed
      exact ⟨oid, rfl, same ▸ hashed⟩
    · cases passed

theorem Task.ensured_cases (task : Task) (hydration : Hydration)
    : task.ensured hydration = .opening hydration
      ∨ task.ensured hydration = .done (.ok .cached)
      ∨ task.ensured hydration = .reading := by
  rw [Task.ensured]
  cases task.kind with
  | openBlob => exact .inl rfl
  | ensureCached => exact .inr (.inl rfl)
  | read => exact .inr (.inr rfl)

/-- The steps of a call, by what they do to the cache. -/
inductive Advanced (digests : Digests) (place : Nat) (given : Surroundings) (cache : BlobCache)
    (task : Task) : BlobCache → Task → Prop where
  /-- The call goes on without touching the cache. -/
  | moved (phase : Phase) (same : phase.registered = task.phase.registered)
      (idle : ∀ hydration, task.phase = .opening hydration → phase = task.phase)
      (staged
        : ∀ bytes, phase = .staging bytes
            → phase = task.phase ∨ Verifies digests task.hex bytes)
      (renamed : ∀ bytes, phase = .publishing bytes → phase = task.phase) :
      Advanced digests place given cache task cache { task with phase }
  | touched (phase : Phase) (at_touch : task.phase = .touching) (same : phase.registered = false) :
      Advanced digests place given cache task
        { cache with index := (cache.index.touch task.hex).1 } { task with phase }
  | joined (at_register : task.phase = .registering) (free : cache.inflight task.hex = none) :
      Advanced digests place given cache task
        { cache with inflight := Function.update cache.inflight task.hex (some place) }
        { task with phase := .fetching }
  | staged (bytes : Bytes) (at_staging : task.phase = .staging bytes) :
      Advanced digests place given cache task
        { cache with temporaries := Function.update cache.temporaries task.hex (some bytes) }
        { task with phase := .publishing bytes }
  | discarded (left : Option Bytes) (refusal : GfsError)
      (at_file : task.phase.registered = true) :
      Advanced digests place given cache task
        { cache with temporaries := Function.update cache.temporaries task.hex left }
        { task with phase := .finishing (.error refusal) }
  | renamed (bytes : Bytes) (at_publishing : task.phase = .publishing bytes) :
      Advanced digests place given cache task
        { cache with
          files := Function.update cache.files task.hex (cache.temporaries task.hex)
          temporaries := Function.update cache.temporaries task.hex none }
        { task with phase := .recording bytes.length }
  | recorded (size : Nat) (at_recording : task.phase = .recording size) :
      Advanced digests place given cache task
        { cache with index := cache.index.publish task.hex size }
        { task with phase := .evicting size }
  | evicted (size : Nat) (at_evicting : task.phase = .evicting size) :
      Advanced digests place given cache task
        { cache with
          index := (evictToQuota cache.quota given.removes cache.index cache.files).1
          files := (evictToQuota cache.quota given.removes cache.index cache.files).2 }
        { task with phase := .finishing (.ok size) }
  | finished (phase : Phase) (sent : Option (Except Text Nat)) (was : task.phase.registered = true)
      (now : phase.registered = false) :
      Advanced digests place given cache task
        { cache with inflight := Function.update cache.inflight task.hex none }
        { task with phase, sent }
  | pinned (hydration : Hydration) (phase : Phase) (index : Index) (found : Bool)
      (at_opening : task.phase = .opening hydration)
      (pin : cache.index.pin task.hex = (index, found))
      (answers
        : phase = .done (.ok (.opened hydration)) ∧ found = true
          ∨ (∃ refusal, phase = .done (.error refusal)) ∧ found = false) :
      Advanced digests place given cache task { cache with index } { task with phase }

/-- Every step of a call is one of these. -/
theorem advanced_of_advance (ran : cache.advance digests tasks place task given = (after, next))
    : Advanced digests place given cache task after next := by
  obtain ⟨kind, oid, phase, sent⟩ := task
  have unregistered : ∀ (kept : Task) hydration, (kept.ensured hydration).registered = false := by
    intro kept hydration
    rcases kept.ensured_cases hydration with same | same | same <;> rw [same] <;> rfl
  have unstaged : ∀ (kept : Task) hydration bytes, kept.ensured hydration ≠ .staging bytes := by
    intro kept hydration bytes
    rcases kept.ensured_cases hydration with same | same | same <;> rw [same] <;> nofun
  have unrenamed : ∀ (kept : Task) hydration bytes, kept.ensured hydration ≠ .publishing bytes := by
    intro kept hydration bytes
    rcases kept.ensured_cases hydration with same | same | same <;> rw [same] <;> nofun
  rw [BlobCache.advance] at ran
  cases phase with
  | touching =>
      cases ran
      refine .touched _ rfl ?_
      split
      · exact unregistered _ _
      · rfl
  | registering =>
      dsimp only at ran
      split at ran
      · cases ran
        exact .moved _ rfl (by nofun) (by nofun) (by nofun)
      · rename_i free
        cases ran
        exact .joined rfl free
  | waiting fetcher =>
      dsimp only at ran
      split at ran
      · cases ran
        exact .moved _ (unregistered _ _) (by nofun)
          (fun bytes same => absurd same (unstaged _ _ _))
          (fun bytes same => absurd same (unrenamed _ _ _))
      · cases ran
        exact .moved _ rfl (by nofun) (by nofun) (by nofun)
      · cases ran
        exact .moved (.waiting fetcher) rfl (by nofun) (by nofun) (by nofun)
  | fetching =>
      dsimp only at ran
      split at ran
      · cases ran
        exact .moved _ rfl (by nofun) (by nofun) (by nofun)
      · split at ran
        · cases ran
          exact .moved _ rfl (by nofun) (by nofun) (by nofun)
        · rename_i bytes kept passed
          cases ran
          refine .moved _ rfl (by nofun) ?_ (by nofun)
          intro bytes same
          cases same
          exact .inr (verifies_of_verified passed)
  | staging bytes =>
      dsimp only at ran
      split at ran
      · cases ran
        exact .staged bytes rfl
      · cases ran
        exact .discarded _ _ rfl
  | publishing bytes =>
      dsimp only at ran
      split at ran
      · cases ran
        exact .renamed bytes rfl
      · cases ran
        exact .discarded _ _ rfl
  | recording size =>
      cases ran
      exact .recorded size rfl
  | evicting size =>
      cases ran
      exact .evicted size rfl
  | finishing result =>
      cases ran
      refine .finished _ _ rfl ?_
      split
      · exact unregistered _ _
      · rfl
  | opening hydration =>
      rcases pin : cache.index.pin (Task.hex ⟨kind, oid, .opening hydration, sent⟩) with
        ⟨index, found⟩
      simp only [pin] at ran
      cases ran
      refine .pinned hydration _ index found rfl pin ?_
      cases found with
      | true => exact .inl ⟨rfl, rfl⟩
      | false => exact .inr ⟨⟨_, rfl⟩, rfl⟩
  | reading =>
      cases ran
      exact .moved _ rfl (by nofun) (by nofun) (by nofun)
  | done result =>
      cases ran
      exact .moved (.done result) rfl (by nofun) (by nofun) (by nofun)
  | cancelled =>
      cases ran
      exact .moved .cancelled rfl (by nofun) (by nofun) (by nofun)

theorem Advanced.hex (advanced : Advanced digests place given cache task after next)
    : next.hex = task.hex := by
  cases advanced <;> rfl

end Advance

-- Every call

/-- What holds in every state: the byte count is right, every file verifies, a registered call is
the one that the in-flight map names, and its bytes verify and are what its temporary holds.
-/
structure World.Sound (digests : Digests) (world : World) : Prop where
  counted : world.cache.index.Counted
  files
    : ∀ hex content, world.cache.files hex = some content → Verifies digests hex content
  registered
    : ∀ place task, world.tasks[place]? = some task → task.phase.registered = true
        → world.cache.inflight task.hex = some place
  staging
    : ∀ task ∈ world.tasks, ∀ bytes, task.phase = .staging bytes
        → Verifies digests task.hex bytes
  publishing
    : ∀ task ∈ world.tasks, ∀ bytes, task.phase = .publishing bytes
        → world.cache.temporaries task.hex = some bytes ∧ Verifies digests task.hex bytes

section Tables

variable {index : Index} {hex : Text}

theorem Index.Counted.touch (counted : index.Counted) (hex : Text)
    : (index.touch hex).1.Counted := by
  rw [Index.touch]
  split
  · rename_i entry found
    dsimp only [Index.Counted]
    rw [Tallies.total_insert, counted, Tallies.total_erase found]
  · exact counted

theorem Index.Counted.pin (counted : index.Counted) (hex : Text) : (index.pin hex).1.Counted := by
  rw [Index.pin]
  split
  · rename_i entry found
    dsimp only [Index.Counted]
    rw [Tallies.total_insert, counted, Tallies.total_erase found]
  · exact counted

theorem Index.Counted.release (counted : index.Counted) (hex : Text)
    : (index.release hex).Counted := by
  rw [Index.release]
  split
  · rename_i entry found
    dsimp only [Index.Counted]
    rw [Tallies.total_insert, counted, Tallies.total_erase found]
  · exact counted

theorem Index.Counted.publish (counted : index.Counted) (hex : Text) (size : Nat)
    : (index.publish hex size).Counted := by
  dsimp only [Index.publish, Index.Counted]
  rw [Tallies.total_insert, counted]
  cases found : index.entries.lookup hex with
  | none => rw [Tallies.total_erase_absent found, Nat.add_comm]
  | some previous =>
      dsimp only
      rw [Tallies.total_erase found, Nat.add_sub_cancel_left, Nat.add_comm]

/-- The pins of an entry, where there is one. -/
def Index.pinsOf (index : Index) (hex : Text) : Option Nat :=
  (index.entries.lookup hex).map Entry.pins

theorem Index.pinsOf_touch (index : Index) (hex other : Text)
    : (index.touch hex).1.pinsOf other = index.pinsOf other := by
  rw [Index.touch]
  split
  · rename_i entry found
    rw [Index.pinsOf, Tallies.lookup_insert]
    split
    · rename_i same
      rw [Index.pinsOf, same, found]
      rfl
    · rfl
  · rfl

theorem Index.pinsOf_pin (index : Index) (hex other : Text)
    : (index.pin hex).1.pinsOf other
      = (index.pinsOf other).map (fun pins => if other = hex then pins + 1 else pins) := by
  rw [Index.pin]
  split
  · rename_i entry found
    rw [Index.pinsOf, Tallies.lookup_insert]
    split
    · rename_i same
      rw [Index.pinsOf, same, found]
      rfl
    · rw [Index.pinsOf, Option.map_map]
      rfl
  · rename_i missing
    by_cases same : other = hex
    · rw [same, Index.pinsOf, Index.pinsOf, missing]
      rfl
    · simp only [if_neg same, Option.map_id']
      rfl

theorem Index.pin_found (index : Index) (hex : Text)
    : (index.pin hex).2 = (index.pinsOf hex).isSome := by
  rw [Index.pin, Index.pinsOf]
  cases index.entries.lookup hex <;> rfl

theorem Index.pinsOf_release (index : Index) (hex other : Text)
    : (index.release hex).pinsOf other
      = (index.pinsOf other).map (fun pins => if other = hex then pins - 1 else pins) := by
  rw [Index.release]
  split
  · rename_i entry found
    rw [Index.pinsOf, Tallies.lookup_insert]
    split
    · rename_i same
      rw [Index.pinsOf, same, found]
      rfl
    · rw [Index.pinsOf, Option.map_map]
      rfl
  · rename_i missing
    by_cases same : other = hex
    · rw [same, Index.pinsOf, missing]
      rfl
    · simp only [if_neg same, Option.map_id']

theorem Index.pinsOf_publish (index : Index) (hex other : Text) (size : Nat)
    : (index.publish hex size).pinsOf other
      = if other = hex then some 0 else index.pinsOf other := by
  rw [Index.pinsOf, Index.publish, Tallies.lookup_insert]
  split <;> rfl

theorem evictToQuota_pinsOf (quota : Nat) (removes : Text → Bool) (counted : index.Counted)
    (files : Files) (hex : Text)
    : (evictToQuota quota removes index files).1.pinsOf hex = index.pinsOf hex
        ∧ (evictToQuota quota removes index files).2 hex = files hex
      ∨ index.pinsOf hex = some 0
        ∧ (evictToQuota quota removes index files).1.pinsOf hex = none
        ∧ (evictToQuota quota removes index files).2 hex = none := by
  rcases (evictToQuota_spec quota removes counted files).2 hex with
    ⟨entry, file⟩ | ⟨⟨entry, found, unpinned⟩, gone, file⟩
  · exact .inl ⟨congrArg (Option.map Entry.pins) entry, file⟩
  · refine .inr ⟨?_, congrArg (Option.map Entry.pins) gone, file⟩
    rw [Index.pinsOf, found, Option.map_some, unpinned]

end Tables

section Worlds

variable {digests : Digests} {world : World}

variable {place : Nat} {task : Task} {given : Surroundings}

theorem getElem?_set_cases {tasks : List Task} {other : Nat} {next : Task}
    (found : (tasks.set place next)[other]? = some task)
    : other = place ∧ task = next ∨ other ≠ place ∧ tasks[other]? = some task := by
  by_cases same : place = other
  · subst same
    rw [List.getElem?_set] at found
    split at found
    · split at found
      · exact .inl ⟨rfl, (Option.some.inj found).symm⟩
      · cases found
    · exact absurd rfl ‹_›
  · rw [List.getElem?_set_ne same] at found
    exact .inr ⟨Ne.symm same, found⟩

/-- A step of a call keeps the world sound. -/
theorem World.Sound.advance (sound : world.Sound digests) {place : Nat} {task next : Task}
    {given : Surroundings} {cache : BlobCache} {handles : Text → Nat}
    (at_place : world.tasks[place]? = some task)
    (advanced : Advanced digests place given world.cache task cache next)
    : World.Sound digests ⟨cache, world.tasks.set place next, handles⟩ := by
  have member := List.mem_of_getElem? at_place
  have sameHex := advanced.hex
  -- Another registered call is on another name than this one, when this one is registered.
  have apart : task.phase.registered = true → ∀ other held, other ≠ place →
      world.tasks[other]? = some held → held.phase.registered = true → held.hex ≠ task.hex := by
    intro busy other held ne found registered same
    have mine := sound.registered place task at_place busy
    have theirs := sound.registered other held found registered
    rw [same, mine] at theirs
    exact ne (Option.some.inj theirs).symm
  refine ⟨?_, ?_, ?_, ?_, ?_⟩
  · cases advanced with
    | touched => exact sound.counted.touch _
    | recorded => exact sound.counted.publish _ _
    | evicted => exact (evictToQuota_spec _ _ sound.counted _).1
    | pinned hydration phase index found at_opening pin =>
        have counted := sound.counted.pin task.hex
        rw [pin] at counted
        exact counted
    | _ => exact sound.counted
  · intro hex content held
    cases advanced with
    | renamed bytes at_publishing =>
        dsimp only at held
        obtain ⟨temporary, right⟩ := sound.publishing task member bytes at_publishing
        by_cases same : hex = task.hex
        · rw [same, Function.update_self, temporary] at held
          rw [same, ← Option.some.inj held]
          exact right
        · rw [Function.update_of_ne same] at held
          exact sound.files hex content held
    | evicted size at_evicting =>
        rcases (evictToQuota_spec world.cache.quota given.removes sound.counted
          world.cache.files).2 hex with ⟨-, kept⟩ | ⟨-, -, gone⟩
        · exact sound.files hex content (kept.symm.trans held)
        · cases gone.symm.trans held
    | _ => exact sound.files hex content held
  · intro other held found registered
    rcases getElem?_set_cases found with ⟨rfl, rfl⟩ | ⟨ne, old⟩
    · rw [sameHex]
      cases advanced with
      | moved phase same =>
          exact sound.registered other task at_place (same.symm.trans registered)
      | touched phase at_touch same => exact absurd (same.symm.trans registered) (by simp)
      | joined => exact Function.update_self _ _ _
      | finished phase sent was now => exact absurd (now.symm.trans registered) (by simp)
      | pinned hydration phase index found' at_opening pin answers =>
          rcases answers with ⟨same, -⟩ | ⟨⟨refusal, same⟩, -⟩ <;>
            exact absurd (same ▸ registered) (by simp [Phase.registered])
      | staged bytes phase | renamed bytes phase | recorded size phase | evicted size phase =>
          exact sound.registered other task at_place (by rw [phase]; rfl)
      | discarded left refusal at_file => exact sound.registered other task at_place at_file
    · have theirs := sound.registered other held old registered
      cases advanced with
      | joined at_register free =>
          dsimp only
          rw [Function.update_of_ne]
          · exact theirs
          · intro same
            rw [same, free] at theirs
            cases theirs
      | finished phase sent was now =>
          dsimp only
          rw [Function.update_of_ne (apart was other held ne old registered)]
          exact theirs
      | _ => exact theirs
  · intro held listed bytes at_staging
    rcases List.mem_or_eq_of_mem_set listed with old | rfl
    · exact sound.staging held old bytes at_staging
    · rw [sameHex]
      cases advanced with
      | moved phase same idle staged renamed =>
          rcases staged bytes at_staging with unchanged | right
          · exact sound.staging task member bytes (unchanged.symm.trans at_staging)
          · exact right
      | touched phase at_touch same =>
          rw [show phase = .staging bytes from at_staging] at same
          cases same
      | finished phase sent was now =>
          rw [show phase = .staging bytes from at_staging] at now
          cases now
      | pinned hydration phase index found' at_opening pin answers =>
          rcases answers with ⟨same, -⟩ | ⟨⟨refusal, same⟩, -⟩ <;>
            exact absurd (same.symm.trans at_staging) (by nofun)
      | _ => cases at_staging
  · intro held listed bytes at_publishing
    obtain ⟨other, found⟩ := List.mem_iff_getElem?.mp listed
    rcases getElem?_set_cases found with ⟨rfl, rfl⟩ | ⟨ne, old⟩
    · rw [sameHex]
      cases advanced with
      | moved phase same idle staged renamed =>
          exact sound.publishing task member bytes
            ((renamed bytes at_publishing).symm.trans at_publishing)
      | touched phase at_touch same =>
          rw [show phase = .publishing bytes from at_publishing] at same
          cases same
      | finished phase sent was now =>
          rw [show phase = .publishing bytes from at_publishing] at now
          cases now
      | pinned hydration phase index found' at_opening pin answers =>
          rcases answers with ⟨same, -⟩ | ⟨⟨refusal, same⟩, -⟩ <;>
            exact absurd (same.symm.trans at_publishing) (by nofun)
      | staged bytes' at_staging =>
          cases at_publishing
          exact ⟨Function.update_self _ _ _, sound.staging task member bytes at_staging⟩
      | _ => cases at_publishing
    · obtain ⟨temporary, right⟩ :=
        sound.publishing held (List.mem_of_getElem? old) bytes at_publishing
      refine ⟨?_, right⟩
      have registered : held.phase.registered = true := by rw [at_publishing]; rfl
      have untouched : ∀ value, task.phase.registered = true →
          Function.update world.cache.temporaries task.hex value held.hex = some bytes := by
        intro value busy
        rw [Function.update_of_ne (apart busy other held ne old registered)]
        exact temporary
      cases advanced with
      | staged bytes' phase => exact untouched _ (by rw [phase]; rfl)
      | renamed bytes' phase => exact untouched _ (by rw [phase]; rfl)
      | discarded left refusal at_file => exact untouched _ at_file
      | _ => exact temporary

theorem World.Sound.cancel (sound : world.Sound digests)
    (at_place : world.tasks[place]? = some task)
    : World.Sound digests
        { world with tasks := world.tasks.set place { task with phase := .cancelled } } := by
  refine ⟨sound.counted, sound.files, ?_, ?_, ?_⟩
  · intro other held found registered
    rcases getElem?_set_cases found with ⟨rfl, rfl⟩ | ⟨-, old⟩
    · cases registered
    · exact sound.registered other held old registered
  · intro held listed bytes at_staging
    rcases List.mem_or_eq_of_mem_set listed with old | rfl
    · exact sound.staging held old bytes at_staging
    · cases at_staging
  · intro held listed bytes at_publishing
    rcases List.mem_or_eq_of_mem_set listed with old | rfl
    · exact sound.publishing held old bytes at_publishing
    · cases at_publishing

theorem World.Sound.step (sound : world.Sound digests) (event : Event)
    : (world.step digests event).Sound digests := by
  cases event with
  | call kind oid =>
      have added : ∀ held ∈ world.tasks ++ [⟨kind, oid, .touching, none⟩],
          held ∈ world.tasks ∨ held.phase = .touching := by
        intro held listed
        rcases List.mem_append.mp listed with old | new
        · exact .inl old
        · rw [List.mem_singleton.mp new]
          exact .inr rfl
      refine ⟨sound.counted, sound.files, ?_, ?_, ?_⟩
      · intro place held found registered
        change (world.tasks ++ [_])[place]? = some held at found
        rw [List.getElem?_append] at found
        split at found
        · exact sound.registered place held found registered
        · rw [List.mem_singleton.mp (List.mem_of_getElem? found)] at registered
          cases registered
      · intro held listed bytes at_staging
        rcases added held listed with old | new
        · exact sound.staging held old bytes at_staging
        · cases new.symm.trans at_staging
      · intro held listed bytes at_publishing
        rcases added held listed with old | new
        · exact sound.publishing held old bytes at_publishing
        · cases new.symm.trans at_publishing
  | advance place given =>
      rw [World.step]
      split
      · exact sound
      · rename_i task at_place
        rcases ran : world.cache.advance digests world.tasks place task given with ⟨cache, next⟩
        exact sound.advance at_place (advanced_of_advance ran)
  | cancel place =>
      rw [World.step]
      split
      · exact sound
      · rename_i task at_place
        split
        · exact sound.cancel at_place
        · exact sound
  | release oid =>
      exact ⟨sound.counted.release _, sound.files, sound.registered, sound.staging,
        sound.publishing⟩

-- Pins, files and registrations

/-- Every entry's file is there, and hashes to its key. -/
def World.Placed (digests : Digests) (world : World) : Prop :=
  ∀ hex entry, world.cache.index.entries.lookup hex = some entry
    → ∃ content, world.cache.files hex = some content ∧ Verifies digests hex content

/-- Every entry's pins are the handles that are open on it, and what a handle is open on has an
entry and a file.
-/
def World.Pinned (world : World) : Prop :=
  (∀ hex entry, world.cache.index.entries.lookup hex = some entry
    → entry.pins = world.handles hex)
  ∧ ∀ hex, 0 < world.handles hex
    → (world.cache.index.entries.lookup hex).isSome = true
      ∧ (world.cache.files hex).isSome = true

/-- Every registration is that of a call that is running and will remove it. -/
def World.Owned (world : World) : Prop :=
  ∀ hex place, world.cache.inflight hex = some place
    → ∃ task, world.tasks[place]? = some task
      ∧ task.hex = hex
      ∧ task.phase.registered = true

/-- The file that a call has renamed into place is still there when it records it. -/
def World.InPlace (world : World) : Event → Prop
  | .advance place _ =>
      ∀ task size, world.tasks[place]? = some task → task.phase = .recording size
        → (world.cache.files task.hex).isSome = true
  | _ => True

/-- A call publishes an object on which no handle is open. -/
def World.Unopened (world : World) : Event → Prop
  | .advance place _ =>
      ∀ task size, world.tasks[place]? = some task → task.phase = .recording size
        → world.handles task.hex = 0
  | _ => True

/-- No call is dropped while it is the one that fetches. -/
def World.Undropped (world : World) : Event → Prop
  | .cancel place => ∀ task, world.tasks[place]? = some task → task.phase ≠ .fetching
  | _ => True

theorem World.Sound.placed_iff (sound : world.Sound digests)
    : world.Placed digests
      ↔ ∀ hex pins, world.cache.index.pinsOf hex = some pins
        → (world.cache.files hex).isSome = true := by
  constructor
  · intro placed hex pins found
    obtain ⟨entry, found, -⟩ := Option.map_eq_some_iff.mp found
    obtain ⟨content, held, -⟩ := placed hex entry found
    rw [held]
    rfl
  · intro present hex entry found
    obtain ⟨content, held⟩ := Option.isSome_iff_exists.mp
      (present hex entry.pins (by rw [Index.pinsOf, found]; rfl))
    exact ⟨content, held, sound.files hex content held⟩

theorem World.pinned_iff
    : world.Pinned
      ↔ (∀ hex pins, world.cache.index.pinsOf hex = some pins → pins = world.handles hex)
        ∧ ∀ hex, 0 < world.handles hex
          → (world.cache.index.pinsOf hex).isSome = true
            ∧ (world.cache.files hex).isSome = true := by
  refine and_congr ⟨?_, ?_⟩ ?_
  · intro same hex pins found
    obtain ⟨entry, found', rfl⟩ := Option.map_eq_some_iff.mp found
    exact same hex entry found'
  · exact fun same hex entry found => same hex entry.pins (by rw [Index.pinsOf, found]; rfl)
  · simp only [Index.pinsOf, Option.isSome_map]

/-- What a step of a call does to the pins, the files and the handles of one name. -/
inductive Step (world : World) (task : Task) (hex : Text) (pins : Option Nat)
    (file : Option Bytes) (handles : Nat) : Prop where
  /-- They stay, or a file takes the place of a file. -/
  | kept (samePins : pins = world.cache.index.pinsOf hex)
      (there : (world.cache.files hex).isSome = true → file.isSome = true)
      (sameHandles : handles = world.handles hex) :
      Step world task hex pins file handles
  /-- An unpinned entry is evicted. -/
  | evicted (was : world.cache.index.pinsOf hex = some 0) (gone : pins = none)
      (sameHandles : handles = world.handles hex) :
      Step world task hex pins file handles
  /-- A publication is recorded. -/
  | recorded (size : Nat) (at_recording : task.phase = .recording size) (same : hex = task.hex)
      (fresh : pins = some 0) (sameFile : file = world.cache.files hex)
      (sameHandles : handles = world.handles hex) :
      Step world task hex pins file handles
  /-- A handle is opened. -/
  | opened (count : Nat) (was : world.cache.index.pinsOf hex = some count)
      (more : pins = some (count + 1)) (sameFile : file = world.cache.files hex)
      (another : handles = world.handles hex + 1) :
      Step world task hex pins file handles

theorem Task.opens_of_ne {next : Task} (other : ∀ hydration, task.phase ≠ .opening hydration)
    : task.opens next = false := by
  rw [Task.opens]
  split
  · rename_i hydration reply at_opening _
    exact absurd at_opening (other hydration)
  · rfl

/-- What a step of a call does to one name is one of these. -/
theorem World.Sound.step_cases (sound : world.Sound digests) {next : Task} {cache : BlobCache}
    (at_place : world.tasks[place]? = some task)
    (advanced : Advanced digests place given world.cache task cache next) (hex : Text)
    : Step world task hex (cache.index.pinsOf hex) (cache.files hex)
        ((if task.opens next then
          Function.update world.handles task.hex (world.handles task.hex + 1)
        else world.handles) hex) := by
  have member := List.mem_of_getElem? at_place
  cases advanced with
  | moved phase same idle =>
      have closed : task.opens { task with phase } = false := by
        rw [Task.opens]
        split
        · rename_i hydration reply at_opening ended
          have unchanged := idle hydration at_opening
          dsimp only at ended
          rw [ended, at_opening] at unchanged
          cases unchanged
        · rfl
      exact .kept rfl id (by rw [closed]; rfl)
  | touched phase at_touch =>
      rw [Task.opens_of_ne (by rw [at_touch]; nofun)]
      exact .kept (Index.pinsOf_touch _ _ _) id rfl
  | joined at_register =>
      rw [Task.opens_of_ne (by rw [at_register]; nofun)]
      exact .kept rfl id rfl
  | staged bytes at_staging =>
      rw [Task.opens_of_ne (by rw [at_staging]; nofun)]
      exact .kept rfl id rfl
  | discarded left refusal at_file =>
      rw [Task.opens_of_ne (by
        intro hydration at_opening
        rw [at_opening] at at_file
        cases at_file)]
      exact .kept rfl id rfl
  | renamed bytes at_publishing =>
      rw [Task.opens_of_ne (by rw [at_publishing]; nofun)]
      refine .kept rfl (fun present => ?_) rfl
      by_cases same : hex = task.hex
      · dsimp only
        rw [same, Function.update_self, (sound.publishing task member bytes at_publishing).1]
        rfl
      · dsimp only
        rw [Function.update_of_ne same]
        exact present
  | recorded size at_recording =>
      rw [Task.opens_of_ne (by rw [at_recording]; nofun)]
      by_cases same : hex = task.hex
      · refine .recorded size at_recording same ?_ rfl rfl
        dsimp only
        rw [Index.pinsOf_publish, if_pos same]
      · refine .kept ?_ id rfl
        dsimp only
        rw [Index.pinsOf_publish, if_neg same]
  | evicted size at_evicting =>
      rw [Task.opens_of_ne (by rw [at_evicting]; nofun)]
      rcases evictToQuota_pinsOf world.cache.quota given.removes sound.counted world.cache.files
        hex with ⟨same, file⟩ | ⟨was, gone, -⟩
      · exact .kept same (fun present => (congrArg Option.isSome file).trans present) rfl
      · exact .evicted was gone rfl
  | finished phase sent was =>
      rw [Task.opens_of_ne (by
        intro hydration at_opening
        rw [at_opening] at was
        cases was)]
      exact .kept rfl id rfl
  | pinned hydration phase index found at_opening pin answers =>
      have pins := Index.pinsOf_pin world.cache.index task.hex hex
      have success := Index.pin_found world.cache.index task.hex
      rw [pin] at pins success
      rcases answers with ⟨rfl, rfl⟩ | ⟨⟨refusal, rfl⟩, rfl⟩
      · have opens
            : task.opens { task with phase := .done (.ok (.opened hydration)) } = true := by
          rw [Task.opens, at_opening]
        rw [opens, if_pos rfl]
        by_cases same : hex = task.hex
        · subst same
          obtain ⟨count, was⟩ := Option.isSome_iff_exists.mp success.symm
          refine .opened count was ?_ rfl (Function.update_self _ _ _)
          dsimp only at pins ⊢
          rw [pins, was, Option.map_some, if_pos rfl]
        · refine .kept ?_ id (Function.update_of_ne same _ _)
          dsimp only at pins ⊢
          simp only [pins, if_neg same, Option.map_id']
      · have opens
            : task.opens { task with phase := .done (.error refusal) } = false := by
          rw [Task.opens, at_opening]
        rw [opens]
        refine .kept ?_ id rfl
        dsimp only at pins success ⊢
        rw [pins]
        by_cases same : hex = task.hex
        · rw [same, Option.isSome_eq_false_iff.mp success.symm |> Option.isNone_iff_eq_none.mp]
          rfl
        · simp only [if_neg same, Option.map_id']

theorem World.step_absent (absent : world.tasks[place]? = none)
    : world.step digests (.advance place given) = world := by
  rw [World.step]
  split
  · rfl
  · rename_i task found
    cases absent.symm.trans found

theorem World.step_advance {next : Task} {cache : BlobCache}
    (at_place : world.tasks[place]? = some task)
    (ran : world.cache.advance digests world.tasks place task given = (cache, next))
    : world.step digests (.advance place given)
      = ⟨cache, world.tasks.set place next,
          if task.opens next then
            Function.update world.handles task.hex (world.handles task.hex + 1)
          else world.handles⟩ := by
  rw [World.step]
  split
  · rename_i absent
    cases at_place.symm.trans absent
  · rename_i other found
    cases at_place.symm.trans found
    rw [ran]

theorem BlobCache.advance_recording {cache : BlobCache} {tasks : List Task} {size : Nat}
    (at_recording : task.phase = .recording size)
    : cache.advance digests tasks place task given
      = ({ cache with index := cache.index.publish task.hex size },
          { task with phase := .evicting size }) := by
  rw [BlobCache.advance, at_recording]

/-- A step keeps a file for every entry exactly if a recorded publication's file is still there. -/
theorem World.Sound.placed_step (sound : world.Sound digests) (placed : world.Placed digests)
    (event : Event)
    : (world.step digests event).Placed digests ↔ world.InPlace event := by
  rw [(sound.step event).placed_iff]
  have present := sound.placed_iff.mp placed
  cases event with
  | call kind oid => exact ⟨fun _ => trivial, fun _ => present⟩
  | release oid =>
      refine ⟨fun _ => trivial, fun _ hex pins found => ?_⟩
      rw [World.step] at found
      dsimp only at found
      rw [Index.pinsOf_release] at found
      obtain ⟨count, was, -⟩ := Option.map_eq_some_iff.mp found
      exact present hex count was
  | cancel place =>
      refine ⟨fun _ => trivial, fun _ => ?_⟩
      rw [World.step]
      split
      · exact present
      · split <;> exact present
  | advance place given =>
      cases at_place : world.tasks[place]? with
      | none =>
          rw [World.step_absent at_place]
          exact ⟨fun _ task size found => (by cases at_place.symm.trans found), fun _ => present⟩
      | some task =>
          rcases ran : world.cache.advance digests world.tasks place task given with
            ⟨cache, next⟩
          rw [World.step_advance at_place ran]
          constructor
          · intro after task' size found at_recording
            cases at_place.symm.trans found
            rw [BlobCache.advance_recording at_recording] at ran
            cases ran
            refine after task.hex 0 ?_
            rw [Index.pinsOf_publish, if_pos rfl]
          · intro inPlace hex pins found
            rcases sound.step_cases at_place (advanced_of_advance ran) hex with
              ⟨same, there, -⟩ | ⟨-, gone, -⟩ | ⟨size, at_recording, same, -, file, -⟩
              | ⟨count, was, -, file, -⟩
            · exact there (present hex pins (same ▸ found))
            · cases gone.symm.trans found
            · rw [file, same]
              exact inPlace task size at_place at_recording
            · rw [file]
              exact present hex count was

/-- A step keeps the pins equal to the handles exactly if nothing is published over an open
object.
-/
theorem World.Sound.pinned_step (sound : world.Sound digests) (placed : world.Placed digests)
    (pinned : world.Pinned) {event : Event} (inPlace : world.InPlace event)
    : (world.step digests event).Pinned ↔ world.Unopened event := by
  rw [World.pinned_iff]
  obtain ⟨same, held⟩ := World.pinned_iff.mp pinned
  cases event with
  | call kind oid => exact ⟨fun _ => trivial, fun _ => ⟨same, held⟩⟩
  | cancel place =>
      refine ⟨fun _ => trivial, fun _ => ?_⟩
      rw [World.step]
      split
      · exact ⟨same, held⟩
      · split <;> exact ⟨same, held⟩
  | release oid =>
      refine ⟨fun _ => trivial, fun _ => ⟨?_, ?_⟩⟩
      · intro hex pins found
        rw [World.step] at found ⊢
        dsimp only at found ⊢
        rw [Index.pinsOf_release] at found
        obtain ⟨count, was, rfl⟩ := Option.map_eq_some_iff.mp found
        by_cases this : hex = toHex oid.raw
        · rw [if_pos this, this, Function.update_self, ← this, same hex count was]
        · rw [if_neg this, Function.update_of_ne this, same hex count was]
      · intro hex opened
        rw [World.step] at opened ⊢
        dsimp only at opened ⊢
        rw [Index.pinsOf_release, Option.isSome_map]
        refine held hex ?_
        by_cases this : hex = toHex oid.raw
        · rw [this, Function.update_self] at opened
          rw [this]
          exact Nat.lt_of_lt_of_le opened (Nat.sub_le _ _)
        · rwa [Function.update_of_ne this] at opened
  | advance place given =>
      cases at_place : world.tasks[place]? with
      | none =>
          rw [World.step_absent at_place]
          exact ⟨fun _ task size found => (by cases at_place.symm.trans found),
            fun _ => ⟨same, held⟩⟩
      | some task =>
          rcases ran : world.cache.advance digests world.tasks place task given with
            ⟨cache, next⟩
          rw [World.step_advance at_place ran]
          constructor
          · intro after task' size found at_recording
            cases at_place.symm.trans found
            have unopening : task.opens next = false :=
              Task.opens_of_ne (by rw [at_recording]; nofun)
            rw [BlobCache.advance_recording at_recording] at ran
            cases ran
            have fresh := after.1 task.hex 0 (by rw [Index.pinsOf_publish, if_pos rfl])
            rw [unopening] at fresh
            exact fresh.symm
          · intro unopened
            refine ⟨fun hex pins found => ?_, fun hex opened => ?_⟩
            · rcases sound.step_cases at_place (advanced_of_advance ran) hex with
                ⟨samePins, -, handles⟩ | ⟨-, gone, -⟩
                | ⟨size, at_recording, this, fresh, -, handles⟩ | ⟨count, was, more, -, handles⟩
              · exact (same hex pins (samePins ▸ found)).trans handles.symm
              · cases gone.symm.trans found
              · cases fresh.symm.trans found
                have closed : world.handles hex = 0 := by
                  rw [this]
                  exact unopened task size at_place at_recording
                exact (handles.trans closed).symm
              · cases more.symm.trans found
                exact (congrArg (· + 1) (same hex count was)).trans handles.symm
            · rcases sound.step_cases at_place (advanced_of_advance ran) hex with
                ⟨samePins, there, handles⟩ | ⟨was, -, handles⟩
                | ⟨size, at_recording, this, fresh, file, handles⟩
                | ⟨count, was, more, file, handles⟩
              · obtain ⟨entry, present⟩ := held hex (handles ▸ opened)
                exact ⟨samePins ▸ entry, there present⟩
              · -- What is evicted is unpinned, so no handle is open on it.
                have closed := same hex 0 was
                have opened' : 0 < world.handles hex := handles ▸ opened
                rw [← closed] at opened'
                cases opened'
              · refine ⟨?_, ?_⟩
                · dsimp only
                  rw [fresh]
                  rfl
                · dsimp only
                  rw [file, this]
                  exact inPlace task size at_place at_recording
              · refine ⟨?_, ?_⟩
                · dsimp only
                  rw [more]
                  rfl
                · dsimp only
                  rw [file]
                  exact (sound.placed_iff.mp placed) hex count was

/-- A step keeps every registration owned exactly if it drops no fetching call. -/
theorem World.Sound.owned_step (sound : world.Sound digests) (owned : world.Owned) (event : Event)
    : (world.step digests event).Owned ↔ world.Undropped event := by
  cases event with
  | call kind oid =>
      refine ⟨fun _ => trivial, fun _ hex place found => ?_⟩
      obtain ⟨task, at_place, right⟩ := owned hex place found
      refine ⟨task, ?_, right⟩
      have bound := (List.getElem?_eq_some_iff.mp at_place).1
      exact (List.getElem?_append_left bound).trans at_place
  | release oid => exact ⟨fun _ => trivial, fun _ => owned⟩
  | cancel place =>
      rw [World.step]
      cases at_place : world.tasks[place]? with
      | none => exact ⟨fun _ task found => (by cases at_place.symm.trans found), fun _ => owned⟩
      | some task =>
          dsimp only
          constructor
          · intro after task' found fetching
            cases at_place.symm.trans found
            have registered := sound.registered place task at_place (by rw [fetching]; rfl)
            rw [if_pos (by rw [fetching]; rfl)] at after
            obtain ⟨other, found', -, busy⟩ := after task.hex place registered
            have bound := (List.getElem?_eq_some_iff.mp at_place).1
            rw [List.getElem?_set_self bound] at found'
            cases found'
            cases busy
          · intro undropped
            split
            · rename_i awaits
              intro hex other found
              obtain ⟨held, at_other, sameHex, busy⟩ := owned hex other found
              refine ⟨held, ?_, sameHex, busy⟩
              have apart : place ≠ other := by
                intro same
                subst same
                cases at_place.symm.trans at_other
                have waits := undropped task at_place
                cases phase : task.phase with
                | fetching => exact waits phase
                | waiting fetcher =>
                    rw [phase] at busy
                    cases busy
                | _ =>
                    rw [phase] at awaits
                    cases awaits
              exact (List.getElem?_set_ne apart).trans at_other
            · exact owned
  | advance place given =>
      refine ⟨fun _ => trivial, fun _ => ?_⟩
      cases at_place : world.tasks[place]? with
      | none =>
          rw [World.step_absent at_place]
          exact owned
      | some task =>
          rcases ran : world.cache.advance digests world.tasks place task given with
            ⟨cache, next⟩
          rw [World.step_advance at_place ran]
          have advanced := advanced_of_advance ran
          have sameHex := advanced.hex
          have bound := (List.getElem?_eq_some_iff.mp at_place).1
          have here : (world.tasks.set place next)[place]? = some next :=
            List.getElem?_set_self bound
          -- A registration that stays is still owned, by this call where it stays registered.
          have stays : (task.phase.registered = true → next.phase.registered = true)
              → ∀ hex other, world.cache.inflight hex = some other
                → ∃ held, (world.tasks.set place next)[other]? = some held
                  ∧ held.hex = hex
                  ∧ held.phase.registered = true := by
            intro still hex other found
            obtain ⟨held, at_other, same, busy⟩ := owned hex other found
            by_cases this : place = other
            · subst this
              cases at_place.symm.trans at_other
              exact ⟨next, here, sameHex.trans same, still busy⟩
            · exact ⟨held, (List.getElem?_set_ne this).trans at_other, same, busy⟩
          cases advanced with
          | moved phase same => exact stays fun busy => same.trans busy
          | touched phase at_touch =>
              exact stays fun busy => (by rw [at_touch] at busy; cases busy)
          | pinned hydration phase index found at_opening =>
              exact stays fun busy => (by rw [at_opening] at busy; cases busy)
          | staged | discarded | renamed | recorded | evicted => exact stays fun _ => rfl
          | joined at_register free =>
              intro hex other found
              dsimp only at found
              by_cases this : hex = task.hex
              · rw [this, Function.update_self] at found
                cases found
                exact ⟨_, here, sameHex.trans this.symm, rfl⟩
              · rw [Function.update_of_ne this] at found
                exact stays (fun _ => rfl) hex other found
          | finished phase sent was now =>
              intro hex other found
              dsimp only at found
              by_cases this : hex = task.hex
              · rw [this, Function.update_self] at found
                cases found
              · rw [Function.update_of_ne this] at found
                obtain ⟨held, at_other, same, busy⟩ := owned hex other found
                have apart : place ≠ other := by
                  intro this'
                  subst this'
                  cases at_place.symm.trans at_other
                  exact this same.symm
                exact ⟨held, (List.getElem?_set_ne apart).trans at_other, same, busy⟩

end Worlds

-- Runs

/-- An eviction at a state, where every file can be removed: the cache ends within the quota or
with pinned entries only, and nothing goes before what was used less recently.
-/
def World.EvictsInOrder (world : World) : Prop :=
  ∀ removes : Text → Bool, (∀ hex, removes hex = true)
    → let after := (evictToQuota world.cache.quota removes world.cache.index world.cache.files).1
      (after.bytes ≤ world.cache.quota
        ∨ ∀ hex entry, after.entries.lookup hex = some entry → 0 < entry.pins)
      ∧ ∀ hex evicted, world.cache.index.entries.lookup hex = some evicted
        → after.entries.lookup hex = none
        → ∀ other entry, after.entries.lookup other = some entry → entry.pins = 0
          → evicted.lastUsed ≤ entry.lastUsed

section Runs

variable {digests : Digests}

/-- What adopting files adds to an index: an unpinned entry for each. -/
theorem adopt_fold {files : List Leftover} {index : Index} (counted : index.Counted)
    (nodup : (files.map Leftover.hex).Nodup)
    (fresh : ∀ file ∈ files, index.entries.lookup file.hex = none)
    : let after :=
        files.foldl
          (fun index file =>
            { entries :=
                index.entries.insert file.hex ⟨file.content.length, index.clock + 1, 0⟩
              bytes := index.bytes + file.content.length
              clock := index.clock + 1 })
          index
      after.Counted
      ∧ ∀ hex entry, after.entries.lookup hex = some entry
        → index.entries.lookup hex = some entry
          ∨ entry.pins = 0 ∧ ∃ file ∈ files, file.hex = hex := by
  induction files generalizing index with
  | nil => exact ⟨counted, fun hex entry found => .inl found⟩
  | cons file files ih =>
      obtain ⟨new, nodup⟩ := List.nodup_cons.mp nodup
      have absent := fresh file List.mem_cons_self
      have counted'
          : Index.Counted
              ⟨index.entries.insert file.hex ⟨file.content.length, index.clock + 1, 0⟩,
                index.bytes + file.content.length, index.clock + 1⟩ := by
        dsimp only [Index.Counted]
        rw [Tallies.total_insert, Tallies.total_erase_absent absent, counted, Nat.add_comm]
      obtain ⟨right, entries⟩ := ih counted' nodup (by
        intro other member
        dsimp only
        rw [Tallies.lookup_insert, if_neg]
        · exact fresh other (List.mem_cons_of_mem _ member)
        · intro same
          exact new (same ▸ List.mem_map_of_mem member))
      refine ⟨right, fun hex entry found => ?_⟩
      rcases entries hex entry found with old | ⟨unpinned, other, member, same⟩
      · dsimp only at old
        rw [Tallies.lookup_insert] at old
        split at old
        · rename_i same
          cases old
          exact .inr ⟨rfl, file, List.mem_cons_self, same.symm⟩
        · exact .inl old
      · exact .inr ⟨unpinned, other, List.mem_cons_of_mem _ member, same⟩

/-- What a previous daemon may leave: each file under its own name, and each adopted one hashing
to it.
-/
structure Adoptable (digests : Digests) (listing : List Leftover) : Prop where
  distinct : ((listing.filter Leftover.adopted).map Leftover.hex).Nodup
  verified
    : ∀ file ∈ listing, file.adopted = true → Verifies digests file.hex file.content

/-- A cache that has just been opened is sound, and nothing is pinned or in flight. -/
theorem opened_sound {listing : List Leftover} (adoptable : Adoptable digests listing)
    (quota : Nat)
    : (World.opened quota listing).Sound digests
      ∧ (World.opened quota listing).Placed digests
      ∧ (World.opened quota listing).Pinned
      ∧ (World.opened quota listing).Owned := by
  obtain ⟨counted, entries⟩ := @adopt_fold (listing.filter Leftover.adopted) .empty rfl
    adoptable.distinct (fun _ _ => rfl)
  have adopted : ∀ hex entry,
      (adoptExisting listing).entries.lookup hex = some entry
      → entry.pins = 0 ∧ ∃ content, adoptedFiles listing hex = some content := by
    intro hex entry found
    rcases entries hex entry found with old | ⟨unpinned, file, member, same⟩
    · cases old
    · refine ⟨unpinned, Option.isSome_iff_exists.mp ?_⟩
      rw [adoptedFiles, Option.isSome_map, List.find?_isSome]
      exact ⟨file, member, decide_eq_true same⟩
  have files : ∀ hex content, adoptedFiles listing hex = some content
      → Verifies digests hex content := by
    intro hex content found
    obtain ⟨file, first, rfl⟩ := Option.map_eq_some_iff.mp found
    obtain ⟨member, right⟩ := List.mem_filter.mp (List.mem_of_find?_eq_some first)
    have same : file.hex = hex := by simpa using List.find?_some first
    exact same ▸ adoptable.verified file member right
  refine ⟨⟨counted, files, ?_, ?_, ?_⟩, ?_, ⟨?_, ?_⟩, ?_⟩
  · exact fun place task found => by cases found
  · exact fun task member => absurd member List.not_mem_nil
  · exact fun task member => absurd member List.not_mem_nil
  · intro hex entry found
    obtain ⟨-, content, held⟩ := adopted hex entry found
    exact ⟨content, held, files hex content held⟩
  · exact fun hex entry found => (adopted hex entry found).1
  · exact fun hex opened => absurd opened (Nat.lt_irrefl 0)
  · exact fun hex place found => by cases found

/-- Every state of a run of calls, evictions, cancellations and releases counts its bytes right,
evicts in order and within the quota, and keeps only files that hash to their names. An entry has
its file in every state exactly if no renamed file is evicted before it is recorded. Where that
is so, the pins are the open handles in every state exactly if nothing is published over an open
object. And every registration is that of a running call in every state exactly if no call is
dropped while it fetches. Witness: `sample_cache`.
-/
theorem run_cache (quota : Nat) {listing : List Leftover} (adoptable : Adoptable digests listing)
    (events : List Event)
    : let run := Runs.states (World.step digests) (World.opened quota listing) events
      let along := fun allowed =>
        Runs.Along (World.step digests) allowed (World.opened quota listing) events
      (∀ world ∈ run,
        world.cache.index.bytes = Tallies.total Entry.size world.cache.index.entries
        ∧ ∀ hex entry, world.cache.index.entries.lookup hex = some entry
          → entry.size ≤ world.cache.index.bytes)
      ∧ (∀ world ∈ run, world.EvictsInOrder)
      ∧ (∀ world ∈ run, ∀ hex content, world.cache.files hex = some content
        → Verifies digests hex content)
      ∧ ((∀ world ∈ run, world.Placed digests) ↔ along World.InPlace)
      ∧ (along World.InPlace → ((∀ world ∈ run, world.Pinned) ↔ along World.Unopened))
      ∧ ((∀ world ∈ run, world.Owned) ↔ along World.Undropped) := by
  obtain ⟨start, placed, pinned, owned⟩ := opened_sound adoptable quota
  have free : ∀ start, Runs.Along (World.step digests) (fun _ _ => True) start events :=
    fun start => Runs.Along.of_mem (fun _ _ _ => trivial) start
  have sound := @Runs.invariant _ _ (World.step digests) (fun _ _ => True) (World.Sound digests)
    (fun _ event right _ => World.Sound.step right event) _ events start (free _)
  refine ⟨fun world member => ?_, fun world _ removes removable => ?_,
    fun world member => (sound world member).files, ?_, fun inPlace => ?_, ?_⟩
  · have counted := (sound world member).counted
    refine ⟨counted, fun hex entry found => ?_⟩
    rw [counted]
    exact Tallies.weight_le_total found
  · exact evictToQuota_order world.cache.quota world.cache.index world.cache.files removable
  · exact @Runs.invariant_iff _ _ (World.step digests) (fun _ _ => True) World.InPlace
      (World.Sound digests) (World.Placed digests)
      (fun _ event right _ => World.Sound.step right event)
      (fun world event right _ there => right.placed_step there event)
      _ events start placed (free _)
  · exact @Runs.invariant_iff _ _ (World.step digests) World.InPlace World.Unopened
      (fun world => world.Sound digests ∧ world.Placed digests) World.Pinned
      (fun world event right there =>
        ⟨right.1.step event, (right.1.placed_step right.2 event).mpr there⟩)
      (fun world event right there kept => right.1.pinned_step right.2 kept there)
      _ events ⟨start, placed⟩ pinned inPlace
  · exact @Runs.invariant_iff _ _ (World.step digests) (fun _ _ => True) World.Undropped
      (World.Sound digests) World.Owned
      (fun _ event right _ => World.Sound.step right event)
      (fun world event right _ kept => right.owned_step kept event)
      _ events start owned (free _)

end Runs

-- Overlapping calls

/-- The SHA-1 digests of two Git blobs, the empty one and one of a line. -/
def knownDigests : Digests where
  sha1 bytes :=
    if bytes = blobFrame 0 then
      [0xe6, 0x9d, 0xe2, 0x9b, 0xb2, 0xd1, 0xd6, 0x43, 0x4b, 0x8b, 0x29, 0xae, 0x77, 0x5a, 0xd8,
        0xc2, 0xe4, 0x8c, 0x53, 0x91]
    else
      [0xce, 0x01, 0x36, 0x25, 0x03, 0x0b, 0xa8, 0xdb, 0xa9, 0x06, 0xf7, 0x56, 0x96, 0x7f, 0x9e,
        0x9c, 0xa3, 0x94, 0x46, 0x4a]
  sha256 _ := []

/-- `hello` and a line feed. -/
def line : Bytes := [104, 101, 108, 108, 111, 10]

private def emptyBlob : ObjectId := ⟨.sha1, knownDigests.sha1 (blobFrame 0)⟩

private def lineBlob : ObjectId := ⟨.sha1, knownDigests.sha1 (blobFrame 6 ++ line)⟩

/-- The server answers with bytes, and every file operation succeeds. -/
def answering (bytes : Bytes) : Surroundings :=
  ⟨.ok bytes, true, none, fun _ => true⟩

/-- A call takes some steps. -/
def steps (task count : Nat) (bytes : Bytes) : List Event :=
  List.replicate count (.advance task (answering bytes))

/-- A cache that adopts the empty blob and fetches the other one. -/
theorem sample_cache
    : let listing : List Leftover :=
        [⟨"e6".toList, "9de29bb2d1d6434b8b29ae775ad8c2e48c5391".toList, []⟩]
      let events := Event.call .openBlob lineBlob :: steps 0 9 line
      (∀ world ∈ Runs.states (World.step knownDigests) (World.opened 5 listing) events,
          world.cache.index.bytes = Tallies.total Entry.size world.cache.index.entries)
      ∧ ((∀ world ∈ Runs.states (World.step knownDigests) (World.opened 5 listing) events,
            world.Owned)
        ↔ Runs.Along (World.step knownDigests) World.Undropped (World.opened 5 listing)
            events) := by
  have adoptable
      : Adoptable knownDigests
          [⟨"e6".toList, "9de29bb2d1d6434b8b29ae775ad8c2e48c5391".toList, []⟩] :=
    ⟨by decide, fun file member _ =>
      ⟨emptyBlob, by rw [List.mem_singleton.mp member]; decide,
        by rw [List.mem_singleton.mp member]; decide⟩⟩
  have right := run_cache 5 adoptable (Event.call .openBlob lineBlob :: steps 0 9 line)
  exact ⟨fun world member => (right.1 world member).1, right.2.2.2.2.2⟩

/-- Two calls miss the object before either registers, and the second one fetches it again after
a third has opened it.
-/
def overlappingFetches : List Event :=
  [.call .ensureCached emptyBlob, .call .ensureCached emptyBlob] ++ steps 0 1 [] ++ steps 1 1 []
    ++ steps 0 7 [] ++ [.call .openBlob emptyBlob] ++ steps 2 2 [] ++ steps 1 5 []

/-- Another object's eviction falls between the second fetch's rename and its record. -/
def evictedBetween : List Event :=
  [.call .ensureCached emptyBlob, .call .ensureCached emptyBlob] ++ steps 0 1 [] ++ steps 1 1 []
    ++ steps 0 7 [] ++ steps 1 4 [] ++ [.call .ensureCached lineBlob] ++ steps 2 7 line
    ++ steps 1 1 []

/-- A call is dropped while it fetches. -/
def droppedFetch : List Event :=
  [.call .ensureCached emptyBlob] ++ steps 0 2 [] ++ [.cancel 0]

/-- The second fetch takes the pin of the open handle away, an entry is left without its file, and
a dropped fetch leaves its registration behind for ever.
-/
theorem overlaps_lose_pins_files_and_registrations
    : ¬(overlappingFetches.foldl (World.step knownDigests) (World.opened 100 [])).Pinned
      ∧ ¬(evictedBetween.foldl (World.step knownDigests) (World.opened 5 [])).Placed knownDigests
      ∧ ¬(droppedFetch.foldl (World.step knownDigests) (World.opened 100 [])).Owned := by
  refine ⟨fun pinned => ?_, fun placed => ?_, fun owned => ?_⟩
  · exact absurd (pinned.1 (toHex emptyBlob.raw) ⟨0, 6, 0⟩ (by decide)) (by decide)
  · obtain ⟨content, held, -⟩ := placed (toHex emptyBlob.raw) ⟨0, 6, 0⟩ (by decide)
    exact absurd (congrArg Option.isNone held) (by rw [Option.isNone_some]; decide)
  · obtain ⟨task, found, -, registered⟩ := owned (toHex emptyBlob.raw) 0 (by decide)
    exact absurd (congrArg (Option.map (fun task => task.phase.registered)) found)
      (by rw [Option.map_some, registered]; decide)

end Gfs.Mount.Cache
