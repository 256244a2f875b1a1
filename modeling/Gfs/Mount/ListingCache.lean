import Gfs.Git.Pages
import Gfs.Lib.Checked
import Gfs.Lib.Tallies

/-! The cache of the base tree's directory listings (`gfs-mount/src/listing.rs`): complete listings
by directory path, bounded in directories and in entries, the least recently used dropped first.
-/

namespace Gfs.Mount.ListingCache

open Gfs.Types
open Gfs.Lib.Checked
open Gfs.Lib.Tallies

-- The source

/-- The last component of the entry's path. -/
def nameOf (entry : Git.TreeEntryInfo) : Bytes :=
  entry.path.fileName.getD []

/-- A directory's complete base listing, with a by-name index. -/
structure Listing where
  entries : List Git.TreeEntryInfo
  byName : AList fun _ : Bytes => Nat

/-- Build from the concatenation of every page of a directory. -/
def Listing.new (entries : List Git.TreeEntryInfo) : Listing where
  entries := entries
  byName := entries.zipIdx.foldl (fun index entry => index.insert (nameOf entry.1) entry.2) ∅

/-- The entry for a child name. -/
def Listing.get (listing : Listing) (name : Bytes) : Option Git.TreeEntryInfo :=
  (listing.byName.lookup name).bind fun i => listing.entries[i]?

structure Slot where
  listing : Listing
  used : Nat

/-- How many entries a slot holds. -/
def Slot.count (slot : Slot) : Nat :=
  slot.listing.entries.length

/-- The listings that are held, the entries across them, and the clock. -/
structure Slots where
  dirs : AList fun _ : Bytes => Slot
  entries : Nat
  clock : Nat

/-- The two bounds of a cache. -/
structure Capacity where
  dirs : Nat
  entries : Nat

/-- `ListingCache::new`: neither bound is zero. -/
def Capacity.new (capacityDirs capacityEntries : Nat) : Capacity where
  dirs := max capacityDirs 1
  entries := max capacityEntries 1

namespace Slots

def new : Slots where
  dirs := ∅
  entries := 0
  clock := 0

/-- How many directories are held. -/
def len (slots : Slots) : Nat :=
  slots.dirs.entries.length

def get (slots : Slots) (dir : BytePath) : Option Listing × Slots :=
  let clock := slots.clock + 1
  match slots.dirs.lookup dir with
  | none => (none, { slots with clock })
  | some slot =>
      (some slot.listing,
        { slots with clock, dirs := slots.dirs.insert dir { slot with used := clock } })

/-- The loop of `trim`, down the slots by age. -/
def trimTo (target : Capacity) : List (Nat × Bytes) → Slots → Option Slots
  | [], slots => some slots
  | (_, path) :: byAge, slots =>
      if slots.len ≤ target.dirs ∧ slots.entries ≤ target.entries then some slots
      else
        match slots.dirs.lookup path with
        | none => trimTo target byAge slots
        | some slot => do
            let entries ← checkedSub slots.entries slot.count
            trimTo target byAge { slots with dirs := slots.dirs.erase path, entries }

/-- Every slot's age and path, the oldest first. -/
def byAge (slots : Slots) : List (Nat × Bytes) :=
  (slots.dirs.entries.map fun entry => (entry.2.used, entry.1)).mergeSort
    fun a b => decide (a.1 ≤ b.1)

/-- Drop the coldest slots until both bounds have headroom again. -/
def trim (capacity : Capacity) (slots : Slots) : Option Slots :=
  slots.trimTo ⟨capacity.dirs * 9 / 10, capacity.entries * 9 / 10⟩ slots.byAge

/-- The counter without the listing that an insertion replaces. -/
def withoutReplaced (slots : Slots) (dir : BytePath) : Option Nat :=
  match slots.dirs.lookup dir with
  | some replaced => checkedSub slots.entries replaced.count
  | none => some slots.entries

/-- What `insert` does before it trims. -/
def put (slots : Slots) (dir : BytePath) (listing : Listing) : Option Slots := do
  let clock := slots.clock + 1
  let added := listing.entries.length
  let entries ← slots.withoutReplaced dir
  some ⟨slots.dirs.insert dir ⟨listing, clock⟩, entries + added, clock⟩

def insert (capacity : Capacity) (slots : Slots) (dir : BytePath) (listing : Listing)
    : Option Slots := do
  let slots ← slots.put dir listing
  if slots.len > capacity.dirs ∨ slots.entries > capacity.entries then slots.trim capacity
  else some slots

end Slots

-- One listing

/-- The index knows of every name, and leads to an entry of it. -/
theorem byName_new (entries : List Git.TreeEntryInfo) (name : Bytes)
    : (∀ i, (Listing.new entries).byName.lookup name = some i
        → ∃ entry, entries[i]? = some entry ∧ nameOf entry = name)
      ∧ ((Listing.new entries).byName.lookup name = none → name ∉ entries.map nameOf) := by
  induction entries using List.reverseRecOn with
  | nil => simp [Listing.new]
  | append_singleton entries last ih =>
      have next
          : (Listing.new (entries ++ [last])).byName
            = (Listing.new entries).byName.insert (nameOf last) entries.length := by
        rw [Listing.new, Listing.new, List.zipIdx_append, List.foldl_append]
        simp
      rw [next, lookup_insert]
      split
      · rename_i same
        refine ⟨?_, nofun⟩
        rintro i ⟨⟩
        exact ⟨last, by simp, same.symm⟩
      · rename_i differ
        constructor
        · intro i found
          obtain ⟨entry, at_, named⟩ := ih.1 i found
          refine ⟨entry, ?_, named⟩
          rw [List.getElem?_append_left (List.getElem?_eq_some_iff.mp at_).1, at_]
        · intro absent
          rw [List.map_append, List.mem_append, not_or]
          exact ⟨ih.2 absent, by simpa using differ⟩

/-- A listing answers for a name with its entry, and without one only where it has none. -/
theorem get_new {entries : List Git.TreeEntryInfo} (distinct : (entries.map nameOf).Nodup)
    (name : Bytes)
    : (Listing.new entries).get name = entries.find? (fun entry => nameOf entry = name) := by
  have index := byName_new entries name
  rw [Listing.get]
  cases found : (Listing.new entries).byName.lookup name with
  | none =>
      rw [Option.bind_none]
      refine (List.find?_eq_none.mpr ?_).symm
      intro entry member same
      exact index.2 found (List.mem_map.mpr ⟨entry, member, of_decide_eq_true same⟩)
  | some i =>
      obtain ⟨entry, at_, named⟩ := index.1 i found
      rw [Option.bind_some]
      change entries[i]? = _
      rw [at_]
      have member := List.mem_of_getElem? at_
      cases other : entries.find? (fun entry => nameOf entry = name) with
      | none => exact absurd (decide_eq_true named) (List.find?_eq_none.mp other entry member)
      | some first =>
          have same : nameOf first = name := by simpa using List.find?_some other
          exact congrArg some (List.inj_on_of_nodup_map distinct member
            (List.mem_of_find?_eq_some other) (named.trans same.symm))

-- The slots

namespace Slots

/-- The listing that is held for a directory. -/
def held (slots : Slots) (dir : BytePath) : Option Listing :=
  (slots.dirs.lookup dir).map Slot.listing

/-- The counter counts, and no two slots were last used at one time. -/
structure Tidy (slots : Slots) : Prop where
  counted : slots.entries = total Slot.count slots.dirs
  past : ∀ dir slot, slots.dirs.lookup dir = some slot → slot.used ≤ slots.clock
  apart
    : ∀ dir dir' slot slot',
        slots.dirs.lookup dir = some slot
        → slots.dirs.lookup dir' = some slot'
        → slot.used = slot'.used
        → dir = dir'

/-- Both bounds are kept. -/
def Fits (capacity : Capacity) (slots : Slots) : Prop :=
  slots.len ≤ capacity.dirs ∧ slots.entries ≤ capacity.entries

theorem tidy_new : new.Tidy where
  counted := rfl
  past := nofun
  apart := nofun

variable {slots : Slots} {capacity : Capacity}

theorem len_eq (slots : Slots)
    : slots.len = total (fun _ => 1) slots.dirs := by
  rw [len, total, List.map_const', List.sum_replicate, smul_eq_mul, Nat.mul_one]

theorem Tidy.count_le (tidy : slots.Tidy) {dir : BytePath} {slot : Slot}
    (found : slots.dirs.lookup dir = some slot)
    : slot.count ≤ slots.entries := by
  rw [tidy.counted]
  exact weight_le_total found

/-- The slots that the clock is turned for and that one is used of, or put. -/
theorem Tidy.touch (tidy : slots.Tidy) (dir : BytePath) (listing : Listing) {entries : Nat}
    (counted : entries = listing.entries.length + total Slot.count (slots.dirs.erase dir))
    : Tidy ⟨slots.dirs.insert dir ⟨listing, slots.clock + 1⟩, entries, slots.clock + 1⟩ where
  counted := by
    rw [total_insert, counted]
    rfl
  past := by
    intro other slot found
    rw [lookup_insert] at found
    split at found
    · cases found
      exact Nat.le_refl _
    · exact Nat.le_succ_of_le (tidy.past other slot found)
  apart := by
    intro first second slot slot' found found' same
    rw [lookup_insert] at found found'
    split at found
    · rename_i here
      split at found'
      · rename_i here'
        exact here.trans here'.symm
      · cases found
        have before := tidy.past second slot' found'
        rw [← same] at before
        exact absurd before (Nat.not_succ_le_self _)
    · split at found'
      · cases found'
        have before := tidy.past first slot found
        rw [same] at before
        exact absurd before (Nat.not_succ_le_self _)
      · exact tidy.apart first second slot slot' found found' same

/-- A lookup answers with what is held, and changes nothing but ages. -/
theorem Tidy.get (tidy : slots.Tidy) (dir : BytePath)
    : (slots.get dir).1 = slots.held dir
      ∧ (slots.get dir).2.Tidy
      ∧ (slots.get dir).2.held = slots.held
      ∧ (slots.get dir).2.len = slots.len
      ∧ (slots.get dir).2.entries = slots.entries := by
  rw [Slots.get, held]
  cases found : slots.dirs.lookup dir with
  | none =>
      refine ⟨rfl, ⟨tidy.counted, ?_, tidy.apart⟩, rfl, rfl, rfl⟩
      exact fun other slot held => Nat.le_succ_of_le (tidy.past other slot held)
  | some slot =>
      refine ⟨rfl, tidy.touch dir slot.listing ?_, ?_, ?_, rfl⟩
      · rw [tidy.counted, total_erase found]
        rfl
      · funext other
        rw [held, held]
        dsimp only
        rw [lookup_insert]
        split
        · rename_i same
          rw [same, found]
          rfl
        · rfl
      · rw [len_eq, len_eq, total_erase found, total_insert]

/-- A directory's slot comes to be used after all others, which stay as they are. -/
def Touches (before : Slots) (dir : BytePath) (after : Slots) : Prop :=
  (∃ slot,
    after.dirs.lookup dir = some slot
    ∧ ∀ other otherSlot,
        other ≠ dir → after.dirs.lookup other = some otherSlot → otherSlot.used < slot.used)
  ∧ ∀ other, other ≠ dir → after.dirs.lookup other = before.dirs.lookup other

theorem Tidy.touches (tidy : slots.Tidy) (dir : BytePath) (listing : Listing) (entries : Nat)
    : slots.Touches dir
        ⟨slots.dirs.insert dir ⟨listing, slots.clock + 1⟩, entries, slots.clock + 1⟩ := by
  have others
      : ∀ other,
          other ≠ dir
          → (slots.dirs.insert dir ⟨listing, slots.clock + 1⟩).lookup other
            = slots.dirs.lookup other := by
    intro other apart
    rw [lookup_insert, if_neg apart]
  refine ⟨⟨⟨listing, slots.clock + 1⟩, ?_, ?_⟩, others⟩
  · rw [lookup_insert, if_pos rfl]
  · intro other slot apart found
    rw [others other apart] at found
    exact Nat.lt_succ_of_le (tidy.past other slot found)

theorem Tidy.get_touches (tidy : slots.Tidy) (dir : BytePath)
    : if (slots.get dir).1.isSome then slots.Touches dir (slots.get dir).2
      else (slots.get dir).2.dirs = slots.dirs := by
  rw [Slots.get]
  cases found : slots.dirs.lookup dir with
  | none => rfl
  | some slot => exact tidy.touches dir slot.listing slots.entries

theorem Tidy.put_touches (tidy : slots.Tidy) {dir : BytePath} {listing : Listing}
    {touched : Slots} (put : slots.put dir listing = some touched)
    : slots.Touches dir touched := by
  obtain ⟨entries, -, same⟩ := Option.bind_eq_some_iff.mp put
  cases same
  exact tidy.touches dir listing _

-- Trimming

/-- What was used since some time is left of the slots, and nothing else. -/
def Since (slots : Slots) (time : Nat) (left : Slots) : Prop :=
  left.clock = slots.clock
  ∧ ∀ dir, left.dirs.lookup dir = (slots.dirs.lookup dir).filter (fun slot => time ≤ slot.used)

/-- The slots by age: exactly those that are held, no two of one age. -/
structure ByAge (slots : Slots) (byAge : List (Nat × Bytes)) : Prop where
  sorted : byAge.Pairwise (fun a b => a.1 < b.1)
  all
    : ∀ used dir,
        (used, dir) ∈ byAge ↔ ∃ slot, slots.dirs.lookup dir = some slot ∧ slot.used = used

theorem mem_byAge (used : Nat) (dir : Bytes)
    : (used, dir) ∈ slots.byAge ↔ ∃ slot, slots.dirs.lookup dir = some slot ∧ slot.used = used := by
  rw [byAge, List.mem_mergeSort, List.mem_map]
  constructor
  · rintro ⟨⟨other, slot⟩, member, same⟩
    cases same
    exact ⟨slot, mem_entries.mp member, rfl⟩
  · rintro ⟨slot, found, rfl⟩
    exact ⟨⟨dir, slot⟩, mem_entries.mpr found, rfl⟩

/-- Slots whose ages are apart are sorted by age. -/
theorem Tidy.byAge (tidy : slots.Tidy) : slots.ByAge slots.byAge where
  sorted := by
    have ordered : slots.byAge.Pairwise (fun a b => a.1 ≤ b.1) := by
      have sorted := @List.pairwise_mergeSort _ (fun a b : Nat × Bytes => decide (a.1 ≤ b.1))
        (fun a b c left right => by
          simp only [decide_eq_true_eq] at left right ⊢
          exact left.trans right)
        (fun a b => by
          simp only [Bool.or_eq_true, decide_eq_true_eq]
          exact Nat.le_total a.1 b.1)
        (slots.dirs.entries.map fun entry => (entry.2.used, entry.1))
      exact sorted.imp (fun before => of_decide_eq_true before)
    have once : slots.byAge.Nodup := by
      refine (List.mergeSort_perm _ _).nodup_iff.mpr ?_
      have keys : (slots.dirs.entries.map Sigma.fst).Nodup := slots.dirs.nodupKeys
      exact List.Nodup.of_map Prod.snd (by rw [List.map_map]; exact keys)
    refine (ordered.and once).imp_of_mem ?_
    rintro ⟨used, dir⟩ ⟨used', dir'⟩ first second ⟨before, differ⟩
    obtain ⟨slot, found, rfl⟩ := (mem_byAge used dir).mp first
    obtain ⟨slot', found', rfl⟩ := (mem_byAge used' dir').mp second
    refine Nat.lt_of_le_of_ne before ?_
    intro same
    cases tidy.apart dir dir' slot slot' found found' same
    cases found.symm.trans found'
    exact differ rfl
  all := mem_byAge

/-- The loop goes down the slots without an underflow, until both bounds are kept. -/
theorem Tidy.trimTo {target : Capacity} (tidy : slots.Tidy) {byAge : List (Nat × Bytes)}
    (ages : slots.ByAge byAge)
    : ∃ left, slots.trimTo target byAge = some left
        ∧ left.Tidy
        ∧ left.Fits target
        ∧ ∃ time, slots.Since time left := by
  induction byAge generalizing slots with
  | nil =>
      have none_ : ∀ dir, slots.dirs.lookup dir = none := by
        intro dir
        by_contra held
        obtain ⟨slot, found⟩ := Option.ne_none_iff_exists'.mp held
        exact nomatch (ages.all slot.used dir).mpr ⟨slot, found, rfl⟩
      have empty : slots.dirs.entries = [] := by
        refine List.eq_nil_iff_forall_not_mem.mpr ?_
        rintro ⟨dir, slot⟩ member
        cases (none_ dir).symm.trans (mem_entries.mp member)
      refine ⟨slots, rfl, tidy, ?_, 0, rfl, ?_⟩
      · rw [Fits, tidy.counted, len, total, empty]
        exact ⟨Nat.zero_le _, Nat.zero_le _⟩
      · intro dir
        rw [none_ dir]
        rfl
  | cons oldest byAge ih =>
      obtain ⟨used, path⟩ := oldest
      obtain ⟨slot, found, rfl⟩ := (ages.all used path).mp List.mem_cons_self
      obtain ⟨oldest, later⟩ := List.pairwise_cons.mp ages.sorted
      rw [Slots.trimTo]
      split
      · rename_i fits
        refine ⟨slots, rfl, tidy, fits, 0, rfl, ?_⟩
        intro dir
        cases slots.dirs.lookup dir with
        | none => rfl
        | some slot => rfl
      · have fewer : { slots with
            dirs := slots.dirs.erase path, entries := slots.entries - slot.count }.Tidy := by
          refine ⟨?_, ?_, ?_⟩
          · have whole := tidy.counted
            rw [total_erase found] at whole
            change slots.entries - slot.count = _
            rw [whole, Nat.add_sub_cancel_left]
          · intro dir other held
            dsimp only at held
            rw [lookup_erase] at held
            split at held
            · cases held
            · exact tidy.past dir other held
          · intro dir dir' first second held held'
            dsimp only at held held'
            rw [lookup_erase] at held held'
            split at held
            · cases held
            · split at held'
              · cases held'
              · exact tidy.apart dir dir' first second held held'
        obtain ⟨left, ran, tidied, fits, time, clock, since⟩ := ih fewer (by
          refine ⟨later, ?_⟩
          intro used dir
          dsimp only
          rw [lookup_erase]
          constructor
          · intro member
            obtain ⟨other, held, rfl⟩ := (ages.all used dir).mp (List.mem_cons_of_mem _ member)
            split
            · rename_i same
              subst same
              cases found.symm.trans held
              exact absurd (oldest _ member) (Nat.lt_irrefl _)
            · exact ⟨other, held, rfl⟩
          · rintro ⟨other, held, rfl⟩
            split at held
            · cases held
            · rename_i differ
              rcases List.mem_cons.mp ((ages.all _ dir).mpr ⟨other, held, rfl⟩) with same | member
              · exact absurd (congrArg Prod.snd same) differ
              · exact member)
        refine ⟨left, ?_, tidied, fits, max time (slot.used + 1), clock, ?_⟩
        · rw [found]
          dsimp only
          rw [checkedSub_of_le (tidy.count_le found)]
          exact ran
        · intro dir
          rw [since dir]
          dsimp only
          rw [lookup_erase]
          split
          · rename_i same
            rw [same, found, Option.filter_some, decide_eq_false (by omega)]
            rfl
          · rename_i differ
            cases held : slots.dirs.lookup dir with
            | none => rfl
            | some other =>
                have newer : slot.used < other.used := by
                  rcases List.mem_cons.mp ((ages.all _ dir).mpr ⟨other, held, rfl⟩) with
                    same | member
                  · exact absurd (congrArg Prod.snd same) differ
                  · exact oldest _ member
                have same : max time (slot.used + 1) ≤ other.used ↔ time ≤ other.used := by omega
                rw [Option.filter_some, Option.filter_some, decide_eq_decide.mpr same]

theorem Tidy.trim (tidy : slots.Tidy)
    : ∃ left, slots.trim capacity = some left
        ∧ left.Tidy
        ∧ left.Fits capacity
        ∧ ∃ time, slots.Since time left := by
  obtain ⟨left, ran, tidied, fits, since⟩ :=
    @Tidy.trimTo slots ⟨capacity.dirs * 9 / 10, capacity.entries * 9 / 10⟩ tidy slots.byAge
      tidy.byAge
  refine ⟨left, ran, tidied, ⟨fits.1.trans ?_, fits.2.trans ?_⟩, since⟩
  · change capacity.dirs * 9 / 10 ≤ _
    omega
  · change capacity.entries * 9 / 10 ≤ _
    omega

theorem Tidy.withoutReplaced (tidy : slots.Tidy) (dir : BytePath)
    : slots.withoutReplaced dir = some (total Slot.count (slots.dirs.erase dir)) := by
  rw [Slots.withoutReplaced]
  cases found : slots.dirs.lookup dir with
  | none => rw [total_erase_absent found, tidy.counted]
  | some replaced =>
      dsimp only
      rw [checkedSub_of_le (tidy.count_le found), tidy.counted, total_erase found,
        Nat.add_sub_cancel_left]

theorem Tidy.put (tidy : slots.Tidy) (dir : BytePath) (listing : Listing)
    : ∃ touched, slots.put dir listing = some touched
        ∧ touched.Tidy
        ∧ ∀ other kept, touched.held other = some kept
            → other = dir ∧ kept = listing ∨ slots.held other = some kept := by
  refine ⟨_, by rw [Slots.put, tidy.withoutReplaced]; rfl,
    tidy.touch dir listing (Nat.add_comm _ _), ?_⟩
  intro other kept found
  rw [held] at found
  dsimp only at found
  rw [lookup_insert] at found
  split at found
  · rename_i same
    cases found
    exact .inl ⟨same, rfl⟩
  · exact .inr found

/-- An insertion keeps both bounds, and what is held after it was put or was held before. -/
theorem Tidy.insert (tidy : slots.Tidy) (capacity : Capacity) (dir : BytePath) (listing : Listing)
    : ∃ after, slots.insert capacity dir listing = some after
        ∧ after.Tidy
        ∧ after.Fits capacity
        ∧ ∀ other kept, after.held other = some kept
            → other = dir ∧ kept = listing ∨ slots.held other = some kept := by
  obtain ⟨touched, did, tidied, put⟩ := tidy.put dir listing
  rw [Slots.insert, did]
  dsimp only [Option.bind_eq_bind, Option.bind_some]
  split
  · obtain ⟨left, ran, tidied, fits, time, -, since⟩ := @Tidy.trim _ capacity tidied
    refine ⟨left, ran, tidied, fits, ?_⟩
    intro other kept found
    apply put
    rw [held, since other, Option.map_eq_some_iff] at found
    obtain ⟨slot, found, rfl⟩ := found
    rw [held, (Option.filter_eq_some_iff.mp found).1]
    rfl
  · rename_i within
    rw [not_or, Nat.not_lt, Nat.not_lt] at within
    exact ⟨_, rfl, tidied, within, put⟩

/-- A trim drops a slot only with those that were used less recently, and changes none it keeps. -/
def OldestFirst (before left : Slots) : Prop :=
  (∀ dir slot, left.dirs.lookup dir = some slot → before.dirs.lookup dir = some slot)
  ∧ ∀ dir older slot olderSlot,
      before.dirs.lookup dir = some slot
      → before.dirs.lookup older = some olderSlot
      → olderSlot.used < slot.used
      → left.dirs.lookup dir = none
      → left.dirs.lookup older = none

theorem Since.oldestFirst {left : Slots} {time : Nat} (since : slots.Since time left)
    : slots.OldestFirst left := by
  constructor
  · intro dir slot found
    rw [since.2 dir] at found
    exact (Option.filter_eq_some_iff.mp found).1
  · intro dir older slot olderSlot found foundOlder before dropped
    rw [since.2, found, Option.filter_some] at dropped
    rw [since.2, foundOlder, Option.filter_some]
    split at dropped
    · cases dropped
    · rename_i early
      rw [decide_eq_true_eq] at early
      rw [decide_eq_false (by omega)]
      rfl

end Slots

end Gfs.Mount.ListingCache
