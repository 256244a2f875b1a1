import Gfs.Search.Registry

/-! What holds of the registry in every state that any builders reach, stopping wherever they do.
A blob keeps its key, and what is marked as indexed is posted. Whether a READY snapshot has index
gaps depends on who else is about to post its blobs, and a blob's class on the path it was first
seen at.
-/

namespace Gfs.Search.Ingestion

open Gfs.Types
open Gfs.Search.Index
open Gfs.Search.Manifests (BlobFact)

-- The tables

namespace Tables

/-- Each object id has one row, and each row a key of its own that has been given out. -/
structure Keyed (tables : Tables) : Prop where
  oids : (tables.blobs.map BlobRow.oid).Nodup
  keys : (tables.blobs.map BlobRow.key).Nodup
  below : ∀ row ∈ tables.blobs, row.key < tables.nextKey

/-- The posting list of a trigram. -/
def posted (tables : Tables) (t : Nat) : Bitmap :=
  tables.postings[t]?.getD ∅

/-- An object id has a key. -/
def Named (tables : Tables) (oid : ObjectId) (key : BlobKey) : Prop :=
  ∃ row ∈ tables.blobs, row.oid = oid ∧ row.key = key

/-- The blob of a key has been examined. -/
def Classified (tables : Tables) (key : BlobKey) : Prop :=
  ∃ row ∈ tables.blobs, row.key = key ∧ row.class.isSome = true

/-- No row is lost or renamed, no class or mark is taken back, and no posting is lost. -/
structure Grows (before after : Tables) : Prop where
  rows
    : ∀ row ∈ before.blobs, ∃ row' ∈ after.blobs,
        row'.oid = row.oid
        ∧ row'.key = row.key
        ∧ (row.class.isSome = true → row'.class.isSome = true)
        ∧ (row.indexed = true → row'.indexed = true)
  postings : ∀ t, before.posted t ⊆ after.posted t

end Tables

section Tables

variable {tables before middle after : Tables} {key : BlobKey} {oid : ObjectId}

theorem Tables.Grows.refl (tables : Tables) : tables.Grows tables where
  rows row member := ⟨row, member, rfl, rfl, id, id⟩
  postings _ := Finset.Subset.refl _

theorem Tables.Grows.trans (first : before.Grows middle) (second : middle.Grows after)
    : before.Grows after where
  rows row member := by
    obtain ⟨next, listed, oid, key, kept, marked⟩ := first.rows row member
    obtain ⟨last, listed', oid', key', kept', marked'⟩ := second.rows next listed
    exact ⟨last, listed', oid'.trans oid, key'.trans key, kept' ∘ kept, marked' ∘ marked⟩
  postings t := (first.postings t).trans (second.postings t)

theorem Tables.Named.grows (named : before.Named oid key) (grows : before.Grows after)
    : after.Named oid key := by
  obtain ⟨row, member, rfl, rfl⟩ := named
  obtain ⟨row', member', same, sameKey, -, -⟩ := grows.rows row member
  exact ⟨row', member', same, sameKey⟩

theorem Tables.Classified.grows (classified : before.Classified key) (grows : before.Grows after)
    : after.Classified key := by
  obtain ⟨row, member, rfl, examined⟩ := classified
  obtain ⟨row', member', -, sameKey, kept, -⟩ := grows.rows row member
  exact ⟨row', member', sameKey, kept examined⟩

theorem Tables.Keyed.row_unique (keyed : tables.Keyed) {row other : BlobRow}
    (member : row ∈ tables.blobs) (member' : other ∈ tables.blobs) (same : row.key = other.key)
    : row = other :=
  List.inj_on_of_nodup_map keyed.keys member member' same

theorem Tables.Keyed.named_unique (keyed : tables.Keyed) {row : BlobRow}
    (member : row ∈ tables.blobs) (named : tables.Named oid row.key)
    : row.oid = oid := by
  obtain ⟨other, listed, rfl, same⟩ := named
  rw [keyed.row_unique member listed same.symm]

-- Interning

theorem Tables.internOne_spec (keyed : before.Keyed) {fact : BlobFact}
    (ran : before.internOne fact = .ok (after, key))
    : after.Keyed
      ∧ before.Grows after
      ∧ after.Named fact.oid key
      ∧ after.postings = before.postings
      ∧ ∀ row ∈ after.blobs, row ∈ before.blobs ∨ row.class = none ∧ row.indexed = false := by
  rw [Tables.internOne] at ran
  split at ran
  · rename_i row found
    cases ran
    have same : row.oid = fact.oid := by simpa using List.find?_some found
    exact ⟨keyed, .refl _, ⟨row, List.mem_of_find?_eq_some found, same, rfl⟩, rfl,
      fun row member => .inl member⟩
  · rename_i missing
    rw [toKey] at ran
    split at ran
    · cases ran
      have fresh : fact.oid ∉ before.blobs.map BlobRow.oid := by
        intro member
        obtain ⟨row, listed, same⟩ := List.mem_map.mp member
        have absent := List.find?_eq_none.mp missing row listed
        simp [same] at absent
      have unused : before.nextKey ∉ before.blobs.map BlobRow.key := by
        intro member
        obtain ⟨row, listed, same⟩ := List.mem_map.mp member
        exact absurd (keyed.below row listed) (by rw [same]; exact Nat.lt_irrefl _)
      refine ⟨⟨?_, ?_, ?_⟩, ⟨?_, fun _ => Finset.Subset.refl _⟩, ?_, rfl, ?_⟩
      · rw [List.map_append]
        exact List.nodup_append_comm.mp (List.nodup_cons.mpr ⟨fresh, keyed.oids⟩)
      · rw [List.map_append]
        exact List.nodup_append_comm.mp (List.nodup_cons.mpr ⟨unused, keyed.keys⟩)
      · intro row member
        rcases List.mem_append.mp member with old | new
        · exact Nat.lt_succ_of_lt (keyed.below row old)
        · rw [List.mem_singleton.mp new]
          exact Nat.lt_succ_self _
      · exact fun row member => ⟨row, List.mem_append_left _ member, rfl, rfl, id, id⟩
      · exact ⟨_, List.mem_append_right _ (List.mem_singleton_self _), rfl, rfl⟩
      · intro row member
        rcases List.mem_append.mp member with old | new
        · exact .inl old
        · rw [List.mem_singleton.mp new]
          exact .inr ⟨rfl, rfl⟩
    · cases ran

/-- Interning names every fact, and what it adds is neither classified nor indexed. -/
theorem Tables.intern_spec (keyed : before.Keyed) {facts : List BlobFact} {keys : List BlobKey}
    (ran : before.intern facts = .ok (after, keys))
    : after.Keyed
      ∧ before.Grows after
      ∧ List.Forall₂ (fun fact key => after.Named fact.oid key) facts keys
      ∧ after.postings = before.postings
      ∧ ∀ row ∈ after.blobs, row ∈ before.blobs ∨ row.class = none ∧ row.indexed = false := by
  induction facts generalizing before keys with
  | nil =>
      cases ran
      exact ⟨keyed, .refl _, .nil, rfl, fun row member => .inl member⟩
  | cons fact facts ih =>
      obtain ⟨⟨middle, key⟩, first, ran⟩ := bind_eq_ok.mp ran
      obtain ⟨⟨last, rest⟩, others, ran⟩ := bind_eq_ok.mp ran
      cases ran
      obtain ⟨keyed, grows, named, kept, added⟩ := internOne_spec keyed first
      obtain ⟨keyed, grows', all, kept', added'⟩ := ih keyed others
      refine ⟨keyed, grows.trans grows', .cons (named.grows grows') all, kept'.trans kept, ?_⟩
      intro row member
      rcases added' row member with old | new
      · exact added row old
      · exact .inr new

-- Updates

theorem Tables.Keyed.rewrite (keyed : before.Keyed) {change : BlobRow → BlobRow}
    (blobs : after.blobs = before.blobs.map change) (next : after.nextKey = before.nextKey)
    (kept : ∀ row, (change row).oid = row.oid ∧ (change row).key = row.key)
    : after.Keyed := by
  have oids : BlobRow.oid ∘ change = BlobRow.oid := funext fun row => (kept row).1
  have keys : BlobRow.key ∘ change = BlobRow.key := funext fun row => (kept row).2
  refine ⟨?_, ?_, ?_⟩
  · rw [blobs, List.map_map, oids]
    exact keyed.oids
  · rw [blobs, List.map_map, keys]
    exact keyed.keys
  · intro row member
    rw [blobs] at member
    obtain ⟨old, listed, rfl⟩ := List.mem_map.mp member
    rw [(kept old).2, next]
    exact keyed.below old listed

/-- Recording one class touches no key and no mark, and no other key's class. -/
theorem Tables.setClass_spec (keyed : before.Keyed) (update : BlobKey × ContentClass)
    : (before.setClass update).Keyed
      ∧ before.Grows (before.setClass update)
      ∧ (∀ row' ∈ (before.setClass update).blobs, ∃ row ∈ before.blobs,
          row'.oid = row.oid
          ∧ row'.key = row.key
          ∧ row'.indexed = row.indexed
          ∧ (row'.class = row.class ∧ row.key ≠ update.1
            ∨ row.key = update.1 ∧ row'.class = some update.2))
      ∧ (∀ row ∈ before.blobs, row.key = update.1
          → (before.setClass update).Classified update.1) := by
  refine ⟨keyed.rewrite rfl rfl fun row => ?_, ⟨?_, fun _ => Finset.Subset.refl _⟩, ?_, ?_⟩
  · split <;> exact ⟨rfl, rfl⟩
  · intro row member
    refine ⟨_, List.mem_map_of_mem member, ?_⟩
    split
    · exact ⟨rfl, rfl, fun _ => rfl, id⟩
    · exact ⟨rfl, rfl, id, id⟩
  · intro row' member
    obtain ⟨row, listed, rfl⟩ := List.mem_map.mp member
    refine ⟨row, listed, ?_⟩
    split
    · rename_i same
      exact ⟨rfl, rfl, rfl, .inr ⟨same, rfl⟩⟩
    · rename_i other
      exact ⟨rfl, rfl, rfl, .inl ⟨rfl, other⟩⟩
  · intro row member same
    refine ⟨_, List.mem_map_of_mem member, ?_, ?_⟩
    · split <;> exact same
    · rw [if_pos same]
      rfl

/-- Recording a batch's classes touches no key and no mark. A row whose key is in the batch gets
a class of it, and any other keeps its own.
-/
theorem Tables.applyClassifications_spec (keyed : before.Keyed)
    (updates : List (BlobKey × ContentClass))
    : (before.applyClassifications updates).Keyed
      ∧ before.Grows (before.applyClassifications updates)
      ∧ (before.applyClassifications updates).postings = before.postings
      ∧ (∀ row' ∈ (before.applyClassifications updates).blobs, ∃ row ∈ before.blobs,
          row'.oid = row.oid
          ∧ row'.key = row.key
          ∧ row'.indexed = row.indexed
          ∧ (row'.class = row.class ∧ row.key ∉ updates.map Prod.fst
            ∨ ∃ update ∈ updates, update.1 = row.key ∧ row'.class = some update.2))
      ∧ ∀ update ∈ updates, (∃ row ∈ before.blobs, row.key = update.1)
          → (before.applyClassifications updates).Classified update.1 := by
  induction updates generalizing before with
  | nil => exact ⟨keyed, .refl _, rfl, fun row member => ⟨row, member, rfl, rfl, rfl,
      .inl ⟨rfl, List.not_mem_nil⟩⟩, fun _ member => absurd member List.not_mem_nil⟩
  | cons update updates ih =>
      obtain ⟨keyed, grows, rows, examined⟩ := setClass_spec keyed update
      obtain ⟨keyed, grows', postings, rows', examined'⟩ := ih keyed
      refine ⟨keyed, grows.trans grows', postings, ?_, ?_⟩
      · intro last member
        obtain ⟨row', listed', oid', key', indexed', classes'⟩ := rows' last member
        obtain ⟨row, listed, oid, key, indexed, classes⟩ := rows row' listed'
        refine ⟨row, listed, oid'.trans oid, key'.trans key, indexed'.trans indexed, ?_⟩
        rcases classes' with ⟨kept', others⟩ | ⟨later, within, same, recorded⟩
        · rcases classes with ⟨kept, other⟩ | ⟨same, recorded⟩
          · refine .inl ⟨kept'.trans kept, ?_⟩
            rw [List.map_cons, List.mem_cons, not_or, ← key]
            exact ⟨key ▸ other, others⟩
          · exact .inr ⟨update, List.mem_cons_self, same.symm, kept'.trans recorded⟩
        · exact .inr ⟨later, List.mem_cons_of_mem _ within, same.trans key, recorded⟩
      · intro other member named
        obtain ⟨row, listed, same⟩ := named
        rcases List.mem_cons.mp member with rfl | later
        · exact (examined row listed same).grows grows'
        · obtain ⟨row', listed', -, sameKey, -, -⟩ := grows.rows row listed
          exact examined' other later ⟨row', listed', sameKey.trans same⟩

/-- Marking a batch touches no key and no class. -/
theorem Tables.markIndexed_spec (keyed : before.Keyed) (keys : List BlobKey)
    : (before.markIndexed keys).Keyed
      ∧ before.Grows (before.markIndexed keys)
      ∧ ∀ row' ∈ (before.markIndexed keys).blobs, ∃ row ∈ before.blobs,
          row'.oid = row.oid
          ∧ row'.key = row.key
          ∧ row'.class = row.class
          ∧ row'.indexed = (row.indexed || decide (row.key ∈ keys)) := by
  refine ⟨keyed.rewrite rfl rfl fun row => ?_, ⟨?_, fun _ => Finset.Subset.refl _⟩, ?_⟩
  · split <;> exact ⟨rfl, rfl⟩
  · intro row member
    refine ⟨_, List.mem_map_of_mem member, ?_⟩
    split
    · exact ⟨rfl, rfl, id, fun _ => rfl⟩
    · exact ⟨rfl, rfl, id, id⟩
  · intro row' member
    obtain ⟨row, listed, rfl⟩ := List.mem_map.mp member
    refine ⟨row, listed, ?_⟩
    split
    · rename_i marked
      exact ⟨rfl, rfl, rfl, by simp [marked]⟩
    · rename_i other
      exact ⟨rfl, rfl, rfl, by simp [other]⟩

theorem Tables.mergePostings_spec (batch : List (BlobKey × Bytes))
    : before.Grows (before.mergePostings batch)
      ∧ ∀ posting ∈ batch, ∀ t ∈ trigrams posting.2,
          posting.1 ∈ (before.mergePostings batch).posted t := by
  refine ⟨⟨fun row member => ⟨row, member, rfl, rfl, id, id⟩, ?_⟩, ?_⟩
  · exact fun t key member => PostingStore.mem_merge.mpr (.inl member)
  · exact fun posting member t within =>
      PostingStore.mem_merge.mpr (.inr ⟨posting.2, member, within⟩)

end Tables

-- One batch

/-- Some fact of a list tells a blob's class. -/
def Told (corpus : Corpus) (facts : List BlobFact) (oid : ObjectId) («class» : ContentClass)
    : Prop :=
  ∃ fact ∈ facts, fact.oid = oid ∧ ∃ read, corpus.classify fact = .ok («class», read)

/-- What a batch found about a builder's facts: each class is a fact's, what is to be posted is
the blob of its key, and every indexable blob is to be posted.
-/
structure Pass.Sound (corpus : Corpus) (tables : Tables) (facts : List BlobFact) (pass : Pass)
    : Prop where
  told
    : ∀ update ∈ pass.updates, ∃ oid,
        tables.Named oid update.1 ∧ Told corpus facts oid update.2
  read
    : ∀ posting ∈ pass.batch, ∃ oid,
        tables.Named oid posting.1 ∧ corpus.read oid = .ok posting.2
  indexable
    : ∀ key,
        key ∈ pass.batch.map Prod.fst
        ↔ ∃ update ∈ pass.updates, update.1 = key ∧ isIndexable update.2 = true

section Batch

variable {corpus : Corpus} {tables before after : Tables} {facts : List BlobFact} {pass : Pass}

theorem Pass.Sound.grows (sound : pass.Sound corpus before facts) (grows : before.Grows after)
    : pass.Sound corpus after facts where
  told update member :=
    have ⟨oid, named, told⟩ := sound.told update member
    ⟨oid, named.grows grows, told⟩
  read posting member :=
    have ⟨oid, named, read⟩ := sound.read posting member
    ⟨oid, named.grows grows, read⟩
  indexable := sound.indexable

theorem Pass.Sound.empty : Pass.empty.Sound corpus tables facts where
  told _ member := absurd member List.not_mem_nil
  read _ member := absurd member List.not_mem_nil
  indexable _ := by simp [Pass.empty]

/-- A blob whose class is indexable was read. -/
theorem Corpus.classify_read {fact : BlobFact} {«class» : ContentClass} {read : Option Bytes}
    (classified : corpus.classify fact = .ok («class», read))
    : (∀ content, read = some content → corpus.read fact.oid = .ok content)
      ∧ (read = none → isIndexable «class» = false) := by
  have unread : ∀ {known : ContentClass}, isIndexable known = false
      → (Except.ok (known, none) : Except GfsError _) = .ok («class», read)
      → (∀ content, read = some content → corpus.read fact.oid = .ok content)
        ∧ (read = none → isIndexable «class» = false) := by
    intro known excluded same
    cases same
    exact ⟨nofun, fun _ => excluded⟩
  rw [Corpus.classify, classifySize] at classified
  by_cases lfs : fact.lfs = true
  · rw [if_pos lfs] at classified
    exact unread rfl classified
  · by_cases oversized : fact.size > corpus.policy.maxBlobBytes
    · rw [if_neg lfs, if_pos oversized] at classified
      exact unread rfl classified
    · rw [if_neg lfs, if_neg oversized] at classified
      dsimp only at classified
      split at classified
      · exact unread rfl classified
      · cases found : corpus.read fact.oid with
        | error refusal =>
            rw [found] at classified
            cases classified
        | ok content =>
            rw [found] at classified
            cases classified
            exact ⟨fun _ same => Option.some.inj same ▸ rfl, nofun⟩

/-- Recording one more blob keeps a batch sound. -/
theorem Pass.Sound.record (sound : pass.Sound corpus tables facts) {fact : BlobFact}
    {key : BlobKey} {«class» : ContentClass} {read : Option Bytes} (member : fact ∈ facts)
    (named : tables.Named fact.oid key)
    (classified : corpus.classify fact = .ok («class», read))
    : (pass.record key «class» read).Sound corpus tables facts := by
  obtain ⟨source, unread⟩ := Corpus.classify_read classified
  refine ⟨?_, ?_, ?_⟩
  · intro update listed
    rcases List.mem_append.mp listed with old | new
    · exact sound.told update old
    · rw [List.mem_singleton.mp new]
      exact ⟨fact.oid, named, fact, member, rfl, read, classified⟩
  · intro posting listed
    cases read with
    | none => exact sound.read posting listed
    | some content =>
        dsimp only [Pass.record] at listed
        split at listed
        · rcases List.mem_append.mp listed with old | new
          · exact sound.read posting old
          · rw [List.mem_singleton.mp new]
            exact ⟨fact.oid, named, source content rfl⟩
        · exact sound.read posting listed
  · intro other
    have before := sound.indexable other
    have added
        : (∃ update ∈ (pass.record key «class» read).updates,
            update.1 = other ∧ isIndexable update.2 = true)
          ↔ (∃ update ∈ pass.updates, update.1 = other ∧ isIndexable update.2 = true)
            ∨ key = other ∧ isIndexable «class» = true := by
      simp only [Pass.record, List.mem_append, List.mem_singleton, or_and_right, exists_or,
        exists_eq_left]
    rw [added, ← before]
    cases read with
    | none => simp [Pass.record, unread rfl]
    | some content =>
        dsimp only [Pass.record]
        split
        · rename_i indexable
          simp [indexable, eq_comm]
        · rename_i other
          simp [other]

/-- A scan keeps a batch sound, and unless a budget stops it every blob is known or recorded. -/
theorem Corpus.scan_spec {known : List BlobKey} {pairs : List (BlobFact × BlobKey)}
    {found : Pass} (sound : pass.Sound corpus tables facts)
    (named : ∀ pair ∈ pairs, pair.1 ∈ facts ∧ tables.Named pair.1.oid pair.2)
    (ran : corpus.scan known pairs pass = .ok found)
    : found.Sound corpus tables facts
      ∧ (∀ key ∈ pass.updates.map Prod.fst, key ∈ found.updates.map Prod.fst)
      ∧ (found.budgetExhausted = false
        → ∀ pair ∈ pairs, pair.2 ∈ known ∨ pair.2 ∈ found.updates.map Prod.fst) := by
  induction pairs generalizing pass with
  | nil =>
      cases ran
      exact ⟨sound, fun _ member => member, fun _ _ member => absurd member List.not_mem_nil⟩
  | cons pair pairs ih =>
      obtain ⟨fact, key⟩ := pair
      obtain ⟨⟨member, keyOf⟩, rest⟩ := List.forall_mem_cons.mp named
      rw [Corpus.scan] at ran
      split_ifs at ran with seen spent
      · have skipped
            : Pass.Sound corpus tables facts { pass with alreadyKnown := pass.alreadyKnown + 1 } :=
          ⟨sound.told, sound.read, sound.indexable⟩
        obtain ⟨sound', kept, covered⟩ := ih skipped rest ran
        refine ⟨sound', kept, fun finished => List.forall_mem_cons.mpr ⟨?_, covered finished⟩⟩
        exact seen.imp_right (kept key)
      · cases ran
        exact ⟨⟨sound.told, sound.read, sound.indexable⟩, fun _ member => member,
          fun finished => by cases finished⟩
      · split at ran
        · rename_i «class» read classified
          obtain ⟨sound', kept, covered⟩ := ih (sound.record member keyOf classified) rest ran
          have recorded : ∀ other ∈ pass.updates.map Prod.fst ++ [key],
              other ∈ found.updates.map Prod.fst := by
            simpa [Pass.record] using kept
          refine ⟨sound', fun other old => recorded other (List.mem_append_left _ old),
            fun finished => List.forall_mem_cons.mpr ⟨.inr ?_, covered finished⟩⟩
          exact recorded key (List.mem_append_right _ (List.mem_singleton_self key))
        · cases ran

end Batch

-- One builder

/-- Every trigram of a blob lists its key. -/
def Tables.Posted (corpus : Corpus) (tables : Tables) (oid : ObjectId) (key : BlobKey) : Prop :=
  ∃ content, corpus.read oid = .ok content ∧ ∀ t ∈ trigrams content, key ∈ tables.posted t

/-- Each fact has its key, in order. -/
def Tables.Numbered (tables : Tables) (facts : List BlobFact) (keys : List BlobKey) : Prop :=
  List.Forall₂ (fun fact key => tables.Named fact.oid key) facts keys

/-- After a batch that no budget stopped, every blob is classified. -/
def Pass.Covers (tables : Tables) (keys : List BlobKey) (pass : Pass) : Prop :=
  pass.budgetExhausted = false → ∀ key ∈ keys, tables.Classified key

/-- What a builder may rely on where it stands. -/
def Stage.Sound (corpus : Corpus) (tables : Tables) (facts : List BlobFact) : Stage → Prop
  | .interning => True
  | .passing keys => tables.Numbered facts keys
  | .classifying keys pass =>
      tables.Numbered facts keys
      ∧ pass.Sound corpus tables facts
      ∧ (pass.budgetExhausted = false
        → ∀ key ∈ keys, tables.Classified key ∨ key ∈ pass.updates.map Prod.fst)
  | .merging keys pass =>
      tables.Numbered facts keys ∧ pass.Sound corpus tables facts ∧ pass.Covers tables keys
  | .marking keys pass =>
      tables.Numbered facts keys
      ∧ pass.Sound corpus tables facts
      ∧ pass.Covers tables keys
      ∧ ∀ posting ∈ pass.batch, ∀ t ∈ trigrams posting.2, posting.1 ∈ tables.posted t
  | .finished keys | .ready keys =>
      tables.Numbered facts keys ∧ ∀ key ∈ keys, tables.Classified key

/-- What one step of a builder does to the tables, where it had some blobs still to mark and has
others after it.
-/
structure Effect (corpus : Corpus) (facts : List BlobFact) (before after : Tables)
    (due due' : List (BlobKey × Bytes)) : Prop where
  keyed : after.Keyed
  grows : before.Grows after
  /-- A class is an old one or a fact's. -/
  told
    : ∀ row' ∈ after.blobs, ∀ «class», row'.class = some «class»
        → (∃ row ∈ before.blobs, row.oid = row'.oid ∧ row.class = some «class»)
          ∨ Told corpus facts row'.oid «class»
  /-- A mark is an old one or the blob is posted. -/
  posted
    : ∀ row' ∈ after.blobs, row'.indexed = true
        → (∃ row ∈ before.blobs, row.oid = row'.oid ∧ row.key = row'.key ∧ row.indexed = true)
          ∨ after.Posted corpus row'.oid row'.key
  /-- A gap is an old one, of another builder, or it is due. -/
  owed
    : ∀ row' ∈ after.blobs, row'.class.any isIndexable = true → row'.indexed = false
        → row'.key ∈ due'.map Prod.fst
          ∨ row'.key ∉ due.map Prod.fst
            ∧ ∃ row ∈ before.blobs,
                row.key = row'.key ∧ row.class = row'.class ∧ row.indexed = false

section Advance

variable {corpus : Corpus} {tables before after : Tables} {facts : List BlobFact}

variable {keys : List BlobKey}

theorem Tables.Numbered.grows (numbered : before.Numbered facts keys) (grows : before.Grows after)
    : after.Numbered facts keys :=
  numbered.imp fun _ _ named => named.grows grows

theorem Pass.Covers.grows {pass : Pass} (covers : pass.Covers before keys)
    (grows : before.Grows after)
    : pass.Covers after keys :=
  fun finished key member => (covers finished key member).grows grows

theorem Tables.Posted.grows {oid : ObjectId} {key : BlobKey}
    (posted : before.Posted corpus oid key) (grows : before.Grows after)
    : after.Posted corpus oid key := by
  obtain ⟨content, read, listed⟩ := posted
  exact ⟨content, read, fun t within => grows.postings t (listed t within)⟩

theorem Stage.Sound.grows {stage : Stage} (sound : stage.Sound corpus before facts)
    (grows : before.Grows after)
    : stage.Sound corpus after facts := by
  cases stage with
  | interning => trivial
  | passing keys => exact Tables.Numbered.grows sound grows
  | classifying keys pass =>
      obtain ⟨numbered, right, covers⟩ := sound
      exact ⟨numbered.grows grows, right.grows grows, fun finished key member =>
        (covers finished key member).imp_left fun classified => classified.grows grows⟩
  | merging keys pass =>
      obtain ⟨numbered, right, covers⟩ := sound
      exact ⟨numbered.grows grows, right.grows grows, covers.grows grows⟩
  | marking keys pass =>
      obtain ⟨numbered, right, covers, posted⟩ := sound
      exact ⟨numbered.grows grows, right.grows grows, covers.grows grows,
        fun posting member t within => grows.postings t (posted posting member t within)⟩
  | finished keys | ready keys =>
      exact ⟨sound.1.grows grows, fun key member => (sound.2 key member).grows grows⟩

theorem afterPass_sound {keys : List BlobKey} {pass : Pass} (numbered : tables.Numbered facts keys)
    (covers : pass.Covers tables keys)
    : (afterPass keys pass).Sound corpus tables facts ∧ (afterPass keys pass).unposted = [] := by
  rw [afterPass]
  split
  · exact ⟨numbered, rfl⟩
  · rename_i finished
    exact ⟨⟨numbered, covers (by simpa using finished)⟩, rfl⟩

theorem Tables.Numbered.unique (keyed : tables.Keyed) {others : List BlobKey}
    (first : tables.Numbered facts keys) (second : tables.Numbered facts others)
    : keys = others := by
  induction first generalizing others with
  | nil =>
      cases second
      rfl
  | cons named _ ih =>
      cases second with
      | cons named' rest =>
          obtain ⟨row, listed, same, rfl⟩ := named
          obtain ⟨row', listed', same', rfl⟩ := named'
          rw [List.inj_on_of_nodup_map keyed.oids listed listed' (same.trans same'.symm),
            ih rest]

theorem Effect.idle {due due' : List (BlobKey × Bytes)} (keyed : tables.Keyed)
    (same : due' = due)
    : Effect corpus facts tables tables due due' where
  keyed := keyed
  grows := .refl _
  told row' member _ recorded := .inl ⟨row', member, rfl, recorded⟩
  posted row' member marked := .inl ⟨row', member, rfl, rfl, marked⟩
  owed row' member _ unmarked := by
    by_cases within : row'.key ∈ due.map Prod.fst
    · exact .inl (same ▸ within)
    · exact .inr ⟨within, row', member, rfl, rfl, unmarked⟩

theorem Effect.intern {keys : List BlobKey} (keyed : before.Keyed)
    (ran : before.intern facts = .ok (after, keys))
    : Effect corpus facts before after [] [] ∧ after.Numbered facts keys := by
  obtain ⟨keyed', grows, named, -, added⟩ := Tables.intern_spec keyed ran
  refine ⟨⟨keyed', grows, ?_, ?_, ?_⟩, named⟩
  · intro row' member «class» recorded
    rcases added row' member with old | ⟨absent, -⟩
    · exact .inl ⟨row', old, rfl, recorded⟩
    · exact absurd (absent.symm.trans recorded) (by simp)
  · intro row' member marked
    rcases added row' member with old | ⟨-, absent⟩
    · exact .inl ⟨row', old, rfl, rfl, marked⟩
    · exact absurd (absent.symm.trans marked) (by simp)
  · intro row' member indexable unmarked
    rcases added row' member with old | ⟨absent, -⟩
    · exact .inr ⟨List.not_mem_nil, row', old, rfl, rfl, unmarked⟩
    · rw [absent] at indexable
      cases indexable

/-- Recording a batch's classes owes what the batch is to post. -/
theorem Effect.classify {pass : Pass} (keyed : before.Keyed)
    (sound : pass.Sound corpus before facts)
    : Effect corpus facts before (before.applyClassifications pass.updates) [] pass.batch := by
  obtain ⟨keyed', grows, -, rows, -⟩ := Tables.applyClassifications_spec keyed pass.updates
  refine ⟨keyed', grows, ?_, ?_, ?_⟩
  · intro row' member «class» recorded
    obtain ⟨row, listed, oid, key, -, kept | ⟨update, within, same, written⟩⟩ := rows row' member
    · exact .inl ⟨row, listed, oid.symm, kept.1.symm.trans recorded⟩
    · obtain ⟨named, owner, told⟩ := sound.told update within
      rw [same] at owner
      rw [written] at recorded
      rw [oid, keyed.named_unique listed owner, ← Option.some.inj recorded]
      exact .inr told
  · intro row' member marked
    obtain ⟨row, listed, oid, key, indexed, -⟩ := rows row' member
    exact .inl ⟨row, listed, oid.symm, key.symm, indexed.symm.trans marked⟩
  · intro row' member indexable unmarked
    obtain ⟨row, listed, oid, key, indexed, kept | ⟨update, within, same, written⟩⟩ :=
      rows row' member
    · exact .inr ⟨List.not_mem_nil, row, listed, key.symm, kept.1.symm,
        indexed.symm.trans unmarked⟩
    · rw [written] at indexable
      exact .inl ((sound.indexable _).mpr ⟨update, within, same.trans key.symm, indexable⟩)

theorem Effect.merge {pass : Pass} (keyed : before.Keyed)
    : Effect corpus facts before (before.mergePostings pass.batch) pass.batch pass.batch :=
  have same := @Effect.idle corpus before facts pass.batch pass.batch keyed rfl
  { keyed := ⟨keyed.oids, keyed.keys, keyed.below⟩
    grows := (Tables.mergePostings_spec pass.batch).1
    told := same.told
    posted := fun row' member marked => .inl ⟨row', member, rfl, rfl, marked⟩
    owed := same.owed }

/-- Marking a batch that is posted settles what was due. -/
theorem Effect.mark {pass : Pass} (keyed : before.Keyed) (sound : pass.Sound corpus before facts)
    (posted : ∀ posting ∈ pass.batch, ∀ t ∈ trigrams posting.2, posting.1 ∈ before.posted t)
    : Effect corpus facts before (before.markIndexed (pass.batch.map Prod.fst)) pass.batch
        [] := by
  obtain ⟨keyed', grows, rows⟩ := Tables.markIndexed_spec keyed (pass.batch.map Prod.fst)
  refine ⟨keyed', grows, ?_, ?_, ?_⟩
  · intro row' member «class» recorded
    obtain ⟨row, listed, oid, -, kept, -⟩ := rows row' member
    exact .inl ⟨row, listed, oid.symm, kept.symm.trans recorded⟩
  · intro row' member marked
    obtain ⟨row, listed, oid, key, -, indexed⟩ := rows row' member
    rw [indexed, Bool.or_eq_true, decide_eq_true_iff] at marked
    rcases marked with old | new
    · exact .inl ⟨row, listed, oid.symm, key.symm, old⟩
    · obtain ⟨posting, within, same⟩ := List.mem_map.mp new
      obtain ⟨named, owner, read⟩ := sound.read posting within
      rw [same] at owner
      rw [oid, key, keyed.named_unique listed owner]
      exact .inr ⟨posting.2, read, fun t inside => same ▸ posted posting within t inside⟩
  · intro row' member indexable unmarked
    obtain ⟨row, listed, oid, key, kept, indexed⟩ := rows row' member
    rw [indexed, Bool.or_eq_false_iff, decide_eq_false_iff_not] at unmarked
    exact .inr ⟨key ▸ unmarked.2, row, listed, key.symm, kept.symm, unmarked.1⟩

/-- Each step of a builder finds what it relies on, leaves what the next one relies on, and has
an effect.
-/
theorem Builder.advance_spec {builder : Builder} {stage : Stage} (keyed : before.Keyed)
    (sound : builder.stage.Sound corpus before builder.facts)
    (ran : builder.advance corpus before = some (after, stage))
    : Effect corpus builder.facts before after builder.stage.unposted stage.unposted
      ∧ stage.Sound corpus after builder.facts := by
  obtain ⟨inherited, facts, current, stopped⟩ := builder
  dsimp only at sound ⊢
  rw [Builder.advance] at ran
  cases current with
  | interning =>
      dsimp only at ran
      split at ran
      · rename_i interned
        cases ran
        exact Effect.intern keyed interned
      · cases ran
  | passing keys =>
      dsimp only at ran
      split at ran
      · rename_i middle again interned
        split at ran
        · rename_i pass scanned
          cases ran
          obtain ⟨effect, named⟩ := @Effect.intern corpus _ _ _ _ keyed interned
          have same : keys = again :=
            Tables.Numbered.unique effect.keyed (Tables.Numbered.grows sound effect.grows) named
          have pairs : ∀ pair ∈ facts.zip again,
              pair.1 ∈ facts ∧ after.Named pair.1.oid pair.2 := by
            intro pair member
            exact ⟨(List.of_mem_zip member).1, (List.forall₂_iff_zip.mp named).2 member⟩
          obtain ⟨found, -, covers⟩ := Corpus.scan_spec .empty pairs scanned
          refine ⟨effect, same ▸ named, found, fun finished key member => ?_⟩
          subst same
          obtain ⟨index, bound, rfl⟩ := List.mem_iff_getElem.mp member
          have length : facts.length = keys.length := named.length_eq
          have zipped : (facts[index], keys[index]) ∈ facts.zip keys :=
            List.mem_iff_getElem.mpr ⟨index, by simp [length, bound], by simp⟩
          refine (covers finished _ zipped).imp_left fun listed => ?_
          obtain ⟨row, within, key⟩ := List.mem_map.mp listed
          obtain ⟨held, matched⟩ := List.mem_filter.mp within
          exact ⟨row, held, key, (of_decide_eq_true matched).2⟩
        · cases ran
      · cases ran
  | classifying keys pass =>
      cases ran
      obtain ⟨numbered, found, covered⟩ := sound
      have effect := Effect.classify keyed found
      have examined := (Tables.applyClassifications_spec keyed pass.updates).2.2.2.2
      have covers : pass.Covers (before.applyClassifications pass.updates) keys := by
        intro finished key member
        rcases covered finished key member with old | new
        · exact old.grows effect.grows
        · obtain ⟨update, within, rfl⟩ := List.mem_map.mp new
          obtain ⟨oid, ⟨row, listed, -, same⟩, -⟩ := found.told update within
          exact examined update within ⟨row, listed, same⟩
      have numbered' := numbered.grows effect.grows
      by_cases empty : pass.batch = []
      · rw [if_pos empty]
        obtain ⟨next, due⟩ := @afterPass_sound corpus _ _ _ _ numbered' covers
        rw [empty] at effect
        exact ⟨due ▸ effect, next⟩
      · rw [if_neg empty]
        exact ⟨effect, numbered', found.grows effect.grows, covers⟩
  | merging keys pass =>
      cases ran
      obtain ⟨numbered, found, covers⟩ := sound
      obtain ⟨grows, posted⟩ := @Tables.mergePostings_spec before pass.batch
      exact ⟨Effect.merge keyed, numbered.grows grows, found.grows grows, covers.grows grows,
        posted⟩
  | marking keys pass =>
      cases ran
      obtain ⟨numbered, found, covers, posted⟩ := sound
      have effect := Effect.mark keyed found posted
      obtain ⟨next, due⟩ :=
        @afterPass_sound corpus _ _ _ _ (numbered.grows effect.grows) (covers.grows effect.grows)
      exact ⟨due ▸ effect, next⟩
  | finished keys =>
      cases ran
      exact ⟨Effect.idle keyed rfl, sound⟩
  | ready keys =>
      cases ran
      exact ⟨Effect.idle keyed rfl, sound⟩

end Advance

-- Every builder

/-- What every builder relies on, and what the tables hold: keys apart, marks only on what is
posted, classes that some preparation's fact tells, and for every gap a builder that owes it.
-/
structure World.Sound (corpus : Corpus) (world : World) : Prop where
  keyed : world.tables.Keyed
  posted
    : ∀ row ∈ world.tables.blobs, row.indexed = true
        → world.tables.Posted corpus row.oid row.key
  told
    : ∀ row ∈ world.tables.blobs, ∀ «class», row.class = some «class»
        → ∃ builder ∈ world.builders, Told corpus builder.facts row.oid «class»
  owed
    : ∀ row ∈ world.tables.blobs, row.class.any isIndexable = true → row.indexed = false
        → ∃ builder ∈ world.builders, row.key ∈ builder.stage.unposted.map Prod.fst
  builders
    : ∀ builder ∈ world.builders,
        builder.stage.Sound corpus world.tables builder.facts
        ∧ ∀ key ∈ builder.inherited, world.tables.Classified key

section Worlds

variable {corpus : Corpus} {world : World}

theorem World.Sound.empty : World.empty.Sound corpus where
  keyed := ⟨List.nodup_nil, List.nodup_nil, fun _ member => absurd member List.not_mem_nil⟩
  posted _ member := absurd member List.not_mem_nil
  told _ member := absurd member List.not_mem_nil
  owed _ member := absurd member List.not_mem_nil
  builders _ member := absurd member List.not_mem_nil

variable {builder : Builder} {builders : List Builder} {size : ObjectId → Nat}
  {lfs : ObjectId → Bool}

theorem World.Sound.ready_classified (sound : world.Sound corpus)
    (member : builder ∈ world.builders) (ready : builder.isReady = true)
    : ∀ key ∈ builder.members, world.tables.Classified key := by
  obtain ⟨right, inherited⟩ := sound.builders builder member
  intro key within
  rcases List.mem_append.mp within with old | own
  · exact inherited key old
  · rw [Builder.isReady] at ready
    split at ready
    · rename_i keys stage
      rw [stage] at right own
      exact right.2 key own
    · cases ready

theorem mem_set_stage {index : Nat} {next other : Builder}
    (member : other ∈ builders.set index next)
    : other = next ∨ other ∈ builders := by
  rcases List.mem_or_eq_of_mem_set member with old | same
  · exact .inr old
  · exact .inl same

theorem mem_set_of_ne {index : Nat} {next other : Builder}
    (at_index : builders[index]? = some builder) (member : other ∈ builders) (ne : other ≠ builder)
    : other ∈ builders.set index next := by
  obtain ⟨place, found⟩ := List.mem_iff_getElem?.mp member
  refine List.mem_iff_getElem?.mpr ⟨place, ?_⟩
  have apart : index ≠ place := by
    rintro rfl
    exact ne (Option.some.inj (found.symm.trans at_index))
  rw [List.getElem?_set_ne apart, found]

theorem mem_set_self {index : Nat} {next : Builder} (at_index : builders[index]? = some builder)
    : next ∈ builders.set index next := by
  obtain ⟨bound, -⟩ := List.getElem?_eq_some_iff.mp at_index
  exact List.mem_set bound next

/-- A builder stops, and nothing else changes. -/
theorem World.Sound.stop (sound : world.Sound corpus) {index : Nat}
    (at_index : world.builders[index]? = some builder)
    : World.Sound corpus
        { world with builders := world.builders.set index { builder with stopped := true } } := by
  have moved : ∀ {claim : Builder → Prop},
      (∀ other : Builder, claim other → claim { other with stopped := true })
      → (∃ other ∈ world.builders, claim other)
      → ∃ other ∈ world.builders.set index { builder with stopped := true }, claim other := by
    intro claim kept found
    obtain ⟨other, member, holds⟩ := found
    by_cases same : other = builder
    · exact ⟨_, mem_set_self at_index, kept builder (same ▸ holds)⟩
    · exact ⟨other, mem_set_of_ne at_index member same, holds⟩
  refine ⟨sound.keyed, sound.posted, ?_, ?_, ?_⟩
  · exact fun row member «class» recorded =>
      moved (fun _ told => told) (sound.told row member «class» recorded)
  · exact fun row member indexable unmarked =>
      moved (fun _ due => due) (sound.owed row member indexable unmarked)
  · intro other member
    rcases mem_set_stage member with rfl | old
    · exact sound.builders builder (List.mem_of_getElem? at_index)
    · exact sound.builders other old

/-- A builder takes a step. -/
theorem World.Sound.advance (sound : world.Sound corpus) {index : Nat} {builder : Builder}
    {tables : Tables} {stage : Stage} (at_index : world.builders[index]? = some builder)
    (ran : builder.advance corpus world.tables = some (tables, stage))
    : World.Sound corpus ⟨tables, world.builders.set index { builder with stage }⟩ := by
  have member := List.mem_of_getElem? at_index
  obtain ⟨right, inherited⟩ := sound.builders builder member
  obtain ⟨effect, next⟩ := Builder.advance_spec sound.keyed right ran
  refine ⟨effect.keyed, ?_, ?_, ?_, ?_⟩
  · intro row' listed marked
    rcases effect.posted row' listed marked with ⟨row, held, oid, key, old⟩ | new
    · exact oid ▸ key ▸ (sound.posted row held old).grows effect.grows
    · exact new
  · intro row' listed «class» recorded
    rcases effect.told row' listed «class» recorded with ⟨row, held, oid, old⟩ | new
    · obtain ⟨other, present, told⟩ := sound.told row held «class» old
      rw [oid] at told
      by_cases same : other = builder
      · exact ⟨_, mem_set_self at_index, same ▸ told⟩
      · exact ⟨other, mem_set_of_ne at_index present same, told⟩
    · exact ⟨_, mem_set_self at_index, new⟩
  · intro row' listed indexable unmarked
    rcases effect.owed row' listed indexable unmarked
      with own | ⟨settled, row, held, key, same, old⟩
    · exact ⟨_, mem_set_self at_index, own⟩
    · obtain ⟨other, present, due⟩ := sound.owed row held (same ▸ indexable) old
      rw [key] at due
      have apart : other ≠ builder := by
        rintro rfl
        exact settled due
      exact ⟨other, mem_set_of_ne at_index present apart, due⟩
  · intro other present
    rcases mem_set_stage present with rfl | old
    · exact ⟨next, fun key within => (inherited key within).grows effect.grows⟩
    · obtain ⟨right', inherited'⟩ := sound.builders other old
      exact ⟨right'.grows effect.grows, fun key within =>
        (inherited' key within).grows effect.grows⟩

theorem World.Sound.inherited (sound : world.Sound corpus) (base : Option Nat)
    (keeps : BlobKey → Bool)
    : ∀ key ∈ world.inherited base keeps, world.tables.Classified key := by
  intro key within
  rw [World.inherited] at within
  split at within
  · rename_i parent found
    split at within
    · rename_i ready
      obtain ⟨index, -, at_index⟩ := Option.bind_eq_some_iff.mp found
      exact sound.ready_classified (List.mem_of_getElem? at_index) ready key
        (List.mem_of_mem_filter within)
    · cases within
  · cases within

theorem World.Sound.step (sound : world.Sound corpus) (event : Event)
    : (world.step corpus event).Sound corpus := by
  cases event with
  | begin base keeps facts =>
      have inherited := sound.inherited base keeps
      refine ⟨sound.keyed, sound.posted, ?_, ?_, ?_⟩
      · intro row member «class» recorded
        obtain ⟨builder, present, told⟩ := sound.told row member «class» recorded
        exact ⟨builder, List.mem_append_left _ present, told⟩
      · intro row member indexable unmarked
        obtain ⟨builder, present, due⟩ := sound.owed row member indexable unmarked
        exact ⟨builder, List.mem_append_left _ present, due⟩
      · intro builder present
        rcases List.mem_append.mp present with old | new
        · exact sound.builders builder old
        · rw [List.mem_singleton.mp new]
          exact ⟨trivial, inherited⟩
  | advance index =>
      rw [World.step]
      split
      · exact sound
      · rename_i builder at_index
        split
        · exact sound
        · split
          · rename_i ran
            exact sound.advance at_index ran
          · exact sound.stop at_index
  | stop index =>
      rw [World.step]
      split
      · exact sound
      · rename_i builder at_index
        exact sound.stop at_index

-- Gaps

/-- The blobs of every READY snapshot are classified, and the indexable ones are indexed. -/
def World.Gapless (world : World) : Prop :=
  ∀ builder ∈ world.builders, builder.isReady = true
    → ∀ key ∈ builder.members,
      world.tables.Classified key
      ∧ ∀ row ∈ world.tables.blobs, row.key = key → row.class.any isIndexable = true
        → row.indexed = true

/-- A snapshot becomes READY when no builder, running or stopped, has classified one of its
blobs and not marked it, or another builder has marked it.
-/
def World.Settled (world : World) : Event → Prop
  | .advance index =>
      ∀ builder keys, world.builders[index]? = some builder → builder.stopped = false
        → builder.stage = .finished keys
        → ∀ row ∈ world.tables.blobs, row.key ∈ builder.members → row.indexed = false
          → ∀ other ∈ world.builders, row.key ∉ other.stage.unposted.map Prod.fst
  | _ => True

/-- Every fact that a preparation starts with is of a kind. -/
def Event.Gives (given : BlobFact → Prop) : Event → Prop
  | .begin _ _ facts => ∀ fact ∈ facts, given fact
  | _ => True

instance Event.Gives.decide {given : BlobFact → Prop} [DecidablePred given]
    : DecidablePred (Event.Gives given)
  | .begin _ _ facts => inferInstanceAs (Decidable (∀ fact ∈ facts, given fact))
  | .advance _ | .stop _ => isTrue trivial

/-- Every fact of every preparation is of a kind. -/
def World.Given (given : BlobFact → Prop) (world : World) : Prop :=
  ∀ builder ∈ world.builders, ∀ fact ∈ builder.facts, given fact

theorem World.Given.step {given : BlobFact → Prop} {event : Event} (all : world.Given given)
    (gives : event.Gives given)
    : (world.step corpus event).Given given := by
  have kept : ∀ index next builder, world.builders[index]? = some builder
      → next.facts = builder.facts
      → ∀ other ∈ world.builders.set index next, ∀ fact ∈ other.facts, given fact := by
    intro index next builder at_index same other present
    rcases mem_set_stage present with rfl | old
    · rw [same]
      exact all builder (List.mem_of_getElem? at_index)
    · exact all other old
  cases event with
  | begin base keeps facts =>
      intro builder present
      rcases List.mem_append.mp present with old | new
      · exact all builder old
      · rw [List.mem_singleton.mp new]
        exact gives
  | advance index =>
      rw [World.step]
      split
      · exact all
      · rename_i builder at_index
        split
        · exact all
        · split <;> exact kept index _ builder at_index rfl
  | stop index =>
      rw [World.step]
      split
      · exact all
      · rename_i builder at_index
        exact kept index _ builder at_index rfl

/-- What the facts of a run say of a blob where they agree. -/
def agreedFact (size : ObjectId → Nat) (lfs : ObjectId → Bool) (oid : ObjectId) : BlobFact :=
  ⟨oid, size oid, lfs oid⟩

theorem World.Sound.told_agreed (sound : world.Sound corpus)
    (agreed : world.Given fun fact => fact = agreedFact size lfs fact.oid) {row : BlobRow}
    (member : row ∈ world.tables.blobs) {«class» : ContentClass}
    (recorded : row.class = some «class»)
    : ∃ read, corpus.classify (agreedFact size lfs row.oid) = .ok («class», read) := by
  obtain ⟨builder, present, fact, listed, same, told⟩ := sound.told row member «class» recorded
  rw [← same, ← agreed builder present fact listed]
  exact told

theorem Tables.Grows.indexed {before after : Tables} (grows : before.Grows after)
    (keyed : after.Keyed) {key : BlobKey} (classified : before.Classified key)
    (classes
      : ∀ row ∈ before.blobs, ∀ row' ∈ after.blobs, row'.oid = row.oid
          → ∀ «class», row.class = some «class» → row'.class = some «class»)
    (indexed
      : ∀ row ∈ before.blobs, row.key = key → row.class.any isIndexable = true
          → row.indexed = true)
    : ∀ row' ∈ after.blobs, row'.key = key → row'.class.any isIndexable = true
        → row'.indexed = true := by
  intro row' member same indexable
  obtain ⟨row, listed, rfl, examined⟩ := classified
  obtain ⟨next, present, oid, key, -, marked⟩ := grows.rows row listed
  have one : next = row' := keyed.row_unique present member (key.trans same.symm)
  obtain ⟨«class», recorded⟩ := Option.isSome_iff_exists.mp examined
  have kept := classes row listed next present oid «class» recorded
  rw [← one] at indexable ⊢
  rw [kept, ← recorded] at indexable
  exact marked (indexed row listed rfl indexable)

/-- A builder only becomes READY at the end of its batches, and that touches no table. -/
theorem Builder.advance_ready {before after : Tables} {keys : List BlobKey}
    (ran : builder.advance corpus before = some (after, .ready keys))
    : after = before ∧ (builder.stage = .finished keys ∨ builder.stage = .ready keys) := by
  have looped : ∀ keys' pass, afterPass keys' pass ≠ .ready keys := by
    intro keys' pass
    rw [afterPass]
    split <;> nofun
  rw [Builder.advance] at ran
  split at ran
  · split at ran <;> cases ran
  · split at ran
    · split at ran <;> cases ran
    · cases ran
  · rename_i keys' pass stage
    obtain ⟨-, next⟩ := Prod.mk.inj (Option.some.inj ran)
    split at next
    · exact absurd next (looped keys' pass)
    · cases next
  · cases ran
  · rename_i keys' pass stage
    exact absurd (Prod.mk.inj (Option.some.inj ran)).2 (looped keys' pass)
  · rename_i stage
    cases ran
    exact ⟨rfl, .inl stage⟩
  · rename_i stage
    cases ran
    exact ⟨rfl, .inr stage⟩

theorem World.Sound.grows (sound : world.Sound corpus) (event : Event)
    : world.tables.Grows (world.step corpus event).tables := by
  cases event with
  | begin base keeps facts => exact .refl _
  | advance index =>
      rw [World.step]
      split
      · exact .refl _
      · rename_i builder at_index
        split
        · exact .refl _
        · split
          · rename_i ran
            have right := (sound.builders builder (List.mem_of_getElem? at_index)).1
            exact (Builder.advance_spec sound.keyed right ran).1.grows
          · exact .refl _
  | stop index =>
      rw [World.step]
      split <;> exact .refl _

/-- A READY snapshot was READY before an event, with the same blobs, or the event ends its
preparation.
-/
theorem World.ready_step {event : Event} (member : builder ∈ (world.step corpus event).builders)
    (ready : builder.isReady = true)
    : (∃ old ∈ world.builders, old.isReady = true ∧ old.members = builder.members)
      ∨ ∃ index old keys,
          event = .advance index
          ∧ world.builders[index]? = some old
          ∧ old.stopped = false
          ∧ old.stage = .finished keys
          ∧ old.members = builder.members
          ∧ (world.step corpus event).tables = world.tables := by
  cases event with
  | begin base keeps facts =>
      rcases List.mem_append.mp member with old | new
      · exact .inl ⟨builder, old, ready, rfl⟩
      · rw [List.mem_singleton.mp new] at ready
        cases ready
  | advance index =>
      rw [World.step] at member ⊢
      split at member
      · exact .inl ⟨builder, member, ready, rfl⟩
      · rename_i old at_index
        split at member
        · exact .inl ⟨builder, member, ready, rfl⟩
        · rename_i running
          have present := List.mem_of_getElem? at_index
          split at member
          · rename_i tables stage ran
            rcases mem_set_stage member with rfl | other
            · rw [Builder.isReady] at ready
              split at ready
              · rename_i keys ended
                dsimp only at ended
                subst ended
                obtain ⟨same, finished | already⟩ := Builder.advance_ready ran
                · refine .inr
                    ⟨index, old, keys, rfl, at_index, by simpa using running, finished, ?_, ?_⟩
                  · rw [Builder.members, finished]
                    rfl
                  · simp only [if_neg running]
                    exact same
                · refine .inl ⟨old, present, ?_, ?_⟩
                  · rw [Builder.isReady, already]
                  · rw [Builder.members, already]
                    rfl
              · cases ready
            · exact .inl ⟨builder, other, ready, rfl⟩
          · rcases mem_set_stage member with rfl | other
            · exact .inl ⟨old, present, ready, rfl⟩
            · exact .inl ⟨builder, other, ready, rfl⟩
  | stop index =>
      rw [World.step] at member
      split at member
      · exact .inl ⟨builder, member, ready, rfl⟩
      · rename_i old at_index
        rcases mem_set_stage member with rfl | other
        · exact .inl ⟨old, List.mem_of_getElem? at_index, ready, rfl⟩
        · exact .inl ⟨builder, other, ready, rfl⟩

/-- A settled step leaves no gap. -/
theorem World.Sound.gapless_step (sound : world.Sound corpus) {event : Event}
    (agreed : world.Given fun fact => fact = agreedFact size lfs fact.oid)
    (gives : event.Gives fun fact => fact = agreedFact size lfs fact.oid) (gapless : world.Gapless)
    (settled : world.Settled event)
    : (world.step corpus event).Gapless := by
  have sound' := sound.step event
  have agreed' := @World.Given.step corpus _ _ _ agreed gives
  have grows := sound.grows event
  intro builder member ready key within
  refine ⟨sound'.ready_classified member ready key within, ?_⟩
  rcases World.ready_step member ready with
    ⟨old, present, done, same⟩ | ⟨index, old, keys, rfl, at_index, running, finished, same, kept⟩
  · rw [← same] at within
    obtain ⟨classified, indexed⟩ := gapless old present done key within
    refine grows.indexed sound'.keyed classified ?_ fun row listed sameKey =>
      indexed row listed sameKey
    intro row listed row' listed' oid «class» recorded
    obtain ⟨read, first⟩ := sound.told_agreed agreed listed recorded
    obtain ⟨last, held, sameOid, -, examined, -⟩ := grows.rows row listed
    have one : last = row' :=
      List.inj_on_of_nodup_map sound'.keyed.oids held listed' (sameOid.trans oid.symm)
    obtain ⟨other, recorded'⟩ := Option.isSome_iff_exists.mp (examined (by rw [recorded]; rfl))
    rw [one] at recorded'
    obtain ⟨read', second⟩ := sound'.told_agreed agreed' listed' recorded'
    rw [oid, first] at second
    rw [recorded']
    exact congrArg some (Prod.mk.inj (Except.ok.inj second)).1.symm
  · rw [kept]
    rw [← same] at within
    rintro row listed rfl indexable
    by_contra unmarked
    have gap := Bool.eq_false_iff.mpr unmarked
    obtain ⟨other, present, due⟩ := sound.owed row listed indexable gap
    exact settled old keys at_index running finished row listed within gap other present due

/-- A step that leaves no gap is settled. -/
theorem World.Sound.settled_of_gapless (sound : world.Sound corpus) {event : Event}
    (agreed : world.Given fun fact => fact = agreedFact size lfs fact.oid)
    (gapless : (world.step corpus event).Gapless)
    : world.Settled event := by
  cases event with
  | begin base keeps facts => trivial
  | stop index => trivial
  | advance index =>
      intro builder keys at_index running finished row listed within unmarked other present due
      have stepped
          : world.step corpus (.advance index)
            = ⟨world.tables, world.builders.set index { builder with stage := .ready keys }⟩ := by
        simp [World.step, at_index, running, Builder.advance, finished]
      rw [stepped] at gapless
      have same
          : Builder.members { builder with stage := .ready keys } = builder.members := by
        rw [Builder.members, Builder.members, finished]
        rfl
      obtain ⟨⟨row', listed', sameKey, examined⟩, indexed⟩ :=
        gapless _ (mem_set_self at_index) rfl row.key (same ▸ within)
      have one : row' = row := sound.keyed.row_unique listed' listed sameKey
      rw [one] at examined
      obtain ⟨«class», recorded⟩ := Option.isSome_iff_exists.mp examined
      obtain ⟨read, told⟩ := sound.told_agreed agreed listed recorded
      -- What the other builder owes has an indexable class, which is the one that is recorded.
      have owes : isIndexable «class» = true := by
        obtain ⟨pass, found, batch⟩ :
            ∃ pass, Pass.Sound corpus world.tables other.facts pass
              ∧ row.key ∈ pass.batch.map Prod.fst := by
          have right := (sound.builders other present).1
          cases stage : other.stage with
          | merging keys pass =>
              rw [stage] at right due
              exact ⟨pass, right.2.1, due⟩
          | marking keys pass =>
              rw [stage] at right due
              exact ⟨pass, right.2.1, due⟩
          | _ =>
              rw [stage] at due
              cases due
        obtain ⟨update, recording, key, indexable⟩ := (found.indexable row.key).mp batch
        obtain ⟨oid, named, fact, told', same, read', classified⟩ := found.told update recording
        rw [key] at named
        have owner : row.oid = oid := sound.keyed.named_unique listed named
        rw [agreed other present fact told', same, ← owner, told] at classified
        rw [(Prod.mk.inj (Except.ok.inj classified)).1]
        exact indexable
      have marked := indexed row listed rfl (by rw [recorded]; exact owes)
      rw [unmarked] at marked
      cases marked

end Worlds

-- Runs

/-- The world after a run. -/
def reached (corpus : Corpus) (events : List Event) : World :=
  events.foldl (World.step corpus) .empty

section Runs

variable {corpus : Corpus}

theorem sound_of_run {start : World} (sound : start.Sound corpus) (events : List Event)
    : ∀ world ∈ Lib.Runs.states (World.step corpus) start events, world.Sound corpus :=
  Lib.Runs.invariant (fun _ event kept _ => kept.step event) sound
    (@Lib.Runs.Along.of_mem _ _ (World.step corpus) (fun _ _ => True) events
      (fun _ _ _ => trivial) start)

theorem grows_of_run {start : World} (sound : start.Sound corpus) (events : List Event)
    : start.tables.Grows (events.foldl (World.step corpus) start).tables := by
  induction events generalizing start with
  | nil => exact .refl _
  | cons event events ih => exact (sound.grows event).trans (ih (sound.step event))

/-- In every run of preparations, whichever builders stop and wherever, a blob keeps its key and
shares it with no other, and a blob that is marked as indexed has all its trigrams posted. Where
all preparations give a blob the same LFS attribute, its class is the one that follows from its
bytes, its size and that attribute, and no READY snapshot ever has an index gap exactly if each
became READY when no other builder, running or stopped, owed one of its blobs. Witness:
`sample_ingestion_sound`.
-/
theorem run_ingestion_sound (size : ObjectId → Nat) (events : List Event)
    (sized : ∀ event ∈ events, event.Gives fun fact => fact.size = size fact.oid)
    : (∀ earlier later, events = earlier ++ later
        → ∀ oid key, (reached corpus earlier).tables.Named oid key
          → (reached corpus events).tables.Named oid key
            ∧ ∀ oid' key', (reached corpus events).tables.Named oid' key'
              → (oid' = oid ↔ key' = key))
      ∧ (∀ world ∈ Lib.Runs.states (World.step corpus) .empty events,
          ∀ row ∈ world.tables.blobs, row.indexed = true
            → world.tables.Posted corpus row.oid row.key)
      ∧ ∀ lfs : ObjectId → Bool,
        (∀ event ∈ events, event.Gives fun fact => fact.lfs = lfs fact.oid)
        → (∀ world ∈ Lib.Runs.states (World.step corpus) .empty events,
            ∀ row ∈ world.tables.blobs, ∀ «class», row.class = some «class»
              → ∃ read,
                  corpus.classify ⟨row.oid, size row.oid, lfs row.oid⟩ = .ok («class», read))
          ∧ ((∀ world ∈ Lib.Runs.states (World.step corpus) .empty events, world.Gapless)
            ↔ Lib.Runs.Along (World.step corpus) World.Settled .empty events) := by
  have sound := sound_of_run (.empty : World.empty.Sound corpus)
  refine ⟨?_, fun world member => (sound events world member).posted, fun lfs flagged => ?_⟩
  · rintro earlier later rfl oid key named
    have first := sound earlier _ (Lib.Runs.foldl_mem_states _ _ earlier)
    have last := sound (earlier ++ later) _ (Lib.Runs.foldl_mem_states _ _ (earlier ++ later))
    have kept : (reached corpus (earlier ++ later)).tables.Named oid key := by
      rw [reached, List.foldl_append]
      exact named.grows (grows_of_run first later)
    refine ⟨kept, fun oid' key' named' => ?_⟩
    obtain ⟨row, listed, rfl, rfl⟩ := kept
    obtain ⟨row', listed', rfl, rfl⟩ := named'
    constructor
    · intro same
      rw [List.inj_on_of_nodup_map last.keyed.oids listed' listed same]
    · intro same
      rw [last.keyed.row_unique listed' listed same]
  · have gives : ∀ event ∈ events,
        event.Gives fun fact => fact = agreedFact size lfs fact.oid := by
      intro event member
      have bySize := sized event member
      have byFlag := flagged event member
      cases event with
      | begin base keeps facts =>
          intro fact listed
          obtain ⟨oid, weight, flag⟩ := fact
          have same : weight = size oid := bySize _ listed
          have same' : flag = lfs oid := byFlag _ listed
          rw [same, same']
          rfl
      | advance index => trivial
      | stop index => trivial
    constructor
    · have agreed := @Lib.Runs.invariant _ _ (World.step corpus)
        (fun _ event => event.Gives fun fact => fact = agreedFact size lfs fact.oid)
        (World.Given fun fact => fact = agreedFact size lfs fact.oid)
        (fun _ _ all given => all.step given) .empty events
        (fun _ present => absurd present List.not_mem_nil)
        (Lib.Runs.Along.of_mem (fun event member _ => gives event member) _)
      exact fun world member row listed «class» recorded =>
        (sound events world member).told_agreed (agreed world member) listed recorded
    · refine @Lib.Runs.invariant_iff _ _ (World.step corpus)
        (fun _ event => event.Gives fun fact => fact = agreedFact size lfs fact.oid)
        World.Settled
        (fun world => world.Sound corpus
          ∧ world.Given fun fact => fact = agreedFact size lfs fact.oid)
        World.Gapless ?_ ?_ .empty events
        ⟨.empty, fun _ present => absurd present List.not_mem_nil⟩
        (fun _ present => absurd present List.not_mem_nil)
        (Lib.Runs.Along.of_mem (fun event member _ => gives event member) _)
      · exact fun world event ground given => ⟨ground.1.step event, ground.2.step given⟩
      · intro world event ground given gapless
        obtain ⟨right, agreed⟩ := ground
        constructor
        · exact right.settled_of_gapless agreed
        · exact right.gapless_step agreed given gapless

/-- Blobs of three letters. -/
def sampleCorpus : Corpus where
  policy := ⟨100, 10, true, true, true, false, false, [], []⟩
  budget := ⟨100, 100, 10⟩
  read _ := .ok [97, 98, 99]

private def sampleBlob : ObjectId := ⟨.sha1, List.replicate 20 7⟩

/-- A preparation that runs to its end, and one that takes over what it found. -/
def sampleRun : List Event :=
  [.begin none (fun _ => true) [⟨sampleBlob, 3, false⟩], .advance 0, .advance 0, .advance 0,
    .advance 0, .advance 0, .advance 0, .begin (some 0) (fun _ => true) []]

/-- The sample run marks a blob that is posted, and has no gaps if its steps are settled. -/
theorem sample_ingestion_sound
    : (∀ world ∈ Lib.Runs.states (World.step sampleCorpus) .empty sampleRun,
          ∀ row ∈ world.tables.blobs, row.indexed = true
            → world.tables.Posted sampleCorpus row.oid row.key)
      ∧ ((∀ world ∈ Lib.Runs.states (World.step sampleCorpus) .empty sampleRun, world.Gapless)
        ↔ Lib.Runs.Along (World.step sampleCorpus) World.Settled .empty sampleRun) := by
  have sound := @run_ingestion_sound sampleCorpus (fun _ => 3) sampleRun (by decide)
  exact ⟨sound.2.1, (sound.2.2 (fun _ => false) (by decide)).2⟩

/-- A builder crashes between classifying a blob and posting it, and another one retries. -/
def crashedRun : List Event :=
  [.begin none (fun _ => true) [⟨sampleBlob, 3, false⟩], .advance 0, .advance 0, .advance 0,
    .stop 0, .begin none (fun _ => true) [⟨sampleBlob, 3, false⟩], .advance 1, .advance 1,
    .advance 1, .advance 1]

/-- One commit has a blob on an LFS path, and another on an ordinary one. -/
def sharedRun : List Event :=
  [.begin none (fun _ => true) [⟨sampleBlob, 3, true⟩], .advance 0, .advance 0, .advance 0,
    .advance 0, .begin none (fun _ => true) [⟨sampleBlob, 3, false⟩], .advance 1, .advance 1,
    .advance 1, .advance 1]

/-- The retry makes its snapshot READY with a gap, and the blob of an ordinary path keeps the
class it got on an LFS path.
-/
theorem crash_leaves_gap_and_class_follows_first_path
    : ¬(reached sampleCorpus crashedRun).Gapless
      ∧ (∃ row ∈ (reached sampleCorpus sharedRun).tables.blobs,
          ∃ builder ∈ (reached sampleCorpus sharedRun).builders,
            builder.isReady = true
            ∧ builder.members = [row.key]
            ∧ builder.facts = [⟨row.oid, row.size, false⟩]
            ∧ row.class = some .lfs)
      ∧ sampleCorpus.classify ⟨sampleBlob, 3, false⟩ = .ok (.text, some [97, 98, 99]) := by
  refine ⟨fun gapless => ?_, ?_, by decide⟩
  · obtain ⟨-, indexed⟩ := gapless ⟨[], [⟨sampleBlob, 3, false⟩], .ready [0], false⟩ (by decide)
      rfl 0 (by decide)
    exact absurd (indexed ⟨sampleBlob, 0, 3, some .text, false⟩ (by decide) rfl rfl) (by decide)
  · exact ⟨⟨sampleBlob, 0, 3, some .lfs, false⟩, by decide,
      ⟨[], [⟨sampleBlob, 3, false⟩], .ready [0], false⟩, by decide, rfl, rfl, rfl, rfl⟩

end Runs

end Gfs.Search.Ingestion
