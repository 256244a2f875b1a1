import Gfs.Search.Trigram

/-! Trigram posting lists (`gfs-search/src/postings.rs`): batches, their merge into the store
of one repository, and the candidates of a query. The database's reads and writes succeed, and
a stored bitmap reads back as itself.
-/

namespace Gfs.Search.Index

open Gfs.Types
open Gfs.Lib
open Std (ExtTreeMap)

abbrev BlobKey := Nat

/-- A set of blob keys. -/
abbrev Bitmap := Finset BlobKey

/-- Trigrams accumulated in memory before being merged into the store. -/
structure PostingBatch where
  byTrigram : ExtTreeMap Nat Bitmap compare
  keys : List BlobKey

/-- One repository's posting lists, by trigram. -/
abbrev PostingStore := ExtTreeMap Nat Bitmap compare

namespace PostingBatch

def new : PostingBatch := ⟨∅, []⟩

/-- Record one blob's trigrams. -/
def add (batch : PostingBatch) (key : BlobKey) (content : Bytes) : PostingBatch where
  byTrigram :=
    (trigrams content).foldl (fun table t => table.insert t (insert key (table[t]?.getD ∅)))
      batch.byTrigram
  keys := batch.keys ++ [key]

def isEmpty (batch : PostingBatch) : Bool :=
  batch.keys.isEmpty

end PostingBatch

/-- The intersection of a list of bitmaps, cut off where it is empty. -/
def intersectAll (acc : Bitmap) : List Bitmap → Bitmap
  | [] => acc
  | list :: rest => if acc = ∅ then acc else intersectAll (acc ∩ list) rest

namespace PostingStore

variable (store : PostingStore)

/-- Merge a batch into the store. -/
def merge (batch : PostingBatch) : PostingStore :=
  if batch.isEmpty then store
  else
    batch.byTrigram.toList.foldl
      (fun table entry => table.insert entry.1 ((table[entry.1]?.getD ∅) ∪ entry.2)) store

/-- The posting list for one trigram. -/
def posting (t : Nat) : Option Bitmap :=
  store[t]?

/-- The union of a trigram's posting list with those of its ASCII case variants. -/
def postingFolded (t : Nat) (caseInsensitive : Bool) : Bitmap :=
  if !caseInsensitive then (posting store t).getD ∅
  else
    (caseVariants t).foldl
      (fun union variant =>
        match posting store variant with
        | some list => union ∪ list
        | none => union)
      ∅

/-- The loop of `candidates` over the alternatives. -/
def candidatesFrom (members : Bitmap) (caseInsensitive : Bool) (union : Bitmap)
    : List Bytes → Bitmap
  | [] => union
  | alternative :: rest =>
      let required := trigrams alternative
      if required.isEmpty then members
      else
        -- Rarest first, so the intersection shrinks fastest.
        match (required.map (postingFolded store · caseInsensitive)).insertionSort
            (fun a b => a.card ≤ b.card) with
        | [] => candidatesFrom members caseInsensitive union rest
        | first :: lists =>
            candidatesFrom members caseInsensitive
              (union ∪ intersectAll (first ∩ members) lists) rest

/-- Candidate blob keys for a required-literal set, intersected with a snapshot's members. -/
def candidates (literals : List Bytes) (members : Bitmap) (caseInsensitive : Bool) : Bitmap :=
  candidatesFrom store members caseInsensitive ∅ literals

end PostingStore

/-- A batch of blobs. -/
def PostingBatch.of (blobs : List (BlobKey × Bytes)) : PostingBatch :=
  blobs.foldl (fun batch blob => batch.add blob.1 blob.2) .new

/-- The posting lists after a sequence of merges. -/
def PostingStore.of (batches : List (List (BlobKey × Bytes))) : PostingStore :=
  batches.foldl (fun store blobs => PostingStore.merge store (.of blobs)) ∅

-- What the posting lists hold

section Postings

variable {key : BlobKey} {t : Nat}

theorem mem_insert_union {table : ExtTreeMap Nat Bitmap compare} {other : Nat}
    {additions : Bitmap}
    : key ∈ ((table.insert other ((table[other]?.getD ∅) ∪ additions))[t]?.getD ∅)
      ↔ key ∈ (table[t]?.getD ∅) ∨ (other = t ∧ key ∈ additions) := by
  rw [ExtTreeMap.getElem?_insert]
  simp only [Std.LawfulEqCmp.compare_eq_iff_eq]
  split
  · rename_i same
    subst same
    simp
  · rename_i different
    simp [different]

/-- A blob's trigrams are added under each of them. -/
theorem PostingBatch.mem_add {batch : PostingBatch} {added : BlobKey} {content : Bytes}
    : key ∈ ((batch.add added content).byTrigram[t]?.getD ∅)
      ↔ key ∈ (batch.byTrigram[t]?.getD ∅) ∨ (key = added ∧ t ∈ trigrams content) := by
  simp only [add]
  generalize batch.byTrigram = table
  induction trigrams content generalizing table with
  | nil => simp
  | cons first rest ih =>
      have insertion : insert added (table[first]?.getD ∅) = (table[first]?.getD ∅) ∪ {added} := by
        rw [Finset.union_comm]
        rfl
      rw [List.foldl_cons, ih, insertion, mem_insert_union, List.mem_cons, Finset.mem_singleton]
      constructor
      · rintro ((old | ⟨same, mine⟩) | ⟨mine, later⟩)
        · exact .inl old
        · exact .inr ⟨mine, .inl same.symm⟩
        · exact .inr ⟨mine, .inr later⟩
      · rintro (old | ⟨mine, same | later⟩)
        · exact .inl (.inl old)
        · exact .inl (.inr ⟨same.symm, mine⟩)
        · exact .inr ⟨mine, later⟩

variable {blobs : List (BlobKey × Bytes)}

/-- What a batch of blobs holds. -/
theorem PostingBatch.mem_of
    : key ∈ ((PostingBatch.of blobs).byTrigram[t]?.getD ∅)
      ↔ ∃ content, (key, content) ∈ blobs ∧ t ∈ trigrams content := by
  have run
      : ∀ batch : PostingBatch,
          key ∈ ((blobs.foldl (fun batch blob => batch.add blob.1 blob.2) batch).byTrigram[t]?.getD
              ∅)
          ↔ key ∈ (batch.byTrigram[t]?.getD ∅)
            ∨ ∃ content, (key, content) ∈ blobs ∧ t ∈ trigrams content := by
    induction blobs with
    | nil => simp
    | cons blob blobs ih =>
        intro batch
        rw [List.foldl_cons, ih, mem_add, or_assoc]
        refine or_congr Iff.rfl ?_
        simp only [List.mem_cons]
        constructor
        · rintro (⟨rfl, within⟩ | ⟨content, member, within⟩)
          · exact ⟨blob.2, .inl rfl, within⟩
          · exact ⟨content, .inr member, within⟩
        · rintro ⟨content, same | member, within⟩
          · rw [← same]
            exact .inl ⟨rfl, within⟩
          · exact .inr ⟨content, member, within⟩
  rw [of, run]
  simp [new]

theorem PostingBatch.of_isEmpty (empty : (PostingBatch.of blobs).isEmpty = true)
    : blobs = [] := by
  have run
      : ∀ batch : PostingBatch,
          (blobs.foldl (fun batch blob => batch.add blob.1 blob.2) batch).keys
            = batch.keys ++ blobs.map Prod.fst := by
    clear empty
    induction blobs with
    | nil => simp
    | cons blob blobs ih =>
        intro batch
        rw [List.foldl_cons, ih]
        simp [add]
  rw [isEmpty, of, run] at empty
  simpa [new] using empty

/-- A merge adds what the batch holds. -/
theorem PostingStore.mem_merge {store : PostingStore}
    : key ∈ ((PostingStore.merge store (.of blobs))[t]?.getD ∅)
      ↔ key ∈ (store[t]?.getD ∅)
        ∨ ∃ content, (key, content) ∈ blobs ∧ t ∈ trigrams content := by
  have run
      : ∀ (entries : List (Nat × Bitmap)) (table : PostingStore),
          key ∈ ((entries.foldl
              (fun table entry =>
                table.insert entry.1 ((table[entry.1]?.getD ∅) ∪ entry.2)) table)[t]?.getD ∅)
          ↔ key ∈ (table[t]?.getD ∅) ∨ ∃ additions, (t, additions) ∈ entries ∧ key ∈ additions := by
    intro entries
    induction entries with
    | nil => simp
    | cons entry entries ih =>
        intro table
        rw [List.foldl_cons, ih, mem_insert_union, or_assoc]
        refine or_congr Iff.rfl ?_
        simp only [List.mem_cons]
        constructor
        · rintro (⟨rfl, within⟩ | ⟨additions, member, within⟩)
          · exact ⟨entry.2, .inl rfl, within⟩
          · exact ⟨additions, .inr member, within⟩
        · rintro ⟨additions, same | member, within⟩
          · rw [← same]
            exact .inl ⟨rfl, within⟩
          · exact .inr ⟨additions, member, within⟩
  simp only [merge]
  split
  · rename_i empty
    rw [PostingBatch.of_isEmpty empty]
    simp
  · rw [run, ← PostingBatch.mem_of]
    refine or_congr Iff.rfl ?_
    simp only [ExtTreeMap.mem_toList_iff_getElem?_eq_some]
    cases stored : (PostingBatch.of blobs).byTrigram[t]? with
    | none => simp
    | some list => simp

theorem PostingStore.mem_of {batches : List (List (BlobKey × Bytes))}
    : key ∈ ((PostingStore.of batches)[t]?.getD ∅)
      ↔ ∃ blobs ∈ batches, ∃ content, (key, content) ∈ blobs ∧ t ∈ trigrams content := by
  have run
      : ∀ store : PostingStore,
          key ∈ ((batches.foldl (fun store blobs => PostingStore.merge store (.of blobs))
              store)[t]?.getD ∅)
          ↔ key ∈ (store[t]?.getD ∅)
            ∨ ∃ blobs ∈ batches, ∃ content, (key, content) ∈ blobs ∧ t ∈ trigrams content := by
    induction batches with
    | nil => simp
    | cons blobs batches ih =>
        intro store
        rw [List.foldl_cons, ih, mem_merge, or_assoc]
        refine or_congr Iff.rfl ?_
        rw [List.exists_mem_cons_iff]
  rw [of, run]
  simp

end Postings

-- The candidates of a query

section Candidates

variable {store : PostingStore} {key : BlobKey} {caseInsensitive : Bool}

theorem mem_intersectAll {acc : Bitmap} {lists : List Bitmap}
    : key ∈ intersectAll acc lists ↔ key ∈ acc ∧ ∀ list ∈ lists, key ∈ list := by
  induction lists generalizing acc with
  | nil => simp [intersectAll]
  | cons list lists ih =>
      simp only [intersectAll]
      split
      · rename_i empty
        simp [empty]
      · rw [ih, Finset.mem_inter, List.forall_mem_cons, and_assoc]

/-- A folded posting list is the union over the trigrams taken for one. -/
theorem PostingStore.mem_postingFolded {t : Nat}
    : key ∈ postingFolded store t caseInsensitive
      ↔ ∃ variant ∈ variants caseInsensitive t, key ∈ (store[variant]?.getD ∅) := by
  cases caseInsensitive with
  | false => simp [postingFolded, posting, variants]
  | true =>
      have run
          : ∀ (list : List Nat) (union : Bitmap),
              key ∈ list.foldl
                  (fun union variant =>
                    match posting store variant with
                    | some list => union ∪ list
                    | none => union)
                  union
              ↔ key ∈ union ∨ ∃ variant ∈ list, key ∈ (store[variant]?.getD ∅) := by
        intro list
        induction list with
        | nil => simp
        | cons variant list ih =>
            intro union
            rw [List.foldl_cons, ih, List.exists_mem_cons_iff, ← or_assoc]
            refine or_congr ?_ Iff.rfl
            cases stored : store[variant]? with
            | none => simp [posting, stored]
            | some found => simp [posting, stored]
      simp only [postingFolded, Bool.not_true, Bool.false_eq_true, if_false, run, variants,
        if_true]
      simp

/-- The candidates are the members that are posted under every trigram of a literal. -/
theorem PostingStore.mem_candidates {literals : List Bytes} {members : Bitmap}
    (usable : ∀ alternative ∈ literals, 3 ≤ alternative.length)
    : key ∈ candidates store literals members caseInsensitive
      ↔ key ∈ members
        ∧ ∃ alternative ∈ literals,
            ∀ t ∈ trigrams alternative,
              ∃ variant ∈ variants caseInsensitive t, key ∈ (store[variant]?.getD ∅) := by
  have run
      : ∀ union : Bitmap,
          key ∈ candidatesFrom store members caseInsensitive union literals
          ↔ key ∈ union
            ∨ (key ∈ members
              ∧ ∃ alternative ∈ literals,
                  ∀ t ∈ trigrams alternative,
                    ∃ variant ∈ variants caseInsensitive t, key ∈ (store[variant]?.getD ∅)) := by
    induction literals with
    | nil => simp [candidatesFrom]
    | cons alternative rest ih =>
        intro union
        have long := trigrams_ne_nil (usable alternative List.mem_cons_self)
        specialize ih (fun other member => usable other (List.mem_cons_of_mem _ member))
        simp only [candidatesFrom, List.isEmpty_iff, long, if_false]
        have every
            : (∀ list ∈ ((trigrams alternative).map
                  (postingFolded store · caseInsensitive)).insertionSort
                    (fun a b => a.card ≤ b.card), key ∈ list)
              ↔ ∀ t ∈ trigrams alternative,
                  ∃ variant ∈ variants caseInsensitive t, key ∈ (store[variant]?.getD ∅) := by
          simp only [List.mem_insertionSort, List.forall_mem_map, mem_postingFolded]
        have some_ := (List.perm_insertionSort (fun a b : Bitmap => a.card ≤ b.card)
          ((trigrams alternative).map (postingFolded store · caseInsensitive))).length_eq
        split
        · rename_i none_
          rw [none_, List.length_map] at some_
          exact absurd (List.length_eq_zero_iff.mp some_.symm) long
        · rename_i first lists sorted
          rw [sorted, List.forall_mem_cons] at every
          rw [ih, List.exists_mem_cons_iff, Finset.mem_union, mem_intersectAll,
            Finset.mem_inter, ← every]
          tauto
  rw [candidates, run]
  simp

/-- Candidates go by what was merged, not by how: two runs of merges over the same blobs, in any
order, division into batches and number of repetitions, narrow every query alike.
-/
theorem PostingStore.candidates_by_content {first second : List (List (BlobKey × Bytes))}
    (same : ∀ blob, blob ∈ first.flatten ↔ blob ∈ second.flatten) (literals : List Bytes)
    (members : Bitmap) (caseInsensitive : Bool)
    : candidates (.of first) literals members caseInsensitive
      = candidates (.of second) literals members caseInsensitive := by
  have alike (t : Nat)
      : postingFolded (.of first) t caseInsensitive
        = postingFolded (.of second) t caseInsensitive := by
    ext key
    have merged (batches : List (List (BlobKey × Bytes))) (variant : Nat)
        : key ∈ ((PostingStore.of batches)[variant]?.getD ∅)
          ↔ ∃ content, (key, content) ∈ batches.flatten ∧ variant ∈ trigrams content := by
      rw [mem_of]
      simp only [List.mem_flatten]
      tauto
    simp only [mem_postingFolded, merged, same]
  have run (union : Bitmap)
      : candidatesFrom (.of first) members caseInsensitive union literals
        = candidatesFrom (.of second) members caseInsensitive union literals := by
    induction literals generalizing union with
    | nil => rfl
    | cons alternative rest ih => simp only [candidatesFrom, alike, ih]
  exact run ∅

/-- Two merges and one batch in the other order. -/
theorem PostingStore.candidates_of_one_batch
    : candidates (.of [[(1, [97, 98, 99])], [(2, [97, 98, 100])]]) [[97, 98, 99]] {1, 2} false
      = candidates (.of [[(2, [97, 98, 100]), (1, [97, 98, 99])]]) [[97, 98, 99]] {1, 2} false :=
  candidates_by_content (fun blob => by simp [or_comm]) _ _ _

end Candidates

end Gfs.Search.Index
