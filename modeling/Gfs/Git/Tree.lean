import Gfs.Types.Basic

/-! Decoded trees and the order Git gives their entries (`gfs-git/src/tree.rs`). -/

namespace Gfs.Git

open Gfs.Types

-- Entries

/-- The key Git sorts a tree entry by: the name, with a slash at the end for a directory. -/
def sortKey (name : Bytes) (entryMode : Nat) : Bytes :=
  if entryMode = Mode.directory then name ++ [slash] else name

/-- One decoded tree entry. -/
structure DecodedEntry where
  name : Bytes
  mode : Nat
  oid : ObjectId
  deriving DecidableEq, Repr

def DecodedEntry.sortKey (entry : DecodedEntry) : Bytes :=
  Git.sortKey entry.name entry.mode

/-- Whether the entry is a directory of this repository. -/
def DecodedEntry.isTree (entry : DecodedEntry) : Bool :=
  entry.mode = Mode.directory

/-- A tree object: Git names its entries by components, and no two alike. -/
structure TreeObject where
  entries : List DecodedEntry
  named : ∀ entry ∈ entries, IsComponent entry.name
  unique : (entries.map DecodedEntry.name).Nodup

/-- The order of the sort keys. -/
def inTreeOrder (a b : DecodedEntry) : Bool :=
  decide (a.sortKey ≤ b.sortKey)

/-- A decoded tree: the entries in Git's order. -/
structure DecodedTree where
  entries : List DecodedEntry

namespace DecodedTree

/-- Decode a tree object. -/
def new (object : TreeObject) : DecodedTree where
  entries := object.entries.mergeSort inTreeOrder

/-- Find one entry by exact name. The index the search goes by holds every entry. -/
def get (tree : DecodedTree) (name : Bytes) : Option DecodedEntry :=
  tree.entries.find? (fun entry => entry.name = name)

/-- One page of entries, resuming strictly after a sort key, and the token to resume from. -/
def page (tree : DecodedTree) (after : Option Bytes) (limit : Nat)
    : List DecodedEntry × Option Bytes :=
  let rest :=
    match after with
    | none => tree.entries
    | some after => tree.entries.dropWhile (fun entry => decide (entry.sortKey ≤ after))
  let page := rest.take limit
  (page, if limit < rest.length then page.getLast?.map DecodedEntry.sortKey else none)

end DecodedTree

-- Lookup

variable {object : TreeObject}

theorem DecodedTree.mem_new {entry : DecodedEntry}
    : entry ∈ (DecodedTree.new object).entries ↔ entry ∈ object.entries :=
  List.mem_mergeSort

theorem DecodedTree.get_new {name : Bytes} {entry : DecodedEntry}
    : (DecodedTree.new object).get name = some entry
      ↔ entry ∈ object.entries ∧ entry.name = name := by
  constructor
  · intro found
    have named := List.find?_some found
    exact ⟨mem_new.mp (List.mem_of_find?_eq_some found), by simpa using named⟩
  · rintro ⟨member, named⟩
    cases found : (DecodedTree.new object).get name with
    | none =>
        have missing := List.find?_eq_none.mp found entry (mem_new.mpr member)
        exact absurd named (by simpa using missing)
    | some other =>
        have otherNamed : other.name = name := by simpa using List.find?_some found
        have listed := mem_new.mp (List.mem_of_find?_eq_some found)
        have same := List.inj_on_of_nodup_map object.unique listed member
          (otherNamed.trans named.symm)
        rw [same]

-- Pages

theorem sortKey_inj {a b : DecodedEntry} (named : IsComponent a.name) (named' : IsComponent b.name)
    (same : a.sortKey = b.sortKey)
    : a.name = b.name := by
  have ends
      : ∀ {x y : DecodedEntry}, IsComponent y.name → ¬x.name ++ [slash] = y.name := by
    intro x y component equal
    exact component.2 (equal ▸ List.mem_append_right _ (List.mem_singleton_self _))
  simp only [DecodedEntry.sortKey, Git.sortKey] at same
  split at same
  · split at same
    · exact List.append_cancel_right same
    · exact absurd same (ends (x := a) named')
  · split at same
    · exact absurd same.symm (ends (x := b) named)
    · exact same

/-- Decoded entries stand in the strict order of their keys. -/
theorem DecodedTree.new_sorted
    : (DecodedTree.new object).entries.Pairwise (fun a b => a.sortKey < b.sortKey) := by
  have ordered : (DecodedTree.new object).entries.Pairwise (fun a b => inTreeOrder a b = true) :=
    List.pairwise_mergeSort
      (fun (a b c : DecodedEntry) (first : inTreeOrder a b = true)
          (second : inTreeOrder b c = true) =>
        decide_eq_true (List.le_trans (of_decide_eq_true first) (of_decide_eq_true second)))
      (fun a b => by
        rcases List.le_total a.sortKey b.sortKey with le | le
        · simp [inTreeOrder, le]
        · simp [inTreeOrder, le])
      object.entries
  have perm := List.mergeSort_perm object.entries inTreeOrder
  have unique : (DecodedTree.new object).entries.Pairwise (fun a b => a.name ≠ b.name) := by
    have names := (perm.map DecodedEntry.name).nodup_iff.mpr object.unique
    exact List.pairwise_map.mp names
  refine (ordered.and unique).imp_of_mem ?_
  intro a b left right both
  refine Std.lt_of_le_of_ne (of_decide_eq_true both.1 : a.sortKey ≤ b.sortKey) ?_
  intro same
  exact both.2 (sortKey_inj (object.named _ (mem_new.mp left)) (object.named _ (mem_new.mp right))
    same)

/-- Resuming after the last key of a page leaves what the page did not hold. -/
theorem dropWhile_sortKey {entries : List DecodedEntry}
    (sorted : entries.Pairwise (fun a b => a.sortKey < b.sortKey)) {count : Nat}
    {last : DecodedEntry} (ends : (entries.take count).getLast? = some last)
    : entries.dropWhile (fun entry => decide (entry.sortKey ≤ last.sortKey))
      = entries.drop count := by
  obtain ⟨front, taken⟩ := List.getLast?_eq_some_iff.mp ends
  have whole : entries = (front ++ [last]) ++ entries.drop count := by
    rw [← taken, List.take_append_drop]
  rw [whole] at sorted
  obtain ⟨fronts, -, cross⟩ := List.pairwise_append.mp sorted
  obtain ⟨-, -, before⟩ := List.pairwise_append.mp fronts
  have passed
      : ∀ entry ∈ front ++ [last], decide (entry.sortKey ≤ last.sortKey) = true := by
    intro entry member
    rcases List.mem_append.mp member with early | final
    · exact decide_eq_true (List.le_of_lt (before entry early last (List.mem_singleton_self _)))
    · rw [List.mem_singleton.mp final]
      exact decide_eq_true (List.le_refl _)
  conv_lhs => rw [whole]
  rw [List.dropWhile_append_of_pos passed]
  cases rest : entries.drop count with
  | nil => rfl
  | cons next more =>
      have later := cross last (List.mem_append_right _ (List.mem_singleton_self _)) next
        (by rw [rest]; exact List.mem_cons_self)
      rw [List.dropWhile_cons_of_neg]
      simpa using later

/-- The entries a token leaves to be listed. -/
def DecodedTree.remaining (tree : DecodedTree) : Option Bytes → List DecodedEntry
  | none => tree.entries
  | some after => tree.entries.dropWhile (fun entry => decide (entry.sortKey ≤ after))

theorem DecodedTree.page_eq (tree : DecodedTree) (after : Option Bytes) (limit : Nat)
    : tree.page after limit
      = ((tree.remaining after).take limit,
          if limit < (tree.remaining after).length
          then ((tree.remaining after).take limit).getLast?.map DecodedEntry.sortKey
          else none) := by
  cases after <;> rfl

/-- A page and what its token leaves make up what there was to list; without a token nothing is
left.
-/
theorem DecodedTree.page_new (after : Option Bytes) {limit : Nat} (positive : 0 < limit)
    : let (page, next) := (DecodedTree.new object).page after limit
      match next with
      | none => page = (DecodedTree.new object).remaining after
      | some token =>
          page ++ (DecodedTree.new object).remaining (some token)
              = (DecodedTree.new object).remaining after
            ∧ page ≠ [] := by
  rw [DecodedTree.page_eq]
  by_cases more : limit < ((DecodedTree.new object).remaining after).length
  · have nonempty : ((DecodedTree.new object).remaining after).take limit ≠ [] := by
      intro empty
      have := congrArg List.length empty
      simp only [List.length_take, List.length_nil] at this
      omega
    obtain ⟨last, ends⟩ := Option.isSome_iff_exists.mp (List.getLast?_isSome.mpr nonempty)
    simp only [more, if_true, ends, Option.map_some]
    refine ⟨?_, nonempty⟩
    -- The token is a key of the tree, so it passes every entry an earlier token passed.
    have suffix_ : (DecodedTree.new object).remaining (some last.sortKey)
        = ((DecodedTree.new object).remaining after).drop limit := by
      have suffixed : (DecodedTree.new object).remaining after
          <:+ (DecodedTree.new object).entries := by
        cases after with
        | none => exact List.suffix_refl _
        | some after => exact List.dropWhile_suffix _
      obtain ⟨front, whole⟩ := suffixed
      have sorted := @DecodedTree.new_sorted object
      rw [← whole] at sorted
      obtain ⟨-, rest, cross⟩ := List.pairwise_append.mp sorted
      have member : last ∈ (DecodedTree.new object).remaining after :=
        List.mem_of_mem_take (List.mem_of_getLast? ends)
      rw [← dropWhile_sortKey rest ends, DecodedTree.remaining, ← whole,
        List.dropWhile_append_of_pos]
      intro entry early
      exact decide_eq_true (List.le_of_lt (cross entry early last member))
    rw [suffix_, List.take_append_drop]
  · simp only [more, if_false]
    exact List.take_of_length_le (Nat.le_of_not_lt more)

end Gfs.Git
