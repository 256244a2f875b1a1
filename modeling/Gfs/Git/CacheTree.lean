import Gfs.Git.Index
import Gfs.Lib.Sorted
import Gfs.Types.Decimal

/-! The cache tree of the Git index (`gfs-git/src/index.rs`): what of it is accepted, and the bytes
it is written as.
-/

namespace Gfs.Git.Index

open Gfs.Types
open Gfs.Service (beBytes beValue)

-- Every directory

namespace CacheTree

@[elab_as_elim, induction_eliminator]
theorem induct {motive : CacheTree → Prop}
    (node : ∀ name oid entries children,
      (∀ child ∈ children, motive child) → motive (.node name oid entries children))
    (tree : CacheTree)
    : motive tree := by
  refine @CacheTree.rec motive (fun children => ∀ child ∈ children, motive child) node ?_ ?_ tree
  · simp
  · exact fun child children own below => List.forall_mem_cons.mpr ⟨own, below⟩

/-- A condition that every directory meets with the prefix of the paths under it. -/
inductive Everywhere (holds : Bytes → CacheTree → Prop) : Bytes → CacheTree → Prop where
  | node {lead : Bytes} {tree : CacheTree} (here : holds lead tree)
      (below : ∀ child ∈ tree.children, Everywhere holds (lead ++ child.name ++ [slash]) child)
      : Everywhere holds lead tree

variable {holds weaker : Bytes → CacheTree → Prop} {lead : Bytes} {tree : CacheTree}

theorem everywhere_node {name : Bytes} {oid : ObjectId} {entries : Nat} {children : List CacheTree}
    : Everywhere holds lead (.node name oid entries children)
      ↔ holds lead (.node name oid entries children)
        ∧ ∀ child ∈ children, Everywhere holds (lead ++ child.name ++ [slash]) child := by
  constructor
  · rintro ⟨here, below⟩
    exact ⟨here, below⟩
  · exact fun ⟨here, below⟩ => .node here below

theorem Everywhere.here (everywhere : Everywhere holds lead tree) : holds lead tree := by
  cases everywhere
  assumption

theorem Everywhere.mono (weaken : ∀ lead tree, holds lead tree → weaker lead tree)
    (everywhere : Everywhere holds lead tree)
    : Everywhere weaker lead tree := by
  induction everywhere with
  | node here below ih => exact .node (weaken _ _ here) ih

theorem Everywhere.mono_below
    (weaken : ∀ below tree, lead <+: below → holds below tree → weaker below tree)
    (everywhere : Everywhere holds lead tree)
    : Everywhere weaker lead tree := by
  induction everywhere with
  | node here below ih =>
      refine .node (weaken _ _ List.prefix_rfl here) fun child member => ih child member ?_
      intro further tree begins
      apply weaken further tree
      rw [List.append_assoc] at begins
      exact (List.prefix_append _ _).trans begins

-- The order of the directories

mutual

/-- The tree with every level in Git's order. -/
def inOrder : CacheTree → CacheTree
  | .node name oid entries children =>
      .node name oid entries
        ((forestInOrder children).mergeSort (fun a b => subtreeNameLe a.name b.name))

def forestInOrder : List CacheTree → List CacheTree
  | [] => []
  | child :: children => inOrder child :: forestInOrder children

end

theorem forestInOrder_eq_map (children : List CacheTree)
    : forestInOrder children = children.map inOrder := by
  induction children with
  | nil => rfl
  | cons child children ih => rw [forestInOrder, ih, List.map_cons]

theorem inOrder_node {name : Bytes} {oid : ObjectId} {entries : Nat} {children : List CacheTree}
    : inOrder (.node name oid entries children)
      = .node name oid entries
          ((children.map inOrder).mergeSort (fun a b => subtreeNameLe a.name b.name)) := by
  rw [inOrder, forestInOrder_eq_map]

@[simp] theorem name_inOrder (tree : CacheTree) : tree.inOrder.name = tree.name := by
  cases tree
  rw [inOrder, name, name]

@[simp] theorem oid_inOrder (tree : CacheTree) : tree.inOrder.oid = tree.oid := by
  cases tree
  rw [inOrder, oid, oid]

@[simp] theorem entries_inOrder (tree : CacheTree) : tree.inOrder.entries = tree.entries := by
  cases tree
  rw [inOrder, entries, entries]

theorem children_inOrder (tree : CacheTree)
    : tree.inOrder.children.Perm (tree.children.map inOrder) := by
  cases tree
  rw [inOrder_node]
  exact List.mergeSort_perm _ _

theorem names_inOrder (tree : CacheTree)
    : (tree.inOrder.children.map name).Perm (tree.children.map name) := by
  have perm := tree.children_inOrder.map name
  have same : name ∘ inOrder = name := funext name_inOrder
  rwa [List.map_map, same] at perm

theorem Everywhere.inOrder (kept : ∀ lead tree, holds lead tree → holds lead tree.inOrder)
    (everywhere : Everywhere holds lead tree)
    : Everywhere holds lead tree.inOrder := by
  induction everywhere with
  | @node lead tree here below ih =>
      refine .node (kept _ _ here) fun child member => ?_
      obtain ⟨unsorted, listed, rfl⟩ := List.mem_map.mp (tree.children_inOrder.mem_iff.mp member)
      rw [name_inOrder]
      exact ih unsorted listed

end CacheTree

theorem sortForest_eq_map (children : List CacheTree)
    : sortForest children = children.map (fun child => (child.name, sortCacheTree child)) := by
  induction children with
  | nil => rfl
  | cons child children ih => rw [sortForest, ih, List.map_cons]

/-- No directory names two of its subdirectories alike. -/
def DistinctAt (_lead : Bytes) (tree : CacheTree) : Prop :=
  (tree.children.map CacheTree.name).Nodup

variable {children : List CacheTree} {lead : Bytes}

private theorem mapM_snd_ok {name : CacheTree → Bytes}
    : (children.map (fun child => (name child, (Except.ok child : Except GfsError CacheTree)))).mapM
        Prod.snd
      = .ok children := by
  induction children with
  | nil => rfl
  | cons child children ih =>
      rw [List.map_cons, List.mapM_cons, ih]
      rfl

/-- A tree whose levels have distinct names is put in order. -/
theorem sortCacheTree_ok {tree : CacheTree} (distinct : tree.Everywhere DistinctAt lead)
    : sortCacheTree tree = .ok tree.inOrder := by
  induction tree generalizing lead with
  | node name oid entries children ih =>
      obtain ⟨own, below⟩ := CacheTree.everywhere_node.mp distinct
      have level
          : (sortForest children).mergeSort (fun a b => subtreeNameLe a.1 b.1)
            = ((children.map CacheTree.inOrder).mergeSort
                (fun a b => subtreeNameLe a.name b.name)).map
                  (fun child => (child.name, .ok child)) := by
        have keyed := List.map_mergeSort (r := fun a b => subtreeNameLe a.name b.name)
          (s := fun a b => subtreeNameLe a.1 b.1)
          (f := fun child => (child.name, (.ok child : Except GfsError CacheTree)))
          (l := children.map CacheTree.inOrder) (fun _ _ _ _ => rfl)
        rw [keyed, sortForest_eq_map, List.map_map]
        congr 1
        refine List.map_congr_left fun child member => ?_
        rw [ih child member (below child member), Function.comp_apply, CacheTree.name_inOrder]
      have names := (CacheTree.names_inOrder (.node name oid entries children)).nodup_iff.mpr own
      rw [CacheTree.inOrder_node] at names
      rw [sortCacheTree, level, if_pos, mapM_snd_ok, CacheTree.inOrder_node]
      · rfl
      · rw [List.isChain_map]
        exact (List.pairwise_map.mp names).isChain

-- The counts

theorem verifyForest_eq_ok {all : List IndexEntry}
    : verifyForest all lead children = .ok ()
      ↔ ∀ child ∈ children, verifyCacheTree all (lead ++ child.name ++ [slash]) child = .ok () := by
  induction children with
  | nil => simp [verifyForest]
  | cons child children ih =>
      rw [verifyForest, List.forall_mem_cons, ← ih]
      cases verifyCacheTree all (lead ++ child.name ++ [slash]) child with
      | error refusal => simp [bind, Except.bind]
      | ok done => simp [bind, Except.bind]

theorem verifyCacheTree_eq_ok {all : List IndexEntry} {tree : CacheTree}
    : verifyCacheTree all lead tree = .ok ()
      ↔ tree.Everywhere (fun lead tree => covered lead all = tree.entries) lead := by
  induction tree generalizing lead with
  | node name oid entries children ih =>
      rw [verifyCacheTree, CacheTree.everywhere_node]
      split
      · rename_i wrong
        exact iff_of_false (by simp) fun counted => wrong counted.1
      · rename_i right
        rw [verifyForest_eq_ok]
        refine ⟨fun accepted => ⟨not_not.mp right, fun child member => ?_⟩,
          fun counted child member => ?_⟩
        · exact (ih child member).mp (accepted child member)
        · exact (ih child member).mpr (counted.2 child member)

theorem le_of_prefix {path : Bytes} (begins : lead <+: path) : lead ≤ path := by
  obtain ⟨rest, rfl⟩ := begins
  exact List.le_append_left

theorem prefix_of_between {path later : Bytes} (above : lead ≤ path) (below : path < later)
    (begins : lead <+: later)
    : lead <+: path := by
  induction lead generalizing path later with
  | nil => exact List.nil_prefix
  | cons byte lead ih =>
      obtain ⟨rest, rfl⟩ := begins
      cases path with
      | nil => simp at above
      | cons head path =>
          rw [List.cons_append, List.cons_lt_cons_iff] at below
          rcases List.cons_le_cons_iff.mp above with less | ⟨rfl, reached⟩
          · rcases below with more | ⟨rfl, -⟩
            · exact absurd (Std.lt_trans less more) Std.lt_irrefl
            · exact absurd less Std.lt_irrefl
          · have below := (below.resolve_left Std.lt_irrefl).2
            exact List.cons_prefix_cons.mpr ⟨rfl, ih reached below (List.prefix_append lead rest)⟩

theorem covered_eq {entries : List IndexEntry}
    (sorted : entries.Pairwise (fun a b => a.path < b.path))
    : covered lead entries
      = (entries.map IndexEntry.path).countP (fun path => lead.isPrefixOf path) := by
  rw [covered, Gfs.Lib.Sorted.takeWhile_dropWhile sorted, List.countP_map,
    List.countP_eq_length_filter]
  · rfl
  · intro entry _ begins
    exact le_of_prefix (List.isPrefixOf_iff_prefix.mp begins)
  · intro entry _ later above below begins
    rw [List.isPrefixOf_iff_prefix] at begins ⊢
    exact prefix_of_between above below begins

-- The bytes

namespace CacheTree

mutual

/-- A cache tree as it stands in the index file, with its levels as they are. -/
def encoded : CacheTree → Bytes
  | .node name oid entries children =>
      name ++ [0] ++ decimal entries ++ [32] ++ decimal children.length ++ [10]
        ++ oid.raw ++ encodedForest children

def encodedForest : List CacheTree → Bytes
  | [] => []
  | child :: children => encoded child ++ encodedForest children

end

theorem encodedForest_eq_flatMap (children : List CacheTree)
    : encodedForest children = children.flatMap encoded := by
  induction children with
  | nil => rfl
  | cons child children ih => rw [encodedForest, ih, List.flatMap_cons]

theorem length_encoded_inOrder (tree : CacheTree)
    : tree.inOrder.encoded.length = tree.encoded.length := by
  induction tree with
  | node name oid entries children ih =>
      have perm := (CacheTree.node name oid entries children).children_inOrder
      rw [inOrder_node] at perm ⊢
      simp only [CacheTree.children] at perm
      have forest
          : (((children.map inOrder).mergeSort
              (fun a b => subtreeNameLe a.name b.name)).flatMap encoded).length
            = (children.flatMap encoded).length := by
        rw [List.length_flatMap, List.length_flatMap,
          (perm.map (fun child => child.encoded.length)).sum_eq, List.map_map,
          List.map_congr_left (g := fun child => child.encoded.length) ih]
      simp only [encoded, encodedForest_eq_flatMap, List.length_append, forest, perm.length_eq,
        List.length_map]

end CacheTree

/-- A directory's tree is a SHA-1 id. -/
def Sha1At (_lead : Bytes) (tree : CacheTree) : Prop :=
  tree.oid.algorithm = .sha1 ∧ tree.oid.raw.length = 20

theorem writeForest_ok (written : ∀ child ∈ children, writeCacheTree child = .ok child.encoded)
    : writeForest children = .ok (CacheTree.encodedForest children) := by
  induction children with
  | nil => rfl
  | cons child children ih =>
      obtain ⟨own, others⟩ := List.forall_mem_cons.mp written
      rw [writeForest, own, ih others]
      rfl

theorem writeCacheTree_ok {tree : CacheTree} (known : tree.Everywhere Sha1At lead)
    : writeCacheTree tree = .ok tree.encoded := by
  induction tree generalizing lead with
  | node name oid entries children ih =>
      obtain ⟨own, below⟩ := CacheTree.everywhere_node.mp known
      have sha1 : oid.algorithm = .sha1 := own.1
      rw [writeCacheTree, if_neg (not_not.mpr sha1),
        writeForest_ok (fun child member => ih child member (below child member)),
        CacheTree.encoded]
      rfl

-- The extension

/-- A directory counts the paths that its prefix begins. -/
def CountedAt (paths : List Bytes) (lead : Bytes) (tree : CacheTree) : Prop :=
  tree.entries = paths.countP (fun path => lead.isPrefixOf path)

/-- A cache tree that describes some entries. -/
structure Consistent (entries : List IndexEntry) (root : CacheTree) : Prop where
  unnamed : root.name = []
  known : root.Everywhere Sha1At []
  distinct : root.Everywhere DistinctAt []
  counted : root.Everywhere (CountedAt (entries.map IndexEntry.path)) []

/-- The extension of a cache tree, in Git's order. -/
def extensionOf : Option CacheTree → Bytes
  | none => []
  | some root => [84, 82, 69, 69] ++ beBytes 4 root.encoded.length ++ root.inOrder.encoded

section Extension

variable {entries : List IndexEntry}

/-- A cache tree that describes the entries is written, unless it is too large. -/
theorem writeExtension_some (sorted : entries.Pairwise (fun a b => a.path < b.path))
    {root : CacheTree} (consistent : Consistent entries root)
    : writeExtension entries (some root)
      = if 2 ^ 32 ≤ root.encoded.length then
          .error ⟨.resourceLimit, "cache tree is too large to record".toList⟩
        else .ok (extensionOf (some root)) := by
  have counted := consistent.counted.inOrder (fun _ tree counted => by
    rw [CountedAt, tree.entries_inOrder]
    exact counted)
  have known := consistent.known.inOrder (fun _ tree known => by
    rw [Sha1At, tree.oid_inOrder]
    exact known)
  have accepted : verifyCacheTree entries [] root.inOrder = .ok () := by
    rw [verifyCacheTree_eq_ok]
    refine counted.mono fun lead tree counted => ?_
    rw [covered_eq sorted]
    exact counted.symm
  rw [writeExtension, sortCacheTree_ok consistent.distinct]
  simp only [bind, Except.bind, accepted, writeCacheTree_ok known, extensionOf,
    CacheTree.length_encoded_inOrder]
  split <;> rfl

theorem writeExtension_ok (sorted : entries.Pairwise (fun a b => a.path < b.path))
    {cacheTree : Option CacheTree} (consistent : ∀ root ∈ cacheTree, Consistent entries root)
    (small : ∀ root ∈ cacheTree, root.encoded.length < 2 ^ 32)
    : writeExtension entries cacheTree = .ok (extensionOf cacheTree) := by
  cases cacheTree with
  | none => rfl
  | some root =>
      rw [writeExtension_some sorted (consistent root rfl),
        if_neg (Nat.not_le.mpr (small root rfl))]

private theorem digit_lt {n : Nat} {c : Char} (member : c ∈ Nat.toDigits 10 n) : c.toNat < 128 := by
  have digit := isDigit_of_mem_toDigits member
  simp only [Char.isDigit, ge_iff_le, Bool.and_eq_true, decide_eq_true_eq] at digit
  have high : c.toNat ≤ 57 := digit.2
  omega

theorem fromUtf8_counts (count below : Nat)
    : Text.fromUtf8 (decimal count ++ 32 :: decimal below)
      = some (Nat.toDigits 10 count ++ ' ' :: Nat.toDigits 10 below) := by
  rw [Text.fromUtf8_eq_some, Text.utf8_ascii]
  · rw [List.map_append, List.map_cons]
    rfl
  · intro c member
    rcases List.mem_append.mp member with digit | later
    · exact digit_lt digit
    · rcases List.mem_cons.mp later with rfl | digit
      · decide
      · exact digit_lt digit

/-- The root's id is read back from a cache tree. -/
theorem rootOfTree_encoded {root : CacheTree} (unnamed : root.name = [])
    (sized : root.oid.raw.length = 20) (few : root.entries < 2 ^ 63)
    : rootOfTree root.encoded = some root.oid.raw := by
  obtain ⟨name, oid, count, children⟩ := root
  simp only [CacheTree.name, CacheTree.oid, CacheTree.entries] at unnamed sized few ⊢
  subst unnamed
  have clean (n : Nat) : 10 ∉ decimal n := fun member => by
    cases isDigit_of_mem_decimal member
  have line : 10 ∉ decimal count ++ 32 :: decimal children.length := by
    simp [clean]
  have body
      : (CacheTree.node [] oid count children).encoded
        = 0 :: ((decimal count ++ 32 :: decimal children.length)
          ++ 10 :: (oid.raw ++ CacheTree.encodedForest children)) := by
    simp [CacheTree.encoded]
  have counted
      : (Nat.toDigits 10 count ++ ' ' :: Nat.toDigits 10 children.length).takeWhile (· ≠ ' ')
        = displayInt count := by
    rw [List.takeWhile_append_of_pos, List.takeWhile_cons_of_neg (by simp), List.append_nil]
    · rw [displayInt, if_neg (by omega), Int.toNat_natCast]
    · intro c member
      rw [decide_eq_true_iff]
      rintro rfl
      cases isDigit_of_mem_toDigits member
  have read : parseSigned 64 (displayInt count) = some (count : Int) :=
    parseSigned_displayInt (by omega) (by omega)
  have id_ : slice ((decimal count ++ 32 :: decimal children.length)
        ++ 10 :: (oid.raw ++ CacheTree.encodedForest children))
        ((decimal count ++ 32 :: decimal children.length).length + 1)
        ((decimal count ++ 32 :: decimal children.length).length + 21)
      = some oid.raw := by
    rw [List.append_cons]
    exact slice_append (by rw [List.length_append]; rfl) (by omega)
  rw [rootOfTree, body]
  simp only [List.head?_cons, List.tail_cons, if_true, Option.bind_eq_bind, Option.bind_some,
    findIdx?_first line, List.take_left, fromUtf8_counts, counted, read, id_]
  rw [if_pos (by omega)]

end Extension

end Gfs.Git.Index
