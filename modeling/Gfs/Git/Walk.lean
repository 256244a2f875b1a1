import Gfs.Git.Repository
import Gfs.Lib.Mapped

/-! What the walks and listings of `Git.Repository` come by: the leaves of a commit's tree, each
once. A leaf is found by its names alone, with no walk.
-/

namespace Gfs.Git

open Gfs.Types

-- Leaves

namespace ObjectDb

variable (db : ObjectDb)

/-- The entry under some names below a tree that is no directory. -/
def leafAt : ObjectId → List Bytes → Option DecodedEntry
  | _, [] => none
  | oid, [name] =>
      ((db.tree oid).bind (fun object => (DecodedTree.new object).get name)).filter
        (fun entry => !entry.isTree)
  | oid, name :: names =>
      (((db.tree oid).bind (fun object => (DecodedTree.new object).get name)).filter
        DecodedEntry.isTree).bind (fun entry => leafAt entry.oid names)

/-- The leaf at a path of a commit. -/
def leaf (commit : ObjectId) (path : BytePath) : Option DecodedEntry :=
  (db.commit commit).bind (fun found => db.leafAt found.tree (path.splitOn slash))

/-- The mode and the id of the regular or executable file at a path of a commit. -/
def fileAt (commit : ObjectId) (path : BytePath) : Option (Nat × ObjectId) :=
  ((db.leaf commit path).filter (fun entry => isSearchable entry.mode)).map
    (fun entry => (entry.mode, entry.oid))

/-- A leaf below one of the pending trees, and its path. -/
def Under (stack : List (ObjectId × BytePath)) (path : BytePath) (entry : DecodedEntry) : Prop :=
  ∃ oid lead names,
    (oid, lead) ∈ stack
    ∧ db.leafAt oid names = some entry
    ∧ path = names.foldl BytePath.join lead

end ObjectDb

section Leaves

variable {db : ObjectDb} {oid : ObjectId} {object : TreeObject}

variable {entry : DecodedEntry}

theorem leafAt_singleton (found : db.tree oid = some object) {name : Bytes}
    : db.leafAt oid [name] = some entry
      ↔ entry ∈ object.entries ∧ entry.name = name ∧ entry.isTree = false := by
  rw [ObjectDb.leafAt, found, Option.bind_some, Option.filter_eq_some_iff, DecodedTree.get_new]
  simp [and_assoc]

theorem leafAt_cons (found : db.tree oid = some object) {name next : Bytes} {names : List Bytes}
    : db.leafAt oid (name :: next :: names) = some entry
      ↔ ∃ directory ∈ object.entries,
          directory.name = name
          ∧ directory.isTree = true
          ∧ db.leafAt directory.oid (next :: names) = some entry := by
  rw [ObjectDb.leafAt, found, Option.bind_some, Option.bind_eq_some_iff]
  · simp only [Option.filter_eq_some_iff, DecodedTree.get_new, and_assoc]
  · exact fun equal => nomatch equal

/-- Names that lead to a leaf are components. -/
theorem leafAt_components {oid : ObjectId} {names : List Bytes}
    (leaf : db.leafAt oid names = some entry)
    : names ≠ [] ∧ (∀ name ∈ names, IsComponent name) ∧ names.getLast? = some entry.name := by
  induction names generalizing oid with
  | nil => cases leaf
  | cons name names ih =>
      cases found : db.tree oid with
      | none =>
          cases names with
          | nil => simp [ObjectDb.leafAt, found] at leaf
          | cons next names => simp [ObjectDb.leafAt, found] at leaf
      | some object =>
          cases names with
          | nil =>
              obtain ⟨member, rfl, -⟩ := (leafAt_singleton found).mp leaf
              exact ⟨List.cons_ne_nil _ _, by simpa using object.named entry member, rfl⟩
          | cons next names =>
              obtain ⟨directory, member, rfl, -, below⟩ := (leafAt_cons found).mp leaf
              obtain ⟨-, components, last⟩ := ih below
              refine ⟨List.cons_ne_nil _ _, ?_, by simpa using last⟩
              intro name listed
              rcases List.mem_cons.mp listed with rfl | later
              · exact object.named directory member
              · exact components name later

/-- What a popped tree has below it: its own leaves, and what its subtrees have. -/
theorem under_cons (found : db.tree oid = some object) (lead : BytePath) (lastFirst : Bool)
    (stack : List (ObjectId × BytePath)) {path : BytePath}
    : db.Under ((oid, lead) :: stack) path entry
      ↔ (entry ∈ object.entries ∧ entry.isTree = false ∧ path = lead.join entry.name)
        ∨ db.Under
            ((if lastFirst then (ObjectDb.subtrees lead (.new object)).reverse
              else ObjectDb.subtrees lead (.new object))
            ++ stack)
            path entry := by
  have pending
      : ∀ next,
          next
              ∈ (if lastFirst then (ObjectDb.subtrees lead (.new object)).reverse
                else ObjectDb.subtrees lead (.new object))
                ++ stack
            ↔ (∃ directory ∈ object.entries,
                directory.isTree = true ∧ (directory.oid, lead.join directory.name) = next)
              ∨ next ∈ stack := by
    intro next
    rw [List.mem_append]
    refine or_congr_left ?_
    cases lastFirst <;>
      simp [ObjectDb.subtrees, DecodedTree.mem_new, and_assoc]
  constructor
  · rintro ⟨start, lead', names, member, leaf, rfl⟩
    rcases List.mem_cons.mp member with here | later
    · cases here
      rcases names with - | ⟨name, - | ⟨next, names⟩⟩
      · cases leaf
      · obtain ⟨listed, rfl, file⟩ := (leafAt_singleton found).mp leaf
        exact .inl ⟨listed, file, rfl⟩
      · obtain ⟨directory, listed, rfl, tree, below⟩ := (leafAt_cons found).mp leaf
        exact .inr ⟨directory.oid, _, next :: names,
          (pending _).mpr (.inl ⟨directory, listed, tree, rfl⟩), below, rfl⟩
    · exact .inr ⟨start, lead', names, (pending _).mpr (.inr later), leaf, rfl⟩
  · rintro (⟨listed, file, rfl⟩ | ⟨start, lead', names, member, leaf, rfl⟩)
    · exact ⟨oid, lead, [entry.name], List.mem_cons_self,
        (leafAt_singleton found).mpr ⟨listed, rfl, file⟩, rfl⟩
    · rcases (pending _).mp member with ⟨directory, listed, tree, same⟩ | later
      · cases same
        obtain ⟨next, names, rfl⟩ := List.exists_cons_of_ne_nil (leafAt_components leaf).1
        exact ⟨oid, lead, directory.name :: next :: names, List.mem_cons_self,
          (leafAt_cons found).mpr ⟨directory, listed, rfl, tree, leaf⟩, rfl⟩
      · exact ⟨start, lead', names, List.mem_cons_of_mem _ later, leaf, rfl⟩

end Leaves

-- Paths

variable {names : List Bytes}

theorem foldl_join_of_wellFormed {lead : BytePath} (formed : WellFormed lead)
    (components : ∀ name ∈ names, IsComponent name)
    : names.foldl BytePath.join lead = lead ++ names.flatMap (fun name => slash :: name) := by
  induction names generalizing lead with
  | nil => simp
  | cons name names ih =>
      have next : WellFormed (lead ++ slash :: name) :=
        wellFormed_append.mpr ⟨formed, (components name List.mem_cons_self).wellFormed⟩
      rw [List.foldl_cons, formed.join, ih next fun other member =>
        components other (List.mem_cons_of_mem _ member)]
      simp

theorem foldl_join_root (components : ∀ name ∈ names, IsComponent name)
    : names.foldl BytePath.join [] = [slash].intercalate names := by
  cases names with
  | nil => rfl
  | cons name names =>
      rw [List.foldl_cons, join_root,
        foldl_join_of_wellFormed (components name List.mem_cons_self).wellFormed
          fun other member => components other (List.mem_cons_of_mem _ member)]
      clear components
      induction names generalizing name with
      | nil => simp
      | cons next names ih =>
          rw [List.intercalate_cons_cons, List.flatMap_cons, ← ih next]
          simp

theorem splitOn_foldl_join (nonempty : names ≠ []) (components : ∀ name ∈ names, IsComponent name)
    : (names.foldl BytePath.join []).splitOn slash = names := by
  rw [foldl_join_root components]
  exact List.splitOn_intercalate _ (fun name member => (components name member).2) nonempty

theorem leafAt_path {db : ObjectDb} {oid : ObjectId} {entry : DecodedEntry}
    (leaf : db.leafAt oid names = some entry)
    : (names.foldl BytePath.join []).splitOn slash = names :=
  splitOn_foldl_join (leafAt_components leaf).1 (leafAt_components leaf).2.1

theorem under_root {db : ObjectDb} {commit : ObjectId} {found : CommitMeta}
    (committed : db.commit commit = some found) {path : BytePath} {entry : DecodedEntry}
    : db.Under [(found.tree, [])] path entry ↔ db.leaf commit path = some entry := by
  rw [ObjectDb.leaf, committed, Option.bind_some]
  constructor
  · rintro ⟨oid, lead, names, member, leaf, rfl⟩
    cases List.mem_singleton.mp member
    rw [leafAt_path leaf]
    exact leaf
  · intro leaf
    refine ⟨found.tree, [], _, List.mem_singleton_self _, leaf, ?_⟩
    rw [foldl_join_root (leafAt_components leaf).2.1, List.intercalate_splitOn]

-- Walks

section Walks

variable {db : ObjectDb} {α : Type}

variable {stack : List (ObjectId × BytePath)} {visited : List WalkEntry} {object : TreeObject}
  {commit : ObjectId} {found : CommitMeta}

/-- A walk that succeeds visits the leaves below its stack, and nothing else. -/
theorem mem_walk {lastFirst : Bool} {visit : BytePath → DecodedEntry → Except GfsError (List α)}
    {visited : List α} (ran : db.walk lastFirst visit stack = .ok visited)
    : (∀ path entry, db.Under stack path entry → ∃ results, visit path entry = .ok results)
      ∧ ∀ result,
          result ∈ visited
          ↔ ∃ path entry results,
              db.Under stack path entry ∧ visit path entry = .ok results ∧ result ∈ results := by
  induction stack using ObjectDb.walk.induct db lastFirst
    generalizing visited with
  | case1 =>
      rw [ObjectDb.walk] at ran
      cases ran
      constructor
      · rintro path entry ⟨_, _, _, member, _⟩
        cases member
      · intro result
        constructor
        · intro member
          cases member
        · rintro ⟨_, _, _, ⟨_, _, _, member, _⟩, _⟩
          cases member
  | case2 oid lead stack missing =>
      rw [ObjectDb.walk] at ran
      split at ran
      · cases ran
      · rename_i found
        rw [missing] at found
        cases found
  | case3 oid lead stack object found ih =>
      rw [ObjectDb.walk] at ran
      split at ran
      · cases ran
      rename_i other found'
      obtain rfl : object = other := Option.some.inj (found.symm.trans found')
      obtain ⟨here, visitedHere, later⟩ := bind_eq_ok.mp ran
      obtain ⟨rest, walked, whole⟩ := bind_eq_ok.mp later
      cases whole
      obtain ⟨succeeds, exactly⟩ := ih walked
      have own := Lib.Mapped.mapM_eq_ok.mp visitedHere
      -- The tree's own files, one list of results each.
      have ownVisit
          : ∀ entry ∈ object.entries, entry.isTree = false
            → ∃ results ∈ here, visit (lead.join entry.name) entry = .ok results := by
        intro entry member file
        have listed
            : entry ∈ (DecodedTree.new object).entries.filter (fun entry => !entry.isTree) :=
          List.mem_filter.mpr ⟨DecodedTree.mem_new.mpr member, by rw [file]; rfl⟩
        obtain ⟨results, given, ran⟩ := Lib.Mapped.exists_of_forall₂_left own listed
        exact ⟨results, given, ran⟩
      have ownResult
          : ∀ results ∈ here, ∃ entry ∈ object.entries,
              entry.isTree = false ∧ visit (lead.join entry.name) entry = .ok results := by
        intro results given
        obtain ⟨entry, listed, ran⟩ := Lib.Mapped.exists_of_forall₂_right own given
        obtain ⟨member, file⟩ := List.mem_filter.mp listed
        exact ⟨entry, DecodedTree.mem_new.mp member, by simpa using file, ran⟩
      constructor
      · intro path entry under
        rcases (under_cons found lead lastFirst stack).mp under with ⟨member, file, rfl⟩ | below
        · obtain ⟨results, -, ran⟩ := ownVisit entry member file
          exact ⟨results, ran⟩
        · exact succeeds path entry below
      · intro result
        rw [List.mem_append, List.mem_flatten, exactly]
        constructor
        · rintro (⟨results, given, member⟩ | ⟨path, entry, results, under, ran, member⟩)
          · obtain ⟨entry, listed, file, ran⟩ := ownResult results given
            exact ⟨_, entry, results,
              (under_cons found lead lastFirst stack).mpr (.inl ⟨listed, file, rfl⟩), ran, member⟩
          · exact ⟨path, entry, results, (under_cons found lead lastFirst stack).mpr (.inr under),
              ran, member⟩
        · rintro ⟨path, entry, results, under, ran, member⟩
          rcases (under_cons found lead lastFirst stack).mp under with ⟨listed, file, rfl⟩ | below
          · obtain ⟨results', given, ran'⟩ := ownVisit entry listed file
            rw [ran] at ran'
            cases ran'
            exact .inl ⟨results, given, member⟩
          · exact .inr ⟨path, entry, results, below, ran, member⟩

/-- The searchable files below some trees. -/
theorem mem_walk_visitFile (ran : db.walk false db.visitFile stack = .ok visited) {file : WalkEntry}
    : file ∈ visited
      ↔ ∃ entry,
          db.Under stack file.path entry
          ∧ isSearchable entry.mode = true
          ∧ file.mode = entry.mode
          ∧ file.oid = entry.oid
          ∧ db.readHeader entry.oid = .ok file.size := by
  rw [(mem_walk ran).2]
  constructor
  · rintro ⟨path, entry, results, under, visit, member⟩
    rw [ObjectDb.visitFile] at visit
    split at visit
    · rename_i searchable
      cases header : db.readHeader entry.oid with
      | error refusal =>
          rw [header] at visit
          cases visit
      | ok size =>
          rw [header] at visit
          cases visit
          cases List.mem_singleton.mp member
          exact ⟨entry, under, searchable, rfl, rfl, header⟩
    · cases visit
      cases member
  · rintro ⟨entry, under, searchable, moded, named, header⟩
    refine ⟨file.path, entry, [file], under, ?_, List.mem_singleton_self _⟩
    rw [ObjectDb.visitFile, if_pos searchable, header, ← moded, ← named]
    rfl

/-- Names below any directory stand behind what joining puts before the first of them. -/
theorem foldl_join_front (lead : BytePath)
    : ∃ front : Bytes,
        lead.length ≤ front.length
        ∧ ∀ names : List Bytes,
          names ≠ []
          → (∀ name ∈ names, IsComponent name)
          → names.foldl BytePath.join lead = front ++ names.foldl BytePath.join [] := by
  have behind (front mid : Bytes) (formed : WellFormed mid) (names : List Bytes)
      (components : ∀ name ∈ names, IsComponent name)
      : names.foldl BytePath.join (front ++ mid) = front ++ names.foldl BytePath.join mid := by
    induction names generalizing mid with
    | nil => rfl
    | cons name names ih =>
        obtain ⟨here, later⟩ := List.forall_mem_cons.mp components
        have last : (front ++ mid).getLast? ≠ some slash := by
          rw [List.getLast?_append_of_ne_nil _ formed.1]
          exact formed.getLast?_ne
        have joined : BytePath.join (front ++ mid) name = front ++ (mid ++ slash :: name) := by
          rw [BytePath.join, if_pos ⟨by simp [formed.1], last⟩]
          simp
        rw [List.foldl_cons, List.foldl_cons, joined, formed.join]
        exact ih _ (wellFormed_append.mpr ⟨formed, here.wellFormed⟩) later
  refine ⟨if lead ≠ [] ∧ lead.getLast? ≠ some slash then lead ++ [slash] else lead, ?_, ?_⟩
  · split
    · simp
    · exact Nat.le_refl _
  · intro names nonempty components
    cases names with
    | nil => exact (nonempty rfl).elim
    | cons name names =>
        obtain ⟨here, later⟩ := List.forall_mem_cons.mp components
        rw [List.foldl_cons, List.foldl_cons, join_root]
        exact behind _ name here.wellFormed names later

/-- A path below a directory has one list of names from there. -/
theorem foldl_join_injective {lead : BytePath} {names names' : List Bytes}
    (components : ∀ name ∈ names, IsComponent name)
    (components' : ∀ name ∈ names', IsComponent name)
    (same : names.foldl BytePath.join lead = names'.foldl BytePath.join lead)
    : names = names' := by
  obtain ⟨front, long, split⟩ := foldl_join_front lead
  have below (names : List Bytes) (nonempty : names ≠ [])
      (components : ∀ name ∈ names, IsComponent name)
      : names.foldl BytePath.join lead ≠ lead := by
    intro equal
    rw [split names nonempty components] at equal
    have lengths := congrArg List.length equal
    rw [List.length_append] at lengths
    have empty : names.foldl BytePath.join [] = [] := List.length_eq_zero_iff.mp (by omega)
    have parts := splitOn_foldl_join nonempty components
    rw [empty] at parts
    have one : names = [[]] := parts.symm
    exact (components [] (one ▸ List.mem_singleton_self _)).1 rfl
  cases names with
  | nil =>
      cases names' with
      | nil => rfl
      | cons name' names' => exact (below _ (List.cons_ne_nil _ _) components' same.symm).elim
  | cons name names =>
      cases names' with
      | nil => exact (below _ (List.cons_ne_nil _ _) components same).elim
      | cons name' names' =>
          rw [split _ (List.cons_ne_nil _ _) components,
            split _ (List.cons_ne_nil _ _) components'] at same
          have parts := congrArg (List.splitOn slash) (List.append_cancel_left same)
          rwa [splitOn_foldl_join (List.cons_ne_nil _ _) components,
            splitOn_foldl_join (List.cons_ne_nil _ _) components'] at parts

/-- No path is below both. -/
def Clear (lead lead' : BytePath) : Prop :=
  ∀ names names' : List Bytes,
    (∀ name ∈ names, IsComponent name)
    → (∀ name ∈ names', IsComponent name)
    → names.foldl BytePath.join lead ≠ names'.foldl BytePath.join lead'

/-- What is pending after a tree has been popped stays clear of each other. -/
theorem clear_subtrees {lead : BytePath}
    (clear : ((oid, lead) :: stack).Pairwise fun first second => Clear first.2 second.2)
    : (ObjectDb.subtrees lead (.new object) ++ stack).Pairwise
        fun first second => Clear first.2 second.2 := by
  obtain ⟨apart, later⟩ := List.pairwise_cons.mp clear
  have named : ∀ entry ∈ (DecodedTree.new object).entries.filter DecodedEntry.isTree,
      IsComponent entry.name :=
    fun entry member => object.named entry (DecodedTree.mem_new.mp (List.mem_filter.mp member).1)
  have names
      : ((DecodedTree.new object).entries.filter DecodedEntry.isTree).Pairwise
          fun first second => first.name ≠ second.name := by
    have all : ((DecodedTree.new object).entries.map DecodedEntry.name).Nodup :=
      ((List.mergeSort_perm object.entries inTreeOrder).map DecodedEntry.name).nodup_iff.mpr
        object.unique
    exact (List.pairwise_map.mp all).sublist List.filter_sublist
  rw [List.pairwise_append]
  refine ⟨?_, later, ?_⟩
  · rw [ObjectDb.subtrees, List.pairwise_map]
    refine names.imp_of_mem ?_
    intro first second inFirst inSecond different below below' components components' same
    have whole : first.name :: below = second.name :: below' :=
      @foldl_join_injective lead _ _
        (List.forall_mem_cons.mpr ⟨named first inFirst, components⟩)
        (List.forall_mem_cons.mpr ⟨named second inSecond, components'⟩) same
    exact different (List.cons.inj whole).1
  · intro child inside pending listed below below' components components'
    obtain ⟨entry, member, rfl⟩ := List.mem_map.mp inside
    exact apart pending listed (entry.name :: below) below'
      (List.forall_mem_cons.mpr ⟨named entry member, components⟩) components'

/-- A walk of trees that are clear of each other visits each path once. -/
theorem nodup_walk_visitFile (ran : db.walk false db.visitFile stack = .ok visited)
    (clear : stack.Pairwise fun first second => Clear first.2 second.2)
    : (visited.map WalkEntry.path).Nodup := by
  induction stack using ObjectDb.walk.induct db false generalizing visited with
  | case1 =>
      rw [ObjectDb.walk] at ran
      cases ran
      exact List.nodup_nil
  | case2 oid lead stack missing =>
      rw [ObjectDb.walk] at ran
      split at ran
      · cases ran
      · rename_i found
        rw [missing] at found
        cases found
  | case3 oid lead stack object found ih =>
      rw [ObjectDb.walk] at ran
      split at ran
      · cases ran
      rename_i other found'
      obtain rfl : object = other := Option.some.inj (found.symm.trans found')
      obtain ⟨here, visitedHere, later⟩ := bind_eq_ok.mp ran
      obtain ⟨rest, walked, whole⟩ := bind_eq_ok.mp later
      cases whole
      have pending
          : (ObjectDb.subtrees lead (.new object) ++ stack).Pairwise
              fun first second => Clear first.2 second.2 :=
        clear_subtrees clear
      have own := Lib.Mapped.mapM_eq_ok.mp visitedHere
      have named : ∀ entry ∈ (DecodedTree.new object).entries.filter (fun entry => !entry.isTree),
          IsComponent entry.name :=
        fun entry member =>
          object.named entry (DecodedTree.mem_new.mp (List.mem_filter.mp member).1)
      have sub
          : (here.flatten.map WalkEntry.path).Sublist
              (((DecodedTree.new object).entries.filter (fun entry => !entry.isTree)).map
                fun entry => lead.join entry.name) := by
        clear visitedHere later walked named ran
        generalize (DecodedTree.new object).entries.filter (fun entry => !entry.isTree) = files
          at own ⊢
        induction own with
        | nil => exact .slnil
        | @cons entry results entries others ran _ ih =>
            rw [List.flatten_cons, List.map_append, List.map_cons]
            rw [ObjectDb.visitFile] at ran
            split at ran
            · cases header : db.readHeader entry.oid with
              | error refusal =>
                  rw [header] at ran
                  cases ran
              | ok size =>
                  rw [header] at ran
                  cases ran
                  exact ih.cons_cons _
            · cases ran
              exact ih.cons _
      have distinct
          : (((DecodedTree.new object).entries.filter (fun entry => !entry.isTree)).map
              fun entry => lead.join entry.name).Nodup := by
        have all : ((DecodedTree.new object).entries.map DecodedEntry.name).Nodup :=
          ((List.mergeSort_perm object.entries inTreeOrder).map DecodedEntry.name).nodup_iff.mpr
            object.unique
        refine List.pairwise_map.mpr
          (((List.pairwise_map.mp all).sublist List.filter_sublist).imp_of_mem ?_)
        intro first second inFirst inSecond different same
        have whole : [first.name] = [second.name] :=
          @foldl_join_injective lead _ _ (List.forall_mem_singleton.mpr (named first inFirst))
            (List.forall_mem_singleton.mpr (named second inSecond)) same
        exact different (List.cons.inj whole).1
      rw [List.map_append]
      refine List.Nodup.append (distinct.sublist sub) (ih walked pending) ?_
      intro path inHere inRest
      obtain ⟨entry, listed, rfl⟩ := List.mem_map.mp (sub.subset inHere)
      obtain ⟨file, inside, same⟩ := List.mem_map.mp inRest
      obtain ⟨leaf, ⟨below, next, names, member, found, path⟩, -⟩ :=
        (mem_walk_visitFile walked).mp inside
      obtain ⟨nonempty, components, -⟩ := leafAt_components found
      have own := List.forall_mem_singleton.mpr (named entry listed)
      rw [path] at same
      rw [if_neg Bool.false_ne_true] at member
      rcases List.mem_append.mp member with child | other
      · obtain ⟨directory, isChild, pair⟩ := List.mem_map.mp child
        cases pair
        have component := object.named directory
          (DecodedTree.mem_new.mp (List.mem_filter.mp isChild).1)
        have whole : directory.name :: names = [entry.name] :=
          @foldl_join_injective lead _ _ (List.forall_mem_cons.mpr ⟨component, components⟩) own same
        exact nonempty (List.cons.inj whole).2
      · exact (List.pairwise_cons.mp clear).1 _ other [entry.name] names own components same.symm

theorem nodup_walkTree {root : BytePath} (ran : db.walkTree commit root = .ok visited)
    : (visited.map WalkEntry.path).Nodup := by
  have walked : ∃ start, db.walk false db.visitFile [(start, root)] = .ok visited := by
    rw [ObjectDb.walkTree] at ran
    split at ran
    · obtain ⟨start, _, walked⟩ := bind_eq_ok.mp ran
      exact ⟨start, walked⟩
    · obtain ⟨parent, _, ran⟩ := bind_eq_ok.mp ran
      cases named : parent.bind fun parent => parent.1.get parent.2 with
      | none =>
          rw [named] at ran
          cases ran
      | some entry =>
          rw [named] at ran
          dsimp only at ran
          split at ran
          · cases ran
          · exact ⟨entry.oid, ran⟩
  obtain ⟨start, walked⟩ := walked
  exact nodup_walk_visitFile walked (List.pairwise_singleton _ _)

theorem walkTree_child (committed : db.commit commit = some found)
    (rooted : db.tree found.tree = some object) {directory : DecodedEntry}
    (member : directory ∈ object.entries) (tree : directory.isTree = true)
    : db.walkTree commit directory.name
      = db.walk false db.visitFile [(directory.oid, directory.name)] := by
  have component := object.named directory member
  have only : BytePath.components directory.name = [directory.name] := by
    rw [BytePath.components, splitOn_component component.2]
    simp [component.1]
  have parent : db.walkToParent commit directory.name
      = .ok (some (.new object, directory.name)) := by
    simp only [ObjectDb.walkToParent, ObjectDb.findCommit, committed, Option.elim_some,
      ObjectDb.decodedTree, rooted, only, bind, Except.bind]
    rfl
  have isTree : directory.mode = Mode.directory := by simpa [DecodedEntry.isTree] using tree
  have get : (DecodedTree.new object).get directory.name = some directory :=
    DecodedTree.get_new.mpr ⟨member, rfl⟩
  rw [ObjectDb.walkTree, if_neg component.1, parent]
  simp only [bind, Except.bind, Option.bind_some, get, isTree, ne_eq, not_true_eq_false, if_false,
    pure, Except.pure]

theorem findCommit_eq_ok
    : db.findCommit commit = .ok found ↔ db.commit commit = some found := by
  rw [ObjectDb.findCommit]
  cases db.commit commit with
  | none => simp
  | some other => simp

theorem rooted_of_lfsPointers {pointers : List LfsEntry}
    (ran : db.lfsPointers commit = .ok pointers)
    : ∃ found object, db.commit commit = some found ∧ db.tree found.tree = some object := by
  obtain ⟨found, read, walked⟩ := bind_eq_ok.mp ran
  rw [ObjectDb.walk] at walked
  split at walked
  · cases walked
  · rename_i object rooted
    exact ⟨found, object, findCommit_eq_ok.mp read, rooted⟩

/-- The leaves of a tree are its own files, and the leaves below its directories. -/
theorem leaf_iff (committed : db.commit commit = some found)
    (rooted : db.tree found.tree = some object) {path : BytePath} {entry : DecodedEntry}
    : db.leaf commit path = some entry
      ↔ (entry ∈ object.entries ∧ entry.isTree = false ∧ path = entry.name)
        ∨ ∃ directory ∈ object.entries,
            directory.isTree = true
            ∧ db.Under [(directory.oid, directory.name)] path entry := by
  rw [← under_root committed, under_cons rooted [] false [], join_root]
  refine or_congr_right ?_
  constructor
  · rintro ⟨oid, lead, names, member, leaf, rfl⟩
    obtain ⟨directory, listed, tree, rfl, rfl⟩
        : ∃ directory ∈ object.entries,
            directory.isTree = true ∧ directory.oid = oid ∧ directory.name = lead := by
      simpa [ObjectDb.subtrees, DecodedTree.mem_new, join_root, and_assoc] using member
    exact ⟨directory, listed, tree, _, _, names, List.mem_singleton_self _, leaf, rfl⟩
  · rintro ⟨directory, listed, tree, oid, lead, names, member, leaf, rfl⟩
    cases List.mem_singleton.mp member
    refine ⟨directory.oid, directory.name, names, ?_, leaf, rfl⟩
    simp only [ObjectDb.subtrees, Bool.false_eq_true, if_false, List.append_nil, List.mem_map,
      List.mem_filter, DecodedTree.mem_new]
    exact ⟨directory, ⟨listed, tree⟩, rfl⟩

/-- The LFS entries of a commit are its searchable leaves with a pointer. -/
theorem mem_lfsPointers {pointers : List LfsEntry} (ran : db.lfsPointers commit = .ok pointers)
    {found : LfsEntry}
    : found ∈ pointers
      ↔ ∃ entry,
          db.leaf commit found.path = some entry
          ∧ isSearchable entry.mode = true
          ∧ found.blobOid = entry.oid
          ∧ db.readHeader entry.oid = .ok found.blobSize
          ∧ db.lfsPointerFor commit found.path (.fromMode entry.mode) entry.oid found.blobSize
            = .ok (some found.pointer) := by
  cases committed : db.commit commit with
  | none =>
      rw [ObjectDb.lfsPointers, ObjectDb.findCommit, committed] at ran
      cases ran
  | some recorded =>
      rw [ObjectDb.lfsPointers, ObjectDb.findCommit, committed] at ran
      simp only [← under_root committed]
      rw [(mem_walk ran).2]
      constructor
      · rintro ⟨path, entry, results, under, visit, member⟩
        rw [ObjectDb.visitPointer] at visit
        split at visit
        · rename_i searchable
          obtain ⟨size, header, visit⟩ := bind_eq_ok.mp visit
          obtain ⟨pointer, resolved, visit⟩ := bind_eq_ok.mp visit
          cases pointer with
          | none =>
              cases visit
              cases member
          | some pointer =>
              cases visit
              cases List.mem_singleton.mp member
              exact ⟨entry, under, searchable, rfl, header, resolved⟩
        · cases visit
          cases member
      · rintro ⟨entry, under, searchable, named, header, resolved⟩
        refine ⟨found.path, entry, [found], under, ?_, List.mem_singleton_self _⟩
        rw [ObjectDb.visitPointer, if_pos searchable, header]
        simp only [bind, Except.bind, resolved]
        rw [← named]
        rfl

end Walks

-- Listings

section Listings

variable {repo : Repository} {commit : ObjectId}

/-- Only a searchable entry has a pointer, and its size is its blob's. -/
theorem searchable_of_pointer {path : BytePath} {mode : Nat} {oid : ObjectId} {size : Nat}
    {target : Option Bytes} {pointer : LfsPointer}
    (pointed : repo.db.lfsPointerFor commit path (.fromMode mode) oid size = .ok (some pointer))
    (facts : repo.blobFacts (.fromMode mode) oid = .ok (size, target))
    : isSearchable mode = true ∧ repo.db.readHeader oid = .ok size := by
  rw [ObjectDb.lfsPointerFor] at pointed
  split at pointed
  · cases pointed
  · rename_i kinds
    have searchable : mode = Mode.regular ∨ mode = Mode.executable := by
      by_contra other
      obtain ⟨notRegular, notExecutable⟩ := not_or.mp other
      refine kinds ?_
      simp only [EntryKind.fromMode, notRegular, notExecutable, if_false]
      split_ifs <;> exact ⟨nofun, nofun⟩
    have header : repo.blobFacts (.fromMode mode) oid
        = (repo.db.readHeader oid).map (fun size => (size, none)) := by
      rcases searchable with rfl | rfl <;> rfl
    refine ⟨by rcases searchable with rfl | rfl <;> rfl, ?_⟩
    rw [header] at facts
    cases read : repo.db.readHeader oid with
    | error refusal =>
        rw [read] at facts
        cases facts
    | ok size =>
        rw [read] at facts
        cases facts
        rfl

/-- An entry keeps its path, kind and mode; its id is the blob's unless it is expanded. -/
theorem entryInfo_ok {path : BytePath} {decoded : DecodedEntry} {info : TreeEntryInfo}
    (ran : repo.entryInfo commit path decoded = .ok info)
    : info.path = path
      ∧ info.kind = .fromMode decoded.mode
      ∧ info.mode = decoded.mode
      ∧ (info.oid = decoded.oid
        ∨ isSearchable decoded.mode = true
          ∧ ∃ size pointer,
              repo.db.readHeader decoded.oid = .ok size
              ∧ repo.db.lfsPointerFor commit path (.fromMode decoded.mode) decoded.oid size
                = .ok (some pointer)) := by
  obtain ⟨⟨size, target⟩, facts, ran⟩ := bind_eq_ok.mp ran
  obtain ⟨⟨oid, shown⟩, resolved, ran⟩ := bind_eq_ok.mp ran
  cases ran
  refine ⟨rfl, rfl, rfl, ?_⟩
  rw [Repository.expanded] at resolved
  split at resolved
  · cases resolved
    exact .inl rfl
  · cases pointed
        : repo.db.lfsPointerFor commit path (.fromMode decoded.mode) decoded.oid size with
    | error refusal =>
        rw [pointed] at resolved
        cases resolved
    | ok answer =>
        rw [pointed] at resolved
        cases answer with
        | none =>
            cases resolved
            exact .inl rfl
        | some pointer =>
            obtain ⟨searchable, header⟩ := searchable_of_pointer pointed facts
            exact .inr ⟨searchable, size, pointer, header, pointed⟩

theorem directoryTree_root {db : ObjectDb} {found : CommitMeta} {object : TreeObject}
    (committed : db.commit commit = some found) (rooted : db.tree found.tree = some object)
    : db.directoryTree commit [] = .ok (some (.new object)) := by
  rw [ObjectDb.directoryTree, if_pos rfl, ObjectDb.findCommit, committed]
  change (db.decodedTree found.tree >>= fun tree => pure (some tree)) = _
  rw [ObjectDb.decodedTree, rooted]
  rfl

theorem listDirectory_root {found : CommitMeta} {object : TreeObject}
    (committed : repo.db.commit commit = some found)
    (rooted : repo.db.tree found.tree = some object) {after : Option Bytes} {limit : Nat}
    {page : DirectoryPage} (ran : repo.listDirectory commit [] after limit = .ok page)
    : let (entries, next) :=
        (DecodedTree.new object).page after (min (max limit 1) maxDirectoryPageSize)
      List.Forall₂ (fun decoded info => repo.entryInfo commit decoded.name decoded = .ok info)
          entries page.entries
        ∧ page.nextPageToken = next := by
  rw [Repository.listDirectory, directoryTree_root committed rooted] at ran
  obtain ⟨tree, again, ran⟩ := bind_eq_ok.mp ran
  cases again
  obtain ⟨entries, mapped, whole⟩ := bind_eq_ok.mp ran
  cases whole
  exact ⟨Lib.Mapped.mapM_eq_ok.mp mapped, rfl⟩

end Listings

end Gfs.Git
