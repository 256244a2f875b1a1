import Gfs.Overlay.Renaming

/-! The walk from the root: over sound rows it collects the merged view, path by path.
-/

namespace Gfs.Overlay

open Gfs.Types
open Gfs.Lib.Overwrites
open Std (ExtTreeMap ExtTreeSet)

variable {digests : Digests} {base : BaseTree} {overlay : Overlay}

-- One directory

theorem mem_childrenOf (indexed : overlay.Indexed) (keyed : Keyed overlay.entries)
    {dir : BytePath} (isDir : IsDirPath dir) {entry : OverlayEntry}
    : entry ∈ overlay.childrenOf dir
      ↔ ∃ name, IsComponent name
          ∧ overlay.entries[dir.join name]? = some entry ∧ entry.name = name := by
  simp only [Overlay.childrenOf, List.mem_filterMap, ExtTreeSet.mem_toList, indexed dir]
  constructor
  · intro listed
    obtain ⟨name, ⟨path, -, called, held⟩, found⟩ := listed
    obtain ⟨row, there⟩ := Option.isSome_iff_exists.mp held
    have component : IsComponent name := called ▸ (keyed path row there).2.split.2.1
    refine ⟨name, component, found, ?_⟩
    rw [OverlayEntry.name, (keyed _ entry found).1]
    exact (isDir.split_join component).2
  · intro there
    obtain ⟨name, component, found, -⟩ := there
    obtain ⟨parent, called⟩ := isDir.split_join component
    exact ⟨name, ⟨dir.join name, parent, called, by rw [found]; rfl⟩, found⟩

/-- What the walk lists in a directory is what the view shows one component below it. -/
theorem mem_walkChildren (sound : Sound digests base overlay.core) (indexed : overlay.Indexed)
    {dir : BytePath} (isDir : IsDirPath dir) {name : Bytes} {node : Node}
    : (name, node) ∈ walkChildren digests overlay base dir
      ↔ IsComponent name ∧ view digests overlay base (dir.join name) = some node := by
  simp only [walkChildren, List.mem_append, List.mem_filterMap, List.mem_map,
    Overlay.extraChildren, List.mem_filter, mem_childrenOf indexed sound.keyed isDir]
  constructor
  · intro listed
    rcases listed with ⟨other, fromBase, shown⟩ | ⟨entry, ⟨there, extra⟩, same⟩
    · have inBase : other ∈ base.childNames dir := by
        split at fromBase
        · cases fromBase
        · exact fromBase
      have component := ((BaseTree.mem_childNames isDir).mp inBase).1
      cases resolved : resolve overlay.entries (dir.join other) with
      | absent => simp [resolved] at shown
      | overlay entry =>
          simp only [resolved, Option.some.injEq, Prod.mk.injEq] at shown
          obtain ⟨rfl, rfl⟩ := shown
          exact ⟨component, by simp [view, lookup, resolved]⟩
      | base =>
          simp only [resolved, Option.map_eq_some_iff, Prod.mk.injEq] at shown
          obtain ⟨found, here, rfl, rfl⟩ := shown
          exact ⟨component, by simp [view, lookup, resolved, BaseTree.node, here]⟩
    · obtain ⟨called, component, found, rfl⟩ := there
      simp only [Prod.mk.injEq] at same
      obtain ⟨rfl, rfl⟩ := same
      have present : entry.present = true := by simp_all
      have resolved : resolve overlay.entries (dir.join entry.name) = .overlay entry :=
        sound.placed.resolve sound.keyed found present
      exact ⟨component, by simp [view, lookup, resolved]⟩
  · intro shown
    obtain ⟨component, seen⟩ := shown
    cases resolved : resolve overlay.entries (dir.join name) with
    | absent => simp [view, lookup, resolved] at seen
    | base =>
        obtain ⟨clear, -, bare⟩ := resolve_eq_base.mp resolved
        have unmasked : ¬ masksBase overlay.entries dir = true := by
          rw [masksBase_iff isDir component]
          exact fun either => either.elim clear bare
        have listed : base.node (dir.join name) = some node := by
          simpa [view, lookup, resolved] using seen
        refine Or.inl ⟨name, ?_, ?_⟩
        · rw [if_neg unmasked]
          exact (BaseTree.mem_childNames isDir).mpr ⟨component, by rw [listed]; rfl⟩
        · simp only [resolved]
          rw [show (base.get (dir.join name)).bind Node.ofBase = some node from listed]
          rfl
    | overlay entry =>
        obtain ⟨-, found, present⟩ := resolve_eq_overlay.mp resolved
        have same : nodeOf digests overlay base entry = node := by
          simpa [view, lookup, resolved] using seen
        have called : entry.name = name := by
          rw [OverlayEntry.name, (sound.keyed _ entry found).1]
          exact (isDir.split_join component).2
        -- The row is met under the base's name if the base lists it, else among the extra.
        by_cases inBase : name
            ∈ (if masksBase overlay.entries dir then [] else base.childNames dir)
        · refine Or.inl ⟨name, inBase, ?_⟩
          simp only [resolved, same]
        · refine Or.inr ⟨entry, ⟨⟨name, component, found, called⟩, ?_⟩, by rw [called, same]⟩
          simp only [present, called, Bool.true_and, Bool.not_eq_true',
            List.contains_eq_mem, decide_eq_false_iff_not]
          exact inBase

-- The whole tree

theorem view_of_mem_walk (sound : Sound digests base overlay.core) (indexed : overlay.Indexed)
    {fuel : Nat} {dir path : BytePath} (isDir : IsDirPath dir) {node : Node}
    (collected : (path, node) ∈ walk digests overlay base fuel dir)
    : dir ∈ ancestorsOf path ∧ view digests overlay base path = some node := by
  induction fuel generalizing dir with
  | zero => cases collected
  | succ fuel ih =>
      simp only [walk, List.mem_flatMap, List.mem_cons] at collected
      obtain ⟨⟨name, child⟩, listed, here | below⟩ := collected
      · obtain ⟨component, shown⟩ := (mem_walkChildren sound indexed isDir).mp listed
        simp only [Prod.mk.injEq] at here
        obtain ⟨rfl, rfl⟩ := here
        exact ⟨(isDir.mem_ancestorsOf_join component).mpr (Or.inl rfl), shown⟩
      · obtain ⟨component, -⟩ := (mem_walkChildren sound indexed isDir).mp listed
        split at below
        · obtain ⟨under, shown⟩ := ih (Or.inr (isDir.wellFormed_join component)) below
          have child := (isDir.mem_ancestorsOf_join component).mpr (Or.inl rfl)
          exact ⟨ancestorsOf_trans child under, shown⟩
        · cases below

/-- The walk reaches everything the view shows below a directory, given fuel for its depth.
Witness: induction on the fuel; the path goes through a child, which is longer, and which
the view shows as a directory.
-/
theorem mem_walk_of_view (sound : Sound digests base overlay.core) (indexed : overlay.Indexed)
    {fuel : Nat} {dir path : BytePath} {node : Node} (above : dir ∈ ancestorsOf path)
    (shown : view digests overlay base path = some node)
    (enough : path.length ≤ dir.length + fuel)
    : (path, node) ∈ walk digests overlay base fuel dir := by
  have kinds : kindAt base overlay.core.rows path = some node.kind := by
    have seen := view_kind digests overlay base path
    rw [shown] at seen
    exact seen.symm
  induction fuel generalizing dir with
  | zero =>
      have longer := length_lt_of_mem_ancestorsOf above
      omega
  | succ fuel ih =>
      obtain ⟨isDir, name, component, towards⟩ :=
        (sound.formed_of_shows kinds).child_towards above
      have child := (isDir.mem_ancestorsOf_join component).mpr (Or.inl rfl)
      have longer := length_lt_of_mem_ancestorsOf child
      simp only [walk, List.mem_flatMap, List.mem_cons]
      rcases towards with rfl | under
      · exact ⟨(name, node), (mem_walkChildren sound indexed isDir).mpr ⟨component, shown⟩,
          Or.inl rfl⟩
      · have directory := sound.placed.kindAt_ancestor kinds under
          (isDir.wellFormed_join component).1
        have seen := view_kind digests overlay base (dir.join name)
        rw [show kindAt base overlay.entries (dir.join name) = some .directory
          from directory] at seen
        obtain ⟨here, found, isDirectory⟩ := Option.map_eq_some_iff.mp seen
        refine ⟨(name, here), (mem_walkChildren sound indexed isDir).mpr ⟨component, found⟩,
          Or.inr ?_⟩
        rw [if_pos (OverlayKind.isDir_iff.mpr isDirectory)]
        refine ih under ?_
        simp only
        omega

private theorem length_le_foldr_max {path : BytePath} {paths : List BytePath}
    (member : path ∈ paths)
    : path.length ≤ (paths.map List.length).foldr max 0 := by
  induction paths with
  | nil => cases member
  | cons first rest ih =>
      simp only [List.map_cons, List.foldr_cons]
      rcases List.mem_cons.mp member with rfl | later
      · exact Nat.le_max_left _ _
      · exact Nat.le_trans (ih later) (Nat.le_max_right _ _)

/-- Whatever the view shows is a path of the overlay or of the base. -/
theorem length_le_pathBound {path : BytePath} {node : Node}
    (shown : view digests overlay base path = some node)
    : path.length ≤ pathBound overlay base := by
  refine length_le_foldr_max (List.mem_append.mpr ?_)
  simp only [view, lookup] at shown
  cases resolved : resolve overlay.entries path with
  | absent => simp [resolved] at shown
  | overlay entry =>
      obtain ⟨-, found, -⟩ := resolve_eq_overlay.mp resolved
      refine Or.inl (ExtTreeMap.mem_keys.mpr ?_)
      rw [← ExtTreeMap.isSome_getElem?_iff_mem, found]
      rfl
  | base =>
      simp only [resolved, Option.map_id_fun, id_eq] at shown
      obtain ⟨raw, got, -⟩ := Option.bind_eq_some_iff.mp shown
      simp only [BaseTree.get] at got
      split at got
      · cases got
      · refine Or.inr (ExtTreeMap.mem_keys.mpr ?_)
        rw [← ExtTreeMap.isSome_getElem?_iff_mem, got]
        rfl

/-- The map the walk builds is the merged view. -/
theorem getElem?_mergedView (sound : Sound digests base overlay.core)
    (indexed : overlay.Indexed) (path : BytePath)
    : (mergedView digests overlay base)[path]? = view digests overlay base path := by
  have inserts : ∀ (rows : List (BytePath × Node)) (start : Live),
      rows.foldl (fun out row => out.insert row.1 row.2) start
      = overwrite start (rows.map (fun row => (row.1, some row.2))) := by
    intro rows start
    rw [overwrite, List.foldl_map]
  rw [mergedView, inserts, getElem?_overwrite]
  have wrote {value : Option Node}
      (member
        : (path, value)
          ∈ (walk digests overlay base (pathBound overlay base + 1) BytePath.root).map
              (fun row => (row.1, some row.2)))
      : view digests overlay base path = value := by
    obtain ⟨⟨reached, node⟩, collected, same⟩ := List.mem_map.mp member
    simp only [Prod.mk.injEq] at same
    obtain ⟨rfl, rfl⟩ := same
    exact (view_of_mem_walk sound indexed (Or.inl rfl) collected).2
  cases last : lastWrite path _ with
  | some value => exact (wrote (mem_of_lastWrite last)).symm
  | none =>
      cases shown : view digests overlay base path with
      | none => simp
      | some node =>
          have kinds : kindAt base overlay.core.rows path = some node.kind := by
            have seen := view_kind digests overlay base path
            rw [shown] at seen
            exact seen.symm
          have nonroot := (sound.formed_of_shows kinds).1
          have bound := length_le_pathBound shown
          have collected := @mem_walk_of_view digests base overlay sound indexed
            (pathBound overlay base + 1) BytePath.root path node
            (mem_ancestorsOf.mpr ⟨nonroot, Or.inl rfl⟩) shown
            (by simp only [BytePath.root, List.length_nil]; omega)
          have member : (path, some node)
              ∈ (walk digests overlay base (pathBound overlay base + 1) BytePath.root).map
                  (fun row => (row.1, some row.2)) :=
            List.mem_map.mpr ⟨(path, node), collected, rfl⟩
          obtain ⟨value, written⟩ := exists_lastWrite member
          rw [last] at written
          cases written

end Gfs.Overlay
