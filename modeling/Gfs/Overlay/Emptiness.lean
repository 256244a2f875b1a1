import Gfs.Overlay.Editing

/-! The caller's question whether a directory is empty: the base's listing and the overlay's
index of children answer it for the merged view.
-/

namespace Gfs.Overlay

open Gfs.Types
open Std (ExtTreeMap ExtTreeSet)

variable {digests : Digests} {base : BaseTree}

-- Children

/-- The child name on the way to a path is the one component by which the path extends the
directory.
-/
theorem childName_eq_some {dir path : BytePath} (isDir : IsDirPath dir) {name : Bytes}
    : childName dir path = some name ↔ IsComponent name ∧ path = dir.join name := by
  have component : ∀ rest : Bytes,
      (!rest.isEmpty && !rest.contains slash) = true ↔ IsComponent rest := by
    intro rest
    simp [IsComponent]
  rcases isDir with rfl | formed
  · simp only [childName, ↓reduceIte, Option.filter_some, join_root]
    constructor
    · intro found
      split at found
      · rename_i holds
        cases found
        exact ⟨(component _).mp holds, rfl⟩
      · cases found
    · intro both
      rw [if_pos ((component _).mpr (both.2 ▸ both.1)), both.2]
  · simp only [childName, formed.1, ↓reduceIte, formed.join]
    constructor
    · intro found
      obtain ⟨rest, holds⟩ := Option.filter_eq_some_iff.mp found
      split at rest
      · cases rest
      · rename_i extends_
        simp only [Bool.or_eq_true, Bool.not_eq_true', decide_eq_true_eq, bne_iff_ne, ne_eq,
          not_or, Bool.not_eq_false, Nat.not_le, not_not, List.isPrefixOf_iff_prefix] at extends_
        obtain ⟨⟨⟨tail, rfl⟩, longer⟩, next⟩ := extends_
        cases tail with
        | nil => simp at longer
        | cons head tail =>
            have same : head = slash := by simpa using next
            subst same
            have taken : tail = name := by
              simpa [List.drop_append, List.drop_eq_nil_of_le] using rest
            subst taken
            exact ⟨(component _).mp holds, rfl⟩
    · intro both
      obtain ⟨isComponent, rfl⟩ := both
      refine Option.filter_eq_some_iff.mpr ⟨?_, (component _).mpr isComponent⟩
      rw [if_neg (by simp)]
      simp [List.drop_append, List.drop_eq_nil_of_le]

/-- The base's listing of a directory: the components it has a node under. -/
theorem BaseTree.mem_childNames {dir : BytePath} (isDir : IsDirPath dir) {name : Bytes}
    : name ∈ base.childNames dir
      ↔ IsComponent name ∧ (base.node (dir.join name)).isSome = true := by
  simp only [BaseTree.childNames, List.mem_filterMap, childName_eq_some isDir]
  constructor
  · intro listed
    obtain ⟨path, member, component, rfl⟩ := listed
    refine ⟨component, ?_⟩
    have formed := isDir.wellFormed_join component
    have held : (base.nodes[dir.join name]?).isSome = true := by
      rw [ExtTreeMap.isSome_getElem?_iff_mem]
      exact ExtTreeMap.mem_keys.mp member
    obtain ⟨node, found⟩ := Option.isSome_iff_exists.mp held
    obtain ⟨-, kinds, -, -⟩ := base.placed _ node found
    obtain ⟨kind, same⟩ := Option.isSome_iff_exists.mp kinds
    simp [BaseTree.node, BaseTree.get, formed.1, found, Node.ofBase, same]
  · intro both
    obtain ⟨component, held⟩ := both
    refine ⟨dir.join name, ?_, component, rfl⟩
    obtain ⟨node, found⟩ := Option.isSome_iff_exists.mp held
    obtain ⟨raw, got, -⟩ := Option.bind_eq_some_iff.mp found
    simp only [BaseTree.get] at got
    split at got
    · cases got
    · rw [ExtTreeMap.mem_keys, ← ExtTreeMap.isSome_getElem?_iff_mem, got]
      rfl

/-- The mask of a directory is what hides or masks its children. -/
theorem masksBase_iff {rows : Rows} {dir : BytePath} (isDir : IsDirPath dir) {name : Bytes}
    (component : IsComponent name)
    : masksBase rows dir = true ↔ Blocked rows (dir.join name) ∨ Masked rows (dir.join name) := by
  have above := fun a => @IsDirPath.mem_ancestorsOf_join dir a isDir name component
  simp only [masksBase, Bool.or_eq_true, List.any_eq_true, Blocked, Masked, above]
  constructor
  · intro hides
    have stands : ∃ a, (a = dir ∨ a ∈ ancestorsOf dir)
        ∧ ∃ entry, rows[a]? = some entry
            ∧ ((!entry.present || !entry.kind.isDir) || entry.opaqueDir) = true := by
      rcases hides with ⟨a, member, hides⟩ | hides
      · cases found : rows[a]? with
        | none => simp [found] at hides
        | some entry => exact ⟨a, Or.inr member, entry, found, by simpa [found] using hides⟩
      · cases found : rows[dir]? with
        | none => simp [found] at hides
        | some entry => exact ⟨dir, Or.inl rfl, entry, found, by simpa [found] using hides⟩
    obtain ⟨a, member, entry, found, hides⟩ := stands
    simp only [Bool.or_eq_true, Bool.not_eq_true'] at hides
    rcases hides with stops | masks
    · exact Or.inl ⟨a, member, entry, found, stops⟩
    · exact Or.inr ⟨a, member, entry, found, masks⟩
  · intro stands
    have hides : ∃ a, (a = dir ∨ a ∈ ancestorsOf dir)
        ∧ ∃ entry, rows[a]? = some entry
            ∧ ((!entry.present || !entry.kind.isDir) || entry.opaqueDir) = true := by
      rcases stands with ⟨a, member, entry, found, stops⟩ | ⟨a, member, entry, found, masks⟩
      · exact ⟨a, member, entry, found, by simpa using Or.inl stops⟩
      · exact ⟨a, member, entry, found, by simp [masks]⟩
    obtain ⟨a, member, entry, found, hides⟩ := hides
    rcases member with rfl | member
    · exact Or.inr (by simpa [found] using hides)
    · exact Or.inl ⟨a, member, by simpa [found] using hides⟩

theorem Sound.formed_of_shows {core : Core} (sound : Sound digests base core)
    {path : BytePath} {kind : OverlayKind} (shows : kindAt base core.rows path = some kind)
    : WellFormed path := by
  rcases kindAt_eq_some.mp shows with ⟨entry, resolved, -⟩ | ⟨-, node, listed, -⟩
  · exact (sound.keyed path entry (resolve_eq_overlay.mp resolved).2.1).2
  · obtain ⟨raw, got, -⟩ := Option.bind_eq_some_iff.mp listed
    simp only [BaseTree.get] at got
    split at got
    · cases got
    · exact (base.placed path raw got).1

theorem hasChild_iff {overlay : Overlay} (indexed : overlay.Indexed)
    (keyed : Keyed overlay.entries) {dir : BytePath} (isDir : IsDirPath dir)
    : (((overlay.children[dir]?.getD ∅).toList).any (fun name =>
        (overlay.entries[dir.join name]?).any (·.present))) = true
      ↔ ∃ name entry, IsComponent name
          ∧ overlay.entries[dir.join name]? = some entry ∧ entry.present = true := by
  simp only [List.any_eq_true, ExtTreeSet.mem_toList, indexed dir]
  constructor
  · intro listed
    obtain ⟨name, ⟨path, parent, called, held⟩, shows⟩ := listed
    obtain ⟨entry, found, present⟩ := (Option.any_eq_true _ _).mp shows
    obtain ⟨row, there⟩ := Option.isSome_iff_exists.mp held
    have formed := (keyed path row there).2
    exact ⟨name, entry, called ▸ formed.split.2.1, found, present⟩
  · intro there
    obtain ⟨name, entry, component, found, present⟩ := there
    obtain ⟨parent, called⟩ := isDir.split_join component
    exact ⟨name, ⟨dir.join name, parent, called, by rw [found]; rfl⟩,
      (Option.any_eq_true _ _).mpr ⟨entry, found, present⟩⟩

/-- The caller's answer is that nothing of the merged view shows below the directory. -/
theorem mergedDirIsEmpty_iff {overlay : Overlay} (sound : Sound digests base overlay.core)
    (indexed : overlay.Indexed) {dir : BytePath} (isDir : IsDirPath dir)
    : overlay.mergedDirIsEmpty dir (base.childNames dir) = true
      ↔ ∀ below, dir ∈ ancestorsOf below → kindAt base overlay.entries below = none := by
  have child {name : Bytes} (component : IsComponent name)
      : dir ∈ ancestorsOf (dir.join name) :=
    (isDir.mem_ancestorsOf_join component).mpr (Or.inl rfl)
  have rowsChild := hasChild_iff indexed sound.keyed isDir
  simp only [Overlay.mergedDirIsEmpty]
  constructor
  · intro empty below above
    cases shows : kindAt base overlay.entries below with
    | none => rfl
    | some kind =>
        exfalso
        obtain ⟨-, name, component, towards⟩ :=
          (sound.formed_of_shows shows).child_towards above
        have childShows : ∃ kind, kindAt base overlay.entries (dir.join name) = some kind := by
          rcases towards with same | member
          · exact ⟨kind, same ▸ shows⟩
          · exact ⟨_, sound.placed.kindAt_ancestor shows member
              (isDir.wellFormed_join component).1⟩
        obtain ⟨kind, childShows⟩ := childShows
        rcases kindAt_eq_some.mp childShows with ⟨entry, resolved, -⟩ | ⟨resolved, node, listed, -⟩
        · obtain ⟨-, found, present⟩ := resolve_eq_overlay.mp resolved
          rw [if_pos (rowsChild.mpr ⟨name, entry, component, found, present⟩)] at empty
          cases empty
        · obtain ⟨clear, missing, shown⟩ := resolve_eq_base.mp resolved
          have unmasked : ¬ masksBase overlay.entries dir = true := by
            rw [masksBase_iff isDir component]
            exact fun either => either.elim clear shown
          rw [if_neg unmasked] at empty
          split at empty
          · cases empty
          · have listedName : name ∈ base.childNames dir :=
              (BaseTree.mem_childNames isDir).mpr ⟨component, by rw [listed]; rfl⟩
            have hidden := List.all_eq_true.mp empty name listedName
            rw [missing] at hidden
            cases hidden
  · intro bare
    have noRow : ¬ (((overlay.children[dir]?.getD ∅).toList).any (fun name =>
        (overlay.entries[dir.join name]?).any (·.present))) = true := by
      rw [rowsChild]
      intro there
      obtain ⟨name, entry, component, found, present⟩ := there
      rw [sound.placed.not_present sound.keyed (bare _ (child component)) found] at present
      cases present
    rw [if_neg noRow]
    split
    · rfl
    · rename_i unmasked
      refine List.all_eq_true.mpr ?_
      intro name listedName
      obtain ⟨component, listed⟩ := (BaseTree.mem_childNames isDir).mp listedName
      rw [masksBase_iff isDir component, not_or] at unmasked
      have nothing := bare _ (child component)
      cases found : overlay.entries[dir.join name]? with
      | none =>
          have resolved := resolve_eq_base.mpr ⟨unmasked.1, found, unmasked.2⟩
          simp only [kindAt, lookup, resolved, Option.map_eq_none_iff] at nothing
          rw [nothing] at listed
          cases listed
      | some entry =>
          simp [sound.placed.not_present sound.keyed nothing found]

end Gfs.Overlay
