import Gfs.Overlay.Walk

/-! What each step does to the merged view, as a function of the path: a node put or taken at
one path, or everything at and below one path moved to another.
-/

namespace Gfs.Overlay

open Gfs.Types
open Std (ExtTreeMap ExtTreeSet)

variable {digests : Digests} {base : BaseTree}

/-- No two contents of the base share an object id. -/
def BaseTree.Distinct (digests : Digests) (base : BaseTree) : Prop :=
  ∀ left ∈ base.nodes.toList, ∀ right ∈ base.nodes.toList,
    oidOfNode digests left.2 = oidOfNode digests right.2
    → left.2.content = right.2.content

instance (digests : Digests) (base : BaseTree) : Decidable (base.Distinct digests) :=
  inferInstanceAs (Decidable (∀ left ∈ base.nodes.toList, _))

/-- A filesystem with everything at and below `source` moved to `target`. -/
def relocated {α : Type} (source target : BytePath) (shown : BytePath → Option α)
    (path : BytePath)
    : Option α :=
  if isWithin path target then shown (source ++ path.drop target.length)
  else if isWithin path source then none
  else shown path

-- The base's bytes

theorem BaseTree.Distinct.content (distinct : base.Distinct digests) {path : BytePath}
    {node : BaseNode} (got : base.get path = some node)
    : base.contentOfOid digests (BaseTree.oidOfNode digests node) = some node.content := by
  have listed : (path, node) ∈ base.nodes.toList := by
    simp only [BaseTree.get] at got
    split at got
    · cases got
    · exact ExtTreeMap.mem_toList_iff_getElem?_eq_some.mpr got
  rw [BaseTree.contentOfOid, Option.map_eq_some_iff]
  cases found : base.nodes.toList.find? (fun row =>
      BaseTree.oidOfNode digests row.2 == BaseTree.oidOfNode digests node) with
  | none =>
      have differs := List.find?_eq_none.mp found (path, node) listed
      simp at differs
  | some row =>
      have same := List.find?_some found
      have member := List.mem_of_find?_eq_some found
      exact ⟨row, rfl, distinct row member (path, node) listed (by simpa using same)⟩

theorem BaseTree.get_directory {path : BytePath} {node : BaseNode}
    (got : base.get path = some node) (directory : node.kind = .directory)
    : node.content = [] := by
  simp only [BaseTree.get] at got
  split at got
  · cases got
  · exact (base.placed path node got).2.2.1 directory

-- One path

section OnePath

variable {core : Core} {path : BytePath} {old entry : OverlayEntry}

theorem Standing.view_eq (distinct : base.Distinct digests) (sound : Sound digests base core)
    (standing : Standing digests base core.rows path old)
    : core.view digests base path = some (core.node digests base old) := by
  cases standing with
  | own found present =>
      simp [Core.view, lookup, sound.placed.resolve sound.keyed found present]
  | @base node resolved got present kinds opacity content target renamedFrom facts =>
      have listed : base.node path = some ⟨old.kind, node.content⟩ := by
        simp [BaseTree.node, got, Node.ofBase, kinds]
      simp only [Core.view, lookup, resolved, listed, Option.map_some, id_eq,
        Option.some.injEq, Core.node, content]
      cases directory : old.kind.isDir with
      | true =>
          rw [OverlayKind.isDir_iff] at directory
          rw [directory, OverlayKind.fromEntryKind_eq_some] at kinds
          simp [target, BaseTree.get_directory got kinds]
      | false => simp [distinct.content got]

theorem Standing.view_put (sound : Sound digests base core)
    (standing : Standing digests base core.rows path old) (revises : Revises old entry)
    (formed : WellFormed path) (own : entry.path = path)
    {files : ExtTreeMap Nat Bytes compare} {next : Nat}
    (stores : Stores core path entry files next)
    : Core.view digests base ⟨core.rows.insert path entry, files, next⟩
      = Function.update (core.view digests base) path
          (some (Core.node digests base ⟨core.rows.insert path entry, files, next⟩ entry)) := by
  funext other
  rw [Function.update_apply]
  exact Overlay.view_put sound.keyed formed own revises.present
    (standing.above sound.placed sound.keyed)
    (fun apart => standing.lookup_other revises formed sound.placed sound.keyed apart)
    stores other

theorem Standing.view_touch (distinct : base.Distinct digests)
    (sound : Sound digests base core) (standing : Standing digests base core.rows path old)
    (revises : Revises old entry) (formed : WellFormed path) (own : entry.path = path)
    (content : entry.content = old.content)
    : ∃ bytes,
        core.view digests base path = some ⟨old.kind, bytes⟩
        ∧ Core.view digests base { core with rows := core.rows.insert path entry }
          = Function.update (core.view digests base) path (some ⟨entry.kind, bytes⟩) := by
  refine ⟨(core.node digests base old).content, standing.view_eq distinct sound, ?_⟩
  rw [standing.view_put sound revises formed own (Stores.same sound standing content)]
  simp only [Core.node, content, revises.target]

theorem Touches.view_eq {core' : Core} (distinct : base.Distinct digests)
    (sound : Sound digests base core) (touches : Touches digests base core core')
    : core'.view digests base = core.view digests base := by
  rcases touches with rfl | ⟨path, old, entry, formed, standing, revises, own, content, kind, rfl⟩
  · rfl
  · obtain ⟨bytes, before, after⟩ :=
      standing.view_touch distinct sound revises formed own content
    rw [after, kind, ← before, Function.update_eq_self]

theorem Creation.view_eq {kind : OverlayKind} {content : Content} {target : Option Bytes}
    {files : ExtTreeMap Nat Bytes compare} {next : Nat} {after : Overlay}
    (distinct : base.Distinct digests) (sound : Sound digests base core)
    (creation : Creation digests base core path kind content target files next entry after)
    (stores : Stores core path entry files next)
    : after.core.view digests base
      = Function.update (core.view digests base) path
          (some
            (Core.node digests base ⟨core.rows.insert path entry, files, next⟩ entry)) := by
  have created := creation.created
  have middle : Sound digests base ⟨core.rows.insert path entry, files, next⟩ :=
    sound.put created.formed created.own created.present (Or.inr created.facts)
      created.shaped (created.placed sound.placed sound.keyed) stores
  rw [creation.touches.view_eq distinct middle]
  funext other
  rw [Function.update_apply]
  exact view_put sound.keyed created.formed created.own created.present created.above
    (fun apart => created.lookup_other sound.placed sound.keyed apart) stores other

theorem CopiedUp.view_eq {core' : Core} {bytes : Bytes} (sound : Sound digests base core)
    (copied : CopiedUp digests base core path bytes old entry core')
    : core'.view digests base
      = Function.update (core.view digests base) path (some ⟨old.kind, bytes⟩) := by
  rw [copied.after, copied.standing.view_put sound copied.revises copied.formed copied.own
    (Stores.fresh sound copied.content bytes)]
  simp [Core.node, copied.content, copied.kind]

theorem Rewritten.view_eq {core' : Core} {id : Nat} {bytes : Bytes}
    (sound : Sound digests base core)
    (rewritten : Rewritten core path id bytes old entry core')
    : core'.view digests base
      = Function.update (core.view digests base) path (some ⟨old.kind, bytes⟩) := by
  have standing : Standing digests base core.rows path old :=
    .own rewritten.found rewritten.present
  rw [rewritten.after, standing.view_put sound rewritten.revises (standing.formed sound)
    rewritten.own (Stores.again sound rewritten.found rewritten.before rewritten.content bytes)]
  simp [Core.node, rewritten.content, rewritten.kind]

end OnePath

theorem view_depart {core mid : Core} {path : BytePath} (sound : Sound digests base core)
    (formed : WellFormed path)
    (bare : ∀ below, path ∈ ancestorsOf below → kindAt base core.rows below = none)
    (left : LeftBehind digests base path mid.rows[path]?)
    (others : ∀ other : BytePath, other ≠ path → mid.rows[other]? = core.rows[other]?)
    (kept
      : ∀ (other : BytePath) (row : OverlayEntry) (id : Nat),
          other ≠ path → core.rows[other]? = some row → row.content = .local id
          → mid.files[id]? = core.files[id]?)
    : mid.view digests base = Function.update (core.view digests base) path none := by
  funext other
  rw [Function.update_apply, Core.view,
    lookup_depart sound.placed sound.keyed formed bare left others]
  split
  · rfl
  · rename_i apart
    refine lookup_congr ?_
    intro row found _
    exact Core.node_congr (fun id content => kept other row id apart found content)

-- A rename

/-- A rename moves everything at and below its source. Witness: region by region, with every
row that moves keeping its content file and every base node its bytes.
-/
theorem view_relocate {core mid : Core} {source target : BytePath}
    (distinct : base.Distinct digests) (sound : Sound digests base core)
    (relocates : Relocates digests base core.rows source target mid.rows)
    (kept
      : ∀ (path : BytePath) (row : OverlayEntry) (id : Nat),
          path ≠ target → core.rows[path]? = some row → row.content = .local id
          → mid.files[id]? = core.files[id]?)
    : mid.view digests base = relocated source target (core.view digests base) := by
  have keyed' := relocates.keyed sound.keyed
  have targetRoot := relocates.targetFormed.1
  have within {dir : BytePath} (rel : BytePath) : isWithin (dir ++ slash :: rel) dir = true := by
    rw [isWithin_iff]
    exact Or.inr (Or.inr ⟨rel, rfl⟩)
  funext path
  unfold relocated
  rcases relocates.regions path with rfl | ⟨rel, rfl⟩ | rfl | ⟨rel, rfl⟩ | ⟨awaySource, awayTarget⟩
  · obtain ⟨old, entry, standing, moves, found⟩ := relocates.moved
    have self : isWithin path path = true := by simp [isWithin_iff]
    rw [if_pos self, List.drop_length, List.append_nil,
      standing.view_eq distinct sound, Core.view, lookup,
      relocates.resolve_target keyed' found moves.present]
    simp only [Core.node, moves.kind, moves.content, moves.symlinkTarget, Option.some.injEq,
      Node.mk.injEq, true_and]
    cases content : old.content with
    | none => rfl
    | base oid => rfl
    | «local» id =>
        cases standing with
        | own held present => simp only [kept _ old id relocates.distinct held content]
        | base _ _ _ _ _ remote =>
            rw [remote] at content
            split at content <;> cases content
  · rw [if_pos (within rel), List.drop_left, Core.view, Core.view]
    refine relocates.lookup_below sound.placed sound.keyed keyed' rel ?_ ?_
    · intro old now found _
      refine @Core.node_congr digests base core mid old ?_
      intro id content
      refine kept _ old id ?_ found content
      intro same
      exact relocates.outside (same ▸ mem_ancestorsOf_append source rel)
    · intro node kind now ino got kinds
      simp only [Core.node, Overlay.descendantEntry, id_eq, Node.mk.injEq, true_and]
      rw [OverlayKind.fromEntryKind_eq_some] at kinds
      cases directory : kind.isDir with
      | true =>
          rw [OverlayKind.isDir_iff] at directory
          subst directory
          have plain : node.kind ≠ .symlink := by
            rw [kinds]
            exact fun absurd => by cases absurd
          simp [plain, BaseTree.get_directory got kinds]
      | false => simp [BaseTree.factsOfNode, distinct.content got]
  · have away := (isWithin_eq_false targetRoot).mpr relocates.source_outside
    rw [if_neg (by rw [away]; exact Bool.false_ne_true), if_pos (by simp [isWithin_iff])]
    exact relocates.lookup_source
  · have away := (isWithin_eq_false targetRoot).mpr
      (Relocates.below_outside rel relocates.source_outside relocates.outside)
    rw [if_neg (by rw [away]; exact Bool.false_ne_true), if_pos (within rel)]
    exact relocates.lookup_below_source rel
  · rw [(isWithin_eq_false targetRoot).mpr awayTarget,
      (isWithin_eq_false relocates.sourceFormed.1).mpr awaySource]
    simp only [Bool.false_eq_true, ↓reduceIte]
    rw [Core.view, relocates.lookup_outside awaySource awayTarget, Core.view]
    refine lookup_congr ?_
    intro row found _
    exact Core.node_congr (fun id content => kept path row id awayTarget.1 found content)

end Gfs.Overlay
