import Gfs.Overlay.RowSteps

/-! Renames: the rows at and below the destination are those at and below the source, what is
left at the source hides the base, and the rest of the view stays.
-/

namespace Gfs.Overlay

open Gfs.Types
open Std (ExtTreeMap ExtTreeSet)

variable {digests : Digests} {base : BaseTree}

-- Where a path lies

/-- The path is neither `dir` nor below it. -/
def Outside (dir path : BytePath) : Prop :=
  path ≠ dir ∧ dir ∉ ancestorsOf path

variable {path : BytePath}

theorem isWithin_eq_false {dir : BytePath} (nonroot : dir ≠ [])
    : isWithin path dir = false ↔ Outside dir path := by
  rw [← Bool.not_eq_true, isWithin_iff_ancestor nonroot, not_or]
  rfl

theorem Outside.ancestor {dir above : BytePath} (outside : Outside dir path)
    (member : above ∈ ancestorsOf path)
    : Outside dir above := by
  refine ⟨?_, ?_⟩
  · intro same
    exact outside.2 (same ▸ member)
  · intro inside
    exact outside.2 (ancestorsOf_trans inside member)

theorem within_cases {dir : BytePath} (nonroot : dir ≠ []) (path : BytePath)
    : path = dir ∨ (∃ rel, path = dir ++ slash :: rel) ∨ Outside dir path := by
  by_cases same : path = dir
  · exact Or.inl same
  · by_cases above : dir ∈ ancestorsOf path
    · exact Or.inr (Or.inl ((mem_ancestorsOf_iff_append nonroot).mp above))
    · exact Or.inr (Or.inr ⟨same, above⟩)

theorem BaseTree.facts_eq_none
    : base.facts digests path = none ↔ base.node path = none := by
  simp only [BaseTree.facts, BaseTree.node, Option.map_eq_none_iff, Option.bind_eq_none_iff]
  constructor
  · intro missing node found
    rw [missing] at found
    cases found
  · intro unheld
    cases got : base.get path with
    | none => rfl
    | some node =>
        have unkind := unheld node got
        have nonroot : path ≠ [] := by
          intro root
          simp [BaseTree.get, root] at got
        simp only [BaseTree.get, nonroot, ↓reduceIte] at got
        obtain ⟨-, kinds, -, -⟩ := base.placed path node got
        rw [Node.ofBase, Option.map_eq_none_iff] at unkind
        simp [unkind] at kinds

theorem BaseTree.get_of_facts {facts : BaseFacts} (known : base.facts digests path = some facts)
    : (base.get path).isSome = true := by
  obtain ⟨node, got, -⟩ := Option.map_eq_some_iff.mp known
  rw [got]
  rfl

theorem LeftBehind.eq_whiteout {row : Option OverlayEntry} (left : LeftBehind digests base path row)
    {entry : OverlayEntry} (found : row = some entry)
    : ∃ facts ino now,
        base.facts digests path = some facts ∧ entry = Overlay.whiteout path facts ino now := by
  unfold LeftBehind at left
  cases known : base.facts digests path with
  | none =>
      rw [known] at left
      rw [show row = none from left] at found
      cases found
  | some facts =>
      rw [known] at left
      obtain ⟨ino, now, same⟩ := left
      rw [same] at found
      cases found
      exact ⟨facts, ino, now, rfl, rfl⟩

theorem LeftBehind.covers {row : Option OverlayEntry} (left : LeftBehind digests base path row)
    : Covers base path row ∧ ∀ entry, row = some entry → entry.present = false := by
  have absent : ∀ entry, row = some entry → entry.present = false := by
    intro entry found
    obtain ⟨facts, ino, now, -, rfl⟩ := left.eq_whiteout found
    rfl
  refine ⟨?_, absent⟩
  cases found : row with
  | some entry => exact Or.inl (absent entry found)
  | none =>
      unfold LeftBehind at left
      cases known : base.facts digests path with
      | none => exact BaseTree.facts_eq_none.mp known
      | some facts =>
          rw [known, found] at left
          obtain ⟨ino, now, same⟩ := left
          cases same

-- The view after a rename

namespace Relocates

variable {rows rows' : Rows} {source target : BytePath}

theorem target_outside (relocates : Relocates digests base rows source target rows')
    : Outside source target :=
  ⟨relocates.distinct.symm, relocates.outside⟩

theorem source_outside (relocates : Relocates digests base rows source target rows')
    : Outside target source :=
  ⟨relocates.distinct, relocates.inside⟩

theorem below_outside {dir other : BytePath} (rel : BytePath)
    (outside : Outside dir other) (inside : other ∉ ancestorsOf dir)
    : Outside dir (other ++ slash :: rel) := by
  have above : other ∈ ancestorsOf (other ++ slash :: rel) := mem_ancestorsOf_append _ _
  refine ⟨?_, ?_⟩
  · intro same
    exact inside (same ▸ above)
  · intro member
    rcases ancestorsOf_linear member above with same | lower | upper
    · exact outside.1 same.symm
    · exact outside.2 lower
    · exact inside upper

theorem getElem?_outside (relocates : Relocates digests base rows source target rows')
    {path : BytePath} (awaySource : Outside source path) (awayTarget : Outside target path)
    : rows'[path]? = rows[path]? :=
  relocates.others path ((isWithin_eq_false relocates.sourceFormed.1).mpr awaySource)
    ((isWithin_eq_false relocates.targetFormed.1).mpr awayTarget)

section Lookups

variable {β : Type} {shown shown' : OverlayEntry → β} {under : Node → β}

theorem lookup_outside (relocates : Relocates digests base rows source target rows')
    {path : BytePath} (awaySource : Outside source path) (awayTarget : Outside target path)
    : lookup base rows' shown under path = lookup base rows shown under path := by
  have resolved : resolve rows' path = resolve rows path := by
    refine resolve_congr ?_ (relocates.getElem?_outside awaySource awayTarget)
    intro dir member
    simp only [markAt]
    rw [relocates.getElem?_outside (awaySource.ancestor member) (awayTarget.ancestor member)]
  simp only [lookup, resolved]

theorem lookup_source (relocates : Relocates digests base rows source target rows')
    : lookup base rows' shown under source = none := by
  obtain ⟨covers, absent⟩ := relocates.left.covers
  unfold lookup
  cases resolved : resolve rows' source with
  | absent => rfl
  | overlay entry =>
      obtain ⟨-, found, present⟩ := resolve_eq_overlay.mp resolved
      rw [absent entry found] at present
      cases present
  | base =>
      obtain ⟨-, missing, -⟩ := resolve_eq_base.mp resolved
      rw [missing] at covers
      simp [show base.node source = none from covers]

theorem lookup_below_source (relocates : Relocates digests base rows source target rows')
    (rel : BytePath)
    : lookup base rows' shown under (source ++ slash :: rel) = none := by
  refine lookup_below_covered (mem_ancestorsOf_append _ _) relocates.sourceFormed.1
    relocates.left.covers.1 ?_
  intro entry found
  rw [relocates.emptied rel, Option.filter_eq_some_iff] at found
  simpa using found.2

theorem above_target (relocates : Relocates digests base rows source target rows')
    : UnderDirectories base rows' target := by
  intro dir member nonroot
  have awayTarget : Outside target dir := by
    refine ⟨?_, ?_⟩
    · intro same
      exact not_mem_ancestorsOf_self _ (same ▸ member)
    · intro inside
      exact not_mem_ancestorsOf_self _ (ancestorsOf_trans inside member)
  have unmoved : kindAt base rows' dir = kindAt base rows dir :=
    relocates.lookup_outside (relocates.target_outside.ancestor member) awayTarget
  rw [unmoved]
  exact relocates.above dir member nonroot

theorem resolve_target (relocates : Relocates digests base rows source target rows')
    (keyed' : Keyed rows') {entry : OverlayEntry} (found : rows'[target]? = some entry)
    (present : entry.present = true)
    : resolve rows' target = .overlay entry :=
  resolve_eq_overlay.mpr
    ⟨not_blocked_of_directory keyed' relocates.above_target, found, present⟩

/-- Below the destination nothing is blocked where something showed below the source: the
rows in between are directories, as they were.
-/
theorem not_blocked_below (relocates : Relocates digests base rows source target rows')
    (placed : Placed base rows) (keyed : Keyed rows) (keyed' : Keyed rows') {rel : BytePath}
    {kind : OverlayKind} (shows : kindAt base rows (source ++ slash :: rel) = some kind)
    : ¬ Blocked rows' (target ++ slash :: rel) := by
  intro blocked
  obtain ⟨dir, member, entry, found, stops⟩ := blocked
  have stands : entry.present = true ∧ entry.kind = .directory := by
    rcases (mem_ancestorsOf_append_iff relocates.targetFormed.1).mp member with
      above | same | ⟨mid, more, split, same⟩
    · exact absurd ⟨dir, above, entry, found, stops⟩
        (not_blocked_of_directory keyed' relocates.above_target)
    · subst same
      obtain ⟨old, moved, standing, moves, held⟩ := relocates.moved
      rw [found] at held
      cases held
      have dir := placed.kindAt_ancestor shows (mem_ancestorsOf_append _ _)
        relocates.sourceFormed.1
      rw [standing.shows placed keyed] at dir
      exact ⟨moves.present, moves.kind.trans (Option.some.inj dir)⟩
    · subst same
      have dir : kindAt base rows (source ++ slash :: mid) = some .directory := by
        refine placed.kindAt_ancestor shows ?_ (by simp)
        rw [split]
        exact (mem_ancestorsOf_append_iff relocates.sourceFormed.1).mpr
          (Or.inr (Or.inr ⟨mid, more, rfl, rfl⟩))
      have arrived := relocates.arrived mid
      rw [found] at arrived
      cases arrived with
      | row held present =>
          have resolved := placed.resolve keyed held present
          simp only [kindAt, lookup, resolved, Option.some.injEq] at dir
          exact ⟨present, dir⟩
      | base resolved got kinds =>
          rw [kindAt_of_base resolved got kinds] at dir
          exact ⟨rfl, Option.some.inj dir⟩
  rcases stops with absent | leaf
  · rw [stands.1] at absent
    cases absent
  · rw [stands.2] at leaf
    cases leaf

/-- Below the destination shows what showed below the source. -/
theorem lookup_below (relocates : Relocates digests base rows source target rows')
    (placed : Placed base rows) (keyed : Keyed rows) (keyed' : Keyed rows') (rel : BytePath)
    (rowShown
      : ∀ old now, rows[source ++ slash :: rel]? = some old → old.present = true
          → shown' (Overlay.moverEntry source target now old) = shown old)
    (baseShown
      : ∀ node kind now ino, base.get (source ++ slash :: rel) = some node
          → OverlayKind.fromEntryKind node.kind = some kind
          → shown'
              (Overlay.descendantEntry source target now ino kind
                {
                  relative := rel
                  facts := BaseTree.factsOfNode digests node
                  symlinkTarget := if node.kind = .symlink then some node.content else none
                })
            = under ⟨kind, node.content⟩)
    : lookup base rows' shown' under (target ++ slash :: rel)
      = lookup base rows shown under (source ++ slash :: rel) := by
  have clear := @not_blocked_below _ _ _ _ _ _ relocates placed keyed keyed' rel
  cases found : rows'[target ++ slash :: rel]? with
  | none =>
      have arrived := relocates.arrived rel
      rw [found] at arrived
      cases arrived with
      | nothing vacant =>
          rw [lookup_eq_none.mpr vacant]
          refine lookup_below_covered (mem_ancestorsOf_append _ _) relocates.targetFormed.1 ?_
            (fun _ held => by rw [found] at held; cases held)
          obtain ⟨old, moved, -, moves, held⟩ := relocates.moved
          rw [held]
          cases dir : old.kind.isDir with
          | true => exact Or.inr (Or.inr (moves.opacity.trans dir))
          | false => exact Or.inr (Or.inl (by rw [moves.kind, dir]))
  | some entry =>
      have arrived := relocates.arrived rel
      rw [found] at arrived
      cases arrived with
      | @row old now held present =>
          have before := placed.resolve keyed held present
          have shows : kindAt base rows (source ++ slash :: rel) = some old.kind := by
            simp [kindAt, lookup, before]
          have after := resolve_eq_overlay.mpr ⟨clear shows, found, present⟩
          simp [lookup, before, after, rowShown old now held present]
      | @base node kind ino now resolved got kinds =>
          have shows := kindAt_of_base resolved got kinds
          have after := resolve_eq_overlay.mpr ⟨clear shows, found, rfl⟩
          simp [lookup, resolved, after, baseShown node kind now ino got kinds, BaseTree.node,
            got, Node.ofBase, kinds]

end Lookups

-- The rows after a rename

theorem regions (relocates : Relocates digests base rows source target rows')
    (path : BytePath)
    : path = target
      ∨ (∃ rel, path = target ++ slash :: rel)
      ∨ path = source
      ∨ (∃ rel, path = source ++ slash :: rel)
      ∨ (Outside source path ∧ Outside target path) := by
  rcases within_cases relocates.targetFormed.1 path with same | below | away
  · exact Or.inl same
  · exact Or.inr (Or.inl below)
  · rcases within_cases relocates.sourceFormed.1 path with same | below | outside
    · exact Or.inr (Or.inr (Or.inl same))
    · exact Or.inr (Or.inr (Or.inr (Or.inl below)))
    · exact Or.inr (Or.inr (Or.inr (Or.inr ⟨outside, away⟩)))

variable {entry : OverlayEntry}

/-- A row that is there after a rename is the renamed one, one that arrived below it, or one
from outside.
-/
theorem present_cases (relocates : Relocates digests base rows source target rows')
    {path : BytePath} (found : rows'[path]? = some entry) (present : entry.present = true)
    : path = target
      ∨ (∃ rel, path = target ++ slash :: rel)
      ∨ (Outside source path ∧ Outside target path ∧ rows[path]? = some entry) := by
  rcases relocates.regions path with same | below | same | ⟨rel, rfl⟩ | ⟨away, beyond⟩
  · exact Or.inl same
  · exact Or.inr (Or.inl below)
  · subst same
    rw [relocates.left.covers.2 entry found] at present
    cases present
  · rw [relocates.emptied rel, Option.filter_eq_some_iff] at found
    simp [present] at found
  · exact Or.inr (Or.inr ⟨away, beyond, relocates.getElem?_outside away beyond ▸ found⟩)

theorem shows_of_arrived (relocates : Relocates digests base rows source target rows')
    (placed : Placed base rows) (keyed : Keyed rows) {rel : BytePath}
    (found : rows'[target ++ slash :: rel]? = some entry)
    : kindAt base rows (source ++ slash :: rel) = some entry.kind := by
  have arrived := relocates.arrived rel
  rw [found] at arrived
  cases arrived with
  | row held present =>
      simp [kindAt, lookup, placed.resolve keyed held present, Overlay.moverEntry]
  | base resolved got kinds => exact kindAt_of_base resolved got kinds

/-- The rows stay keyed by their own well-formed paths. -/
theorem keyed (relocates : Relocates digests base rows source target rows')
    (keyed : Keyed rows)
    : Keyed rows' := by
  intro path entry found
  rcases relocates.regions path with rfl | ⟨rel, rfl⟩ | rfl | ⟨rel, rfl⟩ | ⟨away, beyond⟩
  · obtain ⟨old, moved, standing, moves, held⟩ := relocates.moved
    rw [found] at held
    cases held
    exact ⟨moves.own, relocates.targetFormed⟩
  · have arrived := relocates.arrived rel
    rw [found] at arrived
    cases arrived with
    | @row old now held present =>
        obtain ⟨own, formed⟩ := keyed _ old held
        refine ⟨?_, wellFormed_append.mpr
          ⟨relocates.targetFormed, (wellFormed_append.mp formed).2⟩⟩
        simp [Overlay.moverEntry, own]
    | @base node kind ino now resolved got kinds =>
        simp only [BaseTree.get] at got
        rw [if_neg (by simp)] at got
        obtain ⟨formed, -⟩ := base.placed _ node got
        exact ⟨rfl, wellFormed_append.mpr
          ⟨relocates.targetFormed, (wellFormed_append.mp formed).2⟩⟩
  · obtain ⟨facts, ino, now, -, rfl⟩ := relocates.left.eq_whiteout found
    exact ⟨rfl, relocates.sourceFormed⟩
  · rw [relocates.emptied rel, Option.filter_eq_some_iff] at found
    exact keyed _ entry found.1
  · rw [relocates.getElem?_outside away beyond] at found
    exact keyed path entry found

theorem kindAt_target (relocates : Relocates digests base rows source target rows')
    (placed : Placed base rows) (keyed : Keyed rows)
    : kindAt base rows' target = kindAt base rows source := by
  obtain ⟨old, moved, standing, moves, held⟩ := relocates.moved
  have resolved := relocates.resolve_target (relocates.keyed keyed) held moves.present
  rw [standing.shows placed keyed]
  simp [kindAt, lookup, resolved, moves.kind]

theorem kindAt_below (relocates : Relocates digests base rows source target rows')
    (placed : Placed base rows) (keyed : Keyed rows) (rel : BytePath)
    : kindAt base rows' (target ++ slash :: rel) = kindAt base rows (source ++ slash :: rel) :=
  relocates.lookup_below placed keyed (relocates.keyed keyed) rel (fun _ _ _ _ => rfl)
    (fun _ _ _ _ _ _ => rfl)

/-- The view stays a tree. -/
theorem placed (relocates : Relocates digests base rows source target rows')
    (placed : Placed base rows) (keyed : Keyed rows)
    : Placed base rows' := by
  intro path entry found present dir member nonroot
  rcases relocates.present_cases found present with rfl | ⟨rel, rfl⟩ | ⟨away, beyond, held⟩
  · exact relocates.above_target dir member nonroot
  · have shows := relocates.shows_of_arrived placed keyed found
    rcases (mem_ancestorsOf_append_iff relocates.targetFormed.1).mp member with
      above | rfl | ⟨mid, more, split, rfl⟩
    · exact relocates.above_target dir above nonroot
    · rw [relocates.kindAt_target placed keyed]
      exact placed.kindAt_ancestor shows (mem_ancestorsOf_append _ _) relocates.sourceFormed.1
    · rw [relocates.kindAt_below placed keyed]
      refine placed.kindAt_ancestor shows ?_ (by simp)
      rw [split]
      exact (mem_ancestorsOf_append_iff relocates.sourceFormed.1).mpr
        (Or.inr (Or.inr ⟨mid, more, rfl, rfl⟩))
  · have unmoved : kindAt base rows' dir = kindAt base rows dir :=
      relocates.lookup_outside (away.ancestor member) (beyond.ancestor member)
    rw [unmoved]
    exact placed path entry held present dir member nonroot

/-- Local content after a rename belongs to the row it belonged to before, at the place the
rename took it from.
-/
theorem origin {core : Core} (sound : Sound digests base core)
    (relocates : Relocates digests base core.rows source target rows') {path : BytePath} {id : Nat}
    (found : rows'[path]? = some entry) (content : entry.content = .local id)
    : ∃ before old,
        core.rows[before]? = some old
        ∧ old.content = .local id
        ∧ before ≠ target
        ∧ ((path = target ∧ before = source)
            ∨ (∃ rel, path = target ++ slash :: rel ∧ before = source ++ slash :: rel)
            ∨ (Outside source path ∧ before = path)) := by
  rcases relocates.regions path with rfl | ⟨rel, rfl⟩ | rfl | ⟨rel, rfl⟩ | ⟨away, beyond⟩
  · obtain ⟨old, moved, standing, moves, held⟩ := relocates.moved
    rw [found] at held
    cases held
    rw [moves.content] at content
    cases standing with
    | own there present =>
        exact ⟨source, old, there, content, relocates.distinct, Or.inl ⟨rfl, rfl⟩⟩
    | base _ _ _ _ _ blank =>
        rw [blank] at content
        split at content <;> cases content
  · have arrived := relocates.arrived rel
    rw [found] at arrived
    cases arrived with
    | @row old now held present =>
        have apart : source ++ slash :: rel ≠ target := fun same =>
          relocates.outside (same ▸ mem_ancestorsOf_append _ _)
        exact ⟨_, old, held, content, apart, Or.inr (Or.inl ⟨rel, rfl, rfl⟩)⟩
    | base resolved got kinds =>
        simp only [Overlay.descendantEntry] at content
        split at content <;> cases content
  · obtain ⟨facts, ino, now, -, rfl⟩ := relocates.left.eq_whiteout found
    cases content
  · rw [relocates.emptied rel, Option.filter_eq_some_iff] at found
    have absent : entry.present = false := by simpa using found.2
    rw [(sound.hidden _ entry found.1 absent).2.2] at content
    cases content
  · rw [relocates.getElem?_outside away beyond] at found
    exact ⟨path, entry, found, content, beyond.1, Or.inr (Or.inr ⟨away, rfl⟩)⟩

theorem Moves.shaped {old : OverlayEntry} (moves : Moves digests base source target old entry)
    (shaped : Shaped digests base old)
    : Shaped digests base entry := by
  refine ⟨?_, ?_, ?_, ?_, ?_⟩
  · rw [moves.kind, moves.content, moves.symlinkTarget]
    exact shaped.directory
  · intro leaf
    rw [moves.opacity]
    rw [moves.kind] at leaf
    cases dir : old.kind.isDir with
    | false => rfl
    | true => exact absurd (OverlayKind.isDir_iff.mp dir) leaf
  · rw [moves.kind, moves.content, moves.symlinkTarget]
    exact shaped.file
  · rw [moves.kind, moves.content, moves.symlinkTarget]
    exact shaped.link
  · rw [moves.content, moves.symlinkTarget]
    exact shaped.served

end Relocates

theorem Shaped.mover {old : OverlayEntry} (shaped : Shaped digests base old)
    (source target : BytePath) (now : Timestamp)
    : Shaped digests base (Overlay.moverEntry source target now old) := by
  refine ⟨shaped.directory, ?_, shaped.file, shaped.link, shaped.served⟩
  intro leaf
  cases dir : old.kind.isDir with
  | false => exact dir
  | true => exact absurd (OverlayKind.isDir_iff.mp dir) leaf

/-- The row a rename makes for a base node has the shape of its kind. -/
theorem Shaped.descendant {source target rel : BytePath} {now : Timestamp} {ino : Nat}
    {kind : OverlayKind} {node : BaseNode} (got : base.get path = some node)
    (kinds : OverlayKind.fromEntryKind node.kind = some kind)
    : Shaped digests base
        (Overlay.descendantEntry source target now ino kind
          {
            relative := rel
            facts := BaseTree.factsOfNode digests node
            symlinkTarget := if node.kind = .symlink then some node.content else none
          }) := by
  have same := OverlayKind.fromEntryKind_eq_some.mp kinds
  refine ⟨?_, ?_, ?_, ?_, ?_⟩
  · intro dir
    simp only [Overlay.descendantEntry] at dir
    simp [Overlay.descendantEntry, dir, same, OverlayKind.isDir, OverlayKind.toEntryKind]
  · intro leaf
    cases dir : kind.isDir with
    | false => exact dir
    | true => exact absurd (OverlayKind.isDir_iff.mp dir) leaf
  · intro file
    simp only [Overlay.descendantEntry] at file
    have isDir := OverlayKind.isDir_of_isFile file
    refine ⟨?_, by simp [Overlay.descendantEntry, isDir]⟩
    simp only [Overlay.descendantEntry, same]
    cases kind <;> first | rfl | cases file
  · intro link
    simp only [Overlay.descendantEntry] at link
    simp [Overlay.descendantEntry, link, OverlayKind.isDir, Content.localId]
  · intro oid content
    simp only [Overlay.descendantEntry] at content
    split at content
    · cases content
    · cases content
      refine ⟨path, node, got, rfl, ?_⟩
      simp only [Overlay.descendantEntry]
      split
      · exact Or.inr rfl
      · exact Or.inl rfl

-- Soundness

theorem Sound.kept {core : Core} (sound : Sound digests base core) {other : BytePath}
    {row : OverlayEntry} {id : Nat} {release : List Nat} (distinct : other ≠ path)
    (released
      : ∀ id, id ∈ release → ∃ entry, core.rows[path]? = some entry
          ∧ entry.content = .local id)
    (found : core.rows[other]? = some row) (content : row.content = .local id)
    : (release.foldl (·.erase ·) core.files)[id]? = core.files[id]? := by
  rw [Overlay.getElem?_releaseFiles, if_neg]
  intro member
  obtain ⟨entry, held, own⟩ := released id member
  exact distinct (sound.owned other path row entry id found held content own)

/-- A rename keeps the rows sound. -/
theorem Sound.relocate {core : Core} (sound : Sound digests base core)
    {source target : BytePath} {rows' : Rows} {release : List Nat}
    (relocates : Relocates digests base core.rows source target rows')
    (released
      : ∀ id, id ∈ release → ∃ entry, core.rows[target]? = some entry
          ∧ entry.content = .local id)
    : Sound digests base
        { core with rows := rows', files := release.foldl (·.erase ·) core.files } where
  keyed := relocates.keyed sound.keyed
  placed := relocates.placed sound.placed sound.keyed
  facts := by
    intro path entry found
    rcases relocates.regions path with rfl | ⟨rel, rfl⟩ | rfl | ⟨rel, rfl⟩ | ⟨away, beyond⟩
    · obtain ⟨old, moved, standing, moves, held⟩ := relocates.moved
      rw [found] at held
      cases held
      exact Or.inr moves.base
    · have arrived := relocates.arrived rel
      rw [found] at arrived
      cases arrived <;> exact Or.inl rfl
    · obtain ⟨facts, ino, now, known, rfl⟩ := relocates.left.eq_whiteout found
      exact Or.inr known.symm
    · rw [relocates.emptied rel, Option.filter_eq_some_iff] at found
      exact sound.facts _ entry found.1
    · rw [relocates.getElem?_outside away beyond] at found
      exact sound.facts path entry found
  hidden := by
    intro path entry found absent
    rcases relocates.regions path with rfl | ⟨rel, rfl⟩ | rfl | ⟨rel, rfl⟩ | ⟨away, beyond⟩
    · obtain ⟨old, moved, standing, moves, held⟩ := relocates.moved
      rw [found] at held
      cases held
      rw [moves.present] at absent
      cases absent
    · have arrived := relocates.arrived rel
      rw [found] at arrived
      cases arrived with
      | row held present =>
          simp only [Overlay.moverEntry] at absent
          rw [present] at absent
          cases absent
      | base _ _ _ => cases absent
    · obtain ⟨facts, ino, now, known, rfl⟩ := relocates.left.eq_whiteout found
      exact ⟨known.symm, BaseTree.get_of_facts known, rfl⟩
    · rw [relocates.emptied rel, Option.filter_eq_some_iff] at found
      exact sound.hidden _ entry found.1 absent
    · rw [relocates.getElem?_outside away beyond] at found
      exact sound.hidden path entry found absent
  shaped := by
    intro path entry found present
    rcases relocates.present_cases found present with rfl | ⟨rel, rfl⟩ | ⟨away, beyond, held⟩
    · obtain ⟨old, moved, standing, moves, held⟩ := relocates.moved
      rw [found] at held
      cases held
      exact Relocates.Moves.shaped moves (standing.shaped sound)
    · have arrived := relocates.arrived rel
      rw [found] at arrived
      cases arrived with
      | row held there => exact (sound.shaped _ _ held there).mover source target _
      | base _ got kinds => exact Shaped.descendant got kinds
    · exact sound.shaped path entry held present
  held := by
    intro path entry id found content
    obtain ⟨before, old, held, own, apart, -⟩ := relocates.origin sound found content
    rw [sound.kept apart released held own]
    exact sound.held before old id held own
  owned := by
    intro left right entry row id foundLeft foundRight contentLeft contentRight
    obtain ⟨here, old, heldLeft, ownLeft, -, placeLeft⟩ :=
      relocates.origin sound foundLeft contentLeft
    obtain ⟨there, former, heldRight, ownRight, -, placeRight⟩ :=
      relocates.origin sound foundRight contentRight
    have same := sound.owned here there old former id heldLeft heldRight ownLeft ownRight
    have below (rel : BytePath) : source ∈ ancestorsOf (source ++ slash :: rel) :=
      mem_ancestorsOf_append _ _
    rcases placeLeft with ⟨rfl, rfl⟩ | ⟨rel, rfl, rfl⟩ | ⟨away, rfl⟩
    · rcases placeRight with ⟨rfl, rfl⟩ | ⟨more, rfl, rfl⟩ | ⟨beyond, rfl⟩
      · rfl
      · simp at same
      · exact absurd same.symm beyond.1
    · rcases placeRight with ⟨rfl, rfl⟩ | ⟨more, rfl, rfl⟩ | ⟨beyond, rfl⟩
      · simp at same
      · simp only [List.append_cancel_left_eq, List.cons.injEq, true_and] at same
        rw [same]
      · exact absurd (same ▸ below rel) beyond.2
    · rcases placeRight with ⟨rfl, rfl⟩ | ⟨more, rfl, rfl⟩ | ⟨beyond, rfl⟩
      · exact absurd same away.1
      · exact absurd (same ▸ below more) away.2
      · exact same

/-- A departure shows nothing at its path and leaves the rest of the view. -/
theorem lookup_depart {β : Type} {shown : OverlayEntry → β} {under : Node → β} {rows rows' : Rows}
    (placed : Placed base rows) (keyed : Keyed rows) (formed : WellFormed path)
    (bare : ∀ below, path ∈ ancestorsOf below → kindAt base rows below = none)
    (left : LeftBehind digests base path rows'[path]?)
    (others : ∀ other : BytePath, other ≠ path → rows'[other]? = rows[other]?) (other : BytePath)
    : lookup base rows' shown under other
      = if other = path then none else lookup base rows shown under other := by
  obtain ⟨covers, absent⟩ := left.covers
  by_cases same : other = path
  · subst same
    rw [if_pos rfl]
    unfold lookup
    cases resolved : resolve rows' other with
    | absent => rfl
    | overlay entry =>
        obtain ⟨-, found, present⟩ := resolve_eq_overlay.mp resolved
        rw [absent entry found] at present
        cases present
    | base =>
        obtain ⟨-, missing, -⟩ := resolve_eq_base.mp resolved
        rw [missing] at covers
        simp [show base.node other = none from covers]
  · rw [if_neg same]
    exact lookup_update placed keyed formed.1 others bare covers same

theorem Sound.depart {core : Core} (sound : Sound digests base core) {path : BytePath}
    {rows' : Rows} {release : List Nat} (formed : WellFormed path)
    (bare : ∀ below, path ∈ ancestorsOf below → kindAt base core.rows below = none)
    (left : LeftBehind digests base path rows'[path]?)
    (others : ∀ other : BytePath, other ≠ path → rows'[other]? = core.rows[other]?)
    (released
      : ∀ id, id ∈ release → ∃ entry, core.rows[path]? = some entry
          ∧ entry.content = .local id)
    : Sound digests base
        { core with rows := rows', files := release.foldl (·.erase ·) core.files } where
  keyed := by
    intro other entry found
    by_cases same : other = path
    · subst same
      obtain ⟨facts, ino, now, -, rfl⟩ := left.eq_whiteout found
      exact ⟨rfl, formed⟩
    · exact sound.keyed other entry (others other same ▸ found)
  placed := by
    refine sound.placed.update others ?_ ?_ ?_
    · intro other apart
      have moved : kindAt base rows' other
          = if other = path then none else kindAt base core.rows other :=
        lookup_depart sound.placed sound.keyed formed bare left others other
      rw [if_neg apart] at moved
      exact moved
    · intro entry found present
      rw [left.covers.2 entry found] at present
      cases present
    · intro held
      obtain ⟨entry, other, above, found, present⟩ := held
      rw [sound.placed.not_present sound.keyed (bare other above) found] at present
      cases present
  facts := by
    intro other entry found
    by_cases same : other = path
    · subst same
      obtain ⟨facts, ino, now, known, rfl⟩ := left.eq_whiteout found
      exact Or.inr known.symm
    · exact sound.facts other entry (others other same ▸ found)
  hidden := by
    intro other entry found absent
    by_cases same : other = path
    · subst same
      obtain ⟨facts, ino, now, known, rfl⟩ := left.eq_whiteout found
      exact ⟨known.symm, BaseTree.get_of_facts known, rfl⟩
    · exact sound.hidden other entry (others other same ▸ found) absent
  shaped := by
    intro other entry found present
    by_cases same : other = path
    · subst same
      rw [left.covers.2 entry found] at present
      cases present
    · exact sound.shaped other entry (others other same ▸ found) present
  held := by
    intro other entry id found content
    by_cases same : other = path
    · subst same
      obtain ⟨facts, ino, now, -, rfl⟩ := left.eq_whiteout found
      cases content
    · rw [others other same] at found
      rw [sound.kept same released found content]
      exact sound.held other entry id found content
  owned := by
    intro here there entry row id foundHere foundThere contentHere contentThere
    have held (other : BytePath) (row : OverlayEntry) (found : rows'[other]? = some row)
        (content : row.content = .local id)
        : core.rows[other]? = some row := by
      by_cases same : other = path
      · subst same
        obtain ⟨facts, ino, now, -, rfl⟩ := left.eq_whiteout found
        cases content
      · exact others other same ▸ found
    exact sound.owned here there entry row id (held here entry foundHere contentHere)
      (held there row foundThere contentThere) contentHere contentThere

/-- Every step keeps the rows sound. -/
theorem Step.sound {core core' : Core} {effect : Effect}
    (step : Step digests base effect core core')
    (sound : Sound digests base core)
    : Sound digests base core' := by
  cases step with
  | idle more =>
      exact ⟨sound.keyed, sound.placed, sound.facts, sound.hidden, sound.shaped,
        fun path entry id found content =>
          ⟨(sound.held path entry id found content).1,
            Nat.lt_of_lt_of_le (sound.held path entry id found content).2 more⟩,
        sound.owned⟩
  | create created blank =>
      exact sound.put created.formed created.own created.present (Or.inr created.facts)
        created.shaped (created.placed sound.placed sound.keyed) (Stores.blank (by rw [blank]; rfl))
  | createFile created content =>
      exact sound.put created.formed created.own created.present (Or.inr created.facts)
        created.shaped (created.placed sound.placed sound.keyed)
        (Stores.fresh sound content [])
  | touch formed standing revises own content =>
      refine sound.put formed own revises.present ?_
        (revises.shaped_same (standing.shaped sound) content)
        (standing.placed revises formed own sound.placed sound.keyed)
        (Stores.same sound standing content)
      rw [revises.base]
      exact standing.facts sound
  | @copyUp _ path old entry bytes formed standing revises own file content =>
      refine sound.put formed own revises.present ?_ ?_
        (standing.placed revises formed own sound.placed sound.keyed)
        (Stores.fresh sound content bytes)
      · rw [revises.base]
        exact standing.facts sound
      · refine revises.shaped_file (standing.shaped sound) file ?_ ?_
        · rw [content]
          exact fun absurd => by cases absurd
        · intro oid found
          rw [content] at found
          cases found
  | @rewrite _ path old entry id bytes found present revises own before content =>
      have formed : WellFormed path := (sound.keyed path old found).2
      have standing : Standing digests base core.rows path old := .own found present
      refine sound.put formed own revises.present ?_ ?_
        (standing.placed revises formed own sound.placed sound.keyed)
        (Stores.again sound found before content bytes)
      · rw [revises.base]
        exact standing.facts sound
      · exact revises.shaped_same (standing.shaped sound) (content.trans before.symm)
  | @refer _ path old entry facts id found present revises own before unmoved known content =>
      have formed : WellFormed path := (sound.keyed path old found).2
      have standing : Standing digests base core.rows path old := .own found present
      have shaped := standing.shaped sound
      have file : old.kind.isFile = true := by
        cases kind : old.kind with
        | regular => rfl
        | executable => rfl
        | symlink =>
            have blank := (shaped.link kind).1
            rw [before] at blank
            cases blank
        | directory =>
            have blank := (shaped.directory kind).1
            rw [before] at blank
            cases blank
      refine sound.put formed own revises.present ?_ ?_
        (standing.placed revises formed own sound.placed sound.keyed)
        (Stores.blank (by rw [content]; rfl))
      · rw [revises.base]
        exact standing.facts sound
      · have listed : base.facts digests path = some facts := by
          rcases sound.facts path old found with unknown | same
          · rw [known] at unknown
            cases unknown
          · rw [← same, known]
        obtain ⟨node, got, rfl⟩ := Option.map_eq_some_iff.mp listed
        refine revises.shaped_file shaped file ?_ ?_
        · rw [content]
          exact fun absurd => by cases absurd
        · intro oid referred
          rw [content] at referred
          cases referred
          exact ⟨path, node, got, rfl, Or.inl rfl⟩
  | depart shows formed bare left others released =>
      exact sound.depart formed bare left others released
  | relocate relocates released => exact sound.relocate relocates released

end Gfs.Overlay
