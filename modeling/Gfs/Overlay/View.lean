import Gfs.Overlay.Commit
import Gfs.Overlay.Model

/-! The merged view as a function of the path: what `resolve` shows there. How it moves when
one row changes, and what the rows must satisfy for the view to be a tree.
-/

namespace Gfs.Overlay

open Gfs.Types
open Std (ExtTreeMap ExtTreeSet)

-- Resolution

/-- What a row means to the paths below it. -/
def OverlayEntry.mark (entry : OverlayEntry) : Bool × Bool × Bool :=
  (entry.present, entry.kind.isDir, entry.opaqueDir)

/-- What the rows at a path mean to the paths below it: no row lets them through, like a
directory that is not opaque.
-/
def markAt (rows : Rows) (path : BytePath) : Bool × Bool × Bool :=
  rows[path]?.elim (true, true, false) OverlayEntry.mark

variable {path : BytePath} {rows : Rows}

/-- A path resolves to a row exactly when the row is its own, present and not blocked. -/
theorem resolve_eq_overlay {entry : OverlayEntry}
    : resolve rows path = .overlay entry
      ↔ ¬ Blocked rows path ∧ rows[path]? = some entry ∧ entry.present = true := by
  by_cases blocked : Blocked rows path
  · simp [resolve_of_blocked blocked, blocked]
  · obtain ⟨own, masked, clear⟩ := resolve_of_not_blocked blocked
    cases found : rows[path]? with
    | none =>
        by_cases hidden : Masked rows path
        · simp [masked found hidden]
        · simp [clear found hidden]
    | some row =>
        rw [own row found]
        cases present : row.present with
        | true =>
            simp only [↓reduceIte, Resolution.overlay.injEq, blocked, not_false_eq_true,
              Option.some.injEq, true_and]
            exact ⟨fun same => ⟨same, same ▸ present⟩, fun both => both.1⟩
        | false =>
            simp only [Bool.false_eq_true, ↓reduceIte, reduceCtorEq, Option.some.injEq,
              false_iff, not_and, Bool.not_eq_true]
            intro _ same
            exact same ▸ present

/-- A path resolves to the base exactly when no row stands on it, above it as anything but a
directory, or above it as an opaque one.
-/
theorem resolve_eq_base
    : resolve rows path = .base
      ↔ ¬ Blocked rows path ∧ rows[path]? = none ∧ ¬ Masked rows path := by
  by_cases blocked : Blocked rows path
  · simp [resolve_of_blocked blocked, blocked]
  · obtain ⟨own, masked, clear⟩ := resolve_of_not_blocked blocked
    cases found : rows[path]? with
    | none =>
        by_cases hidden : Masked rows path
        · simp [masked found hidden, hidden]
        · simp [clear found hidden, hidden, blocked]
    | some row =>
        rw [own row found]
        cases row.present <;> simp

private theorem walkAncestors_cons (rows : Rows) (masked : Bool) (dir : BytePath)
    (dirs : List BytePath)
    : walkAncestors rows masked (dir :: dirs)
      = if !(markAt rows dir).1 then none
        else if !(markAt rows dir).2.1 then none
        else walkAncestors rows (masked || (markAt rows dir).2.2) dirs := by
  rw [walkAncestors]
  unfold markAt
  cases rows[dir]? <;> simp [OverlayEntry.mark]

theorem resolve_congr {rows rows' : Rows}
    (above : ∀ dir ∈ ancestorsOf path, markAt rows' dir = markAt rows dir)
    (own : rows'[path]? = rows[path]?)
    : resolve rows' path = resolve rows path := by
  have walked
      : ∀ masked, walkAncestors rows' masked (ancestorsOf path)
        = walkAncestors rows masked (ancestorsOf path) := by
    generalize ancestorsOf path = dirs at above
    induction dirs with
    | nil => exact fun _ => rfl
    | cons dir dirs ih =>
        intro masked
        have later := ih (fun other member => above other (by simp [member]))
        rw [walkAncestors_cons, walkAncestors_cons, above dir (by simp), later]
  unfold resolve
  rw [walked, own]

-- Lookups through the rows

/-- What a merged filesystem has at a path the overlay leaves to the base. -/
def BaseTree.node (base : BaseTree) (path : BytePath) : Option Node :=
  (base.get path).bind Node.ofBase

/-- What is seen at a path: a row through `shown`, the base through `under`. -/
def lookup {β : Type} (base : BaseTree) (rows : Rows) (shown : OverlayEntry → β)
    (under : Node → β) (path : BytePath)
    : Option β :=
  match resolve rows path with
  | .overlay entry => some (shown entry)
  | .base => (base.node path).map under
  | .absent => none

/-- The merged view at one path. -/
def view (digests : Digests) (overlay : Overlay) (base : BaseTree) (path : BytePath)
    : Option Node :=
  lookup base overlay.entries (nodeOf digests overlay base) id path

/-- The kind the merged view has at a path. -/
def kindAt (base : BaseTree) (rows : Rows) (path : BytePath) : Option OverlayKind :=
  lookup base rows OverlayEntry.kind Node.kind path

theorem view_kind (digests : Digests) (overlay : Overlay) (base : BaseTree) (path : BytePath)
    : (view digests overlay base path).map Node.kind = kindAt base overlay.entries path := by
  unfold view kindAt lookup
  cases resolve overlay.entries path <;> simp [nodeOf]

variable {base : BaseTree}

theorem lookup_eq_none {β : Type} {shown : OverlayEntry → β}
    {under : Node → β}
    : lookup base rows shown under path = none ↔ kindAt base rows path = none := by
  unfold kindAt lookup
  cases resolve rows path <;> simp

theorem lookup_congr {β : Type}
    {shown shown' : OverlayEntry → β} {under : Node → β}
    (same
      : ∀ entry, rows[path]? = some entry → entry.present = true
          → shown' entry = shown entry)
    : lookup base rows shown' under path = lookup base rows shown under path := by
  unfold lookup
  cases resolved : resolve rows path with
  | overlay entry =>
      obtain ⟨-, found, present⟩ := resolve_eq_overlay.mp resolved
      simp [same entry found present]
  | base => rfl
  | absent => rfl

theorem BaseTree.node_ancestor {path dir : BytePath} {node : Node}
    (found : base.node path = some node) (above : dir ∈ ancestorsOf path) (nonroot : dir ≠ [])
    : base.node dir = some ⟨.directory, []⟩ := by
  obtain ⟨here, got, -⟩ := Option.bind_eq_some_iff.mp found
  have nonempty : path ≠ [] := (mem_ancestorsOf.mp above).1
  simp only [BaseTree.get, nonempty, ↓reduceIte] at got
  obtain ⟨-, -, -, dirs⟩ := base.placed path here got
  obtain ⟨parent, listed, isDir⟩ := Option.map_eq_some_iff.mp (dirs dir above nonroot)
  obtain ⟨-, -, blank, -⟩ := base.placed dir parent listed
  simp [BaseTree.node, BaseTree.get, nonroot, listed, Node.ofBase, isDir,
    OverlayKind.fromEntryKind, blank isDir]

/-- Every row that is there has directories above it in the view. -/
def Placed (base : BaseTree) (rows : Rows) : Prop :=
  ∀ (path : BytePath) (entry : OverlayEntry),
    rows[path]? = some entry → entry.present = true
    → ∀ dir ∈ ancestorsOf path, dir ≠ [] → kindAt base rows dir = some .directory

theorem kindAt_eq_some {kind : OverlayKind}
    : kindAt base rows path = some kind
      ↔ (∃ entry, resolve rows path = .overlay entry ∧ entry.kind = kind)
        ∨ (resolve rows path = .base ∧ ∃ node, base.node path = some node ∧ node.kind = kind) := by
  unfold kindAt lookup
  cases resolve rows path <;> simp

theorem not_blocked_of_directory
    (keyed : Keyed rows)
    (above : ∀ dir ∈ ancestorsOf path, dir ≠ [] → kindAt base rows dir = some .directory)
    : ¬ Blocked rows path := by
  intro blocked
  obtain ⟨dir, member, entry, found, stops⟩ := blocked
  have nonroot : dir ≠ [] := (keyed dir entry found).2.1
  rcases kindAt_eq_some.mp (above dir member nonroot) with ⟨row, resolved, kind⟩ | ⟨resolved, -⟩
  · obtain ⟨-, own, present⟩ := resolve_eq_overlay.mp resolved
    rw [found] at own
    cases own
    rcases stops with absent | leaf
    · rw [present] at absent
      cases absent
    · rw [kind] at leaf
      cases leaf
  · obtain ⟨-, missing, -⟩ := resolve_eq_base.mp resolved
    rw [found] at missing
    cases missing

theorem Placed.resolve (placed : Placed base rows)
    (keyed : Keyed rows) {entry : OverlayEntry}
    (found : rows[path]? = some entry) (present : entry.present = true)
    : resolve rows path = .overlay entry :=
  resolve_eq_overlay.mpr
    ⟨not_blocked_of_directory keyed (placed path entry found present), found, present⟩

/-- The view is a tree: above whatever it shows are directories. Witness: rows are placed,
and what the base shows has its own directories, which no row hides.
-/
theorem Placed.kindAt_ancestor (placed : Placed base rows)
    {path dir : BytePath} {kind : OverlayKind} (shown : kindAt base rows path = some kind)
    (above : dir ∈ ancestorsOf path) (nonroot : dir ≠ [])
    : kindAt base rows dir = some .directory := by
  rcases kindAt_eq_some.mp shown with ⟨entry, resolved, -⟩ | ⟨resolved, node, listed, -⟩
  · obtain ⟨-, found, present⟩ := resolve_eq_overlay.mp resolved
    exact placed path entry found present dir above nonroot
  · obtain ⟨clear, -, bare⟩ := resolve_eq_base.mp resolved
    have clearDir : ¬ Blocked rows dir := by
      intro blocked
      obtain ⟨other, member, rest⟩ := blocked
      exact clear ⟨other, ancestorsOf_trans member above, rest⟩
    have bareDir : ¬ Masked rows dir := by
      intro masked
      obtain ⟨other, member, rest⟩ := masked
      exact bare ⟨other, ancestorsOf_trans member above, rest⟩
    apply kindAt_eq_some.mpr
    cases found : rows[dir]? with
    | none =>
        refine Or.inr ⟨resolve_eq_base.mpr ⟨clearDir, found, bareDir⟩, _,
          BaseTree.node_ancestor listed above nonroot, rfl⟩
    | some entry =>
        have present : entry.present = true := by
          cases value : entry.present with
          | true => rfl
          | false => exact absurd ⟨dir, above, entry, found, Or.inl value⟩ clear
        have isDir : entry.kind.isDir = true := by
          cases value : entry.kind.isDir with
          | true => rfl
          | false => exact absurd ⟨dir, above, entry, found, Or.inr value⟩ clear
        refine Or.inl ⟨entry, resolve_eq_overlay.mpr ⟨clearDir, found, present⟩, ?_⟩
        simpa [OverlayKind.isDir] using isDir

-- One row changes

/-- Nothing of the base shows below the path: its row is a whiteout, a leaf or an opaque
directory, or there is no row and no base node either.
-/
def Covers (base : BaseTree) (path : BytePath) : Option OverlayEntry → Prop
  | none => base.node path = none
  | some entry =>
      entry.present = false ∨ entry.kind.isDir = false ∨ entry.opaqueDir = true

section Updates

variable {β : Type} {base : BaseTree} {rows rows' : Rows} {path : BytePath}
  {shown : OverlayEntry → β} {under : Node → β}

/-- Below a covered path, only a row that is there can show. -/
theorem lookup_below_covered {below : BytePath} (above : path ∈ ancestorsOf below)
    (nonroot : path ≠ []) (covers : Covers base path rows[path]?)
    (bare : ∀ entry, rows[below]? = some entry → entry.present = false)
    : lookup base rows shown under below = none := by
  unfold lookup
  cases resolved : resolve rows below with
  | absent => rfl
  | overlay entry =>
      obtain ⟨-, found, present⟩ := resolve_eq_overlay.mp resolved
      rw [bare entry found] at present
      cases present
  | base =>
      obtain ⟨clear, -, open_⟩ := resolve_eq_base.mp resolved
      cases found : rows[path]? with
      | none =>
          rw [found] at covers
          cases listed : base.node below with
          | none => rfl
          | some node =>
              have dir := BaseTree.node_ancestor listed above nonroot
              rw [show base.node path = none from covers] at dir
              cases dir
      | some entry =>
          rw [found] at covers
          rcases covers with hidden | leaf | masks
          · exact absurd ⟨path, above, entry, found, Or.inl hidden⟩ clear
          · exact absurd ⟨path, above, entry, found, Or.inr leaf⟩ clear
          · exact absurd ⟨path, above, entry, found, masks⟩ open_

theorem Placed.not_present (placed : Placed base rows) (keyed : Keyed rows)
    (nothing : kindAt base rows path = none) {entry : OverlayEntry}
    (found : rows[path]? = some entry)
    : entry.present = false := by
  cases present : entry.present with
  | false => rfl
  | true =>
      have resolved := placed.resolve keyed found present
      simp [kindAt, lookup, resolved] at nothing

/-- Changing one row leaves every other path as it was, when nothing showed below the path
and the new row covers it.
-/
theorem lookup_update (placed : Placed base rows) (keyed : Keyed rows) (nonroot : path ≠ [])
    (others : ∀ other : BytePath, other ≠ path → rows'[other]? = rows[other]?)
    (bare : ∀ below, path ∈ ancestorsOf below → kindAt base rows below = none)
    (covers : Covers base path rows'[path]?) {other : BytePath} (distinct : other ≠ path)
    : lookup base rows' shown under other = lookup base rows shown under other := by
  by_cases above : path ∈ ancestorsOf other
  · rw [lookup_eq_none.mpr (bare other above)]
    refine lookup_below_covered above nonroot covers ?_
    intro entry found
    rw [others other distinct] at found
    exact placed.not_present keyed (bare other above) found
  · have resolved : resolve rows' other = resolve rows other := by
      refine resolve_congr ?_ (others other distinct)
      intro dir member
      have apart : dir ≠ path := fun same => above (same ▸ member)
      simp [markAt, others dir apart]
    simp only [lookup, resolved]

theorem resolve_same_mark
    (others : ∀ other : BytePath, other ≠ path → rows'[other]? = rows[other]?)
    (mark : markAt rows' path = markAt rows path) {other : BytePath} (distinct : other ≠ path)
    : resolve rows' other = resolve rows other := by
  refine resolve_congr ?_ (others other distinct)
  intro dir member
  by_cases same : dir = path
  · rw [same, mark]
  · simp [markAt, others dir same]

theorem lookup_same_mark
    (others : ∀ other : BytePath, other ≠ path → rows'[other]? = rows[other]?)
    (mark : markAt rows' path = markAt rows path) {other : BytePath} (distinct : other ≠ path)
    : lookup base rows' shown under other = lookup base rows shown under other := by
  simp only [lookup, resolve_same_mark others mark distinct]

/-- The view stays a tree when a row is put where a directory is above it and the view moves
nowhere else.
-/
theorem Placed.update (placed : Placed base rows)
    (others : ∀ other : BytePath, other ≠ path → rows'[other]? = rows[other]?)
    (moved : ∀ other, other ≠ path → kindAt base rows' other = kindAt base rows other)
    (above
      : ∀ entry, rows'[path]? = some entry → entry.present = true
          → ∀ dir ∈ ancestorsOf path, dir ≠ [] → kindAt base rows dir = some .directory)
    (below
      : (∃ entry other, path ∈ ancestorsOf other ∧ rows[other]? = some entry
          ∧ entry.present = true)
        → kindAt base rows' path = some .directory)
    : Placed base rows' := by
  intro other entry found present dir member nonroot
  by_cases same : other = path
  · subst same
    have apart : dir ≠ other := fun equal => not_mem_ancestorsOf_self _ (equal ▸ member)
    rw [moved dir apart]
    exact above entry found present dir member nonroot
  · rw [others other same] at found
    by_cases equal : dir = path
    · subst equal
      exact below ⟨entry, other, member, found, present⟩
    · rw [moved dir equal]
      exact placed other entry found present dir member nonroot

end Updates

end Gfs.Overlay
