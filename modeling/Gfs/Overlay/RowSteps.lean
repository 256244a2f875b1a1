import Gfs.Overlay.Steps

/-! The steps that change one row: what they show afterwards, and that the rows stay sound.
-/

namespace Gfs.Overlay

open Gfs.Types
open Std (ExtTreeMap ExtTreeSet)

variable {digests : Digests} {base : BaseTree}

-- What stands at a path

variable {rows : Rows} {kind : OverlayKind} {old entry : OverlayEntry}

theorem Placed.bare_of_leaf (placed : Placed base rows) {path below : BytePath}
    (leaf : kindAt base rows path ≠ some .directory) (nonroot : path ≠ [])
    (above : path ∈ ancestorsOf below)
    : kindAt base rows below = none := by
  cases shown : kindAt base rows below with
  | none => rfl
  | some kind => exact absurd (placed.kindAt_ancestor shown above nonroot) leaf

variable {path : BytePath}

theorem kindAt_of_base {node : BaseNode} (resolved : resolve rows path = .base)
    (got : base.get path = some node) (kinds : OverlayKind.fromEntryKind node.kind = some kind)
    : kindAt base rows path = some kind := by
  simp [kindAt, lookup, resolved, BaseTree.node, got, Node.ofBase, kinds]

theorem Standing.adopted {node : BaseNode} (ino : Nat) (now : Timestamp)
    (resolved : resolve rows path = .base) (got : base.get path = some node)
    (kinds : OverlayKind.fromEntryKind node.kind = some kind)
    : Standing digests base rows path
        (Overlay.adoptedEntry path (BaseTree.factsOfNode digests node) kind ino now) := by
  refine .base resolved got rfl kinds rfl rfl rfl rfl ?_
  simp [Overlay.adoptedEntry, BaseTree.facts, got]

theorem Standing.shows (standing : Standing digests base rows path old) (placed : Placed base rows)
    (keyed : Keyed rows)
    : kindAt base rows path = some old.kind := by
  cases standing with
  | own found present =>
      simp [kindAt, lookup, placed.resolve keyed found present]
  | base resolved got _ kinds => exact kindAt_of_base resolved got kinds

theorem Standing.above (standing : Standing digests base rows path old) (placed : Placed base rows)
    (keyed : Keyed rows)
    : UnderDirectories base rows path :=
  fun _ member nonroot =>
    placed.kindAt_ancestor (standing.shows placed keyed) member nonroot

theorem OverlayKind.isDir_iff : kind.isDir = true ↔ kind = .directory := by
  cases kind <;> simp [OverlayKind.isDir]

theorem OverlayKind.isDir_of_isFile (file : kind.isFile = true)
    : kind.isDir = false := by
  cases kind <;> first | rfl | cases file

theorem Revises.isDir (revises : Revises old entry)
    : entry.kind.isDir = old.kind.isDir := by
  rcases revises.kinds with same | ⟨new, before⟩
  · rw [same]
  · rw [OverlayKind.isDir_of_isFile new, OverlayKind.isDir_of_isFile before]

-- The view after a put

section Put

variable {β : Type} {rows : Rows} {path : BytePath} {entry : OverlayEntry}
  {shown : OverlayEntry → β} {under : Node → β}

theorem Created.lookup_other (created : Created digests base rows path entry)
    (placed : Placed base rows) (keyed : Keyed rows) {other : BytePath}
    (distinct : other ≠ path)
    : lookup base (rows.insert path entry) shown under other
      = lookup base rows shown under other := by
  have vacant : kindAt base rows path ≠ some .directory := by
    rw [created.vacant]
    exact fun absurd => by cases absurd
  refine lookup_update placed keyed created.formed.1
    (fun _ apart => getElem?_insert_other rows entry apart)
    (fun below above => placed.bare_of_leaf vacant created.formed.1 above) ?_ distinct
  rw [getElem?_insert_self]
  cases kind : entry.kind.isDir with
  | false => exact Or.inr (Or.inl kind)
  | true => exact Or.inr (Or.inr (created.opacity.trans kind))

variable {old : OverlayEntry}

theorem Standing.markAt_insert (standing : Standing digests base rows path old)
    (revises : Revises old entry) (dir : old.kind.isDir = true)
    : markAt (rows.insert path entry) path = markAt rows path := by
  rw [markAt, getElem?_insert_self]
  cases standing with
  | own found present =>
      simp [markAt, found, OverlayEntry.mark, revises.present, present, revises.isDir,
        revises.opacity]
  | base resolved _ _ _ opacity =>
      obtain ⟨-, missing, -⟩ := resolve_eq_base.mp resolved
      simp [markAt, missing, OverlayEntry.mark, revises.present, revises.isDir, dir,
        revises.opacity, opacity]

/-- A revised row changes the view nowhere else: a directory keeps its mark, and below a leaf
nothing shows.
-/
theorem Standing.lookup_other (standing : Standing digests base rows path old)
    (revises : Revises old entry) (formed : WellFormed path) (placed : Placed base rows)
    (keyed : Keyed rows) {other : BytePath} (distinct : other ≠ path)
    : lookup base (rows.insert path entry) shown under other
      = lookup base rows shown under other := by
  have kinds := standing.shows placed keyed
  cases dir : old.kind.isDir with
  | true =>
      exact lookup_same_mark (fun _ apart => getElem?_insert_other rows entry apart)
        (standing.markAt_insert revises dir) distinct
  | false =>
      have leaf : kindAt base rows path ≠ some .directory := by
        rw [kinds]
        intro same
        rw [Option.some.inj same] at dir
        cases dir
      refine lookup_update placed keyed formed.1
        (fun _ apart => getElem?_insert_other rows entry apart)
        (fun below above => placed.bare_of_leaf leaf formed.1 above) ?_ distinct
      rw [getElem?_insert_self]
      exact Or.inr (Or.inl (revises.isDir.trans dir))

theorem resolve_put (keyed : Keyed rows) (formed : WellFormed path) (own : entry.path = path)
    (present : entry.present = true) (above : UnderDirectories base rows path)
    (others
      : ∀ other, other ≠ path
          → kindAt base (rows.insert path entry) other = kindAt base rows other)
    : resolve (rows.insert path entry) path = .overlay entry := by
  have clear : ¬ Blocked (rows.insert path entry) path := by
    refine @not_blocked_of_directory _ _ base (keyed.insert formed own) ?_
    intro dir member nonroot
    have apart : dir ≠ path := fun same => not_mem_ancestorsOf_self _ (same ▸ member)
    rw [others dir apart]
    exact above dir member nonroot
  exact resolve_eq_overlay.mpr ⟨clear, getElem?_insert_self rows path entry, present⟩

theorem Created.placed (created : Created digests base rows path entry)
    (placed : Placed base rows) (keyed : Keyed rows)
    : Placed base (rows.insert path entry) := by
  refine placed.update (fun _ apart => getElem?_insert_other rows entry apart)
    (fun _ apart => created.lookup_other placed keyed apart)
    (fun _ _ _ => created.above) ?_
  intro present
  obtain ⟨row, other, above, found, there⟩ := present
  have dir := placed other row found there path above created.formed.1
  rw [created.vacant] at dir
  cases dir

theorem Standing.placed (standing : Standing digests base rows path old)
    (revises : Revises old entry) (formed : WellFormed path) (own : entry.path = path)
    (placed : Placed base rows) (keyed : Keyed rows)
    : Placed base (rows.insert path entry) := by
  have others : ∀ other, other ≠ path
      → kindAt base (rows.insert path entry) other = kindAt base rows other :=
    fun _ apart => standing.lookup_other revises formed placed keyed apart
  refine placed.update (fun _ apart => getElem?_insert_other rows entry apart) others
    (fun _ _ _ => standing.above placed keyed) ?_
  intro present
  obtain ⟨row, other, above, found, there⟩ := present
  have dir := placed other row found there path above formed.1
  rw [standing.shows placed keyed] at dir
  have resolved :=
    resolve_put keyed formed own revises.present (standing.above placed keyed) others
  simp only [kindAt, lookup, resolved, Option.some.injEq]
  have isDir := revises.isDir
  rw [Option.some.inj dir] at isDir
  exact OverlayKind.isDir_iff.mp isDir

end Put

theorem Core.node_congr {core core' : Core} {entry : OverlayEntry}
    (kept : ∀ id, entry.content = .local id → core'.files[id]? = core.files[id]?)
    : core'.node digests base entry = core.node digests base entry := by
  unfold Core.node
  cases content : entry.content with
  | none => rfl
  | «local» id => simp [kept id content]
  | base oid => rfl

variable {core : Core}

/-- What a put shows: the new node at its path, the old view elsewhere. -/
theorem view_put {files : ExtTreeMap Nat Bytes compare} {next : Nat} (keyed : Keyed core.rows)
    (formed : WellFormed path) (own : entry.path = path) (present : entry.present = true)
    (above : UnderDirectories base core.rows path)
    (others
      : ∀ {β : Type} {shown : OverlayEntry → β} {under : Node → β} {other : BytePath},
          other ≠ path
          → lookup base (core.rows.insert path entry) shown under other
            = lookup base core.rows shown under other)
    (stores : Stores core path entry files next)
    : ∀ other,
        Core.view digests base ⟨core.rows.insert path entry, files, next⟩ other
        = if other = path then
            some (Core.node digests base ⟨core.rows.insert path entry, files, next⟩ entry)
          else core.view digests base other := by
  intro other
  by_cases same : other = path
  · subst same
    have resolved := resolve_put keyed formed own present above (fun _ apart => others apart)
    simp [Core.view, lookup, resolved]
  · rw [if_neg same, Core.view, others same]
    refine lookup_congr ?_
    intro row found _
    refine Core.node_congr ?_
    intro id content
    exact stores.kept other row id same found content

-- Soundness and view of each step

theorem Standing.shaped (sound : Sound digests base core)
    (standing : Standing digests base core.rows path old)
    : Shaped digests base old := by
  cases standing with
  | own found present => exact sound.shaped path old found present
  | @base node resolved got present kinds opacity content target renamedFrom facts =>
      refine ⟨?_, fun _ => opacity, ?_, ?_, ?_⟩
      · intro dir
        simp [content, dir, target, OverlayKind.isDir]
      · intro file
        simp [content, OverlayKind.isDir_of_isFile file, target]
      · intro link
        simp [content, link, OverlayKind.isDir, Content.localId]
      · intro oid content'
        rw [content] at content'
        split at content'
        · cases content'
        · cases content'
          exact ⟨path, node, got, rfl, Or.inl target⟩

theorem Standing.facts (sound : Sound digests base core)
    (standing : Standing digests base core.rows path old)
    : old.base = none ∨ old.base = base.facts digests path := by
  cases standing with
  | own found present => exact sound.facts path old found
  | base _ _ _ _ _ _ _ _ facts => exact Or.inr facts

/-- A revision that keeps its content keeps its shape. -/
theorem Revises.shaped_same (revises : Revises old entry) (shaped : Shaped digests base old)
    (content : entry.content = old.content)
    : Shaped digests base entry := by
  refine ⟨?_, ?_, ?_, ?_, ?_⟩
  · intro dir
    rcases revises.kinds with same | ⟨file, -⟩
    · rw [content, revises.target]
      exact shaped.directory (same ▸ dir)
    · rw [dir] at file
      cases file
  · intro leaf
    rw [revises.opacity]
    refine shaped.leaf (fun dir => leaf ?_)
    exact OverlayKind.isDir_iff.mp (revises.isDir.trans (OverlayKind.isDir_iff.mpr dir))
  · intro file
    rw [content, revises.target]
    rcases revises.kinds with same | ⟨-, before⟩
    · exact shaped.file (same ▸ file)
    · exact shaped.file before
  · intro link
    rw [content, revises.target]
    rcases revises.kinds with same | ⟨file, -⟩
    · exact shaped.link (same ▸ link)
    · rw [link] at file
      cases file
  · intro oid found
    rw [revises.target]
    exact shaped.served oid (content ▸ found)

/-- A file's revision with other content keeps its shape, if the base serves a reference. -/
theorem Revises.shaped_file (revises : Revises old entry) (shaped : Shaped digests base old)
    (file : old.kind.isFile = true) (some_ : entry.content ≠ .none)
    (served : ∀ oid, entry.content = .base oid → Serves digests base oid none)
    : Shaped digests base entry := by
  have isFile : entry.kind.isFile = true := by
    rcases revises.kinds with same | ⟨new, -⟩
    · exact same ▸ file
    · exact new
  have target : entry.symlinkTarget = none :=
    revises.target.trans (shaped.file file).1
  have before : old.kind ≠ .directory := by
    intro dir
    rw [dir] at file
    cases file
  refine ⟨?_, ?_, ?_, ?_, ?_⟩
  · intro dir
    rw [dir] at isFile
    cases isFile
  · intro _
    exact revises.opacity.trans (shaped.leaf before)
  · exact fun _ => ⟨target, some_⟩
  · intro link
    rw [link] at isFile
    cases isFile
  · intro oid found
    rw [target]
    exact served oid found

theorem Stores.blank (blank : entry.content.localId = none)
    : Stores core path entry core.files core.next := by
  have never : ∀ id, entry.content ≠ .local id := by
    intro id found
    rw [found] at blank
    cases blank
  exact ⟨Nat.le_refl _, fun _ _ _ _ _ _ => rfl, fun id found => absurd found (never id),
    fun _ _ id _ _ found => absurd found (never id)⟩

theorem Stores.fresh (sound : Sound digests base core) (content : entry.content = .local core.next)
    (bytes : Bytes)
    : Stores core path entry (core.files.insert core.next bytes) (core.next + 1) := by
  refine ⟨Nat.le_succ _, ?_, ?_, ?_⟩
  · intro other row id _ found held
    have given := (sound.held other row id found held).2
    rw [ExtTreeMap.getElem?_insert, if_neg]
    intro same
    have equal : core.next = id := Std.LawfulEqCmp.compare_eq_iff_eq.mp same
    omega
  · intro id found
    rw [content] at found
    cases found
    simp
  · intro other row id _ found own held
    rw [content] at own
    cases own
    exact Nat.lt_irrefl _ (sound.held other row core.next found held).2

theorem Stores.again (sound : Sound digests base core) {id : Nat}
    (found : core.rows[path]? = some old) (before : old.content = .local id)
    (content : entry.content = .local id) (bytes : Bytes)
    : Stores core path entry (core.files.insert id bytes) core.next := by
  refine ⟨Nat.le_refl _, ?_, ?_, ?_⟩
  · intro other row used apart held own
    rw [ExtTreeMap.getElem?_insert, if_neg]
    intro same
    have equal : id = used := Std.LawfulEqCmp.compare_eq_iff_eq.mp same
    subst equal
    exact apart (sound.owned other path row old id held found own before)
  · intro used own
    rw [content] at own
    cases own
    refine ⟨by simp, (sound.held path old id found before).2⟩
  · intro other row used apart held own shared
    rw [content] at own
    cases own
    exact apart (sound.owned other path row old id held found shared before)

theorem Stores.same (sound : Sound digests base core)
    (standing : Standing digests base core.rows path old) (content : entry.content = old.content)
    : Stores core path entry core.files core.next := by
  cases standing with
  | own found present =>
      refine ⟨Nat.le_refl _, fun _ _ _ _ _ _ => rfl, ?_, ?_⟩
      · exact fun id held => sound.held path old id found (content ▸ held)
      · intro other row id apart held own shared
        exact apart (sound.owned other path row old id held found shared (content ▸ own))
  | base _ _ _ _ _ blank =>
      refine Stores.blank ?_
      rw [content, blank]
      split <;> rfl

end Gfs.Overlay
