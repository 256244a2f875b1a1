import Gfs.Overlay.Report

/-! Whether status accounts for every difference between the workspace and the base. A base
file that no longer shows is told by a row at its own path, by a file renamed from it, or by
the whiteout of a directory above it that has no rows below; a step is safe when it takes no
file's last record.
-/

namespace Gfs.Overlay

open Gfs.Types
open Gfs.Lib.Runs
open Std (ExtTreeMap ExtTreeSet)

variable {digests : Digests} {base : BaseTree}

-- Completeness

/-- A node that Git has an entry for: anything but a directory. -/
def Node.isLeaf (node : Node) : Bool :=
  !node.kind.isDir

/-- Status accounts for every file path whose kind or content differs from the base. -/
def Complete (digests : Digests) (base : BaseTree) (overlay : Overlay) (status : Status)
    : Prop :=
  ∀ path : BytePath,
    (mergedView digests overlay base)[path]?.filter Node.isLeaf
        ≠ (base.node path).filter Node.isLeaf
    → (∃ change ∈ status.changes, change.path = path)
      ∨ (∃ change ∈ status.changes, change.kind = .renamed ∧ change.origin = some path)
      ∨ (∃ dir ∈ status.directoryDeletions, dir ∈ ancestorsOf path)

/-- The bytes a row's content is hashed from, unless the base already told its object id. -/
def Core.hashInput (core : Core) (entry : OverlayEntry) : Option Bytes :=
  match entry.content with
  | .base _ => none
  | .local id => some (blobFrame entry.size ++ core.files[id]?.getD [])
  | .none =>
      some (blobFrame (entry.symlinkTarget.getD []).length ++ entry.symlinkTarget.getD [])

/-- No row's content collides with other bytes the base has at the same path. -/
def NoCollision (digests : Digests) (base : BaseTree) (core : Core) : Prop :=
  ∀ row ∈ core.rows.toList, ∀ input ∈ (core.hashInput row.2).toList,
    ∀ node ∈ (base.get row.1).toList,
      digests.sha1 input = digests.sha1 (blobFrame node.content.length ++ node.content)
      → input = blobFrame node.content.length ++ node.content

instance (digests : Digests) (base : BaseTree) (core : Core)
    : Decidable (NoCollision digests base core) :=
  inferInstanceAs (Decidable (∀ row ∈ core.rows.toList, _))

-- Records

/-- The base has a file at the path. -/
def isBaseFile (base : BaseTree) (path : BytePath) : Bool :=
  (base.node path).any Node.isLeaf

/-- A row that is there, is no directory and was renamed from the path. -/
def OverlayEntry.comesFrom (entry : OverlayEntry) (path : BytePath) : Bool :=
  entry.present && !entry.kind.isDir && entry.renamedFrom == some path

/-- The row at `place` tells of a base file: it stands on the file's path, came from it, or is
the whiteout of a directory above it with no rows below.
-/
def tells (rows : Rows) (path place : BytePath) (entry : OverlayEntry) : Bool :=
  (place == path && (!entry.present || !entry.kind.isDir))
  || entry.comesFrom path
  || (!entry.present && (ancestorsOf path).contains place && (rowsUnder rows place).isEmpty)

/-- There is a record of a base file at `place`. -/
def Recorded (rows : Rows) (path place : BytePath) : Prop :=
  rows[place]?.any (tells rows path place) = true

/-- There is a row at `place` that came from the path. -/
def ComesFrom (rows : Rows) (path place : BytePath) : Prop :=
  rows[place]?.any (·.comesFrom path) = true

instance (rows : Rows) (path place : BytePath) : Decidable (Recorded rows path place) :=
  inferInstanceAs (Decidable (_ = true))

instance (rows : Rows) (path place : BytePath) : Decidable (ComesFrom rows path place) :=
  inferInstanceAs (Decidable (_ = true))

/-- The files of the base. -/
def baseFiles (base : BaseTree) : List BytePath :=
  base.nodes.keys.filter (isBaseFile base)

/-- Replacing the row at `place` does not take another base file's last record. -/
def NotLast (rows : Rows) (place path : BytePath) : Prop :=
  path ≠ place → Recorded rows path place
  → ∃ other ∈ rows.keys, other ≠ place ∧ Recorded rows path other

/-- A step is safe when it puts no directory on a base file and takes no base file's last
record: with the row it replaces, with the rows a rename drops below its destination, or
with those it takes from below its source.
-/
def SafeToReport (base : BaseTree) (core : Core) : Effect → Prop
  | .quiet => True
  | .create place kind =>
      (kind = .directory → isBaseFile base place = false)
      ∧ ∀ path ∈ baseFiles base, NotLast core.rows place path
  | .depart place =>
      ∀ path ∈ baseFiles base,
        (place ∈ ancestorsOf path ∧ rowsUnder core.rows place = [])
        ∨ NotLast core.rows place path
  | .relocate source target =>
      ∀ path ∈ baseFiles base,
        (isWithin path target = true
          → kindAt base core.rows (source ++ path.drop target.length) ≠ some .directory)
        ∧ (target ∈ ancestorsOf path ∨ NotLast core.rows target path)
        ∧ (target ∈ ancestorsOf path
          → kindAt base core.rows (source ++ path.drop target.length) = none
          → ∃ other ∈ core.rows.keys, other ≠ target ∧ ComesFrom core.rows path other)
        ∧ (source ∈ ancestorsOf path
          → core.rows[path]?.any (·.present) = true
          → (rowsUnder core.rows source).all (·.present) = true
            ∨ ∃ other ∈ core.rows.keys, other ≠ target ∧ ComesFrom core.rows path other)

instance (rows : Rows) (place path : BytePath) : Decidable (NotLast rows place path) :=
  inferInstanceAs (Decidable (_ → _ → _))

instance (base : BaseTree) (core : Core)
    : (effect : Effect) → Decidable (SafeToReport base core effect)
  | .quiet => inferInstanceAs (Decidable True)
  | .create _ _ => inferInstanceAs (Decidable (_ ∧ _))
  | .depart _ => inferInstanceAs (Decidable (∀ path ∈ baseFiles base, _))
  | .relocate _ _ => inferInstanceAs (Decidable (∀ path ∈ baseFiles base, _))

/-- Every base file still shows as the base has it or is on record, and no directory's row
stands on a base file or came from one.
-/
structure Accounted (base : BaseTree) (rows : Rows) : Prop where
  recorded
    : ∀ path, isBaseFile base path = true
        → resolve rows path = .base ∨ ∃ place, Recorded rows path place
  noDirectory
    : ∀ (path : BytePath) (entry : OverlayEntry),
        rows[path]? = some entry → entry.present = true → entry.kind.isDir = true
        → isBaseFile base path = false
  noOrigin
    : ∀ (path : BytePath) (entry : OverlayEntry) (origin : BytePath),
        rows[path]? = some entry → entry.present = true → entry.kind.isDir = true
        → entry.renamedFrom = some origin → isBaseFile base origin = false

-- Reading records

variable {path : BytePath}

theorem isBaseFile_iff
    : isBaseFile base path = true
      ↔ ∃ node, base.node path = some node ∧ node.kind.isDir = false := by
  simp [isBaseFile, Option.any_eq_true, Node.isLeaf]

theorem mem_baseFiles
    : path ∈ baseFiles base ↔ isBaseFile base path = true := by
  rw [baseFiles, List.mem_filter]
  refine and_iff_right_of_imp ?_
  intro file
  obtain ⟨node, listed, -⟩ := isBaseFile_iff.mp file
  obtain ⟨raw, got, -⟩ := Option.bind_eq_some_iff.mp listed
  simp only [BaseTree.get] at got
  split at got
  · cases got
  · rw [ExtTreeMap.mem_keys, ← ExtTreeMap.isSome_getElem?_iff_mem, got]
    rfl

theorem comesFrom_iff {entry : OverlayEntry}
    : entry.comesFrom path = true
      ↔ entry.present = true ∧ entry.kind.isDir = false ∧ entry.renamedFrom = some path := by
  simp [OverlayEntry.comesFrom, and_assoc]

section Records

variable {rows rows' : Rows} {path place : BytePath} {entry : OverlayEntry}

theorem Recorded.own (found : rows[path]? = some entry)
    (leaf : entry.present = true → entry.kind.isDir = false)
    : Recorded rows path path := by
  rw [Recorded, found, Option.any_some, tells]
  cases present : entry.present with
  | false => simp
  | true => simp [leaf present]

theorem Recorded.origin (found : rows[place]? = some entry)
    (comes : entry.comesFrom path = true)
    : Recorded rows path place := by
  rw [Recorded, found, Option.any_some, tells, comes]
  simp

theorem Recorded.cover (nonroot : place ≠ []) (found : rows[place]? = some entry)
    (absent : entry.present = false) (above : place ∈ ancestorsOf path)
    (bare : ∀ rel : BytePath, rows[place ++ slash :: rel]? = none)
    : Recorded rows path place := by
  have none_ : rowsUnder rows place = [] := by
    refine List.eq_nil_iff_forall_not_mem.mpr ?_
    intro row member
    obtain ⟨rel, there⟩ := (mem_rowsUnder nonroot).mp member
    rw [bare rel] at there
    cases there
  rw [Recorded, found, Option.any_some, tells, absent, none_]
  simp [above]

/-- The three kinds of record. -/
theorem Recorded.cases (keyed : Keyed rows) (recorded : Recorded rows path place)
    : ∃ entry, rows[place]? = some entry
        ∧ ((place = path ∧ (entry.present = true → entry.kind.isDir = false))
            ∨ entry.comesFrom path = true
            ∨ (entry.present = false ∧ place ∈ ancestorsOf path
                ∧ ∀ rel : BytePath, rows[place ++ slash :: rel]? = none)) := by
  obtain ⟨entry, found, told⟩ := (Option.any_eq_true _ _).mp recorded
  refine ⟨entry, found, ?_⟩
  simp only [tells, Bool.or_eq_true, Bool.and_eq_true, beq_iff_eq, Bool.not_eq_true',
    List.contains_eq_mem, decide_eq_true_eq, List.isEmpty_iff, or_assoc] at told
  rcases told with ⟨here, leaf⟩ | comes | ⟨⟨absent, above⟩, none_⟩
  · refine Or.inl ⟨here, fun present => ?_⟩
    rcases leaf with absent | leaf
    · rw [present] at absent
      cases absent
    · exact leaf
  · exact Or.inr (Or.inl comes)
  · refine Or.inr (Or.inr ⟨absent, above, fun rel => ?_⟩)
    cases there : rows[place ++ slash :: rel]? with
    | none => rfl
    | some row =>
        have member := (mem_rowsUnder (keyed place entry found).2.1).mpr ⟨rel, there⟩
        rw [none_] at member
        cases member

theorem UnderDirectories.present (above : UnderDirectories base rows path)
    (member : place ∈ ancestorsOf path) (keyed : Keyed rows)
    (found : rows[place]? = some entry)
    : entry.present = true := by
  have nonroot := (keyed place entry found).2.1
  rcases kindAt_eq_some.mp (above place member nonroot) with ⟨row, resolved, -⟩ | ⟨resolved, -⟩
  · obtain ⟨-, own, present⟩ := resolve_eq_overlay.mp resolved
    rw [found] at own
    cases own
    exact present
  · obtain ⟨-, missing, -⟩ := resolve_eq_base.mp resolved
    rw [found] at missing
    cases missing

end Records

theorem underDirectories_of_base {rows : Rows} (placed : Placed base rows)
    (file : isBaseFile base path = true) (resolved : resolve rows path = .base)
    : UnderDirectories base rows path := by
  obtain ⟨node, listed, -⟩ := isBaseFile_iff.mp file
  have shows : kindAt base rows path = some node.kind := by
    simp [kindAt, lookup, resolved, listed]
  exact fun dir member nonroot => placed.kindAt_ancestor shows member nonroot

-- One row changes

section OneRow

variable {rows rows' : Rows} {changed : BytePath}

variable {path : BytePath}

theorem Recorded.elsewhere (keyed : Keyed rows)
    (others : ∀ other : BytePath, other ≠ changed → rows'[other]? = rows[other]?)
    (above : UnderDirectories base rows changed) {place : BytePath} (apart : place ≠ changed)
    (recorded : Recorded rows path place)
    : Recorded rows' path place := by
  obtain ⟨entry, found, told⟩ := recorded.cases keyed
  have found' : rows'[place]? = some entry := (others place apart).trans found
  rcases told with ⟨rfl, leaf⟩ | comes | ⟨absent, over_, bare⟩
  · exact .own found' leaf
  · exact .origin found' comes
  · refine .cover (keyed place entry found).2.1 found' absent over_ ?_
    intro rel
    by_cases same : place ++ slash :: rel = changed
    · have member : place ∈ ancestorsOf changed := same ▸ mem_ancestorsOf_append _ _
      rw [above.present member keyed found] at absent
      cases absent
    · rw [others _ same]
      exact bare rel

theorem base_elsewhere (others : ∀ other : BytePath, other ≠ changed → rows'[other]? = rows[other]?)
    (apart : path ≠ changed)
    (mark : changed ∈ ancestorsOf path → markAt rows' changed = markAt rows changed)
    (resolved : resolve rows path = .base)
    : resolve rows' path = .base := by
  rw [resolve_congr ?_ (others path apart), resolved]
  intro dir member
  by_cases same : dir = changed
  · rw [same] at member ⊢
    exact mark member
  · simp [markAt, others dir same]

/-- A row that revises what stands at its path keeps everything accounted for. -/
theorem Accounted.revise {core : Core} (accounted : Accounted base core.rows)
    (sound : Sound digests base core) {old entry : OverlayEntry}
    (standing : Standing digests base core.rows path old) (revises : Revises old entry)
    : Accounted base (core.rows.insert path entry) := by
  have others : ∀ other : BytePath, other ≠ path
      → (core.rows.insert path entry)[other]? = core.rows[other]? :=
    fun _ apart => getElem?_insert_other core.rows entry apart
  have here := getElem?_insert_self core.rows path entry
  have shows := standing.shows sound.placed sound.keyed
  -- A base file at the path is a file in the row too.
  have leaf : isBaseFile base path = true → entry.kind.isDir = false := by
    intro file
    rw [revises.isDir]
    cases standing with
    | own found present =>
        cases directory : old.kind.isDir with
        | false => rfl
        | true =>
            rw [accounted.noDirectory path old found present directory] at file
            cases file
    | @base node resolved got present kinds =>
        obtain ⟨seen, listed, isLeaf⟩ := isBaseFile_iff.mp file
        simp only [BaseTree.node, got, Option.bind_some, Node.ofBase, kinds, Option.map_some,
          Option.some.injEq] at listed
        rw [← listed] at isLeaf
        exact isLeaf
  refine ⟨?_, ?_, ?_⟩
  · intro other file
    by_cases same : other = path
    · subst same
      exact Or.inr ⟨other, .own here (fun _ => leaf file)⟩
    · rcases accounted.recorded other file with resolved | ⟨place, recorded⟩
      · refine Or.inl (base_elsewhere others same ?_ resolved)
        intro member
        have above := underDirectories_of_base sound.placed file resolved
        have directory := above path member (standing.formed sound).1
        rw [shows, Option.some.injEq] at directory
        exact standing.markAt_insert revises (OverlayKind.isDir_iff.mpr directory)
      · right
        by_cases moved : place = path
        · subst moved
          obtain ⟨row, found, told⟩ := recorded.cases sound.keyed
          cases standing with
          | own held present =>
              rw [held] at found
              cases found
              rcases told with ⟨rfl, -⟩ | comes | ⟨absent, -⟩
              · exact absurd rfl same
              · obtain ⟨-, isLeaf, origin⟩ := comesFrom_iff.mp comes
                refine ⟨place, .origin here (comesFrom_iff.mpr ⟨revises.present, ?_, ?_⟩)⟩
                · rw [revises.isDir, isLeaf]
                · rw [revises.renamedFrom, origin]
              · rw [present] at absent
                cases absent
          | base resolved =>
              obtain ⟨-, missing, -⟩ := resolve_eq_base.mp resolved
              rw [found] at missing
              cases missing
        · exact ⟨place, recorded.elsewhere sound.keyed others
            (standing.above sound.placed sound.keyed) moved⟩
  · intro other row found present directory
    by_cases same : other = path
    · subst same
      rw [here] at found
      cases found
      cases file : isBaseFile base other with
      | false => rfl
      | true =>
          rw [leaf file] at directory
          cases directory
    · rw [others other same] at found
      exact accounted.noDirectory other row found present directory
  · intro other row origin found present directory from_
    by_cases same : other = path
    · subst same
      rw [here] at found
      cases found
      rw [revises.renamedFrom] at from_
      rw [revises.isDir] at directory
      cases standing with
      | own held there => exact accounted.noOrigin other old origin held there directory from_
      | base _ _ _ _ _ _ _ none_ =>
          rw [none_] at from_
          cases from_
    · rw [others other same] at found
      exact accounted.noOrigin other row origin found present directory from_

/-- A safe creation keeps everything accounted for. -/
theorem Accounted.create {core : Core} (accounted : Accounted base core.rows)
    (sound : Sound digests base core) {entry : OverlayEntry}
    (created : Created digests base core.rows path entry)
    (safe : SafeToReport base core (.create path entry.kind))
    : Accounted base (core.rows.insert path entry) := by
  obtain ⟨noDirectory, notLast⟩ := safe
  have others : ∀ other : BytePath, other ≠ path
      → (core.rows.insert path entry)[other]? = core.rows[other]? :=
    fun _ apart => getElem?_insert_other core.rows entry apart
  have here := getElem?_insert_self core.rows path entry
  have leaf : isBaseFile base path = true → entry.kind.isDir = false := by
    intro file
    cases directory : entry.kind.isDir with
    | false => rfl
    | true =>
        rw [noDirectory (OverlayKind.isDir_iff.mp directory)] at file
        cases file
  refine ⟨?_, ?_, ?_⟩
  · intro other file
    by_cases same : other = path
    · subst same
      exact Or.inr ⟨other, .own here (fun _ => leaf file)⟩
    · rcases accounted.recorded other file with resolved | ⟨place, recorded⟩
      · refine Or.inl (base_elsewhere others same ?_ resolved)
        intro member
        have above := underDirectories_of_base sound.placed file resolved
        have directory := above path member created.formed.1
        rw [created.vacant] at directory
        cases directory
      · right
        have elsewhere : ∃ other_, other_ ≠ path ∧ Recorded core.rows other other_ := by
          by_cases moved : place = path
          · subst moved
            obtain ⟨other_, -, apart, told⟩ :=
              notLast other (mem_baseFiles.mpr file) same recorded
            exact ⟨other_, apart, told⟩
          · exact ⟨place, moved, recorded⟩
        obtain ⟨other_, apart, told⟩ := elsewhere
        exact ⟨other_, told.elsewhere sound.keyed others created.above apart⟩
  · intro other row found present directory
    by_cases same : other = path
    · subst same
      rw [here] at found
      cases found
      exact noDirectory (OverlayKind.isDir_iff.mp directory)
    · rw [others other same] at found
      exact accounted.noDirectory other row found present directory
  · intro other row origin found present directory from_
    by_cases same : other = path
    · subst same
      rw [here] at found
      cases found
      rw [created.fresh] at from_
      cases from_
    · rw [others other same] at found
      exact accounted.noOrigin other row origin found present directory from_

theorem LeftBehind.whiteout {row : Option OverlayEntry} (left : LeftBehind digests base path row)
    {node : Node} (listed : base.node path = some node)
    : ∃ entry, row = some entry ∧ entry.present = false := by
  unfold LeftBehind at left
  cases known : base.facts digests path with
  | none =>
      rw [BaseTree.facts_eq_none.mp known] at listed
      cases listed
  | some facts =>
      rw [known] at left
      obtain ⟨ino, now, rfl⟩ := left
      exact ⟨_, rfl, rfl⟩

/-- A safe departure keeps everything accounted for. -/
theorem Accounted.depart {core : Core} (accounted : Accounted base core.rows)
    (sound : Sound digests base core) {path : BytePath} {rows' : Rows}
    (shows : (kindAt base core.rows path).isSome = true) (formed : WellFormed path)
    (bare : ∀ below, path ∈ ancestorsOf below → kindAt base core.rows below = none)
    (left : LeftBehind digests base path rows'[path]?)
    (others : ∀ other : BytePath, other ≠ path → rows'[other]? = core.rows[other]?)
    (safe : SafeToReport base core (.depart path))
    : Accounted base rows' := by
  obtain ⟨kind, shown⟩ := Option.isSome_iff_exists.mp shows
  have above : UnderDirectories base core.rows path :=
    fun dir member nonroot => sound.placed.kindAt_ancestor shown member nonroot
  refine ⟨?_, ?_, ?_⟩
  · intro other file
    obtain ⟨node, listed, -⟩ := isBaseFile_iff.mp file
    by_cases same : other = path
    · subst same
      obtain ⟨entry, found, absent⟩ := left.whiteout listed
      refine Or.inr ⟨other, .own found (fun present => ?_)⟩
      rw [absent] at present
      cases present
    · rcases accounted.recorded other file with resolved | ⟨place, recorded⟩
      · refine Or.inl (base_elsewhere others same ?_ resolved)
        intro member
        have nothing := bare other member
        simp [kindAt, lookup, resolved, listed] at nothing
      · right
        rcases safe other (mem_baseFiles.mpr file) with ⟨member, empty⟩ | notLast
        · -- The directory's own whiteout covers the file.
          obtain ⟨entry, found, absent⟩ :=
            left.whiteout (BaseTree.node_ancestor listed member formed.1)
          refine ⟨path, .cover formed.1 found absent member ?_⟩
          intro rel
          have apart : path ++ slash :: rel ≠ path := by simp
          rw [others _ apart]
          cases there : core.rows[path ++ slash :: rel]? with
          | none => rfl
          | some row =>
              have listed := (mem_rowsUnder formed.1).mpr ⟨rel, there⟩
              rw [empty] at listed
              cases listed
        · have elsewhere : ∃ other_, other_ ≠ path ∧ Recorded core.rows other other_ := by
            by_cases moved : place = path
            · subst moved
              obtain ⟨other_, -, apart, told⟩ := notLast same recorded
              exact ⟨other_, apart, told⟩
            · exact ⟨place, moved, recorded⟩
          obtain ⟨other_, apart, told⟩ := elsewhere
          exact ⟨other_, told.elsewhere sound.keyed others above apart⟩
  · intro other row found present directory
    by_cases same : other = path
    · subst same
      rw [left.covers.2 row found] at present
      cases present
    · rw [others other same] at found
      exact accounted.noDirectory other row found present directory
  · intro other row origin found present directory from_
    by_cases same : other = path
    · subst same
      rw [left.covers.2 row found] at present
      cases present
    · rw [others other same] at found
      exact accounted.noOrigin other row origin found present directory from_

end OneRow

-- A rename

section Rename

variable {core : Core} {rows' : Rows} {source target : BytePath}

theorem Relocates.above_source (sound : Sound digests base core)
    (relocates : Relocates digests base core.rows source target rows')
    : UnderDirectories base core.rows source := by
  obtain ⟨old, -, standing, -⟩ := relocates.moved
  exact standing.above sound.placed sound.keyed

/-- A row that was there below the source arrives below the destination. -/
theorem Relocates.arrives_row (sound : Sound digests base core)
    (relocates : Relocates digests base core.rows source target rows') {rel : BytePath}
    {old : OverlayEntry} (found : core.rows[source ++ slash :: rel]? = some old)
    (present : old.present = true)
    : ∃ now, rows'[target ++ slash :: rel]?
        = some (Overlay.moverEntry source target now old) := by
  have arrives := relocates.arrived rel
  generalize held : rows'[target ++ slash :: rel]? = arrived at arrives
  cases arrives with
  | @row _ now before there =>
      rw [found] at before
      cases before
      exact ⟨now, rfl⟩
  | base resolved =>
      obtain ⟨-, missing, -⟩ := resolve_eq_base.mp resolved
      rw [found] at missing
      cases missing
  | nothing vacant =>
      rw [sound.placed.not_present sound.keyed vacant found] at present
      cases present

theorem Relocates.arrives_base
    (relocates : Relocates digests base core.rows source target rows') {rel : BytePath}
    (file : isBaseFile base (source ++ slash :: rel) = true)
    (shown : resolve core.rows (source ++ slash :: rel) = .base)
    : Recorded rows' (source ++ slash :: rel) (target ++ slash :: rel) := by
  obtain ⟨seen, listed, isLeaf⟩ := isBaseFile_iff.mp file
  have arrives := relocates.arrived rel
  generalize held : rows'[target ++ slash :: rel]? = arrived at arrives
  cases arrives with
  | row before =>
      obtain ⟨-, missing, -⟩ := resolve_eq_base.mp shown
      rw [before] at missing
      cases missing
  | @base node kind ino now resolved got kinds =>
      simp only [BaseTree.node, got, Option.bind_some, Node.ofBase, kinds, Option.map_some,
        Option.some.injEq] at listed
      rw [← listed] at isLeaf
      exact .origin held (comesFrom_iff.mpr ⟨rfl, isLeaf, rfl⟩)
  | nothing vacant => simp [kindAt, lookup, shown, listed] at vacant

/-- A file that came from a path still does after a rename that does not replace it. -/
theorem Relocates.comesFrom (sound : Sound digests base core)
    (relocates : Relocates digests base core.rows source target rows') {path place : BytePath}
    (apart : place ≠ target) {entry : OverlayEntry} (found : core.rows[place]? = some entry)
    (comes : entry.comesFrom path = true)
    : ∃ place', Recorded rows' path place' := by
  obtain ⟨present, leaf, origin⟩ := comesFrom_iff.mp comes
  rcases relocates.regions place with rfl | ⟨rel, rfl⟩ | rfl | ⟨rel, rfl⟩ | ⟨away, beyond⟩
  · exact absurd rfl apart
  · have vacant := relocates.bare _ (mem_ancestorsOf_append target rel)
    rw [sound.placed.not_present sound.keyed vacant found] at present
    cases present
  · obtain ⟨old, moved, standing, moves, there⟩ := relocates.moved
    have same : old = entry := by
      cases standing with
      | own held _ => exact Option.some.inj (held.symm.trans found)
      | base resolved =>
          obtain ⟨-, missing, -⟩ := resolve_eq_base.mp resolved
          rw [found] at missing
          cases missing
    subst same
    refine ⟨target, .origin there (comesFrom_iff.mpr ⟨moves.present, ?_, ?_⟩)⟩
    · rw [moves.kind, leaf]
    · rw [moves.renamedFrom, origin]
      rfl
  · obtain ⟨now, there⟩ := relocates.arrives_row sound found present
    exact ⟨_, .origin there (comesFrom_iff.mpr ⟨present, leaf, origin⟩)⟩
  · refine ⟨place, .origin ?_ comes⟩
    rw [relocates.getElem?_outside away beyond, found]

theorem Relocates.comesFrom_other (sound : Sound digests base core)
    (relocates : Relocates digests base core.rows source target rows') {path : BytePath}
    (other
      : ∃ other ∈ core.rows.keys, other ≠ target ∧ ComesFrom core.rows path other)
    : ∃ place, Recorded rows' path place := by
  obtain ⟨place, -, apart, comes⟩ := other
  obtain ⟨entry, found, told⟩ := (Option.any_eq_true _ _).mp comes
  exact relocates.comesFrom sound apart found told

/-- The whiteout of a directory above a path that the rename does not touch still covers it:
neither end is below it.
-/
theorem Relocates.cover (sound : Sound digests base core)
    (relocates : Relocates digests base core.rows source target rows') {path place : BytePath}
    (beyond : Outside target place) (apart : place ≠ source)
    {entry : OverlayEntry} (found : core.rows[place]? = some entry)
    (absent : entry.present = false) (above : place ∈ ancestorsOf path)
    (bare : ∀ rel : BytePath, core.rows[place ++ slash :: rel]? = none)
    : Recorded rows' path place := by
  have nonroot := (sound.keyed place entry found).2.1
  have notAbove {end_ : BytePath} (under : UnderDirectories base core.rows end_)
      : place ∉ ancestorsOf end_ := by
    intro member
    rw [under.present member sound.keyed found] at absent
    cases absent
  have notTarget := notAbove relocates.above
  have notSource := notAbove (relocates.above_source sound)
  have here : rows'[place]? = some entry := by
    rcases relocates.regions place with rfl | ⟨rel, rfl⟩ | rfl | ⟨rel, rfl⟩ | ⟨away, -⟩
    · exact absurd rfl beyond.1
    · exact absurd (mem_ancestorsOf_append target rel) beyond.2
    · exact absurd rfl apart
    · rw [relocates.emptied rel, found, Option.filter_some, if_pos (by simp [absent])]
    · rw [relocates.getElem?_outside away beyond, found]
  refine .cover nonroot here absent above ?_
  intro rel
  rcases relocates.regions (place ++ slash :: rel) with
    same | ⟨other, same⟩ | same | ⟨other, same⟩ | ⟨away, outside⟩
  · exact absurd (same ▸ mem_ancestorsOf_append place rel) notTarget
  · have member : place ∈ ancestorsOf (target ++ slash :: other) :=
      same ▸ mem_ancestorsOf_append place rel
    rcases (mem_ancestorsOf_append_iff relocates.targetFormed.1).mp member with
      over_ | equal | ⟨inner, -, -, equal⟩
    · exact absurd over_ notTarget
    · exact absurd equal beyond.1
    · exact absurd (equal ▸ mem_ancestorsOf_append target inner) beyond.2
  · exact absurd (same ▸ mem_ancestorsOf_append place rel) notSource
  · rw [same, relocates.emptied other, ← same, bare rel]
    rfl
  · rw [relocates.getElem?_outside away outside, bare rel]

theorem Relocates.within_self (relocates : Relocates digests base core.rows source target rows')
    : isWithin target target = true :=
  (isWithin_iff_ancestor relocates.targetFormed.1).mpr (Or.inl rfl)

theorem Relocates.within_below (relocates : Relocates digests base core.rows source target rows')
    (rel : BytePath)
    : isWithin (target ++ slash :: rel) target = true :=
  (isWithin_iff_ancestor relocates.targetFormed.1).mpr (Or.inr (mem_ancestorsOf_append _ _))

section Safe

variable (sound : Sound digests base core)
  (relocates : Relocates digests base core.rows source target rows')
  (safe : SafeToReport base core (.relocate source target))

include sound relocates safe

/-- What lands on a base file is no directory. -/
theorem Relocates.leaf_landed {path : BytePath} (file : isBaseFile base path = true)
    (within : isWithin path target = true) {entry : OverlayEntry}
    (found : rows'[path]? = some entry)
    : entry.kind.isDir = false := by
  have targetRoot := relocates.targetFormed.1
  have notDirectory := (safe path (mem_baseFiles.mpr file)).1 within
  cases directory : entry.kind.isDir with
  | false => rfl
  | true =>
      exfalso
      refine notDirectory ?_
      rw [isWithin_iff_ancestor targetRoot] at within
      rcases within with rfl | member
      · obtain ⟨old, moved, standing, moves, there⟩ := relocates.moved
        rw [found] at there
        cases there
        rw [List.drop_length, List.append_nil, standing.shows sound.placed sound.keyed,
          ← moves.kind, OverlayKind.isDir_iff.mp directory]
      · obtain ⟨rel, rfl⟩ := (mem_ancestorsOf_iff_append targetRoot).mp member
        rw [List.drop_left,
          relocates.shows_of_arrived sound.placed sound.keyed found,
          OverlayKind.isDir_iff.mp directory]

omit relocates in
/-- Outside the destination a record at another place than the destination can be assumed. -/
theorem Accounted.recorded_elsewhere (accounted : Accounted base core.rows) {path : BytePath}
    (file : isBaseFile base path = true) (apart : path ≠ target)
    (notBelow : target ∉ ancestorsOf path) (hidden : resolve core.rows path ≠ .base)
    : ∃ place entry,
        place ≠ target
        ∧ core.rows[place]? = some entry
        ∧ ((place = path ∧ (entry.present = true → entry.kind.isDir = false))
          ∨ entry.comesFrom path = true
          ∨ (entry.present = false
            ∧ place ∈ ancestorsOf path
            ∧ ∀ rel : BytePath, core.rows[place ++ slash :: rel]? = none)) := by
  have notLast := (safe path (mem_baseFiles.mpr file)).2.1
  obtain ⟨place, elsewhere, recorded⟩
      : ∃ place, place ≠ target ∧ Recorded core.rows path place := by
    rcases accounted.recorded path file with resolved | ⟨place, recorded⟩
    · exact absurd resolved hidden
    · by_cases replaced : place = target
      · subst replaced
        obtain ⟨other, -, away, told⟩ := (notLast.resolve_left notBelow) apart recorded
        exact ⟨other, away, told⟩
      · exact ⟨place, replaced, recorded⟩
  obtain ⟨entry, found, told⟩ := recorded.cases sound.keyed
  exact ⟨place, entry, elsewhere, found, told⟩

/-- A base file below the source stays on record: the rename takes along the file that shows, or
the row that came from it, and leaves the whiteouts, or the one of the source.
-/
theorem Accounted.recorded_below (accounted : Accounted base core.rows) {rel : BytePath}
    (file : isBaseFile base (source ++ slash :: rel) = true)
    : ∃ place, Recorded rows' (source ++ slash :: rel) place := by
  have sourceRoot := relocates.sourceFormed.1
  have taken := (safe _ (mem_baseFiles.mpr file)).2.2.2
  obtain ⟨node, listed, -⟩ := isBaseFile_iff.mp file
  by_cases shown : resolve core.rows (source ++ slash :: rel) = .base
  · exact ⟨_, relocates.arrives_base file shown⟩
  · have outside := Relocates.below_outside rel relocates.source_outside relocates.outside
    obtain ⟨place, entry, apart, found, told⟩ :=
      accounted.recorded_elsewhere sound safe file outside.1 outside.2 shown
    rcases told with ⟨rfl, leaf⟩ | comes | ⟨absent, above, bare⟩
    · cases present : entry.present with
      | false =>
          refine ⟨_, @Recorded.own rows' _ entry ?_ (fun there => ?_)⟩
          · rw [relocates.emptied rel, found, Option.filter_some, if_pos (by simp [present])]
          · rw [present] at there
            cases there
      | true =>
          rcases taken (mem_ancestorsOf_append _ _) (by simp [found, present]) with
            allPresent | other
          · -- Everything below the source leaves, so the source's whiteout tells.
            obtain ⟨left, there, gone⟩ := relocates.left.whiteout
              (BaseTree.node_ancestor listed (mem_ancestorsOf_append _ _) sourceRoot)
            refine ⟨source, .cover sourceRoot there gone (mem_ancestorsOf_append _ _) ?_⟩
            intro other
            rw [relocates.emptied other]
            cases held : core.rows[source ++ slash :: other]? with
            | none => rfl
            | some row =>
                have stays := List.all_eq_true.mp allPresent row
                  ((mem_rowsUnder sourceRoot).mpr ⟨other, held⟩)
                rw [Option.filter_some, if_neg (by simp [stays])]
          · exact relocates.comesFrom_other sound other
    · exact relocates.comesFrom sound apart found comes
    · -- The covering whiteout is below the source: it is not above it, nor at it.
      have beyond : Outside target place := by
        refine ⟨apart, fun member => ?_⟩
        exact outside.2 (ancestorsOf_trans member above)
      have notSource : place ≠ source := by
        intro same
        obtain ⟨old, -, standing, -⟩ := relocates.moved
        cases standing with
        | own held present =>
            rw [← same, found] at held
            cases held
            rw [absent] at present
            cases present
        | base resolved =>
            obtain ⟨-, missing, -⟩ := resolve_eq_base.mp resolved
            rw [← same, found] at missing
            cases missing
      exact ⟨place, relocates.cover sound beyond notSource found absent above bare⟩

/-- Every base file shows or is on record after a safe rename. Witness: by where the file lies. At
and below the destination it is told by what lands on it or by a file that came from it; the source
leaves its whiteout; away from both its record stays.
-/
theorem Accounted.recorded_relocate (accounted : Accounted base core.rows) (path : BytePath)
    (file : isBaseFile base path = true)
    : resolve rows' path = .base ∨ ∃ place, Recorded rows' path place := by
  have dropped := (safe path (mem_baseFiles.mpr file)).2.2.1
  obtain ⟨node, listed, -⟩ := isBaseFile_iff.mp file
  have lands {entry : OverlayEntry} (within : isWithin path target = true)
      (found : rows'[path]? = some entry) : entry.kind.isDir = false :=
    relocates.leaf_landed sound safe file within found
  rcases relocates.regions path with rfl | ⟨rel, rfl⟩ | rfl | ⟨rel, rfl⟩ | ⟨away, beyond⟩
  · obtain ⟨old, moved, -, -, there⟩ := relocates.moved
    exact Or.inr ⟨path, .own there (fun _ => lands (relocates.within_self) there)⟩
  · right
    cases arrived : rows'[target ++ slash :: rel]? with
    | some entry => exact ⟨_, .own arrived (fun _ => lands (relocates.within_below rel) arrived)⟩
    | none =>
        have vacant : kindAt base core.rows (source ++ slash :: rel) = none := by
          have arrives := relocates.arrived rel
          rw [arrived] at arrives
          cases arrives with
          | nothing vacant => exact vacant
        refine relocates.comesFrom_other sound (dropped (mem_ancestorsOf_append _ _) ?_)
        rw [List.drop_left]
        exact vacant
  · obtain ⟨entry, found, absent⟩ := relocates.left.whiteout listed
    refine Or.inr ⟨path, .own found (fun present => ?_)⟩
    rw [absent] at present
    cases present
  · exact Or.inr (accounted.recorded_below sound relocates safe file)
  · by_cases shown : resolve core.rows path = .base
    · left
      have same := resolve_of_same (fun dir near => by
        rcases near with rfl | member
        · exact relocates.getElem?_outside away beyond
        · exact relocates.getElem?_outside (away.ancestor member) (beyond.ancestor member))
      rw [same.2, shown]
    · right
      obtain ⟨place, entry, apart, found, told⟩ :=
        accounted.recorded_elsewhere sound safe file beyond.1 beyond.2 shown
      rcases told with ⟨rfl, leaf⟩ | comes | ⟨absent, above, bare⟩
      · refine ⟨_, @Recorded.own rows' _ entry ?_ leaf⟩
        rw [relocates.getElem?_outside away beyond, found]
      · exact relocates.comesFrom sound apart found comes
      · exact ⟨place, relocates.cover sound (beyond.ancestor above)
          (away.ancestor above).1 found absent above bare⟩

theorem Accounted.noDirectory_relocate (accounted : Accounted base core.rows) (path : BytePath)
    (entry : OverlayEntry) (found : rows'[path]? = some entry) (present : entry.present = true)
    (directory : entry.kind.isDir = true)
    : isBaseFile base path = false := by
  cases file : isBaseFile base path with
  | false => rfl
  | true =>
      have lands (within : isWithin path target = true) : entry.kind.isDir = false :=
        relocates.leaf_landed sound safe file within found
      rcases relocates.present_cases found present with rfl | ⟨rel, rfl⟩ | ⟨-, -, before⟩
      · rw [lands relocates.within_self] at directory
        cases directory
      · rw [lands (relocates.within_below rel)] at directory
        cases directory
      · rw [accounted.noDirectory path entry before present directory] at file
        cases file

omit sound safe in
/-- No directory came from a base file after a rename. -/
theorem Accounted.noOrigin_relocate (accounted : Accounted base core.rows) (path : BytePath)
    (entry : OverlayEntry) (origin : BytePath) (found : rows'[path]? = some entry)
    (present : entry.present = true) (directory : entry.kind.isDir = true)
    (from_ : entry.renamedFrom = some origin)
    : isBaseFile base origin = false := by
  rcases relocates.present_cases found present with rfl | ⟨rel, rfl⟩ | ⟨-, -, before⟩
  · obtain ⟨old, moved, standing, moves, there⟩ := relocates.moved
    rw [found] at there
    cases there
    rw [moves.kind] at directory
    rw [moves.renamedFrom, Option.some.injEq] at from_
    cases standing with
    | own held there =>
        cases earlier : old.renamedFrom with
        | some first =>
            rw [earlier, Option.getD_some] at from_
            exact from_ ▸ accounted.noOrigin source old first held there directory earlier
        | none =>
            rw [earlier, Option.getD_none] at from_
            exact from_ ▸ accounted.noDirectory source old held there directory
    | @base node resolved got _ kinds _ _ _ none_ =>
        rw [none_, Option.getD_none] at from_
        rw [← from_]
        simp [isBaseFile, BaseTree.node, got, Node.ofBase, kinds, Node.isLeaf, directory]
  · have arrives := relocates.arrived rel
    rw [found] at arrives
    cases arrives with
    | @row old now before there =>
        exact accounted.noOrigin _ old origin before there directory from_
    | @base node kind ino now resolved got kinds =>
        simp only [Overlay.descendantEntry, Option.some.injEq] at from_ directory
        rw [← from_]
        simp [isBaseFile, BaseTree.node, got, Node.ofBase, kinds, Node.isLeaf, directory]
  · exact accounted.noOrigin path entry origin before present directory from_

theorem Accounted.relocate (accounted : Accounted base core.rows) : Accounted base rows' where
  recorded := accounted.recorded_relocate sound relocates safe
  noDirectory := accounted.noDirectory_relocate sound relocates safe
  noOrigin := accounted.noOrigin_relocate relocates

end Safe

end Rename

theorem Step.accounted {effect : Effect} {core core' : Core}
    (step : Step digests base effect core core') (sound : Sound digests base core)
    (accounted : Accounted base core.rows) (safe : SafeToReport base core effect)
    : Accounted base core'.rows := by
  cases step with
  | idle => exact accounted
  | create created => exact accounted.create sound created safe
  | createFile created => exact accounted.create sound created safe
  | touch formed standing revises => exact accounted.revise sound standing revises
  | copyUp formed standing revises => exact accounted.revise sound standing revises
  | rewrite found present revises => exact accounted.revise sound (.own found present) revises
  | refer found present revises => exact accounted.revise sound (.own found present) revises
  | depart shows formed bare left others =>
      exact accounted.depart sound shows formed bare left others safe
  | relocate relocates => exact accounted.relocate sound relocates safe

-- The report of accounted rows

/-- Only a row of the base's own kind and object id makes no difference. -/
theorem differenceKind_eq_none {facts : BaseFacts} {kind : OverlayKind} {oid : ObjectId}
    (holdable : (OverlayKind.fromEntryKind facts.kind).isSome = true)
    (same : differenceKind facts kind oid = none)
    : facts.kind = kind.toEntryKind ∧ facts.oid = oid := by
  unfold differenceKind at same
  split at same
  · cases same
  · rename_i alike
    split at same
    · cases same
    · rename_i oids
      split at same
      · cases same
      · rename_i modes
        refine ⟨?_, by simpa using oids⟩
        generalize facts.kind = held at holdable modes
        rw [ne_eq, not_not] at modes
        cases held <;> cases kind <;>
          first
            | rfl
            | exact absurd modes (by decide)
            | cases holdable

section State

variable {overlay : Overlay} {core : Core} {path : BytePath} {entry : OverlayEntry}

/-- A file's row that reports nothing shows what the base has. -/
theorem node_of_unreported (distinct : base.Distinct digests)
    (sound : Sound digests base core) (clear : NoCollision digests base core)
    (found : core.rows[path]? = some entry)
    (silent : presentChange core.rows entry (core.oid digests entry) = none)
    : base.node path = some (core.node digests base entry) := by
  unfold presentChange at silent
  simp only at silent
  split at silent
  · cases silent
  · cases known : entry.base with
    | none =>
        rw [known] at silent
        cases silent
    | some facts =>
        simp only [known, Option.map_eq_none_iff] at silent
        have listed : base.facts digests path = some facts := by
          rcases sound.facts path entry found with unknown | same
          · rw [known] at unknown
            cases unknown
          · rw [← same, known]
        obtain ⟨node, got, rfl⟩ := Option.map_eq_some_iff.mp listed
        have holdable : (OverlayKind.fromEntryKind node.kind).isSome = true := by
          simp only [BaseTree.get] at got
          split at got
          · cases got
          · exact (base.placed path node got).2.1
        obtain ⟨kind, oid⟩ := differenceKind_eq_none holdable silent
        have kinds := OverlayKind.fromEntryKind_eq_some.mpr kind
        have bytes : node.content = (core.node digests base entry).content := by
          have unmistaken {input : Bytes} (hashes : core.hashInput entry = some input)
              (same
                : digests.sha1 input
                  = digests.sha1 (blobFrame node.content.length ++ node.content))
              : input = blobFrame node.content.length ++ node.content :=
            clear (path, entry) (ExtTreeMap.mem_toList_iff_getElem?_eq_some.mpr found) input
              (by rw [hashes]; simp) node (by rw [got]; simp) same
          simp only [Core.node]
          simp only [BaseTree.factsOfNode, BaseTree.oidOfNode, Core.oid] at oid
          cases content : entry.content with
          | base referred =>
              rw [content] at oid
              have same : BaseTree.oidOfNode digests node = referred := oid
              simp [← same, distinct.content got]
          | none =>
              simp only [content, ObjectId.mk.injEq, true_and] at oid
              exact (blobFrame_append_inj
                (unmistaken (by simp only [Core.hashInput, content]) oid.symm)).symm
          | «local» id =>
              simp only [content, ObjectId.mk.injEq, true_and] at oid
              exact (blobFrame_append_inj
                (unmistaken (by simp only [Core.hashInput, content]) oid.symm)).symm
        have named : OverlayKind.fromEntryKind node.kind = some entry.kind := kinds
        rw [BaseTree.node, got, Option.bind_some, Node.ofBase, named, Option.map_some, bytes]
        rfl

theorem reported_renamed {origin : BytePath} (comes : entry.comesFrom origin = true)
    (gone : resolve core.rows origin = .absent)
    : ∃ change, core.reported digests entry = some change
        ∧ change.kind = .renamed ∧ change.origin = some origin := by
  obtain ⟨present, leaf, from_⟩ := comesFrom_iff.mp comes
  refine ⟨_, by
    simp only [Core.reported, present, leaf, presentChange, from_, Option.filter_some, gone,
      Bool.not_true, Bool.false_eq_true, ↓reduceIte, decide_true]
    rfl, rfl, rfl⟩

/-- The base file a whiteout hides is reported as deleted, unless it was renamed away. -/
theorem reported_deleted (sound : Sound digests base core) (file : isBaseFile base path = true)
    (found : core.rows[path]? = some entry) (absent : entry.present = false)
    : (∃ change, core.reported digests entry = some change)
      ∨ (resolve core.rows path = .absent
          ∧ ∃ (place : BytePath) (row : OverlayEntry),
              core.rows[place]? = some row ∧ row.present = true
              ∧ row.renamedFrom = some path) := by
  obtain ⟨node, listed, isLeaf⟩ := isBaseFile_iff.mp file
  obtain ⟨raw, got, held⟩ := Option.bind_eq_some_iff.mp listed
  obtain ⟨kind, kinds, rfl⟩ := Option.map_eq_some_iff.mp held
  have known : entry.base = some (BaseTree.factsOfNode digests raw) := by
    rw [(sound.hidden path entry found absent).1, BaseTree.facts, got]
    rfl
  have own := (sound.keyed path entry found).1
  have plain : raw.kind.isDirLike = false := by
    rw [OverlayKind.fromEntryKind_eq_some.mp kinds, OverlayKind.isDirLike_toEntryKind]
    exact isLeaf
  by_cases away : (renamedAway core.rows).contains entry.path = true
  · right
    simp only [renamedAway, List.contains_eq_mem, List.mem_filter, List.mem_filterMap,
      decide_eq_true_eq, own] at away
    obtain ⟨⟨row, member, from_⟩, gone⟩ := away
    refine ⟨gone, row.1, row.2, ExtTreeMap.mem_toList_iff_getElem?_eq_some.mp member, ?_⟩
    split at from_
    · rename_i present
      exact ⟨present, from_⟩
    · cases from_
  · left
    refine ⟨_, by
      simp only [Core.reported, absent, absentChange, known, BaseTree.factsOfNode, plain, away,
        Bool.not_false, ↓reduceIte, Bool.false_eq_true]
      rfl⟩

/-- Status over accounted rows is complete. -/
theorem Accounted.complete (accounted : Accounted base overlay.entries)
    (distinct : base.Distinct digests) (sound : Sound digests base overlay.core)
    (indexed : overlay.Indexed) (clear : NoCollision digests base overlay.core)
    {status : Status} (reports : Reports digests overlay.core status)
    : Complete digests base overlay status := by
  intro path differs
  rw [getElem?_mergedView sound indexed, view_eq_core] at differs
  -- A row that reports something at the path settles it.
  have reported {row : OverlayEntry} {change : StatusChange}
      (found : overlay.core.rows[path]? = some row)
      (tells : overlay.core.reported digests row = some change)
      : ∃ change ∈ status.changes, change.path = path := by
    refine ⟨change, (reports.changes change).mpr ⟨path, row, found, tells⟩, ?_⟩
    rw [Core.reported_path tells, (sound.keyed path row found).1]
  -- So does a file's row that is there.
  have fileRow {row : OverlayEntry} (found : overlay.core.rows[path]? = some row)
      (present : row.present = true) (leaf : row.kind.isDir = false)
      : ∃ change ∈ status.changes, change.path = path := by
    cases tells : overlay.core.reported digests row with
    | some change => exact reported found tells
    | none =>
        exfalso
        simp only [Core.reported, present, leaf, Bool.not_true, Bool.false_eq_true,
          ↓reduceIte] at tells
        have listed := node_of_unreported distinct sound clear found tells
        refine differs ?_
        rw [listed, Core.view, lookup, sound.placed.resolve sound.keyed found present]
  have renamed {place : BytePath} {row : OverlayEntry}
      (found : overlay.core.rows[place]? = some row) (comes : row.comesFrom path = true)
      (gone : resolve overlay.core.rows path = .absent)
      : ∃ change ∈ status.changes, change.kind = .renamed ∧ change.origin = some path := by
    obtain ⟨change, tells, kind, origin⟩ :=
      @reported_renamed digests overlay.core row path comes gone
    exact ⟨change, (reports.changes change).mpr ⟨place, row, found, tells⟩, kind, origin⟩
  cases file : isBaseFile base path with
  | true =>
      rcases accounted.recorded path file with resolved | ⟨place, recorded⟩
      · refine absurd ?_ differs
        simp [Core.view, lookup, show resolve overlay.core.rows path = .base from resolved]
      · obtain ⟨row, found, told⟩ := recorded.cases sound.keyed
        rcases told with ⟨rfl, leaf⟩ | comes | ⟨absent, above, bare⟩
        · cases present : row.present with
          | true => exact Or.inl (fileRow found present (leaf present))
          | false =>
              rcases reported_deleted sound file found present with
                ⟨change, tells⟩ | ⟨gone, other, from_, there, present', origin⟩
              · exact Or.inl (reported found tells)
              · refine Or.inr (Or.inl (renamed there (comesFrom_iff.mpr
                  ⟨present', ?_, origin⟩) gone))
                cases directory : from_.kind.isDir with
                | false => rfl
                | true =>
                    rw [accounted.noOrigin other from_ place there present' directory origin]
                      at file
                    cases file
        · cases resolved : resolve overlay.core.rows path with
          | absent => exact Or.inr (Or.inl (renamed found comes resolved))
          | overlay own =>
              obtain ⟨-, here, present⟩ := resolve_eq_overlay.mp resolved
              refine Or.inl (fileRow here present ?_)
              cases directory : own.kind.isDir with
              | false => rfl
              | true =>
                  rw [accounted.noDirectory path own here present directory] at file
                  cases file
          | base =>
              refine absurd ?_ differs
              simp [Core.view, lookup, resolved]
        · refine Or.inr (Or.inr ⟨place, (reports.directories place).mpr
            ⟨row, found, absent, ?_, bare⟩, above⟩)
          obtain ⟨node, listed, -⟩ := isBaseFile_iff.mp file
          have nonroot := (sound.keyed place row found).2.1
          have directory := BaseTree.node_ancestor listed above nonroot
          obtain ⟨raw, got, held⟩ := Option.bind_eq_some_iff.mp directory
          obtain ⟨kind, kinds, same⟩ := Option.map_eq_some_iff.mp held
          rw [(sound.hidden place row found absent).1]
          simp only [BaseTree.facts, got, Option.map_some, Option.any_some,
            BaseTree.factsOfNode]
          rw [OverlayKind.fromEntryKind_eq_some.mp kinds, OverlayKind.isDirLike_toEntryKind,
            (Node.mk.inj same).1]
          rfl
  | false =>
      left
      have noFile : (base.node path).filter Node.isLeaf = none := by
        rw [isBaseFile] at file
        cases listed : base.node path with
        | none => rfl
        | some node =>
            rw [listed, Option.any_some] at file
            rw [Option.filter_some, if_neg (by simp [file])]
      cases resolved : resolve overlay.core.rows path with
      | absent => simp [Core.view, lookup, resolved, noFile] at differs
      | base => simp [Core.view, lookup, resolved, noFile] at differs
      | overlay row =>
          obtain ⟨-, found, present⟩ := resolve_eq_overlay.mp resolved
          refine fileRow found present ?_
          simp only [Core.view, lookup, resolved, noFile, ne_eq, Option.filter_eq_none_iff]
            at differs
          simpa [Node.isLeaf, Core.node] using differs

end State

-- Runs

theorem Accounted.opened (base : BaseTree) (config : OverlayConfig) (snapshotTime : Timestamp)
    : Accounted base (Overlay.opened config snapshotTime).entries := by
  have never {path : BytePath} {entry : OverlayEntry}
      : (Overlay.opened config snapshotTime).entries[path]? ≠ some entry := by
    simp [Overlay.opened]
  refine ⟨fun path file => Or.inl (resolve_eq_base.mpr ⟨?_, ?_, ?_⟩), ?_, ?_⟩
  · intro blocked
    obtain ⟨dir, -, entry, found, -⟩ := blocked
    exact never found
  · simp [Overlay.opened]
  · intro masked
    obtain ⟨dir, -, entry, found, -⟩ := masked
    exact never found
  · exact fun path entry found => absurd found never
  · exact fun path entry origin found => absurd found never

/-- Status is complete in every state of a run whose steps put no directory on a base file and
take no base file's last record.
-/
theorem run_status_complete (digests : Digests) (base : BaseTree)
    (distinct : base.Distinct digests) (config : OverlayConfig) (snapshotTime : Timestamp)
    (requests : List Request)
    (safely
      : Safely digests base (SafeToReport base) (Overlay.opened config snapshotTime) requests)
    : ∀ state ∈ runStates digests base (Overlay.opened config snapshotTime) requests,
        NoCollision digests base state.core
        → ∃ status,
            state.status digests .sha1 = .ok status ∧ Complete digests base state status := by
  have holds := @Safely.invariant digests base (fun core => Accounted base core.rows)
    (SafeToReport base) (fun _ => trivial)
    (fun _ _ _ sound accounted safe step => step.accounted sound accounted safe)
    (Overlay.opened config snapshotTime) (.opened config snapshotTime)
    (.opened config snapshotTime) (Accounted.opened base config snapshotTime) requests safely
  intro state member clear
  obtain ⟨sound, indexed, accounted⟩ := holds state member
  obtain ⟨status, computed, reports⟩ := status_spec sound
  exact ⟨status, computed, accounted.complete distinct sound indexed clear reports⟩

/-- `mv d e; mkdir d; rm e/f`: the moved file is the only record of `d/f` until `d` is made
again, so it is not removed here.
-/
def moveAndRemake : List Request :=
  [(Call.rename [100] [101] false).plain, (Call.mkdir ⟨[100], by decide⟩).plain,
    (Call.rename [101, 47, 102] [102] false).plain]

theorem moveAndRemake_complete
    : sampleBase.Distinct sampleDigests
      ∧ Safely sampleDigests sampleBase (SafeToReport sampleBase)
          (Overlay.opened sampleConfig ⟨0, 0⟩) moveAndRemake
      ∧ ∀ state ∈ runStates sampleDigests sampleBase (Overlay.opened sampleConfig ⟨0, 0⟩)
            moveAndRemake,
          NoCollision sampleDigests sampleBase state.core
          → ∃ status,
              state.status sampleDigests .sha1 = .ok status
              ∧ Complete sampleDigests sampleBase state status := by
  have distinct : sampleBase.Distinct sampleDigests := by decide
  have safely
      : Safely sampleDigests sampleBase (SafeToReport sampleBase)
          (Overlay.opened sampleConfig ⟨0, 0⟩) moveAndRemake := by
    decide
  exact ⟨distinct, safely,
    run_status_complete sampleDigests sampleBase distinct sampleConfig ⟨0, 0⟩ moveAndRemake
      safely⟩

/-- `rm d/f; mkdir d/f`: a directory where the base has a file. -/
def fileToDirectory : List Request :=
  [(Call.remove [100, 47, 102] false).plain, (Call.mkdir ⟨[100, 47, 102], by decide⟩).plain]

/-- A base file replaced by a directory is in no part of the report. -/
theorem fileToDirectory_not_complete
    : ¬ ∀ state ∈ runStates sampleDigests sampleBase (Overlay.opened sampleConfig ⟨0, 0⟩)
            fileToDirectory,
          NoCollision sampleDigests sampleBase state.core
          → ∃ status,
              state.status sampleDigests .sha1 = .ok status
              ∧ Complete sampleDigests sampleBase state status := by
  intro all
  obtain ⟨status, computed, complete⟩ :=
    all _ (foldl_mem_states _ _ _) (by decide)
  have empty
      : (fileToDirectory.foldl (Request.apply sampleDigests sampleBase)
          (Overlay.opened sampleConfig ⟨0, 0⟩)).status sampleDigests .sha1
        = .ok ⟨[], []⟩ := by
    decide
  rw [empty] at computed
  cases computed
  have missed := complete [100, 47, 102] (by decide)
  simp at missed

end Gfs.Overlay
