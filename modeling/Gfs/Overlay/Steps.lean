import Gfs.Overlay.View

/-! The overlay's transitions on what its meaning depends on: the rows, the content files and
the content-id allocator. Every mutation is a few of these steps; each keeps the rows sound
and moves the merged view in a known way.
-/

namespace Gfs.Overlay

open Gfs.Types
open Std (ExtTreeMap ExtTreeSet)

/-- The part of an overlay that decides its merged view. -/
structure Core where
  rows : Rows
  files : ExtTreeMap Nat Bytes compare
  next : Nat

def Overlay.core (overlay : Overlay) : Core where
  rows := overlay.entries
  files := overlay.files
  next := overlay.nextContentId

/-- A row as a node. -/
def Core.node (digests : Digests) (base : BaseTree) (core : Core) (entry : OverlayEntry)
    : Node where
  kind := entry.kind
  content :=
    match entry.content with
    | .none => entry.symlinkTarget.getD []
    | .local id => core.files[id]?.getD []
    | .base oid => (base.contentOfOid digests oid).getD []

/-- The merged view of the core. -/
def Core.view (digests : Digests) (base : BaseTree) (core : Core) (path : BytePath)
    : Option Node :=
  lookup base core.rows (core.node digests base) id path

theorem view_eq_core (digests : Digests) (overlay : Overlay) (base : BaseTree)
    : view digests overlay base = overlay.core.view digests base := by
  have nodes : nodeOf digests overlay base = overlay.core.node digests base := by
    funext entry
    unfold nodeOf Core.node Overlay.openContent
    cases entry.content <;> rfl
  funext path
  unfold view Core.view
  rw [nodes]
  rfl

-- Sound rows

section Definitions

variable (digests : Digests) (base : BaseTree)

/-- The base holds a blob under the object id, and a recorded symlink target is that blob. -/
def Serves (oid : ObjectId) (target : Option Bytes) : Prop :=
  ∃ path node, base.get path = some node
    ∧ BaseTree.oidOfNode digests node = oid
    ∧ (target = none ∨ target = some node.content)

/-- What a row that is there must be, by its kind. -/
structure Shaped (entry : OverlayEntry) : Prop where
  directory : entry.kind = .directory → entry.content = .none ∧ entry.symlinkTarget = none
  leaf : entry.kind ≠ .directory → entry.opaqueDir = false
  file : entry.kind.isFile = true → entry.symlinkTarget = none ∧ entry.content ≠ .none
  link
    : entry.kind = .symlink
      → entry.content.localId = none
        ∧ (entry.content = .none → entry.symlinkTarget.isSome = true)
  served : ∀ oid, entry.content = .base oid → Serves digests base oid entry.symlinkTarget

/-- The invariant of every reachable overlay. -/
structure Sound (core : Core) : Prop where
  keyed : Keyed core.rows
  placed : Placed base core.rows
  /-- A row knows what the base has at its path, or knows nothing of it. -/
  facts
    : ∀ (path : BytePath) (entry : OverlayEntry),
        core.rows[path]? = some entry
        → entry.base = none ∨ entry.base = base.facts digests path
  /-- A whiteout hides something. -/
  hidden
    : ∀ (path : BytePath) (entry : OverlayEntry),
        core.rows[path]? = some entry → entry.present = false
        → entry.base = base.facts digests path
          ∧ (base.get path).isSome = true
          ∧ entry.content = .none
  shaped
    : ∀ (path : BytePath) (entry : OverlayEntry),
        core.rows[path]? = some entry → entry.present = true → Shaped digests base entry
  /-- Local content has its file, under an id already given out. -/
  held
    : ∀ (path : BytePath) (entry : OverlayEntry) (id : Nat),
        core.rows[path]? = some entry → entry.content = .local id
        → (core.files[id]?).isSome = true ∧ id < core.next
  /-- No two rows share a content file. -/
  owned
    : ∀ (path other : BytePath) (entry row : OverlayEntry) (id : Nat),
        core.rows[path]? = some entry → core.rows[other]? = some row
        → entry.content = .local id → row.content = .local id → path = other

-- The steps

/-- Directories stand above the path in the view. -/
def UnderDirectories (rows : Rows) (path : BytePath) : Prop :=
  ∀ dir ∈ ancestorsOf path, dir ≠ [] → kindAt base rows dir = some .directory

/-- A new row at a path where nothing shows. A new directory is opaque. -/
structure Created (rows : Rows) (path : BytePath) (entry : OverlayEntry) : Prop where
  formed : WellFormed path
  own : entry.path = path
  present : entry.present = true
  vacant : kindAt base rows path = none
  above : UnderDirectories base rows path
  facts : entry.base = base.facts digests path
  fresh : entry.renamedFrom = none
  opacity : entry.opaqueDir = entry.kind.isDir
  shaped : Shaped digests base entry

/-- The row an edit starts from: the path's own, or the one that stands for a base node. -/
inductive Standing (rows : Rows) (path : BytePath) : OverlayEntry → Prop where
  | own {entry : OverlayEntry}
      : rows[path]? = some entry → entry.present = true → Standing rows path entry
  | base {entry : OverlayEntry} {node : BaseNode}
      : resolve rows path = .base
      → base.get path = some node
      → entry.present = true
      → OverlayKind.fromEntryKind node.kind = some entry.kind
      → entry.opaqueDir = false
      → entry.content
          = (if entry.kind.isDir then .none else .base (BaseTree.oidOfNode digests node))
      → entry.symlinkTarget = none
      → entry.renamedFrom = none
      → entry.base = base.facts digests path
      → Standing rows path entry

/-- A row that revises the one it starts from: it stays what it is, but for its content, its
times and the executable bit.
-/
structure Revises (old entry : OverlayEntry) : Prop where
  present : entry.present = true
  kinds
    : entry.kind = old.kind ∨ (entry.kind.isFile = true ∧ old.kind.isFile = true)
  opacity : entry.opaqueDir = old.opaqueDir
  target : entry.symlinkTarget = old.symlinkTarget
  renamedFrom : entry.renamedFrom = old.renamedFrom
  base : entry.base = old.base

/-- What leaving a path puts there: a whiteout if the base has something, else nothing. -/
def LeftBehind (path : BytePath) (row : Option OverlayEntry) : Prop :=
  match base.facts digests path with
  | none => row = none
  | some facts => ∃ ino now, row = some (Overlay.whiteout path facts ino now)

/-- The renamed row at its destination. -/
structure Moves (source target : BytePath) (old entry : OverlayEntry) : Prop where
  own : entry.path = target
  present : entry.present = true
  kind : entry.kind = old.kind
  content : entry.content = old.content
  symlinkTarget : entry.symlinkTarget = old.symlinkTarget
  opacity : entry.opaqueDir = old.kind.isDir
  renamedFrom : entry.renamedFrom = some (old.renamedFrom.getD source)
  base : entry.base = base.facts digests target

/-- What a directory's rename puts at one path below the destination: the row that stood at
the same place below the source, a row for the base node that showed there, or nothing.
-/
inductive Arrives (rows : Rows) (source target rel : BytePath)
    : Option OverlayEntry → Prop where
  | row {old : OverlayEntry} {now : Timestamp}
      : rows[source ++ slash :: rel]? = some old
      → old.present = true
      → Arrives rows source target rel (some (Overlay.moverEntry source target now old))
  | base {node : BaseNode} {kind : OverlayKind} {ino : Nat} {now : Timestamp}
      : resolve rows (source ++ slash :: rel) = .base
      → base.get (source ++ slash :: rel) = some node
      → OverlayKind.fromEntryKind node.kind = some kind
      → Arrives rows source target rel
          (some
            (Overlay.descendantEntry source target now ino kind
              {
                relative := rel
                facts := BaseTree.factsOfNode digests node
                symlinkTarget := if node.kind = .symlink then some node.content else none
              }))
  | nothing
      : kindAt base rows (source ++ slash :: rel) = none → Arrives rows source target rel none

/-- The rows after a rename. Nothing showed below the destination, and neither end is inside
the other.
-/
structure Relocates (rows : Rows) (source target : BytePath) (rows' : Rows) : Prop where
  sourceFormed : WellFormed source
  targetFormed : WellFormed target
  distinct : source ≠ target
  outside : source ∉ ancestorsOf target
  inside : target ∉ ancestorsOf source
  above : UnderDirectories base rows target
  bare : ∀ below, target ∈ ancestorsOf below → kindAt base rows below = none
  moved
    : ∃ old entry,
        Standing digests base rows source old
        ∧ Moves digests base source target old entry
        ∧ rows'[target]? = some entry
  arrived
    : ∀ rel, Arrives digests base rows source target rel rows'[target ++ slash :: rel]?
  left : LeftBehind digests base source rows'[source]?
  emptied
    : ∀ rel : BytePath,
        rows'[source ++ slash :: rel]?
        = rows[source ++ slash :: rel]?.filter (fun entry => !entry.present)
  others
    : ∀ path : BytePath,
        isWithin path source = false → isWithin path target = false
        → rows'[path]? = rows[path]?

/-- What a transition does to the tree. -/
inductive Effect where
  /-- Nothing: content, times, the executable bit, or a row for what already showed. -/
  | quiet
  | create (path : BytePath) (kind : OverlayKind)
  | depart (path : BytePath)
  | relocate (source target : BytePath)
  deriving DecidableEq, Repr

/-- One transition of the core. -/
inductive Step : Effect → Core → Core → Prop where
  /-- An id was taken and nothing made of it. -/
  | idle {core : Core} {next : Nat} : core.next ≤ next → Step .quiet core { core with next }
  | create {core : Core} {path : BytePath} {entry : OverlayEntry}
      : Created digests base core.rows path entry
      → entry.content = .none
      → Step (.create path entry.kind) core { core with rows := core.rows.insert path entry }
  | createFile {core : Core} {path : BytePath} {entry : OverlayEntry}
      : Created digests base core.rows path entry
      → entry.content = .local core.next
      → Step (.create path entry.kind) core
          {
            rows := core.rows.insert path entry
            files := core.files.insert core.next []
            next := core.next + 1
          }
  /-- Times, the executable bit, or the row of a base node as it is. -/
  | touch {core : Core} {path : BytePath} {old entry : OverlayEntry}
      : WellFormed path
      → Standing digests base core.rows path old
      → Revises old entry
      → entry.path = path
      → entry.content = old.content
      → Step .quiet core { core with rows := core.rows.insert path entry }
  /-- The row of a file gets a content file of its own. -/
  | copyUp {core : Core} {path : BytePath} {old entry : OverlayEntry} {bytes : Bytes}
      : WellFormed path
      → Standing digests base core.rows path old
      → Revises old entry
      → entry.path = path
      → old.kind.isFile = true
      → entry.content = .local core.next
      → Step .quiet core
          {
            rows := core.rows.insert path entry
            files := core.files.insert core.next bytes
            next := core.next + 1
          }
  /-- The content file of a row changes. -/
  | rewrite {core : Core} {path : BytePath} {old entry : OverlayEntry} {id : Nat}
      {bytes : Bytes}
      : core.rows[path]? = some old
      → old.present = true
      → Revises old entry
      → entry.path = path
      → old.content = .local id
      → entry.content = .local id
      → Step .quiet core
          {
            core with
            rows := core.rows.insert path entry
            files := core.files.insert id bytes
          }
  /-- A local copy becomes a reference to the blob its path has in the base. -/
  | refer {core : Core} {path : BytePath} {old entry : OverlayEntry} {facts : BaseFacts}
      {id : Nat}
      : core.rows[path]? = some old
      → old.present = true
      → Revises old entry
      → entry.path = path
      → old.content = .local id
      → old.renamedFrom = none
      → old.base = some facts
      → entry.content = .base facts.oid
      → Step .quiet core { core with rows := core.rows.insert path entry }
  | depart {core : Core} {path : BytePath} {rows' : Rows} {release : List Nat}
      : (kindAt base core.rows path).isSome = true
      → WellFormed path
      → (∀ below, path ∈ ancestorsOf below → kindAt base core.rows below = none)
      → LeftBehind digests base path rows'[path]?
      → (∀ other : BytePath, other ≠ path → rows'[other]? = core.rows[other]?)
      → (∀ id, id ∈ release → ∃ entry, core.rows[path]? = some entry
          ∧ entry.content = .local id)
      → Step (.depart path) core
          { core with rows := rows', files := release.foldl (·.erase ·) core.files }
  | relocate {core : Core} {source target : BytePath} {rows' : Rows} {release : List Nat}
      : Relocates digests base core.rows source target rows'
      → (∀ id, id ∈ release → ∃ entry, core.rows[target]? = some entry
          ∧ entry.content = .local id)
      → Step (.relocate source target) core
          { core with rows := rows', files := release.foldl (·.erase ·) core.files }

end Definitions

-- Putting one row

variable {digests : Digests} {base : BaseTree}

theorem getElem?_insert_self (rows : Rows) (path : BytePath) (entry : OverlayEntry)
    : (rows.insert path entry)[path]? = some entry := by
  simp

theorem getElem?_insert_other (rows : Rows) {path other : BytePath} (entry : OverlayEntry)
    (distinct : other ≠ path)
    : (rows.insert path entry)[other]? = rows[other]? := by
  rw [ExtTreeMap.getElem?_insert, if_neg]
  exact fun same => distinct (Std.LawfulEqCmp.compare_eq_iff_eq.mp same).symm

theorem Keyed.insert {rows : Rows} (keyed : Keyed rows) {path : BytePath}
    {entry : OverlayEntry} (formed : WellFormed path) (own : entry.path = path)
    : Keyed (rows.insert path entry) := by
  intro other row found
  by_cases same : other = path
  · subst same
    rw [getElem?_insert_self] at found
    cases found
    exact ⟨own, formed⟩
  · rw [getElem?_insert_other rows entry same] at found
    exact keyed other row found

/-- The files after a row with this content is put: its own content has a file no other row
uses, and every other row keeps its file.
-/
structure Stores (core : Core) (path : BytePath) (entry : OverlayEntry)
    (files : ExtTreeMap Nat Bytes compare) (next : Nat)
    : Prop where
  mono : core.next ≤ next
  kept
    : ∀ (other : BytePath) (row : OverlayEntry) (id : Nat),
        other ≠ path → core.rows[other]? = some row → row.content = .local id
        → files[id]? = core.files[id]?
  held
    : ∀ id, entry.content = .local id → (files[id]?).isSome = true ∧ id < next
  owned
    : ∀ (other : BytePath) (row : OverlayEntry) (id : Nat),
        other ≠ path → core.rows[other]? = some row → entry.content = .local id
        → row.content ≠ .local id

/-- A row put at its path keeps the rows sound. -/
theorem Sound.put {core : Core} (sound : Sound digests base core) {path : BytePath}
    {entry : OverlayEntry} {files : ExtTreeMap Nat Bytes compare} {next : Nat}
    (formed : WellFormed path) (own : entry.path = path) (present : entry.present = true)
    (facts : entry.base = none ∨ entry.base = base.facts digests path)
    (shaped : Shaped digests base entry) (placed : Placed base (core.rows.insert path entry))
    (stores : Stores core path entry files next)
    : Sound digests base ⟨core.rows.insert path entry, files, next⟩ where
  keyed := sound.keyed.insert formed own
  placed := placed
  facts := by
    intro other row found
    by_cases same : other = path
    · subst same
      rw [getElem?_insert_self] at found
      cases found
      exact facts
    · rw [getElem?_insert_other _ entry same] at found
      exact sound.facts other row found
  hidden := by
    intro other row found absent
    by_cases same : other = path
    · subst same
      rw [getElem?_insert_self] at found
      cases found
      rw [present] at absent
      cases absent
    · rw [getElem?_insert_other _ entry same] at found
      exact sound.hidden other row found absent
  shaped := by
    intro other row found there
    by_cases same : other = path
    · subst same
      rw [getElem?_insert_self] at found
      cases found
      exact shaped
    · rw [getElem?_insert_other _ entry same] at found
      exact sound.shaped other row found there
  held := by
    intro other row id found content
    by_cases same : other = path
    · subst same
      rw [getElem?_insert_self] at found
      cases found
      exact stores.held id content
    · rw [getElem?_insert_other _ entry same] at found
      obtain ⟨file, given⟩ := sound.held other row id found content
      rw [stores.kept other row id same found content]
      exact ⟨file, Nat.lt_of_lt_of_le given stores.mono⟩
  owned := by
    intro left right entry₁ entry₂ id foundLeft foundRight contentLeft contentRight
    by_cases sameLeft : left = path
    · by_cases sameRight : right = path
      · rw [sameLeft, sameRight]
      · rw [sameLeft, getElem?_insert_self] at foundLeft
        cases foundLeft
        rw [getElem?_insert_other _ entry sameRight] at foundRight
        exact absurd contentRight (stores.owned right entry₂ id sameRight foundRight contentLeft)
    · rw [getElem?_insert_other _ entry sameLeft] at foundLeft
      by_cases sameRight : right = path
      · rw [sameRight, getElem?_insert_self] at foundRight
        cases foundRight
        exact absurd contentLeft (stores.owned left entry₁ id sameLeft foundLeft contentRight)
      · rw [getElem?_insert_other _ entry sameRight] at foundRight
        exact sound.owned left right entry₁ entry₂ id foundLeft foundRight contentLeft
          contentRight

end Gfs.Overlay
