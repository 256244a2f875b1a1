import Gfs.Overlay.Requests

/-! Fetching a row's base blob (`gfs-mount/src/fs.rs`). The path a blob is asked for is not
stored: it is `renamed_from`, or the row's own path.
-/

namespace Gfs.Overlay

open Gfs.Types
open Gfs.Lib.Runs
open Std (ExtTreeMap ExtTreeSet)

variable {digests : Digests} {base : BaseTree}

/-- Where a row's base blob still lives in the pinned commit. -/
def blobPath (path : BytePath) (entry : OverlayEntry) : BytePath :=
  entry.renamedFrom.getD path

/-- Why `open_blob` refuses a blob it does not have cached. -/
inductive BlobRefusal where
  /-- The path vanished from a pinned commit. -/
  | notFound
  /-- The server returned a different blob for a pinned path. -/
  | differentBlob
  deriving DecidableEq, Repr

/-- The check `open_blob` makes on what the commit has at the path before it fetches. -/
def openBlob (digests : Digests) (base : BaseTree) (path : BytePath) (oid : ObjectId)
    : Except BlobRefusal Unit :=
  match base.facts digests path with
  | none => .error .notFound
  | some fresh => if fresh.oid ≠ oid then .error .differentBlob else .ok ()

/-- Whether a row's base content, if it has any, is fetched under a path that holds it. -/
def served (digests : Digests) (base : BaseTree) (path : BytePath) (entry : OverlayEntry)
    : Bool :=
  match entry.content with
  | .base oid => (openBlob digests base (blobPath path entry) oid).isOk
  | _ => true

/-- Every base reference of a row that is there can be served. -/
def Servable (digests : Digests) (base : BaseTree) (rows : Rows) : Prop :=
  ∀ row ∈ rows.toList, row.2.present = true → served digests base row.1 row.2 = true

instance (digests : Digests) (base : BaseTree) (rows : Rows)
    : Decidable (Servable digests base rows) :=
  inferInstanceAs (Decidable (∀ row ∈ rows.toList, _))

/-- A directory's rename is safe when every row that goes with it, refers to a blob of the
base by its own path, and is not itself renamed, lands where the base has that blob too.
-/
def SafeToServe (digests : Digests) (base : BaseTree) (core : Core) : Effect → Prop
  | .relocate source target =>
      ∀ row ∈ rowsUnder core.rows source,
        row.present = true → row.renamedFrom = none
        → served digests base (target ++ row.path.drop source.length) row = true
  | _ => True

instance (digests : Digests) (base : BaseTree) (core : Core)
    : (effect : Effect) → Decidable (SafeToServe digests base core effect)
  | .quiet | .create _ _ | .depart _ => inferInstanceAs (Decidable True)
  | .relocate source _ =>
      inferInstanceAs (Decidable (∀ row ∈ rowsUnder core.rows source, _))

-- One row

variable {path : BytePath} {entry : OverlayEntry}

theorem served_of_remote (blank : ∀ oid, entry.content ≠ .base oid)
    : served digests base path entry = true := by
  unfold served
  cases content : entry.content with
  | none => rfl
  | «local» id => rfl
  | base oid => exact absurd content (blank oid)

theorem served_of_get {path : BytePath} {entry : OverlayEntry} {node : BaseNode}
    (content : entry.content = .base (BaseTree.oidOfNode digests node))
    (got : base.get (blobPath path entry) = some node)
    : served digests base path entry = true := by
  simp [served, content, openBlob, BaseTree.facts, got, BaseTree.factsOfNode, Except.isOk,
    Except.toBool]

theorem served_congr {other : BytePath} {row : OverlayEntry} (content : entry.content = row.content)
    (place : blobPath path entry = blobPath other row)
    : served digests base path entry = served digests base other row := by
  simp only [served, content, place]

theorem Servable.at {rows : Rows} (servable : Servable digests base rows)
    (found : rows[path]? = some entry) (present : entry.present = true)
    : served digests base path entry = true :=
  servable (path, entry) (ExtTreeMap.mem_toList_iff_getElem?_eq_some.mpr found) present

theorem Servable.insert {rows : Rows} (servable : Servable digests base rows)
    (fetched : served digests base path entry = true)
    : Servable digests base (rows.insert path entry) := by
  intro row member present
  have found := ExtTreeMap.mem_toList_iff_getElem?_eq_some.mp member
  by_cases same : row.1 = path
  · rw [same, getElem?_insert_self] at found
    cases found
    rw [same]
    exact fetched
  · rw [getElem?_insert_other rows entry same] at found
    exact servable.at found present

theorem Standing.served {rows : Rows} {old : OverlayEntry} (servable : Servable digests base rows)
    (standing : Standing digests base rows path old)
    : served digests base path old = true := by
  cases standing with
  | own found present => exact servable.at found present
  | @base node resolved got present kinds opacity content target renamedFrom facts =>
      cases directory : old.kind.isDir with
      | true =>
          rw [directory, if_pos rfl] at content
          refine served_of_remote ?_
          intro oid
          rw [content]
          exact fun absurd => by cases absurd
      | false =>
          rw [directory, if_neg Bool.false_ne_true] at content
          refine served_of_get content ?_
          rw [blobPath, renamedFrom]
          exact got

-- Steps and runs

/-- The rows a rename leaves are served: the renamed row is fetched from where it came from,
the rows below it from where they were, and those made for base nodes from the base.
-/
theorem Servable.relocate {rows rows' : Rows} {source target : BytePath}
    (servable : Servable digests base rows) (keyed : Keyed rows)
    (relocates : Relocates digests base rows source target rows')
    (landing
      : ∀ row ∈ rowsUnder rows source, row.present = true → row.renamedFrom = none
          → served digests base (target ++ row.path.drop source.length) row = true)
    : Servable digests base rows' := by
  intro row member present
  obtain ⟨path, entry⟩ := row
  have found := ExtTreeMap.mem_toList_iff_getElem?_eq_some.mp member
  simp only at present ⊢
  rcases relocates.present_cases found present with rfl | ⟨rel, rfl⟩ | ⟨-, -, before⟩
  · obtain ⟨old, moved, standing, moves, there⟩ := relocates.moved
    rw [found] at there
    cases there
    rw [served_congr moves.content (show blobPath path entry = blobPath source old by
      simp [blobPath, moves.renamedFrom])]
    exact standing.served servable
  · have arrives := relocates.arrived rel
    rw [found] at arrives
    cases arrives with
    | @row old now before there =>
        have own : old.path = source ++ slash :: rel := (keyed _ old before).1
        cases origin : old.renamedFrom with
        | some origin' =>
            refine (served_congr ?_ ?_).trans (servable.at before there)
            · rfl
            · simp [blobPath, Overlay.moverEntry, origin]
        | none =>
            have lands := landing old
              ((mem_rowsUnder relocates.sourceFormed.1).mpr ⟨rel, before⟩) there origin
            rw [own, List.drop_left] at lands
            refine (served_congr ?_ ?_).trans lands
            · rfl
            · rfl
    | @base node kind ino now resolved got kinds =>
        cases directory : kind.isDir with
        | true =>
            refine served_of_remote ?_
            intro oid
            simp [Overlay.descendantEntry, directory]
        | false =>
            refine @served_of_get digests base _ _ node ?_ ?_
            · simp [Overlay.descendantEntry, directory, BaseTree.factsOfNode]
            · simpa [blobPath, Overlay.descendantEntry] using got
  · exact servable.at before present

/-- A safe step keeps every base reference served. -/
theorem Step.servable {effect : Effect} {core core' : Core}
    (step : Step digests base effect core core') (sound : Sound digests base core)
    (servable : Servable digests base core.rows) (safe : SafeToServe digests base core effect)
    : Servable digests base core'.rows := by
  cases step with
  | idle => exact servable
  | create created blank =>
      refine servable.insert (served_of_remote ?_)
      intro oid
      rw [blank]
      exact fun absurd => by cases absurd
  | createFile created content =>
      refine servable.insert (served_of_remote ?_)
      intro oid
      rw [content]
      exact fun absurd => by cases absurd
  | @touch _ path old entry formed standing revises own content =>
      refine servable.insert ?_
      rw [served_congr content (show blobPath path entry = blobPath path old by
        rw [blobPath, blobPath, revises.renamedFrom])]
      exact standing.served servable
  | copyUp formed standing revises own file content =>
      refine servable.insert (served_of_remote ?_)
      intro oid
      rw [content]
      exact fun absurd => by cases absurd
  | rewrite found present revises own before content =>
      refine servable.insert (served_of_remote ?_)
      intro oid
      rw [content]
      exact fun absurd => by cases absurd
  | @refer _ path old entry facts id found present revises own before unmoved known content =>
      have listed : base.facts digests path = some facts := by
        rcases sound.facts path old found with unknown | same
        · rw [known] at unknown
          cases unknown
        · rw [← same, known]
      obtain ⟨node, got, rfl⟩ := Option.map_eq_some_iff.mp listed
      refine servable.insert (served_of_get content ?_)
      rw [blobPath, revises.renamedFrom, unmoved]
      exact got
  | @depart _ path rows' release shows formed bare left others released =>
      intro row member present
      have found := ExtTreeMap.mem_toList_iff_getElem?_eq_some.mp member
      by_cases same : row.1 = path
      · rw [same] at found
        rw [left.covers.2 row.2 found] at present
        cases present
      · rw [others row.1 same] at found
        exact servable.at found present
  | relocate relocates released => exact servable.relocate sound.keyed relocates safe

/-- Every base reference can be served in every state of a run whose directory renames carry
no row away from the path its blob is fetched by. Witness: each step serves the rows it
puts, and only the rows below a renamed directory change the path they are fetched by.
-/
theorem run_servable (digests : Digests) (base : BaseTree) (config : OverlayConfig)
    (snapshotTime : Timestamp) (requests : List Request)
    (safely
      : Safely digests base (SafeToServe digests base) (Overlay.opened config snapshotTime)
          requests)
    : ∀ state ∈ runStates digests base (Overlay.opened config snapshotTime) requests,
        Servable digests base state.entries := by
  have holds := @Safely.invariant digests base (fun core => Servable digests base core.rows)
    (SafeToServe digests base) (fun _ => trivial)
    (fun _ _ _ sound servable safe step => step.servable sound servable safe)
    (Overlay.opened config snapshotTime) (.opened config snapshotTime)
    (.opened config snapshotTime)
    (by
      intro row member
      have found := ExtTreeMap.mem_toList_iff_getElem?_eq_some.mp member
      simp [Overlay.opened, Overlay.core] at found)
    requests safely
  exact fun state member => (holds state member).2.2

/-- `chmod +x d/f; mv d/f g; mv d e`: the file is renamed itself before its directory is. -/
def chmodThenMove : List Request :=
  [(Call.setExecutable [100, 47, 102] true).plain,
    (Call.rename [100, 47, 102] [103] false).plain, (Call.rename [100] [101] false).plain]

theorem chmodThenMove_servable
    : Safely sampleDigests sampleBase (SafeToServe sampleDigests sampleBase)
        (Overlay.opened sampleConfig ⟨0, 0⟩) chmodThenMove
      ∧ ∀ state ∈ runStates sampleDigests sampleBase (Overlay.opened sampleConfig ⟨0, 0⟩)
            chmodThenMove,
          Servable sampleDigests sampleBase state.entries := by
  have safely
      : Safely sampleDigests sampleBase (SafeToServe sampleDigests sampleBase)
          (Overlay.opened sampleConfig ⟨0, 0⟩) chmodThenMove := by
    decide
  exact ⟨safely,
    run_servable sampleDigests sampleBase sampleConfig ⟨0, 0⟩ chmodThenMove safely⟩

/-- `chmod +x d/f; mv d e`: the row of `d/f` moves to `e/f`, where it is fetched, and the base
has nothing there.
-/
theorem chmodThenMoveParent_not_servable
    : ¬ ∀ state ∈ runStates sampleDigests sampleBase (Overlay.opened sampleConfig ⟨0, 0⟩)
            [(Call.setExecutable [100, 47, 102] true).plain,
              (Call.rename [100] [101] false).plain],
          Servable sampleDigests sampleBase state.entries := by
  decide

end Gfs.Overlay
