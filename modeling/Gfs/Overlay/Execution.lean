import Gfs.Overlay.Relocation

/-! The overlay's operations as steps of its core, for a caller that tells the truth about the
base: it passes the base's own facts, and the base's own answer to whether a directory is
empty.
-/

namespace Gfs.Overlay

open Gfs.Types
open Gfs.Lib.Overwrites
open Std (ExtTreeMap ExtTreeSet)

variable {digests : Digests} {base : BaseTree}

-- Checks

theorem checks_ok {first second : Except Condition Unit}
    : (do first; second) = .ok () ↔ first = .ok () ∧ second = .ok () := by
  cases first <;> simp [bind, Except.bind]

variable {path : BytePath} {overlay : Overlay} {parent : Parent} {entry : OverlayEntry}

theorem wellFormed_of_pathCondition (accepted : pathCondition path = .ok ()) (nonroot : path ≠ [])
    : WellFormed path := by
  unfold pathCondition at accepted
  split at accepted
  · cases accepted
  · split at accepted
    · rename_i valid
      exact (isDirPath_of_validate valid).resolve_left nonroot
    · cases accepted

theorem existing_eq (overlay : Overlay) (path : BytePath)
    : overlay.existing path (base.facts digests path)
      = (kindAt base overlay.entries path).map OverlayKind.toEntryKind := by
  unfold Overlay.existing kindAt lookup
  cases resolve overlay.entries path with
  | overlay entry => rfl
  | absent => rfl
  | base =>
      simp only [BaseTree.facts, BaseTree.node, BaseTree.get]
      split
      · rfl
      · cases got : base.nodes[path]? with
        | none => rfl
        | some node =>
            obtain ⟨-, kinds, -, -⟩ := base.placed path node got
            obtain ⟨kind, same⟩ := Option.isSome_iff_exists.mp kinds
            simp [Node.ofBase, BaseTree.factsOfNode,
              OverlayKind.fromEntryKind_eq_some.mp same]

theorem checkParent_ok
    : overlay.checkParent path (base.facts digests (parentOf path)) = .ok ()
      ↔ parentOf path = []
        ∨ kindAt base overlay.entries (parentOf path) = some .directory := by
  unfold Overlay.checkParent
  rw [existing_eq]
  split
  · rename_i top
    simp [top]
  · rename_i nonroot
    cases kindAt base overlay.entries (parentOf path) with
    | none => simp [nonroot]
    | some kind => cases kind <;> simp [nonroot, OverlayKind.toEntryKind, EntryKind.isDirLike]

theorem Placed.underDirectories {rows : Rows} (placed : Placed base rows) (nonroot : path ≠ [])
    (parent : parentOf path = [] ∨ kindAt base rows (parentOf path) = some .directory)
    : UnderDirectories base rows path := by
  intro dir member below
  rcases (mem_ancestorsOf_iff_parent nonroot).mp member with same | above
  · subst same
    rcases parent with top | isDir
    · exact absurd top below
    · exact isDir
  · rcases parent with top | isDir
    · rw [top] at above
      simp at above
    · exact placed.kindAt_ancestor isDir above below

theorem checkCreate_ok (truthful : parent.base = base.facts digests (parentOf path))
    : overlay.checkCreate path (base.facts digests path) parent = .ok ()
      ↔ (parentOf path = []
          ∨ kindAt base overlay.entries (parentOf path) = some .directory)
        ∧ kindAt base overlay.entries path = none := by
  unfold Overlay.checkCreate
  rw [truthful, checks_ok, checkParent_ok, existing_eq]
  refine and_congr_right fun _ => ?_
  cases kindAt base overlay.entries path <;>
    simp [throw, throwThe, MonadExceptOf.throw, pure, Except.pure]

-- Touching a parent

/-- Either nothing happened, or one row was revised without changing what it shows. -/
def Touches (digests : Digests) (base : BaseTree) (core core' : Core) : Prop :=
  core' = core
  ∨ ∃ path old entry,
      WellFormed path
      ∧ Standing digests base core.rows path old
      ∧ Revises old entry
      ∧ entry.path = path
      ∧ entry.content = old.content
      ∧ entry.kind = old.kind
      ∧ core' = { core with rows := core.rows.insert path entry }

theorem Touches.step {core core' : Core} (touches : Touches digests base core core')
    : core' = core ∨ Step digests base .quiet core core' := by
  rcases touches with same | ⟨path, old, entry, formed, standing, revises, own, content, -, rfl⟩
  · exact Or.inl same
  · exact Or.inr (.touch formed standing revises own content)

theorem Touches.sound {core core' : Core} (touches : Touches digests base core core')
    (sound : Sound digests base core)
    : Sound digests base core' := by
  rcases touches.step with rfl | step
  · exact sound
  · exact step.sound sound

theorem Standing.transport {rows rows' : Rows} {old : OverlayEntry}
    (standing : Standing digests base rows path old) (own : rows'[path]? = rows[path]?)
    (alike : resolve rows' path = resolve rows path)
    : Standing digests base rows' path old := by
  cases standing with
  | own found present => exact .own (own.trans found) present
  | base resolved got present kinds opacity content target renamedFrom facts =>
      exact .base (alike.trans resolved) got present kinds opacity content target renamedFrom
        facts

/-- The writes a parent touch makes. -/
def ParentTouch.writes : ParentTouch → List (BytePath × Option OverlayEntry)
  | .row entry => [(entry.path, some entry)]
  | .root | .nothing => []

/-- A parent touch leaves the core alone, and the row it writes revises the parent's. -/
theorem parentTouch_spec (path : BytePath) (now : Timestamp)
    (sound : Sound digests base overlay.core)
    (truthful : parent.base = base.facts digests (parentOf path))
    : (overlay.parentTouch path parent now).2.core = overlay.core
      ∧ ∀ entry, (overlay.parentTouch path parent now).1 = .row entry
          → ∃ old,
              WellFormed (parentOf path)
              ∧ Standing digests base overlay.entries (parentOf path) old
              ∧ Revises old entry
              ∧ entry.path = parentOf path
              ∧ entry.content = old.content
              ∧ entry.kind = old.kind
              ∧ old.kind.isDir = true := by
  unfold Overlay.parentTouch
  by_cases nonroot : parentOf path = []
  · simp [nonroot]
  · simp only [nonroot, ↓reduceIte]
    cases resolved : resolve overlay.entries (parentOf path) with
    | absent => exact ⟨rfl, fun _ absurd => by cases absurd⟩
    | overlay row =>
        simp only
        split
        · rename_i touchable
          simp only [Bool.and_eq_true] at touchable
          refine ⟨rfl, ?_⟩
          intro entry touched
          cases touched
          obtain ⟨-, found, present⟩ := resolve_eq_overlay.mp resolved
          obtain ⟨own, formed⟩ := sound.keyed _ row found
          exact ⟨row, formed, .own found present,
            ⟨present, Or.inl rfl, rfl, rfl, rfl, rfl⟩, own, rfl, rfl, touchable.2⟩
        · exact ⟨rfl, fun _ absurd => by cases absurd⟩
    | base =>
        simp only [truthful]
        cases known : base.facts digests (parentOf path) with
        | none => exact ⟨rfl, fun _ absurd => by cases absurd⟩
        | some facts =>
            simp only
            cases kinds : (OverlayKind.fromEntryKind facts.kind).filter OverlayKind.isDir with
            | none => exact ⟨rfl, fun _ absurd => by cases absurd⟩
            | some kind =>
                refine ⟨?_, ?_⟩
                · rfl
                · intro entry touched
                  cases touched
                  obtain ⟨node, got, rfl⟩ := Option.map_eq_some_iff.mp known
                  obtain ⟨kinds, isDir⟩ := Option.filter_eq_some_iff.mp kinds
                  have listed : base.nodes[parentOf path]? = some node := by
                    simpa [BaseTree.get, nonroot] using got
                  exact ⟨_, (base.placed _ node listed).1,
                    .adopted (overlay.adoptIno parent.ino).1 now resolved got kinds,
                    ⟨rfl, Or.inl rfl, rfl, rfl, rfl, rfl⟩, rfl, rfl, rfl, isDir⟩

/-- Committing changes at a path is committing them, then touching the parent as it was. -/
theorem commitTouching_core {changes : List Change} {release : List Nat} {now : Timestamp}
    (sound : Sound digests base overlay.core)
    (truthful : parent.base = base.facts digests (parentOf path))
    : (overlay.commitTouching path parent changes release now).core
      = {
          rows :=
            overwrite (overwrite overlay.entries (changes.map Change.write))
              (overlay.parentTouch path parent now).1.writes
          files := release.foldl (·.erase ·) overlay.files
          next := overlay.nextContentId
        } := by
  obtain ⟨same, -⟩ := parentTouch_spec path now sound truthful
  unfold Overlay.commitTouching Overlay.transactionTouching
  cases touched : overlay.parentTouch path parent now with
  | mk touch touchedOverlay =>
      rw [touched] at same
      simp only [Overlay.core, Core.mk.injEq] at same
      cases touch <;>
        simp [Overlay.pushTouch, Overlay.core, same, ParentTouch.writes, Change.write,
          overwrite]

theorem resolve_of_same {rows rows' : Rows} {path : BytePath}
    (same : ∀ dir, dir = path ∨ dir ∈ ancestorsOf path → rows'[dir]? = rows[dir]?)
    : rows'[path]? = rows[path]? ∧ resolve rows' path = resolve rows path := by
  refine ⟨same path (Or.inl rfl), resolve_congr ?_ (same path (Or.inl rfl))⟩
  intro dir member
  simp only [markAt]
  rw [same dir (Or.inr member)]

theorem touches_of_parentTouch {overlay : Overlay} {path : BytePath} {parent : Parent}
    {now : Timestamp} {core : Core} (sound : Sound digests base overlay.core)
    (truthful : parent.base = base.facts digests (parentOf path))
    (same : core.rows[parentOf path]? = overlay.entries[parentOf path]?)
    (alike : resolve core.rows (parentOf path) = resolve overlay.entries (parentOf path))
    : Touches digests base core
        {
          core with
          rows := overwrite core.rows (overlay.parentTouch path parent now).1.writes
        } := by
  obtain ⟨-, revised⟩ := parentTouch_spec path now sound truthful
  cases touched : (overlay.parentTouch path parent now).1 with
  | root => exact Or.inl rfl
  | nothing => exact Or.inl rfl
  | row entry =>
      obtain ⟨old, formed, standing, revises, own, content, kind, -⟩ := revised entry touched
      refine Or.inr ⟨parentOf path, old, entry, formed, standing.transport same alike, revises,
        own, content, kind, ?_⟩
      simp [ParentTouch.writes, overwrite, own]

theorem Overlay.Indexed.congr {overlay' : Overlay} (indexed : overlay.Indexed)
    (rows : overlay'.entries = overlay.entries) (children : overlay'.children = overlay.children)
    : overlay'.Indexed := by
  intro dir name
  rw [rows, children]
  exact indexed dir name

theorem parentTouch_fields (overlay : Overlay) (path : BytePath) (parent : Parent)
    (now : Timestamp)
    : (overlay.parentTouch path parent now).2.entries = overlay.entries
      ∧ (overlay.parentTouch path parent now).2.children = overlay.children := by
  unfold Overlay.parentTouch
  by_cases nonroot : parentOf path = []
  · simp [nonroot]
  · simp only [nonroot, ↓reduceIte]
    cases resolve overlay.entries (parentOf path) with
    | absent => exact ⟨rfl, rfl⟩
    | overlay row => simp only; split <;> exact ⟨rfl, rfl⟩
    | base =>
        cases parent.base with
        | none => exact ⟨rfl, rfl⟩
        | some facts =>
            simp only
            cases (OverlayKind.fromEntryKind facts.kind).filter OverlayKind.isDir <;>
              exact ⟨rfl, rfl⟩

/-- A commit at a path with well-formed puts keeps the index exact. -/
theorem commitTouching_indexed {changes : List Change} {release : List Nat} {now : Timestamp}
    (sound : Sound digests base overlay.core)
    (truthful : parent.base = base.facts digests (parentOf path)) (indexed : overlay.Indexed)
    (formed : ∀ change ∈ changes, Change.Formed change)
    : (overlay.commitTouching path parent changes release now).Indexed := by
  obtain ⟨-, revised⟩ := parentTouch_spec path now sound truthful
  obtain ⟨rows, children⟩ := parentTouch_fields overlay path parent now
  unfold Overlay.commitTouching Overlay.transactionTouching
  cases touched : overlay.parentTouch path parent now with
  | mk touch touchedOverlay =>
      rw [touched] at rows children revised
      have tidy := indexed.congr rows children
      have keyed : Keyed touchedOverlay.entries := by
        rw [rows]
        exact sound.keyed
      cases touch with
      | root => exact (Overlay.commitWith_indexed keyed tidy formed).2
      | nothing => exact (Overlay.commitWith_indexed keyed tidy formed).2
      | row entry =>
          obtain ⟨old, dirFormed, -, -, own, -⟩ := revised entry rfl
          refine (Overlay.commitWith_indexed keyed tidy ?_).2
          intro change member
          rcases List.mem_append.mp member with earlier | last
          · exact formed change earlier
          · rw [List.mem_singleton.mp last, Change.Formed, own]
            exact dirFormed

-- Creating

theorem ne_of_parent {dir : BytePath} (nonroot : path ≠ [])
    (above : dir = parentOf path ∨ dir ∈ ancestorsOf (parentOf path))
    : dir ≠ path := by
  intro same
  have member : dir ∈ ancestorsOf path := (mem_ancestorsOf_iff_parent nonroot).mpr above
  exact not_mem_ancestorsOf_self _ (same ▸ member)

/-- The commit of one new row at a path, with its parent touched. `overlay` is the overlay
whose files are already written.
-/
theorem create_commit {now : Timestamp} (sound : Sound digests base overlay.core)
    (truthful : parent.base = base.facts digests (parentOf path)) (nonroot : path ≠ [])
    (own : entry.path = path) (formed : WellFormed path)
    : Touches digests base
        { overlay.core with rows := overlay.entries.insert path entry }
        (overlay.commitTouching path parent [.put entry] [] now).core
      ∧ (overlay.Indexed
          → (overlay.commitTouching path parent [.put entry] [] now).Indexed) := by
  refine ⟨?_, ?_⟩
  swap
  · intro indexed
    refine commitTouching_indexed sound truthful indexed ?_
    intro change member
    rw [List.mem_singleton.mp member, Change.Formed, own]
    exact formed
  rw [commitTouching_core sound truthful]
  have rows : overwrite overlay.entries ([Change.put entry].map Change.write)
      = overlay.entries.insert path entry := by
    simp [Change.write, overwrite, own]
  rw [rows]
  obtain ⟨same, alike⟩ := @resolve_of_same overlay.entries (overlay.entries.insert path entry)
    (parentOf path)
    (fun dir above => getElem?_insert_other _ entry (ne_of_parent nonroot above))
  exact @touches_of_parentTouch _ _ _ _ _ _ { overlay.core with rows := _ } sound truthful
    same alike

/-- When creation is admitted: the path is acceptable, its parent usable and its place free. -/
def Creatable (base : BaseTree) (overlay : Overlay) (path : BytePath) : Prop :=
  pathCondition path = .ok ()
  ∧ (parentOf path = []
      ∨ kindAt base overlay.entries (parentOf path) = some .directory)
  ∧ kindAt base overlay.entries path = none

theorem creatable_iff (overlay : Overlay)
    (truthful : parent.base = base.facts digests (parentOf path))
    : (do
        pathCondition path
        overlay.checkCreate path (base.facts digests path) parent) = .ok ()
      ↔ Creatable base overlay path := by
  rw [checks_ok, checkCreate_ok truthful]
  rfl

theorem Sound.stash {core : Core} (sound : Sound digests base core) (bytes : Bytes)
    : Sound digests base
        { core with files := core.files.insert core.next bytes, next := core.next + 1 } := by
  refine ⟨sound.keyed, sound.placed, sound.facts, sound.hidden, sound.shaped, ?_, sound.owned⟩
  intro path entry id found content
  obtain ⟨file, given⟩ := sound.held path entry id found content
  refine ⟨?_, Nat.lt_succ_of_lt given⟩
  rw [ExtTreeMap.getElem?_insert]
  split
  · rfl
  · exact file

theorem Shaped.ofLocal {id : Nat} (file : entry.kind.isFile = true)
    (content : entry.content = .local id) (target : entry.symlinkTarget = none)
    (opacity : entry.opaqueDir = false)
    : Shaped digests base entry := by
  refine ⟨?_, fun _ => opacity, ?_, ?_, ?_⟩
  · intro dir
    rw [dir] at file
    cases file
  · intro _
    rw [content]
    exact ⟨target, fun absurd => by cases absurd⟩
  · intro link
    rw [link] at file
    cases file
  · intro oid found
    rw [content] at found
    cases found

theorem Shaped.ofDirectory (kind : entry.kind = .directory) (content : entry.content = .none)
    (target : entry.symlinkTarget = none)
    : Shaped digests base entry := by
  refine ⟨fun _ => ⟨content, target⟩, fun leaf => absurd kind leaf, ?_, ?_, ?_⟩
  · intro file
    rw [kind] at file
    cases file
  · intro link
    rw [kind] at link
    cases link
  · intro oid found
    rw [content] at found
    cases found

theorem Shaped.ofSymlink {target : Bytes} (kind : entry.kind = .symlink)
    (content : entry.content = .none) (linked : entry.symlinkTarget = some target)
    (opacity : entry.opaqueDir = false)
    : Shaped digests base entry := by
  refine ⟨?_, fun _ => opacity, ?_, ?_, ?_⟩
  · intro dir
    rw [kind] at dir
    cases dir
  · intro file
    rw [kind] at file
    cases file
  · intro _
    rw [content, linked]
    exact ⟨rfl, fun _ => rfl⟩
  · intro oid found
    rw [content] at found
    cases found

/-- What an admitted creation did: one new row of the given kind and content, and the parent
touched.
-/
structure Creation (digests : Digests) (base : BaseTree) (core : Core) (path : BytePath)
    (kind : OverlayKind) (content : Content) (target : Option Bytes)
    (files : ExtTreeMap Nat Bytes compare) (next : Nat) (entry : OverlayEntry)
    (overlay' : Overlay)
    : Prop where
  created : Created digests base core.rows path entry
  kind : entry.kind = kind
  content : entry.content = content
  target : entry.symlinkTarget = target
  touches
    : Touches digests base ⟨core.rows.insert path entry, files, next⟩ overlay'.core

theorem createFile_spec {overlay : Overlay} {host : Timestamp} {path : BytePath}
    {parent : Parent} {ino : Nat} {executable : Bool}
    (sound : Sound digests base overlay.core)
    (truthful : parent.base = base.facts digests (parentOf path)) (nonroot : path ≠ [])
    : (∃ refusal,
        overlay.createFile host path (base.facts digests path) parent ino executable
          = (.error refusal, overlay)
        ∧ ¬ (Creatable base overlay path ∧ overlay.checkQuota 0 = .ok ()))
      ∨ (Creatable base overlay path
          ∧ overlay.checkQuota 0 = .ok ()
          ∧ ∃ entry after,
              overlay.createFile host path (base.facts digests path) parent ino executable
                = (.ok entry, after)
              ∧ Creation digests base overlay.core path
                  (if executable then .executable else .regular)
                  (.local overlay.nextContentId) none
                  (overlay.files.insert overlay.nextContentId []) (overlay.nextContentId + 1)
                  entry after
              ∧ (overlay.Indexed → after.Indexed)) := by
  unfold Overlay.createFile Overlay.attemptCreateFile
  have checks
      : (do
          pathCondition path
          overlay.checkCreate path (base.facts digests path) parent
          overlay.checkQuota 0) = .ok ()
        ↔ Creatable base overlay path ∧ overlay.checkQuota 0 = .ok () := by
    rw [checks_ok, checks_ok, checkCreate_ok truthful]
    exact ⟨fun all => ⟨⟨all.1, all.2.1⟩, all.2.2⟩, fun all => ⟨all.1.1, all.1.2, all.2⟩⟩
  split
  · rename_i refusal failed
    exact Or.inl ⟨refusal, rfl, fun both => by rw [checks.mpr both] at failed; cases failed⟩
  · rename_i passed
    have admitted := checks.mp passed
    obtain ⟨accepted, parentUsable, vacant⟩ := admitted.1
    have formed := wellFormed_of_pathCondition accepted nonroot
    refine Or.inr ⟨admitted.1, admitted.2, _, _, rfl, ?_⟩
    refine ⟨⟨⟨formed, rfl, rfl, vacant,
      sound.placed.underDirectories nonroot parentUsable, rfl, rfl, ?_, ?_⟩, rfl, rfl, rfl,
      (create_commit (sound.stash []) truthful nonroot rfl formed).1⟩,
      fun tidy =>
        (create_commit (sound.stash []) truthful nonroot rfl formed).2 (tidy.congr rfl rfl)⟩
    · cases executable <;> rfl
    · cases executable <;> exact Shaped.ofLocal rfl rfl rfl rfl

theorem mkdir_spec {overlay : Overlay} {host : Timestamp} {path : BytePath}
    {parent : Parent} {ino : Nat} (sound : Sound digests base overlay.core)
    (truthful : parent.base = base.facts digests (parentOf path)) (nonroot : path ≠ [])
    : (∃ refusal,
        overlay.mkdir host path (base.facts digests path) parent ino
          = (.error refusal, overlay)
        ∧ ¬ Creatable base overlay path)
      ∨ (Creatable base overlay path
          ∧ ∃ entry after,
              overlay.mkdir host path (base.facts digests path) parent ino = (.ok entry, after)
              ∧ Creation digests base overlay.core path .directory .none none overlay.files
                  overlay.nextContentId entry after
              ∧ (overlay.Indexed → after.Indexed)) := by
  unfold Overlay.mkdir Overlay.attemptMkdir
  have checks := creatable_iff overlay truthful
  split
  · rename_i refusal failed
    exact Or.inl ⟨refusal, rfl, fun both => by rw [checks.mpr both] at failed; cases failed⟩
  · rename_i passed
    have creatable := checks.mp passed
    obtain ⟨accepted, parentUsable, vacant⟩ := checks.mp passed
    have formed := wellFormed_of_pathCondition accepted nonroot
    refine Or.inr ⟨creatable, _, _, rfl, ?_⟩
    exact ⟨⟨⟨formed, rfl, rfl, vacant, sound.placed.underDirectories nonroot parentUsable,
      rfl, rfl, rfl, Shaped.ofDirectory rfl rfl rfl⟩, rfl, rfl, rfl,
      (create_commit (by exact sound) truthful nonroot rfl formed).1⟩,
      fun tidy =>
        (create_commit (by exact sound) truthful nonroot rfl formed).2 (tidy.congr rfl rfl)⟩

theorem symlink_spec {overlay : Overlay} {host : Timestamp} {path : BytePath}
    {target : Bytes} {parent : Parent} {ino : Nat} (sound : Sound digests base overlay.core)
    (truthful : parent.base = base.facts digests (parentOf path)) (nonroot : path ≠ [])
    : (∃ refusal,
        overlay.symlink host path target (base.facts digests path) parent ino
          = (.error refusal, overlay)
        ∧ ¬ (Creatable base overlay path ∧ Overlay.checkTarget target = .ok ()))
      ∨ (Creatable base overlay path
          ∧ Overlay.checkTarget target = .ok ()
          ∧ ∃ entry after,
              overlay.symlink host path target (base.facts digests path) parent ino
                = (.ok entry, after)
              ∧ Creation digests base overlay.core path .symlink .none (some target)
                  overlay.files overlay.nextContentId entry after
              ∧ (overlay.Indexed → after.Indexed)) := by
  unfold Overlay.symlink Overlay.attemptSymlink
  have checks
      : (do
          pathCondition path
          Overlay.checkTarget target
          overlay.checkCreate path (base.facts digests path) parent) = .ok ()
        ↔ Creatable base overlay path ∧ Overlay.checkTarget target = .ok () := by
    rw [checks_ok, checks_ok, checkCreate_ok truthful]
    exact ⟨fun all => ⟨⟨all.1, all.2.2⟩, all.2.1⟩, fun all => ⟨all.1.1, all.2, all.1.2⟩⟩
  split
  · rename_i refusal failed
    exact Or.inl ⟨refusal, rfl, fun both => by rw [checks.mpr both] at failed; cases failed⟩
  · rename_i passed
    have admitted := checks.mp passed
    obtain ⟨accepted, parentUsable, vacant⟩ := admitted.1
    have formed := wellFormed_of_pathCondition accepted nonroot
    refine Or.inr ⟨admitted.1, admitted.2, _, _, rfl, ?_⟩
    exact ⟨⟨⟨formed, rfl, rfl, vacant, sound.placed.underDirectories nonroot parentUsable,
      rfl, rfl, rfl, Shaped.ofSymlink rfl rfl rfl rfl⟩, rfl, rfl, rfl,
      (create_commit (by exact sound) truthful nonroot rfl formed).1⟩,
      fun tidy =>
        (create_commit (by exact sound) truthful nonroot rfl formed).2 (tidy.congr rfl rfl)⟩

end Gfs.Overlay
