import Gfs.Overlay.Refinement

/-! Runs of the overlay under a truthful caller. A request is one call of the overlay with
the base facts the FUSE layer resolved for it; it comes to at most one step that changes the
tree, followed by quiet ones.
-/

namespace Gfs.Overlay

open Gfs.Types
open Gfs.Lib.Runs
open Std (ExtTreeMap ExtTreeSet)

variable {digests : Digests} {base : BaseTree} {overlay : Overlay}

-- Requests

/-- The path of something below the root. -/
abbrev Named := { path : BytePath // path ≠ [] }

/-- A call of the overlay, without what the caller fills in from the base. -/
inductive Call where
  | createFile (path : Named) (executable : Bool)
  | mkdir (path : Named)
  | symlink (path : Named) (target : Bytes)
  | materialize (path : BytePath) (source : Option Bytes)
  | writeAt (path : BytePath) (offset : Nat) (data : Bytes)
  | truncate (path : BytePath) (size : Nat)
  | settleContent (contentId : Nat)
  | adopt (path : BytePath)
  | setExecutable (path : BytePath) (executable : Bool)
  | setTimes (path : BytePath) (mtime : Option Timestamp)
  | referenceBase (contentId : Nat) (hashed : OverlayEntry) (oid : ObjectId)
  | remove (path : BytePath) (expectDir : Bool)
  | rename (source target : BytePath) (noReplace : Bool)
  deriving DecidableEq, Repr

/-- A call with the inode numbers the caller knows and the clock's readings. -/
structure Request where
  call : Call
  ino : Nat
  parentIno : Nat
  targetParentIno : Nat
  host : Timestamp
  later : Timestamp
  deriving DecidableEq, Repr

/-- The parent the caller resolved for a path. -/
def parentAt (digests : Digests) (base : BaseTree) (path : BytePath) (ino : Nat) : Parent where
  ino
  base := base.facts digests (parentOf path)

/-- The overlay after a request, refused or not. -/
def Request.apply (digests : Digests) (base : BaseTree) (overlay : Overlay)
    (request : Request)
    : Overlay :=
  let facts := base.facts digests
  match request.call with
  | .createFile path executable =>
      (overlay.createFile request.host path (facts path)
        (parentAt digests base path request.parentIno) request.ino executable).2
  | .mkdir path =>
      (overlay.mkdir request.host path (facts path)
        (parentAt digests base path request.parentIno) request.ino).2
  | .symlink path target =>
      (overlay.symlink request.host path target (facts path)
        (parentAt digests base path request.parentIno) request.ino).2
  | .materialize path source =>
      (overlay.materialize request.host path (facts path) request.ino source).2
  | .writeAt path offset data => (overlay.writeAt request.host path offset data).2
  | .truncate path size => (overlay.truncate request.host path size).2
  | .settleContent contentId => (overlay.settleContent contentId).2
  | .adopt path => (overlay.adopt request.host path (facts path) request.ino).2
  | .setExecutable path executable =>
      (overlay.setExecutable request.host request.later path (facts path) request.ino
        executable).2
  | .setTimes path mtime =>
      (overlay.setTimes request.host request.later path (facts path) request.ino mtime).2
  | .referenceBase contentId hashed oid => (overlay.referenceBase contentId hashed oid).2
  | .remove path expectDir =>
      (overlay.remove request.host request.later path (facts path)
        (parentAt digests base path request.parentIno) expectDir
        (overlay.mergedDirIsEmpty path (base.childNames path))).2
  | .rename source target noReplace =>
      (overlay.rename request.host source request.ino (facts source)
        (parentAt digests base source request.parentIno) target (facts target)
        (parentAt digests base target request.targetParentIno)
        (base.descendants digests source)
        (overlay.mergedDirIsEmpty target (base.childNames target)) noReplace).2

/-- What a call does to the tree, if it is not refused. -/
def Call.effect : Call → Effect
  | .createFile path executable => .create path (if executable then .executable else .regular)
  | .mkdir path => .create path .directory
  | .symlink path _ => .create path .symlink
  | .remove path _ => .depart path
  | .rename source target _ => .relocate source target
  | _ => .quiet

-- Steps of a request

/-- Any number of steps that leave the tree alone. -/
def Quiet (digests : Digests) (base : BaseTree) : Core → Core → Prop :=
  Relation.ReflTransGen (Step digests base .quiet)

theorem Touches.quiet {core core' : Core} (touches : Touches digests base core core')
    : Quiet digests base core core' := by
  rcases touches.step with rfl | step
  · exact .refl
  · exact .single step

theorem Quiet.preserves {holds : Core → Prop} {core core' : Core}
    (quiet : Quiet digests base core core') (sound : Sound digests base core)
    (kept
      : ∀ core core', Sound digests base core → holds core
          → Step digests base .quiet core core' → holds core')
    (before : holds core)
    : Sound digests base core' ∧ holds core' := by
  induction quiet with
  | refl => exact ⟨sound, before⟩
  | tail _ step ih => exact ⟨step.sound ih.1, kept _ _ ih.1 ih.2 step⟩

/-- The core a request leaves: unchanged in its tree, or changed by the call's effect first. -/
def Performs (digests : Digests) (base : BaseTree) (effect : Effect) (core core' : Core)
    : Prop :=
  Quiet digests base core core'
  ∨ ∃ mid, Step digests base effect core mid ∧ Quiet digests base mid core'

theorem Creation.performs {path : BytePath} {kind : OverlayKind} {target : Option Bytes}
    {entry : OverlayEntry} {after : Overlay} {core : Core}
    (creation
      : Creation digests base core path kind .none target core.files core.next entry after)
    : Performs digests base (.create path kind) core after.core := by
  refine Or.inr ⟨_, ?_, creation.touches.quiet⟩
  rw [← creation.kind]
  exact .create creation.created creation.content

/-- Every request of a truthful caller performs its call's effect and keeps the index exact. -/
theorem Request.performs (request : Request) (sound : Sound digests base overlay.core)
    (indexed : overlay.Indexed)
    : Performs digests base request.call.effect overlay.core
          (request.apply digests base overlay).core
      ∧ (request.apply digests base overlay).Indexed := by
  have unchanged (effect : Effect)
      : Performs digests base effect overlay.core overlay.core := Or.inl .refl
  unfold Request.apply
  cases request.call with
  | createFile path executable =>
      rcases @createFile_spec digests base overlay request.host path
          (parentAt digests base path request.parentIno) request.ino executable sound rfl
          path.2 with
        ⟨refusal, result, -⟩ | ⟨-, -, entry, after, result, creation, tidy⟩
      · simp only [result]
        exact ⟨unchanged _, indexed⟩
      · simp only [result]
        refine ⟨Or.inr ⟨_, ?_, creation.touches.quiet⟩, tidy indexed⟩
        rw [Call.effect, ← creation.kind]
        exact .createFile creation.created creation.content
  | mkdir path =>
      rcases @mkdir_spec digests base overlay request.host path
          (parentAt digests base path request.parentIno) request.ino sound rfl path.2 with
        ⟨refusal, result, -⟩ | ⟨-, entry, after, result, creation, tidy⟩
      · simp only [result]
        exact ⟨unchanged _, indexed⟩
      · simp only [result]
        exact ⟨creation.performs, tidy indexed⟩
  | symlink path target =>
      rcases @symlink_spec digests base overlay request.host path target
          (parentAt digests base path request.parentIno) request.ino sound rfl path.2 with
        ⟨refusal, result, -⟩ | ⟨-, -, entry, after, result, creation, tidy⟩
      · simp only [result]
        exact ⟨unchanged _, indexed⟩
      · simp only [result]
        exact ⟨creation.performs, tidy indexed⟩
  | materialize path source =>
      rcases @materialize_spec digests base overlay request.host path request.ino source
          sound with
        ⟨refusal, after, next, result, later, core, tidy, -⟩
        | ⟨entry, result, -⟩
        | ⟨old, entry, after, result, copied, -, -, tidy⟩
      · simp only [result, core]
        exact ⟨Or.inl (.single (.idle later)), tidy indexed⟩
      · simp only [result]
        exact ⟨unchanged _, indexed⟩
      · simp only [result, copied.after]
        exact ⟨Or.inl (.single (.copyUp copied.formed copied.standing copied.revises
          copied.own copied.file copied.content)), tidy indexed⟩
  | writeAt path offset data =>
      rcases @writeAt_spec digests base overlay request.host path offset data sound with
        ⟨refusal, result, -⟩
        | ⟨old, entry, id, file, admitted, after, result, -, -, rewritten, tidy⟩
      · simp only [result]
        exact ⟨unchanged _, indexed⟩
      · simp only [result, rewritten.after]
        exact ⟨Or.inl (.single (.rewrite rewritten.found rewritten.present rewritten.revises
          rewritten.own rewritten.before rewritten.content)), tidy indexed⟩
  | truncate path size =>
      rcases @truncate_spec digests base overlay request.host path size sound with
        ⟨refusal, result, -⟩ | ⟨old, entry, id, file, after, result, -, rewritten, tidy⟩
      · simp only [result]
        exact ⟨unchanged _, indexed⟩
      · simp only [result, rewritten.after]
        exact ⟨Or.inl (.single (.rewrite rewritten.found rewritten.present rewritten.revises
          rewritten.own rewritten.before rewritten.content)), tidy indexed⟩
  | settleContent contentId =>
      obtain ⟨core, tidy⟩ := settleContent_spec contentId sound
      simp only [core]
      exact ⟨unchanged _, tidy indexed⟩
  | adopt path =>
      rcases adopt_spec request.host path request.ino sound with
        ⟨refusal, result, -⟩ | ⟨entry, after, result, -, -, -, -, touches, tidy⟩
      · simp only [result]
        exact ⟨unchanged _, indexed⟩
      · simp only [result]
        exact ⟨Or.inl touches.quiet, tidy indexed⟩
  | setExecutable path executable =>
      rcases @setExecutable_spec digests base overlay request.host request.later path
          request.ino executable sound with
        ⟨refusal, result, -⟩
        | ⟨adopted, entry, between, after, result, touches, found, present, -, changed, tidy⟩
      · simp only [result]
        exact ⟨unchanged _, indexed⟩
      · simp only [result]
        refine ⟨Or.inl ?_, tidy indexed⟩
        rcases changed with ⟨rfl, -⟩ | ⟨-, revises, own, formed, content, -, core⟩
        · exact touches.quiet
        · rw [core]
          exact touches.quiet.tail
            (.touch formed (.own found present) revises own content)
  | setTimes path mtime =>
      rcases setTimes_spec request.host request.later path request.ino mtime sound with
        same | ⟨between, first, second, tidy⟩
      · simp only [same]
        exact ⟨unchanged _, indexed⟩
      · exact ⟨Or.inl (first.quiet.trans second.quiet), tidy indexed⟩
  | referenceBase contentId hashed oid =>
      rcases referenceBase_spec contentId hashed oid sound with same | ⟨step, tidy⟩
      · simp only [same]
        exact ⟨unchanged _, indexed⟩
      · exact ⟨Or.inl (.single step), tidy indexed⟩
  | remove path expectDir =>
      rcases @remove_spec digests base overlay request.host request.later path
          (parentAt digests base path request.parentIno) expectDir sound indexed rfl _
          (fun _ => rfl) with
        ⟨refusal, result, -⟩ | ⟨-, after, mid, result, step, -, -, -, -, touches, tidy⟩
      · simp only [result]
        exact ⟨unchanged _, indexed⟩
      · simp only [result]
        exact ⟨Or.inr ⟨mid, step, touches.quiet⟩, tidy⟩
  | rename source target noReplace =>
      by_cases accepted : pathCondition source = .ok () ∧ pathCondition target = .ok ()
          ∧ source ≠ [] ∧ target ≠ [] ∧ source ≠ target
      · obtain ⟨acceptedSource, acceptedTarget, sourceRoot, targetRoot, distinct⟩ := accepted
        rcases @rename_spec digests base overlay request.host source target request.ino
            (parentAt digests base source request.parentIno)
            (parentAt digests base target request.targetParentIno) noReplace sound indexed
            rfl rfl ⟨acceptedSource, acceptedTarget, sourceRoot, targetRoot⟩ distinct with
          ⟨refusal, after, result, core, tidy, -⟩
          | ⟨-, -, after, mid, between, result, done⟩
        · simp only [result, core]
          exact ⟨unchanged _, tidy⟩
        · simp only [result]
          exact ⟨Or.inr ⟨mid, done.step, done.first.quiet.trans done.second.quiet⟩,
            done.indexed⟩
      · have idle := @rename_idle overlay request.host source target request.ino
          (base.facts digests source) (base.facts digests target)
          (parentAt digests base source request.parentIno)
          (parentAt digests base target request.targetParentIno)
          (base.descendants digests source)
          (overlay.mergedDirIsEmpty target (base.childNames target)) noReplace accepted
        simp only [idle]
        exact ⟨unchanged _, indexed⟩

-- Runs

/-- A run of requests: the overlay after each, its start first. -/
def runStates (digests : Digests) (base : BaseTree) (start : Overlay)
    (requests : List Request)
    : List Overlay :=
  states (Request.apply digests base) start requests

/-- Every request of the run has an effect that is safe in the state it meets. -/
def Safely (digests : Digests) (base : BaseTree) (safe : Core → Effect → Prop)
    (start : Overlay) (requests : List Request)
    : Prop :=
  Along (Request.apply digests base)
    (fun overlay request => safe overlay.core request.call.effect) start requests

instance (digests : Digests) (base : BaseTree) (safe : Core → Effect → Prop)
    [∀ core effect, Decidable (safe core effect)] (start : Overlay) (requests : List Request)
    : Decidable (Safely digests base safe start requests) :=
  inferInstanceAs (Decidable (Along _ _ _ _))

/-- What every safe step keeps holds in every state of a run that is safe throughout. -/
theorem Safely.invariant {holds : Core → Prop} {safe : Core → Effect → Prop}
    (calm : ∀ core, safe core .quiet)
    (kept
      : ∀ effect core core', Sound digests base core → holds core → safe core effect
          → Step digests base effect core core' → holds core')
    {start : Overlay} (sound : Sound digests base start.core) (indexed : start.Indexed)
    (initial : holds start.core) {requests : List Request}
    (safely : Safely digests base safe start requests)
    : ∀ state ∈ runStates digests base start requests,
        Sound digests base state.core ∧ state.Indexed ∧ holds state.core := by
  have quietly : ∀ core core', Sound digests base core → holds core
      → Step digests base .quiet core core' → holds core' :=
    fun core core' sound before step => kept _ _ _ sound before (calm core) step
  refine Lib.Runs.invariant ?_ (⟨sound, indexed, initial⟩
    : Sound digests base start.core ∧ start.Indexed ∧ holds start.core) safely
  intro state request before allowed
  obtain ⟨sound, indexed, before⟩ := before
  obtain ⟨performs, tidy⟩ := request.performs sound indexed
  rcases performs with quiet | ⟨mid, step, quiet⟩
  · obtain ⟨soundAfter, after⟩ := quiet.preserves sound quietly before
    exact ⟨soundAfter, tidy, after⟩
  · obtain ⟨soundAfter, after⟩ :=
      quiet.preserves (step.sound sound) quietly (kept _ _ _ sound before allowed step)
    exact ⟨soundAfter, tidy, after⟩

/-- A call with the epoch for the clock and the root's inode number for all. -/
def Call.plain (call : Call) : Request where
  call
  ino := 1
  parentIno := 1
  targetParentIno := 1
  host := ⟨0, 0⟩
  later := ⟨0, 0⟩

end Gfs.Overlay
