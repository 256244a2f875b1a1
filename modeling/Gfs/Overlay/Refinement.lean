import Gfs.Overlay.Reference

/-! The overlay refines the reference model: whatever operations are applied to both, they
succeed alike and the merged view is the model's map.
-/

namespace Gfs.Overlay

open Gfs.Types
open Gfs.Lib.Runs
open Std (ExtTreeMap ExtTreeSet)

variable {digests : Digests} {base : BaseTree} {overlay : Overlay} {model : Model}

-- What the caller keeps to

/-- A path a name can be made at: one the overlay's path check admits, and not the root. -/
def Nameable (path : BytePath) : Prop :=
  pathCondition path = .ok () ∧ path ≠ []

/-- The quota has room for a copy of the file at the path, for what the base declares there,
and for this many bytes more.
-/
def RoomFor (digests : Digests) (base : BaseTree) (overlay : Overlay) (path : BytePath)
    (size : Nat)
    : Prop :=
  overlay.localBytes
    + (view digests overlay base path).elim 0 (·.content.length)
    + (base.facts digests path).elim 0 BaseFacts.size
    + size
  ≤ overlay.config.quotaBytes

/-- The operation is one the overlay does not refuse for its own reasons: the quota and the
rename limit are ample, paths and symlink targets pass the overlay's checks, and a write of
nothing does not start past the end of the file.
-/
def Op.Ample (digests : Digests) (base : BaseTree) (overlay : Overlay) : Op → Prop
  | .createFile path => Nameable path ∧ Roomy overlay 0
  | .mkdir path => Nameable path
  | .symlink path target => Nameable path ∧ Overlay.checkTarget target = .ok ()
  | .write path offset data =>
      pathCondition path = .ok ()
      ∧ RoomFor digests base overlay path (offset + data.length)
      ∧ (data = []
          → offset ≤ (view digests overlay base path).elim offset (·.content.length))
  | .truncate path size =>
      pathCondition path = .ok () ∧ RoomFor digests base overlay path size
  | .setExecutable path _ => pathCondition path = .ok ()
  | .unlink _ | .rmdir _ => True
  | .rename source target =>
      Nameable source ∧ Nameable target ∧ WithinLimit digests base overlay source

instance (path : BytePath) : Decidable (Nameable path) :=
  inferInstanceAs (Decidable (_ ∧ _))

instance (digests : Digests) (base : BaseTree) (overlay : Overlay) (path : BytePath)
    (size : Nat)
    : Decidable (RoomFor digests base overlay path size) :=
  inferInstanceAs (Decidable (_ ≤ _))

instance (digests : Digests) (base : BaseTree) (overlay : Overlay)
    : (op : Op) → Decidable (op.Ample digests base overlay)
  | .createFile _ => inferInstanceAs (Decidable (_ ∧ _))
  | .mkdir path => inferInstanceAs (Decidable (Nameable path))
  | .symlink _ _ => inferInstanceAs (Decidable (_ ∧ _))
  | .write _ _ _ => inferInstanceAs (Decidable (_ ∧ _ ∧ (_ → _)))
  | .truncate _ _ => inferInstanceAs (Decidable (_ ∧ _))
  | .setExecutable _ _ => inferInstanceAs (Decidable (_ = _))
  | .unlink _ => inferInstanceAs (Decidable True)
  | .rmdir _ => inferInstanceAs (Decidable True)
  | .rename _ _ => inferInstanceAs (Decidable (_ ∧ _ ∧ (_ → _)))

-- The relation

/-- The overlay's rows are sound and show the model's map. -/
structure Refines (digests : Digests) (base : BaseTree) (overlay : Overlay) (model : Model)
    : Prop where
  sound : Sound digests base overlay.core
  indexed : overlay.Indexed
  shows : overlay.core.view digests base = model.shown

/-- Both sides refused and the model stays, or both went through. -/
def Agrees (digests : Digests) (base : BaseTree) (model : Model)
    (result : Except Condition Unit × Overlay) (expected : Except Condition Model)
    : Prop :=
  (∃ refusal reason,
    result.1 = .error refusal ∧ expected = .error reason
    ∧ Refines digests base result.2 model)
  ∨ (∃ model',
      result.1 = .ok () ∧ expected = .ok model' ∧ Refines digests base result.2 model')

namespace Refines

theorem kind (refines : Refines digests base overlay model) (path : BytePath)
    : (model.shown path).map Node.kind = kindAt base overlay.entries path := by
  rw [← refines.shows, ← view_eq_core, view_kind]

theorem eq_none_iff (refines : Refines digests base overlay model) {path : BytePath}
    : model.shown path = none ↔ kindAt base overlay.entries path = none := by
  rw [← refines.kind, Option.map_eq_none_iff]

theorem mergedView_eq (refines : Refines digests base overlay model)
    : mergedView digests overlay base = model.live := by
  refine ExtTreeMap.ext_getElem? (fun path => ?_)
  rw [getElem?_mergedView refines.sound refines.indexed, view_eq_core, refines.shows]
  rfl

theorem isEmptyDir_iff (refines : Refines digests base overlay model) {dir : BytePath}
    (isDir : IsDirPath dir)
    : model.isEmptyDir dir = true
      ↔ ∀ below, dir ∈ ancestorsOf below → kindAt base overlay.entries below = none := by
  have shows {path : BytePath} (some_ : (model.shown path).isSome = true)
      : ∃ kind, kindAt base overlay.core.rows path = some kind := by
    obtain ⟨node, found⟩ := Option.isSome_iff_exists.mp some_
    exact ⟨node.kind, by simp only [Overlay.core]; rw [← refines.kind, found]; rfl⟩
  rw [Model.isEmptyDir_iff isDir]
  · exact forall_congr' fun below => imp_congr_right fun _ => refines.eq_none_iff
  · intro path node found
    obtain ⟨kind, shown⟩ := shows (by rw [found]; rfl)
    exact refines.sound.formed_of_shows shown
  · intro path above some_ member nonroot
    obtain ⟨kind, shown⟩ := shows some_
    have directory := refines.sound.placed.kindAt_ancestor shown member nonroot
    rw [← Option.isSome_map, refines.kind,
      show kindAt base overlay.entries above = some .directory from directory]
    rfl

end Refines

-- Creating

variable {path : BytePath} {kind : OverlayKind} {entry : OverlayEntry}

theorem Refines.creatable_iff (refines : Refines digests base overlay model)
    (nameable : Nameable path)
    : Creatable base overlay path
      ↔ (parentOf path = []
          ∨ (model.shown (parentOf path)).map Node.kind = some .directory)
        ∧ model.shown path = none := by
  rw [Creatable, refines.kind, refines.eq_none_iff]
  exact and_iff_right nameable.1

theorem Creation.stores {core : Core} {target : Option Bytes} {after : Overlay}
    (creation
      : Creation digests base core path kind .none target core.files core.next entry after)
    : Stores core path entry core.files core.next :=
  Stores.blank (by rw [creation.content]; rfl)

/-- What a creation of the overlay and of the model come to when the new rows are sound and
the new view is the model's.
-/
theorem Creation.refines {content : Content} {target : Option Bytes}
    {files : ExtTreeMap Nat Bytes compare} {next : Nat} {after : Overlay} {node : Node}
    (distinct : base.Distinct digests) (before : Refines digests base overlay model)
    (creation
      : Creation digests base overlay.core path kind content target files next entry after)
    (stores : Stores overlay.core path entry files next)
    (shown
      : Core.node digests base ⟨overlay.entries.insert path entry, files, next⟩ entry = node)
    (indexed : after.Indexed)
    : Refines digests base after ⟨model.live.insert path node⟩ where
  sound := by
    have created := creation.created
    exact creation.touches.sound
      (before.sound.put created.formed created.own created.present (Or.inr created.facts)
        created.shaped (created.placed before.sound.placed before.sound.keyed) stores)
  indexed := indexed
  shows := by
    rw [creation.view_eq distinct before.sound stores, before.shows, Model.shown_insert]
    exact congrArg (fun node => Function.update model.shown path (some node)) shown

/-- A creation the overlay admits exactly where the model does, with the model's new node to
show for it, agrees with the model's.
-/
theorem Refines.insertNew_agrees (refines : Refines digests base overlay model)
    (nameable : Nameable path) {node : Node} {result : Except Condition OverlayEntry × Overlay}
    (outcome
      : (∃ refusal, result = (.error refusal, overlay) ∧ ¬ Creatable base overlay path)
        ∨ (Creatable base overlay path
            ∧ ∃ entry after, result = (.ok entry, after)
                ∧ Refines digests base after ⟨model.live.insert path node⟩))
    : Agrees digests base model (result.1.map (fun _ => ()), result.2)
        (model.insertNew path node) := by
  have creatable := refines.creatable_iff nameable
  rcases outcome with ⟨refusal, rfl, reason⟩ | ⟨admitted, entry, after, rfl, arrived⟩
  · rcases Model.insertNew_spec model path node with ⟨why, refused, -⟩ | ⟨free, -⟩
    · exact Or.inl ⟨refusal, why, rfl, refused, refines⟩
    · exact absurd (creatable.mpr free) reason
  · rcases Model.insertNew_spec model path node with ⟨-, -, taken⟩ | ⟨-, inserted⟩
    · exact absurd (creatable.mp admitted) taken
    · exact Or.inr ⟨_, rfl, inserted, arrived⟩

theorem createFile_agrees (distinct : base.Distinct digests)
    (refines : Refines digests base overlay model)
    (ample : (Op.createFile path).Ample digests base overlay) (host later : Timestamp)
    : Agrees digests base model
        ((Op.createFile path).applyToOverlay digests base overlay host later)
        ((Op.createFile path).applyToModel model) := by
  obtain ⟨nameable, roomy⟩ := ample
  refine refines.insertNew_agrees nameable ?_
  rcases @createFile_spec digests base overlay host path (parentFor digests base path)
      (inoFor path) false refines.sound rfl nameable.2 with
    ⟨refusal, result, reason⟩ | ⟨admitted, -, entry, after, result, creation, tidy⟩
  · refine Or.inl ⟨refusal, result, fun creatable => ?_⟩
    exact reason ⟨creatable, checkQuota_ok.mpr roomy⟩
  · refine Or.inr ⟨admitted, entry, after, result, ?_⟩
    refine creation.refines distinct refines
      (Stores.fresh refines.sound creation.content []) ?_ (tidy refines.indexed)
    simp [Core.node, creation.kind, creation.content]

theorem mkdir_agrees (distinct : base.Distinct digests)
    (refines : Refines digests base overlay model)
    (ample : (Op.mkdir path).Ample digests base overlay) (host later : Timestamp)
    : Agrees digests base model
        ((Op.mkdir path).applyToOverlay digests base overlay host later)
        ((Op.mkdir path).applyToModel model) := by
  have nameable : Nameable path := ample
  refine refines.insertNew_agrees nameable ?_
  rcases @mkdir_spec digests base overlay host path (parentFor digests base path)
      (inoFor path) refines.sound rfl nameable.2 with
    refused | ⟨admitted, entry, after, result, creation, tidy⟩
  · exact Or.inl refused
  · refine Or.inr ⟨admitted, entry, after, result, ?_⟩
    refine creation.refines distinct refines creation.stores ?_ (tidy refines.indexed)
    simp [Core.node, creation.kind, creation.content, creation.target]

theorem symlink_agrees (distinct : base.Distinct digests)
    (refines : Refines digests base overlay model) {target : Bytes}
    (ample : (Op.symlink path target).Ample digests base overlay) (host later : Timestamp)
    : Agrees digests base model
        ((Op.symlink path target).applyToOverlay digests base overlay host later)
        ((Op.symlink path target).applyToModel model) := by
  obtain ⟨nameable, accepted⟩ := ample
  refine refines.insertNew_agrees nameable ?_
  rcases @symlink_spec digests base overlay host path target (parentFor digests base path)
      (inoFor path) refines.sound rfl nameable.2 with
    ⟨refusal, result, reason⟩ | ⟨admitted, -, entry, after, result, creation, tidy⟩
  · exact Or.inl ⟨refusal, result, fun creatable => reason ⟨creatable, accepted⟩⟩
  · refine Or.inr ⟨admitted, entry, after, result, ?_⟩
    refine creation.refines distinct refines creation.stores ?_ (tidy refines.indexed)
    simp [Core.node, creation.kind, creation.content, creation.target]

-- Copying up

theorem copyUpBytes_inr {bytes : Bytes} (sound : Sound digests base overlay.core)
    (copies : copyUpBytes digests base overlay path = .inr bytes)
    (shows : kindAt base overlay.entries path = some kind) (file : kind.isFile = true)
    : overlay.core.view digests base path = some ⟨kind, bytes⟩
      ∧ ∀ entry, overlay.entries[path]? = some entry → entry.content.localId = none := by
  unfold copyUpBytes at copies
  rcases kindAt_eq_some.mp shows with ⟨entry, resolved, rfl⟩ | ⟨resolved, node, listed, rfl⟩
  · obtain ⟨-, found, present⟩ := resolve_eq_overlay.mp resolved
    have shaped := sound.shaped path entry found present
    have resolvedCore : resolve overlay.core.rows path = .overlay entry := resolved
    simp only [resolved, OverlayKind.isDir_of_isFile file] at copies
    split at copies
    · cases copies
    · rename_i remote
      rw [if_neg Bool.false_ne_true] at copies
      refine ⟨?_, fun row held => by rw [found] at held; cases held; simpa using remote⟩
      cases content : entry.content with
      | none => exact absurd content (shaped.file file).2
      | «local» id => simp [content, Content.localId] at remote
      | base oid =>
          simp only [content, Sum.inr.injEq] at copies
          simp [Core.view, lookup, resolvedCore, Core.node, content, copies]
  · obtain ⟨-, missing, -⟩ := resolve_eq_base.mp resolved
    obtain ⟨raw, got, held⟩ := Option.bind_eq_some_iff.mp listed
    obtain ⟨kind, kinds, rfl⟩ := Option.map_eq_some_iff.mp held
    have resolvedCore : resolve overlay.core.rows path = .base := resolved
    simp only [resolved, got] at copies
    split at copies
    · cases copies
    · cases copies
      refine ⟨by simp [Core.view, lookup, resolvedCore, listed], ?_⟩
      intro row held
      rw [missing] at held
      cases held

/-- A path with nothing to copy shows no file, or one that has its copy already. -/
theorem copyUpBytes_inl {answer : Except Condition Unit}
    (copies : copyUpBytes digests base overlay path = .inl answer)
    : (∃ refusal, answer = .error refusal
        ∧ ∀ kind, kindAt base overlay.entries path = some kind → kind.isFile = false)
      ∨ (answer = .ok ()
          ∧ ∃ entry, overlay.entries[path]? = some entry ∧ entry.present = true
              ∧ entry.content.localId.isSome = true) := by
  unfold copyUpBytes at copies
  cases resolved : resolve overlay.entries path with
  | absent =>
      simp only [resolved, Sum.inl.injEq] at copies
      exact Or.inl ⟨_, copies.symm, by simp [kindAt, lookup, resolved]⟩
  | overlay entry =>
      obtain ⟨-, found, present⟩ := resolve_eq_overlay.mp resolved
      simp only [resolved] at copies
      split at copies
      · rename_i localContent
        simp only [Sum.inl.injEq] at copies
        exact Or.inr ⟨copies.symm, entry, found, present, localContent⟩
      · split at copies
        · rename_i directory
          simp only [Sum.inl.injEq] at copies
          refine Or.inl ⟨_, copies.symm, fun kind shows => ?_⟩
          simp only [kindAt, lookup, resolved, Option.some.injEq] at shows
          rw [← shows, OverlayKind.isDir_iff.mp directory]
          rfl
        · split at copies <;> cases copies
  | base =>
      simp only [resolved] at copies
      cases got : base.get path with
      | none =>
          simp only [got, Sum.inl.injEq] at copies
          exact Or.inl ⟨_, copies.symm, by simp [kindAt, lookup, resolved, BaseTree.node, got]⟩
      | some node =>
          simp only [got] at copies
          split at copies
          · rename_i directory
            simp only [Sum.inl.injEq] at copies
            refine Or.inl ⟨_, copies.symm, fun kind shows => ?_⟩
            simp only [kindAt, lookup, resolved, BaseTree.node, got, Option.bind_some,
              Node.ofBase, directory, OverlayKind.fromEntryKind, Option.map_some,
              Option.some.injEq] at shows
            rw [← shows]
            rfl
          · cases copies

theorem Shaped.isFile_of_local {id : Nat} (shaped : Shaped digests base entry)
    (content : entry.content = .local id)
    : entry.kind.isFile = true := by
  refine OverlayKind.isFile_of_ne (fun directory => ?_) (fun link => ?_)
  · rw [(shaped.directory (OverlayKind.isDir_iff.mp directory)).1] at content
    cases content
  · have remote := (shaped.link link).1
    rw [content] at remote
    cases remote

theorem Sound.idle {core : Core} (sound : Sound digests base core) {next : Nat}
    (later : core.next ≤ next)
    : Sound digests base { core with next } :=
  Step.sound (.idle later) sound

/-- The file at a path, ready to be written: its row has a content file that holds what the
view shows, and there is room for so many bytes more.
-/
structure Writable (digests : Digests) (base : BaseTree) (before : Overlay)
    (path : BytePath) (size : Nat) (old : OverlayEntry) (id : Nat) (file : Bytes)
    (after : Overlay)
    : Prop where
  sound : Sound digests base after.core
  indexed : after.Indexed
  unmoved : after.core.view digests base = before.core.view digests base
  found : after.entries[path]? = some old
  present : old.present = true
  content : old.content = .local id
  stored : after.files[id]? = some file
  kind : old.kind.isFile = true
  shown : before.core.view digests base path = some ⟨old.kind, file⟩
  room : after.localBytes + size ≤ after.config.quotaBytes

/-- A row with local content is ready as it stands. -/
theorem Writable.already {size : Nat} (sound : Sound digests base overlay.core)
    (indexed : overlay.Indexed) (found : overlay.entries[path]? = some entry)
    (present : entry.present = true) (localContent : entry.content.localId.isSome = true)
    (room : overlay.localBytes + size ≤ overlay.config.quotaBytes)
    : ∃ id file, Writable digests base overlay path size entry id file overlay := by
  obtain ⟨id, known⟩ := Option.isSome_iff_exists.mp localContent
  have content := localId_eq_some.mp known
  obtain ⟨file, stored⟩ :=
    Option.isSome_iff_exists.mp (sound.held path entry id found content).1
  have resolved : resolve overlay.core.rows path = .overlay entry :=
    sound.placed.resolve sound.keyed found present
  exact ⟨id, file, {
    sound
    indexed
    unmoved := rfl
    found
    present
    content
    stored
    kind := (sound.shaped path entry found present).isFile_of_local content
    shown := by
      simp [Core.view, lookup, resolved, Core.node, content, stored]
    room
  }⟩

/-- A copy-up is refused only where the view shows no file, and leaves the view alone;
otherwise the file can be written.
-/
theorem copyUp_spec {size : Nat} (sound : Sound digests base overlay.core)
    (indexed : overlay.Indexed) (accepted : pathCondition path = .ok ())
    (room : RoomFor digests base overlay path size) (host : Timestamp) (ino : Nat)
    : (∃ refusal after,
        copyUp digests base overlay host path ino = (.error refusal, after)
        ∧ Sound digests base after.core
        ∧ after.Indexed
        ∧ after.core.view digests base = overlay.core.view digests base
        ∧ ∀ kind, kindAt base overlay.entries path = some kind → kind.isFile = false)
      ∨ (∃ old id file after,
          copyUp digests base overlay host path ino = (.ok (), after)
          ∧ Writable digests base overlay path size old id file after) := by
  unfold RoomFor at room
  unfold copyUp
  cases copies : copyUpBytes digests base overlay path with
  | inl answer =>
      rcases copyUpBytes_inl copies with
        ⟨refusal, rfl, noFile⟩ | ⟨rfl, entry, found, present, localContent⟩
      · exact Or.inl ⟨refusal, overlay, rfl, sound, indexed, rfl, noFile⟩
      · obtain ⟨id, file, writable⟩ :=
          Writable.already sound indexed found present localContent
            (show overlay.localBytes + size ≤ _ by omega)
        exact Or.inr ⟨entry, id, file, overlay, rfl, writable⟩
  | inr bytes =>
      simp only
      rcases @materialize_spec digests base overlay host path ino (some bytes) sound with
        ⟨refusal, after, next, result, later, core, tidy, reason⟩
        | ⟨entry, result, found, present, localContent⟩
        | ⟨old, entry, after, result, copied, config, account, tidy⟩
      · rw [result]
        refine Or.inl ⟨refusal, after, rfl, ?_, tidy indexed, ?_, ?_⟩
        · rw [core]
          exact sound.idle later
        · rw [core]
          rfl
        · intro kind shows
          cases file : kind.isFile with
          | false => rfl
          | true =>
              exfalso
              refine reason accepted ⟨kind, shows, file⟩ ?_
              have held : view digests overlay base path = some ⟨kind, bytes⟩ := by
                rw [view_eq_core]
                exact (copyUpBytes_inr sound copies shows file).1
              simp only [held, Option.elim_some] at room
              refine ⟨?_, ?_, ?_⟩
              · simp only [Roomy, saturatingAdd, Option.getD_some]
                omega
              · simp only [Roomy, saturatingAdd]
                omega
              · intro facts known
                simp only [known, Option.elim_some] at room
                simp only [Roomy, saturatingAdd]
                omega
      · rw [result]
        obtain ⟨id, file, writable⟩ :=
          Writable.already sound indexed found present localContent
            (show overlay.localBytes + size ≤ _ by omega)
        exact Or.inr ⟨entry, id, file, overlay, rfl, writable⟩
      · rw [result]
        have shows := copied.standing.shows sound.placed sound.keyed
        have shown := (copyUpBytes_inr sound copies shows copied.file).1
        have held : view digests overlay base path = some ⟨old.kind, bytes⟩ := by
          rw [view_eq_core]
          exact shown
        simp only [held, Option.elim_some] at room
        simp only [Option.getD_some] at account
        refine Or.inr ⟨entry, overlay.nextContentId, bytes, after, rfl, ?_⟩
        have stepped : Step digests base .quiet overlay.core after.core := by
          rw [copied.after]
          exact .copyUp copied.formed copied.standing copied.revises copied.own copied.file
            copied.content
        have rows : after.entries = overlay.entries.insert path entry :=
          congrArg Core.rows copied.after
        have files : after.files = overlay.files.insert overlay.nextContentId bytes :=
          congrArg Core.files copied.after
        exact {
          sound := stepped.sound sound
          indexed := tidy indexed
          unmoved := by
            rw [copied.view_eq sound, Option.getD_some, ← shown, Function.update_eq_self]
          found := by rw [rows, getElem?_insert_self]
          present := copied.revises.present
          content := copied.content
          stored := by simp [files]
          kind := copied.kind ▸ copied.file
          shown := by rw [copied.kind]; exact shown
          room := by
            rw [config]
            omega
        }

-- Writing

/-- A file whose bytes were rewritten shows what the model's edit makes of them. -/
theorem Writable.edited {size : Nat} {old row : OverlayEntry} {id other : Nat}
    {file stored bytes : Bytes} {ready after : Overlay}
    (refines : Refines digests base overlay model)
    (writable : Writable digests base overlay path size old id file ready)
    (found : ready.files[other]? = some stored) (edit : Bytes → Bytes) (edits : bytes = edit stored)
    (rewritten : Rewritten ready.core path other bytes row entry after.core)
    (indexed : after.Indexed)
    : Refines digests base after ⟨model.live.insert path ⟨old.kind, edit file⟩⟩ := by
  have same : old = row :=
    Option.some.inj (writable.found.symm.trans rewritten.found)
  subst same
  have sameId : id = other := by
    have equal := writable.content.symm.trans rewritten.before
    cases equal
    rfl
  subst sameId
  have sameFile : file = stored := Option.some.inj (writable.stored.symm.trans found)
  subst sameFile
  have stepped : Step digests base .quiet ready.core after.core := by
    rw [rewritten.after]
    exact .rewrite rewritten.found rewritten.present rewritten.revises rewritten.own
      rewritten.before rewritten.content
  refine ⟨stepped.sound writable.sound, indexed, ?_⟩
  rw [rewritten.view_eq writable.sound, writable.unmoved, refines.shows, edits,
    Model.shown_insert]

/-- An edit by copy-up and rewrite agrees with the model's edit of the same bytes. -/
theorem Refines.edit_agrees (refines : Refines digests base overlay model) {path : BytePath}
    {size : Nat} {edit : Bytes → Bytes} (accepted : pathCondition path = .ok ())
    (room : RoomFor digests base overlay path size) (host : Timestamp) (ino : Nat)
    {rewrite : Overlay → Except Condition Unit × Overlay}
    (rewrites
      : ∀ old id file ready,
          Writable digests base overlay path size old id file ready
          → ∃ after,
              rewrite ready = (.ok (), after)
              ∧ Refines digests base after ⟨model.live.insert path ⟨old.kind, edit file⟩⟩)
    : Agrees digests base model
        (match copyUp digests base overlay host path ino with
          | (.error refusal, overlay) => (.error refusal, overlay)
          | (.ok (), overlay) => rewrite overlay)
        (model.editContent path edit) := by
  rcases copyUp_spec refines.sound refines.indexed accepted room host ino with
    ⟨refusal, after, result, sound, indexed, unmoved, noFile⟩
    | ⟨old, id, file, ready, result, writable⟩
  · rw [result]
    rcases Model.editContent_spec model path edit with ⟨why, refused, -⟩ | ⟨node, found, file, -⟩
    · exact Or.inl ⟨refusal, why, rfl, refused, sound, indexed, unmoved.trans refines.shows⟩
    · have kinds := refines.kind path
      rw [found, Option.map_some] at kinds
      rw [noFile node.kind kinds.symm] at file
      cases file
  · rw [result]
    have shown : model.shown path = some ⟨old.kind, file⟩ := by
      rw [← refines.shows]
      exact writable.shown
    rcases Model.editContent_spec model path edit with
      ⟨-, -, noFile⟩ | ⟨node, found, -, edited⟩
    · have isFile := writable.kind
      rw [noFile _ shown] at isFile
      cases isFile
    · rw [shown] at found
      cases found
      obtain ⟨after, wrote, arrived⟩ := rewrites old id file ready writable
      simp only [wrote]
      exact Or.inr ⟨_, rfl, edited, arrived⟩

theorem write_agrees (refines : Refines digests base overlay model) {offset : Nat} {data : Bytes}
    (ample : (Op.write path offset data).Ample digests base overlay) (host later : Timestamp)
    : Agrees digests base model
        ((Op.write path offset data).applyToOverlay digests base overlay host later)
        ((Op.write path offset data).applyToModel model) := by
  obtain ⟨accepted, room, inside⟩ := ample
  refine refines.edit_agrees accepted room host (inoFor path) ?_
  intro old id file ready writable
  have fits {current : Nat}
      : saturatingAdd offset data.length - current
        ≤ ready.config.quotaBytes - ready.localBytes := by
    have spare := writable.room
    simp only [saturatingAdd]
    omega
  rcases @writeAt_spec digests base ready later path offset data writable.sound with
    ⟨refusal, -, reason⟩
    | ⟨row, entry, other, stored, admitted, after, result, found, whole, rewritten, tidy⟩
  · exact absurd fits (reason old id writable.found writable.present writable.content)
  · refine ⟨after, by rw [result]; rfl, ?_⟩
    have bytes : writeBytes stored offset admitted = Model.overwriteAt offset data stored := by
      have sameRow : old = row := Option.some.inj (writable.found.symm.trans rewritten.found)
      have sameId := writable.content.symm.trans ((congrArg _ sameRow).trans rewritten.before)
      cases sameId
      have sameFile : file = stored := Option.some.inj (writable.stored.symm.trans found)
      rw [whole fits, Model.overwriteAt_eq]
      intro empty
      have bound := inside empty
      rw [view_eq_core, writable.shown, sameFile] at bound
      exact bound
    exact writable.edited refines found (Model.overwriteAt offset data) bytes rewritten
      (tidy writable.indexed)

theorem truncate_agrees (refines : Refines digests base overlay model) {size : Nat}
    (ample : (Op.truncate path size).Ample digests base overlay) (host later : Timestamp)
    : Agrees digests base model
        ((Op.truncate path size).applyToOverlay digests base overlay host later)
        ((Op.truncate path size).applyToModel model) := by
  obtain ⟨accepted, room⟩ := ample
  refine @Refines.edit_agrees digests base overlay model refines path size (setLen · size)
    accepted room host (inoFor path)
    (fun ready => ((ready.truncate later path size).1.map (fun _ => ()),
      (ready.truncate later path size).2))
    ?_
  intro old id file ready writable
  rcases @truncate_spec digests base ready later path size writable.sound with
    ⟨refusal, -, reason⟩ | ⟨row, entry, other, stored, after, result, found, rewritten, tidy⟩
  · refine absurd ?_ (reason old id writable.found writable.present writable.content)
    have spare := writable.room
    simp only [Roomy, saturatingAdd]
    omega
  · refine ⟨after, by rw [result]; rfl, ?_⟩
    exact writable.edited refines found (setLen · size) rfl rewritten (tidy writable.indexed)

-- The executable bit

/-- The model's executable bit: a file's kind, and nothing else's. -/
theorem Model.setExecutable_spec {path : BytePath} (executable : Bool)
    : (model.shown path = none
        ∧ ∃ refusal, model.setExecutable path executable = .error refusal)
      ∨ (∃ node model',
          model.shown path = some node
          ∧ model.setExecutable path executable = .ok model'
          ∧ model'.shown
            = Function.update model.shown path
                (some
                  ⟨if node.kind.isFile then if executable then .executable else .regular
                    else node.kind, node.content⟩)) := by
  unfold Model.setExecutable Model.shown
  cases found : model.live[path]? with
  | none => exact Or.inl ⟨rfl, .noEntry, rfl⟩
  | some node =>
      right
      cases file : node.kind.isFile with
      | true =>
          refine ⟨node, _, rfl, if_pos file, ?_⟩
          simp only [file, ↓reduceIte]
          exact Model.shown_insert model.live path _
      | false =>
          refine ⟨node, model, rfl, by simp [file], ?_⟩
          simp only [file, Bool.false_eq_true, ↓reduceIte]
          rw [← found]
          exact (Function.update_eq_self path model.shown).symm

theorem setExecutable_agrees (distinct : base.Distinct digests)
    (refines : Refines digests base overlay model) {executable : Bool}
    (ample : (Op.setExecutable path executable).Ample digests base overlay) (host later : Timestamp)
    : Agrees digests base model
        ((Op.setExecutable path executable).applyToOverlay digests base overlay host later)
        ((Op.setExecutable path executable).applyToModel model) := by
  have accepted : pathCondition path = .ok () := ample
  have kinds := refines.kind path
  simp only [Op.applyToOverlay, Op.applyToModel]
  rcases @setExecutable_spec digests base overlay host later path (inoFor path) executable
      refines.sound with
    ⟨refusal, result, nothing⟩
    | ⟨adopted, entry, between, after, result, touches, found, present, shows, changed, tidy⟩
  · rw [result]
    rcases @Model.setExecutable_spec model path executable with
      ⟨-, why, refused⟩ | ⟨node, model', shown, -⟩
    · exact Or.inl ⟨refusal, why, rfl, refused, refines⟩
    · rw [shown, nothing accepted] at kinds
      cases kinds
  · rw [result]
    rcases @Model.setExecutable_spec model path executable with
      ⟨missing, -⟩ | ⟨node, model', shown, done, updated⟩
    · rw [missing, shows] at kinds
      cases kinds
    · refine Or.inr ⟨model', rfl, done, ?_⟩
      have kind : node.kind = adopted.kind := by
        rw [shown, shows] at kinds
        exact Option.some.inj kinds
      have betweenSound := touches.sound refines.sound
      have betweenShows : between.core.view digests base = model.shown :=
        (touches.view_eq distinct refines.sound).trans refines.shows
      rcases changed with
        ⟨rfl, already⟩ | ⟨file, revises, own, formed, content, wanted, core⟩
      · refine ⟨betweenSound, tidy refines.indexed, ?_⟩
        rw [betweenShows, updated]
        have same
            : (if node.kind.isFile then if executable then OverlayKind.executable else .regular
                else node.kind) = node.kind := by
          cases file : node.kind.isFile with
          | false => rfl
          | true =>
              rw [kind] at file ⊢
              simp only [↓reduceIte]
              exact (already file).symm
        rw [same, ← shown, Function.update_eq_self]
      · have standing : Standing digests base between.core.rows path adopted :=
          .own found present
        have stepped : Step digests base .quiet between.core after.core := by
          rw [core]
          exact .touch formed standing revises own content
        refine ⟨stepped.sound betweenSound, tidy refines.indexed, ?_⟩
        obtain ⟨bytes, before, viewed⟩ :=
          standing.view_touch distinct betweenSound revises formed own content
        have contents : node.content = bytes := by
          rw [betweenShows, shown] at before
          cases before
          rfl
        rw [core, updated, kind, file, contents]
        simp only [↓reduceIte]
        rw [← wanted, ← betweenShows]
        exact viewed

-- Removing

/-- A removal the model admits exactly where the overlay does agrees with it. -/
theorem Refines.remove_agrees (distinct : base.Distinct digests)
    (refines : Refines digests base overlay model) {expectDir empty : Bool}
    (asked : expectDir = true → empty = overlay.mergedDirIsEmpty path (base.childNames path))
    {expected : Except Condition Model}
    (admits
      : (Removable base overlay.entries path expectDir
          ∧ expected = .ok ⟨model.live.erase path⟩)
        ∨ (¬ Removable base overlay.entries path expectDir
            ∧ ∃ reason, expected = .error reason))
    (host later : Timestamp)
    : Agrees digests base model
        (overlay.remove host later path (base.facts digests path)
          (parentFor digests base path) expectDir empty)
        expected := by
  rcases @remove_spec digests base overlay host later path (parentFor digests base path)
      expectDir refines.sound refines.indexed rfl empty asked with
    ⟨refusal, result, refused⟩
    | ⟨removable, after, mid, result, step, formed, left, others, kept, touches, indexed⟩
  · rw [result]
    rcases admits with ⟨removable, -⟩ | ⟨-, reason, same⟩
    · exact absurd removable refused
    · exact Or.inl ⟨refusal, reason, rfl, same, refines⟩
  · rw [result]
    rcases admits with ⟨⟨kind, shows, isDir, bare⟩, same⟩ | ⟨refused, -⟩
    · have middle := step.sound refines.sound
      refine Or.inr ⟨_, rfl, same, touches.sound middle, indexed, ?_⟩
      rw [touches.view_eq distinct middle,
        view_depart refines.sound formed bare left others kept, refines.shows,
        Model.shown_erase]
    · exact absurd removable refused

theorem unlink_agrees (distinct : base.Distinct digests)
    (refines : Refines digests base overlay model) (path : BytePath) (host later : Timestamp)
    : Agrees digests base model
        ((Op.unlink path).applyToOverlay digests base overlay host later)
        ((Op.unlink path).applyToModel model) := by
  refine refines.remove_agrees distinct (fun absurd => by cases absurd) ?_ host later
  have kinds := refines.kind path
  simp only [Op.applyToModel, Model.unlink, Model.get]
  cases found : model.live[path]? with
  | none =>
      rw [show model.shown path = none from found] at kinds
      refine Or.inr ⟨fun removable => ?_, .noEntry, rfl⟩
      obtain ⟨kind, shows, -⟩ := removable
      rw [shows] at kinds
      cases kinds
  | some node =>
      rw [show model.shown path = some node from found, Option.map_some] at kinds
      simp only
      cases directory : node.kind.isDir with
      | true =>
          refine Or.inr ⟨fun removable => ?_, .isDirectory, rfl⟩
          obtain ⟨kind, shows, leaf, -⟩ := removable
          rw [← kinds] at shows
          cases shows
          rw [directory] at leaf
          cases leaf
      | false =>
          have formed := refines.sound.formed_of_shows kinds.symm
          refine Or.inl ⟨⟨node.kind, kinds.symm, directory, ?_⟩, rfl⟩
          intro below above
          refine refines.sound.placed.bare_of_leaf ?_ formed.1 above
          intro shows
          have same := kinds.trans shows
          rw [Option.some.injEq] at same
          rw [same] at directory
          cases directory

theorem rmdir_agrees (distinct : base.Distinct digests)
    (refines : Refines digests base overlay model) (path : BytePath) (host later : Timestamp)
    : Agrees digests base model
        ((Op.rmdir path).applyToOverlay digests base overlay host later)
        ((Op.rmdir path).applyToModel model) := by
  refine refines.remove_agrees distinct (fun _ => rfl) ?_ host later
  have kinds := refines.kind path
  simp only [Op.applyToModel, Model.rmdir, Model.get]
  cases found : model.live[path]? with
  | none =>
      rw [show model.shown path = none from found] at kinds
      refine Or.inr ⟨fun removable => ?_, .noEntry, rfl⟩
      obtain ⟨kind, shows, -⟩ := removable
      rw [shows] at kinds
      cases kinds
  | some node =>
      rw [show model.shown path = some node from found, Option.map_some] at kinds
      have formed := refines.sound.formed_of_shows kinds.symm
      have empty := refines.isEmptyDir_iff (Or.inr formed)
      simp only
      cases directory : node.kind.isDir with
      | false =>
          refine Or.inr ⟨fun removable => ?_, .notDirectory, rfl⟩
          obtain ⟨kind, shows, isDir, -⟩ := removable
          rw [← kinds] at shows
          cases shows
          rw [directory] at isDir
          cases isDir
      | true =>
          cases listed : model.isEmptyDir path with
          | true =>
              exact Or.inl ⟨⟨node.kind, kinds.symm, directory, empty.mp listed⟩, rfl⟩
          | false =>
              refine Or.inr ⟨fun removable => ?_, .notEmpty, rfl⟩
              rw [empty.mpr removable.choose_spec.2.2] at listed
              cases listed

-- Renaming

/-- The model's rename between two different places is admitted where the overlay's is. -/
theorem Refines.rename_spec (refines : Refines digests base overlay model)
    {source target : BytePath} (distinct : source ≠ target)
    (outside : isWithin target source = false)
    : (∃ reason,
        model.rename source target = .error reason
        ∧ ¬ Renamable base overlay.entries source target false)
      ∨ (Renamable base overlay.entries source target false
          ∧ model.rename source target
            = .ok ⟨Model.relocate model.live source target⟩) := by
  have sourceKind := refines.kind source
  have targetKind := refines.kind target
  have parentUsable : model.checkParent target = .ok ()
      ↔ parentOf target = []
        ∨ kindAt base overlay.entries (parentOf target) = some .directory := by
    rw [Model.checkParent_ok, refines.kind]
  unfold Model.rename Renamable
  rw [if_neg distinct, outside, if_neg Bool.false_ne_true]
  simp only [Model.get]
  cases moving : model.live[source]? with
  | none =>
      rw [show model.shown source = none from moving] at sourceKind
      refine Or.inl ⟨.noEntry, rfl, fun renamable => ?_⟩
      obtain ⟨-, kind, shows, -⟩ := renamable
      rw [shows] at sourceKind
      cases sourceKind
  | some mover =>
      rw [show model.shown source = some mover from moving, Option.map_some] at sourceKind
      simp only
      cases checked : model.checkParent target with
      | error reason =>
          refine Or.inl ⟨reason, rfl, fun renamable => ?_⟩
          rw [parentUsable.mpr renamable.1] at checked
          cases checked
      | ok _ =>
          have usable := parentUsable.mp checked
          simp only [bind, Except.bind, ← sourceKind, Option.some.injEq, exists_eq_left']
          cases replaced : model.live[target]? with
          | none =>
              rw [show model.shown target = none from replaced] at targetKind
              exact Or.inr ⟨⟨usable, Or.inl targetKind.symm⟩, rfl⟩
          | some there =>
              rw [show model.shown target = some there from replaced, Option.map_some]
                at targetKind
              have formed := refines.sound.formed_of_shows targetKind.symm
              have empty := refines.isEmptyDir_iff (Or.inr formed)
              have leaf : there.kind.isDir = false
                  → ∀ below, target ∈ ancestorsOf below
                      → kindAt base overlay.entries below = none := by
                intro file below above
                refine refines.sound.placed.bare_of_leaf ?_ formed.1 above
                intro shows
                have same := targetKind.trans shows
                rw [Option.some.injEq] at same
                rw [same] at file
                cases file
              simp only [← targetKind, reduceCtorEq, Option.some.injEq, true_and,
                exists_eq_left', false_or]
              cases moves : mover.kind.isDir <;> cases stands : there.kind.isDir
              · exact Or.inr ⟨⟨usable, rfl, leaf stands⟩, rfl⟩
              · refine Or.inl ⟨.isDirectory, rfl, fun renamable => ?_⟩
                cases renamable.2.1
              · refine Or.inl ⟨.notDirectory, rfl, fun renamable => ?_⟩
                cases renamable.2.1
              · cases listed : model.isEmptyDir target with
                | true => exact Or.inr ⟨⟨usable, rfl, empty.mp listed⟩, by simp; rfl⟩
                | false =>
                    refine Or.inl ⟨.notEmpty, by simp; rfl, fun renamable => ?_⟩
                    rw [empty.mpr renamable.2.2] at listed
                    cases listed

theorem rename_agrees (distinct : base.Distinct digests)
    (refines : Refines digests base overlay model) {source target : BytePath}
    (ample : (Op.rename source target).Ample digests base overlay) (host later : Timestamp)
    : Agrees digests base model
        ((Op.rename source target).applyToOverlay digests base overlay host later)
        ((Op.rename source target).applyToModel model) := by
  obtain ⟨⟨acceptedSource, sourceRoot⟩, ⟨acceptedTarget, targetRoot⟩, limit⟩ := ample
  simp only [Op.applyToOverlay, Op.applyToModel]
  by_cases same : source = target
  · subst same
    refine Or.inr ⟨model, ?_, by simp [Model.rename], ?_⟩
    · simp [Overlay.rename, Overlay.attemptRename, Attempt.complete, acceptedSource, sourceRoot,
        bind, Except.bind, pure, Except.pure]
    · have idle : (overlay.rename host source (inoFor source) (base.facts digests source)
          (parentFor digests base source) source (base.facts digests source)
          (parentFor digests base source) (base.descendants digests source)
          (overlay.mergedDirIsEmpty source (base.childNames source)) false).2 = overlay := by
        simp [Overlay.rename, Overlay.attemptRename, Attempt.complete, acceptedSource, sourceRoot,
          bind, Except.bind, pure, Except.pure]
      rw [idle]
      exact refines
  · rcases @Gfs.Overlay.rename_spec digests base overlay host source target (inoFor source)
        (parentFor digests base source) (parentFor digests base target) false refines.sound
        refines.indexed rfl rfl ⟨acceptedSource, acceptedTarget, sourceRoot, targetRoot⟩
        same with
      ⟨refusal, after, result, core, indexed, refused⟩
      | ⟨outside, renamable, after, mid, between, result, done⟩
    · rw [result]
      have still : Refines digests base after model :=
        ⟨core ▸ refines.sound, indexed, by rw [core]; exact refines.shows⟩
      cases inside : isWithin target source with
      | true =>
          refine Or.inl ⟨refusal, .invalid, rfl, ?_, still⟩
          simp [Model.rename, same, inside]
      | false =>
          rcases refines.rename_spec same inside with ⟨reason, expected, -⟩ | ⟨renamable, -⟩
          · exact Or.inl ⟨refusal, reason, rfl, expected, still⟩
          · exact absurd ⟨inside, renamable, limit⟩ refused
    · rw [result]
      rcases refines.rename_spec same outside with ⟨-, -, refused⟩ | ⟨-, expected⟩
      · exact absurd renamable refused
      · refine Or.inr ⟨_, rfl, expected, ?_⟩
        have middle := done.step.sound refines.sound
        have further := done.first.sound middle
        refine ⟨done.second.sound further, done.indexed, ?_⟩
        rw [done.second.view_eq distinct further, done.first.view_eq distinct middle,
          view_relocate distinct refines.sound done.relocates done.kept, refines.shows,
          Model.shown_relocate sourceRoot targetRoot]
        intro path fromSource fromTarget
        rw [isWithin_iff_ancestor sourceRoot] at fromSource
        rw [isWithin_iff_ancestor targetRoot] at fromTarget
        rcases fromSource with rfl | below
        · rcases fromTarget with rfl | inside
          · exact same rfl
          · exact done.relocates.inside inside
        · rcases fromTarget with rfl | inside
          · exact done.relocates.outside below
          · rcases ancestorsOf_linear below inside with equal | nested | nested
            · exact same equal
            · exact done.relocates.outside nested
            · exact done.relocates.inside nested

-- Runs

/-- One operation of a run, with the clock's readings during it. -/
structure Timed where
  op : Op
  host : Timestamp
  later : Timestamp
  deriving DecidableEq, Repr

/-- The overlay's side of a run: whether the last step succeeded, and the overlay. -/
def overlayStep (digests : Digests) (base : BaseTree) (state : Bool × Overlay) (call : Timed)
    : Bool × Overlay :=
  let (answer, overlay) :=
    call.op.applyToOverlay digests base state.2 call.host call.later
  (answer.isOk, overlay)

/-- The model's side: a step that fails leaves the model as it is. -/
def modelStep (state : Bool × Model) (call : Timed) : Bool × Model :=
  match call.op.applyToModel state.2 with
  | .ok model => (true, model)
  | .error _ => (false, state.2)

/-- The two sides agree: on the last step's success and on the whole filesystem. -/
def Matches (digests : Digests) (base : BaseTree) (concrete : Bool × Overlay)
    (abstract : Bool × Model)
    : Prop :=
  concrete.1 = abstract.1 ∧ mergedView digests concrete.2 base = abstract.2.live

theorem Op.agrees (distinct : base.Distinct digests)
    (refines : Refines digests base overlay model) {op : Op}
    (ample : op.Ample digests base overlay) (host later : Timestamp)
    : Agrees digests base model (op.applyToOverlay digests base overlay host later)
        (op.applyToModel model) := by
  cases op with
  | createFile path => exact createFile_agrees distinct refines ample host later
  | mkdir path => exact mkdir_agrees distinct refines ample host later
  | symlink path target => exact symlink_agrees distinct refines ample host later
  | write path offset data => exact write_agrees refines ample host later
  | truncate path size => exact truncate_agrees refines ample host later
  | setExecutable path executable =>
      exact setExecutable_agrees distinct refines ample host later
  | unlink path => exact unlink_agrees distinct refines path host later
  | rmdir path => exact rmdir_agrees distinct refines path host later
  | rename source target => exact rename_agrees distinct refines ample host later

theorem Sound.opened (config : OverlayConfig) (snapshotTime : Timestamp)
    : Sound digests base (Overlay.opened config snapshotTime).core := by
  have never {path : BytePath} {entry : OverlayEntry}
      : (Overlay.opened config snapshotTime).core.rows[path]? ≠ some entry := by
    simp [Overlay.opened, Overlay.core]
  exact {
    keyed := fun _ _ found => absurd found never
    placed := fun _ _ found => absurd found never
    facts := fun _ _ found => absurd found never
    hidden := fun _ _ found => absurd found never
    shaped := fun _ _ found => absurd found never
    held := fun _ _ _ found => absurd found never
    owned := fun _ _ _ _ _ found => absurd found never
  }

theorem Overlay.Indexed.opened (config : OverlayConfig) (snapshotTime : Timestamp)
    : (Overlay.opened config snapshotTime).Indexed := by
  intro dir name
  simp [Overlay.opened]

/-- An opened overlay shows the base, which is where the model starts. -/
theorem Refines.opened (digests : Digests) (base : BaseTree) (config : OverlayConfig)
    (snapshotTime : Timestamp)
    : Refines digests base (Overlay.opened config snapshotTime) (Model.new base) where
  sound := .opened config snapshotTime
  indexed := .opened config snapshotTime
  shows := by
    funext path
    have untouched : resolve (Overlay.opened config snapshotTime).core.rows path = .base := by
      refine resolve_eq_base.mpr ⟨?_, ?_, ?_⟩
      · rintro ⟨dir, -, entry, found, -⟩
        simp [Overlay.opened, Overlay.core] at found
      · simp [Overlay.opened, Overlay.core]
      · rintro ⟨dir, -, entry, found, -⟩
        simp [Overlay.opened, Overlay.core] at found
    simp only [Core.view, lookup, untouched, Model.shown, Model.new,
      ExtTreeMap.getElem?_filterMap', Option.map_id, id_eq, BaseTree.node, BaseTree.get]
    split
    · rename_i root
      subst root
      cases found : base.nodes[([] : BytePath)]? with
      | none => rfl
      | some node => exact absurd rfl (base.placed _ node found).1.1
    · rfl

/-- The overlay refines its reference model. Over any base whose contents its object ids tell
apart, and for any operations the overlay does not refuse for want of room or for a path or
target it does not accept, the overlay and the model succeed and fail together and the
merged view is the model's map after every step. Witness: the rows stay sound, and every
operation moves the view as it moves the map.
-/
theorem overlay_refines_model (digests : Digests) (base : BaseTree)
    (distinct : base.Distinct digests) (config : OverlayConfig) (snapshotTime : Timestamp)
    (calls : List Timed)
    (ample
      : Along (overlayStep digests base)
          (fun state call => call.op.Ample digests base state.2)
          (true, Overlay.opened config snapshotTime) calls)
    : List.Forall₂ (Matches digests base)
        (states (overlayStep digests base) (true, Overlay.opened config snapshotTime) calls)
        (states modelStep (true, Model.new base) calls) := by
  have related : List.Forall₂
      (fun concrete abstract =>
        concrete.1 = abstract.1 ∧ Refines digests base concrete.2 abstract.2)
      (states (overlayStep digests base) (true, Overlay.opened config snapshotTime) calls)
      (states modelStep (true, Model.new base) calls) := by
    refine simulation ?_ ⟨rfl, .opened digests base config snapshotTime⟩ ample
    intro concrete abstract call both allowed
    obtain ⟨-, refines⟩ := both
    unfold overlayStep modelStep
    rcases Op.agrees distinct refines allowed call.host call.later with
      ⟨refusal, reason, answered, expected, still⟩ | ⟨model', answered, expected, moved⟩
    · simp only [answered, expected]
      exact ⟨rfl, still⟩
    · simp only [answered, expected]
      exact ⟨rfl, moved⟩
  refine related.imp ?_
  intro concrete abstract both
  exact ⟨both.1, both.2.mergedView_eq⟩

-- A run over a small base

/-- SHA-1 on the two blobs of the sample base, given as a table: the empty blob and
`hello` with a newline. The digest of anything else is not asked for.
-/
def sampleDigests : Digests where
  sha1 input :=
    if input = blobFrame 0 then
      [0xe6, 0x9d, 0xe2, 0x9b, 0xb2, 0xd1, 0xd6, 0x43, 0x4b, 0x8b, 0x29, 0xae, 0x77, 0x5a,
        0xd8, 0xc2, 0xe4, 0x8c, 0x53, 0x91]
    else if input = blobFrame 6 ++ [104, 101, 108, 108, 111, 10] then
      [0xce, 0x01, 0x36, 0x25, 0x03, 0x0b, 0xa8, 0xdb, 0xa9, 0x06, 0xf7, 0x56, 0x96, 0x7f,
        0x9e, 0x9c, 0xa3, 0x94, 0x46, 0x4a]
    else input
  sha256 input := input

/-- A directory `d` with a file `d/f`. -/
def sampleBase : BaseTree :=
  .ofList
    [([100], ⟨.directory, []⟩), ([100, 47, 102], ⟨.regular, [104, 101, 108, 108, 111, 10]⟩)]
    (by decide)

def sampleConfig : OverlayConfig where
  quotaBytes := 1024
  maxRenameEntries := 16

/-- Both readings of the clock are the epoch. -/
def atEpoch (op : Op) : Timed :=
  ⟨op, ⟨0, 0⟩, ⟨0, 0⟩⟩

/-- A file made, a base file written, their directory renamed, and its old name reused. -/
def sampleRun : List Timed :=
  [atEpoch (.createFile [100, 47, 103]), atEpoch (.write [100, 47, 102] 6 [33]),
    atEpoch (.rename [100] [101]), atEpoch (.mkdir [100]), atEpoch (.unlink [101, 47, 102]),
    atEpoch (.rmdir [101])]

theorem sampleRun_refines
    : sampleBase.Distinct sampleDigests
      ∧ Along (overlayStep sampleDigests sampleBase)
          (fun state call => call.op.Ample sampleDigests sampleBase state.2)
          (true, Overlay.opened sampleConfig ⟨0, 0⟩) sampleRun
      ∧ List.Forall₂ (Matches sampleDigests sampleBase)
          (states (overlayStep sampleDigests sampleBase)
            (true, Overlay.opened sampleConfig ⟨0, 0⟩) sampleRun)
          (states modelStep (true, Model.new sampleBase) sampleRun) := by
  have distinct : sampleBase.Distinct sampleDigests := by decide
  have ample
      : Along (overlayStep sampleDigests sampleBase)
          (fun state call => call.op.Ample sampleDigests sampleBase state.2)
          (true, Overlay.opened sampleConfig ⟨0, 0⟩) sampleRun := by
    decide
  exact ⟨distinct, ample,
    overlay_refines_model sampleDigests sampleBase distinct sampleConfig ⟨0, 0⟩ sampleRun
      ample⟩

/-- A symlink with an empty target is made by the model and refused by the overlay. -/
theorem emptyTarget_not_matches
    : ¬ List.Forall₂ (Matches sampleDigests sampleBase)
        (states (overlayStep sampleDigests sampleBase)
          (true, Overlay.opened sampleConfig ⟨0, 0⟩) [atEpoch (.symlink [97] [])])
        (states modelStep (true, Model.new sampleBase) [atEpoch (.symlink [97] [])]) := by
  intro pairs
  cases pairs with
  | cons _ rest =>
      cases rest with
      | cons last _ =>
          have succeeds := last.1
          revert succeeds
          decide +kernel

end Gfs.Overlay
