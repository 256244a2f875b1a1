import Gfs.Overlay.Execution

/-! Copy-ups, writes and metadata changes as steps of the overlay's core.
-/

namespace Gfs.Overlay

open Gfs.Types
open Gfs.Lib.Overwrites
open Std (ExtTreeMap ExtTreeSet)

variable {digests : Digests} {base : BaseTree}

-- One row, committed or replaced in memory

theorem commit_put_core (overlay : Overlay) (entry : OverlayEntry) (stamp : Bool)
    : (overlay.commitWith [.put entry] [] none stamp).core
      = { overlay.core with rows := overlay.entries.insert entry.path entry } := by
  simp [Overlay.core, Change.write, overwrite]

variable {overlay : Overlay} {entry : OverlayEntry} {path : BytePath}

theorem commit_put_indexed {stamp : Bool} (keyed : Keyed overlay.entries)
    (formed : WellFormed entry.path) (indexed : overlay.Indexed)
    : (overlay.commitWith [.put entry] [] none stamp).Indexed := by
  refine (Overlay.commitWith_indexed keyed indexed ?_).2
  intro change member
  rw [List.mem_singleton.mp member]
  exact formed

theorem commit_put_localBytes (overlay : Overlay) (entry : OverlayEntry) (stamp : Bool)
    : (overlay.commitWith [.put entry] [] none stamp).localBytes
      ≤ overlay.localBytes + entry.size := by
  have account : (overlay.commitWith [.put entry] [] none stamp).localBytes
      = overlay.bytesWith entry := rfl
  rw [account, Overlay.bytesWith, Overlay.bytesWithout]
  split
  · unfold saturatingAdd
    omega
  · omega

theorem replaceInMemory_indexed {overlay : Overlay} {old entry : OverlayEntry}
    (indexed : overlay.Indexed) (found : overlay.entries[entry.path]? = some old)
    : (overlay.replaceInMemory entry).Indexed := by
  intro dir name
  have rows : ∀ path : BytePath,
      ((overlay.entries.insert entry.path entry)[path]?).isSome
        = (overlay.entries[path]?).isSome := by
    intro path
    by_cases same : path = entry.path
    · rw [same, getElem?_insert_self, found]
      rfl
    · rw [getElem?_insert_other _ entry same]
  simp only [Overlay.replaceInMemory, rows]
  exact indexed dir name

/-- The quota has room for this many bytes more. -/
def Roomy (overlay : Overlay) (added : Nat) : Prop :=
  saturatingAdd overlay.localBytes added ≤ overlay.config.quotaBytes

instance (overlay : Overlay) (added : Nat) : Decidable (Roomy overlay added) :=
  inferInstanceAs (Decidable (_ ≤ _))

theorem checkQuota_ok {added : Nat}
    : overlay.checkQuota added = .ok () ↔ Roomy overlay added := by
  unfold Overlay.checkQuota Roomy
  split
  · simp_all
  · simp_all

-- Copying up

theorem OverlayKind.isFile_of_ne {kind : OverlayKind} (leaf : kind.isDir ≠ true)
    (plain : kind ≠ .symlink)
    : kind.isFile = true := by
  cases kind <;> simp_all [OverlayKind.isDir, OverlayKind.isFile]

/-- What there is to copy up, when the copy-up is neither refused nor already made: what
stands at the path is a file without local content.
-/
theorem copyUpSource_inr {ino : Nat} {copy : Overlay.CopyUp}
    (sound : Sound digests base overlay.core)
    (source : overlay.copyUpSource path (base.facts digests path) ino = .ok (.inr copy))
    : ∃ old,
        Standing digests base overlay.entries path old
        ∧ old.kind.isFile = true
        ∧ old.content.localId = none
        ∧ copy.kind = old.kind
        ∧ copy.symlinkTarget = old.symlinkTarget
        ∧ copy.renamedFrom = old.renamedFrom
        ∧ copy.base = old.base
        ∧ old.opaqueDir = false := by
  unfold Overlay.copyUpSource at source
  cases resolved : resolve overlay.entries path with
  | absent => simp [resolved] at source
  | overlay entry =>
      simp only [resolved] at source
      obtain ⟨-, found, present⟩ := resolve_eq_overlay.mp resolved
      split at source
      · cases source
      · rename_i remote
        split at source
        · cases source
        · rename_i leaf
          split at source
          · cases source
          · rename_i plain
            cases source
            have file := OverlayKind.isFile_of_ne leaf plain
            have shaped := sound.shaped path entry found present
            refine ⟨entry, .own found present, file, by simpa using remote, rfl, rfl, rfl, rfl,
              shaped.leaf ?_⟩
            intro dir
            rw [dir] at file
            cases file
  | base =>
      simp only [resolved] at source
      cases known : base.facts digests path with
      | none => simp [known] at source
      | some facts =>
          simp only [known] at source
          obtain ⟨node, got, rfl⟩ := Option.map_eq_some_iff.mp known
          cases kinds : OverlayKind.fromEntryKind node.kind with
          | none => simp [BaseTree.factsOfNode, kinds] at source
          | some kind =>
              simp only [BaseTree.factsOfNode, kinds] at source
              split at source
              · cases source
              · rename_i leaf
                split at source
                · cases source
                · rename_i plain
                  cases source
                  have file := OverlayKind.isFile_of_ne leaf plain
                  refine ⟨_, .adopted ino ⟨0, 0⟩ resolved got kinds, file, ?_, rfl, rfl, rfl, rfl,
                    rfl⟩
                  simp [Overlay.adoptedEntry, leaf, Content.localId]

/-- A copy-up is refused only where there is no file, or one that is already copied. -/
theorem copyUpSource_error {ino : Nat} {refusal : Condition}
    (refused : overlay.copyUpSource path (base.facts digests path) ino = .error refusal)
    : ∀ kind, kindAt base overlay.entries path = some kind → kind.isFile = false := by
  intro kind shows
  unfold Overlay.copyUpSource at refused
  rcases kindAt_eq_some.mp shows with ⟨entry, resolved, rfl⟩ | ⟨resolved, node, listed, rfl⟩
  · simp only [resolved] at refused
    split at refused
    · cases refused
    · split at refused
      · rename_i dir
        rw [OverlayKind.isDir_iff.mp dir]
        rfl
      · split at refused
        · rename_i link
          rw [link]
          rfl
        · cases refused
  · simp only [resolved] at refused
    obtain ⟨raw, got, held⟩ := Option.bind_eq_some_iff.mp listed
    obtain ⟨kind, kinds, rfl⟩ := Option.map_eq_some_iff.mp held
    simp only [BaseTree.facts, got, Option.map_some, BaseTree.factsOfNode, kinds] at refused
    split at refused
    · rename_i dir
      rw [OverlayKind.isDir_iff.mp dir]
      rfl
    · split at refused
      · rename_i link
        rw [link]
        rfl
      · cases refused

/-- A copy-up already made shows a file with local content. -/
theorem copyUpSource_inl {ino : Nat} {facts : Option BaseFacts}
    (made : overlay.copyUpSource path facts ino = .ok (.inl entry))
    : overlay.entries[path]? = some entry
      ∧ entry.present = true
      ∧ entry.content.localId.isSome = true := by
  unfold Overlay.copyUpSource at made
  cases resolved : resolve overlay.entries path with
  | absent => simp [resolved] at made
  | overlay row =>
      simp only [resolved] at made
      obtain ⟨-, found, present⟩ := resolve_eq_overlay.mp resolved
      split at made
      · rename_i localContent
        cases made
        exact ⟨found, present, localContent⟩
      · split at made
        · cases made
        · split at made <;> cases made
  | base =>
      simp only [resolved] at made
      cases facts with
      | none => cases made
      | some facts =>
          simp only at made
          cases kinds : OverlayKind.fromEntryKind facts.kind with
          | none => simp [kinds] at made
          | some kind =>
              simp only [kinds] at made
              split at made
              · cases made
              · split at made <;> cases made

theorem Standing.formed {core : Core} (sound : Sound digests base core) {old : OverlayEntry}
    (standing : Standing digests base core.rows path old)
    : WellFormed path := by
  cases standing with
  | own found _ => exact (sound.keyed path old found).2
  | @base node _ got =>
      simp only [BaseTree.get] at got
      split at got
      · cases got
      · exact (base.placed path node got).1

/-- What a copy-up that ran did: the path's row has a content file of its own. -/
structure CopiedUp (digests : Digests) (base : BaseTree) (core : Core) (path : BytePath)
    (bytes : Bytes) (old entry : OverlayEntry) (core' : Core)
    : Prop where
  formed : WellFormed path
  standing : Standing digests base core.rows path old
  file : old.kind.isFile = true
  remote : old.content.localId = none
  revises : Revises old entry
  kind : entry.kind = old.kind
  own : entry.path = path
  content : entry.content = .local core.next
  after
    : core'
      = {
          rows := core.rows.insert path entry
          files := core.files.insert core.next bytes
          next := core.next + 1
        }

theorem materialize_spec {overlay : Overlay} {host : Timestamp} {path : BytePath} {ino : Nat}
    {source : Option Bytes} (sound : Sound digests base overlay.core)
    : (∃ refusal after next,
        overlay.materialize host path (base.facts digests path) ino source
          = (.error refusal, after)
        ∧ overlay.nextContentId ≤ next
        ∧ after.core = { overlay.core with next }
        ∧ (overlay.Indexed → after.Indexed)
        ∧ (pathCondition path = .ok ()
            → (∃ kind, kindAt base overlay.entries path = some kind ∧ kind.isFile = true)
            → ¬ (Roomy overlay (source.getD []).length
                  ∧ Roomy overlay 0
                  ∧ ∀ facts, base.facts digests path = some facts
                      → Roomy overlay facts.size)))
      ∨ (∃ entry,
          overlay.materialize host path (base.facts digests path) ino source
            = (.ok entry, overlay)
          ∧ overlay.entries[path]? = some entry
          ∧ entry.present = true
          ∧ entry.content.localId.isSome = true)
      ∨ (∃ old entry after,
          overlay.materialize host path (base.facts digests path) ino source
            = (.ok entry, after)
          ∧ CopiedUp digests base overlay.core path (source.getD []) old entry after.core
          ∧ after.config = overlay.config
          ∧ after.localBytes ≤ overlay.localBytes + (source.getD []).length
          ∧ (overlay.Indexed → after.Indexed)) := by
  unfold Overlay.materialize Overlay.attemptMaterialize
  cases accepted : pathCondition path with
  | error refusal =>
      refine Or.inl ⟨refusal, overlay, overlay.nextContentId, rfl, Nat.le_refl _, rfl, id, ?_⟩
      intro absurd
      cases absurd
  | ok _ =>
      simp only [bind, Except.bind]
      cases source? : overlay.copyUpSource path (base.facts digests path) ino with
      | error refusal =>
          refine Or.inl ⟨refusal, overlay, overlay.nextContentId, rfl, Nat.le_refl _, rfl, id, ?_⟩
          intro _ shows
          obtain ⟨kind, shows, file⟩ := shows
          rw [copyUpSource_error source? kind shows] at file
          cases file
      | ok found =>
          cases found with
          | inl entry =>
              obtain ⟨held, present, localContent⟩ := copyUpSource_inl source?
              exact Or.inr (Or.inl ⟨entry, rfl, held, present, localContent⟩)
          | inr copy =>
              obtain ⟨old, standing, file, remote, kind, target, renamedFrom, facts, opacity⟩ :=
                copyUpSource_inr sound source?
              have formed := standing.formed sound
              simp only [Overlay.allocateContentId]
              split
              · rename_i refusal failed
                refine Or.inl ⟨refusal, _, overlay.nextContentId + 1, rfl, Nat.le_succ _, rfl,
                  fun tidy => tidy.congr rfl rfl, ?_⟩
                intro _ _ roomy
                obtain ⟨room, spare, declared⟩ := roomy
                have admitted : Roomy overlay (copy.base.elim 0 BaseFacts.size) := by
                  rw [facts]
                  rcases standing.facts sound with unknown | known
                  · rw [unknown]
                    exact spare
                  · rw [known]
                    cases listed : base.facts digests path with
                    | none => exact spare
                    | some facts => exact declared facts listed
                unfold Roomy at room admitted
                simp only [Overlay.checkQuota, gt_iff_lt, Nat.not_lt.mpr room,
                  Nat.not_lt.mpr admitted, ↓reduceIte, ite_self, reduceCtorEq] at failed
              · refine Or.inr (Or.inr ⟨old, _, _, rfl, ?_, rfl, ?_, ?_⟩)
                · exact {
                    formed
                    standing
                    file
                    remote
                    revises := ⟨rfl, Or.inl kind, opacity.symm, target, renamedFrom, facts⟩
                    kind
                    own := rfl
                    content := rfl
                    after := commit_put_core _ _ _
                  }
                · exact commit_put_localBytes _ _ _
                · intro tidy
                  exact commit_put_indexed (by exact sound.keyed) formed (tidy.congr rfl rfl)

-- Writing

/-- What a write or a truncation did: the row's content file holds other bytes. -/
structure Rewritten (core : Core) (path : BytePath) (id : Nat) (bytes : Bytes)
    (old entry : OverlayEntry) (core' : Core)
    : Prop where
  found : core.rows[path]? = some old
  present : old.present = true
  before : old.content = .local id
  revises : Revises old entry
  kind : entry.kind = old.kind
  own : entry.path = path
  content : entry.content = .local id
  after
    : core'
      = {
          core with
          rows := core.rows.insert path entry
          files := core.files.insert id bytes
        }

theorem localId_eq_some {content : Content} {id : Nat}
    : content.localId = some id ↔ content = .local id := by
  cases content <;> simp [Content.localId]

/-- A write of what the quota admits. -/
theorem writeAt_spec {overlay : Overlay} {host : Timestamp} {path : BytePath} {offset : Nat}
    {data : Bytes} (sound : Sound digests base overlay.core)
    : (∃ refusal,
        overlay.writeAt host path offset data = (.error refusal, overlay)
        ∧ ∀ old id,
            overlay.entries[path]? = some old → old.present = true
            → old.content = .local id
            → ¬ (saturatingAdd offset data.length - old.size
                  ≤ overlay.config.quotaBytes - overlay.localBytes))
      ∨ (∃ old entry id file admitted after,
          overlay.writeAt host path offset data = (.ok admitted.length, after)
          ∧ overlay.files[id]? = some file
          ∧ (saturatingAdd offset data.length - old.size
                ≤ overlay.config.quotaBytes - overlay.localBytes
              → admitted = data)
          ∧ Rewritten overlay.core path id (writeBytes file offset admitted) old entry
              after.core
          ∧ (overlay.Indexed → after.Indexed)) := by
  unfold Overlay.writeAt
  cases found : overlay.entries[path]?.filter (·.present) with
  | none =>
      refine Or.inl ⟨.noEntry, rfl, ?_⟩
      intro old id held present _
      rw [held, Option.filter_eq_none_iff] at found
      exact absurd present (by simpa using found)
  | some old =>
      obtain ⟨held, present⟩ := Option.filter_eq_some_iff.mp found
      simp only
      cases content : old.content.localId with
      | none =>
          refine Or.inl ⟨.io, rfl, ?_⟩
          intro row id found' _ before
          rw [held] at found'
          cases found'
          rw [before] at content
          cases content
      | some id =>
          have before := localId_eq_some.mp content
          simp only
          cases allowance : overlay.admitWrite old.size offset data with
          | error refusal =>
              refine Or.inl ⟨refusal, rfl, ?_⟩
              intro row other found' _ _ fits
              rw [held] at found'
              cases found'
              unfold Overlay.admitWrite at allowance
              rw [if_neg (Nat.not_lt.mpr fits)] at allowance
              cases allowance
          | ok admitted =>
              obtain ⟨file, stored⟩ :=
                Option.isSome_iff_exists.mp (sound.held path old id held before).1
              simp only [Overlay.core] at stored
              simp only [stored]
              obtain ⟨own, formed⟩ := sound.keyed path old held
              let now := (overlay.nextTime host).1
              let entry : OverlayEntry :=
                {
                  old with
                  size := max old.size (saturatingAdd offset admitted.length)
                  mtime := now
                  ctime := now
                }
              refine Or.inr ⟨old, entry, id, file, admitted, _, rfl, stored, ?_, ?_, ?_⟩
              · intro fits
                unfold Overlay.admitWrite at allowance
                rw [if_neg (Nat.not_lt.mpr fits)] at allowance
                cases allowance
                rfl
              · exact {
                  found := held
                  present
                  before
                  revises := ⟨present, Or.inl rfl, rfl, rfl, rfl, rfl⟩
                  kind := rfl
                  own
                  content := before
                  after := by
                    simp [Overlay.noteWritten, Overlay.replaceInMemory, Overlay.core,
                      Overlay.nextTime, own, entry, now]
                }
              · intro tidy
                refine @replaceInMemory_indexed _ old _ (tidy.congr rfl rfl) ?_
                simpa [own] using held

/-- A truncation within the quota. -/
theorem truncate_spec {overlay : Overlay} {host : Timestamp} {path : BytePath} {size : Nat}
    (sound : Sound digests base overlay.core)
    : (∃ refusal,
        overlay.truncate host path size = (.error refusal, overlay)
        ∧ ∀ old id,
            overlay.entries[path]? = some old → old.present = true
            → old.content = .local id
            → ¬ Roomy overlay (size - old.size))
      ∨ (∃ old entry id file after,
          overlay.truncate host path size = (.ok entry, after)
          ∧ overlay.files[id]? = some file
          ∧ Rewritten overlay.core path id (setLen file size) old entry after.core
          ∧ (overlay.Indexed → after.Indexed)) := by
  unfold Overlay.truncate Overlay.attemptTruncate
  cases found : overlay.entries[path]?.filter (·.present) with
  | none =>
      refine Or.inl ⟨.noEntry, rfl, ?_⟩
      intro old id held present _
      rw [held, Option.filter_eq_none_iff] at found
      exact absurd present (by simpa using found)
  | some old =>
      obtain ⟨held, present⟩ := Option.filter_eq_some_iff.mp found
      have shaped := sound.shaped path old held present
      simp only
      split
      · rename_i dir
        refine Or.inl ⟨.isDirectory, rfl, ?_⟩
        intro row id found' _ before
        rw [held] at found'
        cases found'
        rw [(shaped.directory (OverlayKind.isDir_iff.mp dir)).1] at before
        cases before
      · cases content : old.content.localId with
        | none =>
            refine Or.inl ⟨.io, rfl, ?_⟩
            intro row id found' _ before
            rw [held] at found'
            cases found'
            rw [before] at content
            cases content
        | some id =>
            have before := localId_eq_some.mp content
            simp only
            split
            · rename_i refusal failed
              refine Or.inl ⟨refusal, rfl, ?_⟩
              intro row other found' _ _ roomy
              rw [held] at found'
              cases found'
              rw [checkQuota_ok.mpr roomy, ite_self] at failed
              cases failed
            · obtain ⟨file, stored⟩ :=
                Option.isSome_iff_exists.mp (sound.held path old id held before).1
              simp only [Overlay.core] at stored
              simp only [stored]
              obtain ⟨own, formed⟩ := sound.keyed path old held
              refine Or.inr ⟨old, _, id, file, _, rfl, stored, ?_, ?_⟩
              · exact {
                  found := held
                  present
                  before
                  revises := ⟨present, Or.inl rfl, rfl, rfl, rfl, rfl⟩
                  kind := rfl
                  own
                  content := before
                  after := by
                    simp [Overlay.nextTime, Overlay.core, Change.write, overwrite, own]
                }
              · intro tidy
                refine commit_put_indexed (by exact sound.keyed) ?_ (tidy.congr rfl rfl)
                exact own ▸ formed

-- Metadata

/-- An adoption is refused only where nothing shows or the path is unacceptable; otherwise the
row it answers with stands at the path and shows what showed.
-/
theorem adopt_spec (host : Timestamp) (path : BytePath) (ino : Nat)
    (sound : Sound digests base overlay.core)
    : (∃ refusal,
        overlay.adopt host path (base.facts digests path) ino = (.error refusal, overlay)
        ∧ (pathCondition path = .ok () → kindAt base overlay.entries path = none))
      ∨ (∃ entry after,
          overlay.adopt host path (base.facts digests path) ino = (.ok entry, after)
          ∧ (kindAt base overlay.entries path).isSome = true
          ∧ after.entries[path]? = some entry
          ∧ entry.present = true
          ∧ kindAt base overlay.entries path = some entry.kind
          ∧ Touches digests base overlay.core after.core
          ∧ (overlay.Indexed → after.Indexed)) := by
  unfold Overlay.adopt Overlay.attemptAdopt
  cases accepted : pathCondition path with
  | error refusal => exact Or.inl ⟨refusal, rfl, fun absurd => by cases absurd⟩
  | ok _ =>
      simp only
      split
      · rename_i root
        refine Or.inl ⟨.invalid, rfl, fun _ => ?_⟩
        subst root
        cases shows : kindAt base overlay.entries [] with
        | none => rfl
        | some kind =>
            rcases kindAt_eq_some.mp shows with ⟨entry, resolved, -⟩ | ⟨-, node, listed, -⟩
            · obtain ⟨-, found, -⟩ := resolve_eq_overlay.mp resolved
              exact absurd rfl (sound.keyed _ entry found).2.1
            · simp [BaseTree.node, BaseTree.get] at listed
      · cases resolved : resolve overlay.entries path with
        | absent =>
            refine Or.inl ⟨.noEntry, rfl, fun _ => ?_⟩
            simp [kindAt, lookup, resolved]
        | overlay entry =>
            obtain ⟨-, found, present⟩ := resolve_eq_overlay.mp resolved
            have shows : kindAt base overlay.entries path = some entry.kind := by
              simp [kindAt, lookup, resolved]
            exact Or.inr ⟨entry, overlay, rfl, by rw [shows]; rfl, found, present, shows,
              Or.inl rfl, fun tidy => tidy⟩
        | base =>
            simp only
            cases known : base.facts digests path with
            | none =>
                refine Or.inl ⟨.noEntry, rfl, fun _ => ?_⟩
                simp [kindAt, lookup, resolved, BaseTree.facts_eq_none.mp known]
            | some facts =>
                obtain ⟨node, got, rfl⟩ := Option.map_eq_some_iff.mp known
                simp only [BaseTree.factsOfNode]
                cases kinds : OverlayKind.fromEntryKind node.kind with
                | none =>
                    refine Or.inl ⟨.notPermitted, rfl, fun _ => ?_⟩
                    simp [kindAt, lookup, resolved, BaseTree.node, got, Node.ofBase, kinds]
                | some kind =>
                    have shows := kindAt_of_base resolved got kinds
                    refine Or.inr ⟨_, _, rfl, by rw [shows]; rfl, ?_, rfl, shows, ?_, ?_⟩
                    · simp [Overlay.commit, Change.write, overwrite, Overlay.adoptedEntry]
                    · have standing
                          : Standing digests base overlay.entries path
                              (Overlay.adoptedEntry path (BaseTree.factsOfNode digests node)
                                kind ino (overlay.nextTime host).1) :=
                        .adopted ino _ resolved got kinds
                      exact Or.inr ⟨path, _, _, standing.formed sound, standing,
                        ⟨rfl, Or.inl rfl, rfl, rfl, rfl, rfl⟩, rfl, rfl, rfl,
                        commit_put_core _ _ _⟩
                    · intro tidy
                      have formed : WellFormed path := by
                        simp only [BaseTree.get] at got
                        split at got
                        · cases got
                        · exact (base.placed path node got).1
                      exact commit_put_indexed (by exact sound.keyed) formed
                        (tidy.congr rfl rfl)

/-- The executable bit: refused only like an adoption; otherwise the row is adopted, and a
file's kind then becomes the one asked for.
-/
theorem setExecutable_spec {overlay : Overlay} {host later : Timestamp} {path : BytePath}
    {ino : Nat} {executable : Bool} (sound : Sound digests base overlay.core)
    : (∃ refusal,
        overlay.setExecutable host later path (base.facts digests path) ino executable
          = (.error refusal, overlay)
        ∧ (pathCondition path = .ok () → kindAt base overlay.entries path = none))
      ∨ (∃ adopted entry between after,
          overlay.setExecutable host later path (base.facts digests path) ino executable
            = (.ok entry, after)
          ∧ Touches digests base overlay.core between.core
          ∧ between.entries[path]? = some adopted
          ∧ adopted.present = true
          ∧ kindAt base overlay.entries path = some adopted.kind
          ∧ ((after = between
                ∧ (adopted.kind.isFile = true
                    → adopted.kind = if executable then .executable else .regular))
              ∨ (adopted.kind.isFile = true
                  ∧ Revises adopted entry
                  ∧ entry.path = path
                  ∧ WellFormed path
                  ∧ entry.content = adopted.content
                  ∧ entry.kind = (if executable then .executable else .regular)
                  ∧ after.core
                    = { between.core with rows := between.entries.insert path entry }))
          ∧ (overlay.Indexed → after.Indexed)) := by
  unfold Overlay.setExecutable
  rcases adopt_spec host path ino sound with
    ⟨refusal, result, reason⟩
    | ⟨adopted, between, result, -, found, present, shows, touches, indexed⟩
  · rw [result]
    exact Or.inl ⟨refusal, rfl, reason⟩
  · rw [result]
    have betweenSound := touches.sound sound
    obtain ⟨own, formed⟩ := betweenSound.keyed path adopted found
    right
    simp only [Overlay.attemptExecutable]
    by_cases unchanged : adopted.kind.isDir = true ∨ adopted.kind = .symlink
        ∨ adopted.kind = if executable then .executable else .regular
    · rw [if_pos unchanged]
      refine ⟨adopted, adopted, between, between, rfl, touches, found, present, shows,
        Or.inl ⟨rfl, ?_⟩, indexed⟩
      intro file
      rcases unchanged with dir | link | same
      · rw [OverlayKind.isDir_of_isFile file] at dir
        cases dir
      · rw [link] at file
        cases file
      · exact same
    · rw [if_neg unchanged]
      simp only [not_or] at unchanged
      obtain ⟨leaf, plain, other⟩ := unchanged
      have file := OverlayKind.isFile_of_ne leaf plain
      refine ⟨adopted, _, between, _, rfl, touches, found, present, shows,
        Or.inr ⟨file, ⟨present, Or.inr ⟨?_, file⟩, rfl, rfl, rfl, rfl⟩, own, formed, rfl, rfl,
          ?_⟩, ?_⟩
      · cases executable <;> rfl
      · simp only [Overlay.transaction_committed, Overlay.commit]
        rw [commit_put_core]
        simp [Overlay.nextTime, Overlay.core, own]
      · intro tidy
        refine commit_put_indexed (by exact betweenSound.keyed) ?_
          ((indexed tidy).congr rfl rfl)
        exact own ▸ formed

/-- Explicit times: refused only like an adoption; otherwise the adopted row is touched. -/
theorem setTimes_spec (host later : Timestamp) (path : BytePath) (ino : Nat)
    (mtime : Option Timestamp) (sound : Sound digests base overlay.core)
    : (overlay.setTimes host later path (base.facts digests path) ino mtime).2 = overlay
      ∨ (∃ between,
          Touches digests base overlay.core between
          ∧ Touches digests base between
              (overlay.setTimes host later path (base.facts digests path) ino mtime).2.core
          ∧ (overlay.Indexed
              → (overlay.setTimes host later path (base.facts digests path) ino
                  mtime).2.Indexed)) := by
  unfold Overlay.setTimes
  rcases adopt_spec host path ino sound with
    ⟨refusal, result, -⟩
    | ⟨adopted, between, result, -, found, present, -, touches, indexed⟩
  · rw [result]
    exact Or.inl rfl
  · rw [result]
    have betweenSound := touches.sound sound
    obtain ⟨own, formed⟩ := betweenSound.keyed path adopted found
    let now := (between.nextTime later).1
    let updated : OverlayEntry :=
      {
        adopted with
        mtime := (mtime.map (clampRequestedOverlayTime · between.snapshotTime)).getD now
        ctime := now
      }
    refine Or.inr ⟨between.core, touches, Or.inr ?_, ?_⟩
    · refine ⟨path, adopted, updated, formed, .own found present,
        ⟨present, Or.inl rfl, rfl, rfl, rfl, rfl⟩, own, rfl, rfl, ?_⟩
      simp only [Overlay.attemptTimes, Attempt.complete, Overlay.transaction_committed,
        Overlay.commit]
      rw [commit_put_core]
      simp [Overlay.nextTime, Overlay.core, own, updated, now]
    · intro tidy
      refine commit_put_indexed (by exact betweenSound.keyed) ?_
        ((indexed tidy).congr rfl rfl)
      exact own ▸ formed

-- Content already in its file

theorem insert_self {rows : Rows} (found : rows[path]? = some entry)
    : rows.insert path entry = rows := by
  refine ExtTreeMap.ext_getElem? (fun other => ?_)
  by_cases same : other = path
  · rw [same, getElem?_insert_self, found]
  · rw [getElem?_insert_other rows entry same]

theorem settleContent_spec (contentId : Nat) (sound : Sound digests base overlay.core)
    : (overlay.settleContent contentId).2.core = overlay.core
      ∧ (overlay.Indexed → (overlay.settleContent contentId).2.Indexed) := by
  unfold Overlay.settleContent Overlay.attemptSettle
  cases held : overlay.byContent[contentId]?.bind (fun path => overlay.entries[path]?) with
  | none => exact ⟨rfl, fun tidy => tidy.congr rfl rfl⟩
  | some entry =>
      obtain ⟨path, -, found⟩ := Option.bind_eq_some_iff.mp held
      obtain ⟨own, formed⟩ := sound.keyed path entry found
      simp only
      split
      · refine ⟨?_, fun tidy => ?_⟩
        · simp only [Attempt.complete, Overlay.transaction_committed, Overlay.commit]
          rw [commit_put_core, own, insert_self found]
          rfl
        · exact commit_put_indexed (by exact sound.keyed) (own ▸ formed) tidy
      · exact ⟨rfl, id⟩

/-- A reversion to the base's blob keeps the row but for its content. -/
theorem referenceBase_spec (contentId : Nat) (hashed : OverlayEntry) (oid : ObjectId)
    (sound : Sound digests base overlay.core)
    : (overlay.referenceBase contentId hashed oid).2 = overlay
      ∨ (Step digests base .quiet overlay.core
            (overlay.referenceBase contentId hashed oid).2.core
          ∧ (overlay.Indexed → (overlay.referenceBase contentId hashed oid).2.Indexed)) := by
  unfold Overlay.referenceBase Overlay.attemptReferenceBase
  cases found : overlay.entries[hashed.path]? with
  | none => exact Or.inl rfl
  | some entry =>
      obtain ⟨own, formed⟩ := sound.keyed hashed.path entry found
      simp only
      split
      · rename_i unchanged
        simp only [Bool.and_eq_true, beq_iff_eq, Option.isNone_iff_eq_none,
          Option.any_eq_true] at unchanged
        obtain ⟨⟨⟨⟨⟨⟨⟨⟨present, held⟩, -⟩, -⟩, -⟩, unmoved⟩, known⟩, -⟩, -⟩ := unchanged
        obtain ⟨facts, facts?, sameOid⟩ := known
        refine Or.inr ⟨?_, fun tidy => ?_⟩
        · simp only [Attempt.complete, Transaction.committed, Overlay.transaction]
          rw [commit_put_core]
          have step : Step digests base .quiet overlay.core
              {
                overlay.core with
                rows := overlay.core.rows.insert hashed.path
                  { entry with content := .base oid }
              } :=
            .refer found present ⟨present, Or.inl rfl, rfl, rfl, rfl, rfl⟩ own
              (localId_eq_some.mp held) unmoved facts? (by rw [sameOid])
          rw [← own] at step
          exact step
        · exact commit_put_indexed (by exact sound.keyed) (own ▸ formed) tidy
      · exact Or.inl rfl

end Gfs.Overlay
