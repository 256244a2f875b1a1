import Gfs.Mount.Projection

/-! Whole runs of a block store. While no name changes its content, reads return the gateway's
bytes and the bookkeeping follows the present blocks. Where a name may change its content, the
bytes are those of one version while each fetch is answered from that version.
-/

namespace Gfs.Mount.Odb

open Gfs.Types
open Gfs.Lib
open Gfs.Service.Odb

-- Opening

section Opening

variable {version : Text → Bytes}

/-- The words of a file that has just been opened. -/
private def noBlocks (size : Nat) : Words :=
  List.replicate (((size + block - 1) / block + 63) / 64) 0#64

theorem bitGet_noBlocks (size index : Nat) : bitGet (noBlocks size) index = false := by
  rw [bitGet_eq, noBlocks, List.getElem?_replicate]
  split
  · simp
  · rfl

/-- A file that has just been opened, at its place in the manifest. -/
private def Fresh (paths : List Text) (path : Text) (file : FileState) : Prop :=
  paths[file.id]? = some path ∧ file.present = noBlocks file.size

/-- Opening a manifest of few files gives each of them its own id. -/
theorem openFiles_fresh {manifest : List OdbFile} {files : Text → Option FileState}
    {paths : List Text} (few : paths.length + manifest.length ≤ 2 ^ 32)
    (fresh : ∀ path file, files path = some file → Fresh paths path file)
    : ∀ path file, (openFiles manifest files paths).1 path = some file
        → Fresh (openFiles manifest files paths).2 path file := by
  induction manifest generalizing files paths with
  | nil => exact fresh
  | cons first rest ih =>
      rw [List.length_cons] at few
      rw [openFiles]
      refine ih (by rw [List.length_append, List.length_singleton]; omega) ?_
      intro path file found
      by_cases same : path = first.path
      · subst same
        rw [Function.update_self] at found
        cases found
        refine ⟨?_, rfl⟩
        dsimp only
        rw [Nat.mod_eq_of_lt (by omega), List.getElem?_concat_length]
      · rw [Function.update_of_ne same] at found
        obtain ⟨named, right⟩ := fresh path file found
        exact
          ⟨(List.getElem?_append_left (List.getElem?_eq_some_iff.mp named).1).trans named, right⟩

variable {manifest : List OdbFile}

theorem openFiles_size (sizes : ∀ file ∈ manifest, file.size = (version file.path).length)
    {files : Text → Option FileState} {paths : List Text}
    (sized : ∀ path file, files path = some file → file.size = (version path).length)
    : ∀ path file, (openFiles manifest files paths).1 path = some file
        → file.size = (version path).length := by
  induction manifest generalizing files paths with
  | nil => exact sized
  | cons first rest ih =>
      obtain ⟨size, sizes⟩ := List.forall_mem_cons.mp sizes
      rw [openFiles]
      refine ih sizes ?_
      intro path file found
      by_cases same : path = first.path
      · subst same
        rw [Function.update_self] at found
        cases found
        exact size
      · rw [Function.update_of_ne same] at found
        exact sized path file found

/-- A store that has just been opened is sound for any version of these sizes. -/
theorem StoreState.sound_open (few : manifest.length ≤ 2 ^ 32) (limit : Nat)
    (sized
      : ∀ path file, (StoreState.open manifest limit).files path = some file
          → file.size = (version path).length)
    (disk : Disk)
    : (StoreState.open manifest limit).Sound version disk := by
  have fresh := @openFiles_fresh manifest (fun _ => none) []
    (by rw [List.length_nil]; omega) (by nofun)
  have absent : ∀ path file, (StoreState.open manifest limit).files path = some file →
      ∀ index, file.has index = false := by
    intro path file found index
    rw [FileState.has, (fresh path file found).2]
    exact bitGet_noBlocks _ _
  refine ⟨fun path file found => (fresh path file found).1, sized,
    fun path file found index within => ?_,
    fun path file found index has => ?_, .new limit, fun _ key len => ⟨?_, ?_⟩,
    fun _ => rfl, ?_⟩
  · rw [(fresh path file found).2, noBlocks, List.length_replicate]
    have size : block = 65536 := rfl
    rw [size] at within ⊢
    omega
  · rw [absent path file found] at has
    cases has
  · intro held
    cases held
  · rintro ⟨path, file, found, -, has, -⟩
    rw [absent path file found] at has
    cases has
  · intro key count pinned
    cases pinned

theorem StoreState.Sound.open (few : manifest.length ≤ 2 ^ 32)
    (sizes : ∀ file ∈ manifest, file.size = (version file.path).length) (limit : Nat) (disk : Disk)
    : (StoreState.open manifest limit).Sound version disk :=
  StoreState.sound_open few limit (openFiles_size sizes nofun) disk

theorem Projection.Sound.open (gateway : Objects) (few : manifest.length ≤ 2 ^ 32)
    (sizes : ∀ file ∈ manifest, file.size = (version file.path).length) (limit : Nat)
    : (Projection.open gateway manifest limit).Sound version :=
  ⟨.open few sizes limit _, fun _ _ => rfl, fun _ member => absurd member List.not_mem_nil⟩

end Opening

-- What a step leaves of the store

/-- A read is about to mark a run, which ends with an eviction. -/
def Projection.Evicts (projection : Projection) : Event → Prop
  | .advance place _ =>
      projection.poisoned = false
      ∧ ∃ read bytes run rest,
        projection.reads[place]? = some read ∧ read.phase = .marking bytes run rest
  | _ => False

/-- A block that a read holds stays present. -/
def Projection.KeepsPinned (projection : Projection) (event : Event) : Prop :=
  ∀ read ∈ projection.reads, ∀ index, read.pinning (read.fileId, index) = true
    → ∀ file, projection.state.files read.path = some file → file.has index = true
      → ∃ next, (projection.step event).state.files read.path = some next
        ∧ next.has index = true

/-- An eviction ends within the limit, or with pinned blocks only. -/
def Projection.Settles (projection : Projection) (event : Event) : Prop :=
  projection.Evicts event
    → (projection.step event).state.residency.overLimit = false
      ∨ ∀ key entry,
          (projection.step event).state.residency.entries.lookup key = some entry
          → ((projection.step event).state.residency.pins.lookup key).isSome = true

section Steps

variable {version : Text → Bytes} {projection : Projection}

/-- Only a read that marks a run changes which blocks are present. -/
theorem Projection.advance_files {read : Read} (given : Surroundings)
    (other
      : ¬(projection.poisoned = false ∧ ∃ bytes run rest, read.phase = .marking bytes run rest))
    : (projection.advance read given).1.files = projection.state.files := by
  rw [Projection.advance]
  split
  · dsimp only
    split
    · rfl
    · split
      · rfl
      · rfl
  · split
    · rfl
    · rfl
  · rename_i bytes run rest phase
    split
    · rfl
    · rename_i running
      exact absurd ⟨Bool.eq_false_of_not_eq_true running, bytes, run, rest, phase⟩ other
  · rfl
  · split
    · rfl
    · rfl
  · rfl

/-- What an eviction leaves. -/
theorem Projection.Sound.evicts (sound : projection.Sound version) {event : Event}
    (evicts : projection.Evicts event)
    : projection.state.Keeps version
        (fun key => (projection.state.residency.pins.lookup key).isSome = true)
        (projection.step event).state projection.disk (projection.step event).disk
      ∧ ((projection.step event).state.residency.overLimit = false
        ∨ ∀ key entry,
            (projection.step event).state.residency.entries.lookup key = some entry
            → ((projection.step event).state.residency.pins.lookup key).isSome = true) := by
  cases event with
  | advance place given =>
      obtain ⟨running, read, bytes, run, rest, at_place, phase⟩ := evicts
      obtain ⟨-, keeps, -, -, ends⟩ :=
        sound.mark running (List.mem_of_getElem? at_place) phase given.punches
      have goes
          : (projection.step (.advance place given)).state
              = (projection.state.mark projection.disk read bytes run given.punches).1
            ∧ (projection.step (.advance place given)).disk
              = (projection.state.mark projection.disk read bytes run given.punches).2 := by
        rw [Projection.step, at_place]
        dsimp only
        rw [Projection.advance, phase]
        simp only [running, Bool.false_eq_true, if_false, and_self]
      rw [goes.1, goes.2]
      exact ⟨keeps, ends⟩
  | start path offset size => exact evicts.elim
  | cancel place => exact evicts.elim
  | sync gateway => exact evicts.elim

/-- A step that does not evict changes no file. -/
theorem Projection.step_files {event : Event} (idle : ¬projection.Evicts event)
    : (projection.step event).state.files = projection.state.files := by
  cases event with
  | start path offset size =>
      rw [Projection.step, Projection.start]
      split
      · rfl
      · split
        · rfl
        · split
          · rfl
          · dsimp only
            split
            · rfl
            · rfl
  | advance place given =>
      rw [Projection.step]
      split
      · rfl
      · rename_i read at_place
        refine Projection.advance_files given fun marking => idle ⟨marking.1, read, ?_⟩
        obtain ⟨bytes, run, rest, phase⟩ := marking.2
        exact ⟨bytes, run, rest, at_place, phase⟩
  | cancel place =>
      rw [Projection.step]
      split
      · rfl
      · split
        · rfl
        · rfl
  | sync gateway => rfl

theorem Projection.Sound.keepsPinned (sound : projection.Sound version) (event : Event)
    : projection.KeepsPinned event := by
  intro read member index holds file found has
  by_cases evicts : projection.Evicts event
  · obtain ⟨keeps, -⟩ := sound.evicts evicts
    obtain ⟨next, found', -, blocks⟩ := keeps read.path file found
    have running : projection.poisoned = false := by
      cases event with
      | advance place given => exact evicts.1
      | start path offset size => exact evicts.elim
      | cancel place => exact evicts.elim
      | sync gateway => exact evicts.elim
    obtain ⟨file', found'', id, -⟩ :=
      (sound.reads read member).bounds (Read.pinning_iff.mp holds).1
    cases found.symm.trans found''
    refine ⟨next, found', (blocks index ?_).1 has⟩
    rw [id]
    exact sound.pinned running member holds
  · exact ⟨file, by rw [Projection.step_files evicts]; exact found, has⟩

theorem Projection.Sound.settles (sound : projection.Sound version) (event : Event)
    : projection.Settles event :=
  fun evicts => (sound.evicts evicts).2

end Steps

-- Runs

/-- The gateway's file under each name does not change, though it may come and go. -/
def Unchanging (version : Text → Bytes) (_ : Projection) : Event → Prop
  | .sync gateway => ∀ path content, gateway path = some content → content = version path
  | _ => True

/-- A successful read returned the bytes it asked for, as far as the file goes. -/
def Projection.Serves (version : Text → Bytes) (projection : Projection) : Prop :=
  ∀ read ∈ projection.reads, ∀ bytes, read.phase = .done (.ok bytes)
    → bytes
      = slice (version read.path) read.offset
          (min (read.offset + read.size) (version read.path).length)

/-- What the bookkeeping says. Where it is on, the entries are the present blocks with their
lengths, each in the queue of its kind, and the byte counts are sums that no entry exceeds.
-/
structure Projection.Kept (version : Text → Bytes) (projection : Projection) : Prop where
  present
    : ∀ path file, projection.state.files path = some file
        → ∀ index, file.has index = true → projection.disk.Holds version path index
  queued : projection.state.residency.Queued
  tracked
    : projection.state.residency.limit ≠ 0
        → ∀ key len,
          projection.state.residency.lenOf key = some len ↔ projection.state.Present key len
  fits
    : ∀ key entry, projection.state.residency.entries.lookup key = some entry
        → entry.len ≤ projection.state.residency.residentBytes
          ∧ (entry.isProtected = true
            → entry.len ≤ projection.state.residency.protectedBytes)
  off
    : projection.state.residency.limit = 0
        → projection.state.residency.entries = ∅
          ∧ projection.state.residency.probation.rows = []
          ∧ projection.state.residency.protectedQueue.rows = []
          ∧ projection.state.residency.residentBytes = 0
          ∧ projection.state.residency.protectedBytes = 0

section Runs

variable {version : Text → Bytes} {projection : Projection}

theorem Projection.Sound.serves (sound : projection.Sound version)
    : projection.Serves version :=
  fun read member _ phase => ((sound.reads read member).answered _ (.inr phase)).2

theorem Projection.Sound.kept (sound : projection.Sound version) : projection.Kept version := by
  refine ⟨fun path file found index has => (sound.state.present path file found index has).2,
    sound.state.queued, sound.state.tracked,
    fun key entry found => sound.state.queued.len_le found, fun zero => ?_⟩
  have empty := sound.state.off zero
  have queued := sound.state.queued
  refine ⟨empty, ?_, ?_, ?_, ?_⟩
  · refine List.eq_nil_iff_forall_not_mem.mpr fun row member => ?_
    obtain ⟨entry, found, -⟩ := queued.probation row member
    rw [empty] at found
    cases found
  · refine List.eq_nil_iff_forall_not_mem.mpr fun row member => ?_
    obtain ⟨entry, found, -⟩ := queued.protectedQueue row member
    rw [empty] at found
    cases found
  · rw [queued.resident, empty]
    rfl
  · rw [queued.guarded, empty]
    rfl

theorem answered_of_names
    (names : ∀ path content, projection.gateway path = some content → content = version path)
    (event : Event)
    : projection.Answered version event := by
  cases event with
  | advance place given => exact fun read _ _ _ _ content found => names read.path content found
  | start path offset size => trivial
  | cancel place => trivial
  | sync gateway => trivial

/-- Only a sync changes the gateway. -/
theorem Projection.names_step
    (names : ∀ path content, projection.gateway path = some content → content = version path)
    {event : Event} (unchanging : Unchanging version projection event)
    : ∀ path content, (projection.step event).gateway path = some content
        → content = version path := by
  have same : (∀ gateway, event ≠ .sync gateway) →
      (projection.step event).gateway = projection.gateway := by
    intro other
    cases event with
    | start path offset size =>
        rw [Projection.step, Projection.start]
        split
        · rfl
        · split
          · rfl
          · split
            · rfl
            · dsimp only
              split
              · rfl
              · rfl
    | advance place given =>
        rw [Projection.step]
        split
        · rfl
        · rfl
    | cancel place =>
        rw [Projection.step]
        split
        · rfl
        · split
          · rfl
          · rfl
    | sync gateway => exact absurd rfl (other gateway)
  cases event with
  | sync gateway => exact unchanging
  | start path offset size => rw [same (by intro _ other; cases other)]; exact names
  | advance place given => rw [same (by intro _ other; cases other)]; exact names
  | cancel place => rw [same (by intro _ other; cases other)]; exact names

theorem along_answered
    (names : ∀ path content, projection.gateway path = some content → content = version path)
    {events : List Event}
    (unchanging : Runs.Along Projection.step (Unchanging version) projection events)
    : Runs.Along Projection.step (Projection.Answered version) projection events := by
  induction events generalizing projection with
  | nil => trivial
  | cons event events ih =>
      exact ⟨answered_of_names names event,
        ih (Projection.names_step names unchanging.1) unchanging.2⟩

theorem run_projection_sound (gateway : Objects) {manifest : List OdbFile} (limit : Nat)
    {events : List Event} (few : manifest.length ≤ 2 ^ 32)
    (sizes : ∀ file ∈ manifest, file.size = (version file.path).length)
    (answered
      : Runs.Along Projection.step (Projection.Answered version)
          (.open gateway manifest limit) events)
    : ∀ projection ∈ Runs.states Projection.step (.open gateway manifest limit) events,
        projection.Sound version :=
  @Runs.invariant _ _ Projection.step (Projection.Answered version)
    (fun projection => projection.Sound version)
    (fun _ _ right answered => right.step answered)
    _ events (.open gateway few sizes limit) answered

/-- In every run over files that do not change, successful reads return the files' bytes, the
present blocks hold them, the bookkeeping follows the present blocks, no step evicts a block that
a read holds, and evictions end within the limit or with pinned blocks only. Witness:
`sample_projection_serves`.
-/
theorem run_projection_serves (version : Text → Bytes) (gateway : Objects)
    (manifest : List OdbFile) (limit : Nat) (events : List Event)
    (few : manifest.length ≤ 2 ^ 32)
    (sizes : ∀ file ∈ manifest, file.size = (version file.path).length)
    (names : ∀ path content, gateway path = some content → content = version path)
    (unchanging
      : Runs.Along Projection.step (Unchanging version)
          (.open gateway manifest limit) events)
    : (∀ projection ∈ Runs.states Projection.step (.open gateway manifest limit) events,
        projection.Serves version ∧ projection.Kept version)
      ∧ ∀ projection ∈ Runs.states Projection.step (.open gateway manifest limit) events,
          ∀ event, projection.KeepsPinned event ∧ projection.Settles event := by
  have sound :=
    run_projection_sound gateway limit few sizes
      (@along_answered version (.open gateway manifest limit) names events unchanging)
  refine ⟨fun projection member => ?_, fun projection member event => ?_⟩
  · exact ⟨(sound projection member).serves, (sound projection member).kept⟩
  · exact ⟨(sound projection member).keepsPinned event, (sound projection member).settles event⟩

/-- In every run whose fetches are answered from one version, everything that a read returns is
that version's. Witness: `sample_projection_one_version`.
-/
theorem run_projection_one_version (version : Text → Bytes) (gateway : Objects)
    (manifest : List OdbFile) (limit : Nat) (events : List Event)
    (few : manifest.length ≤ 2 ^ 32)
    (sizes : ∀ file ∈ manifest, file.size = (version file.path).length)
    (answered
      : Runs.Along Projection.step (Projection.Answered version)
          (.open gateway manifest limit) events)
    : ∀ projection ∈ Runs.states Projection.step (.open gateway manifest limit) events,
        projection.Serves version := by
  exact fun projection member =>
    (run_projection_sound gateway limit few sizes answered projection member).serves

end Runs

-- A chain that is replaced

/-- The chain of a split commit-graph. -/
def chain : Text := "info/commit-graphs/commit-graph-chain".toList

/-- A commit-graph in one file. -/
def graph : Text := "info/commit-graph".toList

/-- A gateway with these two files. -/
def graphs (content : Bytes) : Objects :=
  fun path => if path = chain then some content else if path = graph then some [7] else none

/-- Their manifest. -/
def graphManifest : List OdbFile := [⟨chain, 3⟩, ⟨graph, 1⟩]

/-- The bytes of each name. -/
def graphVersion (content : Bytes) (path : Text) : Bytes :=
  (graphs content path).getD []

/-- A request is answered in full, and every file operation succeeds. -/
def wholeBody : Surroundings :=
  ⟨.ok block, none, fun _ => true, true⟩

/-- A read of a file of one block from its first byte on. -/
def readWhole (path : Text) (size place : Nat) : List Event :=
  .start path 0 size :: List.replicate 5 (.advance place wholeBody)

/-- The chain is read, then the graph, with room for neither, and the chain again once the gateway
has changed.
-/
def turns (gateway : Objects) : List Event :=
  readWhole chain 3 0 ++ readWhole graph 9 1 ++ [.sync gateway] ++ readWhole chain 3 2

/-- What has been read, and how each read stands. -/
def Projection.answers (projection : Projection) : List (Text × Nat × Nat × Phase) :=
  projection.reads.map (fun read => (read.path, read.offset, read.size, read.phase))

/-- Reads serve what the gateway has, and the last one fails once the chain is gone. -/
theorem sample_projection_serves
    : (∀ projection ∈ Runs.states Projection.step
            (.open (graphs [1, 2, 3]) graphManifest 1) (turns fun _ => none),
          projection.Serves (graphVersion [1, 2, 3]) ∧ projection.Kept (graphVersion [1, 2, 3]))
      ∧ ((turns fun _ => none).foldl Projection.step
            (.open (graphs [1, 2, 3]) graphManifest 1)).answers.take 2
        = [(chain, 0, 3, .done (.ok [1, 2, 3])), (graph, 0, 9, .done (.ok [7]))] := by
  have right :=
    run_projection_serves (graphVersion [1, 2, 3]) (graphs [1, 2, 3]) graphManifest 1
      (turns fun _ => none) (by decide) (by decide)
      (fun path content found => by rw [graphVersion, found]; rfl)
      (by simp [turns, readWhole, List.replicate, Runs.Along, Unchanging])
  exact ⟨right.1, by decide⟩

/-- Where the limit is zero the bookkeeping is off, and a present block is in no queue. -/
theorem bookkeeping_is_off_at_zero
    : let projection :=
        (readWhole graph 9 0).foldl Projection.step (.open (graphs []) graphManifest 0)
      projection.answers = [(graph, 0, 9, .done (.ok [7]))]
      ∧ ¬∀ key len,
          projection.state.residency.lenOf key = some len ↔ projection.state.Present key len := by
  refine ⟨by decide, fun tracked => ?_⟩
  obtain ⟨file, found, id, has, len⟩ : ∃ file,
      ((readWhole graph 9 0).foldl Projection.step
        (.open (graphs []) graphManifest 0)).state.files graph = some file
      ∧ file.id = 1
      ∧ file.has 0 = true
      ∧ file.blockLen 0 = 1 :=
    ⟨⟨1, 1, [1#64], [1#64]⟩, by decide, rfl, by decide, by decide⟩
  exact absurd ((tracked (1, 0) 1).mpr ⟨graph, file, found, id, has, len⟩) (by decide)

/-- Every fetch of a chain that has been taken away fails, so what is read is of one version. -/
theorem sample_projection_one_version
    : Runs.Along Projection.step (Unchanging (graphVersion [1, 2, 3]))
        (.open (graphs [1, 2, 3]) graphManifest 1) (turns fun _ => none)
      ∧ ∀ projection ∈ Runs.states Projection.step
            (.open (graphs [1, 2, 3]) graphManifest 1) (turns fun _ => none),
          projection.Serves (graphVersion [1, 2, 3]) := by
  have unchanging
      : Runs.Along Projection.step (Unchanging (graphVersion [1, 2, 3]))
          (.open (graphs [1, 2, 3]) graphManifest 1) (turns fun _ => none) := by
    simp [turns, readWhole, List.replicate, Runs.Along, Unchanging]
  refine ⟨unchanging,
    run_projection_one_version (graphVersion [1, 2, 3]) (graphs [1, 2, 3]) graphManifest 1
      (turns fun _ => none) (by decide) (by decide)
      (along_answered (fun path content found => ?_) unchanging)⟩
  rw [graphVersion, show graphs [1, 2, 3] path = some content from found]
  rfl

/-- A sync replaces the chain under its name after its block is evicted, and a second read of it
returns the other version.
-/
theorem chain_is_read_in_two_versions
    : isServable chain = true
      ∧ ¬∃ version : Text → Bytes,
          ((turns (graphs [1, 2, 4])).foldl Projection.step
            (.open (graphs [1, 2, 3]) graphManifest 1)).Serves version := by
  refine ⟨by decide, ?_⟩
  rintro ⟨version, serves⟩
  have answers
      : ((turns (graphs [1, 2, 4])).foldl Projection.step
            (.open (graphs [1, 2, 3]) graphManifest 1)).answers
        = [(chain, 0, 3, .done (.ok [1, 2, 3])), (graph, 0, 9, .done (.ok [7])),
            (chain, 0, 3, .done (.ok [1, 2, 4]))] := by
    decide
  have told : ∀ bytes, (chain, 0, 3, Phase.done (.ok bytes))
        ∈ ((turns (graphs [1, 2, 4])).foldl Projection.step
            (.open (graphs [1, 2, 3]) graphManifest 1)).answers →
      bytes = slice (version chain) 0 (min (0 + 3) (version chain).length) := by
    intro bytes member
    obtain ⟨read, listed, same⟩ := List.mem_map.mp member
    simp only [Prod.mk.injEq] at same
    obtain ⟨path, offset, size, phase⟩ := same
    rw [← path, ← offset, ← size]
    exact serves read listed bytes phase
  have first := told [1, 2, 3] (by rw [answers]; exact List.mem_cons_self)
  have second := told [1, 2, 4] (by rw [answers]; simp)
  exact absurd (first.trans second.symm) (by decide)

end Gfs.Mount.Odb
