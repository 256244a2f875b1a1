import Gfs.Mount.Scanning

/-! One-pass scans (`gfs-mount/src/odb.rs`), and one by reads of half a block, which reads every
block of its file again.
-/

namespace Gfs.Mount.Odb

open Gfs.Types
open Gfs.Lib
open Gfs.Service.Odb

/-- The sizes of the files that the store knows. -/
def StoreState.sizes (state : StoreState) (path : Text) : Option Nat :=
  (state.files path).map FileState.size

-- One-pass scans

/-- A file that a scan reads, and the sizes of its reads. -/
abbrev Pass := Text × List Nat

/-- Reads of a file, each from where the one before it ends. -/
def consecutive (path : Text) : Nat → List Nat → List (Text × Nat × Nat)
  | _, [] => []
  | offset, size :: sizes => (path, offset, size) :: consecutive path (offset + size) sizes

/-- The reads that some events start. -/
def startedReads : List Event → List (Text × Nat × Nat)
  | [] => []
  | .start path offset size :: events => (path, offset, size) :: startedReads events
  | _ :: events => startedReads events

/-- A scan reads each of some files that were never read once, from its start to its end, by reads
of at least a byte and at most half the limit.
-/
structure Projection.OnePass (projection : Projection) (limit : Nat) (passes : List Pass)
    (scan : List Event)
    : Prop where
  reads : startedReads scan = passes.flatMap (fun pass => consecutive pass.1 0 pass.2)
  serial : Runs.Along Projection.step Serial projection scan
  once : (passes.map Prod.fst).Nodup
  fresh
    : ∀ pass ∈ passes,
        pass.1 ∉ projection.reads.map Read.path
        ∧ ∃ length, projection.state.sizes pass.1 = some length ∧ length ≤ pass.2.sum
  sizes : ∀ pass ∈ passes, ∀ size ∈ pass.2, 1 ≤ size ∧ size ≤ limit / 2

/-- A one-pass scan evicts no block that was protected when it started. -/
def ScanResistant : Prop :=
  ∀ (gateway : Objects) (manifest : List OdbFile) (limit : Nat) (before scan : List Event)
    (passes : List Pass),
    manifest.length ≤ 2 ^ 32 →
    4 * block ≤ limit →
    (Projection.reached gateway manifest limit before).Quiet →
    (Projection.reached gateway manifest limit before).OnePass limit passes scan →
    ∀ projection ∈ Runs.states Projection.step (.reached gateway manifest limit before) scan,
      ∀ key,
        (Projection.reached gateway manifest limit before).state.residency.guards key = true →
        ∃ len, projection.state.Present key len

-- Runs over blank files

section Blank

variable {lengths : Text → Option Nat} {projection : Projection}

/-- A gateway with files of these lengths, all zero bytes. -/
def blank (lengths : Text → Option Nat) : Objects :=
  fun path => (lengths path).map (fun length => List.replicate length 0)

/-- What a read does next where the whole range that it waits for arrives from a blank file. -/
def Read.arrival (lengths : Text → Option Nat) (read : Read) (given : Surroundings)
    : Option Phase :=
  match read.phase, lengths read.path, given.arrives with
  | .fetching run rest, some length, .ok most =>
      let (start, last) := read.range run
      if isServable read.path ∧ start ≤ last ∧ last < length ∧ last - start < most then
        some (.writing (List.replicate (last - start + 1) 0) run rest)
      else none
  | _, _, _ => none

/-- A step over blank files that counts what arrives by the files' lengths. -/
def Projection.quick (lengths : Text → Option Nat) (projection : Projection) (event : Event)
    : Projection :=
  match event with
  | .advance place given =>
      match projection.reads[place]? with
      | none => projection
      | some read =>
          match read.arrival lengths given with
          | some phase =>
              { projection with reads := projection.reads.set place { read with phase } }
          | none => projection.step event
  | _ => projection.step event

theorem Projection.advance_arrival (gateway : projection.gateway = blank lengths) {read : Read}
    {given : Surroundings} {phase : Phase} (arrives : read.arrival lengths given = some phase)
    : projection.advance read given
      = (projection.state, projection.disk, { read with phase }) := by
  rw [Read.arrival] at arrives
  split at arrives
  · rename_i run rest length most fetching known arrived
    dsimp only at arrives
    split_ifs at arrives with whole
    obtain ⟨servable, ordered, within, enough⟩ := whole
    cases arrives
    have answered
        : readRange projection.gateway read.path (read.range run).1 (read.range run).2
          = .ok (List.replicate ((read.range run).2 - (read.range run).1 + 1) 0) := by
      rw [readRange, validateOdbPath, if_pos servable, gateway, blank, known]
      dsimp only [Option.map_some, bind, Except.bind, pure, Except.pure]
      rw [List.length_replicate, rangeWithin, if_neg (by omega)]
      dsimp only
      rw [slice, List.drop_replicate, List.take_replicate]
      congr 2
      omega
    rw [Projection.advance, fetching]
    dsimp only
    rw [arrived, answered]
    dsimp only [bind, Except.bind, pure, Except.pure]
    rw [List.take_replicate, Nat.min_eq_right (by omega), List.length_replicate,
      if_neg (not_not_intro rfl)]
  · cases arrives

theorem Projection.step_eq_quick (gateway : projection.gateway = blank lengths) (event : Event)
    : projection.step event = projection.quick lengths event := by
  cases event with
  | start path offset size => rfl
  | cancel place => rfl
  | sync gateway => rfl
  | advance place given =>
      rw [Projection.quick]
      split
      · rename_i absent
        rw [Projection.step, absent]
      · rename_i read there
        split
        · rename_i phase arrives
          rw [Projection.step, there]
          dsimp only
          rw [Projection.advance_arrival gateway arrives]
        · rfl

/-- Reads and their steps leave the gateway. -/
def Event.Serves : Event → Prop
  | .sync _ => False
  | _ => True

theorem Projection.step_gateway {event : Event} (serves : event.Serves)
    : (projection.step event).gateway = projection.gateway := by
  cases event with
  | start path offset size =>
      rw [Projection.step, Projection.start]
      split
      · rfl
      · split
        · rfl
        · split
          · rfl
          · dsimp only
            split
            · rfl
            · rfl
  | advance place given =>
      rw [Projection.step]
      split
      · rfl
      · rfl
  | cancel place =>
      rw [Projection.step]
      split
      · rfl
      · split
        · rfl
        · rfl
  | sync gateway => exact serves.elim

theorem Projection.run_eq_quick (gateway : projection.gateway = blank lengths)
    {events : List Event} (serves : ∀ event ∈ events, event.Serves)
    (allowed : Projection → Event → Prop)
    : events.foldl Projection.step projection
        = events.foldl (Projection.quick lengths) projection
      ∧ (Runs.Along Projection.step allowed projection events
        ↔ Runs.Along (Projection.quick lengths) allowed projection events) := by
  induction events generalizing projection with
  | nil => exact ⟨rfl, Iff.rfl⟩
  | cons event events ih =>
      obtain ⟨own, others⟩ := List.forall_mem_cons.mp serves
      obtain ⟨same, along⟩ := ih ((Projection.step_gateway own).trans gateway) others
      rw [List.foldl_cons, List.foldl_cons, Runs.Along, Runs.Along,
        ← Projection.step_eq_quick gateway]
      exact ⟨same, and_congr_right fun _ => along⟩

end Blank

-- A file of two blocks, and one of three

/-- The lengths of a chain of two blocks and a graph of three. -/
def blockyManifest : List OdbFile := [⟨chain, 2 * block⟩, ⟨graph, 3 * block⟩]

/-- The files of this manifest, by path. -/
def blocky (path : Text) : Option Nat :=
  (blockyManifest.find? (fun file => file.path = path)).map OdbFile.size

/-- Reads in turn, each with the steps it takes where nothing fails. -/
def inTurn : Nat → List (Text × Nat × Nat) → List Event
  | _, [] => []
  | place, (path, offset, size) :: reads =>
      .start path offset size
        :: List.replicate 5 (.advance place ⟨.ok (3 * block), none, fun _ => true, true⟩)
        ++ inTurn (place + 1) reads

/-- The chain, read twice. -/
def twice : List Event := inTurn 0 [(chain, 0, 2 * block), (chain, 0, 2 * block)]

/-- The graph, by half blocks. -/
def byHalves : List Nat := List.replicate 6 (block / 2)

/-- The graph, read once, by half blocks. -/
def scanned : List Event := inTurn 2 (consecutive graph 0 byHalves)

instance (projection : Projection) : Decidable projection.Quiet :=
  inferInstanceAs (Decidable (∀ read ∈ projection.reads, read.phase.live = false))

instance (projection : Projection) : DecidablePred (Serial projection)
  | .start _ _ _ => inferInstanceAs (Decidable projection.Quiet)
  | .advance _ _ => .isTrue trivial
  | .cancel _ => .isTrue trivial
  | .sync _ => .isTrue trivial

theorem inTurn_serves (place : Nat) (reads : List (Text × Nat × Nat))
    : ∀ event ∈ inTurn place reads, event.Serves := by
  induction reads generalizing place with
  | nil => exact fun _ member => nomatch member
  | cons read reads ih =>
      intro event member
      rcases List.mem_cons.mp member with rfl | later
      · trivial
      · rcases List.mem_append.mp later with step | other
        · rw [List.eq_of_mem_replicate step]
          trivial
        · exact ih (place + 1) event other

/-- A scan by half blocks finds each of its blocks present once. They push the protected ones out of
the protected half, and the last block evicts one of those.
-/
theorem not_scanResistant : ¬ScanResistant := by
  intro resistant
  have few : blockyManifest.length ≤ 2 ^ 32 := by decide
  have serves : ∀ event ∈ twice ++ scanned, event.Serves := fun event member =>
    (List.mem_append.mp member).elim (inTurn_serves _ _ event) (inTurn_serves _ _ event)
  obtain ⟨ends, serial⟩ :=
    @Projection.run_eq_quick blocky (.open (blank blocky) blockyManifest (4 * block)) rfl _ serves
      Serial
  have before
      : Projection.reached (blank blocky) blockyManifest (4 * block) twice
        = twice.foldl (Projection.quick blocky)
            (.open (blank blocky) blockyManifest (4 * block)) :=
    (Projection.run_eq_quick rfl (inTurn_serves _ _) Serial).1
  have onePass
      : (Projection.reached (blank blocky) blockyManifest (4 * block) twice).OnePass (4 * block)
          [(graph, byHalves)] scanned := by
    refine ⟨by decide +kernel, (Runs.Along.append.mp (serial.mpr (by decide +kernel))).2, by decide,
      fun pass member => ?_, fun pass member size listed => ?_⟩
    · cases List.mem_singleton.mp member
      rw [before]
      exact ⟨by decide +kernel, 3 * block, by decide +kernel, by decide⟩
    · cases List.mem_singleton.mp member
      rw [List.eq_of_mem_replicate listed]
      decide
  obtain ⟨len, present⟩ :=
    resistant (blank blocky) blockyManifest (4 * block) twice scanned [(graph, byHalves)] few le_rfl
      (by rw [before]; decide +kernel) onePass _ (Runs.foldl_mem_states _ _ _) (0, 0)
      (by rw [before]; decide +kernel)
  rw [Projection.reached, ← List.foldl_append] at present
  have booked := Projection.Booked.reached (blank blocky) few (4 * block) (twice ++ scanned)
  obtain ⟨version, disk, sound⟩ := booked.tracked
  have resident := (sound.tracked (by rw [booked.limit]; decide) (0, 0) len).mpr present
  have gone
      : ((twice ++ scanned).foldl (Projection.quick blocky)
            (.open (blank blocky) blockyManifest (4 * block))).state.residency.lenOf (0, 0)
        = none := by
    decide +kernel
  rw [Projection.reached, ends, gone] at resident
  cases resident

end Gfs.Mount.Odb
