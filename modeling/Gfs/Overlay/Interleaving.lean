import Gfs.Overlay.Crash

/-! Callers that share an overlay (`gfs-overlay/src/lib.rs`): every acquisition of its lock is
one section. Most operations are a single section; `set_executable` and `set_times` read a row
in one and write a copy of it in another, and anything may run between the two.
-/

namespace Gfs.Overlay

open Gfs.Types Gfs.Lib.Runs Std

-- Sections

/-- What a caller changes about a row once it has read it. -/
inductive Restyle where
  | executable (wanted : Bool)
  | times (mtime : Option Timestamp)

namespace Restyle

/-- The operation that makes the change. -/
def mutation (restyle : Restyle) (path : BytePath) (base : Option BaseFacts) (ino : Nat)
    : Mutation :=
  match restyle with
  | .executable wanted => .setExecutable path base ino wanted
  | .times mtime => .setTimes path base ino mtime

/-- The operation's second section, given the row its first one read. -/
def attempt (restyle : Restyle) (overlay : Overlay) (host : Timestamp) (entry : OverlayEntry)
    : Attempt OverlayEntry :=
  match restyle with
  | .executable wanted => overlay.attemptExecutable host entry wanted
  | .times mtime => overlay.attemptTimes host entry mtime

/-- The row is as wanted, and the lock is not taken again. -/
def satisfied (restyle : Restyle) (entry : OverlayEntry) : Bool :=
  match restyle with
  | .executable wanted =>
      entry.kind.isDir || entry.kind == .symlink
        || entry.kind == if wanted then .executable else .regular
  | .times _ => false

end Restyle

/-- A caller between its two sections: its arguments, the row it read, and whether its first
section adopted that row from the base.
-/
structure Waiting where
  restyle : Restyle
  path : BytePath
  base : Option BaseFacts
  ino : Nat
  weather : Weather
  entry : OverlayEntry
  adopted : Bool

def Waiting.mutation (waiting : Waiting) : Mutation :=
  waiting.restyle.mutation waiting.path waiting.base waiting.ino

/-- An overlay and its callers. `completed` has the operations that returned, in the order of
their last sections.
-/
structure Shared where
  durable : Durable
  waiting : Nat → Option Waiting
  completed : List (Mutation × Weather)

/-- A caller takes the lock: it begins an operation, or comes to its second section. -/
inductive Section where
  | enter (caller : Nat) (mutation : Mutation) (weather : Weather)
  | resume (caller : Nat)

namespace Shared

/-- Nobody has called yet. -/
def idle (durable : Durable) : Shared :=
  ⟨durable, fun _ => none, []⟩

/-- The operation returns. -/
def complete (state : Shared) (durable : Durable) (mutation : Mutation) (weather : Weather)
    : Shared :=
  { state with durable, completed := state.completed ++ [(mutation, weather)] }

/-- The first section of an operation that has two. -/
def read (state : Shared) (caller : Nat) (restyle : Restyle) (path : BytePath)
    (base : Option BaseFacts) (ino : Nat) (weather : Weather)
    : Shared :=
  match
    state.durable.perform (state.durable.memory.attemptAdopt (weather.clock 0) path base ino)
      (weather.journal 0)
  with
  | (.error _, durable) =>
      state.complete durable (restyle.mutation path base ino) weather
  | (.ok entry, durable) =>
      if restyle.satisfied entry then
        state.complete durable (restyle.mutation path base ino) weather
      else
        let adopted := resolve state.durable.memory.entries path == .base
        {
          state with
          durable
          waiting :=
            Function.update state.waiting caller
              (some ⟨restyle, path, base, ino, weather, entry, adopted⟩)
        }

/-- A caller begins an operation. -/
def enter (state : Shared) (caller : Nat) (mutation : Mutation) (weather : Weather) : Shared :=
  match mutation with
  | .setExecutable path base ino executable =>
      state.read caller (.executable executable) path base ino weather
  | .setTimes path base ino mtime => state.read caller (.times mtime) path base ino weather
  | .createFile .. | .mkdir .. | .symlink .. | .materialize .. | .writeContent ..
  | .truncate .. | .adopt .. | .remove .. | .rename .. | .referenceBase .. =>
      state.complete (state.durable.apply weather mutation).2 mutation weather
  -- The daemon's own operations are not calls that share the lock with these.
  | _ => state

/-- A caller writes its copy of the row it read. -/
def resume (state : Shared) (caller : Nat) : Shared :=
  match state.waiting caller with
  | none => state
  | some waiting =>
      let second :=
        waiting.restyle.attempt state.durable.memory (waiting.weather.clock 1) waiting.entry
      let state := { state with waiting := Function.update state.waiting caller none }
      state.complete (state.durable.perform second (waiting.weather.journal 1)).2
        waiting.mutation waiting.weather

/-- One section. A caller between its sections begins nothing else. -/
def step (state : Shared) : Section → Shared
  | .enter caller mutation weather =>
      if (state.waiting caller).isSome then state else state.enter caller mutation weather
  | .resume caller => state.resume caller

end Shared

-- What is promised, and when

/-- The operations one after the other. -/
def serially (start : Durable) (order : List (Mutation × Weather)) : Durable :=
  order.foldl (fun state call => (state.apply call.2 call.1).2) start

/-- The rows and the content files are those of the completed operations in some order. -/
def Serialized (start : Durable) (state : Shared) : Prop :=
  ∃ order : List (Mutation × Weather),
    order.Perm state.completed
    ∧ (serially start order).memory.entries = state.durable.memory.entries
    ∧ (serially start order).memory.files = state.durable.memory.files

/-- Every row's local content is there: none was released. -/
def Unreleased (state : Shared) : Prop :=
  ∀ (path : BytePath) (id : Nat),
    Holds state.durable.memory.entries path id → id ∈ state.durable.memory.files

/-- The caller's first section adopted the row, and its second is still to come. -/
def Shared.Adopting (state : Shared) (caller : Nat) : Prop :=
  ∃ waiting, state.waiting caller = some waiting ∧ waiting.adopted = true

/-- A first section that finds a row, and something to change about it. -/
def Restyle.Finds (restyle : Restyle) (overlay : Overlay) (path : BytePath) : Prop :=
  pathCondition path = .ok () ∧ path ≠ []
  ∧ ∃ entry, resolve overlay.entries path = .overlay entry ∧ restyle.satisfied entry = false

def Finds (overlay : Overlay) : Mutation → Prop
  | .setExecutable path _ _ executable => (Restyle.executable executable).Finds overlay path
  | .setTimes path _ _ mtime => (Restyle.times mtime).Finds overlay path
  | _ => False

/-- The condition on one section. A caller that writes its copy of a row finds that row as it
read it. From an adoption to the change that follows it the other sections only read: a clock
reading taken between the two would fall between the row's times.
-/
def Undisturbed (state : Shared) : Section → Prop
  | .enter _ mutation _ =>
      Careful state.durable mutation
      ∧ ∀ caller, state.Adopting caller → Finds state.durable.memory mutation
  | .resume caller =>
      ∀ waiting, state.waiting caller = some waiting
        → (waiting.adopted = false
            → resolve state.durable.memory.entries waiting.path = .overlay waiting.entry)
          ∧ ∀ other, state.Adopting other → other = caller

-- First and second sections

section Sections

variable {start : Durable} {state : Shared} {caller : Nat} {restyle : Restyle}
  {path : BytePath} {base : Option BaseFacts} {ino : Nat} {weather : Weather}

theorem Restyle.apply_mutation (state : Durable)
    : (state.apply weather (restyle.mutation path base ino)).2
      = (state.adoptThen weather path base ino (fun overlay entry =>
          restyle.attempt overlay (weather.clock 1) entry)).2 := by
  cases restyle <;> rfl

variable {entry : OverlayEntry} {durable : Durable}

theorem Restyle.attempt_satisfied (satisfied : restyle.satisfied entry = true) (overlay : Overlay)
    (host : Timestamp)
    : restyle.attempt overlay host entry = .done entry overlay := by
  cases restyle with
  | executable wanted =>
      refine if_pos ?_
      simpa [Restyle.satisfied, or_assoc] using satisfied
  | times mtime => cases satisfied

theorem Restyle.attempt_upholds {overlay : Overlay} (stock : Stock overlay)
    (there : overlay.entries[path]? = some entry) (host : Timestamp)
    : (restyle.attempt overlay host entry).Upholds overlay := by
  cases restyle with
  | executable wanted =>
      exact (attemptExecutable_keeps stock.tidy there _ _).upholds
        (attemptExecutable_supplies stock there _ _) stock.tidy
  | times mtime =>
      exact (attemptTimes_keeps stock.tidy there _ _).upholds
        (attemptTimes_supplies stock there _ _) stock.tidy

theorem attemptAdopt_found {overlay : Overlay} (valid : pathCondition path = .ok ())
    (named : path ≠ []) (found : resolve overlay.entries path = .overlay entry) (host : Timestamp)
    : overlay.attemptAdopt host path base ino = .done entry overlay := by
  simp only [Overlay.attemptAdopt, valid, named, if_false, found]

/-- A first section that answers was given a path it accepts, and found a row or adopted
one.
-/
theorem attemptAdopt_answers {after : Durable} {host : Timestamp} {succeeds : Bool}
    (adopted
      : durable.perform (durable.memory.attemptAdopt host path base ino) succeeds
        = (.ok entry, after))
    : pathCondition path = .ok () ∧ path ≠ []
      ∧ (resolve durable.memory.entries path = .base
        ∨ (resolve durable.memory.entries path = .overlay entry ∧ after = durable)) := by
  unfold Overlay.attemptAdopt at adopted
  split at adopted
  · cases adopted
  · rename_i valid
    split at adopted
    · cases adopted
    · rename_i named
      refine ⟨valid, named, ?_⟩
      split at adopted
      · rename_i row resolved
        cases adopted
        exact Or.inr ⟨resolved, rfl⟩
      · cases adopted
      · rename_i resolved
        exact Or.inl resolved

theorem apply_of_answered {after : Durable}
    (answered
      : durable.perform (durable.memory.attemptAdopt (weather.clock 0) path base ino)
          (weather.journal 0)
        = (.ok entry, after))
    : (durable.apply weather (restyle.mutation path base ino)).2
      = (after.perform (restyle.attempt after.memory (weather.clock 1) entry)
          (weather.journal 1)).2 := by
  rw [Restyle.apply_mutation, Durable.adoptThen, answered]

theorem apply_of_refused {after : Durable} {condition : Condition}
    (refused
      : durable.perform (durable.memory.attemptAdopt (weather.clock 0) path base ino)
          (weather.journal 0)
        = (.error condition, after))
    : (durable.apply weather (restyle.mutation path base ino)).2 = after := by
  rw [Restyle.apply_mutation, Durable.adoptThen, refused]

-- The serial order

/-- The overlay is what the completed operations make of it one after the other, and at most
the row of one adoption more.
-/
structure Serial (start : Durable) (state : Shared) : Prop where
  stocked : Stocked state.durable
  checked
    : ∀ caller waiting, state.waiting caller = some waiting
        → pathCondition waiting.path = .ok () ∧ waiting.path ≠ []
  settled
    : (∀ caller, ¬ state.Adopting caller) → serially start state.completed = state.durable
  adopting
    : ∀ caller waiting, state.waiting caller = some waiting → waiting.adopted = true
        → (serially start state.completed).perform
            ((serially start state.completed).memory.attemptAdopt (waiting.weather.clock 0)
              waiting.path waiting.base waiting.ino)
            (waiting.weather.journal 0)
          = (.ok waiting.entry, state.durable)

theorem serially_append (start : Durable) (order : List (Mutation × Weather))
    (mutation : Mutation) (weather : Weather)
    : serially start (order ++ [(mutation, weather)])
      = ((serially start order).apply weather mutation).2 := by
  simp [serially]

theorem Serial.complete (serial : Serial start state) (alone : ∀ other, ¬ state.Adopting other)
    {mutation : Mutation} (stocked : Stocked durable)
    (applied : (state.durable.apply weather mutation).2 = durable)
    : Serial start (state.complete durable mutation weather) where
  stocked := stocked
  checked := serial.checked
  settled := by
    intro _
    change serially start (state.completed ++ [(mutation, weather)]) = durable
    rw [serially_append, serial.settled alone, applied]
  adopting := fun other waiting held adopted => absurd ⟨waiting, held, adopted⟩ (alone other)

theorem waiting_update {waiting : Nat → Option Waiting} {held : Option Waiting} {other : Nat}
    {found : Waiting} (there : Function.update waiting caller held other = some found)
    : (other = caller ∧ held = some found) ∨ (other ≠ caller ∧ waiting other = some found) := by
  by_cases same : other = caller
  · subst same
    exact Or.inl ⟨rfl, by simpa using there⟩
  · exact Or.inr ⟨same, by simpa [same] using there⟩

/-- A first section keeps the order. -/
theorem Serial.read (serial : Serial start state) (free : state.waiting caller = none)
    (known : Known state.durable.journal.nextIno ino)
    (reads : ∀ other, state.Adopting other → restyle.Finds state.durable.memory path)
    : Serial start (state.read caller restyle path base ino weather) := by
  have upholds
      : (state.durable.memory.attemptAdopt (weather.clock 0) path base ino).Upholds
          state.durable.memory :=
    (attemptAdopt_keeps ..).upholds (attemptAdopt_supplies _ _ _
      (known.mono serial.stocked.inos)) serial.stocked.stock.tidy
  have after := (serial.stocked.perform upholds (weather.journal 0)).2.1
  unfold Shared.read
  split
  · rename_i condition durable refused
    rw [refused] at after
    refine serial.complete ?_ after (apply_of_refused refused)
    intro other adopting
    obtain ⟨valid, named, entry, found, -⟩ := reads other adopting
    rw [attemptAdopt_found valid named found] at refused
    cases refused
  · rename_i entry durable answered
    rw [answered] at after
    obtain ⟨valid, named, origin⟩ := attemptAdopt_answers answered
    split
    · rename_i satisfied
      refine serial.complete ?_ after ?_
      · intro other adopting
        obtain ⟨-, -, row, found, unsatisfied⟩ := reads other adopting
        rw [attemptAdopt_found valid named found] at answered
        cases answered
        rw [satisfied] at unsatisfied
        cases unsatisfied
      · rw [apply_of_answered answered, Restyle.attempt_satisfied satisfied]
        rfl
    · refine ⟨after, ?_, ?_, ?_⟩
      · intro other waiting held
        rcases waiting_update held with ⟨-, same⟩ | ⟨-, before⟩
        · cases same
          exact ⟨valid, named⟩
        · exact serial.checked other waiting before
      · intro alone
        have same : durable = state.durable := by
          rcases origin with based | ⟨-, same⟩
          · refine absurd ⟨_, Function.update_self .., ?_⟩ (alone caller)
            simp [based]
          · exact same
        subst same
        refine serial.settled ?_
        rintro other ⟨waiting, held, adopted⟩
        refine alone other ⟨waiting, ?_, adopted⟩
        have apart : other ≠ caller := by
          rintro rfl
          rw [free] at held
          cases held
        exact (Function.update_of_ne apart ..).trans held
      · intro other waiting held adopted
        rcases waiting_update held with ⟨-, same⟩ | ⟨-, before⟩
        · cases same
          have alone : ∀ other, ¬ state.Adopting other := by
            intro other adopting
            obtain ⟨-, -, row, found, -⟩ := reads other adopting
            rw [found] at adopted
            cases adopted
          simp only [serial.settled alone]
          exact answered
        · obtain ⟨-, -, row, found, -⟩ := reads other ⟨waiting, before, adopted⟩
          rw [attemptAdopt_found valid named found] at answered
          cases answered
          exact serial.adopting other waiting before adopted

/-- A second section that finds the row as it was read keeps the order. -/
theorem Serial.resume (serial : Serial start state)
    (undisturbed : Undisturbed state (.resume caller))
    : Serial start (state.resume caller) := by
  unfold Shared.resume
  split
  · exact serial
  · rename_i waiting held
    obtain ⟨unchanged, alone⟩ := undisturbed waiting held
    obtain ⟨valid, named⟩ := serial.checked caller waiting held
    -- Whether the row was found or adopted, the whole operation reaches this section.
    have answered
        : (serially start state.completed).perform
            ((serially start state.completed).memory.attemptAdopt (waiting.weather.clock 0)
              waiting.path waiting.base waiting.ino)
            (waiting.weather.journal 0)
          = (.ok waiting.entry, state.durable) := by
      rcases adopted : waiting.adopted with _ | _
      · have free : ∀ other, ¬ state.Adopting other := by
          intro other adopting
          cases alone other adopting
          obtain ⟨again, there, ready⟩ := adopting
          rw [held] at there
          cases there
          rw [adopted] at ready
          cases ready
        rw [serial.settled free, attemptAdopt_found valid named (unchanged adopted)]
        rfl
      · exact serial.adopting caller waiting held adopted
    have there : state.durable.memory.entries[waiting.path]? = some waiting.entry :=
      (adopted_row _ _ _ _ _ answered).1
    refine ⟨?_, ?_, ?_, ?_⟩
    · exact (serial.stocked.perform
        (Restyle.attempt_upholds serial.stocked.stock there _) _).2.1
    · intro other found still
      rcases waiting_update still with ⟨-, absurd⟩ | ⟨-, before⟩
      · cases absurd
      · exact serial.checked other found before
    · intro _
      change serially start (state.completed ++ [(waiting.mutation, waiting.weather)]) = _
      rw [serially_append]
      exact apply_of_answered answered
    · intro other found still adopted
      rcases waiting_update still with ⟨-, absurd⟩ | ⟨apart, before⟩
      · cases absurd
      · exact absurd (alone other ⟨found, before, adopted⟩) apart

/-- Every section that meets the condition keeps the order. -/
theorem Serial.step (serial : Serial start state) {input : Section}
    (undisturbed : Undisturbed state input)
    : Serial start (state.step input) := by
  cases input with
  | resume caller => exact serial.resume undisturbed
  | enter caller mutation weather =>
      simp only [Shared.step]
      split
      · exact serial
      · rename_i free
        have free : state.waiting caller = none := by simpa using free
        obtain ⟨careful, reads⟩ := undisturbed
        have whole (single : Finds state.durable.memory mutation = False)
            : Serial start
                (state.complete (state.durable.apply weather mutation).2 mutation weather) := by
          refine serial.complete ?_ (serial.stocked.apply careful).2.1 rfl
          intro other adopting
          exact single ▸ reads other adopting
        cases mutation with
        | setExecutable path base ino executable => exact serial.read free careful reads
        | setTimes path base ino mtime => exact serial.read free careful reads
        | createFile => exact whole rfl
        | mkdir => exact whole rfl
        | symlink => exact whole rfl
        | materialize => exact whole rfl
        | writeContent => exact whole rfl
        | truncate => exact whole rfl
        | adopt => exact whole rfl
        | remove => exact whole rfl
        | rename => exact whole rfl
        | referenceBase => exact whole rfl
        | _ => exact serial

end Sections

/-- In every run of sections that meet the condition, over every life an overlay can have had,
the rows and content files are those of the completed operations one after the other, unless a
caller is between an adoption and its change; and no row names released content. Witness: the
order of the last sections.
-/
theorem sections_serialize (recovery : Recovery) (life : List Passage) (run : List Section)
    (recoverable : Along Durable.pass Recoverable (Durable.created recovery) life)
    (undisturbed
      : Along Shared.step Undisturbed
          (.idle (life.foldl Durable.pass (Durable.created recovery))) run)
    : let start := life.foldl Durable.pass (Durable.created recovery)
      ∀ state ∈ states Shared.step (.idle start) run,
        ((∀ caller, ¬ state.Adopting caller) → Serialized start state) ∧ Unreleased state := by
  intro start state member
  have stocked : Stocked start :=
    invariant (fun _ _ stocked allowed => (stocked.pass allowed).1) (Stocked.created recovery)
      recoverable _ (foldl_mem_states _ _ _)
  have initial : Serial start (.idle start) :=
    ⟨stocked, fun _ _ absurd => (by cases absurd), fun _ => rfl,
      fun _ _ absurd => (by cases absurd)⟩
  have serial : Serial start state :=
    invariant (fun _ _ serial allowed => serial.step allowed) initial undisturbed state member
  refine ⟨fun alone => ⟨state.completed, .rfl, ?_, ?_⟩, serial.stocked.stock.stored⟩
  · rw [serial.settled alone]
  · rw [serial.settled alone]

/-- A file of no bytes. -/
def emptyFile : List Passage :=
  [.operation (.createFile [102] none ⟨0, none⟩ 0 false) fairWeather]

def emptyFileStart : Durable :=
  emptyFile.foldl Durable.pass (Durable.created sampleRecovery)

/-- A caller reads the file's row to make it executable. -/
def readsRow : Section :=
  .enter 1 (.setExecutable [102] none 0 true) fairWeather

/-- Another one makes a directory between the two sections. -/
def directoryBetween : List Section :=
  [readsRow, .enter 2 (.mkdir [100] none ⟨0, none⟩ 0) fairWeather, .resume 1]

theorem read_adopting {state : Shared} {caller other : Nat} {restyle : Restyle} {path : BytePath}
    {base : Option BaseFacts} {ino : Nat} {weather : Weather}
    (adopting : (state.read caller restyle path base ino weather).Adopting other)
    : state.Adopting other ∨ resolve state.durable.memory.entries path = .base := by
  obtain ⟨waiting, held, adopted⟩ := adopting
  unfold Shared.read at held
  split at held
  · exact Or.inl ⟨waiting, held, adopted⟩
  · split at held
    · exact Or.inl ⟨waiting, held, adopted⟩
    · rcases waiting_update held with ⟨-, same⟩ | ⟨-, before⟩
      · cases same
        exact Or.inr (by simpa using adopted)
      · exact Or.inl ⟨waiting, before, adopted⟩

theorem resume_adopting {state : Shared} {caller other : Nat}
    (adopting : (state.resume caller).Adopting other)
    : state.Adopting other := by
  obtain ⟨waiting, held, adopted⟩ := adopting
  unfold Shared.resume at held
  split at held
  · exact ⟨waiting, held, adopted⟩
  · rcases waiting_update held with ⟨-, absurd⟩ | ⟨-, before⟩
    · cases absurd
    · exact ⟨waiting, before, adopted⟩

theorem step_adopting {state : Shared} {input : Section} {other : Nat}
    (adopting : (state.step input).Adopting other)
    : state.Adopting other
      ∨ ∃ caller restyle path base ino weather,
          input = .enter caller (Restyle.mutation restyle path base ino) weather
          ∧ resolve state.durable.memory.entries path = .base := by
  cases input with
  | resume caller => exact Or.inl (resume_adopting adopting)
  | enter caller mutation weather =>
      simp only [Shared.step] at adopting
      split at adopting
      · exact Or.inl adopting
      · cases mutation with
        | setExecutable path base ino executable =>
            refine (read_adopting adopting).imp_right fun based => ?_
            exact ⟨caller, .executable executable, path, base, ino, weather, rfl, based⟩
        | setTimes path base ino mtime =>
            refine (read_adopting adopting).imp_right fun based => ?_
            exact ⟨caller, .times mtime, path, base, ino, weather, rfl, based⟩
        | _ => exact Or.inl adopting

/-- The one that makes the file executable comes second. -/
theorem directoryBetween_serialized
    : Serialized emptyFileStart (directoryBetween.foldl Shared.step (.idle emptyFileStart))
      ∧ Unreleased (directoryBetween.foldl Shared.step (.idle emptyFileStart)) := by
  have recoverable : Along Durable.pass Recoverable (Durable.created sampleRecovery) emptyFile :=
    ⟨⟨Or.inl (by decide), Or.inl (by decide)⟩, trivial⟩
  have idle : ∀ caller, ¬ (Shared.idle emptyFileStart).Adopting caller := by
    rintro _ ⟨_, absurd, _⟩
    cases absurd
  have reading
      : ∀ caller, ¬ ((Shared.idle emptyFileStart).step readsRow).Adopting caller := by
    intro caller adopting
    rcases step_adopting adopting with before | ⟨_, restyle, _, _, _, _, same, based⟩
    · exact idle caller before
    · cases restyle <;> cases same
      revert based
      decide
  have ended
      : ∀ caller,
          ¬ (directoryBetween.foldl Shared.step (.idle emptyFileStart)).Adopting caller := by
    intro caller adopting
    have before
        : (((Shared.idle emptyFileStart).step readsRow).step
            (.enter 2 (.mkdir [100] none ⟨0, none⟩ 0) fairWeather)).Adopting caller :=
      @resume_adopting _ 1 caller adopting
    rcases step_adopting before with before | ⟨_, restyle, _, _, _, _, absurd, _⟩
    · exact reading caller before
    · cases restyle <;> cases absurd
  have undisturbed
      : Along Shared.step Undisturbed (.idle emptyFileStart) directoryBetween := by
    refine ⟨⟨Or.inl (by decide), fun caller adopting => absurd adopting (idle caller)⟩,
      ⟨⟨Or.inl (by decide), Or.inl (by decide)⟩,
        fun caller adopting => absurd adopting (reading caller)⟩, ?_, trivial⟩
    intro waiting held
    refine ⟨fun _ => ?_, fun other adopting => absurd adopting (reading other)⟩
    have unchanged
        : let state := (directoryBetween.take 2).foldl Shared.step (.idle emptyFileStart)
          ∀ waiting ∈ state.waiting 1,
            resolve state.durable.memory.entries waiting.path = .overlay waiting.entry := by
      decide
    exact unchanged waiting held
  have holds :=
    sections_serialize sampleRecovery emptyFile directoryBetween recoverable undisturbed _
      (foldl_mem_states _ _ _)
  exact ⟨holds.1 ended, holds.2⟩

/-- Another one writes to the file between the two sections. -/
def writeBetween : List Section :=
  [readsRow, .enter 2 (.writeContent 1 0 [104, 105]) fairWeather, .resume 1]

/-- Another one removes the file between the two sections. -/
def removalBetween : List Section :=
  [readsRow, .enter 2 (.remove [102] none ⟨0, none⟩ false true) fairWeather, .resume 1]

/-- The acknowledged write's size is gone, which no order of the two operations does; and the
removed file is back, with its content released.
-/
theorem sections_not_serialized
    : ¬ Serialized emptyFileStart (writeBetween.foldl Shared.step (.idle emptyFileStart))
      ∧ ¬ Serialized emptyFileStart (removalBetween.foldl Shared.step (.idle emptyFileStart))
      ∧ ¬ Unreleased (removalBetween.foldl Shared.step (.idle emptyFileStart)) := by
  refine ⟨?_, ?_, ?_⟩
  · rintro ⟨order, perm, rows, -⟩
    have size := congrArg (fun rows : Rows => rows[([102] : BytePath)]?.map OverlayEntry.size) rows
    rcases List.perm_pair.mp perm with rfl | rfl
    all_goals
      revert size
      decide
  · rintro ⟨order, perm, rows, -⟩
    have size := congrArg (fun rows : Rows => rows[([102] : BytePath)]?.map OverlayEntry.size) rows
    rcases List.perm_pair.mp perm with rfl | rfl
    all_goals
      revert size
      decide
  · intro unreleased
    have holds
        : (removalBetween.foldl Shared.step (.idle emptyFileStart)).durable.memory.entries[
            ([102] : BytePath)]?.map OverlayEntry.content = some (.local 1) := by
      decide
    obtain ⟨entry, there, content⟩ := Option.map_eq_some_iff.mp holds
    have stored := unreleased [102] 1 ⟨entry, there, content⟩
    revert stored
    decide

end Gfs.Overlay
