import Mathlib

/-! Runs of a deterministic step function over a list of inputs: the states passed through,
conditions met by every step, and the invariant and simulation rules.
-/

namespace Gfs.Lib.Runs

variable {σ τ ι : Type*}

/-- The states a run passes through, its start first and its end last. -/
def states (step : σ → ι → σ) (start : σ) : List ι → List σ
  | [] => [start]
  | input :: inputs => start :: states step (step start input) inputs

/-- The steps of a run: the state each is taken in, and its input. -/
def steps (step : σ → ι → σ) (start : σ) : List ι → List (σ × ι)
  | [] => []
  | input :: inputs => (start, input) :: steps step (step start input) inputs

/-- Every step of the run is taken in a state and with an input that satisfy `allowed`. -/
def Along (step : σ → ι → σ) (allowed : σ → ι → Prop) (start : σ) : List ι → Prop
  | [] => True
  | input :: inputs =>
      allowed start input ∧ Along step allowed (step start input) inputs

instance Along.decide {step : σ → ι → σ} {allowed : σ → ι → Prop}
    [∀ state, DecidablePred (allowed state)]
    : ∀ start inputs, Decidable (Along step allowed start inputs)
  | _, [] => isTrue trivial
  | start, input :: inputs =>
      have := @Along.decide step allowed _ (step start input) inputs
      inferInstanceAs
        (Decidable (allowed start input ∧ Along step allowed (step start input) inputs))

theorem foldl_mem_states (step : σ → ι → σ) (start : σ) (inputs : List ι)
    : inputs.foldl step start ∈ states step start inputs := by
  induction inputs generalizing start with
  | nil => exact List.mem_singleton.mpr rfl
  | cons input inputs ih => exact List.mem_cons_of_mem _ (ih (step start input))

theorem Along.of_mem {step : σ → ι → σ} {allowed : σ → ι → Prop} {inputs : List ι}
    (always : ∀ input ∈ inputs, ∀ state, allowed state input) (start : σ)
    : Along step allowed start inputs := by
  induction inputs generalizing start with
  | nil => trivial
  | cons input inputs ih =>
      exact ⟨always input List.mem_cons_self start,
        ih (fun other later => always other (List.mem_cons_of_mem _ later)) (step start input)⟩

theorem Along.and {step : σ → ι → σ} {first second : σ → ι → Prop} {start : σ} {inputs : List ι}
    (one : Along step first start inputs) (other : Along step second start inputs)
    : Along step (fun state input => first state input ∧ second state input) start inputs := by
  induction inputs generalizing start with
  | nil => trivial
  | cons input inputs ih => exact ⟨⟨one.1, other.1⟩, ih one.2 other.2⟩

theorem Along.append {step : σ → ι → σ} {allowed : σ → ι → Prop} {start : σ}
    {earlier later : List ι}
    : Along step allowed start (earlier ++ later)
      ↔ Along step allowed start earlier
        ∧ Along step allowed (earlier.foldl step start) later := by
  induction earlier generalizing start with
  | nil => simp [Along]
  | cons input earlier ih =>
      simp only [List.cons_append, Along, List.foldl_cons, ih, and_assoc]

theorem invariant {step : σ → ι → σ} {allowed : σ → ι → Prop} {holds : σ → Prop}
    (preserved : ∀ state input, holds state → allowed state input → holds (step state input))
    {start : σ} {inputs : List ι} (initial : holds start)
    (along : Along step allowed start inputs)
    : ∀ state ∈ states step start inputs, holds state := by
  induction inputs generalizing start with
  | nil => simpa [states] using initial
  | cons input inputs ih =>
      intro state member
      rcases List.mem_cons.mp member with rfl | later
      · exact initial
      · exact ih (preserved _ _ initial along.1) along.2 state later

/-- Where a step keeps a property exactly when it is allowed, a run keeps it exactly when every
step is.
-/
theorem invariant_iff {step : σ → ι → σ} {base allowed : σ → ι → Prop} {ground holds : σ → Prop}
    (grounded : ∀ state input, ground state → base state input → ground (step state input))
    (preserved
      : ∀ state input, ground state → base state input → holds state
          → (holds (step state input) ↔ allowed state input))
    {start : σ} {inputs : List ι} (ground_start : ground start) (initial : holds start)
    (based : Along step base start inputs)
    : (∀ state ∈ states step start inputs, holds state) ↔ Along step allowed start inputs := by
  induction inputs generalizing start with
  | nil => simpa [states, Along] using initial
  | cons input inputs ih =>
      have one := preserved start input ground_start based.1 initial
      have rest := fun held => ih (grounded start input ground_start based.1) held based.2
      rw [states, List.forall_mem_cons, Along]
      constructor
      · intro all
        have held : holds (step start input) :=
          all.2 _ (by cases inputs <;> exact List.mem_cons_self)
        exact ⟨one.mp held, (rest held).mp all.2⟩
      · intro along
        exact ⟨initial, (rest (one.mpr along.1)).mpr along.2⟩

/-- Where two conditions are the same while a property holds, and the second keeps it, a run meets
the one along its way exactly when it meets the other.
-/
theorem along_iff {step : σ → ι → σ} {base first second : σ → ι → Prop} {holds : σ → Prop}
    (same
      : ∀ state input, holds state → base state input
          → (first state input ↔ second state input))
    (preserved
      : ∀ state input, holds state → base state input → second state input
          → holds (step state input))
    {start : σ} {inputs : List ι} (initial : holds start) (based : Along step base start inputs)
    : Along step first start inputs ↔ Along step second start inputs := by
  induction inputs generalizing start with
  | nil => exact Iff.rfl
  | cons input inputs ih =>
      have one := same start input initial based.1
      rw [Along, Along, one]
      refine and_congr_right fun allowed => ?_
      exact ih (preserved start input initial based.1 allowed) based.2

/-- A relation kept by every allowed pair of steps relates the states of two runs over the
same inputs, position by position.
-/
theorem simulation {left : σ → ι → σ} {right : τ → ι → τ}
    {allowed : σ → ι → Prop} {related : σ → τ → Prop}
    (preserved
      : ∀ concrete abstract input,
          related concrete abstract
          → allowed concrete input
          → related (left concrete input) (right abstract input))
    {concrete : σ} {abstract : τ} {inputs : List ι} (initial : related concrete abstract)
    (along : Along left allowed concrete inputs)
    : List.Forall₂ related (states left concrete inputs) (states right abstract inputs) := by
  induction inputs generalizing concrete abstract with
  | nil => exact .cons initial .nil
  | cons input inputs ih =>
      exact .cons initial (ih (preserved _ _ _ initial along.1) along.2)

end Gfs.Lib.Runs
