import Mathlib

/-! Fallible steps run over a list: `List.mapM` in `Except` as a relation between what goes in and
what comes out.
-/

namespace Gfs.Lib.Mapped

/-- A step that runs over a list succeeds exactly with the list of what it gives. -/
theorem mapM_eq_ok {α β ε : Type} {step : α → Except ε β} {inputs : List α} {outputs : List β}
    : inputs.mapM step = .ok outputs
      ↔ List.Forall₂ (fun input output => step input = .ok output) inputs outputs := by
  induction inputs generalizing outputs with
  | nil =>
      rw [List.forall₂_nil_left_iff, List.mapM_nil]
      constructor
      · intro ran
        cases ran
        rfl
      · rintro rfl
        rfl
  | cons input inputs ih =>
      rw [List.forall₂_cons_left_iff, List.mapM_cons]
      cases first : step input with
      | error refusal =>
          constructor
          · intro ran
            cases ran
          · rintro ⟨output, rest, ran, -⟩
            cases ran
      | ok output =>
          cases rest : inputs.mapM step with
          | error refusal =>
              constructor
              · intro ran
                cases ran
              · rintro ⟨_, outputs, -, others, -⟩
                rw [ih.mpr others] at rest
                cases rest
          | ok others =>
              constructor
              · intro ran
                cases ran
                exact ⟨output, others, rfl, ih.mp rest, rfl⟩
              · rintro ⟨_, outputs, ran, later, rfl⟩
                rw [ih.mpr later] at rest
                cases ran
                cases rest
                rfl

/-- A step that succeeds on every input of a list, with an output related to it, succeeds on the
list.
-/
theorem exists_mapM_related {α β ε : Type} {step : α → Except ε β} {related : α → β → Prop}
    {inputs : List α}
    (each : ∀ input ∈ inputs, ∃ output, step input = .ok output ∧ related input output)
    : ∃ outputs, inputs.mapM step = .ok outputs ∧ List.Forall₂ related inputs outputs := by
  induction inputs with
  | nil => exact ⟨[], rfl, .nil⟩
  | cons input inputs ih =>
      obtain ⟨here, later⟩ := List.forall_mem_cons.mp each
      obtain ⟨output, ran, holds⟩ := here
      obtain ⟨outputs, rest, others⟩ := ih later
      exact ⟨output :: outputs, by rw [List.mapM_cons, ran, rest]; rfl, .cons holds others⟩

theorem exists_mapM {α β ε : Type} {step : α → Except ε β} {inputs : List α}
    (each : ∀ input ∈ inputs, ∃ output, step input = .ok output)
    : ∃ outputs, inputs.mapM step = .ok outputs := by
  obtain ⟨outputs, ran, -⟩ := exists_mapM_related (fun input member =>
    (each input member).imp fun _ own => ⟨own, trivial⟩)
  exact ⟨outputs, ran⟩

theorem mapM_eq_map {α β ε : Type} {step : α → Except ε β} {f : α → β} {inputs : List α}
    (each : ∀ input ∈ inputs, step input = .ok (f input))
    : inputs.mapM step = .ok (inputs.map f) := by
  rw [mapM_eq_ok, List.forall₂_map_right_iff, List.forall₂_same]
  exact each

variable {α β : Type*} {related : α → β → Prop} {inputs : List α} {outputs : List β}

theorem exists_of_forall₂_left (all : List.Forall₂ related inputs outputs) {input : α}
    (member : input ∈ inputs)
    : ∃ output ∈ outputs, related input output := by
  induction all with
  | nil => cases member
  | cons first _ ih =>
      rcases List.mem_cons.mp member with rfl | later
      · exact ⟨_, List.mem_cons_self, first⟩
      · obtain ⟨output, listed, holds⟩ := ih later
        exact ⟨output, List.mem_cons_of_mem _ listed, holds⟩

theorem exists_of_forall₂_right (all : List.Forall₂ related inputs outputs) {output : β}
    (member : output ∈ outputs)
    : ∃ input ∈ inputs, related input output :=
  exists_of_forall₂_left all.flip member

end Gfs.Lib.Mapped
