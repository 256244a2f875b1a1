import Gfs.Service.Refs

/-! What the ref-event outbox and the ref generation tell of a history
(`gfs-service/src/catalog/refs.rs`, `catalog/mod.rs`): each change of a ref stands in the
outbox and nothing else does, and the generation moves with the table.
-/

namespace Gfs.Service

open Gfs.Types
open Gfs.Lib

/-- Both events stand under one key of the outbox. A key with a NULL in it is equal to no
other.
-/
def RefEvent.SameKey (event other : RefEvent) : Prop :=
  event.oldOid.isSome = true
  ∧ event.newOid.isSome = true
  ∧ other.refName = event.refName
  ∧ other.oldOid = event.oldOid
  ∧ other.newOid = event.newOid

/-- The event says that the ref went from the one table's value to the other's. -/
def RefEvent.Records (event : RefEvent) (before after : Catalog) : Prop :=
  before.tip event.refName = event.oldOid
  ∧ after.tip event.refName = event.newOid
  ∧ event.oldOid ≠ event.newOid
  ∧ isReservedRef event.refName = false

/-- The catalog a history leaves. -/
def recorded (inputs : List Observation) : Catalog :=
  inputs.foldl Catalog.record .empty

/-- What the outbox and the ref table say of each other over a whole history. -/
structure OutboxTells (inputs : List Observation) : Prop where
  appended
    : ∀ earlier later,
        inputs = earlier ++ later → (recorded earlier).events <+: (recorded inputs).events
  /-- Each change of a ref has its event, though a repeated one shares it. -/
  complete
    : ∀ earlier input later,
        inputs = earlier ++ input :: later
        → ∀ name,
          (recorded earlier).tip name ≠ (recorded (earlier ++ [input])).tip name
          → ∃ event ∈ (recorded inputs).events,
              event.refName = name
              ∧ event.Records (recorded earlier) (recorded (earlier ++ [input]))
  sound
    : ∀ event ∈ (recorded inputs).events,
        ∃ earlier input later,
          inputs = earlier ++ input :: later
          ∧ event.Records (recorded earlier) (recorded (earlier ++ [input]))
  distinct
    : (recorded inputs).events.Pairwise (fun event other => ¬other.SameKey event)

namespace Catalog

variable {catalog middle next : Catalog}

-- One event

theorem insertEvent_appended (events : List RefEvent) (event : RefEvent)
    : events <+: insertEvent events event := by
  unfold insertEvent
  split
  · exact List.prefix_refl events
  · exact List.prefix_append events [event]

theorem of_mem_insertEvent {events : List RefEvent} {event found : RefEvent}
    (member : found ∈ insertEvent events event)
    : found ∈ events ∨ found = event := by
  unfold insertEvent at member
  split at member
  · exact .inl member
  · simpa using member

theorem insertEvent_told (events : List RefEvent) (event : RefEvent)
    : ∃ found ∈ insertEvent events event,
        found.refName = event.refName
        ∧ found.oldOid = event.oldOid
        ∧ found.newOid = event.newOid := by
  unfold insertEvent
  split
  · rename_i taken
    simp only [Bool.and_eq_true, List.any_eq_true, decide_eq_true_eq] at taken
    obtain ⟨_, found, member, same⟩ := taken
    exact ⟨found, member, same⟩
  · exact ⟨event, by simp, rfl, rfl, rfl⟩

theorem insertEvent_distinct {events : List RefEvent} (event : RefEvent)
    (distinct : events.Pairwise (fun event other => ¬other.SameKey event))
    : (insertEvent events event).Pairwise (fun event other => ¬other.SameKey event) := by
  unfold insertEvent
  split
  · exact distinct
  · rename_i free
    simp only [Bool.and_eq_true, List.any_eq_true, decide_eq_true_eq] at free
    refine List.pairwise_append.mpr ⟨distinct, List.pairwise_singleton _ _, ?_⟩
    intro other member last equal same
    obtain rfl := List.mem_singleton.mp equal
    exact free ⟨⟨same.1, same.2.1⟩, other, member, same.2.2⟩

-- One transaction

/-- The outbox after a transaction: what it held, then the refs the transaction changed. -/
structure Tells (before after : Catalog) : Prop where
  appended : before.events <+: after.events
  complete
    : ∀ name,
        before.tip name ≠ after.tip name
        → ∃ event ∈ after.events, event.refName = name ∧ event.Records before after
  sound : ∀ event ∈ after.events, event ∈ before.events ∨ event.Records before after
  distinct
    : before.events.Pairwise (fun event other => ¬other.SameKey event)
      → after.events.Pairwise (fun event other => ¬other.SameKey event)

theorem Tells.refl (catalog : Catalog) : Tells catalog catalog where
  appended := List.prefix_refl _
  complete := fun _ differs => absurd rfl differs
  sound := fun _ member => .inl member
  distinct := id

/-- A transaction that changes no ref twice tells what its parts tell. -/
theorem Tells.trans (first : Tells catalog middle) (second : Tells middle next)
    (once
      : ∀ name, catalog.tip name = middle.tip name ∨ middle.tip name = next.tip name)
    : Tells catalog next where
  appended := first.appended.trans second.appended
  complete := by
    intro name differs
    cases once name with
    | inl same =>
        obtain ⟨event, member, rfl, old, new, apart, mirrored⟩ :=
          second.complete name (same ▸ differs)
        exact ⟨event, member, rfl, same.trans old, new, apart, mirrored⟩
    | inr same =>
        obtain ⟨event, member, rfl, old, new, apart, mirrored⟩ :=
          first.complete name (same ▸ differs)
        exact ⟨event, second.appended.subset member, rfl, old, same ▸ new, apart, mirrored⟩
  sound := by
    intro event member
    cases second.sound event member with
    | inl before =>
        refine (first.sound event before).imp_right ?_
        intro records
        obtain ⟨old, new, apart, mirrored⟩ := records
        cases once event.refName with
        | inl same => exact absurd (old.symm.trans (same.trans new)) apart
        | inr same => exact ⟨old, same ▸ new, apart, mirrored⟩
    | inr records =>
        obtain ⟨old, new, apart, mirrored⟩ := records
        cases once event.refName with
        | inl same => exact .inr ⟨same.trans old, new, apart, mirrored⟩
        | inr same => exact absurd (old.symm.trans (same.trans new)) apart
  distinct := fun distinct => second.distinct (first.distinct distinct)

/-- An accepted observation changes nothing, or moves the ref and inserts its event. -/
theorem observeRefInTx_event {name : Text} {newOid : Option ObjectId}
    {outcome : RefObservation}
    (accepted : catalog.observeRefInTx name newOid = .ok (outcome, next))
    : (outcome = .unchanged ∧ next = catalog)
      ∨ outcome ≠ .unchanged
        ∧ catalog.tip name ≠ newOid
        ∧ next.refGeneration = catalog.refGeneration
        ∧ next.events
          = insertEvent catalog.events
              ⟨name, catalog.tip name, newOid, catalog.highWaterMark + 1⟩ := by
  simp only [observeRefInTx, tip] at accepted ⊢
  split at accepted
  · cases accepted
  · split at accepted
    · cases accepted
      exact .inl ⟨rfl, rfl⟩
    · rename_i differs
      cases newOid with
      | none =>
          cases accepted
          exact .inr ⟨RefObservation.noConfusion, differs, rfl, rfl⟩
      | some oid =>
          cases accepted
          refine .inr ⟨?_, differs, rfl, rfl⟩
          split <;> exact RefObservation.noConfusion

theorem observeRefInTx_tells {name : Text} {newOid : Option ObjectId}
    {outcome : RefObservation}
    (accepted : catalog.observeRefInTx name newOid = .ok (outcome, next))
    : Tells catalog next := by
  rcases observeRefInTx_event accepted with ⟨_, rfl⟩ | ⟨_, differs, _, events⟩
  · exact Tells.refl next
  · have settled := observeRefInTx_tip accepted
    have mirrored := (observeRefInTx_spec accepted).1
    constructor
    · rw [events]
      exact insertEvent_appended _ _
    · intro other changed
      have same : other = name := by
        by_contra apart
        exact changed (by rw [tip, tip, observeRefInTx_other accepted apart])
      subst same
      obtain ⟨event, member, rfl, old, new⟩ := insertEvent_told catalog.events
        ⟨other, catalog.tip other, newOid, catalog.highWaterMark + 1⟩
      refine ⟨event, events ▸ member, rfl, old.symm, settled.trans new.symm, ?_, mirrored⟩
      rw [old, new]
      exact differs
    · intro event member
      rw [events] at member
      refine (of_mem_insertEvent member).imp_right ?_
      rintro rfl
      exact ⟨rfl, settled, differs, mirrored⟩
    · rw [events]
      exact insertEvent_distinct _

/-- A batch that gives each ref one value tells what it changed, reports no change only when
there was none, and leaves the generation to its caller.
-/
theorem observeEach_tells {writes : List (Text × Option ObjectId)}
    {changes : List (Text × RefObservation)}
    (accepted : catalog.observeEach writes = .ok (changes, next))
    (agree : ∀ write ∈ writes, ∀ other ∈ writes, write.1 = other.1 → write.2 = other.2)
    : Tells catalog next
      ∧ next.refGeneration = catalog.refGeneration
      ∧ (changes = [] → next = catalog)
      ∧ (changes ≠ [] → ∃ name, catalog.tip name ≠ next.tip name) := by
  induction writes generalizing catalog changes with
  | nil =>
      cases accepted
      exact ⟨Tells.refl next, rfl, fun _ => rfl, fun some => absurd rfl some⟩
  | cons write writes ih =>
      obtain ⟨name, newOid⟩ := write
      obtain ⟨outcome, middle, later, here, rest⟩ := observeEach_cons accepted
      simp only [observeEach, here, bind, Except.bind, rest, pure, Except.pure,
        Except.ok.injEq, Prod.mk.injEq, and_true] at accepted
      have agreeRest : ∀ write ∈ writes, ∀ other ∈ writes,
          write.1 = other.1 → write.2 = other.2 :=
        fun write member other found =>
          agree write (List.mem_cons_of_mem _ member) other (List.mem_cons_of_mem _ found)
      obtain ⟨tells, generation, idle, busy⟩ := ih rest agreeRest
      have settled := observeRefInTx_tip here
      have kept : middle.tip name = next.tip name := by
        refine settled.trans (observeEach_self rest ?_ (.inl settled)).1.symm
        intro write member same
        exact agree write (List.mem_cons_of_mem _ member) _ List.mem_cons_self same
      have once : ∀ other,
          catalog.tip other = middle.tip other ∨ middle.tip other = next.tip other := by
        intro other
        by_cases same : other = name
        · exact .inr (same ▸ kept)
        · exact .inl (by rw [tip, tip, observeRefInTx_other here same])
      refine ⟨(observeRefInTx_tells here).trans tells once, ?_⟩
      rcases observeRefInTx_event here with ⟨rfl, rfl⟩ | ⟨moved, differs, same, _⟩
      · rw [if_pos rfl] at accepted
        exact ⟨generation, accepted ▸ ⟨idle, busy⟩⟩
      · rw [if_neg moved] at accepted
        subst accepted
        refine ⟨generation.trans same, fun none => absurd none (List.cons_ne_nil _ _),
          fun _ => ⟨name, ?_⟩⟩
        rw [← kept, settled]
        exact differs

theorem reconciliation_agree (known : List Text) (actual : List (Text × ObjectId))
    : ∀ write ∈ reconciliation known actual,
        ∀ other ∈ reconciliation known actual, write.1 = other.1 → write.2 = other.2 := by
  intro write member other found same
  cases listed : (actualMap actual)[other.1]? with
  | some oid =>
      have agree := (@mem_reconciliation_of_actual known actual _ _ listed).2
      rw [agree write member same, agree other found rfl]
  | none =>
      have missing : other.1 ∉ actualMap actual := by
        rw [Std.ExtTreeMap.mem_iff_isSome_getElem?, listed]
        exact Bool.false_ne_true
      have agree := (@mem_reconciliation_of_absent known actual _ missing).2
      rw [(agree write member same).1, (agree other found rfl).1]

-- One observation

theorem Tells.generation (tells : Tells catalog next) (generation : Nat)
    : Tells catalog { next with refGeneration := generation } :=
  ⟨tells.appended, tells.complete, tells.sound, tells.distinct⟩

/-- An observation tells what it changed. Within one process it changes nothing, or it changes
a ref and advances the generation. A restart forgets the generation.
-/
theorem record_tells (catalog : Catalog) (input : Observation)
    : Tells catalog (catalog.record input)
      ∧ (input ≠ .restart
        → catalog.record input = catalog
          ∨ (catalog.record input).refGeneration = catalog.refGeneration + 1
            ∧ ∃ name, catalog.tip name ≠ (catalog.record input).tip name) := by
  cases input with
  | observe name newOid =>
      simp only [record, observeRef]
      cases accepted : catalog.observeRefInTx name newOid with
      | error refusal => exact ⟨Tells.refl catalog, fun _ => .inl rfl⟩
      | ok result =>
          obtain ⟨outcome, next⟩ := result
          have tells := observeRefInTx_tells accepted
          rcases observeRefInTx_event accepted with ⟨rfl, rfl⟩ | ⟨moved, differs, same, _⟩
          · exact ⟨tells, fun _ => .inl rfl⟩
          · simp only [if_pos moved]
            refine ⟨tells.generation _, fun _ => .inr ⟨by rw [same], name, ?_⟩⟩
            exact ne_of_ne_of_eq differs (observeRefInTx_tip accepted).symm
  | reconcile known actual =>
      simp only [record, reconcileRefs]
      cases accepted : catalog.observeEach (reconciliation known actual) with
      | error refusal => exact ⟨Tells.refl catalog, fun _ => .inl rfl⟩
      | ok result =>
          obtain ⟨changes, next⟩ := result
          obtain ⟨tells, same, idle, busy⟩ :=
            observeEach_tells accepted (reconciliation_agree known actual)
          by_cases none : changes = []
          · obtain rfl := idle none
            simp only [none]
            exact ⟨tells, fun _ => .inl rfl⟩
          · simp only [if_pos none]
            exact ⟨tells.generation _, fun _ => .inr ⟨by rw [same], busy none⟩⟩
  | restart => exact ⟨(Tells.refl catalog).generation 0, fun within => absurd rfl within⟩

end Catalog

-- Whole histories

/-- Over any history of observations and restarts the outbox only grows, holds an event for
each change of a ref and none besides, and holds no key twice.
-/
theorem outbox_tells_history (inputs : List Observation) : OutboxTells inputs := by
  induction inputs using List.reverseRecOn with
  | nil =>
      constructor
      · intro earlier later split
        obtain ⟨rfl, _⟩ := List.append_eq_nil_iff.mp split.symm
        exact List.prefix_refl _
      · intro earlier input later split
        simp at split
      · exact fun event member => absurd member List.not_mem_nil
      · exact List.Pairwise.nil
  | append_singleton inputs input ih =>
      have tells := (Catalog.record_tells (recorded inputs) input).1
      rw [recorded, ← List.foldl_concat Catalog.record] at tells
      constructor
      · intro earlier later split
        rcases List.eq_nil_or_concat' later with rfl | ⟨rest, last, rfl⟩
        · rw [split, List.append_nil]
        · rw [← List.append_assoc] at split
          obtain ⟨rfl, _⟩ := List.append_inj' split rfl
          exact (ih.appended earlier rest rfl).trans tells.appended
      · intro earlier step later split name changed
        rcases List.eq_nil_or_concat' later with rfl | ⟨rest, last, rfl⟩
        · obtain ⟨rfl, equal⟩ := List.append_inj' split rfl
          cases equal
          exact tells.complete name changed
        · rw [← List.cons_append, ← List.append_assoc] at split
          obtain ⟨rfl, _⟩ := List.append_inj' split rfl
          obtain ⟨event, member, told⟩ := ih.complete earlier step rest rfl name changed
          exact ⟨event, tells.appended.subset member, told⟩
      · intro event member
        cases tells.sound event member with
        | inl before =>
            obtain ⟨earlier, step, later, rfl, records⟩ := ih.sound event before
            exact ⟨earlier, step, later ++ [input], by simp, records⟩
        | inr records => exact ⟨inputs, input, [], rfl, records⟩
      · exact tells.distinct ih.distinct

/-- Within one process the generation never goes back, and stays exactly as long as every ref
keeps its value. Then nothing of the catalog changed.
-/
theorem refGeneration_orders_history (start : Catalog) (inputs : List Observation)
    (within : Observation.restart ∉ inputs)
    : start.refGeneration ≤ (inputs.foldl Catalog.record start).refGeneration
      ∧ ((inputs.foldl Catalog.record start).refGeneration = start.refGeneration
        ↔ ∀ state ∈ Runs.states Catalog.record start inputs,
            ∀ name, state.tip name = start.tip name)
      ∧ ((inputs.foldl Catalog.record start).refGeneration = start.refGeneration
        → ∀ state ∈ Runs.states Catalog.record start inputs, state = start) := by
  induction inputs generalizing start with
  | nil => simp [Runs.states]
  | cons input inputs ih =>
      have here : input ≠ .restart := fun same => within (same ▸ List.mem_cons_self)
      have rest : .restart ∉ inputs := fun later => within (List.mem_cons_of_mem _ later)
      obtain ⟨rises, unchanged, same⟩ := ih (start.record input) rest
      rcases (start.record_tells input).2 here with idle | ⟨advanced, name, differs⟩
      · rw [idle] at rises unchanged same
        simp only [Runs.states, List.foldl_cons, List.forall_mem_cons, idle]
        exact ⟨rises, unchanged.trans ⟨fun kept => ⟨fun _ => trivial, kept⟩, And.right⟩,
          fun equal => ⟨trivial, same equal⟩⟩
      · have moved
            : (inputs.foldl Catalog.record (start.record input)).refGeneration
              ≠ start.refGeneration := by
          omega
        refine ⟨le_of_lt (by rw [List.foldl_cons]; omega), ⟨fun equal => absurd equal moved, ?_⟩,
          fun equal => absurd equal moved⟩
        intro kept
        refine absurd (kept (start.record input) (List.mem_cons_of_mem _ ?_) name).symm differs
        cases inputs <;> exact List.mem_cons_self

/-- A branch created by a push, observed twice and found gone: two changes. -/
theorem refGeneration_orders_pushed_branch
    : let name : Text := "refs/heads/a".toList
      let inputs : List Observation :=
        [.observe name (some ⟨.sha1, [1]⟩), .observe name (some ⟨.sha1, [1]⟩), .reconcile [name] []]
      Observation.restart ∉ inputs
      ∧ (inputs.foldl Catalog.record .empty).refGeneration = 2
      ∧ ¬∀ state ∈ Runs.states Catalog.record .empty inputs,
          ∀ name, state.tip name = Catalog.empty.tip name := by
  refine ⟨by simp, by decide, fun kept => ?_⟩
  have same := (refGeneration_orders_history .empty _ (by simp)).2.1.mpr kept
  exact absurd same (by decide)

end Gfs.Service
