import Gfs.Lib.Runs
import Gfs.Types.Basic
import Gfs.Types.Revision

/-! One repository's ref table and its event outbox (`gfs-service/src/catalog/refs.rs`): a ref
observation, the reconciliation of a whole repository in one transaction, and the versions
they hand out. The database's reads and writes succeed; `updated_at` and the other recorded
times are read by nothing here.
-/

namespace Gfs.Service

open Gfs.Types
open Gfs.Lib
open Std (ExtTreeMap)

-- The tables

/-- A row of `repository_refs`: the current tip of a ref and the version it came with. -/
structure RefRecord where
  oid : ObjectId
  refVersion : Nat
  deriving DecidableEq, Repr

/-- A row of `ref_events`. Its `event_id` is its position. -/
structure RefEvent where
  refName : Text
  /-- `none` when the ref was created. -/
  oldOid : Option ObjectId
  /-- `none` when the ref was deleted. -/
  newOid : Option ObjectId
  refVersion : Nat
  deriving DecidableEq, Repr

/-- One repository's part of the catalog, with the in-memory count of its ref changes. -/
structure Catalog where
  refs : ExtTreeMap Text RefRecord compare
  events : List RefEvent
  refGeneration : Nat

/-- A catalog that has observed nothing. -/
def Catalog.empty : Catalog where
  refs := ∅
  events := []
  refGeneration := 0

/-- What an observation actually changed. -/
inductive RefObservation where
  | created
  | updated
  | deleted
  | unchanged
  deriving DecidableEq, Repr

/-- The error code of a refused observation. -/
inductive RefError where
  | reservedNamespace
  deriving DecidableEq, Repr

namespace Catalog

-- Observing

/-- `COALESCE(MAX(ref_version), 0)` over the repository's rows. -/
def highWaterMark (catalog : Catalog) : Nat :=
  catalog.refs.toList.foldr (fun row highest => max row.2.refVersion highest) 0

/-- `INSERT OR IGNORE` under the key of the name and both ids. A key with a NULL in it is
equal to no other.
-/
def insertEvent (events : List RefEvent) (event : RefEvent) : List RefEvent :=
  if event.oldOid.isSome
      && event.newOid.isSome
      && events.any (fun other =>
        other.refName = event.refName
        ∧ other.oldOid = event.oldOid
        ∧ other.newOid = event.newOid) then
    events
  else events ++ [event]

/-- One ref observation, inside a caller-supplied transaction. -/
def observeRefInTx (catalog : Catalog) (refName : Text) (newOid : Option ObjectId)
    : Except RefError (RefObservation × Catalog) :=
  if isReservedRef refName then .error .reservedNamespace
  else
    let oldOid := catalog.refs[refName]?.map RefRecord.oid
    if oldOid = newOid then .ok (.unchanged, catalog)
    else
      let nextVersion := catalog.highWaterMark + 1
      let events := insertEvent catalog.events ⟨refName, oldOid, newOid, nextVersion⟩
      match newOid with
      | some oid =>
          .ok
            (if oldOid.isSome then .updated else .created,
              { catalog with refs := catalog.refs.insert refName ⟨oid, nextVersion⟩, events })
      | none => .ok (.deleted, { catalog with refs := catalog.refs.erase refName, events })

/-- The observations of a transaction, one after the other, with what each changed. An error
ends the transaction.
-/
def observeEach
    : Catalog → List (Text × Option ObjectId)
      → Except RefError (List (Text × RefObservation) × Catalog)
  | catalog, [] => .ok ([], catalog)
  | catalog, (refName, newOid) :: rest => do
      let (outcome, catalog) ← catalog.observeRefInTx refName newOid
      let (changes, catalog) ← observeEach catalog rest
      return (if outcome = .unchanged then changes else (refName, outcome) :: changes, catalog)

/-- The refs of a repository the catalog mirrors: the last id given for each name outside the
reserved namespace.
-/
def actualMap (actual : List (Text × ObjectId)) : ExtTreeMap Text ObjectId compare :=
  (actual.filter (fun ref => !isReservedRef ref.1)).foldl
    (fun refs ref => refs.insert ref.1 ref.2) ∅

/-- What a reconciliation observes: every actual ref in order of name, then the absence of
each ref known and no longer there.
-/
def reconciliation (known : List Text) (actual : List (Text × ObjectId))
    : List (Text × Option ObjectId) :=
  (actualMap actual).toList.map (fun ref => (ref.1, some ref.2))
  ++ (known.filter (fun name => !(actualMap actual).contains name)).map
    (fun name => (name, none))

/-- Record the observed state of one ref. -/
def observeRef (catalog : Catalog) (refName : Text) (newOid : Option ObjectId)
    : Except RefError RefObservation × Catalog :=
  match catalog.observeRefInTx refName newOid with
  | .error refusal => (.error refusal, catalog)
  | .ok (outcome, catalog) =>
      (.ok outcome,
        if outcome ≠ .unchanged then
          { catalog with refGeneration := catalog.refGeneration + 1 }
        else catalog)

/-- Reconcile the ref table against the repository's actual refs. `known` is what `list_refs`
returned before the transaction began.
-/
def reconcileRefs (catalog : Catalog) (known : List Text) (actual : List (Text × ObjectId))
    : Except RefError (List (Text × RefObservation)) × Catalog :=
  match catalog.observeEach (reconciliation known actual) with
  | .error refusal => (.error refusal, catalog)
  | .ok (changes, catalog) =>
      (.ok changes,
        if changes ≠ [] then { catalog with refGeneration := catalog.refGeneration + 1 }
        else catalog)

/-- The current version of one ref, or the repository's high-water mark. -/
def refVersion (catalog : Catalog) : Option Text → Nat
  | some name => (catalog.refs[name]?.map RefRecord.refVersion).getD 0
  | none => catalog.highWaterMark

end Catalog

-- Histories

/-- What happens to a repository's ref table. A restart keeps the tables. -/
inductive Observation where
  | observe (refName : Text) (newOid : Option ObjectId)
  | reconcile (known : List Text) (actual : List (Text × ObjectId))
  | restart
  deriving Repr

/-- The catalog after an observation. -/
def Catalog.record (catalog : Catalog) : Observation → Catalog
  | .observe refName newOid => (catalog.observeRef refName newOid).2
  | .reconcile known actual => (catalog.reconcileRefs known actual).2
  | .restart => { catalog with refGeneration := 0 }

/-- The refs of a catalog, without their versions. -/
def Catalog.tip (catalog : Catalog) (name : Text) : Option ObjectId :=
  catalog.refs[name]?.map RefRecord.oid

/-- The ref versions order a run from one moment on: the high-water mark never decreases,
strictly increases when a ref changed, and a ref with the same non-zero version at a later
moment never changed on the way there.
-/
structure OrdersFrom (start : Catalog) (inputs : List Observation) : Prop where
  monotone
    : start.refVersion none ≤ (inputs.foldl Catalog.record start).refVersion none
  strict
    : ∀ state ∈ Runs.states Catalog.record start inputs,
        (∃ name, state.tip name ≠ start.tip name)
        → start.refVersion none < (inputs.foldl Catalog.record start).refVersion none
  faithful
    : ∀ name,
        start.refVersion (some name) ≠ 0
        → (inputs.foldl Catalog.record start).refVersion (some name)
            = start.refVersion (some name)
        → ∀ state ∈ Runs.states Catalog.record start inputs, state.tip name = start.tip name

/-- The ref versions order a whole history: they do between any two of its moments. -/
def OrdersHistory (inputs : List Observation) : Prop :=
  ∀ earlier middle later,
    inputs = earlier ++ middle ++ later
    → OrdersFrom (earlier.foldl Catalog.record .empty) middle

/-- The observation removes a ref the catalog has. A reconciliation that names a reserved ref
as known is refused and removes nothing.
-/
def Observation.Drops (catalog : Catalog) : Observation → Prop
  | .observe name none => name ∈ catalog.refs ∧ isReservedRef name = false
  | .observe _ (some _) => False
  | .reconcile known actual =>
      (∀ name ∈ known, isReservedRef name = false)
      ∧ ∃ name ∈ known, name ∈ catalog.refs ∧ name ∉ Catalog.actualMap actual
  | .restart => False

/-- The observation gives some ref a value it did not have. -/
def Observation.Advances (catalog : Catalog) : Observation → Prop
  | .observe name (some oid) => catalog.tip name ≠ some oid ∧ isReservedRef name = false
  | .observe _ none => False
  | .reconcile _ actual =>
      ∃ name oid, (Catalog.actualMap actual)[name]? = some oid ∧ catalog.tip name ≠ some oid
  | .restart => False

-- The high-water mark

namespace Catalog

variable {catalog next : Catalog}

private theorem foldr_max_le {rows : List (Text × RefRecord)} {bound : Nat}
    (bounded : ∀ row ∈ rows, row.2.refVersion ≤ bound)
    : rows.foldr (fun row highest => max row.2.refVersion highest) 0 ≤ bound := by
  induction rows with
  | nil => exact Nat.zero_le bound
  | cons row rows ih =>
      have here := bounded row List.mem_cons_self
      have rest := ih (fun other member => bounded other (List.mem_cons_of_mem _ member))
      exact Nat.max_le.mpr ⟨here, rest⟩

private theorem le_foldr_max {rows : List (Text × RefRecord)} {row : Text × RefRecord}
    (member : row ∈ rows)
    : row.2.refVersion
      ≤ rows.foldr (fun row highest => max row.2.refVersion highest) 0 := by
  induction rows with
  | nil => cases member
  | cons head rows ih =>
      simp only [List.foldr_cons]
      cases List.mem_cons.mp member with
      | inl same => exact same ▸ Nat.le_max_left _ _
      | inr later => exact le_trans (ih later) (Nat.le_max_right _ _)

variable {name : Text}

theorem le_highWaterMark {row : RefRecord}
    (stored : catalog.refs[name]? = some row)
    : row.refVersion ≤ catalog.highWaterMark :=
  le_foldr_max (ExtTreeMap.mem_toList_iff_getElem?_eq_some.mpr stored)

theorem highWaterMark_le {bound : Nat}
    (bounded
      : ∀ (name : Text) (row : RefRecord),
          catalog.refs[name]? = some row → row.refVersion ≤ bound)
    : catalog.highWaterMark ≤ bound :=
  foldr_max_le (fun row member =>
    bounded row.1 row.2 (ExtTreeMap.mem_toList_iff_getElem?_eq_some.mp member))

theorem highWaterMark_congr
    (same : ∀ name : Text, next.refs[name]? = catalog.refs[name]?)
    : next.highWaterMark = catalog.highWaterMark :=
  le_antisymm
    (highWaterMark_le (fun name _ stored => le_highWaterMark (same name ▸ stored)))
    (highWaterMark_le (fun name _ stored => le_highWaterMark ((same name).trans stored)))

-- One transaction

/-- Every row of the later catalog is one of the earlier catalog's, or carries a version past
its high-water mark.
-/
def Fresh (catalog next : Catalog) : Prop :=
  ∀ (name : Text) (row : RefRecord),
    next.refs[name]? = some row
    → catalog.refs[name]? = some row ∨ catalog.highWaterMark < row.refVersion

theorem tip_of_row {row : RefRecord} (stored : catalog.refs[name]? = some row)
    : catalog.tip name = some row.oid := by
  rw [tip, stored]
  rfl

variable {newOid : Option ObjectId} {outcome : RefObservation}

/-- An accepted observation leaves the table as it was when the ref has that value already;
otherwise it writes the ref's row under the next version, or erases it.
-/
theorem observeRefInTx_spec
    (accepted : catalog.observeRefInTx name newOid = .ok (outcome, next))
    : isReservedRef name = false
      ∧ ((catalog.tip name = newOid ∧ next = catalog)
        ∨ (∃ oid, newOid = some oid ∧ catalog.tip name ≠ some oid
            ∧ next.refs = catalog.refs.insert name ⟨oid, catalog.highWaterMark + 1⟩)
        ∨ (newOid = none ∧ next.refs = catalog.refs.erase name)) := by
  simp only [observeRefInTx, tip] at accepted ⊢
  split at accepted
  · cases accepted
  · rename_i mirrored
    refine ⟨by simpa using mirrored, ?_⟩
    split at accepted
    · rename_i same
      cases accepted
      exact .inl ⟨same, rfl⟩
    · rename_i differs
      cases newOid with
      | none => cases accepted; exact .inr (.inr ⟨rfl, rfl⟩)
      | some oid => cases accepted; exact .inr (.inl ⟨oid, rfl, differs, rfl⟩)

theorem observeRefInTx_total (mirrored : isReservedRef name = false)
    (newOid : Option ObjectId)
    : ∃ outcome next, catalog.observeRefInTx name newOid = .ok (outcome, next) := by
  simp only [observeRefInTx, mirrored, Bool.false_eq_true, if_false]
  split
  · exact ⟨_, _, rfl⟩
  · cases newOid with
    | none => exact ⟨_, _, rfl⟩
    | some oid => exact ⟨_, _, rfl⟩

theorem observeRefInTx_tip
    (accepted : catalog.observeRefInTx name newOid = .ok (outcome, next))
    : next.tip name = newOid := by
  obtain ⟨_, ⟨same, rfl⟩ | ⟨oid, rfl, _, rows⟩ | ⟨rfl, rows⟩⟩ := observeRefInTx_spec accepted
  · exact same
  · simp [tip, rows]
  · simp [tip, rows]

theorem observeRefInTx_same
    (accepted : catalog.observeRefInTx name newOid = .ok (outcome, next))
    (same : catalog.tip name = newOid)
    : next.refs[name]? = catalog.refs[name]? := by
  obtain ⟨_, ⟨_, rfl⟩ | ⟨oid, rfl, differs, _⟩ | ⟨rfl, rows⟩⟩ := observeRefInTx_spec accepted
  · rfl
  · exact absurd same differs
  · rw [rows, ExtTreeMap.getElem?_erase_self]
    simpa [tip] using same.symm

theorem observeRefInTx_other {name other : Text}
    (accepted : catalog.observeRefInTx name newOid = .ok (outcome, next))
    (apart : other ≠ name)
    : next.refs[other]? = catalog.refs[other]? := by
  have different : compare name other ≠ .eq := fun equal =>
    apart (Std.LawfulEqOrd.eq_of_compare equal).symm
  obtain ⟨_, ⟨_, rfl⟩ | ⟨oid, _, _, rows⟩ | ⟨_, rows⟩⟩ := observeRefInTx_spec accepted
  · rfl
  · rw [rows, ExtTreeMap.getElem?_insert, if_neg different]
  · rw [rows, ExtTreeMap.getElem?_erase, if_neg different]

/-- An observed value is written under a version past the high-water mark, which never
decreases by it.
-/
theorem observeRefInTx_put {oid : ObjectId}
    (accepted : catalog.observeRefInTx name (some oid) = .ok (outcome, next))
    : catalog.highWaterMark ≤ next.highWaterMark ∧ catalog.Fresh next := by
  obtain ⟨_, ⟨_, rfl⟩ | ⟨found, same, _, rows⟩ | ⟨absurd, _⟩⟩ := observeRefInTx_spec accepted
  · exact ⟨le_rfl, fun _ _ stored => .inl stored⟩
  · constructor
    · have written : next.refs[name]? = some ⟨found, catalog.highWaterMark + 1⟩ := by
        simp [rows]
      exact le_trans (Nat.le_succ _) (le_highWaterMark written)
    · intro other row stored
      rw [rows, ExtTreeMap.getElem?_insert] at stored
      split at stored
      · cases stored
        exact .inr (Nat.lt_succ_self _)
      · exact .inl stored
  · cases absurd

-- A batch of observations

variable {changes : List (Text × RefObservation)} {writes : List (Text × Option ObjectId)}

/-- A batch accepted as a whole is its first observation, then the rest. -/
theorem observeEach_cons {rest : List (Text × Option ObjectId)}
    (accepted : catalog.observeEach ((name, newOid) :: rest) = .ok (changes, next))
    : ∃ outcome middle later,
        catalog.observeRefInTx name newOid = .ok (outcome, middle)
        ∧ middle.observeEach rest = .ok (later, next) := by
  simp only [observeEach] at accepted
  cases first : catalog.observeRefInTx name newOid with
  | error refusal => rw [first] at accepted; cases accepted
  | ok result =>
      obtain ⟨outcome, middle⟩ := result
      rw [first] at accepted
      cases second : middle.observeEach rest with
      | error refusal =>
          simp only [bind, Except.bind, second] at accepted
          cases accepted
      | ok result =>
          obtain ⟨later, final⟩ := result
          simp only [bind, Except.bind, second, pure, Except.pure] at accepted
          cases accepted
          exact ⟨outcome, middle, later, rfl, second⟩

theorem observeEach_append {first second : List (Text × Option ObjectId)}
    (accepted : catalog.observeEach (first ++ second) = .ok (changes, next))
    : ∃ middle earlier later,
        catalog.observeEach first = .ok (earlier, middle)
        ∧ middle.observeEach second = .ok (later, next) := by
  induction first generalizing catalog changes with
  | nil => exact ⟨catalog, [], changes, rfl, accepted⟩
  | cons write first ih =>
      obtain ⟨name, newOid⟩ := write
      obtain ⟨outcome, middle, later, here, rest⟩ := observeEach_cons accepted
      obtain ⟨half, earlier, final, firstPart, secondPart⟩ := ih rest
      refine
        ⟨half, if outcome = .unchanged then earlier else (name, outcome) :: earlier, final, ?_,
          secondPart⟩
      simp only [observeEach, here, bind, Except.bind, firstPart, pure, Except.pure]

theorem observeEach_total {writes : List (Text × Option ObjectId)}
    (mirrored : ∀ write ∈ writes, isReservedRef write.1 = false)
    : ∃ changes next, catalog.observeEach writes = .ok (changes, next) := by
  induction writes generalizing catalog with
  | nil => exact ⟨[], catalog, rfl⟩
  | cons write writes ih =>
      obtain ⟨name, newOid⟩ := write
      obtain ⟨outcome, middle, here⟩ :=
        @observeRefInTx_total catalog name (mirrored _ List.mem_cons_self) newOid
      obtain ⟨changes, next, rest⟩ :=
        @ih middle (fun other member => mirrored other (List.mem_cons_of_mem _ member))
      refine
        ⟨if outcome = .unchanged then changes else (name, outcome) :: changes, next, ?_⟩
      simp only [observeEach, here, bind, Except.bind, rest, pure, Except.pure]

theorem observeEach_mirrored (accepted : catalog.observeEach writes = .ok (changes, next))
    : ∀ write ∈ writes, isReservedRef write.1 = false := by
  induction writes generalizing catalog changes with
  | nil => simp
  | cons write writes ih =>
      obtain ⟨name, newOid⟩ := write
      obtain ⟨outcome, middle, later, here, rest⟩ := observeEach_cons accepted
      intro other member
      cases List.mem_cons.mp member with
      | inl same => exact same ▸ (observeRefInTx_spec here).1
      | inr later => exact ih rest other later

theorem observeEach_other {other : Text}
    (accepted : catalog.observeEach writes = .ok (changes, next))
    (apart : ∀ write ∈ writes, other ≠ write.1)
    : next.refs[other]? = catalog.refs[other]? := by
  induction writes generalizing catalog changes with
  | nil => cases accepted; rfl
  | cons write writes ih =>
      obtain ⟨name, newOid⟩ := write
      obtain ⟨outcome, middle, later, here, rest⟩ := observeEach_cons accepted
      rw [ih rest (fun write member => apart write (List.mem_cons_of_mem _ member))]
      exact observeRefInTx_other here (apart _ List.mem_cons_self)

/-- A ref the batch gives one value has it afterwards, and keeps its row when it had it
before.
-/
theorem observeEach_self {name : Text} {value : Option ObjectId}
    (accepted : catalog.observeEach writes = .ok (changes, next))
    (agree : ∀ write ∈ writes, write.1 = name → write.2 = value)
    (settled : catalog.tip name = value ∨ (name, value) ∈ writes)
    : next.tip name = value
      ∧ (catalog.tip name = value → next.refs[name]? = catalog.refs[name]?) := by
  induction writes generalizing catalog changes with
  | nil =>
      cases accepted
      exact ⟨settled.resolve_right (by simp), fun _ => rfl⟩
  | cons write writes ih =>
      obtain ⟨first, newOid⟩ := write
      obtain ⟨outcome, middle, later, here, rest⟩ := observeEach_cons accepted
      have agreeRest : ∀ write ∈ writes, write.1 = name → write.2 = value :=
        fun write member => agree write (List.mem_cons_of_mem _ member)
      by_cases same : first = name
      · subst same
        have given : newOid = value := agree _ List.mem_cons_self rfl
        subst given
        have settledHere := observeRefInTx_tip here
        obtain ⟨final, kept⟩ := ih rest agreeRest (.inl settledHere)
        exact ⟨final, fun before =>
          (kept settledHere).trans (observeRefInTx_same here before)⟩
      · have keptHere := observeRefInTx_other here (Ne.symm same)
        have tipHere : middle.tip name = catalog.tip name := by rw [tip, keptHere, tip]
        have settledRest : middle.tip name = value ∨ (name, value) ∈ writes := by
          cases settled with
          | inl before => exact .inl (tipHere.trans before)
          | inr member =>
              cases List.mem_cons.mp member with
              | inl equal => cases equal; exact absurd rfl same
              | inr later => exact .inr later
        obtain ⟨final, kept⟩ := ih rest agreeRest settledRest
        exact ⟨final, fun before => (kept (tipHere.trans before)).trans keptHere⟩

theorem observeEach_puts {refs : List (Text × ObjectId)}
    (accepted
      : catalog.observeEach (refs.map (fun ref => (ref.1, some ref.2))) = .ok (changes, next))
    : catalog.highWaterMark ≤ next.highWaterMark ∧ catalog.Fresh next := by
  induction refs generalizing catalog changes with
  | nil =>
      cases accepted
      exact ⟨le_rfl, fun _ _ stored => .inl stored⟩
  | cons ref refs ih =>
      obtain ⟨outcome, middle, later, here, rest⟩ := observeEach_cons accepted
      obtain ⟨risesHere, freshHere⟩ := observeRefInTx_put here
      obtain ⟨risesRest, freshRest⟩ := ih rest
      refine ⟨le_trans risesHere risesRest, ?_⟩
      intro name row stored
      cases freshRest name row stored with
      | inl before => exact freshHere name row before
      | inr past => exact .inr (lt_of_le_of_lt risesHere past)

theorem observeEach_absences {names : List Text}
    (accepted : catalog.observeEach (names.map (fun name => (name, none))) = .ok (changes, next))
    {name : Text} {row : RefRecord} (stored : next.refs[name]? = some row)
    : catalog.refs[name]? = some row := by
  by_cases named : name ∈ names
  · have settled :=
      (observeEach_self accepted
        (fun write member _ => by
          obtain ⟨_, _, rfl⟩ := List.mem_map.mp member
          rfl)
        (.inr (List.mem_map.mpr ⟨name, named, rfl⟩))).1
    rw [tip_of_row stored] at settled
    cases settled
  · rw [← stored]
    refine (observeEach_other accepted ?_).symm
    intro write member same
    obtain ⟨absent, listed, rfl⟩ := List.mem_map.mp member
    exact named (same ▸ listed)

-- A reconciliation

theorem actualMap_mirrored {actual : List (Text × ObjectId)}
    (listed : name ∈ actualMap actual)
    : isReservedRef name = false := by
  have generally : ∀ (refs : List (Text × ObjectId)) (map : ExtTreeMap Text ObjectId compare),
      (∀ ref ∈ refs, isReservedRef ref.1 = false)
      → (∀ name ∈ map, isReservedRef name = false)
      → ∀ name ∈ refs.foldl (fun refs ref => refs.insert ref.1 ref.2) map,
          isReservedRef name = false := by
    intro refs
    induction refs with
    | nil => exact fun _ _ clean => clean
    | cons ref refs ih =>
        intro map mirrored clean
        refine ih _ (fun other member => mirrored other (List.mem_cons_of_mem _ member)) ?_
        intro name member
        cases ExtTreeMap.mem_insert.mp member with
        | inl same =>
            exact Std.LawfulEqOrd.eq_of_compare same ▸ mirrored ref List.mem_cons_self
        | inr before => exact clean name before
  refine generally _ ∅ ?_ (by simp) name listed
  intro ref member
  simpa using (List.mem_filter.mp member).2

/-- An actual ref is observed under its id, and under nothing else. -/
theorem mem_reconciliation_of_actual {known : List Text} {actual : List (Text × ObjectId)}
    {name : Text} {oid : ObjectId} (listed : (actualMap actual)[name]? = some oid)
    : (name, some oid) ∈ reconciliation known actual
      ∧ ∀ write ∈ reconciliation known actual, write.1 = name → write.2 = some oid := by
  constructor
  · refine List.mem_append_left _ (List.mem_map.mpr ⟨(name, oid), ?_, rfl⟩)
    exact ExtTreeMap.mem_toList_iff_getElem?_eq_some.mpr listed
  · intro write member same
    cases List.mem_append.mp member with
    | inl put =>
        obtain ⟨ref, stored, rfl⟩ := List.mem_map.mp put
        have found := ExtTreeMap.mem_toList_iff_getElem?_eq_some.mp stored
        simp only at same
        rw [same, listed] at found
        exact found.symm
    | inr absence =>
        obtain ⟨absent, filtered, rfl⟩ := List.mem_map.mp absence
        simp only at same
        have missing := (List.mem_filter.mp filtered).2
        have present : name ∈ actualMap actual := by
          rw [ExtTreeMap.mem_iff_isSome_getElem?, listed]
          rfl
        simp [same, ExtTreeMap.mem_iff_contains.mp present] at missing

/-- A ref that is not actual is at most observed as absent. -/
theorem mem_reconciliation_of_absent {known : List Text} {actual : List (Text × ObjectId)}
    {name : Text} (missing : name ∉ actualMap actual)
    : (name ∈ known → (name, none) ∈ reconciliation known actual)
      ∧ ∀ write ∈ reconciliation known actual,
          write.1 = name → write.2 = none ∧ name ∈ known := by
  constructor
  · intro listed
    refine List.mem_append_right _ (List.mem_map.mpr ⟨name, ?_, rfl⟩)
    refine List.mem_filter.mpr ⟨listed, ?_⟩
    rw [ExtTreeMap.mem_iff_contains] at missing
    rw [Bool.not_eq_true] at missing
    rw [missing]
    rfl
  · intro write member same
    cases List.mem_append.mp member with
    | inl put =>
        obtain ⟨ref, stored, rfl⟩ := List.mem_map.mp put
        have found := ExtTreeMap.mem_toList_iff_getElem?_eq_some.mp stored
        refine absurd ?_ missing
        rw [ExtTreeMap.mem_iff_isSome_getElem?]
        simp only at same
        rw [← same, found]
        rfl
    | inr absence =>
        obtain ⟨absent, filtered, rfl⟩ := List.mem_map.mp absence
        exact ⟨rfl, same ▸ (List.mem_filter.mp filtered).1⟩

/-- What an accepted reconciliation leaves: every actual ref at its id, no row for a known ref
that is gone, the row of every other ref, and of every ref that kept its id.
-/
structure Reconciled (known : List Text) (actual : List (Text × ObjectId))
    (catalog next : Catalog)
    : Prop where
  mirrored : ∀ name ∈ known, isReservedRef name = false
  present
    : ∀ name oid,
        (actualMap actual)[name]? = some oid
        → next.tip name = some oid
          ∧ (catalog.tip name = some oid → next.refs[name]? = catalog.refs[name]?)
  gone : ∀ name ∈ known, name ∉ actualMap actual → next.refs[name]? = none
  kept
    : ∀ name : Text,
        name ∉ known
        → name ∉ actualMap actual
        → next.refs[name]? = catalog.refs[name]?
  fresh : catalog.Fresh next

theorem tip_eq_none : catalog.tip name = none ↔ catalog.refs[name]? = none := by
  simp [tip]

/-- Witness: the batch is the actual refs followed by the absences, and only the first part
issues versions.
-/
theorem observeEach_reconciled {known : List Text} {actual : List (Text × ObjectId)}
    (accepted : catalog.observeEach (reconciliation known actual) = .ok (changes, next))
    : Reconciled known actual catalog next where
  mirrored := by
    intro name listed
    by_cases actualRef : name ∈ actualMap actual
    · exact actualMap_mirrored actualRef
    · exact observeEach_mirrored accepted _ ((mem_reconciliation_of_absent actualRef).1 listed)
  present := by
    intro name oid listed
    obtain ⟨member, agree⟩ := mem_reconciliation_of_actual listed
    exact observeEach_self accepted agree (.inr member)
  gone := by
    intro name listed missing
    obtain ⟨member, agree⟩ := mem_reconciliation_of_absent missing
    exact tip_eq_none.mp
      (observeEach_self accepted (fun write found same => (agree write found same).1)
        (.inr (member listed))).1
  kept := by
    intro name unknown missing
    refine observeEach_other accepted ?_
    intro write member same
    exact unknown ((mem_reconciliation_of_absent missing).2 write member same.symm).2
  fresh := by
    obtain ⟨middle, earlier, later, puts, absences⟩ := observeEach_append accepted
    intro name row stored
    exact (observeEach_puts puts).2 name row (observeEach_absences absences stored)

-- One observation

variable (catalog) (input : Observation)

/-- A reconciliation that is refused changes nothing; an accepted one reconciles. -/
theorem record_reconcile (known : List Text) (actual : List (Text × ObjectId))
    : (∃ name ∈ known, isReservedRef name = true)
        ∧ catalog.record (.reconcile known actual) = catalog
      ∨ ∃ next,
          Reconciled known actual catalog next
          ∧ (catalog.record (.reconcile known actual)).refs = next.refs := by
  simp only [record, reconcileRefs]
  cases accepted : catalog.observeEach (reconciliation known actual) with
  | error refusal =>
      refine .inl ⟨?_, rfl⟩
      by_contra clean
      push Not at clean
      obtain ⟨changes, next, total⟩ :=
        @observeEach_total catalog (reconciliation known actual) (by
          intro write member
          by_cases actualRef : write.1 ∈ actualMap actual
          · exact actualMap_mirrored actualRef
          · have listed := ((mem_reconciliation_of_absent actualRef).2 write member rfl).2
            simpa using clean _ listed)
      rw [total] at accepted
      cases accepted
  | ok result =>
      obtain ⟨changes, next⟩ := result
      refine .inr ⟨next, observeEach_reconciled accepted, ?_⟩
      simp only
      split <;> rfl

/-- A single observation of a reserved name changes nothing; another leaves the ref at the
observed value, its row as it was if it had that value, and every other row.
-/
theorem record_observe (name : Text) (newOid : Option ObjectId)
    : isReservedRef name = true ∧ catalog.record (.observe name newOid) = catalog
      ∨ ∃ outcome next,
          catalog.observeRefInTx name newOid = .ok (outcome, next)
          ∧ (catalog.record (.observe name newOid)).refs = next.refs := by
  simp only [record, observeRef]
  cases mirrored : isReservedRef name with
  | true => exact .inl ⟨rfl, by simp [observeRefInTx, mirrored]⟩
  | false =>
      obtain ⟨outcome, next, accepted⟩ :=
        observeRefInTx_total mirrored newOid
      refine .inr ⟨outcome, next, accepted, ?_⟩
      rw [accepted]
      simp only
      split <;> rfl

theorem tip_of_refs {left right : Catalog} (same : left.refs = right.refs) (name : Text)
    : left.tip name = right.tip name := by
  rw [tip, same, tip]

theorem Fresh.congr {catalog left right : Catalog} (fresh : catalog.Fresh left)
    (same : right.refs = left.refs)
    : catalog.Fresh right := by
  intro name row stored
  exact fresh name row (same ▸ stored)

/-- Every version an observation issues is past the high-water mark before it. -/
theorem record_fresh : catalog.Fresh (catalog.record input) := by
  have unchanged : ∀ next : Catalog, next.refs = catalog.refs → catalog.Fresh next :=
    fun next same name row stored => .inl (same ▸ stored)
  cases input with
  | observe name newOid =>
      obtain ⟨_, same⟩ | ⟨outcome, next, accepted, rows⟩ := catalog.record_observe name newOid
      · exact unchanged _ (by rw [same])
      · refine Fresh.congr ?_ rows
        cases newOid with
        | some oid => exact (observeRefInTx_put accepted).2
        | none =>
            intro other row stored
            by_cases same : other = name
            · have settled := observeRefInTx_tip accepted
              rw [← same, tip_of_row stored] at settled
              cases settled
            · exact .inl (observeRefInTx_other accepted same ▸ stored)
  | reconcile known actual =>
      obtain ⟨_, same⟩ | ⟨next, reconciled, rows⟩ := catalog.record_reconcile known actual
      · exact unchanged _ (by rw [same])
      · exact reconciled.fresh.congr rows
  | restart => exact unchanged _ rfl

variable {catalog input}

theorem Fresh.rises {catalog next : Catalog} (fresh : catalog.Fresh next)
    {oid : ObjectId} (found : next.tip name = some oid) (differs : catalog.tip name ≠ some oid)
    : catalog.highWaterMark < next.highWaterMark := by
  obtain ⟨row, stored, rfl⟩ : ∃ row, next.refs[name]? = some row ∧ row.oid = oid := by
    simpa [tip] using found
  cases fresh name row stored with
  | inl before => exact absurd (tip_of_row before) differs
  | inr past => exact lt_of_lt_of_le past (le_highWaterMark stored)

/-- An observation that either drops no ref or gives one a new value lifts the high-water
mark, or leaves every row as it was.
-/
theorem record_rises (allowed : input.Drops catalog → input.Advances catalog)
    : catalog.highWaterMark < (catalog.record input).highWaterMark
      ∨ ∀ name : Text, (catalog.record input).refs[name]? = catalog.refs[name]? := by
  have fresh := catalog.record_fresh input
  cases input with
  | observe name newOid =>
      obtain ⟨_, same⟩ | ⟨outcome, next, accepted, rows⟩ := catalog.record_observe name newOid
      · exact .inr (fun _ => by rw [same])
      · by_cases before : catalog.tip name = newOid
        · refine .inr (fun other => ?_)
          rw [rows]
          by_cases apart : other = name
          · rw [apart]
            exact observeRefInTx_same accepted before
          · exact observeRefInTx_other accepted apart
        · cases newOid with
          | some oid =>
              refine .inl (fresh.rises ?_ before)
              rw [tip_of_refs rows]
              exact observeRefInTx_tip accepted
          | none =>
              refine (allowed ⟨?_, (observeRefInTx_spec accepted).1⟩).elim
              rw [tip_eq_none] at before
              rw [ExtTreeMap.mem_iff_isSome_getElem?]
              exact Option.isSome_iff_ne_none.mpr before
  | reconcile known actual =>
      obtain ⟨_, same⟩ | ⟨next, reconciled, rows⟩ := catalog.record_reconcile known actual
      · exact .inr (fun _ => by rw [same])
      · by_cases advances : Observation.Advances catalog (.reconcile known actual)
        · obtain ⟨name, oid, listed, differs⟩ := advances
          refine .inl (fresh.rises ?_ differs)
          rw [tip_of_refs rows]
          exact (reconciled.present name oid listed).1
        · refine .inr (fun name => ?_)
          rw [rows]
          cases listed : (actualMap actual)[name]? with
          | some oid =>
              refine (reconciled.present name oid listed).2 ?_
              by_contra differs
              exact advances ⟨name, oid, listed, differs⟩
          | none =>
              have missing : name ∉ actualMap actual := by
                rw [ExtTreeMap.mem_iff_isSome_getElem?, listed]
                exact Bool.false_ne_true
              by_cases mentioned : name ∈ known
              · rw [reconciled.gone name mentioned missing]
                by_contra present
                refine advances (allowed ⟨reconciled.mirrored, name, mentioned, ?_, missing⟩)
                rw [ExtTreeMap.mem_iff_isSome_getElem?]
                exact Option.isSome_iff_ne_none.mpr (Ne.symm present)
              · exact reconciled.kept name mentioned missing
  | restart => exact .inr (fun _ => rfl)

/-- An observation that drops a ref and gives none a new value changes the table without
lifting the high-water mark.
-/
theorem record_stalls (drops : input.Drops catalog) (idle : ¬input.Advances catalog)
    : (∃ name, (catalog.record input).tip name ≠ catalog.tip name)
      ∧ (catalog.record input).highWaterMark ≤ catalog.highWaterMark := by
  have fresh := catalog.record_fresh input
  -- Every row left is one that was there: a new one would be an advance.
  have bounded
      (values
        : ∀ name oid,
            (catalog.record input).tip name = some oid → catalog.tip name = some oid)
      (kept
        : ∀ name row,
            (catalog.record input).refs[name]? = some row
            → catalog.tip name = (catalog.record input).tip name
            → catalog.refs[name]? = some row)
      : (catalog.record input).highWaterMark ≤ catalog.highWaterMark := by
    refine highWaterMark_le (fun name row stored => ?_)
    have now := tip_of_row stored
    exact le_highWaterMark (kept name row stored ((values name row.oid now).trans now.symm))
  cases input with
  | observe name newOid =>
      cases newOid with
      | some oid => exact drops.elim
      | none =>
          obtain ⟨stored, mirrored⟩ := drops
          obtain ⟨reserved, _⟩ | ⟨outcome, next, accepted, rows⟩ :=
            catalog.record_observe name none
          · rw [mirrored] at reserved
            cases reserved
          · have gone : (catalog.record (.observe name none)).refs[name]? = none := by
              rw [rows]
              exact tip_eq_none.mp (observeRefInTx_tip accepted)
            have others : ∀ other : Text, other ≠ name
                → (catalog.record (.observe name none)).refs[other]?
                  = catalog.refs[other]? := by
              intro other apart
              rw [rows]
              exact observeRefInTx_other accepted apart
            constructor
            · refine ⟨name, fun same => ?_⟩
              rw [tip_eq_none.mpr gone, eq_comm, tip_eq_none] at same
              rw [ExtTreeMap.mem_iff_isSome_getElem?, same] at stored
              cases stored
            · refine highWaterMark_le (fun other row found => ?_)
              by_cases apart : other = name
              · rw [apart, gone] at found
                cases found
              · exact le_highWaterMark ((others other apart) ▸ found)
  | reconcile known actual =>
      obtain ⟨mirrored, name, mentioned, stored, missing⟩ := drops
      obtain ⟨⟨other, listed, reserved⟩, _⟩ | ⟨next, reconciled, rows⟩ :=
        catalog.record_reconcile known actual
      · rw [mirrored other listed] at reserved
        cases reserved
      · constructor
        · refine ⟨name, fun same => ?_⟩
          rw [tip_of_refs rows, tip_eq_none.mpr (reconciled.gone name mentioned missing),
            eq_comm, tip_eq_none] at same
          rw [ExtTreeMap.mem_iff_isSome_getElem?, same] at stored
          cases stored
        · refine highWaterMark_le (fun other row found => ?_)
          rw [rows] at found
          cases listed : (actualMap actual)[other]? with
          | some oid =>
              have before : catalog.tip other = some oid := by
                by_contra differs
                exact idle ⟨other, oid, listed, differs⟩
              exact le_highWaterMark ((reconciled.present other oid listed).2 before ▸ found)
          | none =>
              have absent : other ∉ actualMap actual := by
                rw [ExtTreeMap.mem_iff_isSome_getElem?, listed]
                exact Bool.false_ne_true
              by_cases known' : other ∈ known
              · rw [reconciled.gone other known' absent] at found
                cases found
              · exact le_highWaterMark (reconciled.kept other known' absent ▸ found)
  | restart => exact drops.elim

end Catalog

-- Whole histories

/-- Every observation of the run that drops a ref also gives some ref a new value. -/
def DropsAdvance (start : Catalog) (inputs : List Observation) : Prop :=
  Runs.Along Catalog.record (fun catalog input => input.Drops catalog → input.Advances catalog)
    start inputs

/-- Along such a run the high-water mark never decreases, and strictly increases unless every
row stayed as it was.
-/
theorem DropsAdvance.rises {start : Catalog} {inputs : List Observation}
    (allowed : DropsAdvance start inputs)
    : start.highWaterMark ≤ (inputs.foldl Catalog.record start).highWaterMark
      ∧ ∀ state ∈ Runs.states Catalog.record start inputs,
          start.highWaterMark < (inputs.foldl Catalog.record start).highWaterMark
          ∨ ∀ name : Text, state.refs[name]? = start.refs[name]? := by
  induction inputs generalizing start with
  | nil =>
      refine ⟨le_rfl, fun state member => .inr ?_⟩
      rw [List.mem_singleton.mp member]
      exact fun _ => rfl
  | cons input inputs ih =>
      obtain ⟨here, rest⟩ := allowed
      obtain ⟨risesRest, sinceRest⟩ := ih rest
      have risesHere := Catalog.record_rises here
      constructor
      · cases risesHere with
        | inl past => exact le_trans past.le risesRest
        | inr same => exact (Catalog.highWaterMark_congr same).ge.trans risesRest
      · intro state member
        cases List.mem_cons.mp member with
        | inl first => exact .inr (fun _ => by rw [first])
        | inr later =>
            cases risesHere with
            | inl past => exact .inl (lt_of_lt_of_le past risesRest)
            | inr same =>
                cases sinceRest state later with
                | inl past =>
                    rw [Catalog.highWaterMark_congr same] at past
                    exact .inl past
                | inr unchanged =>
                    exact .inr (fun name => (unchanged name).trans (same name))

/-- A row whose version the high-water mark has passed never comes back: once the ref lost
it, the ref has no row or one with a later version.
-/
theorem DropsAdvance.lost {start : Catalog} {inputs : List Observation}
    (allowed : DropsAdvance start inputs) {name : Text} {version : Nat}
    (past : version ≤ start.highWaterMark)
    (gone : ∀ row, start.refs[name]? = some row → version < row.refVersion)
    : ∀ row,
        (inputs.foldl Catalog.record start).refs[name]? = some row
        → version < row.refVersion := by
  induction inputs generalizing start with
  | nil => exact gone
  | cons input inputs ih =>
      obtain ⟨here, rest⟩ := allowed
      have risesHere := (@DropsAdvance.rises start [input] ⟨here, trivial⟩).1
      refine ih rest (past.trans risesHere) ?_
      intro row stored
      cases start.record_fresh input name row stored with
      | inl before => exact gone row before
      | inr later => exact lt_of_le_of_lt past later

/-- A ref that ends a run under the version it began with kept its row all along. -/
theorem DropsAdvance.faithful {start : Catalog} {inputs : List Observation}
    (allowed : DropsAdvance start inputs) {name : Text} {row last : RefRecord}
    (first : start.refs[name]? = some row)
    (final : (inputs.foldl Catalog.record start).refs[name]? = some last)
    (same : last.refVersion = row.refVersion)
    : ∀ state ∈ Runs.states Catalog.record start inputs, state.refs[name]? = some row := by
  induction inputs generalizing start with
  | nil =>
      intro state member
      rw [List.mem_singleton.mp member]
      exact first
  | cons input inputs ih =>
      obtain ⟨here, rest⟩ := allowed
      have kept : (start.record input).refs[name]? = some row := by
        by_contra changed
        have risesHere := (@DropsAdvance.rises start [input] ⟨here, trivial⟩).1
        have below : row.refVersion ≤ (start.record input).highWaterMark :=
          (Catalog.le_highWaterMark first).trans risesHere
        have later := DropsAdvance.lost rest below (by
          intro found stored
          cases start.record_fresh input name found stored with
          | inl before =>
              rw [first] at before
              cases before
              exact absurd stored changed
          | inr past => exact lt_of_le_of_lt (Catalog.le_highWaterMark first) past)
        exact absurd same (later last final).ne'
      intro state member
      cases List.mem_cons.mp member with
      | inl here => rw [here]; exact first
      | inr later => exact ih rest kept final state later

/-- Along a run that drops no ref without advancing one, versions order the moments. -/
theorem DropsAdvance.ordersFrom {start : Catalog} {inputs : List Observation}
    (allowed : DropsAdvance start inputs)
    : OrdersFrom start inputs where
  monotone := allowed.rises.1
  strict := by
    intro state member changed
    obtain ⟨name, differs⟩ := changed
    cases allowed.rises.2 state member with
    | inl past => exact past
    | inr same => exact absurd (by rw [Catalog.tip, same, Catalog.tip]) differs
  faithful := by
    intro name nonzero same state member
    simp only [Catalog.refVersion] at nonzero same
    cases first : start.refs[name]? with
    | none => rw [first] at nonzero; exact absurd rfl nonzero
    | some row =>
        cases final : (inputs.foldl Catalog.record start).refs[name]? with
        | none =>
            rw [final] at same
            exact absurd same.symm nonzero
        | some last =>
            rw [first, final] at same
            rw [Catalog.tip, allowed.faithful first final same state member, Catalog.tip, first]

/-- The ref versions order a history exactly when each of its observations that drops a ref
also gives some ref a new value. Witness: a drop alone changes the table and lifts nothing.
-/
theorem refVersions_order_history (inputs : List Observation)
    : OrdersHistory inputs ↔ DropsAdvance .empty inputs := by
  constructor
  · intro orders
    have generally : ∀ earlier later,
        inputs = earlier ++ later → DropsAdvance (earlier.foldl Catalog.record .empty) later := by
      intro earlier later
      induction later generalizing earlier with
      | nil => exact fun _ => trivial
      | cons input later ih =>
          intro split
          have step := orders earlier [input] later (by simpa using split)
          refine ⟨fun drops => ?_, ?_⟩
          · by_contra idle
            obtain ⟨changed, stalls⟩ := Catalog.record_stalls drops idle
            exact absurd
              (step.strict _ (Runs.foldl_mem_states Catalog.record _ [input]) changed)
              (not_lt.mpr stalls)
          · have rest := ih (earlier ++ [input]) (by simpa using split)
            rwa [List.foldl_append] at rest
    exact generally [] inputs rfl
  · intro allowed earlier middle later split
    rw [split, DropsAdvance, Runs.Along.append, Runs.Along.append] at allowed
    exact DropsAdvance.ordersFrom allowed.1.2

/-- A ref deleted and created again at another commit has the version it had before. -/
theorem recreated_ref_repeats_version : ¬∀ inputs, OrdersHistory inputs := by
  intro orders
  let name : Text := "refs/heads/a".toList
  let gone : List Observation := [.observe name none, .observe name (some ⟨.sha1, [2]⟩)]
  have unchanged :=
    (orders (.observe name (some ⟨.sha1, [1]⟩) :: gone) [.observe name (some ⟨.sha1, [1]⟩)]
      gone [] rfl).faithful name (by decide) (by decide)
  exact absurd (unchanged _ (Runs.foldl_mem_states Catalog.record _ gone)) (by decide)

end Gfs.Service
