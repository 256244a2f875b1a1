import Gfs.Lib.Checked
import Gfs.Lib.Runs
import Gfs.Types.Basic
import Gfs.Types.Error

/-! The hydration budget (`gfs-mount/src/budget.rs`) under real reads and the speculative reads of
content prefetching (`gfs-mount/src/prefetch.rs`), every lock taken one step.
-/

namespace Gfs.Mount.Budget

open Gfs.Types
open Gfs.Lib.Checked
open Gfs.Lib.Runs

-- The budget

structure State where
  charged : Nat
  seen : Finset UInt64
  refusals : Nat
  refetches : Nat
  refetchedBytes : Nat
  deriving DecidableEq

def State.new : State :=
  ⟨0, ∅, 0, 0, 0⟩

/-- The refusal, for the log and the status. -/
def spent (charged limit size : Nat) : GfsError :=
  ⟨.resourceLimit,
    "the job's hydration budget is spent: ".toList ++ Nat.toDigits 10 charged ++ " of ".toList
      ++ Nat.toDigits 10 limit ++ " bytes used, and this read needs ".toList
      ++ Nat.toDigits 10 size ++ " more. Use `gfs rg` instead of scanning the tree ".toList
      ++ "(`git ls-files` and `git log` are free), or raise --hydration-budget.".toList⟩

variable (digest : ObjectId → UInt64) (limit percent : Nat)

/-- `admit` a size for an id, charging it, or refuse; none where an addition overflows. -/
def admitBlob (oid : ObjectId) (size : Nat) (state : State)
    : Option (Except GfsError Unit × State) :=
  if limit = 0 then some (.ok (), state)
  else if digest oid ∈ state.seen then do
    let refetches ← checkedAdd state.refetches 1
    let refetchedBytes ← checkedAdd state.refetchedBytes size
    return (.ok (), { state with refetches, refetchedBytes })
  else
    let seen := insert (digest oid) state.seen
    if saturatingAdd state.charged size > limit then do
      let refusals ← checkedAdd state.refusals 1
      return (.error (spent state.charged limit size),
        { state with refusals, seen := seen.erase (digest oid) })
    else do
      let charged ← checkedAdd state.charged size
      return (.ok (), { state with seen, charged })

/-- Bytes still available, none when unlimited. -/
def remaining (state : State) : Option Nat :=
  if limit = 0 then none else some (limit - state.charged)

-- Reads

/-- A speculative read between its two locks, with what remained at the first. -/
structure Speculation where
  oid : ObjectId
  size : Nat
  remaining : Nat
  deriving DecidableEq

/-- How `admit` answered a read. -/
structure Answer where
  oid : ObjectId
  size : Nat
  speculative : Bool
  result : Except GfsError Unit
  deriving DecidableEq

/-- The budget, the speculative reads between their locks, and every answer so far. -/
structure System where
  budget : State
  pending : List Speculation
  answers : List Answer
  deriving DecidableEq

def System.new : System :=
  ⟨.new, [], []⟩

/-- A lock taken: by a real read, or by the first or second half of a speculative one. -/
inductive Event
  | real (oid : ObjectId) (size : Nat)
  | ask (oid : ObjectId) (size : Nat)
  | charge (index : Nat)
  deriving DecidableEq

/-- A read reaches the budget and its answer is noted. -/
def System.answer (oid : ObjectId) (size : Nat) (speculative : Bool) (system : System)
    : Option System := do
  let (result, budget) ← admitBlob digest limit oid size system.budget
  return { system with budget, answers := system.answers ++ [⟨oid, size, speculative, result⟩] }

/-- The first half of a speculative read: it goes on unless it would spend the reserve. -/
def System.ask (oid : ObjectId) (size : Nat) (system : System) : Option System :=
  match remaining limit system.budget with
  | none => some system
  | some remaining => do
      let reserve ← checkedMul (limit / 100) percent
      if remaining ≤ saturatingAdd reserve size then return system
      else return { system with pending := system.pending ++ [⟨oid, size, remaining⟩] }

/-- One lock taken; none where an operation overflows. -/
def step (system : System) : Event → Option System
  | .real oid size => system.answer digest limit oid size false
  | .ask oid size => system.ask limit percent oid size
  | .charge index =>
      match system.pending[index]? with
      | none => some system
      | some read =>
          System.answer digest limit read.oid read.size true
            { system with pending := system.pending.eraseIdx index }

/-- A step of a run that has not failed yet. -/
def advance (state : Option System) (event : Event) : Option System :=
  state.bind fun system => step digest limit percent system event

def run (events : List Event) : Option System :=
  events.foldl (advance digest limit percent) (some .new)

-- What the budget is for

/-- The reads answered with `Ok`. -/
def admitted (answers : List Answer) : List (ObjectId × Nat) :=
  answers.filterMap fun answer =>
    match answer.result with
    | .ok () => some (answer.oid, answer.size)
    | .error _ => none

/-- The first read of every id. -/
def firsts (reads : List (ObjectId × Nat)) : List (ObjectId × Nat) :=
  reads.foldl
    (fun kept read => if read.1 ∈ kept.map Prod.fst then kept else kept ++ [read]) []

/-- The charged bytes are what the distinct admitted ids needed, and within the limit. -/
structure Exact (system : System) : Prop where
  charged_eq : system.budget.charged = ((firsts (admitted system.answers)).map Prod.snd).sum
  charged_le : system.budget.charged ≤ limit

/-- What a step may do that answers a read: a refusal is counted and nothing else, an id is charged
once, and a speculative charge leaves the reserve.
-/
def Fair (before after : System) : Prop :=
  ∀ answer,
    after.answers = before.answers ++ [answer]
    → (∀ refusal,
        answer.result = .error refusal
        → after.budget = { before.budget with refusals := before.budget.refusals + 1 })
      ∧ (answer.oid ∈ (admitted before.answers).map Prod.fst
        → after.budget.charged = before.budget.charged)
      ∧ (answer.speculative = true
        → answer.result = .ok ()
        → answer.oid ∉ (admitted before.answers).map Prod.fst
        → limit * percent ≤ (limit - after.budget.charged) * 100)

/-- Along the run nothing overflows, the charge is exact and every step is fair. -/
def Holds (events : List Event) : Prop :=
  ∀ earlier event later,
    events = earlier ++ event :: later
    → ∃ before after,
        run digest limit percent earlier = some before
        ∧ step digest limit percent before event = some after
        ∧ Exact limit after
        ∧ Fair limit percent before after

-- When it is

/-- The counters that a read moves stay below `u64::MAX`, and a read that does not fit is not
under a limit of `u64::MAX`.
-/
def ReadFits (oid : ObjectId) (size : Nat) (state : State) : Prop :=
  (digest oid ∈ state.seen
    → state.refetches + 1 < 2 ^ 64 ∧ state.refetchedBytes + size < 2 ^ 64)
  ∧ (digest oid ∉ state.seen
    → limit < state.charged + size
    → limit < 2 ^ 64 - 1 ∧ state.refusals + 1 < 2 ^ 64)

/-- A speculative read charges what it asked for before anything else is charged, and the reserve
loses nothing to rounding.
-/
def Settled (read : Speculation) (state : State) : Prop :=
  digest read.oid ∉ state.seen
  → state.charged + read.size ≤ limit
  → read.remaining = limit - state.charged ∧ limit % 100 * percent ≤ 100

def Meets (state : Option System) (event : Event) : Prop :=
  match state, event with
  | none, _ => True
  | some system, .real oid size => ReadFits digest limit oid size system.budget
  | some _, .ask _ _ => True
  | some system, .charge index =>
      ∀ read ∈ system.pending[index]?,
        ReadFits digest limit read.oid read.size system.budget
        ∧ Settled digest limit percent read system.budget

instance (oid : ObjectId) (size : Nat) (state : State)
    : Decidable (ReadFits digest limit oid size state) :=
  inferInstanceAs (Decidable (_ ∧ _))

instance (read : Speculation) (state : State)
    : Decidable (Settled digest limit percent read state) :=
  inferInstanceAs (Decidable (_ → _ → _))

instance Meets.decide
    : ∀ (state : Option System), DecidablePred (Meets digest limit percent state)
  | none, _ => isTrue trivial
  | some system, .real oid size =>
      inferInstanceAs (Decidable (ReadFits digest limit oid size system.budget))
  | some _, .ask _ _ => isTrue trivial
  | some system, .charge index =>
      inferInstanceAs (Decidable (∀ read ∈ system.pending[index]?, _))

/-- The id and the size that an event brings. -/
def Event.Brings (event : Event) (oid : ObjectId) (size : Nat) : Prop :=
  event = .real oid size ∨ event = .ask oid size

variable {digest limit percent}

variable {oid : ObjectId}

/-- What an answer can be: a read again, a refusal or a charge. -/
theorem admit_cases {size : Nat} {state : State} (positive : 0 < limit) (bounded : limit < 2 ^ 64)
    (fits : ReadFits digest limit oid size state)
    : (digest oid ∈ state.seen
        ∧ admitBlob digest limit oid size state
          = some (.ok (),
              {
                state with
                refetches := state.refetches + 1
                refetchedBytes := state.refetchedBytes + size
              }))
      ∨ (digest oid ∉ state.seen
        ∧ limit < state.charged + size
        ∧ admitBlob digest limit oid size state
          = some (.error (spent state.charged limit size),
              { state with refusals := state.refusals + 1 }))
      ∨ (digest oid ∉ state.seen
        ∧ state.charged + size ≤ limit
        ∧ admitBlob digest limit oid size state
          = some (.ok (),
              {
                state with
                charged := state.charged + size
                seen := insert (digest oid) state.seen
              })) := by
  rw [admitBlob, if_neg positive.ne']
  by_cases seen : digest oid ∈ state.seen
  · obtain ⟨count, bytes⟩ := fits.1 seen
    refine .inl ⟨seen, ?_⟩
    rw [if_pos seen, checkedAdd_of_lt count, checkedAdd_of_lt bytes]
    rfl
  · rw [if_neg seen]
    dsimp only
    by_cases large : limit < state.charged + size
    · obtain ⟨below, count⟩ := fits.2 seen large
      refine .inr (.inl ⟨seen, large, ?_⟩)
      have above : saturatingAdd state.charged size > limit := lt_min large below
      rw [if_pos above, checkedAdd_of_lt count, Finset.erase_insert seen]
      rfl
    · have within : ¬saturatingAdd state.charged size > limit :=
        fun above => large (Nat.lt_of_lt_of_le above (Nat.min_le_left _ _))
      refine .inr (.inr ⟨seen, Nat.le_of_not_lt large, ?_⟩)
      rw [if_neg within, checkedAdd_of_lt (by omega)]
      rfl

theorem firsts_append (reads : List (ObjectId × Nat)) (read : ObjectId × Nat)
    : firsts (reads ++ [read])
      = if read.1 ∈ (firsts reads).map Prod.fst then firsts reads else firsts reads ++ [read] := by
  rw [firsts, List.foldl_append]
  rfl

theorem mem_firsts_ids {reads : List (ObjectId × Nat)}
    : oid ∈ (firsts reads).map Prod.fst ↔ oid ∈ reads.map Prod.fst := by
  induction reads using List.reverseRecOn with
  | nil => exact Iff.rfl
  | append_singleton reads read ih =>
      rw [firsts_append, List.map_append, List.mem_append, List.map_singleton,
        List.mem_singleton]
      split
      · rename_i known
        rw [ih]
        exact ⟨.inl, fun either => either.elim id fun same => ih.mp (same ▸ known)⟩
      · rw [List.map_append, List.mem_append, List.map_singleton, List.mem_singleton, ih]

theorem admitted_append (answers : List Answer) (answer : Answer)
    : admitted (answers ++ [answer]) = admitted answers ++ admitted [answer] :=
  List.filterMap_append

-- The ledger

/-- What the budget keeps of the admitted reads: the exact charge, and the digests of their ids. -/
structure Ledger (digest : ObjectId → UInt64) (limit : Nat) (known : Set ObjectId) (charged : Nat)
    (seen : Finset UInt64) (reads : List (ObjectId × Nat)) : Prop where
  charged_eq : charged = ((firsts reads).map Prod.snd).sum
  charged_le : charged ≤ limit
  seen_iff : ∀ mark, mark ∈ seen ↔ ∃ oid ∈ reads.map Prod.fst, digest oid = mark
  known_of : ∀ oid ∈ reads.map Prod.fst, oid ∈ known

namespace Ledger

variable {known : Set ObjectId} {charged : Nat} {seen : Finset UInt64}
  {reads : List (ObjectId × Nat)}

variable {oid : ObjectId}

theorem seen_digest_iff (ledger : Ledger digest limit known charged seen reads)
    (apart : Set.InjOn digest known) (own : oid ∈ known)
    : digest oid ∈ seen ↔ oid ∈ reads.map Prod.fst := by
  rw [ledger.seen_iff]
  constructor
  · rintro ⟨other, member, same⟩
    rwa [← apart (ledger.known_of other member) own same]
  · exact fun member => ⟨oid, member, rfl⟩

theorem known_append (ledger : Ledger digest limit known charged seen reads) (own : oid ∈ known)
    (size : Nat)
    : ∀ other ∈ (reads ++ [(oid, size)]).map Prod.fst, other ∈ known := by
  intro other member
  rw [List.map_append, List.mem_append] at member
  rcases member with member | member
  · exact ledger.known_of other member
  · rw [List.map_singleton, List.mem_singleton] at member
    rwa [member]

theorem again (ledger : Ledger digest limit known charged seen reads) (own : oid ∈ known)
    (before : oid ∈ reads.map Prod.fst) (size : Nat)
    : Ledger digest limit known charged seen (reads ++ [(oid, size)]) where
  charged_eq := by
    rw [firsts_append, if_pos (mem_firsts_ids.mpr before)]
    exact ledger.charged_eq
  charged_le := ledger.charged_le
  seen_iff mark := by
    rw [ledger.seen_iff, List.map_append]
    constructor
    · rintro ⟨other, member, same⟩
      exact ⟨other, List.mem_append_left _ member, same⟩
    · rintro ⟨other, member, same⟩
      rcases List.mem_append.mp member with member | member
      · exact ⟨other, member, same⟩
      · rw [List.map_singleton, List.mem_singleton] at member
        exact ⟨oid, before, by rw [← same, member]⟩
  known_of := ledger.known_append own size

/-- A read of a new id is charged whole. -/
theorem charge (ledger : Ledger digest limit known charged seen reads) (own : oid ∈ known)
    (new : oid ∉ reads.map Prod.fst) {size : Nat} (fits : charged + size ≤ limit)
    : Ledger digest limit known (charged + size) (insert (digest oid) seen)
        (reads ++ [(oid, size)]) where
  charged_eq := by
    rw [firsts_append, if_neg (fun member => new (mem_firsts_ids.mp member)), List.map_append,
      List.sum_append, ← ledger.charged_eq]
    rfl
  charged_le := fits
  seen_iff mark := by
    rw [Finset.mem_insert, ledger.seen_iff, List.map_append]
    constructor
    · rintro (rfl | ⟨other, member, same⟩)
      · exact ⟨oid, List.mem_append_right _ List.mem_cons_self, rfl⟩
      · exact ⟨other, List.mem_append_left _ member, same⟩
    · rintro ⟨other, member, same⟩
      rcases List.mem_append.mp member with member | member
      · exact .inr ⟨other, member, same⟩
      · rw [List.map_singleton, List.mem_singleton] at member
        exact .inl (by rw [← same, member])
  known_of := ledger.known_append own size

end Ledger

-- Steps

/-- What every step keeps: the ledger, and the room that every speculative read has found. -/
structure Kept (digest : ObjectId → UInt64) (limit percent : Nat) (known : Set ObjectId)
    (system : System) : Prop where
  ledger : Ledger digest limit known system.budget.charged system.budget.seen
    (admitted system.answers)
  pending : ∀ read ∈ system.pending,
    read.oid ∈ known ∧ limit / 100 * percent + read.size < read.remaining

variable {known : Set ObjectId}

theorem Kept.new : Kept digest limit percent known .new where
  ledger := ⟨rfl, Nat.zero_le _, fun _ => by simp [System.new, State.new, admitted],
    fun _ member => by cases member⟩
  pending _ member := by cases member

/-- The effect of an answer. -/
structure Answered (limit : Nat) (before after : System) (answer : Answer) : Prop where
  answers_eq : after.answers = before.answers ++ [answer]
  refused : ∀ refusal,
    answer.result = .error refusal
    → after.budget = { before.budget with refusals := before.budget.refusals + 1 }
  again : answer.oid ∈ (admitted before.answers).map Prod.fst
    → after.budget.charged = before.budget.charged
  charged : answer.result = .ok ()
    → answer.oid ∉ (admitted before.answers).map Prod.fst
    → after.budget.charged = before.budget.charged + answer.size
      ∧ before.budget.charged + answer.size ≤ limit

theorem answer_eq {size : Nat} {speculative : Bool} {system : System}
    {result : Except GfsError Unit} {budget : State}
    (admits : admitBlob digest limit oid size system.budget = some (result, budget))
    : system.answer digest limit oid size speculative
      = some
          {
            system with
            budget
            answers := system.answers ++ [⟨oid, size, speculative, result⟩]
          } := by
  rw [System.answer, admits]
  rfl

/-- An answer keeps what a step keeps. -/
theorem Kept.answer {system : System} (kept : Kept digest limit percent known system)
    (positive : 0 < limit) (bounded : limit < 2 ^ 64) (apart : Set.InjOn digest known)
    (own : oid ∈ known) {size : Nat} (fits : ReadFits digest limit oid size system.budget)
    (speculative : Bool)
    : ∃ after result,
        system.answer digest limit oid size speculative = some after
        ∧ Kept digest limit percent known after
        ∧ Answered limit system after ⟨oid, size, speculative, result⟩ := by
  have seenIff := kept.ledger.seen_digest_iff apart own
  rcases admit_cases positive bounded fits with
    ⟨seen, again⟩ | ⟨new, large, refused⟩ | ⟨new, small, charged⟩
  · have before := seenIff.mp seen
    refine ⟨_, .ok (), answer_eq again, ⟨?_, kept.pending⟩, rfl, ?_, ?_, ?_⟩
    · dsimp only
      rw [admitted_append]
      exact kept.ledger.again own before size
    · intro refusal error
      cases error
    · exact fun _ => rfl
    · exact fun _ new => (new before).elim
  · refine ⟨_, .error _, answer_eq refused, ⟨?_, kept.pending⟩, rfl, ?_, ?_, ?_⟩
    · dsimp only
      rw [admitted_append]
      exact (List.append_nil (admitted system.answers)).symm ▸ kept.ledger
    · exact fun _ _ => rfl
    · exact fun _ => rfl
    · intro ok
      cases ok
  · have fresh := fun member => new (seenIff.mpr member)
    refine ⟨_, .ok (), answer_eq charged, ⟨?_, kept.pending⟩, rfl, ?_, ?_, ?_⟩
    · dsimp only
      rw [admitted_append]
      exact kept.ledger.charge own fresh small
    · intro refusal error
      cases error
    · exact fun before => (fresh before).elim
    · exact fun _ _ => ⟨rfl, small⟩

theorem fair_of_answers_eq {before after : System} (same : after.answers = before.answers)
    : Fair limit percent before after := by
  intro answer more
  rw [same] at more
  have lengths := congrArg List.length more
  rw [List.length_append, List.length_singleton] at lengths
  omega

theorem Answered.fair {before after : System} {answer : Answer}
    (answered : Answered limit before after answer)
    (reserve
      : answer.speculative = true
        → answer.oid ∉ (admitted before.answers).map Prod.fst
        → before.budget.charged + answer.size ≤ limit
        → limit * percent ≤ (limit - (before.budget.charged + answer.size)) * 100)
    : Fair limit percent before after := by
  intro other more
  rw [answered.answers_eq] at more
  obtain rfl : answer = other := List.singleton_inj.mp (List.append_cancel_left more)
  refine ⟨answered.refused, answered.again, fun speculative ok new => ?_⟩
  obtain ⟨charged, fits⟩ := answered.charged ok new
  rw [charged]
  exact reserve speculative new fits

theorem reserve_left {size charged : Nat} (fits : charged + size ≤ limit)
    (room : limit / 100 * percent + size < limit - charged) (round : limit % 100 * percent ≤ 100)
    : limit * percent ≤ (limit - (charged + size)) * 100 := by
  have whole : limit * percent = 100 * (limit / 100 * percent) + limit % 100 * percent := by
    calc limit * percent = (100 * (limit / 100) + limit % 100) * percent := by
          rw [Nat.div_add_mod]
      _ = 100 * (limit / 100 * percent) + limit % 100 * percent := by ring
  rw [whole]
  generalize limit / 100 * percent = reserve at room
  omega

/-- The reserve is computed, and what goes on has found more than it. -/
theorem Kept.ask {system : System} (kept : Kept digest limit percent known system)
    (positive : 0 < limit) (bounded : limit < 2 ^ 64) (percents : percent ≤ 100) (own : oid ∈ known)
    (size : Nat)
    : ∃ after,
        system.ask limit percent oid size = some after
        ∧ Kept digest limit percent known after
        ∧ after.answers = system.answers := by
  have small : limit / 100 * percent < 2 ^ 64 := by
    have less : limit / 100 * percent ≤ limit / 100 * 100 := Nat.mul_le_mul_left _ percents
    omega
  have reserve : checkedMul (limit / 100) percent = some (limit / 100 * percent) :=
    checkedMul_of_lt small
  rw [System.ask, remaining, if_neg positive.ne']
  dsimp only
  rw [reserve]
  dsimp only [Option.bind_eq_bind, Option.bind_some]
  by_cases refuse : limit - system.budget.charged ≤ saturatingAdd (limit / 100 * percent) size
  · rw [if_pos refuse]
    exact ⟨system, rfl, kept, rfl⟩
  · rw [if_neg refuse]
    refine ⟨_, rfl, ⟨kept.ledger, fun read member => ?_⟩, rfl⟩
    rcases List.mem_append.mp member with member | member
    · exact kept.pending read member
    · rw [List.mem_singleton.mp member]
      refine ⟨own, ?_⟩
      dsimp only
      unfold saturatingAdd at refuse
      omega

/-- One step succeeds, is fair, and keeps what every step keeps. -/
theorem Kept.step {system : System} (kept : Kept digest limit percent known system)
    (positive : 0 < limit) (bounded : limit < 2 ^ 64) (percents : percent ≤ 100)
    (apart : Set.InjOn digest known) {event : Event}
    (own : ∀ oid size, event.Brings oid size → oid ∈ known)
    (meets : Meets digest limit percent (some system) event)
    : ∃ after,
        step digest limit percent system event = some after
        ∧ Kept digest limit percent known after
        ∧ Fair limit percent system after := by
  cases event with
  | real oid size =>
      obtain ⟨after, _, stepped, kept', answered⟩ :=
        kept.answer positive bounded apart (own oid size (.inl rfl)) meets false
      exact ⟨after, stepped, kept', answered.fair fun speculative => by cases speculative⟩
  | ask oid size =>
      obtain ⟨after, stepped, kept', same⟩ :=
        kept.ask positive bounded percents (own oid size (.inr rfl)) size
      exact ⟨after, stepped, kept', fair_of_answers_eq same⟩
  | charge index =>
      rw [Budget.step]
      cases found : system.pending[index]? with
      | none => exact ⟨system, rfl, kept, fair_of_answers_eq rfl⟩
      | some read =>
          obtain ⟨fits, settled⟩ := meets read found
          obtain ⟨own, room⟩ := kept.pending read (List.mem_of_getElem? found)
          have left : Kept digest limit percent known
              { system with pending := system.pending.eraseIdx index } :=
            ⟨kept.ledger, fun other member => kept.pending other (List.mem_of_mem_eraseIdx member)⟩
          obtain ⟨after, _, stepped, kept', answered⟩ :=
            left.answer positive bounded apart own fits true
          refine ⟨after, stepped, kept', answered.fair fun _ new small => ?_⟩
          have unseen := fun seen => new ((kept.ledger.seen_digest_iff apart own).mp seen)
          obtain ⟨same, round⟩ := settled unseen small
          rw [same] at room
          exact reserve_left small room round

-- Runs

/-- The ids that a run's events bring. -/
def brought (events : List Event) : Set ObjectId :=
  { oid | ∃ event ∈ events, ∃ size, event.Brings oid size }

/-- Along any interleaving whose counters stay below `u64::MAX`, and whose speculative reads charge
before anything else is charged and lose nothing of the reserve to rounding, the budget is exact:
nothing overflows, ids are charged once and within the limit, and the reserve stays.
-/
theorem budget_holds (digest : ObjectId → UInt64) (limit percent : Nat) (events : List Event)
    (positive : 0 < limit) (bounded : limit < 2 ^ 64) (percents : percent ≤ 100)
    (apart : Set.InjOn digest (brought events))
    (along
      : Along (advance digest limit percent) (Meets digest limit percent) (some .new) events)
    : Holds digest limit percent events := by
  let good (state : Option System) : Prop :=
    ∃ system, state = some system ∧ Kept digest limit percent (brought events) system
  have owned : Along (advance digest limit percent)
      (fun _ event => ∀ oid size, event.Brings oid size → oid ∈ brought events) (some .new)
      events :=
    Along.of_mem (fun event member _ oid size brings => ⟨event, member, size, brings⟩) _
  have both := along.and owned
  intro earlier event later whole
  subst whole
  obtain ⟨before, rest⟩ := Along.append.mp both
  have reached : good (run digest limit percent earlier) := by
    refine invariant (fun state input held allowed => ?_) ⟨.new, rfl, .new⟩ before _
      (foldl_mem_states (advance digest limit percent) (some .new) earlier)
    obtain ⟨system, rfl, kept⟩ := held
    obtain ⟨after, stepped, kept', _⟩ :=
      kept.step positive bounded percents apart allowed.2 allowed.1
    exact ⟨after, stepped, kept'⟩
  obtain ⟨system, ran, kept⟩ := reached
  obtain ⟨⟨meets, own⟩, _⟩ := rest
  rw [← run, ran] at meets
  obtain ⟨after, stepped, kept', fair⟩ := kept.step positive bounded percents apart own meets
  exact ⟨system, after, ran, stepped, ⟨kept'.ledger.charged_eq, kept'.ledger.charged_le⟩, fair⟩

-- Some runs

/-- The digest of ids that their first byte tells apart. -/
def firstByte (oid : ObjectId) : UInt64 :=
  (oid.raw.headD 0).toUInt64

def sampleId (byte : UInt8) : ObjectId :=
  ⟨.sha1, List.replicate 20 byte⟩

/-- A run with a charge of each kind, a read again and a refusal. -/
def sampleEvents : List Event :=
  [.real (sampleId 1) 400, .ask (sampleId 2) 50, .charge 0, .real (sampleId 1) 400,
    .real (sampleId 3) 900]

theorem budget_holds_sample : Holds firstByte 1000 50 sampleEvents := by
  have ids : ∀ oid ∈ brought sampleEvents, oid ∈ [sampleId 1, sampleId 2, sampleId 3] := by
    rintro oid ⟨event, member, size, brings⟩
    simp only [sampleEvents, List.mem_cons, List.not_mem_nil, or_false] at member
    rcases brings with rfl | rfl <;> simp at member <;> grind
  have apart : ∀ first ∈ [sampleId 1, sampleId 2, sampleId 3],
      ∀ second ∈ [sampleId 1, sampleId 2, sampleId 3],
        firstByte first = firstByte second → first = second := by
    decide
  exact budget_holds firstByte 1000 50 sampleEvents (by decide) (by decide) (by decide)
    (fun first member second member' => apart first (ids first member) second (ids second member'))
    (by decide)

/-- The last of some events overflows, or is a speculative charge that spends the reserve. -/
def broken (digest : ObjectId → UInt64) (limit percent : Nat) (earlier : List Event) (event : Event)
    (answer : Answer) : Bool :=
  match run digest limit percent earlier with
  | none => true
  | some before =>
      match step digest limit percent before event with
      | none => true
      | some after =>
          after.answers = before.answers ++ [answer] && answer.speculative
            && answer.result = .ok () && answer.oid ∉ (admitted before.answers).map Prod.fst
            && (limit - after.budget.charged) * 100 < limit * percent

theorem not_holds_of_broken {earlier : List Event} {event : Event} (answer : Answer)
    (breaks : broken digest limit percent earlier event answer = true)
    : ¬Holds digest limit percent (earlier ++ [event]) := by
  intro holds
  obtain ⟨before, after, ran, stepped, _, fair⟩ := holds earlier event [] rfl
  unfold broken at breaks
  rw [ran] at breaks
  dsimp only at breaks
  rw [stepped] at breaks
  simp only [Bool.and_eq_true, decide_eq_true_eq] at breaks
  obtain ⟨⟨⟨⟨more, speculative⟩, ok⟩, new⟩, less⟩ := breaks
  exact Nat.not_lt.mpr ((fair answer more).2.2 speculative ok new) less

/-- A real read charges between the halves of a speculative one; a reserve is rounded down; a read
again overflows its bytes; and no charge is above a limit of `u64::MAX`, so one overflows.
-/
theorem budget_fails
    : ¬Holds firstByte 1000 50
          ([.ask (sampleId 1) 400, .real (sampleId 2) 500] ++ [.charge 0])
      ∧ ¬Holds firstByte 199 100 ([.ask (sampleId 1) 50] ++ [.charge 0])
      ∧ ¬Holds firstByte 1000 50
          ([.real (sampleId 1) 1, .real (sampleId 1) (2 ^ 64 - 1)] ++ [.real (sampleId 1) 1])
      ∧ ¬Holds firstByte (2 ^ 64 - 1) 50
          ([.real (sampleId 1) (2 ^ 64 - 1)] ++ [.real (sampleId 2) 1]) :=
  ⟨not_holds_of_broken ⟨sampleId 1, 400, true, .ok ()⟩ (by decide),
    not_holds_of_broken ⟨sampleId 1, 50, true, .ok ()⟩ (by decide),
    not_holds_of_broken ⟨sampleId 1, 1, false, .ok ()⟩ (by decide),
    not_holds_of_broken ⟨sampleId 2, 1, false, .ok ()⟩ (by decide)⟩

end Gfs.Mount.Budget
