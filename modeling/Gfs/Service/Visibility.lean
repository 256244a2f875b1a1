import Gfs.Lib.Runs
import Gfs.Types.Basic
import Gfs.Types.Ids

/-! Memoized reachability verdicts (`gfs-service/src/auth/visibility.rs`) and the requests that use
them (`Authorizer::is_visible` in `auth/mod.rs`), between ref changes. A request reads the
generation, looks in the cache, walks the refs and stores its verdict in steps of their own. A walk
finds the refs of one moment. The hit counters are left out.
-/

namespace Gfs.Service.Visibility

open Gfs.Types
open Gfs.Lib

-- The cache

/-- How long a "reachable" verdict may be reused, in nanoseconds. -/
def visibleTtl : Nat := 10_000_000_000

/-- How long an "unreachable" verdict may be reused. -/
def hiddenTtl : Nat := 2_000_000_000

/-- How many verdicts to hold before dropping the lot. -/
def capacity : Nat := 4096

def ttl (visible : Bool) : Nat :=
  if visible then visibleTtl else hiddenTtl

structure Verdict where
  visible : Bool
  generation : Nat
  decided : Nat
  deriving DecidableEq, Repr

/-- A duration since a later instant is zero. -/
def Verdict.usable (verdict : Verdict) (generation now : Nat) : Bool :=
  verdict.generation = generation && now - verdict.decided < ttl verdict.visible

abbrev Key := RepositoryId × ObjectId

/-- The remembered verdict, when one was decided under this generation and is still inside its
TTL.
-/
def get (entries : List (Key × Verdict)) (key : Key) (generation now : Nat) : Option Bool :=
  ((entries.find? (fun row => row.1 = key)).filter
    (fun row => row.2.usable generation now)).map (fun row => row.2.visible)

/-- Remember a verdict against the generation it was computed under. -/
def insert (entries : List (Key × Verdict)) (key : Key) (verdict : Verdict)
    : List (Key × Verdict) :=
  let entries := if entries.length ≥ capacity then [] else entries
  entries.filter (fun row => row.1 ≠ key) ++ [(key, verdict)]

-- The requests

/-- What a request has done since it read the generation. -/
inductive Stage where
  | asked
  | missed
  | walked (visible : Bool)
  deriving DecidableEq, Repr

structure Request where
  key : Key
  generation : Nat
  stage : Stage

/-- What a request was told, and when. -/
structure Answer where
  key : Key
  generation : Nat
  visible : Bool
  moment : Nat

/-- The authorizer, the generations it reads and the refs it walks. -/
structure Desk where
  now : Nat
  /-- What a walk of the repository's refs finds for a commit. -/
  reachable : Key → Bool
  generations : RepositoryId → Nat
  entries : List (Key × Verdict)
  requests : Nat → Option Request
  answers : List Answer

/-- A process that has served nothing. -/
def Desk.opened (now : Nat) (reachable : Key → Bool) : Desk where
  now := now
  reachable := reachable
  generations := fun _ => 0
  entries := []
  requests := fun _ => none
  answers := []

/-- What happens beside and in the requests, in any order. -/
inductive Event where
  | pass (elapsed : Nat)
  /-- Refs move, recorded or not. -/
  | move (reachable : Key → Bool)
  /-- `bump_ref_generation`, after a recorded change or an eviction. -/
  | record (repository : RepositoryId)
  | ask (id : Nat) (key : Key)
  | look (id : Nat)
  | walk (id : Nat)
  | store (id : Nat)
  /-- The repository cannot be opened, the walk fails, or the caller is gone. -/
  | fail (id : Nat)

namespace Desk

/-- The request is where it now is. -/
def put (desk : Desk) (id : Nat) (request : Option Request) : Desk :=
  { desk with requests := Function.update desk.requests id request }

def answer (desk : Desk) (request : Request) (visible : Bool) : Desk :=
  { desk with answers := desk.answers ++ [⟨request.key, request.generation, visible, desk.now⟩] }

def ask (desk : Desk) (id : Nat) (key : Key) : Desk :=
  match desk.requests id with
  | none => desk.put id (some ⟨key, desk.generations key.1, .asked⟩)
  | some _ => desk

def look (desk : Desk) (id : Nat) (request : Request) : Desk :=
  match get desk.entries request.key request.generation desk.now with
  | some visible => (desk.answer request visible).put id none
  | none => desk.put id (some { request with stage := .missed })

def store (desk : Desk) (id : Nat) (request : Request) (visible : Bool) : Desk :=
  let entries := insert desk.entries request.key ⟨visible, request.generation, desk.now⟩
  { (desk.answer request visible).put id none with entries }

def step (desk : Desk) : Event → Desk
  | .pass elapsed => { desk with now := desk.now + elapsed }
  | .move reachable => { desk with reachable }
  | .record repository =>
      { desk with
        generations :=
          Function.update desk.generations repository (desk.generations repository + 1) }
  | .ask id key => desk.ask id key
  | .look id =>
      match desk.requests id with
      | some ⟨key, generation, .asked⟩ => desk.look id ⟨key, generation, .asked⟩
      | _ => desk
  | .walk id =>
      match desk.requests id with
      | some ⟨key, generation, .missed⟩ =>
          desk.put id (some ⟨key, generation, .walked (desk.reachable key)⟩)
      | _ => desk
  | .store id =>
      match desk.requests id with
      | some ⟨key, generation, .walked visible⟩ =>
          desk.store id ⟨key, generation, .walked visible⟩ visible
      | _ => desk
  | .fail id => desk.put id none

end Desk

-- What a verdict stands on

/-- The steps that were taken so far, each with the desk it was taken at. -/
abbrev Log := List (Desk × Event)

/-- At one of the steps the refs said so, with every change recorded that the generation counts. -/
def Found (log : Log) (key : Key) (generation : Nat) (visible : Bool) : Prop :=
  ∃ seen ∈ log, seen.1.reachable key = visible ∧ generation ≤ seen.1.generations key.1

/-- A request stored the verdict that it had walked for, at a moment. -/
def Stored (log : Log) (key : Key) (generation : Nat) (visible : Bool) (moment : Nat) : Prop :=
  ∃ before desk id after,
    log = before ++ (desk, .store id) :: after
    ∧ desk.requests id = some ⟨key, generation, .walked visible⟩
    ∧ desk.now = moment
    ∧ Found before key generation visible

/-- One of the steps gave the answer, and a verdict was stored by then less than its TTL before. -/
def Answer.Grounded (log : Log) (answer : Answer) : Prop :=
  ∃ before desk event after moment,
    log = before ++ (desk, event) :: after
    ∧ (desk.step event).answers = desk.answers ++ [answer]
    ∧ desk.now = answer.moment
    ∧ Stored (before ++ [(desk, event)]) answer.key answer.generation answer.visible moment
    ∧ moment ≤ answer.moment
    ∧ answer.moment < moment + ttl answer.visible

structure Sound (log : Log) (desk : Desk) : Prop where
  entries
    : ∀ row ∈ desk.entries,
        Stored log row.1 row.2.generation row.2.visible row.2.decided ∧ row.2.decided ≤ desk.now
  counted
    : ∀ id request,
        desk.requests id = some request
        → request.generation ≤ desk.generations request.key.1
  walked
    : ∀ id request visible,
        desk.requests id = some request
        → request.stage = .walked visible
        → Found log request.key request.generation visible
  answers : ∀ answer ∈ desk.answers, answer.Grounded log
  fits : desk.entries.length ≤ capacity

section Steps

variable {log : Log} {desk : Desk} {id : Nat} {request : Request}

theorem ttl_pos (visible : Bool) : 0 < ttl visible := by
  cases visible <;> decide

variable {generation : Nat} {visible : Bool}

theorem of_get {entries : List (Key × Verdict)} {key : Key} {now : Nat}
    (hit : get entries key generation now = some visible)
    : ∃ row ∈ entries,
        row.1 = key
        ∧ row.2.generation = generation
        ∧ row.2.visible = visible
        ∧ now < row.2.decided + ttl visible := by
  obtain ⟨row, kept, rfl⟩ := Option.map_eq_some_iff.mp hit
  obtain ⟨found, usable⟩ := Option.filter_eq_some_iff.mp kept
  simp only [Verdict.usable, Bool.and_eq_true, decide_eq_true_eq] at usable
  refine ⟨row, List.mem_of_find?_eq_some found, ?_, usable.1, rfl, ?_⟩
  · simpa using List.find?_some found
  · have := ttl_pos row.2.visible
    omega

-- More steps take nothing back

theorem Found.later {key : Key} (found : Found log key generation visible) (more : Log)
    : Found (log ++ more) key generation visible := by
  obtain ⟨seen, listed, reached, counted⟩ := found
  exact ⟨seen, List.mem_append_left _ listed, reached, counted⟩

theorem Stored.later {key : Key} {moment : Nat} (stored : Stored log key generation visible moment)
    (more : Log)
    : Stored (log ++ more) key generation visible moment := by
  obtain ⟨before, desk, id, after, rfl, walked, now, found⟩ := stored
  exact ⟨before, desk, id, after ++ more, by simp, walked, now, found⟩

theorem Answer.Grounded.later {answer : Answer} (grounded : answer.Grounded log) (more : Log)
    : answer.Grounded (log ++ more) := by
  obtain ⟨before, desk, event, after, moment, rfl, given, now, stored, inside⟩ := grounded
  exact ⟨before, desk, event, after ++ more, moment, by simp, given, now, stored, inside⟩

theorem Sound.later (sound : Sound log desk) (more : Log) : Sound (log ++ more) desk where
  entries row member := ⟨(sound.entries row member).1.later more, (sound.entries row member).2⟩
  counted := sound.counted
  walked id request visible stored stage :=
    (sound.walked id request visible stored stage).later more
  answers answer member := (sound.answers answer member).later more
  fits := sound.fits

/-- A request at its next stage keeps the books, when what it walked was found. -/
theorem Sound.put (sound : Sound log desk) {next : Option Request}
    (counted : ∀ request ∈ next, request.generation ≤ desk.generations request.key.1)
    (walked
      : ∀ request ∈ next,
          ∀ visible,
            request.stage = .walked visible
            → Found log request.key request.generation visible)
    : Sound log (desk.put id next) where
  entries := sound.entries
  counted := by
    intro other request stored
    simp only [Desk.put, Function.update_apply] at stored
    split at stored
    · exact counted request stored
    · exact sound.counted other request stored
  walked := by
    intro other request visible stored stage
    simp only [Desk.put, Function.update_apply] at stored
    split at stored
    · exact walked request stored visible stage
    · exact sound.walked other request visible stored stage
  answers := sound.answers
  fits := sound.fits

theorem Sound.answer (sound : Sound log desk)
    (grounded : Answer.Grounded log ⟨request.key, request.generation, visible, desk.now⟩)
    : Sound log ((desk.answer request visible).put id none) := by
  have answered : Sound log (desk.answer request visible) := by
    refine ⟨sound.entries, sound.counted, sound.walked, ?_, sound.fits⟩
    intro answer member
    cases List.mem_append.mp member with
    | inl before => exact sound.answers answer before
    | inr last => exact List.mem_singleton.mp last ▸ grounded
  exact answered.put (by simp) (by simp)

/-- Witness: an entry that is still inside its TTL was stored less than that ago. -/
theorem Sound.look (sound : Sound log desk)
    (asked : desk.requests id = some request) (stage : request.stage = .asked)
    : Sound (log ++ [(desk, .look id)]) (desk.look id request) := by
  have step : desk.step (.look id) = desk.look id request := by
    obtain ⟨key, generation, here⟩ := request
    cases stage
    simp only [Desk.step, asked]
  have kept := sound.later [(desk, .look id)]
  cases hit : get desk.entries request.key request.generation desk.now with
  | some visible =>
      obtain ⟨row, member, same, generation, rfl, inside⟩ := of_get hit
      obtain ⟨stored, before⟩ := kept.entries row member
      have look
          : desk.look id request = (desk.answer request row.2.visible).put id none := by
        rw [Desk.look, hit]
      rw [look]
      refine kept.answer ⟨log, desk, .look id, [], row.2.decided, rfl, ?_, rfl, ?_, before, inside⟩
      · rw [step, look]
        rfl
      · rw [same, generation] at stored
        exact stored
  | none =>
      rw [Desk.look, hit]
      refine kept.put ?_ (by simp)
      intro next same
      cases same
      exact sound.counted id request asked

/-- Witness: the verdict was found since the generation it is stored under was read. -/
theorem Sound.store (sound : Sound log desk) {key : Key}
    (walked : desk.requests id = some ⟨key, generation, .walked visible⟩)
    : Sound (log ++ [(desk, .store id)])
        (desk.store id ⟨key, generation, .walked visible⟩ visible) := by
  have step
      : desk.step (.store id) = desk.store id ⟨key, generation, .walked visible⟩ visible := by
    simp only [Desk.step, walked]
  have found := sound.walked id _ visible walked rfl
  have stored : Stored (log ++ [(desk, .store id)]) key generation visible desk.now :=
    ⟨log, desk, id, [], rfl, walked, rfl, found⟩
  have kept := sound.later [(desk, .store id)]
  have answered
      : Sound (log ++ [(desk, .store id)])
          ((desk.answer ⟨key, generation, .walked visible⟩ visible).put id none) := by
    refine kept.answer ⟨log, desk, .store id, [], desk.now, rfl, ?_, rfl, stored, le_rfl,
      Nat.lt_add_of_pos_right (ttl_pos visible)⟩
    rw [step]
    rfl
  have entries
      : ∀ row ∈ if desk.entries.length ≥ capacity then [] else desk.entries,
          row ∈ desk.entries := by
    intro row member
    split at member
    · exact absurd member List.not_mem_nil
    · exact member
  refine ⟨?_, answered.counted, answered.walked, answered.answers, ?_⟩
  · intro row member
    cases List.mem_append.mp member with
    | inl before => exact kept.entries row (entries row (List.mem_filter.mp before).1)
    | inr last =>
        obtain rfl := List.mem_singleton.mp last
        exact ⟨stored, le_rfl⟩
  · simp only [Desk.store, insert, List.length_append, List.length_singleton]
    refine Nat.add_le_of_le_sub (by decide) ((List.length_filter_le _ _).trans ?_)
    split
    · exact Nat.zero_le _
    · omega

/-- Every event keeps what each verdict stands on. -/
theorem Sound.step (sound : Sound log desk) (event : Event)
    : Sound (log ++ [(desk, event)]) (desk.step event) := by
  have kept := sound.later [(desk, event)]
  cases event with
  | pass elapsed =>
      refine ⟨?_, kept.counted, kept.walked, kept.answers, kept.fits⟩
      intro row member
      obtain ⟨stored, before⟩ := kept.entries row member
      exact ⟨stored, before.trans (Nat.le_add_right _ _)⟩
  | move reachable => exact ⟨kept.entries, kept.counted, kept.walked, kept.answers, kept.fits⟩
  | record repository =>
      refine ⟨kept.entries, ?_, kept.walked, kept.answers, kept.fits⟩
      intro id request stored
      refine (sound.counted id request stored).trans ?_
      simp only [Desk.step, Function.update_apply]
      split
      · rename_i same
        rw [same]
        exact Nat.le_succ _
      · exact le_rfl
  | ask id key =>
      simp only [Desk.step, Desk.ask]
      split
      · refine kept.put ?_ ?_
        · intro request same
          cases same
          exact le_rfl
        · intro request same
          cases same
          simp
      · exact kept
  | look id =>
      simp only [Desk.step]
      split
      · rename_i asked
        exact sound.look asked rfl
      · exact kept
  | walk id =>
      simp only [Desk.step]
      split
      · rename_i key generation missed
        have counted := sound.counted id _ missed
        refine kept.put ?_ ?_
        · intro request same
          cases same
          exact counted
        · intro request same visible stage
          cases same
          cases stage
          exact ⟨(desk, .walk id), List.mem_append_right _ (List.mem_singleton.mpr rfl), rfl,
            counted⟩
      · exact kept
  | store id =>
      simp only [Desk.step]
      split
      · rename_i walked
        exact sound.store walked
      · exact kept
  | fail id => exact kept.put (by simp) (by simp)

end Steps

end Gfs.Service.Visibility
