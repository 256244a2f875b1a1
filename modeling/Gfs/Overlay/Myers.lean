import Gfs.Lib.Scripts

/-! The line diff (`gfs-overlay/src/diff.rs`): greedy forward Myers with a recorded trace, and
the walk back. A vector of furthest-reaching points is a function of the diagonal.
-/

namespace Gfs.Overlay.Diff

open Gfs.Lib.Scripts

variable {α : Type} [DecidableEq α]

/-- How many lines two lists begin with alike: the snake's loop. -/
def commonPrefix : List α → List α → Nat
  | a :: as, b :: bs => if a = b then commonPrefix as bs + 1 else 0
  | _, _ => 0

/-- The furthest old line reached on each diagonal. -/
abbrev Frontier := Int → Nat

/-- Whether the step onto a diagonal is an insertion, from the diagonal above. -/
def isDown (v : Frontier) (d k : Int) : Bool :=
  decide (k = -d) || (decide (k ≠ d) && decide (v (k - 1) < v (k + 1)))

/-- Where the step onto a diagonal lands. -/
def landing (v : Frontier) (d k : Int) : Nat :=
  if isDown v d k then v (k + 1) else v (k - 1) + 1

section Search

variable (old new : List α)

/-- The furthest point on a diagonal with one more edit. -/
def reach (v : Frontier) (d k : Int) : Nat :=
  landing v d k
  + commonPrefix (old.drop (landing v d k)) (new.drop (landing v d k - k).toNat)

/-- Both sides are used up. -/
def isEnd (x : Nat) (k : Int) : Bool :=
  decide (old.length ≤ x) && decide (new.length ≤ (x - k).toNat)

/-- The loop over the diagonals of one edit count: `none` where it reaches the end. -/
def sweep (d : Int) : Nat → Int → Frontier → Option Frontier
  | 0, _, v => some v
  | left + 1, k, v =>
      let x := reach old new v d k
      if isEnd old new x k then none
      else sweep d left (k + 2) (Function.update v k x)

/-- The loop over the edit counts, with the frontiers before each, the last first. -/
def searchFrom : Nat → Nat → Frontier → List Frontier → Option (List Frontier)
  | 0, _, _, _ => none
  | left + 1, d, v, trace =>
      match sweep old new d (d + 1) (-d) v with
      | none => some (v :: trace)
      | some next => searchFrom left (d + 1) next (v :: trace)

/-- The walk back from a point, over the frontiers from the last to the first. -/
def backtrack : List Frontier → Nat → Nat → List (Edit α)
  | [], _, _ => []
  | v :: trace, x, y =>
      let d : Int := trace.length
      if d = 0 then ((old.take x).drop (x - min x y)).map .keep
      else
        let k : Int := x - y
        let previousK := if isDown v d k then k + 1 else k - 1
        let previousX := v previousK
        let previousY := (previousX - previousK).toNat
        let kept := min (x - previousX) (y - previousY)
        let keeps := ((old.take x).drop (x - kept)).map Edit.keep
        let x := x - kept
        let y := y - kept
        if x > previousX then
          backtrack trace (x - 1) y ++ ((old.take x).drop (x - 1)).map .remove ++ keeps
        else if y > previousY then
          backtrack trace x (y - 1) ++ ((new.take y).drop (y - 1)).map .insert ++ keeps
        else backtrack trace x y ++ keeps

/-- The edit script of two lists of lines. -/
def myers : List (Edit α) :=
  if old.length + new.length = 0 then []
  else
    match searchFrom old new (old.length + new.length + 1) 0 (fun _ => 0) [] with
    | some trace => backtrack old new trace old.length new.length
    | none => []

end Search

example : myers [1, 2, 3] [1, 4, 3] = [.keep 1, .remove 2, .insert 4, .keep 3] := by decide

-- The frontiers

section Frontiers

variable (old new : List α)

/-- A diagonal that an edit count can end on. -/
def OnDiagonal (d : Nat) (k : Int) : Prop :=
  -d ≤ k ∧ k ≤ d ∧ (d - k) % 2 = 0

instance (d : Nat) (k : Int) : Decidable (OnDiagonal d k) :=
  inferInstanceAs (Decidable (_ ∧ _ ∧ _))

/-- The frontier before each edit count, were the loop never to stop. -/
def frontier : Nat → Frontier
  | 0 => fun _ => 0
  | d + 1 => fun k =>
      if OnDiagonal d k then reach old new (frontier d) d k else frontier d k

/-- The furthest point on a diagonal with an edit count. -/
def furthest (d : Nat) (k : Int) : Nat :=
  reach old new (frontier old new d) d k

/-- Some diagonal of the edit count reaches the end. -/
def Ends (d : Nat) : Prop :=
  ∃ k, OnDiagonal d k ∧ isEnd old new (furthest old new d k) k = true

variable {old new}

theorem frontier_succ {d : Nat} {k : Int} (on : OnDiagonal d k)
    : frontier old new (d + 1) k = furthest old new d k := by
  simp only [frontier, if_pos on, furthest]

theorem reach_congr {v w : Frontier} {d k : Int} (below : v (k - 1) = w (k - 1))
    (above : v (k + 1) = w (k + 1))
    : reach old new v d k = reach old new w d k := by
  have same : landing v d k = landing w d k := by
    rw [landing, landing, isDown, isDown, below, above]
  rw [reach, reach, same]

/-- The loop over the diagonals sets each by the frontier it started from, and stops where one
reaches the end. Witness: the diagonals of one edit count are two apart, and a step reads those
between them.
-/
theorem sweep_eq {d : Int} (left : Nat) (k : Int) {v w : Frontier}
    (same : ∀ k', (k' - k) % 2 = 1 → w k' = v k')
    : sweep old new d left k w
      = if ∃ j : Nat, j < left ∧ isEnd old new (reach old new v d (k + 2 * j)) (k + 2 * j) = true
        then none
        else
          some (fun k' =>
            if ∃ j : Nat, j < left ∧ k' = k + 2 * j then reach old new v d k' else w k') := by
  induction left generalizing k w with
  | zero => simp [sweep]
  | succ left ih =>
      have here : reach old new w d k = reach old new v d k :=
        reach_congr (same _ (by omega)) (same _ (by omega))
      simp only [sweep, here]
      by_cases done : isEnd old new (reach old new v d k) k = true
      · rw [if_pos done, if_pos]
        exact ⟨0, Nat.succ_pos left, by simpa using done⟩
      · rw [if_neg done, ih]
        · have shift
              : (∃ j : Nat,
                    j < left
                    ∧ isEnd old new (reach old new v d (k + 2 + 2 * j)) (k + 2 + 2 * j) = true)
                ↔ ∃ j : Nat,
                    j < left + 1
                    ∧ isEnd old new (reach old new v d (k + 2 * j)) (k + 2 * j) = true := by
            constructor
            · rintro ⟨j, small, ends⟩
              refine ⟨j + 1, by omega, ?_⟩
              rwa [show k + 2 * ((j + 1 : Nat) : Int) = k + 2 + 2 * j by push_cast; ring]
            · rintro ⟨j, small, ends⟩
              cases j with
              | zero => exact absurd (by simpa using ends) done
              | succ j =>
                  refine ⟨j, by omega, ?_⟩
                  rwa [show k + 2 + 2 * (j : Int) = k + 2 * ((j + 1 : Nat) : Int) by
                    push_cast; ring]
          simp only [shift]
          congr 2
          funext k'
          by_cases first : k' = k
          · subst first
            have later : ¬∃ j : Nat, j < left ∧ k' = k' + 2 + 2 * (j : Int) := by
              rintro ⟨j, -, equal⟩
              omega
            have now : ∃ j : Nat, j < left + 1 ∧ k' = k' + 2 * (j : Int) :=
              ⟨0, Nat.succ_pos left, by simp⟩
            rw [if_neg later, if_pos now, Function.update_self]
          · have shift
                : (∃ j : Nat, j < left ∧ k' = k + 2 + 2 * (j : Int))
                  ↔ ∃ j : Nat, j < left + 1 ∧ k' = k + 2 * (j : Int) := by
              constructor
              · rintro ⟨j, small, equal⟩
                exact ⟨j + 1, by omega, by push_cast; omega⟩
              · rintro ⟨j, small, equal⟩
                cases j with
                | zero => exact absurd (by simpa using equal) first
                | succ j => exact ⟨j, by omega, by push_cast at equal; omega⟩
            simp only [shift, Function.update_of_ne first]
        · intro k' odd
          rw [Function.update_of_ne (by omega)]
          exact same k' (by omega)

theorem onDiagonal_iff {d : Nat} {k : Int}
    : OnDiagonal d k ↔ ∃ j : Nat, j < d + 1 ∧ k = -d + 2 * (j : Int) := by
  constructor
  · rintro ⟨low, high, even⟩
    exact ⟨((k + d) / 2).toNat, by omega, by omega⟩
  · rintro ⟨j, small, rfl⟩
    exact ⟨by omega, by omega, by omega⟩

/-- One edit count: the loop stops where the count ends, and else leaves the next frontier. -/
theorem sweep_frontier (old new : List α) (d : Nat)
    : (Ends old new d → sweep old new d (d + 1) (-d) (frontier old new d) = none)
      ∧ (¬Ends old new d
        → sweep old new d (d + 1) (-d) (frontier old new d) = some (frontier old new (d + 1))) := by
  have ends_iff
      : Ends old new d
        ↔ ∃ j : Nat,
            j < d + 1
            ∧ isEnd old new (reach old new (frontier old new d) d (-d + 2 * j)) (-d + 2 * j)
                = true := by
    constructor
    · rintro ⟨k, on, ends⟩
      obtain ⟨j, small, rfl⟩ := onDiagonal_iff.mp on
      exact ⟨j, small, ends⟩
    · rintro ⟨j, small, ends⟩
      exact ⟨_, onDiagonal_iff.mpr ⟨j, small, rfl⟩, ends⟩
  rw [sweep_eq (d + 1) (-d) (fun _ _ => rfl), ends_iff]
  constructor
  · intro ends
    rw [if_pos ends]
  · intro goesOn
    rw [if_neg goesOn]
    congr 1
    funext k
    simp only [frontier, onDiagonal_iff]

/-- The frontiers before the edit counts up to one, the last first. -/
def traceTo (old new : List α) (d : Nat) : List Frontier :=
  ((List.range (d + 1)).map (frontier old new)).reverse

theorem searchFrom_eq (left d : Nat) {last : Nat} (bound : last < d + left) (from_ : d ≤ last)
    (ends : Ends old new last) (first : ∀ e < last, ¬Ends old new e)
    (trace : List Frontier) (before : frontier old new d :: trace = traceTo old new d)
    : searchFrom old new left d (frontier old new d) trace = some (traceTo old new last) := by
  induction left generalizing d trace with
  | zero => omega
  | succ left ih =>
      simp only [searchFrom]
      obtain ⟨stops, goesOn⟩ := sweep_frontier old new d
      by_cases here : d = last
      · subst here
        rw [stops ends]
        exact congrArg some before
      · rw [goesOn (first d (by omega))]
        refine ih (d + 1) (by omega) (by omega) _ ?_
        rw [before, traceTo, traceTo, List.range_succ (n := d + 1), List.map_append,
          List.reverse_append]
        rfl

end Frontiers

-- How far the points reach

section Points

variable {old new : List α}

theorem commonPrefix_le (as bs : List α)
    : commonPrefix as bs ≤ as.length ∧ commonPrefix as bs ≤ bs.length := by
  induction as generalizing bs with
  | nil => simp [commonPrefix]
  | cons a as ih =>
      cases bs with
      | nil => simp [commonPrefix]
      | cons b bs =>
          simp only [commonPrefix, List.length_cons]
          split
          · have := ih bs
            omega
          · omega

theorem take_commonPrefix (as bs : List α)
    : as.take (commonPrefix as bs) = bs.take (commonPrefix as bs) := by
  induction as generalizing bs with
  | nil => simp [commonPrefix]
  | cons a as ih =>
      cases bs with
      | nil => simp [commonPrefix]
      | cons b bs =>
          simp only [commonPrefix]
          split
          · rename_i same
            rw [List.take_succ_cons, List.take_succ_cons, ih bs, same]
          · rfl

variable {k : Int}

theorem onDiagonal_zero (on : OnDiagonal 0 k) : k = 0 := by
  obtain ⟨low, high, -⟩ := on
  omega

variable {d : Nat}

/-- Where a step lands: on its predecessor's diagonal before it. -/
theorem landing_cases (old new : List α) (on : OnDiagonal (d + 1) k)
    : (isDown (frontier old new (d + 1)) (d + 1 : Nat) k = true
        ∧ OnDiagonal d (k + 1)
        ∧ landing (frontier old new (d + 1)) (d + 1 : Nat) k = furthest old new d (k + 1))
      ∨ (isDown (frontier old new (d + 1)) (d + 1 : Nat) k = false
        ∧ OnDiagonal d (k - 1)
        ∧ landing (frontier old new (d + 1)) (d + 1 : Nat) k = furthest old new d (k - 1) + 1) := by
  obtain ⟨low, high, even⟩ := on
  cases down : isDown (frontier old new (d + 1)) (d + 1 : Nat) k with
  | true =>
      have on : OnDiagonal d (k + 1) := by
        simp only [isDown, Bool.or_eq_true, decide_eq_true_eq, Bool.and_eq_true] at down
        exact ⟨by omega, by omega, by omega⟩
      refine .inl ⟨rfl, on, ?_⟩
      rw [landing, if_pos down, frontier_succ on]
  | false =>
      have on : OnDiagonal d (k - 1) := by
        simp only [isDown, Bool.or_eq_false_iff, decide_eq_false_iff_not] at down
        exact ⟨by omega, by omega, by omega⟩
      refine .inr ⟨rfl, on, ?_⟩
      rw [landing, if_neg (by rw [down]; exact Bool.false_ne_true), frontier_succ on]

/-- A step lands as far as either diagonal beside it lets it. -/
theorem le_landing (old new : List α) (on : OnDiagonal (d + 1) k)
    : (OnDiagonal d (k + 1)
        → furthest old new d (k + 1) ≤ landing (frontier old new (d + 1)) (d + 1 : Nat) k)
      ∧ (OnDiagonal d (k - 1)
        → furthest old new d (k - 1) + 1
          ≤ landing (frontier old new (d + 1)) (d + 1 : Nat) k) := by
  rcases landing_cases old new on with ⟨down, above, lands⟩ | ⟨down, below, lands⟩
  · refine ⟨fun _ => lands.ge, ?_⟩
    intro below
    simp only [isDown, Bool.or_eq_true, decide_eq_true_eq, Bool.and_eq_true,
      frontier_succ above, frontier_succ below] at down
    rcases down with first | ⟨-, less⟩
    · have := below.1
      omega
    · omega
  · refine ⟨?_, fun _ => lands.ge⟩
    intro above
    simp only [isDown, Bool.or_eq_false_iff, decide_eq_false_iff_not, Bool.and_eq_false_iff,
      frontier_succ above, frontier_succ below] at down
    obtain ⟨-, last | notLess⟩ := down
    · have := above.2.1
      omega
    · omega

theorem landing_le_furthest (old new : List α) (d : Nat) (k : Int)
    : landing (frontier old new d) d k ≤ furthest old new d k :=
  Nat.le_add_right _ _

/-- From any point on, every further edit goes right or down. -/
theorem furthest_mono (old new : List α) (on : OnDiagonal d k) (more : Nat)
    {k' : Int} (on' : OnDiagonal (d + more) k') (low : -(more : Int) ≤ k' - k)
    (high : k' - k ≤ more)
    : 2 * (furthest old new d k : Int) + more + (k' - k)
      ≤ 2 * (furthest old new (d + more) k' : Int) := by
  induction more generalizing k' with
  | zero =>
      have same : k' = k := by omega
      subst same
      simp
  | succ more ih =>
      obtain ⟨above, below⟩ := le_landing old new (d := d + more) on'
      have lands := landing_le_furthest old new (d + more + 1) k'
      obtain ⟨evenLow, evenHigh, even⟩ := on
      obtain ⟨evenLow', evenHigh', even'⟩ := on'
      by_cases first : k' - k = -((more + 1 : Nat) : Int)
      · have between : OnDiagonal (d + more) (k' + 1) := ⟨by omega, by omega, by omega⟩
        have step := ih between (by omega) (by omega)
        have reached := above between
        change _ ≤ 2 * (furthest old new (d + more + 1) k' : Int)
        omega
      · have between : OnDiagonal (d + more) (k' - 1) := ⟨by omega, by omega, by omega⟩
        have step := ih between (by omega) (by omega)
        have reached := below between
        change _ ≤ 2 * (furthest old new (d + more + 1) k' : Int)
        omega

theorem le_furthest (old new : List α) (on : OnDiagonal d k)
    : (d : Int) + k ≤ 2 * (furthest old new d k : Int) := by
  have start : OnDiagonal 0 0 := ⟨by simp, by simp, by simp⟩
  have := furthest_mono old new start d
    (by rw [Nat.zero_add]; exact on) (by have := on.1; omega) (by have := on.2.1; omega)
  rw [Nat.zero_add] at this
  omega

theorem diagonal_le_landing (old new : List α) (on : OnDiagonal d k)
    : k ≤ landing (frontier old new d) d k := by
  cases d with
  | zero =>
      have root := onDiagonal_zero on
      omega
  | succ d =>
      rcases landing_cases old new on with ⟨-, above, lands⟩ | ⟨-, below, lands⟩
      · have far := le_furthest old new above
        have high := above.2.1
        omega
      · have far := le_furthest old new below
        have high := below.2.1
        omega

theorem furthest_le (old new : List α) (d : Nat) (k : Int)
    : (furthest old new d k = landing (frontier old new d) d k ∨ furthest old new d k ≤ old.length)
      ∧ (furthest old new d k = landing (frontier old new d) d k
        ∨ (furthest old new d k : Int) - k ≤ new.length) := by
  have prefix_ := commonPrefix_le (old.drop (landing (frontier old new d) d k))
    (new.drop (landing (frontier old new d) d k - k).toNat)
  simp only [List.length_drop] at prefix_
  rw [furthest, reach]
  constructor
  · omega
  · omega

theorem furthest_zero : furthest old new 0 0 = commonPrefix old new := by
  simp [furthest, reach, landing, isDown, frontier]

/-- A point past the old side went past it from a point at its end, with one edit a step. -/
theorem exit_right (on : OnDiagonal d k)
    (past : old.length < furthest old new d k)
    : ∃ (d' : Nat) (k' : Int),
        OnDiagonal d' k'
        ∧ furthest old new d' k' = old.length
        ∧ (old.length : Int) - k' ≤ furthest old new d k - k
        ∧ (d : Int)
          = d' + (furthest old new d k - old.length)
            + ((furthest old new d k - k) - (old.length - k')) := by
  induction d generalizing k with
  | zero =>
      rw [onDiagonal_zero on, furthest_zero] at past
      have := (commonPrefix_le old new).1
      omega
  | succ d ih =>
      have stays := (furthest_le old new (d + 1) k).1
      rcases landing_cases old new on with ⟨-, above, lands⟩ | ⟨-, below, lands⟩
      · obtain ⟨d', k', on', ends, before, count⟩ := ih above (by omega)
        exact ⟨d', k', on', ends, by omega, by omega⟩
      · by_cases exits : furthest old new d (k - 1) = old.length
        · exact ⟨d, k - 1, below, exits, by omega, by omega⟩
        · obtain ⟨d', k', on', ends, before, count⟩ := ih below (by omega)
          exact ⟨d', k', on', ends, by omega, by omega⟩

/-- A point past the new side went past it from a point at its end, with one edit a step. -/
theorem exit_down (on : OnDiagonal d k)
    (past : (new.length : Int) < furthest old new d k - k)
    : ∃ (d' : Nat) (k' : Int),
        OnDiagonal d' k'
        ∧ (furthest old new d' k' : Int) - k' = new.length
        ∧ furthest old new d' k' ≤ furthest old new d k
        ∧ (d : Int)
          = d' + (furthest old new d k - k - new.length)
            + (furthest old new d k - furthest old new d' k') := by
  induction d generalizing k with
  | zero =>
      rw [onDiagonal_zero on, furthest_zero] at past
      have := (commonPrefix_le old new).2
      omega
  | succ d ih =>
      have stays := (furthest_le old new (d + 1) k).2
      rcases landing_cases old new on with ⟨-, above, lands⟩ | ⟨-, below, lands⟩
      · by_cases exits : (furthest old new d (k + 1) : Int) - (k + 1) = new.length
        · exact ⟨d, k + 1, above, exits, by omega, by omega⟩
        · obtain ⟨d', k', on', ends, before, count⟩ := ih above (by omega)
          exact ⟨d', k', on', ends, by omega, by omega⟩
      · obtain ⟨d', k', on', ends, before, count⟩ := ih below (by omega)
        exact ⟨d', k', on', ends, by omega, by omega⟩

theorem isEnd_iff (on : OnDiagonal d k)
    : isEnd old new (furthest old new d k) k = true
      ↔ old.length ≤ furthest old new d k
        ∧ (new.length : Int) ≤ furthest old new d k - k := by
  have up := le_furthest old new on
  have := on.2.1
  simp only [isEnd, Bool.and_eq_true, decide_eq_true_eq]
  omega

theorem ends_total : Ends old new (old.length + new.length) := by
  have on : OnDiagonal (old.length + new.length) (old.length - new.length) :=
    ⟨by omega, by omega, by omega⟩
  have far := le_furthest old new on
  exact ⟨_, on, (isEnd_iff on).mpr ⟨by omega, by omega⟩⟩

/-- The first point to use up both sides is at the end of both. Witness: a point past one side
left it at its end, from where the rest of the other side takes fewer edits.
-/
theorem first_end (on : OnDiagonal d k)
    (ends : isEnd old new (furthest old new d k) k = true) (first : ∀ e < d, ¬Ends old new e)
    : furthest old new d k = old.length ∧ k = old.length - new.length := by
  obtain ⟨right, down⟩ := (isEnd_iff on).mp ends
  by_cases pastRight : old.length < furthest old new d k
  · exfalso
    obtain ⟨d', k', on', atEnd, before, count⟩ := exit_right on pastRight
    by_cases used : (new.length : Int) ≤ old.length - k'
    · refine first d' (by omega) ⟨k', on', (isEnd_iff on').mpr ⟨by omega, by omega⟩⟩
    · obtain ⟨more, same⟩ : ∃ more : Nat, (more : Int) = new.length - (old.length - k') :=
        ⟨(new.length - (old.length - k')).toNat, by omega⟩
      have ⟨low, high, even⟩ := on'
      have target : OnDiagonal (d' + more) (old.length - new.length) :=
        ⟨by omega, by omega, by omega⟩
      have far := furthest_mono old new on' more target (by omega) (by omega)
      refine first (d' + more) (by omega)
        ⟨_, target, (isEnd_iff target).mpr ⟨by omega, by omega⟩⟩
  · by_cases pastDown : (new.length : Int) < furthest old new d k - k
    · exfalso
      obtain ⟨d', k', on', atEnd, before, count⟩ := exit_down on pastDown
      by_cases used : old.length ≤ furthest old new d' k'
      · refine first d' (by omega) ⟨k', on', (isEnd_iff on').mpr ⟨by omega, by omega⟩⟩
      · obtain ⟨more, same⟩ : ∃ more : Nat, (more : Int) = old.length - furthest old new d' k' :=
          ⟨old.length - furthest old new d' k', by omega⟩
        have ⟨low, high, even⟩ := on'
        have target : OnDiagonal (d' + more) (old.length - new.length) :=
          ⟨by omega, by omega, by omega⟩
        have far := furthest_mono old new on' more target (by omega) (by omega)
        refine first (d' + more) (by omega)
          ⟨_, target, (isEnd_iff target).mpr ⟨by omega, by omega⟩⟩
    · exact ⟨by omega, by omega⟩

end Points

-- The walk back

section Walk

variable {old new : List α}

theorem traceTo_zero : traceTo old new 0 = [frontier old new 0] := rfl

theorem traceTo_succ (d : Nat)
    : traceTo old new (d + 1) = frontier old new (d + 1) :: traceTo old new d := by
  rw [traceTo, traceTo, List.range_succ, List.map_append, List.reverse_append]
  rfl

theorem length_traceTo (d : Nat) : (traceTo old new d).length = d + 1 := by
  simp [traceTo]

omit [DecidableEq α] in
theorem take_append_stretch (list : List α) {first last : Nat} (le : first ≤ last)
    : list.take first ++ (list.take last).drop first = list.take last := by
  conv_rhs =>
    rw [← List.take_append_drop first (list.take last), List.take_take, Nat.min_eq_left le]

theorem snake_stretch (old new : List α) (x y : Nat)
    : (old.take (x + commonPrefix (old.drop x) (new.drop y))).drop x
      = (new.take (y + commonPrefix (old.drop x) (new.drop y))).drop y := by
  rw [List.drop_take, List.drop_take, Nat.add_sub_cancel_left, Nat.add_sub_cancel_left]
  exact take_commonPrefix _ _

omit [DecidableEq α] in
theorem stretch_append (list : List α) {first middle last : Nat} (le : first ≤ middle)
    (le' : middle ≤ last)
    : (list.take middle).drop first ++ (list.take last).drop middle
      = (list.take last).drop first := by
  have joined := take_append_stretch (list.drop first) (Nat.sub_le_sub_right le' first)
  rw [← List.drop_take, ← List.drop_take, List.drop_drop] at joined
  rwa [Nat.add_sub_cancel' le] at joined

/-- One edit of the walk back: the point it came from, on a diagonal of the edit before, and the
lines between the two.
-/
structure StepBack (old new : List α) (d : Nat) (k : Int) (x y x' y' : Nat) (edit : List (Edit α))
    : Prop where
  on : OnDiagonal d k
  point : furthest old new d k = x'
  across : (x' : Int) - k = y'
  left : x' ≤ x
  up : y' ≤ y
  turns : Turns edit ((old.take x).drop x') ((new.take y).drop y')
  walked
    : backtrack old new (traceTo old new (d + 1)) x y
      = backtrack old new (traceTo old new d) x' y' ++ edit

/-- The edit before a point is an insertion or a removal, with the snake after it. -/
theorem backtrack_succ {d : Nat} {k : Int} (on : OnDiagonal (d + 1) k) {x y : Nat}
    (point : furthest old new (d + 1) k = x) (across : (x : Int) - k = y)
    : (isDown (frontier old new (d + 1)) (d + 1 : Nat) k = true
        ∧ ∃ x' y',
            StepBack old new d (k + 1) x y x' y'
              (((new.take (y' + 1)).drop y').map .insert ++ ((old.take x).drop x').map .keep)
            ∧ y' + 1 ≤ y
            ∧ x - x' = y - (y' + 1))
      ∨ (isDown (frontier old new (d + 1)) (d + 1 : Nat) k = false
        ∧ ∃ x' y',
            StepBack old new d (k - 1) x y x' y'
              (((old.take (x' + 1)).drop x').map .remove
              ++ ((old.take x).drop (x' + 1)).map .keep)
            ∧ x' + 1 ≤ x
            ∧ x - (x' + 1) = y - y') := by
  -- The point is a snake away from where its last edit landed.
  generalize landed : landing (frontier old new (d + 1)) (d + 1 : Nat) k = s at *
  have reached
      : furthest old new (d + 1) k
        = s + commonPrefix (old.drop s) (new.drop (s - k).toNat) := by
    rw [furthest, reach, landed]
  generalize run : commonPrefix (old.drop s) (new.drop (s - k).toNat) = c at reached
  have diagonal : (x : Int) - y = k := by omega
  have count : ((traceTo old new d).length : Int) ≠ 0 := by
    rw [length_traceTo]
    omega
  rcases landing_cases old new on with ⟨down, above, lands⟩ | ⟨down, below, lands⟩
  · have far := le_furthest old new above
    have high := above.2.1
    obtain ⟨t, line⟩ : ∃ t : Nat, (t : Int) = s - (k + 1) := ⟨(s - (k + 1)).toNat, by omega⟩
    have there : ((s : Int) - k).toNat = t + 1 := by omega
    rw [there] at run
    have stretch := snake_stretch old new s (t + 1)
    rw [run] at stretch
    have xs : x = s + c := by omega
    have ys : y = t + 1 + c := by omega
    refine .inl ⟨down, s, t, ⟨above, by omega, by omega, by omega, by omega, ?_, ?_⟩, by omega,
      by omega⟩
    · have turned := (turns_inserts ((new.take (t + 1)).drop t)).append
        (turns_keeps ((old.take x).drop s))
      have newSide
          : (new.take (t + 1)).drop t ++ (old.take x).drop s = (new.take y).drop t := by
        rw [xs, stretch, stretch_append new (by omega) (by omega), ys]
      rwa [List.nil_append, newSide] at turned
    · rw [traceTo_succ, backtrack]
      simp only [count, if_false, diagonal]
      rw [show ((traceTo old new d).length : Int) = (d + 1 : Nat) by rw [length_traceTo], down]
      simp only [if_true, frontier_succ above]
      rw [show furthest old new d (k + 1) = s by omega,
        show ((s : Int) - (k + 1)).toNat = t by omega,
        show min (x - s) (y - t) = c by omega, show x - c = s by omega,
        show y - c = t + 1 by omega, if_neg (by omega), if_pos (by omega), List.append_assoc]
      rfl
  · have far := le_furthest old new below
    have high := below.2.1
    obtain ⟨t, line⟩ : ∃ t : Nat, (t : Int) = s - k := ⟨(s - k).toNat, by omega⟩
    have there : ((s : Int) - k).toNat = t := by omega
    rw [there] at run
    have stretch := snake_stretch old new s t
    rw [run] at stretch
    obtain ⟨from_, rfl⟩ : ∃ from_, s = from_ + 1 := ⟨s - 1, by omega⟩
    have xs : x = from_ + 1 + c := by omega
    have ys : y = t + c := by omega
    refine .inr ⟨down, from_, t, ⟨below, by omega, by omega, by omega, by omega, ?_, ?_⟩,
      by omega, by omega⟩
    · have turned := (turns_removes ((old.take (from_ + 1)).drop from_)).append
        (turns_keeps ((old.take x).drop (from_ + 1)))
      have newSide : (old.take x).drop (from_ + 1) = (new.take y).drop t := by
        rw [xs, stretch, ys]
      rw [stretch_append old (by omega) (by omega), List.nil_append] at turned
      rwa [newSide] at turned ⊢
    · rw [traceTo_succ, backtrack]
      simp only [count, if_false, diagonal]
      rw [show ((traceTo old new d).length : Int) = (d + 1 : Nat) by rw [length_traceTo], down]
      simp only [Bool.false_eq_true, if_false, frontier_succ below]
      rw [show furthest old new d (k - 1) = from_ by omega,
        show ((from_ : Int) - (k - 1)).toNat = t by omega,
        show min (x - from_) (y - t) = c by omega, show x - c = from_ + 1 by omega,
        show y - c = t by omega, if_pos (by omega), List.append_assoc]
      rfl

/-- The walk back from a point within both sides turns what is before it on the one into what is
before it on the other.
-/
theorem backtrack_turns {d : Nat} {k : Int} (on : OnDiagonal d k) {x y : Nat}
    (point : furthest old new d k = x) (across : (x : Int) - k = y) (inOld : x ≤ old.length)
    (inNew : y ≤ new.length)
    : Turns (backtrack old new (traceTo old new d) x y) (old.take x) (new.take y) := by
  induction d generalizing k x y with
  | zero =>
      have root := onDiagonal_zero on
      subst root
      have same : y = x := by omega
      subst same
      rw [furthest_zero] at point
      rw [traceTo_zero, backtrack]
      simp only [List.length_nil, Nat.cast_zero, if_true, Nat.min_self, Nat.sub_self,
        List.drop_zero]
      rw [← point, ← take_commonPrefix old new]
      exact turns_keeps _
  | succ d ih =>
      have stepped {k' : Int} {x' y' : Nat} {edit : List (Edit α)}
          (step : StepBack old new d k' x y x' y' edit)
          : Turns (backtrack old new (traceTo old new (d + 1)) x y) (old.take x)
              (new.take y) := by
        have rest := ih step.on step.point step.across (step.left.trans inOld)
          (step.up.trans inNew)
        have turned := rest.append step.turns
        rw [take_append_stretch old step.left, take_append_stretch new step.up] at turned
        rwa [step.walked]
      rcases backtrack_succ on point across with ⟨-, x', y', step, -⟩ | ⟨-, x', y', step, -⟩
      · exact stepped step
      · exact stepped step

/-- The first edit count that ends, at the end of both lists. -/
structure LastCount (old new : List α) (last : Nat) : Prop where
  bound : last ≤ old.length + new.length
  ends : Ends old new last
  first : ∀ e < last, ¬Ends old new e
  on : OnDiagonal last (old.length - new.length)
  point : furthest old new last (old.length - new.length) = old.length

theorem exists_lastCount (old new : List α) : ∃ last, LastCount old new last := by
  classical
  obtain ⟨last, ends, first⟩ : ∃ last, Ends old new last ∧ ∀ e < last, ¬Ends old new e :=
    ⟨Nat.find ⟨_, ends_total⟩, Nat.find_spec ⟨_, ends_total⟩, fun _ => Nat.find_min _⟩
  have bound : last ≤ old.length + new.length := by
    by_contra far
    exact first _ (Nat.lt_of_not_le far) ends_total
  obtain ⟨k, on, atEnd⟩ := ends
  obtain ⟨right, rfl⟩ := first_end on atEnd first
  exact ⟨last, bound, ⟨_, on, atEnd⟩, first, on, right⟩

theorem myers_eq_backtrack {last : Nat} (count : LastCount old new last)
    (some_ : ¬old.length + new.length = 0)
    : myers old new = backtrack old new (traceTo old new last) old.length new.length := by
  have within := count.bound
  have ran := searchFrom_eq (old.length + new.length + 1) 0
    (by omega) (Nat.zero_le last) count.ends count.first [] rfl
  rw [myers, if_neg some_, show (fun _ => 0 : Frontier) = frontier old new 0 from rfl, ran]

theorem myers_turns (old new : List α) : Turns (myers old new) old new := by
  by_cases none_ : old.length + new.length = 0
  · have oldNil : old = [] := List.eq_nil_of_length_eq_zero (by omega)
    have newNil : new = [] := List.eq_nil_of_length_eq_zero (by omega)
    rw [myers, if_pos none_, oldNil, newNil]
    exact ⟨rfl, rfl⟩
  · obtain ⟨last, count⟩ := exists_lastCount old new
    have turned := backtrack_turns count.on count.point (y := new.length) (by omega)
      (Nat.le_refl _) (Nat.le_refl _)
    rw [myers_eq_backtrack count none_]
    rwa [List.take_length, List.take_length] at turned

end Walk

end Gfs.Overlay.Diff
