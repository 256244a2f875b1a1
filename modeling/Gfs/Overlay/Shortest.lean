import Gfs.Overlay.Myers

/-! The line diff over the vectors the source indexes (`gfs-overlay/src/diff.rs`), and that its
script is a shortest one.

Every read of a vector and every turn of a signed number into an index gives `none` where the
source's would be out of range. Signed numbers are integers: a slice's length fits them.
-/

namespace Gfs.Overlay.Diff

open Gfs.Lib.Scripts

variable {α : Type} [DecidableEq α]

namespace Checked

/-- A signed number as an index. -/
def toUsize (value : Int) : Option Nat :=
  if value < 0 then none else some value.toNat

/-- The element at an index. -/
def fetch (v : List Nat) (index : Int) : Option Nat := do
  v[← toUsize index]?

/-- The vector with the element at an index set. -/
def store (v : List Nat) (index x : Nat) : Option (List Nat) :=
  if index < v.length then some (v.set index x) else none

/-- Whether the step onto a diagonal is an insertion. -/
def comesDown (v : List Nat) (index : Nat) (d k : Int) : Option Bool :=
  if k = -d then some true
  else if k = d then some false
  else do
    let below ← fetch v (index - 1)
    let above ← fetch v (index + 1)
    some (decide (below < above))

/-- Where the step onto a diagonal lands. -/
def land (v : List Nat) (index : Nat) (down : Bool) : Option Nat :=
  if down then fetch v (index + 1) else (fetch v (index - 1)).map (· + 1)

section Search

variable (old new : List α)

/-- The loop along a diagonal, past the lines both sides have alike. -/
def snake (x y : Nat) : Nat × Nat :=
  if within : x < old.length ∧ y < new.length then
    if old[x] = new[y] then snake (x + 1) (y + 1) else (x, y)
  else (x, y)
termination_by old.length - x

/-- The loop over the diagonals of one edit count: an inner `none` where it reaches the end. -/
def diagonals (offset d k : Int) (v : List Nat) : Option (Option (List Nat)) :=
  if k ≤ d then do
    let index ← toUsize (k + offset)
    let down ← comesDown v index d k
    let start ← land v index down
    let line ← toUsize (start - k)
    let (x, y) := snake old new start line
    let v ← store v index x
    if old.length ≤ x ∧ new.length ≤ y then some none
    else diagonals offset d (k + 2) v
  else some (some v)
termination_by (d + 1 - k).toNat

/-- The loop back along a diagonal, down to a point. The source pushes its edits and reverses
them at the end; here each goes to the front.
-/
def retreat (previousX previousY : Nat)
    : Nat → Nat → List (Edit α) → Option (Nat × Nat × List (Edit α))
  | x + 1, y + 1, script =>
      if previousX < x + 1 ∧ previousY < y + 1 then do
        let line ← old[x]?
        retreat previousX previousY x y (.keep line :: script)
      else some (x + 1, y + 1, script)
  | x, y, script => some (x, y, script)

/-- The walk back from a point, over the vectors from the last to the first. -/
def backtrack (offset : Int)
    : List (List Nat) → Nat → Nat → List (Edit α) → Option (List (Edit α))
  | [], _, _, script => some script
  | v :: trace, x, y, script =>
      let d : Int := trace.length
      if d = 0 then do
        let (_, _, script) ← retreat old 0 0 x y script
        some script
      else do
        let k : Int := x - y
        let index ← toUsize (k + offset)
        let down ← comesDown v index d k
        let previousK := if down then k + 1 else k - 1
        let previousX ← fetch v (previousK + offset)
        let previousY ← toUsize (previousX - previousK)
        let (x, y, script) ← retreat old previousX previousY x y script
        if x > previousX then do
          let line ← old[x - 1]?
          backtrack offset trace (x - 1) y (.remove line :: script)
        else if y > previousY then do
          let line ← new[y - 1]?
          backtrack offset trace x (y - 1) (.insert line :: script)
        else backtrack offset trace x y script

/-- The loop over the edit counts. -/
def search (offset : Int)
    : Nat → Nat → List Nat → List (List Nat) → Option (List (Edit α))
  | 0, _, _, _ => some []
  | left + 1, d, v, trace => do
      match ← diagonals old new offset d (-d) v with
      | none => backtrack old new offset (v :: trace) old.length new.length []
      | some next => search offset left (d + 1) next (v :: trace)

/-- The edit script of two lists of lines, `none` where an index or a conversion would fail. -/
def myers : Option (List (Edit α)) :=
  let max := old.length + new.length
  if max = 0 then some []
  else search old new max (max + 1) 0 (List.replicate (2 * max + 1) 0) []

end Search

-- Vectors and frontiers

/-- A vector holds a frontier's points on the diagonals it has room for. -/
structure Represents (max : Nat) (v : List Nat) (f : Frontier) : Prop where
  length : v.length = 2 * max + 1
  value : ∀ k : Int, -(max : Int) ≤ k → k ≤ max → v[(k + max).toNat]? = some (f k)

theorem toUsize_of_nonneg {value : Int} (nonneg : 0 ≤ value)
    : toUsize value = some value.toNat := by
  rw [toUsize, if_neg (by omega)]

section Vectors

variable {max : Nat} {v : List Nat} {f : Frontier} {d k : Int}

theorem represents_zeros (old new : List α) (max : Nat)
    : Represents max (List.replicate (2 * max + 1) 0) (frontier old new 0) := by
  refine ⟨List.length_replicate, ?_⟩
  intro k low high
  rw [List.getElem?_replicate, if_pos (by omega)]
  rfl

theorem Represents.fetch (held : Represents max v f) (low : -(max : Int) ≤ k) (high : k ≤ max)
    : fetch v (k + max) = some (f k) := by
  rw [Checked.fetch, toUsize_of_nonneg (by omega)]
  exact held.value k low high

theorem Represents.comesDown (held : Represents max v f) (within : d ≤ max) (low : -d ≤ k)
    (high : k ≤ d)
    : comesDown v (k + max).toNat d k = some (isDown f d k) := by
  rw [Checked.comesDown, isDown]
  by_cases first : k = -d
  · simp [first]
  · by_cases last : k = d
    · rw [if_neg first, if_pos last]
      simp [last, show ¬d = -d by omega]
    · have place : (((k + max).toNat : Nat) : Int) = k + max := by omega
      have below := held.fetch (k := k - 1) (by omega) (by omega)
      have above := held.fetch (k := k + 1) (by omega) (by omega)
      rw [if_neg first, if_neg last, place, show k + (max : Int) - 1 = k - 1 + max by ring, below,
        show k + (max : Int) + 1 = k + 1 + max by ring, above]
      simp [first, last]

theorem Represents.land (held : Represents max v f) (within : d ≤ max) (low : -d ≤ k)
    (high : k ≤ d) (some_ : 0 < max)
    : Checked.land v (k + max).toNat (isDown f d k) = some (landing f d k) := by
  have place : (((k + max).toNat : Nat) : Int) = k + max := by omega
  rw [Checked.land, landing, place]
  cases down : isDown f d k with
  | true =>
      simp only [isDown, Bool.or_eq_true, decide_eq_true_eq, Bool.and_eq_true] at down
      rw [if_pos rfl, if_pos rfl, show k + (max : Int) + 1 = k + 1 + max by ring]
      apply held.fetch
      · omega
      · omega
  | false =>
      simp only [isDown, Bool.or_eq_false_iff, decide_eq_false_iff_not] at down
      rw [if_neg Bool.false_ne_true, if_neg Bool.false_ne_true,
        show k + (max : Int) - 1 = k - 1 + max by ring, held.fetch (by omega) (by omega)]
      rfl

theorem Represents.store (held : Represents max v f) (low : -(max : Int) ≤ k) (high : k ≤ max)
    (x : Nat)
    : ∃ w,
        store v (k + max).toNat x = some w ∧ Represents max w (Function.update f k x) := by
  have within : (k + max).toNat < v.length := by
    rw [held.length]
    omega
  refine ⟨v.set (k + max).toNat x, if_pos within, by rw [List.length_set, held.length], ?_⟩
  intro k' low' high'
  by_cases same : k' = k
  · rw [same, Function.update_self, List.getElem?_set_self within]
  · rw [Function.update_of_ne same, List.getElem?_set_ne (by omega)]
    exact held.value k' low' high'

end Vectors

/-- The loop along a diagonal passes the lines both sides begin with alike. -/
theorem snake_eq (old new : List α) (x y : Nat)
    : snake old new x y
      = (x + commonPrefix (old.drop x) (new.drop y),
        y + commonPrefix (old.drop x) (new.drop y)) := by
  induction x, y using snake.induct old new with
  | case1 x y within alike ih =>
      rw [snake, dif_pos within, if_pos alike, ih, List.drop_eq_getElem_cons within.1,
        List.drop_eq_getElem_cons within.2, commonPrefix, if_pos alike, Prod.mk.injEq]
      exact ⟨by omega, by omega⟩
  | case2 x y within differ =>
      rw [snake, dif_pos within, if_neg differ, List.drop_eq_getElem_cons within.1,
        List.drop_eq_getElem_cons within.2, commonPrefix, if_neg differ]
      rfl
  | case3 x y past =>
      have none_ : commonPrefix (old.drop x) (new.drop y) = 0 := by
        obtain ⟨left, right⟩ := commonPrefix_le (old.drop x) (new.drop y)
        rw [List.length_drop] at left right
        omega
      rw [snake, dif_neg past, none_]
      rfl

omit [DecidableEq α] in
theorem getElem_stretch (list : List α) {place : Nat} {line : α} (there : list[place]? = some line)
    : (list.take (place + 1)).drop place = [line] := by
  obtain ⟨within, rfl⟩ := List.getElem?_eq_some_iff.mp there
  rw [List.drop_take, List.drop_eq_getElem_cons within, Nat.add_sub_cancel_left]
  rfl

omit [DecidableEq α] in
/-- The loop back along a diagonal keeps the lines it passes. -/
theorem retreat_eq (old : List α) {x y x' y' : Nat} (c : Nat) (inOld : x + c ≤ old.length)
    (left : x' ≤ x) (up : y' ≤ y) (stops : x = x' ∨ y = y') (script : List (Edit α))
    : retreat old x' y' (x + c) (y + c) script
      = some (x, y, ((old.take (x + c)).drop x).map .keep ++ script) := by
  induction c generalizing script with
  | zero =>
      rw [Nat.add_zero, Nat.add_zero, List.drop_take, Nat.sub_self]
      cases x with
      | zero => rfl
      | succ x =>
          cases y with
          | zero => rfl
          | succ y =>
              rw [retreat, if_neg (by omega)]
              rfl
  | succ c ih =>
      have within : x + c < old.length := by omega
      have here := List.getElem?_eq_getElem within
      rw [← Nat.add_assoc, ← Nat.add_assoc, retreat, if_pos (by omega), here]
      change retreat old x' y' (x + c) (y + c) (.keep old[x + c] :: script) = _
      rw [ih (by omega), ← stretch_append old (Nat.le_add_right x c) (Nat.le_add_right _ 1),
        getElem_stretch old here, List.map_append, List.append_assoc]
      rfl

/-- The loop over the diagonals keeps its vector at the frontier, and no index or conversion
fails. Witness: every step lands at a line of the new side.
-/
theorem diagonals_eq (old new : List α) {max : Nat} (some_ : 0 < max) {d : Int} (within : d ≤ max)
    (left : Nat) {k : Int} (low : -d ≤ k) (reaches : k + 2 * (left : Int) = d + 2)
    {v w : Frontier} (same : ∀ k', (k' - k) % 2 = 1 → w k' = v k')
    (lands : ∀ k', k ≤ k' → k' ≤ d → (k' - k) % 2 = 0 → k' ≤ landing v d k')
    {list : List Nat} (held : Represents max list w)
    : ∃ result,
        diagonals old new max d k list = some result
        ∧ Option.Rel (Represents max) result (sweep old new d left k w) := by
  induction left generalizing k w list with
  | zero =>
      rw [diagonals, if_neg (by omega), sweep]
      exact ⟨some list, rfl, .some held⟩
  | succ left ih =>
      have high : k ≤ d := by omega
      have alike : landing w d k = landing v d k := by
        rw [landing, landing, isDown, isDown, same (k - 1) (by omega), same (k + 1) (by omega)]
      have line := lands k (Int.le_refl k) high (by omega)
      rw [← alike] at line
      obtain ⟨next, stored, held'⟩ :=
        held.store (k := k) (by omega) (by omega) (reach old new w d k)
      rw [diagonals, if_pos high, toUsize_of_nonneg (by omega)]
      have down : 0 ≤ (landing w d k : Int) - k := by omega
      have ends_iff
          : isEnd old new (reach old new w d k) k = true
            ↔ old.length
                ≤ landing w d k
                  + commonPrefix (old.drop (landing w d k))
                      (new.drop ((landing w d k : Int) - k).toNat)
              ∧ new.length
                ≤ ((landing w d k : Int) - k).toNat
                  + commonPrefix (old.drop (landing w d k))
                      (new.drop ((landing w d k : Int) - k).toNat) := by
        simp only [isEnd, Bool.and_eq_true, decide_eq_true_eq]
        rw [reach]
        omega
      rw [reach] at stored
      simp only [Option.bind_eq_bind, Option.bind_some, held.comesDown within low high,
        held.land within low high some_, toUsize_of_nonneg down, snake_eq, stored, sweep]
      split
      · rename_i ends
        rw [if_pos (ends_iff.mpr ends)]
        exact ⟨none, rfl, .none⟩
      · rename_i goesOn
        rw [if_neg (goesOn ∘ ends_iff.mp)]
        apply ih (by omega) (by omega) _ _ held'
        · intro k' odd
          rw [Function.update_of_ne (by omega)]
          exact same k' (by omega)
        · intro k' later earlier even
          exact lands k' (by omega) earlier (by omega)

/-- The walk back over vectors is the walk back over the frontiers they hold. -/
theorem backtrack_eq (old new : List α) {max : Nat} {d : Nat} (within : d ≤ max)
    {k : Int} (on : OnDiagonal d k) {x y : Nat} (point : furthest old new d k = x)
    (across : (x : Int) - k = y) (inOld : x ≤ old.length) (inNew : y ≤ new.length)
    {trace : List (List Nat)} (held : List.Forall₂ (Represents max) trace (traceTo old new d))
    (script : List (Edit α))
    : backtrack old new max trace x y script
      = some (Diff.backtrack old new (traceTo old new d) x y ++ script) := by
  induction d generalizing k x y trace script with
  | zero =>
      have root := onDiagonal_zero on
      subst root
      have same : y = x := by omega
      subst same
      rw [traceTo_zero] at held ⊢
      cases held with
      | cons first rest =>
          cases rest
          have walked := retreat_eq old y (x := 0) (y := 0) (by omega) (Nat.le_refl 0)
            (Nat.le_refl 0) (.inl rfl) script
          rw [Nat.zero_add] at walked
          simp only [backtrack, Diff.backtrack, List.length_nil, Nat.cast_zero, if_true, walked,
            Option.bind_eq_bind, Option.bind_some, Nat.min_self, Nat.sub_self]
  | succ d ih =>
      rw [traceTo_succ] at held
      cases held with
      | cons first rest =>
          rename_i v trace
          have low := on.1
          have high := on.2.1
          have deep : trace.length = d + 1 := by
            rw [rest.length_eq, length_traceTo]
          have count : ¬(((d + 1 : Nat) : Int) = 0) := by omega
          have diagonal : (x : Int) - y = k := by omega
          have tested := first.comesDown (show ((d + 1 : Nat) : Int) ≤ max by omega) low high
          rw [backtrack]
          rcases backtrack_succ on point across with
            ⟨down, x', y', step, up, snake⟩ | ⟨down, x', y', step, left, snake⟩
          · obtain ⟨low', high', -⟩ := step.on
            have came := first.fetch (k := k + 1) (by omega) (by omega)
            rw [frontier_succ step.on, step.point] at came
            obtain ⟨c, rfl⟩ : ∃ c, x = x' + c := ⟨x - x', by have := step.left; omega⟩
            obtain rfl : y = y' + 1 + c := by omega
            have line : new[y']? = some new[y'] := List.getElem?_eq_getElem (by omega)
            simp only [deep, diagonal, if_neg count,
              toUsize_of_nonneg (show 0 ≤ k + (max : Int) by omega), Option.bind_eq_bind,
              Option.bind_some, tested, down, if_true, came,
              toUsize_of_nonneg (show 0 ≤ (x' : Int) - (k + 1) by omega),
              show ((x' : Int) - (k + 1)).toNat = y' by omega,
              retreat_eq old c inOld (Nat.le_refl x') (Nat.le_add_right y' 1) (.inl rfl),
              gt_iff_lt, lt_irrefl, if_false, Nat.lt_add_one, Nat.add_sub_cancel, line]
            rw [ih (by omega) step.on step.point step.across (by omega) (by omega) rest,
              step.walked, getElem_stretch new line]
            simp only [List.append_assoc, List.map_cons, List.map_nil, List.cons_append,
              List.nil_append]
          · obtain ⟨low', high', -⟩ := step.on
            have came := first.fetch (k := k - 1) (by omega) (by omega)
            rw [frontier_succ step.on, step.point] at came
            obtain ⟨c, rfl⟩ : ∃ c, x = x' + 1 + c := ⟨x - (x' + 1), by omega⟩
            obtain rfl : y = y' + c := by have := step.up; omega
            have line : old[x']? = some old[x'] := List.getElem?_eq_getElem (by omega)
            simp only [deep, diagonal, if_neg count,
              toUsize_of_nonneg (show 0 ≤ k + (max : Int) by omega), Option.bind_eq_bind,
              Option.bind_some, tested, down, Bool.false_eq_true, if_false, came,
              toUsize_of_nonneg (show 0 ≤ (x' : Int) - (k - 1) by omega),
              show ((x' : Int) - (k - 1)).toNat = y' by omega,
              retreat_eq old c inOld (Nat.le_add_right x' 1) (Nat.le_refl y') (.inr rfl),
              gt_iff_lt, if_true, Nat.lt_add_one, Nat.add_sub_cancel, line]
            rw [ih (by omega) step.on step.point step.across (by omega) (by omega) rest,
              step.walked, getElem_stretch old line]
            simp only [List.append_assoc, List.map_cons, List.map_nil, List.cons_append,
              List.nil_append]

/-- The search goes over the frontiers, to the walk back from the first edit count that ends. -/
theorem search_eq (old new : List α) (left d : Nat) {max last : Nat} (some_ : 0 < max)
    (bound : last < d + left) (within : last ≤ max) (from_ : d ≤ last)
    (ends : Ends old new last) (first : ∀ e < last, ¬Ends old new e) {v : List Nat}
    {trace : List (List Nat)}
    (held : List.Forall₂ (Represents max) (v :: trace) (traceTo old new d))
    : ∃ vectors,
        search old new max left d v trace
          = backtrack old new max vectors old.length new.length []
        ∧ List.Forall₂ (Represents max) vectors (traceTo old new last) := by
  induction left generalizing d v trace with
  | zero => omega
  | succ left ih =>
      have starts : Represents max v (frontier old new d) := by
        cases d with
        | zero =>
            cases held with
            | cons first _ => exact first
        | succ d =>
            rw [traceTo_succ] at held
            cases held with
            | cons first _ => exact first
      have lands
          : ∀ k : Int, -(d : Int) ≤ k → k ≤ d → (k - -(d : Int)) % 2 = 0
            → k ≤ landing (frontier old new d) d k :=
        fun k low high even => diagonal_le_landing old new ⟨low, high, by omega⟩
      obtain ⟨result, ran, same⟩ := diagonals_eq old new some_ (show (d : Int) ≤ max by omega)
        (d + 1) (Int.le_refl _) (by push_cast; ring) (fun _ _ => rfl) lands starts
      obtain ⟨stops, goesOn⟩ := sweep_frontier old new d
      rw [search, ran]
      by_cases here : d = last
      · subst here
        rw [stops ends] at same
        cases same
        exact ⟨v :: trace, rfl, held⟩
      · rw [goesOn (first d (by omega))] at same
        cases same with
        | some held' =>
            apply ih (d + 1) (by omega) (by omega)
            rw [traceTo_succ]
            exact .cons held' held

theorem myers_eq (old new : List α) : myers old new = some (Diff.myers old new) := by
  by_cases none_ : old.length + new.length = 0
  · simp only [myers, Diff.myers, if_pos none_]
  · obtain ⟨last, count⟩ := exists_lastCount old new
    have zeros := represents_zeros old new (old.length + new.length)
    obtain ⟨vectors, ran, held⟩ := search_eq old new (old.length + new.length + 1) 0
      (Nat.pos_of_ne_zero none_) (by have := count.bound; omega) count.bound (Nat.zero_le last)
      count.ends count.first (.cons zeros .nil)
    rw [myers, if_neg none_, ran,
      backtrack_eq old new count.bound count.on count.point (by omega) (Nat.le_refl _)
        (Nat.le_refl _) held,
      List.append_nil, myers_eq_backtrack count none_]

end Checked

-- How short the script is

section Shortest

variable {old new : List α}

/-- The walk back makes one edit for each edit count. -/
theorem edits_backtrack {d : Nat} {k : Int} (on : OnDiagonal d k) {x y : Nat}
    (point : furthest old new d k = x) (across : (x : Int) - k = y) (inOld : x ≤ old.length)
    (inNew : y ≤ new.length)
    : edits (backtrack old new (traceTo old new d) x y) = d := by
  induction d generalizing k x y with
  | zero =>
      rw [traceTo_zero, backtrack]
      simp only [List.length_nil, Nat.cast_zero, if_true, edits_keeps]
  | succ d ih =>
      rcases backtrack_succ on point across with
        ⟨-, x', y', step, up, -⟩ | ⟨-, x', y', step, left, -⟩
      · have rest := ih step.on step.point step.across (step.left.trans inOld)
          (step.up.trans inNew)
        rw [step.walked, edits_append, edits_append, edits_inserts, edits_keeps, rest,
          List.length_drop, List.length_take]
        omega
      · have rest := ih step.on step.point step.across (step.left.trans inOld)
          (step.up.trans inNew)
        rw [step.walked, edits_append, edits_append, edits_removes, edits_keeps, rest,
          List.length_drop, List.length_take]
        omega

theorem commonPrefix_stops (as bs : List α) {line : α} (left : as[commonPrefix as bs]? = some line)
    : bs[commonPrefix as bs]? ≠ some line := by
  induction as generalizing bs with
  | nil => simp at left
  | cons a as ih =>
      cases bs with
      | nil => simp
      | cons b bs =>
          rw [commonPrefix] at left ⊢
          split at left
          · rename_i alike
            rw [if_pos alike, List.getElem?_cons_succ]
            rw [List.getElem?_cons_succ] at left
            exact ih bs left
          · rename_i differ
            rw [if_neg differ, List.getElem?_cons_zero]
            rw [List.getElem?_cons_zero] at left
            intro right
            exact differ (Option.some_injective _ (left.trans right.symm))

theorem furthest_stops {d : Nat} {k : Int} (on : OnDiagonal d k) {y : Nat} {line : α}
    (across : (furthest old new d k : Int) - k = y)
    (left : old[furthest old new d k]? = some line)
    : new[y]? ≠ some line := by
  have lands := diagonal_le_landing old new on
  rw [furthest, reach] at across left
  generalize landing (frontier old new d) d k = s at *
  have differ := @commonPrefix_stops _ _ (old.drop s) (new.drop ((s : Int) - k).toNat) line
  rw [List.getElem?_drop, List.getElem?_drop] at differ
  have there : y = ((s : Int) - k).toNat
      + commonPrefix (old.drop s) (new.drop ((s : Int) - k).toNat) := by
    omega
  rw [there]
  exact differ left

omit [DecidableEq α] in
theorem take_of_concat {list lines : List α} {line : α} {x : Nat} (within : x ≤ list.length)
    (ends : lines ++ [line] = list.take x)
    : ∃ x', x = x' + 1 ∧ lines = list.take x' ∧ list[x']? = some line := by
  have count := congrArg List.length ends
  rw [List.length_append, List.length_take, Nat.min_eq_left within] at count
  refine ⟨lines.length, by simpa using count.symm, ?_, ?_⟩
  · have cut := congrArg (List.take lines.length) ends
    rw [List.take_left, List.take_take, Nat.min_eq_left (by simp at count; omega)] at cut
    exact cut
  · have at_ := congrArg (·[lines.length]?) ends
    simp only [List.getElem?_concat_length] at at_
    rw [at_, List.getElem?_take_of_lt (by simp at count; omega)]

/-- A script that turns what is before a point on the one side into what is before it on the
other takes no fewer edits than the furthest point past it, by induction from the script's end.
-/
theorem reached_of_turns (script : List (Edit α)) {x y : Nat} (inOld : x ≤ old.length)
    (inNew : y ≤ new.length) (turns : Turns script (old.take x) (new.take y))
    : OnDiagonal (edits script) (x - y) ∧ x ≤ furthest old new (edits script) (x - y) := by
  induction script using List.reverseRecOn generalizing x y with
  | nil =>
      have noOld := congrArg List.length turns.before
      have noNew := congrArg List.length turns.after
      rw [List.length_take, Nat.min_eq_left inOld] at noOld
      rw [List.length_take, Nat.min_eq_left inNew] at noNew
      obtain rfl : x = 0 := noOld.symm
      obtain rfl : y = 0 := noNew.symm
      exact ⟨⟨by simp [edits], by simp [edits], by simp [edits]⟩, Nat.zero_le _⟩
  | append_singleton script edit ih =>
      obtain ⟨oldSide, newSide⟩ := turns
      rw [before_append] at oldSide
      rw [after_append] at newSide
      rw [edits_append]
      cases edit with
      | keep line =>
          obtain ⟨x', rfl, oldTail, oldLine⟩ := take_of_concat inOld oldSide
          obtain ⟨y', rfl, newTail, newLine⟩ := take_of_concat inNew newSide
          obtain ⟨on, reached⟩ := ih (by omega) (by omega) ⟨oldTail, newTail⟩
          rw [show edits [Edit.keep line] = 0 from rfl, Nat.add_zero,
            show ((x' + 1 : Nat) : Int) - (y' + 1 : Nat) = x' - y' by push_cast; ring]
          refine ⟨on, Nat.lt_of_le_of_ne reached ?_⟩
          intro same
          rw [same] at oldLine
          exact furthest_stops on (by omega) oldLine newLine
      | remove line =>
          obtain ⟨x', rfl, oldTail, -⟩ := take_of_concat inOld oldSide
          rw [show after [Edit.remove line] = [] from rfl, List.append_nil] at newSide
          obtain ⟨on, reached⟩ := ih (by omega) inNew ⟨oldTail, newSide⟩
          have low := on.1
          have high := on.2.1
          have even := on.2.2
          rw [show edits [Edit.remove line] = 1 from rfl]
          have next : OnDiagonal (edits script + 1) ((x' + 1 : Nat) - y) :=
            ⟨by omega, by omega, by omega⟩
          have back : ((x' + 1 : Nat) : Int) - y - 1 = x' - y := by push_cast; ring
          have lands := (le_landing old new next).2
          rw [back] at lands
          exact ⟨next, (Nat.succ_le_succ reached).trans
            ((lands on).trans (landing_le_furthest old new _ _))⟩
      | insert line =>
          obtain ⟨y', rfl, newTail, -⟩ := take_of_concat inNew newSide
          rw [show before [Edit.insert line] = [] from rfl, List.append_nil] at oldSide
          obtain ⟨on, reached⟩ := ih inOld (by omega) ⟨oldSide, newTail⟩
          have low := on.1
          have high := on.2.1
          have even := on.2.2
          rw [show edits [Edit.insert line] = 1 from rfl]
          have next : OnDiagonal (edits script + 1) (x - (y' + 1 : Nat)) :=
            ⟨by omega, by omega, by omega⟩
          have back : (x : Int) - (y' + 1 : Nat) + 1 = x - y' := by push_cast; ring
          have lands := (le_landing old new next).1
          rw [back] at lands
          exact ⟨next, reached.trans ((lands on).trans (landing_le_furthest old new _ _))⟩

theorem edits_myers_le (old new : List α) {other : List (Edit α)} (turns : Turns other old new)
    : edits (myers old new) ≤ edits other := by
  by_cases none_ : old.length + new.length = 0
  · rw [myers, if_pos none_]
    exact Nat.zero_le _
  · obtain ⟨last, count⟩ := exists_lastCount old new
    rw [myers_eq_backtrack count none_,
      edits_backtrack count.on count.point (by omega) (Nat.le_refl _) (Nat.le_refl _)]
    obtain ⟨on, reached⟩ := reached_of_turns other (Nat.le_refl old.length)
      (Nat.le_refl new.length) (by rwa [List.take_length, List.take_length])
    by_contra fewer
    have ends : Ends old new (edits other) :=
      ⟨_, on, (isEnd_iff on).mpr ⟨reached, by omega⟩⟩
    exact count.first _ (Nat.lt_of_not_le fewer) ends

/-- The line diff gives a script of the two lists, reading no index out of range and turning no
negative number into an index, and no script of them removes and inserts fewer lines.
-/
theorem myers_shortest (old new : List α)
    : ∃ script,
        Checked.myers old new = some script
        ∧ before script = old
        ∧ after script = new
        ∧ ∀ other, before other = old → after other = new → edits script ≤ edits other := by
  have turns := myers_turns old new
  refine ⟨myers old new, Checked.myers_eq old new, turns.before, turns.after, ?_⟩
  intro other oldSide newSide
  exact edits_myers_le old new ⟨oldSide, newSide⟩

end Shortest

end Gfs.Overlay.Diff
