import Gfs.Lib.Checked
import Gfs.Lib.Ordered
import Gfs.Lib.Tallies

/-! Least-recently-used caches of weighted values: the textbook cache as a list in order of use, and
the books that keep such a list in two maps, one by key and one by tick.
-/

namespace Gfs.Lib.Recency

variable {κ ν : Type*}

-- The textbook cache

/-- One use of a cache. -/
inductive Op (κ ν : Type*)
  | get (key : κ)
  | insert (key : κ) (value : ν)
  | remove (key : κ)
  deriving DecidableEq

def weightOf (weight : ν → Nat) (list : List (κ × ν)) : Nat :=
  (list.map (fun row => weight row.2)).sum

def without [DecidableEq κ] (key : κ) (list : List (κ × ν)) : List (κ × ν) :=
  list.filter (fun row => row.1 ≠ key)

/-- Drop from the front until what is left fits beside a new value. -/
def room (weight : ν → Nat) (cap size : Nat) : List (κ × ν) → List (κ × ν)
  | [] => []
  | row :: rest =>
      if weightOf weight (row :: rest) + size ≤ cap then row :: rest else room weight cap size rest

/-- A key goes to the end, as the last used. -/
def touch [DecidableEq κ] (key : κ) (list : List (κ × ν)) : List (κ × ν) :=
  without key list ++ list.filter (fun row => row.1 = key)

/-- The textbook cache: the longest unused value first, and none above the cap stored. -/
def step [DecidableEq κ] (weight : ν → Nat) (cap : Nat) (list : List (κ × ν))
    : Op κ ν → List (κ × ν)
  | .get key => touch key list
  | .insert key value =>
      if cap < weight value then list
      else room weight cap (weight value) (without key list) ++ [(key, value)]
  | .remove key => without key list

/-- The shortest prefix whose loss leaves a list that fits. -/
def LosesShortest {α : Type*} (fits : List α → Prop) (before after : List α) : Prop :=
  ∃ lost, after = before.drop lost ∧ fits after ∧ ∀ fewer < lost, ¬fits (before.drop fewer)

variable {weight : ν → Nat} {cap size : Nat} {key : κ} {value : ν} {list : List (κ × ν)}

theorem weightOf_append (first second : List (κ × ν))
    : weightOf weight (first ++ second) = weightOf weight first + weightOf weight second := by
  rw [weightOf, List.map_append, List.sum_append]
  rfl

/-- What makes room is the shortest prefix that does. -/
theorem room_losesShortest (small : size ≤ cap)
    : LosesShortest (fun rest => weightOf weight rest + size ≤ cap) list
        (room weight cap size list) := by
  induction list with
  | nil => exact ⟨0, rfl, by simpa [room, weightOf] using small, fun _ less => by omega⟩
  | cons row rest ih =>
      by_cases fits : weightOf weight (row :: rest) + size ≤ cap
      · refine ⟨0, ?_, ?_, fun _ less => by omega⟩
        · rw [room, if_pos fits, List.drop_zero]
        · rw [room, if_pos fits]
          exact fits
      · obtain ⟨lost, left, fitsLeft, shortest⟩ := ih
        refine ⟨lost + 1, ?_, ?_, ?_⟩
        · rw [room, if_neg fits, left, List.drop_succ_cons]
        · rw [room, if_neg fits]
          exact fitsLeft
        · intro fewer less
          cases fewer with
          | zero => simpa using fits
          | succ fewer => simpa using shortest fewer (by omega)

theorem room_fits (small : size ≤ cap) : weightOf weight (room weight cap size list) + size ≤ cap :=
  (room_losesShortest small).choose_spec.2.1

/-- A step leaves no more than the cap. -/
theorem step_fits [DecidableEq κ] (op : Op κ ν) (fits : weightOf weight list ≤ cap)
    : weightOf weight (step weight cap list op) ≤ cap := by
  have parts (key : κ) : weightOf weight (touch key list) = weightOf weight list := by
    have perm := List.filter_append_perm (fun row : κ × ν => decide (row.1 ≠ key)) list
    simp only [decide_not, Bool.not_not] at perm
    rw [touch, without, weightOf, weightOf]
    simp only [decide_not]
    exact (perm.map _).sum_eq
  cases op with
  | get key => exact (parts key).trans_le fits
  | insert key value =>
      rw [step]
      split
      · exact fits
      · rename_i small
        rw [weightOf_append]
        exact room_fits (Nat.le_of_not_lt small)
  | remove key =>
      have split := parts key
      rw [touch, weightOf_append] at split
      exact (Nat.le_add_right _ _).trans (split.trans_le fits)

theorem room_of_fits (fits : weightOf weight list + size ≤ cap)
    : room weight cap size list = list := by
  cases list with
  | nil => rfl
  | cons row rest => rw [room, if_pos fits]

theorem room_append (row : κ × ν) (small : weight row.2 ≤ cap)
    : room weight cap 0 (list ++ [row]) = room weight cap (weight row.2) list ++ [row] := by
  induction list with
  | nil =>
      have fits : weightOf weight [row] + 0 ≤ cap := by simpa [weightOf] using small
      exact room_of_fits fits
  | cons first rest ih =>
      have same : weightOf weight ((first :: rest) ++ [row]) + 0
          = weightOf weight (first :: rest) + weight row.2 := by
        rw [weightOf_append]
        simp [weightOf]
      rw [List.cons_append, room, room, ← List.cons_append, same]
      split
      · rfl
      · exact ih

theorem step_insert_losesShortest [DecidableEq κ] (small : weight value ≤ cap)
    : LosesShortest (fun rest => weightOf weight rest ≤ cap) (without key list ++ [(key, value)])
        (step weight cap list (.insert key value)) := by
  rw [step, if_neg (Nat.not_lt.mpr small), ← room_append (key, value) small]
  exact room_losesShortest (Nat.zero_le cap)

-- Books in two maps

/-- A list in order of use, each value under its tick: `find` has it by key, `order` by tick. -/
structure Books (find : κ → Option (Nat × ν)) (order : Ordered κ) (tick : Nat)
    (held : List (Nat × κ × ν)) : Prop where
  rows : order.rows = held.map (fun row => (row.1, row.2.1))
  found : ∀ key tick value, find key = some (tick, value) ↔ (tick, key, value) ∈ held
  past : ∀ row ∈ held, row.1 ≤ tick

/-- The two maps are inverse: a key's tick is the tick of that key. -/
def Inverse (find : κ → Option (Nat × ν)) (order : Ordered κ) : Prop :=
  ∀ tick key, (tick, key) ∈ order.rows ↔ ∃ value, find key = some (tick, value)

namespace Books

variable {find : κ → Option (Nat × ν)} {order : Ordered κ} {tick : Nat}
  {held : List (Nat × κ × ν)}

theorem empty : Books (fun _ => none) (.empty : Ordered κ) 0 ([] : List (Nat × κ × ν)) :=
  ⟨rfl, fun _ _ _ => by simp, fun _ member => by cases member⟩

theorem inverse (books : Books find order tick held) : Inverse find order := by
  intro time key
  rw [books.rows, List.mem_map]
  constructor
  · rintro ⟨⟨_, _, value⟩, member, equal⟩
    cases equal
    exact ⟨value, (books.found _ _ _).mpr member⟩
  · rintro ⟨value, found⟩
    exact ⟨_, (books.found _ _ _).mp found, rfl⟩

theorem ascending (books : Books find order tick held)
    : held.Pairwise (fun first second => first.1 < second.1) := by
  have sorted := order.ordered
  rw [books.rows, List.pairwise_map] at sorted
  exact sorted

theorem keys_nodup (books : Books find order tick held)
    : (held.map (fun row => row.2.1)).Nodup := by
  rw [List.Nodup, List.pairwise_map]
  refine books.ascending.imp_of_mem fun {first second} member also less same => ?_
  have one := (books.found _ _ _).mpr member
  have other := (books.found _ _ _).mpr also
  rw [same, other, Option.some.injEq, Prod.mk.injEq] at one
  exact less.ne one.1.symm

theorem row_eq (books : Books find order tick held) {first second : Nat × κ × ν}
    (member : first ∈ held) (also : second ∈ held) (same : first.2.1 = second.2.1)
    : first = second :=
  List.inj_on_of_nodup_map books.keys_nodup member also same

/-- Taking a key out, with its tick. -/
theorem erase [DecidableEq κ] (books : Books find order tick held) {time : Nat}
    (found : find key = some (time, value))
    : Books (Function.update find key none) (order.remove time) tick
        (held.filter (fun row => row.2.1 ≠ key)) := by
  have own := (books.found _ _ _).mp found
  refine ⟨?_, ?_, fun row member => books.past row (List.mem_of_mem_filter member)⟩
  · rw [Ordered.rows_remove, books.rows, List.filter_map]
    congr 1
    refine List.filter_congr fun row member => ?_
    -- A tick is one key's.
    have same : row.1 = time ↔ row.2.1 = key := by
      constructor
      · intro equal
        have sorted := books.ascending
        have nodup : (held.map Prod.fst).Nodup := by
          rw [List.Nodup, List.pairwise_map]
          exact sorted.imp fun less => less.ne
        rw [List.inj_on_of_nodup_map nodup member own equal]
      · intro equal
        rw [books.row_eq member own equal]
    simp [same]
  · intro other time' value'
    rw [List.mem_filter, decide_eq_true_iff]
    by_cases equal : other = key
    · subst equal
      simp
    · rw [Function.update_of_ne equal, books.found]
      exact ⟨fun member => ⟨member, equal⟩, And.left⟩

/-- A new key under the next tick. -/
theorem put [DecidableEq κ] (books : Books find order tick held) (absent : find key = none)
    (value : ν)
    : Books (Function.update find key (some (tick + 1, value))) (order.insert (tick + 1) key)
        (tick + 1) (held ++ [(tick + 1, key, value)]) := by
  refine ⟨?_, ?_, ?_⟩
  · have all : order.rows.filter (fun row => row.1 < tick + 1) = order.rows := by
      refine List.filter_eq_self.mpr fun row member => ?_
      rw [books.rows, List.mem_map] at member
      obtain ⟨source, member, rfl⟩ := member
      have := books.past source member
      exact decide_eq_true (by omega)
    have none : order.rows.filter (fun row => tick + 1 < row.1) = [] := by
      refine List.filter_eq_nil_iff.mpr fun row member => ?_
      rw [books.rows, List.mem_map] at member
      obtain ⟨source, member, rfl⟩ := member
      have := books.past source member
      rw [decide_eq_true_iff]
      omega
    rw [Ordered.rows_insert, all, none, books.rows, List.map_append]
    rfl
  · intro other time value'
    rw [List.mem_append, List.mem_singleton]
    by_cases equal : other = key
    · subst equal
      rw [Function.update_self]
      constructor
      · intro same
        cases same
        exact .inr rfl
      · rintro (member | same)
        · rw [(books.found _ _ _).mpr member] at absent
          cases absent
        · cases same
          rfl
    · rw [Function.update_of_ne equal, books.found]
      refine ⟨.inl, fun either => either.resolve_right fun same => equal ?_⟩
      cases same
      rfl
  · intro row member
    rcases List.mem_append.mp member with member | member
    · exact (books.past row member).trans (Nat.le_succ _)
    · rw [List.mem_singleton.mp member]

/-- A key's row among the others. -/
theorem split [DecidableEq κ] (books : Books find order tick held) {time : Nat}
    (found : find key = some (time, value))
    : ∃ before after,
        held = before ++ (time, key, value) :: after
        ∧ held.filter (fun row => row.2.1 ≠ key) = before ++ after
        ∧ held.filter (fun row => row.2.1 = key) = [(time, key, value)] := by
  obtain ⟨before, after, rfl⟩ := List.append_of_mem ((books.found _ _ _).mp found)
  have nodup := books.keys_nodup
  rw [List.map_append, List.map_cons, List.nodup_middle, List.nodup_cons, List.mem_append] at nodup
  have apart {row : Nat × κ × ν} (member : row ∈ before ∨ row ∈ after) : row.2.1 ≠ key :=
    fun same => nodup.1 (member.imp (fun member => List.mem_map.mpr ⟨row, member, same⟩)
      fun member => List.mem_map.mpr ⟨row, member, same⟩)
  refine ⟨before, after, rfl, ?_, ?_⟩
  · rw [List.filter_append, List.filter_cons_of_neg (by simp),
      List.filter_eq_self.mpr fun row member => decide_eq_true (apart (.inl member)),
      List.filter_eq_self.mpr fun row member => decide_eq_true (apart (.inr member))]
  · rw [List.filter_append, List.filter_cons_of_pos (by simp),
      List.filter_eq_nil_iff.mpr fun row member => by simpa using apart (.inl member),
      List.filter_eq_nil_iff.mpr fun row member => by simpa using apart (.inr member)]
    rfl

theorem filter_absent [DecidableEq κ] (books : Books find order tick held)
    (absent : find key = none)
    : held.filter (fun row => row.2.1 ≠ key) = held
      ∧ held.filter (fun row => row.2.1 = key) = [] := by
  have apart {row : Nat × κ × ν} (member : row ∈ held) : row.2.1 ≠ key := by
    intro same
    have found := (books.found _ _ _).mpr member
    rw [same, absent] at found
    cases found
  exact ⟨List.filter_eq_self.mpr fun row member => decide_eq_true (apart member),
    List.filter_eq_nil_iff.mpr fun row member => by simpa using apart member⟩

theorem pop [DecidableEq κ] {row : Nat × κ × ν} {rest : List (Nat × κ × ν)}
    (books : Books find order tick (row :: rest))
    : find row.2.1 = some (row.1, row.2.2)
      ∧ Books (Function.update find row.2.1 none) (order.remove row.1) tick rest := by
  have found := (books.found row.2.1 row.1 row.2.2).mpr List.mem_cons_self
  have nodup := books.keys_nodup
  rw [List.map_cons, List.nodup_cons] at nodup
  have others : (row :: rest).filter (fun other => other.2.1 ≠ row.2.1) = rest := by
    rw [List.filter_cons_of_neg (by simp)]
    refine List.filter_eq_self.mpr fun other member => decide_eq_true fun same => nodup.1 ?_
    exact List.mem_map.mpr ⟨other, member, same⟩
  have left := books.erase found
  rw [others] at left
  exact ⟨found, left⟩

end Books

-- The list behind the books

/-- The list in order of use, without its ticks. -/
def untimed (held : List (Nat × κ × ν)) : List (κ × ν) :=
  held.map Prod.snd

@[simp] theorem untimed_append (first second : List (Nat × κ × ν))
    : untimed (first ++ second) = untimed first ++ untimed second :=
  List.map_append

@[simp] theorem untimed_cons (row : Nat × κ × ν) (rest : List (Nat × κ × ν))
    : untimed (row :: rest) = row.2 :: untimed rest :=
  rfl

theorem without_untimed [DecidableEq κ] (key : κ) (held : List (Nat × κ × ν))
    : without key (untimed held) = untimed (held.filter (fun row => row.2.1 ≠ key)) := by
  rw [without, untimed, List.filter_map]
  rfl

variable {find : κ → Option (Nat × ν)} {order : Ordered κ} {tick : Nat}
  {held : List (Nat × κ × ν)}

theorem Books.touch_absent [DecidableEq κ] (books : Books find order tick held)
    (absent : find key = none)
    : touch key (untimed held) = untimed held := by
  obtain ⟨others, own⟩ := books.filter_absent absent
  rw [touch, without_untimed, others, untimed, List.filter_map]
  exact (congrArg (untimed held ++ ·) (congrArg (List.map Prod.snd) own)).trans
    (List.append_nil _)

theorem Books.touch_found [DecidableEq κ] (books : Books find order tick held) {time : Nat}
    (found : find key = some (time, value))
    : touch key (untimed held)
      = untimed (held.filter (fun row => row.2.1 ≠ key)) ++ [(key, value)] := by
  obtain ⟨_, _, _, _, own⟩ := books.split found
  rw [touch, without_untimed]
  congr 1
  rw [untimed, List.filter_map]
  exact congrArg (List.map Prod.snd) own

theorem Books.weightOf_found [DecidableEq κ] (books : Books find order tick held) {time : Nat}
    (found : find key = some (time, value))
    : weightOf weight (untimed held)
      = weight value + weightOf weight (untimed (held.filter (fun row => row.2.1 ≠ key))) := by
  obtain ⟨before, after, whole, others, _⟩ := books.split found
  rw [others, whole, untimed_append, untimed_append, weightOf_append, weightOf_append,
    untimed_cons, weightOf, weightOf, weightOf, List.map_cons, List.sum_cons]
  exact Nat.add_left_comm _ _ _

/-- A key's value in the list. -/
theorem Books.lookup_untimed [DecidableEq κ] [BEq κ] [LawfulBEq κ]
    (books : Books find order tick held) (key : κ)
    : (untimed held).lookup key = (find key).map Prod.snd := by
  cases found : find key with
  | none =>
      rw [Option.map_none, List.lookup_eq_none_iff]
      intro row member
      obtain ⟨source, inside, rfl⟩ := List.mem_map.mp member
      rw [bne_iff_ne]
      intro same
      have held := (books.found _ _ _).mpr inside
      rw [← same, found] at held
      cases held
  | some entry =>
      obtain ⟨time, value⟩ := entry
      obtain ⟨before, after, whole, others, _⟩ := books.split found
      rw [Option.map_some, List.lookup_eq_some_iff]
      refine ⟨untimed before, untimed after, ?_, ?_⟩
      · rw [whole, untimed_append, untimed_cons]
      · intro row member
        obtain ⟨source, first, rfl⟩ := List.mem_map.mp member
        have inside : source ∈ held.filter (fun row => row.2.1 ≠ key) := by
          rw [others]
          exact List.mem_append_left _ first
        rw [bne_iff_ne]
        exact (of_decide_eq_true (List.mem_filter.mp inside).2).symm

/-- The values of the map by key weigh what the list does. -/
theorem Books.total_eq [DecidableEq κ] {γ : Type*} {place : γ → Nat × ν}
    {table : AList fun _ : κ => γ}
    (books : Books (fun key => (table.lookup key).map place) order tick held)
    : Tallies.total (fun entry => weight (place entry).2) table
      = weightOf weight (untimed held) := by
  have perm : (table.entries.map fun entry => ((place entry.2).1, entry.1, (place entry.2).2)).Perm
      held := by
    refine (List.perm_ext_iff_of_nodup ?_ books.keys_nodup.of_map).mpr fun row => ?_
    · have keys : (table.entries.map Sigma.fst).Nodup := table.nodupKeys
      refine List.Nodup.of_map (fun row : Nat × κ × ν => row.2.1) ?_
      rw [List.map_map]
      exact keys
    · obtain ⟨time, key, value⟩ := row
      rw [← books.found, Option.map_eq_some_iff, List.mem_map]
      constructor
      · rintro ⟨⟨key', entry⟩, member, same⟩
        cases same
        exact ⟨entry, Tallies.mem_entries.mp member, rfl⟩
      · rintro ⟨entry, found, same⟩
        exact ⟨⟨key, entry⟩, Tallies.mem_entries.mpr found, by rw [same]⟩
  rw [Tallies.total, weightOf, untimed, List.map_map]
  have sums := (perm.map fun row => weight row.2.2).sum_eq
  rw [List.map_map] at sums
  exact sums

end Gfs.Lib.Recency
