import Mathlib

/-! The proleptic Gregorian calendar: day after day from 1970-01-01, and the number of a day. Years
that begin in March put the leap day last, so a number is a sum of three starts.
-/

namespace Gfs.Lib.Calendar

-- Dates

@[ext]
structure Date where
  year : Int
  month : Nat
  day : Nat
  deriving DecidableEq, Repr

def isLeap (year : Int) : Bool :=
  year % 4 = 0 && (year % 100 ≠ 0 || year % 400 = 0)

def monthLength (year : Int) : Nat → Nat
  | 2 => if isLeap year then 29 else 28
  | 4 | 6 | 9 | 11 => 30
  | _ => 31

namespace Date

/-- A day of the calendar. -/
structure Valid (date : Date) : Prop where
  month_pos : 1 ≤ date.month
  month_le : date.month ≤ 12
  day_pos : 1 ≤ date.day
  day_le : date.day ≤ monthLength date.year date.month

/-- The day after. -/
def next (date : Date) : Date :=
  if date.day < monthLength date.year date.month then { date with day := date.day + 1 }
  else if date.month < 12 then ⟨date.year, date.month + 1, 1⟩
  else ⟨date.year + 1, 1, 1⟩

/-- 1970-01-01 -/
def epoch : Date :=
  ⟨1970, 1, 1⟩

end Date

/-- How many days a date is from 1970-01-01, counted one by one. -/
inductive Distance : Int → Date → Prop
  | epoch : Distance 0 .epoch
  | after {days : Int} {date : Date} : Distance days date → Distance (days + 1) date.next
  | before {days : Int} {date : Date}
    : date.Valid → Distance (days + 1) date.next → Distance days date

theorem monthLength_pos (year : Int) (month : Nat) : 1 ≤ monthLength year month := by
  unfold monthLength
  split <;> (try split) <;> omega

theorem Date.valid_epoch : Date.epoch.Valid :=
  ⟨by decide, by decide, by decide, by decide⟩

theorem Date.Valid.next {date : Date} (valid : date.Valid) : date.next.Valid := by
  unfold Date.next
  split
  · rename_i early
    exact ⟨valid.month_pos, valid.month_le, Nat.le_add_left 1 date.day, early⟩
  · split
    · rename_i early
      exact ⟨Nat.le_add_left 1 date.month, early, Nat.le_refl 1, monthLength_pos _ _⟩
    · exact ⟨Nat.le_refl 1, Nat.le_add_left 1 11, Nat.le_refl 1, monthLength_pos _ _⟩

variable {date : Date}

theorem Distance.valid {days : Int} (distance : Distance days date) : date.Valid := by
  induction distance with
  | epoch => exact Date.valid_epoch
  | after _ ih => exact ih.next
  | before valid _ _ => exact valid

-- Years that begin in March

/-- The days of the years in front of one, each from March to February. -/
def yearStart (year : Int) : Int :=
  365 * year + year / 4 - year / 100 + year / 400

/-- The days of the months in front of one, counted from March. -/
def monthStart (month : Int) : Int :=
  (153 * month + 2) / 5

/-- A date's year from March to February, and its month counted from March. -/
def marchYear (date : Date) : Int :=
  if date.month ≤ 2 then date.year - 1 else date.year

def marchMonth (date : Date) : Int :=
  if date.month ≤ 2 then date.month + 9 else date.month - 3

/-- A day's place in its year, 0 for the first of March. -/
def dayOfYear (date : Date) : Int :=
  monthStart (marchMonth date) + date.day - 1

/-- The number of a day, 0 for 1970-01-01. -/
def dayNumber (date : Date) : Int :=
  yearStart (marchYear date) + dayOfYear date - 719468

theorem dayNumber_epoch : dayNumber .epoch = 0 := by
  decide

/-- How long a year from March to February is. -/
def yearLength (year : Int) : Int :=
  if isLeap (year + 1) then 366 else 365

theorem yearLength_le (year : Int) : yearLength year ≤ 366 := by
  unfold yearLength
  split <;> decide

theorem yearStart_succ (year : Int)
    : yearStart (year + 1) = yearStart year + yearLength year := by
  unfold yearStart yearLength isLeap
  split <;> rename_i leap <;> simp at leap <;> omega

theorem yearStart_le {first second : Int} (le : first ≤ second)
    : yearStart first ≤ yearStart second := by
  unfold yearStart
  omega

theorem monthStart_le {first second : Int} (le : first ≤ second)
    : monthStart first ≤ monthStart second := by
  unfold monthStart
  omega

theorem marchMonth_range (valid : date.Valid)
    : 0 ≤ marchMonth date ∧ marchMonth date ≤ 11 := by
  have first := valid.month_pos
  have last := valid.month_le
  unfold marchMonth
  split <;> omega

theorem dayOfYear_lt_iff (first : 1 ≤ date.month) (last : date.month ≤ 12)
    : date.day ≤ monthLength date.year date.month
      ↔ dayOfYear date < monthStart (marchMonth date + 1)
        ∧ dayOfYear date < yearLength (marchYear date) := by
  obtain ⟨year, month, day⟩ := date
  dsimp only at first last ⊢
  interval_cases month <;>
    simp [dayOfYear, monthStart, marchMonth, marchYear, monthLength, yearLength] <;>
    split <;> omega

theorem Date.Valid.dayOfYear_bounds (valid : date.Valid)
    : monthStart (marchMonth date) ≤ dayOfYear date
      ∧ dayOfYear date < monthStart (marchMonth date + 1)
      ∧ 0 ≤ dayOfYear date
      ∧ dayOfYear date < yearLength (marchYear date) := by
  have below := (dayOfYear_lt_iff valid.month_pos valid.month_le).mp valid.day_le
  have positive : (1 : Int) ≤ date.day := by exact_mod_cast valid.day_pos
  have first : 0 ≤ monthStart (marchMonth date) := by
    have := (marchMonth_range valid).1
    unfold monthStart
    omega
  have start : monthStart (marchMonth date) ≤ dayOfYear date := by
    unfold dayOfYear
    omega
  exact ⟨start, below.1, first.trans start, below.2⟩

/-- The day after has the next number. -/
theorem Date.Valid.dayNumber_next (valid : date.Valid)
    : dayNumber date.next = dayNumber date + 1 := by
  have first := valid.month_pos
  have last := valid.month_le
  have fits := valid.day_le
  have years := yearStart_succ (date.year - 1)
  obtain ⟨year, month, day⟩ := date
  dsimp only at first last fits years
  unfold Date.next
  dsimp only
  split
  · simp [dayNumber, dayOfYear, marchYear, marchMonth]
    omega
  · have full : day = monthLength year month := by omega
    subst full
    interval_cases month <;>
      simp [dayNumber, dayOfYear, marchYear, marchMonth, monthStart, monthLength, yearLength]
        at years ⊢ <;>
      (try split) <;> simp_all <;> omega

-- Numbers are of one day

theorem Date.ext_march {first second : Date} (valid : first.Valid) (also : second.Valid)
    (years : marchYear first = marchYear second) (months : marchMonth first = marchMonth second)
    (days : first.day = second.day)
    : first = second := by
  have pos := valid.month_pos
  have le := valid.month_le
  have pos' := also.month_pos
  have le' := also.month_le
  unfold marchYear at years
  unfold marchMonth at months
  ext
  · split at years <;> split at years <;> simp_all <;> omega
  · split at months <;> split at months <;> omega
  · exact days

theorem Date.Valid.dayNumber_inj {first second : Date} (valid : first.Valid) (also : second.Valid)
    (same : dayNumber first = dayNumber second)
    : first = second := by
  obtain ⟨start, stop, zero, inYear⟩ := valid.dayOfYear_bounds
  obtain ⟨start', stop', zero', inYear'⟩ := also.dayOfYear_bounds
  have size := yearStart_succ (marchYear first)
  have size' := yearStart_succ (marchYear second)
  have years : marchYear first = marchYear second := by
    unfold dayNumber at same
    by_contra apart
    rcases Int.lt_or_gt_of_ne apart with less | less
    · have := yearStart_le (show marchYear first + 1 ≤ marchYear second by omega)
      omega
    · have := yearStart_le (show marchYear second + 1 ≤ marchYear first by omega)
      omega
  have places : dayOfYear first = dayOfYear second := by
    unfold dayNumber at same
    rw [years] at same
    omega
  have months : marchMonth first = marchMonth second := by
    by_contra apart
    rcases Int.lt_or_gt_of_ne apart with less | less
    · have := monthStart_le (show marchMonth first + 1 ≤ marchMonth second by omega)
      omega
    · have := monthStart_le (show marchMonth second + 1 ≤ marchMonth first by omega)
      omega
  refine ext_march valid also years months ?_
  unfold dayOfYear at places
  rw [months] at places
  omega

theorem Distance.dayNumber_eq {days : Int} (distance : Distance days date)
    : dayNumber date = days := by
  induction distance with
  | epoch => exact dayNumber_epoch
  | after inner ih => rw [inner.valid.dayNumber_next, ih]
  | before valid _ ih =>
      rw [valid.dayNumber_next] at ih
      omega

theorem Distance.unique {days : Int} {first second : Date} (distance : Distance days first)
    (also : Distance days second)
    : first = second :=
  distance.valid.dayNumber_inj also.valid (distance.dayNumber_eq.trans also.dayNumber_eq.symm)

/-- Where every number has a date, that date is at its number's distance. -/
theorem distance_of_dates {dateOf : Int → Date} (valid : ∀ days, (dateOf days).Valid)
    (number : ∀ days, dayNumber (dateOf days) = days) (days : Int)
    : Distance days (dateOf days) := by
  have nextOf (days : Int) : (dateOf days).next = dateOf (days + 1) :=
    (valid days).next.dayNumber_inj (valid _)
      (by rw [(valid days).dayNumber_next, number, number])
  induction days using Int.induction_on with
  | zero =>
      have first : dateOf 0 = .epoch :=
        (valid 0).dayNumber_inj Date.valid_epoch ((number 0).trans dayNumber_epoch.symm)
      rw [first]
      exact .epoch
  | succ days ih =>
      rw [← nextOf]
      exact .after ih
  | pred days ih =>
      refine .before (valid _) ?_
      rwa [nextOf, Int.sub_add_cancel]

end Gfs.Lib.Calendar
