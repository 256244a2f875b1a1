import Gfs.Lib.Calendar
import Gfs.Types.Basic
import Gfs.Types.Text

/-! HTTP dates (`gfs-service/src/service/webdav.rs`): the day arithmetic of `civil_from_days`
against the proleptic Gregorian calendar.
-/

namespace Gfs.Service.Dates

open Gfs.Types
open Gfs.Lib.Calendar

-- The source

/-- The result of an `i64` operation, if it has one. -/
def i64 (n : Int) : Option Int :=
  if -2 ^ 63 ≤ n ∧ n < 2 ^ 63 then some n else none

/-- `as u32` -/
def u32 (n : Int) : Nat :=
  (n % 2 ^ 32).toNat

/-- Proleptic-Gregorian civil date from days since 1970-01-01. -/
def civilFromDays (days : Int) : Option (Int × Nat × Nat) := do
  let z ← i64 (days + 719468)
  let era := z / 146097
  let dayOfEra := z % 146097
  let yearOfEra ← i64 (dayOfEra - dayOfEra.tdiv 1460)
  let yearOfEra ← i64 (yearOfEra + dayOfEra.tdiv 36524)
  let yearOfEra ← i64 (yearOfEra - dayOfEra.tdiv 146096)
  let yearOfEra := yearOfEra.tdiv 365
  let eraYears ← i64 (era * 400)
  let year ← i64 (yearOfEra + eraYears)
  let yearDays ← i64 (365 * yearOfEra)
  let yearDays ← i64 (yearDays + yearOfEra.tdiv 4)
  let yearDays ← i64 (yearDays - yearOfEra.tdiv 100)
  let dayOfYear ← i64 (dayOfEra - yearDays)
  let fiveDays ← i64 (5 * dayOfYear)
  let fiveDays ← i64 (fiveDays + 2)
  let mp := fiveDays.tdiv 153
  let monthDays ← i64 (153 * mp)
  let monthDays ← i64 (monthDays + 2)
  let day ← i64 (dayOfYear - monthDays.tdiv 5)
  let day ← i64 (day + 1)
  let month ← if mp < 10 then i64 (mp + 3) else i64 (mp - 9)
  let year ← if u32 month ≤ 2 then i64 (year + 1) else some year
  return (year, u32 month, u32 day)

def weekdays : List Text :=
  ["Sun".toList, "Mon".toList, "Tue".toList, "Wed".toList, "Thu".toList, "Fri".toList,
    "Sat".toList]

def months : List Text :=
  ["Jan".toList, "Feb".toList, "Mar".toList, "Apr".toList, "May".toList, "Jun".toList,
    "Jul".toList, "Aug".toList, "Sep".toList, "Oct".toList, "Nov".toList, "Dec".toList]

/-- A number with zeros in front of its digits, behind its sign. -/
def padded (width : Nat) (n : Int) : Text :=
  let sign := if n < 0 then ['-'] else []
  let digits := Nat.toDigits 10 n.natAbs
  sign ++ List.replicate (width - (sign.length + digits.length)) '0' ++ digits

/-- The index of a day's name; 1970-01-01 was a Thursday. -/
def weekdayOf (days : Int) : Option Nat :=
  (i64 (days + 4)).map fun shifted => (shifted % 7).toNat

/-- A timestamp as an RFC 1123 HTTP date; none where the arithmetic or an index fails. -/
def httpDate (time : Timestamp) : Option Text := do
  let days := time.secs / 86400
  let secondOfDay := time.secs % 86400
  let (year, month, day) ← civilFromDays days
  let weekday ← weekdayOf days
  let weekdayName ← weekdays[weekday]?
  let monthName ← if 1 ≤ month then months[month - 1]? else none
  return weekdayName ++ ", ".toList ++ padded 2 day ++ " ".toList ++ monthName ++ " ".toList
    ++ padded 4 year ++ " ".toList ++ padded 2 (secondOfDay.tdiv 3600) ++ ":".toList
    ++ padded 2 ((secondOfDay.tmod 3600).tdiv 60) ++ ":".toList
    ++ padded 2 (secondOfDay.tmod 60) ++ " GMT".toList

-- The year of an era

/-- The arithmetic of `civil_from_days` without its bounds. -/
def yearOfEra (dayOfEra : Int) : Int :=
  (dayOfEra - dayOfEra / 1460 + dayOfEra / 36524 - dayOfEra / 146096) / 365

/-- An era of 400 years is four centuries, each of them cycles of four years and years. -/
theorem exists_cycles {dayOfEra : Int} (first : 0 ≤ dayOfEra) (last : dayOfEra < 146097)
    : ∃ century cycle year place : Int,
        dayOfEra = 36524 * century + 1461 * cycle + 365 * year + place
        ∧ 0 ≤ century ∧ century ≤ 3 ∧ 0 ≤ cycle ∧ cycle ≤ 24 ∧ 0 ≤ year ∧ year ≤ 3
        ∧ 0 ≤ place ∧ place ≤ 365
        ∧ (place = 365 → year = 3 ∧ (cycle < 24 ∨ century = 3)) := by
  have centuries : ∃ century rest : Int, dayOfEra = 36524 * century + rest ∧ 0 ≤ century
      ∧ century ≤ 3 ∧ 0 ≤ rest ∧ rest ≤ 36524 ∧ (rest = 36524 → century = 3) := by
    refine ⟨min (dayOfEra / 36524) 3, dayOfEra - 36524 * min (dayOfEra / 36524) 3, ?_⟩
    omega
  obtain ⟨century, rest, split, low, high, zero, small, full⟩ := centuries
  have years : ∃ cycle left : Int, rest = 1461 * cycle + left ∧ 0 ≤ cycle ∧ cycle ≤ 24
      ∧ 0 ≤ left ∧ left ≤ 1460 :=
    ⟨rest / 1461, rest % 1461, by omega, by omega, by omega, by omega, by omega⟩
  obtain ⟨cycle, left, splitRest, lowCycle, highCycle, zeroLeft, smallLeft⟩ := years
  have places : ∃ year place : Int, left = 365 * year + place ∧ 0 ≤ year ∧ year ≤ 3 ∧ 0 ≤ place
      ∧ place ≤ 365 ∧ (place = 365 → year = 3) := by
    refine ⟨min (left / 365) 3, left - 365 * min (left / 365) 3, ?_⟩
    omega
  obtain ⟨year, place, splitLeft, lowYear, highYear, zeroPlace, smallPlace, leap⟩ := places
  refine ⟨century, cycle, year, place, by omega, low, high, lowCycle, highCycle, lowYear, highYear,
    zeroPlace, smallPlace, fun last => ⟨leap last, ?_⟩⟩
  have := leap last
  omega

/-- The roundings of the three divisions cancel. -/
theorem yearOfEra_cycles {century cycle year place : Int} (low : 0 ≤ century) (high : century ≤ 3)
    (lowCycle : 0 ≤ cycle) (highCycle : cycle ≤ 24) (lowYear : 0 ≤ year) (highYear : year ≤ 3)
    (zero : 0 ≤ place) (small : place ≤ 365)
    (leap : place = 365 → year = 3 ∧ (cycle < 24 ∨ century = 3))
    : yearOfEra (36524 * century + 1461 * cycle + 365 * year + place)
      = 100 * century + 4 * cycle + year := by
  generalize day : 36524 * century + 1461 * cycle + 365 * year + place = dayOfEra
  have inCentury : 0 ≤ 1461 * cycle + 365 * year + place
      ∧ (1461 * cycle + 365 * year + place < 36524
        ∨ 1461 * cycle + 365 * year + place = 36524 ∧ century = 3) := by
    omega
  -- The last day of an era counts one century and one era more than its year has.
  have centuries : dayOfEra / 36524 - dayOfEra / 146096 = century := by
    obtain ⟨rest, within | ⟨full, rfl⟩⟩ := inCentury
    · have hundreds : dayOfEra / 36524 = century := by
        rw [Int.ediv_eq_iff_of_pos (by decide)]
        omega
      omega
    · omega
  have cycles : dayOfEra / 1460
      = 25 * century + cycle + (24 * century + cycle + 365 * year + place) / 1460 := by
    omega
  unfold yearOfEra
  generalize rounded : (24 * century + cycle + 365 * year + place) / 1460 = extra at cycles
  have inYear : 0 ≤ place - extra ∧ place - extra ≤ 364 := by
    omega
  omega

theorem yearOfEra_spec {dayOfEra : Int} (first : 0 ≤ dayOfEra) (last : dayOfEra < 146097)
    : 0 ≤ yearOfEra dayOfEra ∧ yearOfEra dayOfEra ≤ 399
      ∧ yearStart (yearOfEra dayOfEra) ≤ dayOfEra
      ∧ dayOfEra < yearStart (yearOfEra dayOfEra + 1) := by
  obtain ⟨century, cycle, year, place, rfl, low, high, lowCycle, highCycle, lowYear, highYear,
    zero, small, leap⟩ := exists_cycles first last
  rw [yearOfEra_cycles low high lowCycle highCycle lowYear highYear zero small leap]
  unfold yearStart
  have fours : (100 * century + 4 * cycle + year) / 4 = 25 * century + cycle := by omega
  have hundreds : (100 * century + 4 * cycle + year) / 100 = century := by omega
  refine ⟨by omega, by omega, by omega, ?_⟩
  -- The year ends where its cycle, its century or its era goes on.
  by_cases early : year < 3
  · have foursNext : (100 * century + 4 * cycle + year + 1) / 4 = 25 * century + cycle := by omega
    have hundredsNext : (100 * century + 4 * cycle + year + 1) / 100 = century := by omega
    omega
  · obtain rfl : year = 3 := by omega
    by_cases inCentury : cycle < 24
    · have foursNext : (100 * century + 4 * cycle + 3 + 1) / 4 = 25 * century + cycle + 1 := by
        omega
      have hundredsNext : (100 * century + 4 * cycle + 3 + 1) / 100 = century := by omega
      omega
    · obtain rfl : cycle = 24 := by omega
      omega

-- The date of a day

/-- The date that a year from March to February has at a place. -/
def dateAt (year place : Int) : Date :=
  let mp := (5 * place + 2) / 153
  let month := (if mp < 10 then mp + 3 else mp - 9).toNat
  ⟨if month ≤ 2 then year + 1 else year, month, (place - (153 * mp + 2) / 5 + 1).toNat⟩

/-- The linear approximation is right for every place of a year. -/
theorem dateAt_spec {year place : Int} (first : 0 ≤ place) (last : place < yearLength year)
    : (dateAt year place).Valid
      ∧ marchYear (dateAt year place) = year
      ∧ dayOfYear (dateAt year place) = place := by
  have small : place ≤ 365 := by
    have := yearLength_le year
    omega
  have mpLow : 0 ≤ (5 * place + 2) / 153 := by omega
  have mpHigh : (5 * place + 2) / 153 ≤ 11 := by omega
  have start : (153 * ((5 * place + 2) / 153) + 2) / 5 ≤ place := by omega
  have stop : place < (153 * ((5 * place + 2) / 153 + 1) + 2) / 5 := by omega
  generalize mpEq : (5 * place + 2) / 153 = mp at mpLow mpHigh start stop
  have years : marchYear (dateAt year place) = year := by
    unfold marchYear dateAt
    rw [mpEq]
    dsimp only
    split <;> simp_all
  have months : marchMonth (dateAt year place) = mp := by
    unfold marchMonth dateAt
    rw [mpEq]
    dsimp only
    split <;> split at * <;> omega
  have days : ((dateAt year place).day : Int) = place - monthStart mp + 1 := by
    unfold dateAt monthStart
    rw [mpEq]
    dsimp only
    omega
  have places : dayOfYear (dateAt year place) = place := by
    unfold dayOfYear
    rw [months, days]
    omega
  have monthRange : 1 ≤ (dateAt year place).month ∧ (dateAt year place).month ≤ 12 := by
    unfold dateAt
    rw [mpEq]
    dsimp only
    split <;> omega
  refine ⟨⟨monthRange.1, monthRange.2, ?_, ?_⟩, years, places⟩
  · unfold monthStart at days
    omega
  · rw [dayOfYear_lt_iff monthRange.1 monthRange.2, places, months, years]
    exact ⟨stop, last⟩

/-- The date of a day, eras of 400 years from 0000-03-01. -/
def dateOf (days : Int) : Date :=
  let dayOfEra := (days + 719468) % 146097
  let year := yearOfEra dayOfEra
  dateAt (year + (days + 719468) / 146097 * 400) (dayOfEra - (365 * year + year / 4 - year / 100))

theorem dateOf_spec (days : Int) : (dateOf days).Valid ∧ dayNumber (dateOf days) = days := by
  have first : 0 ≤ (days + 719468) % 146097 := by omega
  have last : (days + 719468) % 146097 < 146097 := by omega
  have whole : days = 146097 * ((days + 719468) / 146097) + (days + 719468) % 146097 - 719468 := by
    omega
  unfold dateOf
  generalize (days + 719468) % 146097 = dayOfEra at first last whole
  generalize (days + 719468) / 146097 = era at whole
  obtain ⟨low, high, start, stop⟩ := yearOfEra_spec first last
  dsimp only
  generalize yearOfEra dayOfEra = year at low high start stop
  -- An era begins as the calendar does.
  have eras (year : Int) : yearStart (year + era * 400) = yearStart year + 146097 * era := by
    unfold yearStart
    omega
  have size : yearLength (year + era * 400) = yearStart (year + 1) - yearStart year := by
    have here := yearStart_succ (year + era * 400)
    have shifted := eras (year + 1)
    rw [show year + 1 + era * 400 = year + era * 400 + 1 by omega] at shifted
    have := eras year
    omega
  have inEra : yearStart year = 365 * year + year / 4 - year / 100 := by
    unfold yearStart
    omega
  rw [← inEra]
  have placeLow : 0 ≤ dayOfEra - yearStart year := by omega
  have placeHigh : dayOfEra - yearStart year < yearLength (year + era * 400) := by omega
  obtain ⟨valid, years, places⟩ := dateAt_spec placeLow placeHigh
  refine ⟨valid, ?_⟩
  unfold dayNumber
  rw [years, places, eras]
  omega

theorem distance_dateOf (days : Int) : Distance days (dateOf days) :=
  distance_of_dates (fun days => (dateOf_spec days).1) (fun days => (dateOf_spec days).2) days

-- The source computes it

theorem i64_some {n : Int} (low : -2 ^ 63 ≤ n) (high : n < 2 ^ 63) : i64 n = some n :=
  if_pos ⟨low, high⟩

theorem i64_bind {α : Type} {n : Int} {use : Int → Option α} (low : -2 ^ 63 ≤ n) (high : n < 2 ^ 63)
    : (i64 n).bind use = use n := by
  rw [i64_some low high, Option.bind_some]

theorem u32_eq {n : Int} (low : 0 ≤ n) (high : n < 2 ^ 32) : u32 n = n.toNat := by
  unfold u32
  rw [Int.emod_eq_of_lt low high]

/-- Days that leave room for the shift to 0000-03-01. -/
theorem civilFromDays_eq {days : Int} (low : -2 ^ 60 ≤ days) (high : days < 2 ^ 60)
    : civilFromDays days = some ((dateOf days).year, (dateOf days).month, (dateOf days).day) := by
  have first : 0 ≤ (days + 719468) % 146097 := by omega
  have last : (days + 719468) % 146097 < 146097 := by omega
  have eraLow : -2 ^ 60 ≤ (days + 719468) / 146097 * 400 := by omega
  have eraHigh : (days + 719468) / 146097 * 400 < 2 ^ 60 := by omega
  obtain ⟨yearLow, yearHigh, start, stop⟩ := yearOfEra_spec first last
  unfold civilFromDays dateOf dateAt
  dsimp only [Option.bind_eq_bind]
  rw [i64_bind (by omega) (by omega)]
  generalize (days + 719468) % 146097 = dayOfEra at first last yearLow yearHigh start stop ⊢
  generalize (days + 719468) / 146097 * 400 = eraYears at eraLow eraHigh ⊢
  have yearIs : (dayOfEra - dayOfEra / 1460 + dayOfEra / 36524 - dayOfEra / 146096) / 365
      = yearOfEra dayOfEra := rfl
  have sumLow : 0 ≤ dayOfEra - dayOfEra / 1460 + dayOfEra / 36524 - dayOfEra / 146096 := by omega
  rw [Int.tdiv_eq_ediv_of_nonneg first, i64_bind (by omega) (by omega),
    Int.tdiv_eq_ediv_of_nonneg first, i64_bind (by omega) (by omega),
    Int.tdiv_eq_ediv_of_nonneg first, i64_bind (by omega) (by omega),
    i64_bind (by omega) (by omega), Int.tdiv_eq_ediv_of_nonneg sumLow, yearIs]
  generalize yearOfEra dayOfEra = year at yearLow yearHigh start stop ⊢
  clear yearIs sumLow
  have inEra : yearStart year = 365 * year + year / 4 - year / 100 := by
    unfold yearStart
    omega
  have size := yearLength_le year
  rw [yearStart_succ] at stop
  rw [i64_bind (by omega) (by omega), i64_bind (by omega) (by omega),
    Int.tdiv_eq_ediv_of_nonneg yearLow, i64_bind (by omega) (by omega),
    Int.tdiv_eq_ediv_of_nonneg yearLow, i64_bind (by omega) (by omega),
    i64_bind (by omega) (by omega)]
  have placeLow : 0 ≤ dayOfEra - (365 * year + year / 4 - year / 100) := by omega
  have placeHigh : dayOfEra - (365 * year + year / 4 - year / 100) ≤ 365 := by omega
  generalize dayOfEra - (365 * year + year / 4 - year / 100) = place at placeLow placeHigh ⊢
  clear inEra size start stop first last
  have fiveLow : 0 ≤ 5 * place + 2 := by omega
  have mpLow : 0 ≤ (5 * place + 2) / 153 := by omega
  have mpHigh : (5 * place + 2) / 153 ≤ 11 := by omega
  rw [i64_bind (by omega) (by omega), i64_bind (by omega) (by omega),
    Int.tdiv_eq_ediv_of_nonneg fiveLow]
  have dayLow : (153 * ((5 * place + 2) / 153) + 2) / 5 ≤ place := by omega
  generalize (5 * place + 2) / 153 = mp at mpLow mpHigh dayLow ⊢
  have monthLow : 0 ≤ 153 * mp + 2 := by omega
  rw [i64_bind (by omega) (by omega), i64_bind (by omega) (by omega),
    Int.tdiv_eq_ediv_of_nonneg monthLow, i64_bind (by omega) (by omega),
    i64_bind (by omega) (by omega), u32_eq (by omega) (by omega)]
  by_cases early : mp < 10
  · rw [if_pos early, if_pos early, i64_bind (by omega) (by omega), u32_eq (by omega) (by omega)]
    split
    · rw [i64_bind (by omega) (by omega)]
      rfl
    · rfl
  · rw [if_neg early, if_neg early, i64_bind (by omega) (by omega), u32_eq (by omega) (by omega)]
    split
    · rw [i64_bind (by omega) (by omega)]
      rfl
    · rfl

theorem weekdayOf_eq {days : Int} (low : -2 ^ 60 ≤ days) (high : days < 2 ^ 60)
    : weekdayOf days = some ((days + 4) % 7).toNat := by
  unfold weekdayOf
  rw [i64_some (by omega) (by omega), Option.map_some]

theorem weekdayOf_succ {days : Int} (low : -2 ^ 60 ≤ days) (high : days + 1 < 2 ^ 60)
    : ∃ weekday, weekdayOf days = some weekday ∧ weekday < 7
        ∧ weekdayOf (days + 1) = some ((weekday + 1) % 7) := by
  rw [weekdayOf_eq low (by omega), weekdayOf_eq (by omega) high]
  refine ⟨_, rfl, by omega, ?_⟩
  congr 1
  omega

theorem httpDate_isSome {time : Timestamp} (low : -2 ^ 63 ≤ time.secs) (high : time.secs < 2 ^ 63)
    : (httpDate time).isSome := by
  have daysLow : -2 ^ 60 ≤ time.secs / 86400 := by omega
  have daysHigh : time.secs / 86400 < 2 ^ 60 := by omega
  have valid := (dateOf_spec (time.secs / 86400)).1
  have weekday : ((time.secs / 86400 + 4) % 7).toNat < weekdays.length := by
    simp only [weekdays, List.length_cons, List.length_nil]
    omega
  have month : (dateOf (time.secs / 86400)).month - 1 < months.length := by
    have := valid.month_le
    simp only [months, List.length_cons, List.length_nil]
    omega
  unfold httpDate
  simp only [civilFromDays_eq daysLow daysHigh, weekdayOf_eq daysLow daysHigh,
    List.getElem?_eq_getElem weekday, List.getElem?_eq_getElem month, valid.month_pos, if_true,
    Option.bind_eq_bind, Option.bind_some, Option.pure_def, Option.isSome_some]

/-- Every seconds value has its day's date, the only one at the day's distance; the day after has
the date after, and the next name of a week that 1970-01-01 is the Thursday of.
-/
theorem httpDate_right (secs : Int64) (nanos : Nat)
    : (httpDate ⟨secs.toInt, nanos⟩).isSome
      ∧ (∃ date : Date,
          civilFromDays (secs.toInt / 86400) = some (date.year, date.month, date.day)
          ∧ (∀ other : Date, other.Valid ∧ Distance (secs.toInt / 86400) other ↔ other = date)
          ∧ civilFromDays (secs.toInt / 86400 + 1)
            = some (date.next.year, date.next.month, date.next.day))
      ∧ (∃ weekday < 7,
          weekdayOf (secs.toInt / 86400) = some weekday
          ∧ weekdayOf (secs.toInt / 86400 + 1) = some ((weekday + 1) % 7))
      ∧ weekdayOf 0 = some 4
      ∧ weekdays[4]? = some "Thu".toList := by
  have low := secs.le_toInt
  have high := secs.toInt_lt
  have daysLow : -2 ^ 60 ≤ secs.toInt / 86400 := by omega
  have daysHigh : secs.toInt / 86400 + 1 < 2 ^ 60 := by omega
  have here := distance_dateOf (secs.toInt / 86400)
  have next : dateOf (secs.toInt / 86400 + 1) = (dateOf (secs.toInt / 86400)).next :=
    (distance_dateOf _).unique here.after
  refine ⟨httpDate_isSome low high, ⟨dateOf (secs.toInt / 86400), ?_, fun other => ?_, ?_⟩, ?_, rfl,
    rfl⟩
  · exact civilFromDays_eq daysLow (by omega)
  · constructor
    · rintro ⟨_, distance⟩
      exact distance.unique here
    · rintro rfl
      exact ⟨here.valid, here⟩
  · rw [civilFromDays_eq (by omega) daysHigh, next]
  · obtain ⟨weekday, named, small, after⟩ := weekdayOf_succ daysLow daysHigh
    exact ⟨weekday, small, named, after⟩

end Gfs.Service.Dates
