import Mathlib.Tactic.Common
import Mathlib.Tactic.IntervalCases

/-! RtlTimeToTimeFields and RtlTimeFieldsToTime (dlls/ntdll/time.c). A time is a count of
100 ns ticks since 1601-01-01 00:00; TIME_FIELDS splits it into calendar fields. Both
directions use closed-form formulas over a year that starts in March, with C's truncating
division; the fields are CSHORT values. -/

namespace Wine.Ntdll.Time

set_option autoImplicit false

def ticksPerSec : Int := 10000000
def ticksPerMsec : Int := 10000
def secsPerDay : Int := 86400
def secsPerHour : Int := 3600
def secsPerMin : Int := 60
def minsPerHour : Int := 60
def hoursPerDay : Int := 24
def epochWeekday : Int := 1
def daysPerWeek : Int := 7
def daysPerQuadricentennium : Int := 365 * 400 + 97
def daysPerNormalQuadrennium : Int := 365 * 4 + 1

/-- TIME_FIELDS; every field is a CSHORT. -/
structure TimeFields where
  year : Int16
  month : Int16
  day : Int16
  hour : Int16
  minute : Int16
  second : Int16
  milliseconds : Int16
  weekday : Int16
  deriving DecidableEq, Repr

def monthLengths : List (List Int) :=
  [[31, 28, 31, 30, 31, 30, 31, 31, 30, 31, 30, 31],
   [31, 29, 31, 30, 31, 30, 31, 31, 30, 31, 30, 31]]

/-- MonthLengths[row][month - 1]. -/
def monthLength (row : Bool) (month : Int) : Int :=
  (monthLengths.getD row.toNat []).getD (month - 1).toNat 0

def isLeapYear (year : Int) : Bool :=
  year.tmod 4 == 0 && (year.tmod 100 != 0 || year.tmod 400 == 0)

/-- The year, month and day block of RtlTimeToTimeFields, from a count of days since
1601-01-01. -/
def daysToDate (days : Int) : Int × Int × Int :=
  let cleaps := (3 * (4 * days + 1227).tdiv daysPerQuadricentennium + 3).tdiv 4
  let days := days + 28188 + cleaps
  let years := (20 * days - 2442).tdiv (5 * daysPerNormalQuadrennium)
  let yearday := days - (years * daysPerNormalQuadrennium).tdiv 4
  let months := (64 * yearday).tdiv 1959
  if months < 14 then (years + 1524, months - 1, yearday - (1959 * months).tdiv 64)
  else (years + 1525, months - 13, yearday - (1959 * months).tdiv 64)

def rtlTimeToTimeFields (time : Int) : TimeFields :=
  let milliseconds := (time.tmod ticksPerSec).tdiv ticksPerMsec
  let time := time.tdiv ticksPerSec
  let days := time.tdiv secsPerDay
  let secondsInDay := time.tmod secsPerDay
  let date := daysToDate days
  { year := Int16.ofInt date.1
    month := Int16.ofInt date.2.1
    day := Int16.ofInt date.2.2
    hour := Int16.ofInt (secondsInDay.tdiv secsPerHour)
    minute := Int16.ofInt ((secondsInDay.tmod secsPerHour).tdiv secsPerMin)
    second := Int16.ofInt ((secondsInDay.tmod secsPerHour).tmod secsPerMin)
    milliseconds := Int16.ofInt milliseconds
    weekday := Int16.ofInt ((epochWeekday + days).tmod daysPerWeek) }

/-- The test that makes RtlTimeFieldsToTime return FALSE, in the code's order. -/
def fieldsRejected (tf : TimeFields) : Bool :=
  tf.milliseconds.toInt < 0 || tf.milliseconds.toInt > 999 ||
  tf.second.toInt < 0 || tf.second.toInt > 59 ||
  tf.minute.toInt < 0 || tf.minute.toInt > 59 ||
  tf.hour.toInt < 0 || tf.hour.toInt > 23 ||
  tf.month.toInt < 1 || tf.month.toInt > 12 ||
  tf.day.toInt < 1 ||
  tf.day.toInt > monthLength (tf.month.toInt == 2 || isLeapYear tf.year.toInt) tf.month.toInt ||
  tf.year.toInt < 1601

/-- The day count of RtlTimeFieldsToTime: January and February count as months 14 and 15
of the year before. -/
def dayCount (year month day : Int) : Int :=
  let (month, year) := if month < 3 then (month + 13, year - 1) else (month + 1, year)
  let cleaps := (3 * year.tdiv 100 + 3).tdiv 4
  (36525 * year).tdiv 100 - cleaps + (1959 * month).tdiv 64 + day - 584817

/-- The tick count of a day count and a time of day, multiplied out in `LONGLONG` as
RtlTimeFieldsToTime does it; a product past the type's range wraps as the compiled code's does. -/
def ticksOf (day hour minute second milliseconds : Int) : Int :=
  Int.bmod (((((day * hoursPerDay + hour) * minsPerHour + minute) * secsPerMin + second) * 1000 +
    milliseconds) * ticksPerMsec) (2 ^ 64)

/-- RtlTimeFieldsToTime; none is the FALSE return, with the output left alone. -/
def rtlTimeFieldsToTime (tf : TimeFields) : Option Int :=
  if fieldsRejected tf then none
  else some (ticksOf (dayCount tf.year.toInt tf.month.toInt tf.day.toInt) tf.hour.toInt
    tf.minute.toInt tf.second.toInt tf.milliseconds.toInt)

/-! The proleptic Gregorian calendar, as the specification the conversions are held to. -/

def Leap (year : Int) : Prop := 4 ∣ year ∧ (¬ 100 ∣ year ∨ 400 ∣ year)

instance (year : Int) : Decidable (Leap year) := inferInstanceAs (Decidable (_ ∧ _))

/-- The length of a month of the Gregorian calendar. -/
def daysInMonth (year month : Int) : Int :=
  if month = 2 then (if Leap year then 29 else 28)
  else if month = 4 ∨ month = 6 ∨ month = 9 ∨ month = 11 then 30 else 31

/-- A date of the calendar in or after 1601. -/
structure DateReal (year month day : Int) : Prop where
  year_ge : 1601 ≤ year
  month_ge : 1 ≤ month
  month_le : month ≤ 12
  day_ge : 1 ≤ day
  day_le : day ≤ daysInMonth year month

/-- The time of day is in range. -/
structure ClockValid (tf : TimeFields) : Prop where
  hour : 0 ≤ tf.hour.toInt ∧ tf.hour.toInt ≤ 23
  minute : 0 ≤ tf.minute.toInt ∧ tf.minute.toInt ≤ 59
  second : 0 ≤ tf.second.toInt ∧ tf.second.toInt ≤ 59
  milliseconds : 0 ≤ tf.milliseconds.toInt ∧ tf.milliseconds.toInt ≤ 999

/-- The fields name a real instant in or after 1601. -/
structure TimeFields.IsReal (tf : TimeFields) : Prop where
  date : DateReal tf.year.toInt tf.month.toInt tf.day.toInt
  clock : ClockValid tf

theorem isLeapYear_iff (year : Int) : isLeapYear year = true ↔ Leap year := by
  simp only [isLeapYear, Leap, Bool.and_eq_true, Bool.or_eq_true, beq_iff_eq, bne_iff_ne,
    ne_eq, ← Int.dvd_iff_tmod_eq_zero]

/-- The fields RtlTimeFieldsToTime accepts. -/
structure Accepted (tf : TimeFields) : Prop where
  clock : ClockValid tf
  month_ge : 1 ≤ tf.month.toInt
  month_le : tf.month.toInt ≤ 12
  day_ge : 1 ≤ tf.day.toInt
  day_le : tf.day.toInt ≤
    monthLength (tf.month.toInt == 2 || isLeapYear tf.year.toInt) tf.month.toInt
  year_ge : 1601 ≤ tf.year.toInt

theorem fieldsRejected_eq_false_iff (tf : TimeFields) : fieldsRejected tf = false ↔ Accepted tf := by
  simp only [fieldsRejected, Bool.or_eq_false_iff, decide_eq_false_iff_not, Int.not_lt]
  constructor
  · rintro ⟨⟨⟨⟨⟨⟨⟨⟨⟨⟨⟨⟨h1, h2⟩, h3⟩, h4⟩, h5⟩, h6⟩, h7⟩, h8⟩, h9⟩, h10⟩, h11⟩, h12⟩, h13⟩
    exact ⟨⟨⟨h7, h8⟩, ⟨h5, h6⟩, ⟨h3, h4⟩, ⟨h1, h2⟩⟩, h9, h10, h11, h12, h13⟩
  · rintro ⟨⟨⟨h7, h8⟩, ⟨h5, h6⟩, ⟨h3, h4⟩, ⟨h1, h2⟩⟩, h9, h10, h11, h12, h13⟩
    exact ⟨⟨⟨⟨⟨⟨⟨⟨⟨⟨⟨⟨h1, h2⟩, h3⟩, h4⟩, h5⟩, h6⟩, h7⟩, h8⟩, h9⟩, h10⟩, h11⟩, h12⟩, h13⟩

theorem rtlTimeFieldsToTime_of_accepted {tf : TimeFields} (h : Accepted tf) :
    rtlTimeFieldsToTime tf = some (ticksOf (dayCount tf.year.toInt tf.month.toInt tf.day.toInt)
      tf.hour.toInt tf.minute.toInt tf.second.toInt tf.milliseconds.toInt) := by
  rw [rtlTimeFieldsToTime, (fieldsRejected_eq_false_iff tf).2 h, if_neg Bool.false_ne_true]

theorem monthLength_row {year month : Int} (h1 : 1 ≤ month) (h12 : month ≤ 12) :
    monthLength (month == 2 || isLeapYear year) month =
      if month = 2 then 29 else daysInMonth year month := by
  obtain ⟨k, rfl⟩ : ∃ k : Nat, month = k + 1 := ⟨(month - 1).toNat, by omega⟩
  have hk : k < 12 := by omega
  interval_cases k <;> cases isLeapYear year <;> simp [monthLength, monthLengths, daysInMonth]

/-! Where the year is positive, every C division of the day count is a floor division. -/

theorem dayCount_of_lt_three {year month day : Int} (hyear : 1 ≤ year) (hmonth : 0 ≤ month)
    (h : month < 3) :
    dayCount year month day = 36525 * (year - 1) / 100 - (3 * ((year - 1) / 100) + 3) / 4 +
      1959 * (month + 13) / 64 + day - 584817 := by
  have e1 : (year - 1).tdiv 100 = (year - 1) / 100 := Int.tdiv_eq_ediv_of_nonneg (by omega)
  have e2 : (3 * ((year - 1) / 100) + 3).tdiv 4 = (3 * ((year - 1) / 100) + 3) / 4 :=
    Int.tdiv_eq_ediv_of_nonneg (by omega)
  have e3 : (36525 * (year - 1)).tdiv 100 = 36525 * (year - 1) / 100 :=
    Int.tdiv_eq_ediv_of_nonneg (by omega)
  have e4 : (1959 * (month + 13)).tdiv 64 = 1959 * (month + 13) / 64 :=
    Int.tdiv_eq_ediv_of_nonneg (by omega)
  simp only [dayCount, h, if_true, e1, e2, e3, e4]

theorem dayCount_of_three_le {year month day : Int} (hyear : 0 ≤ year) (h : 3 ≤ month) :
    dayCount year month day = 36525 * year / 100 - (3 * (year / 100) + 3) / 4 +
      1959 * (month + 1) / 64 + day - 584817 := by
  have e1 : year.tdiv 100 = year / 100 := Int.tdiv_eq_ediv_of_nonneg hyear
  have e2 : (3 * (year / 100) + 3).tdiv 4 = (3 * (year / 100) + 3) / 4 :=
    Int.tdiv_eq_ediv_of_nonneg (by omega)
  have e3 : (36525 * year).tdiv 100 = 36525 * year / 100 := Int.tdiv_eq_ediv_of_nonneg (by omega)
  have e4 : (1959 * (month + 1)).tdiv 64 = 1959 * (month + 1) / 64 :=
    Int.tdiv_eq_ediv_of_nonneg (by omega)
  simp only [dayCount, show ¬ month < 3 by omega, if_false, e1, e2, e3, e4]

theorem julian_step (year : Int) :
    36525 * year / 100 - 36525 * (year - 1) / 100 = if 4 ∣ year then 366 else 365 := by
  obtain ⟨k, r, hr0, hr4, rfl⟩ : ∃ k r, 0 ≤ r ∧ r < 4 ∧ year = 4 * k + r :=
    ⟨year / 4, year % 4, by omega, by omega, by omega⟩
  interval_cases r <;> split_ifs <;> omega

theorem cleaps_step (year : Int) :
    (3 * (year / 100) + 3) / 4 - (3 * ((year - 1) / 100) + 3) / 4 =
      if 100 ∣ year ∧ ¬ 400 ∣ year then 1 else 0 := by
  obtain ⟨j, e, he0, he100, rfl⟩ : ∃ j e, 0 ≤ e ∧ e < 100 ∧ year = 100 * j + e :=
    ⟨year / 100, year % 100, by omega, by omega, by omega⟩
  have h1 : (100 * j + e) / 100 = j := by omega
  rw [h1]
  rcases Int.lt_or_le 0 e with he | he
  · have h2 : (100 * j + e - 1) / 100 = j := by omega
    rw [h2, if_neg (by omega)]
    omega
  · have h2 : (100 * j + e - 1) / 100 = j - 1 := by omega
    obtain ⟨i, s, hs0, hs4, rfl⟩ : ∃ i s, 0 ≤ s ∧ s < 4 ∧ j = 4 * i + s :=
      ⟨j / 4, j % 4, by omega, by omega, by omega⟩
    rw [h2]
    interval_cases s <;> split_ifs <;> omega

theorem dayCount_march_step {year : Int} (hyear : 1601 ≤ year) (day : Int) :
    dayCount year 3 day - dayCount (year - 1) 3 day = if Leap year then 366 else 365 := by
  rw [dayCount_of_three_le (by omega) le_rfl, dayCount_of_three_le (by omega) le_rfl]
  have hj := julian_step year
  have hc := cleaps_step year
  unfold Leap
  split_ifs at hj hc ⊢ <;> omega

theorem dayCount_feb {year : Int} (hyear : 1601 ≤ year) (day : Int) :
    dayCount year 2 day = dayCount (year - 1) 3 1 + 336 + day := by
  rw [dayCount_of_lt_three (by omega) (by omega) (by omega), dayCount_of_three_le (by omega) le_rfl]
  omega

theorem dayCount_feb29 {year : Int} (hyear : 1601 ≤ year) (hleap : ¬ Leap year) :
    dayCount year 2 29 = dayCount year 3 1 := by
  have hstep := dayCount_march_step hyear 1
  rw [if_neg hleap] at hstep
  rw [dayCount_feb hyear]
  omega

theorem daysInMonth_le_monthLength {year month : Int} (h1 : 1 ≤ month) (h12 : month ≤ 12) :
    daysInMonth year month ≤ monthLength (month == 2 || isLeapYear year) month := by
  rw [monthLength_row h1 h12]
  split_ifs with h
  · subst h
    simp only [daysInMonth, if_true]
    split_ifs <;> omega
  · exact le_rfl

theorem accepted_of_isReal {tf : TimeFields} (h : tf.IsReal) : Accepted tf where
  clock := h.clock
  month_ge := h.date.month_ge
  month_le := h.date.month_le
  day_ge := h.date.day_ge
  day_le := h.date.day_le.trans (daysInMonth_le_monthLength h.date.month_ge h.date.month_le)
  year_ge := h.date.year_ge

/-- The validity test reads MonthLengths with the row of leap years for every February, so
29 February of a year that is not a leap year is accepted, and it gets the time of 1 March. -/
theorem rtlTimeFieldsToTime_accepts_feb29 (tf : TimeFields) (hyear : 1601 ≤ tf.year.toInt)
    (hleap : ¬ Leap tf.year.toInt) (hclock : ClockValid tf) (hmonth : tf.month = 2)
    (hday : tf.day = 29) :
    ¬ tf.IsReal ∧ ({ tf with month := 3, day := 1 } : TimeFields).IsReal ∧
      ∃ t, rtlTimeFieldsToTime tf = some t ∧
        rtlTimeFieldsToTime { tf with month := 3, day := 1 } = some t := by
  have hm : tf.month.toInt = 2 := by rw [hmonth]; rfl
  have hd : tf.day.toInt = 29 := by rw [hday]; rfl
  have hfeb : daysInMonth tf.year.toInt 2 = 28 := by simp [daysInMonth, hleap]
  have hacc : Accepted tf :=
    { clock := hclock
      month_ge := by omega
      month_le := by omega
      day_ge := by omega
      day_le := by rw [monthLength_row (by omega) (by omega), if_pos hm]; omega
      year_ge := hyear }
  have hmar : TimeFields.IsReal { tf with month := 3, day := 1 } :=
    ⟨⟨hyear, by simp, by simp, by simp, by simp [daysInMonth]⟩,
      ⟨hclock.hour, hclock.minute, hclock.second, hclock.milliseconds⟩⟩
  refine ⟨fun h => ?_, hmar, _, rtlTimeFieldsToTime_of_accepted hacc, ?_⟩
  · have hle := h.date.day_le
    rw [hm, hd, hfeb] at hle
    omega
  · rw [rtlTimeFieldsToTime_of_accepted (accepted_of_isReal hmar), hm, hd,
      dayCount_feb29 hyear hleap]
    rfl

theorem feb29_2001_accepted :
    ¬ TimeFields.IsReal ⟨2001, 2, 29, 0, 0, 0, 0, 0⟩ ∧ TimeFields.IsReal ⟨2001, 3, 1, 0, 0, 0, 0, 0⟩ ∧
      ∃ t, rtlTimeFieldsToTime ⟨2001, 2, 29, 0, 0, 0, 0, 0⟩ = some t ∧
        rtlTimeFieldsToTime ⟨2001, 3, 1, 0, 0, 0, 0, 0⟩ = some t :=
  rtlTimeFieldsToTime_accepts_feb29 _ (by decide) (by decide)
    ⟨by decide, by decide, by decide, by decide⟩ rfl rfl

end Wine.Ntdll.Time
