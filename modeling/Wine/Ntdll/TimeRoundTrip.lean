import Wine.Ntdll.Time

/-! Round trips of the two calendar conversions of time.c. Past the sign of the day count,
every C division is a floor division; the century count of RtlTimeToTimeFields, taken from the
day count, and the one of RtlTimeFieldsToTime, taken from the year, then differ by the twelve
century years before 1601, and the rest is linear arithmetic within one 400-year cycle. -/

namespace Wine.Ntdll.Time

set_option autoImplicit false

/-! The March-based year of a day count. -/

theorem century_of_days {d c y q : Int} (hd : 0 ≤ d) (hq : (4 * d + 1227) / 146097 = q)
    (hc : (3 * q + 3) / 4 = c) (hy : (20 * (d + 28188 + c) - 2442) / 7305 = y) :
    (y + 1524) / 100 = q + 16 := by
  have hq0 : 0 ≤ q := by omega
  -- split off whole 400-year cycles: within one the correction is the century count
  obtain ⟨k, j, hj0, hj4, rfl⟩ : ∃ k j, 0 ≤ j ∧ j < 4 ∧ q = 4 * k + j :=
    ⟨q / 4, q % 4, by omega, by omega, by omega⟩
  obtain rfl : c = 3 * k + j := by interval_cases j <;> omega
  interval_cases j <;> omega

-- the day of the March-based year runs from 123 (1 March) to 488 (29 February)
theorem yearday_bounds {D y : Int} (hy : (20 * D - 2442) / 7305 = y) :
    123 ≤ D - y * 1461 / 4 ∧ D - y * 1461 / 4 ≤ 488 := by
  omega

theorem leap_of_yearday {d q c y : Int} (hd : 0 ≤ d) (hq : (4 * d + 1227) / 146097 = q)
    (hc : (3 * q + 3) / 4 = c) (hy : (20 * (d + 28188 + c) - 2442) / 7305 = y)
    (h488 : d + 28188 + c - y * 1461 / 4 = 488) : Leap (y + 1525) := by
  have hcent := century_of_days hd hq hc hy
  refine ⟨by clear hcent hq hc; omega, ?_⟩
  by_cases h100 : 100 ∣ y + 1525
  · right
    obtain rfl : y = 100 * q + 175 := by clear hy hq hc h488; omega
    obtain ⟨k, j, hj0, hj4, rfl⟩ : ∃ k j, 0 ≤ j ∧ j < 4 ∧ q = 4 * k + j :=
      ⟨q / 4, q % 4, by omega, by omega, by omega⟩
    obtain rfl : c = 3 * k + j := by clear hy h488 hcent; interval_cases j <;> omega
    obtain rfl : d = 146097 * k + 36524 * j + 36218 := by clear hy hq hcent; omega
    have hj : j = 3 := by clear hy h488 hcent; omega
    omega
  · exact .inl h100

theorem daysToDate_real (d : Int) (hd : 0 ≤ d) :
    DateReal (daysToDate d).1 (daysToDate d).2.1 (daysToDate d).2.2 := by
  simp only [daysToDate, daysPerQuadricentennium, daysPerNormalQuadrennium, Int.reduceMul,
    Int.reduceAdd]
  simp (disch := omega) only [Int.tdiv_eq_ediv_of_nonneg]
  generalize hq : (4 * d + 1227) / 146097 = q
  generalize hc : (3 * q + 3) / 4 = c
  generalize hy : (20 * (d + 28188 + c) - 2442) / 7305 = y
  have hleap := leap_of_yearday hd hq hc hy
  have hcent := century_of_days hd hq hc hy
  have hy76 : 76 ≤ y := by clear hleap; omega
  have hfirst : y = 76 → 429 ≤ d + 28188 + c - y * 1461 / 4 := by clear hleap hcent; omega
  obtain ⟨hyd1, hyd2⟩ := yearday_bounds hy
  generalize d + 28188 + c - y * 1461 / 4 = yd at hleap hyd1 hyd2 hfirst
  clear hq hc hy hcent
  generalize hm : 64 * yd / 1959 = m
  have hm4 : 4 ≤ m := by omega
  have hm15 : m ≤ 15 := by omega
  split <;> dsimp only
  · refine ⟨by omega, by omega, by omega, ?_, ?_⟩
    · interval_cases m <;> omega
    · interval_cases m <;> simp [daysInMonth] <;> omega
  · refine ⟨by omega, by omega, by omega, ?_, ?_⟩
    · interval_cases m <;> omega
    · interval_cases m
      · simp [daysInMonth]
        omega
      · rw [daysInMonth, if_pos (by norm_num)]
        by_cases hl : Leap (y + 1525)
        · rw [if_pos hl]
          omega
        · rw [if_neg hl]
          have := mt hleap hl
          omega

theorem dayCount_daysToDate (d : Int) (hd : 0 ≤ d) :
    dayCount (daysToDate d).1 (daysToDate d).2.1 (daysToDate d).2.2 = d := by
  simp only [daysToDate, daysPerQuadricentennium, daysPerNormalQuadrennium, Int.reduceMul,
    Int.reduceAdd]
  simp (disch := omega) only [Int.tdiv_eq_ediv_of_nonneg]
  generalize hq : (4 * d + 1227) / 146097 = q
  generalize hc : (3 * q + 3) / 4 = c
  generalize hy : (20 * (d + 28188 + c) - 2442) / 7305 = y
  have hcent := century_of_days hd hq hc hy
  generalize hyd : d + 28188 + c - y * 1461 / 4 = yd
  generalize hm : 64 * yd / 1959 = m
  have hjul : 36525 * (y + 1524) / 100 = y * 1461 / 4 + 556641 := by omega
  have hcl : (3 * ((y + 1524) / 100) + 3) / 4 = c + 12 := by omega
  split
  · simp only [dayCount]
    rw [if_neg (by omega)]
    simp (disch := omega) only [Int.tdiv_eq_ediv_of_nonneg, Int.sub_add_cancel]
    omega
  · simp only [dayCount]
    rw [if_pos (by omega), show y + 1525 - 1 = y + 1524 by omega]
    simp (disch := omega) only [Int.tdiv_eq_ediv_of_nonneg, Int.sub_add_cancel]
    omega

/-! The day count of a date. -/

theorem century_of_year {Y e d : Int} (hY : 1600 ≤ Y) (he1 : 123 ≤ e) (he2 : e ≤ 488)
    (hleap : e = 488 → (Y + 1) % 100 ≠ 0 ∨ (Y + 1) % 400 = 0)
    (hd : d = 36525 * Y / 100 - (3 * (Y / 100) + 3) / 4 + e - 584817) :
    (4 * d + 1227) / 146097 = Y / 100 - 16 := by
  obtain ⟨a, b, r, hb0, hb4, hr0, hr, rfl⟩ :
      ∃ a b r, 0 ≤ b ∧ b < 4 ∧ 0 ≤ r ∧ r < 100 ∧ Y = 100 * (4 * a + b) + r :=
    ⟨Y / 400, Y / 100 % 4, Y % 100, by omega, by omega, by omega, by omega, by omega⟩
  have hp : (100 * (4 * a + b) + r) / 100 = 4 * a + b := by omega
  have hj : 36525 * (100 * (4 * a + b) + r) / 100 = 36525 * (4 * a + b) + 1461 * r / 4 := by
    omega
  -- only 29 February of the last year of a century can reach the next century count
  have hl : e = 488 → r ≤ 98 ∨ b = 3 := by
    intro h
    rcases hleap h with h | h <;> omega
  rw [hp, hj] at hd
  rw [hp]
  interval_cases b <;> omega

theorem day_le_of_real {Y M Dd : Int} (h : DateReal Y M Dd) :
    (M = 2 → Dd ≤ 28 ∨ (Dd = 29 ∧ Y % 4 = 0 ∧ (Y % 100 ≠ 0 ∨ Y % 400 = 0))) ∧
    (M = 4 ∨ M = 6 ∨ M = 9 ∨ M = 11 → Dd ≤ 30) ∧ Dd ≤ 31 := by
  have hD := h.day_le
  simp only [daysInMonth, Leap] at hD
  split_ifs at hD <;> omega

theorem daysToDate_dayCount {Y M Dd : Int} (h : DateReal Y M Dd) :
    daysToDate (dayCount Y M Dd) = (Y, M, Dd) := by
  obtain ⟨h2, h30, h31⟩ := day_le_of_real h
  obtain ⟨hY, hM1, hM12, hD1, -⟩ := h
  obtain ⟨Y', M', hm, hdc⟩ : ∃ Y' M', ((M < 3 ∧ M' = M + 13 ∧ Y' = Y - 1) ∨
      (3 ≤ M ∧ M' = M + 1 ∧ Y' = Y)) ∧
      dayCount Y M Dd = 36525 * Y' / 100 - (3 * (Y' / 100) + 3) / 4 + (1959 * M' / 64 + Dd) -
        584817 := by
    by_cases hM3 : M < 3
    · refine ⟨Y - 1, M + 13, .inl ⟨hM3, rfl, rfl⟩, ?_⟩
      rw [dayCount_of_lt_three (by omega) (by omega) hM3]
      omega
    · refine ⟨Y, M + 1, .inr ⟨by omega, rfl, rfl⟩, ?_⟩
      rw [dayCount_of_three_le (by omega) (by omega)]
      omega
  have hslot : 64 * (1959 * M' / 64 + Dd) / 1959 = M' := by
    rcases hm with ⟨hlt, rfl, -⟩ | ⟨hge, rfl, -⟩ <;> interval_cases M <;> omega
  have hq := century_of_year (e := 1959 * M' / 64 + Dd) (by omega) (by omega) (by omega)
    (by omega) hdc
  generalize dayCount Y M Dd = d at hdc hq
  simp only [daysToDate, daysPerQuadricentennium, daysPerNormalQuadrennium, Int.reduceMul,
    Int.reduceAdd]
  simp (disch := omega) only [Int.tdiv_eq_ediv_of_nonneg]
  rw [hq]
  have hc : (3 * (Y' / 100 - 16) + 3) / 4 = (3 * (Y' / 100) + 3) / 4 - 12 := by omega
  have hy : (20 * (d + 28188 + ((3 * (Y' / 100) + 3) / 4 - 12)) - 2442) / 7305 = Y' - 1524 := by
    omega
  have hyd : d + 28188 + ((3 * (Y' / 100) + 3) / 4 - 12) - (Y' - 1524) * 1461 / 4 =
      1959 * M' / 64 + Dd := by
    omega
  rw [hc, hy, hyd, hslot]
  rcases hm with ⟨hlt, rfl, rfl⟩ | ⟨hge, rfl, rfl⟩
  · rw [if_neg (by omega), Prod.mk.injEq, Prod.mk.injEq]
    omega
  · rw [if_pos (by omega), Prod.mk.injEq, Prod.mk.injEq]
    omega

theorem dayCount_ge_of_real {Y M Dd : Int} (h : DateReal Y M Dd) :
    365 * (Y - 1601) ≤ dayCount Y M Dd := by
  obtain ⟨hY, hM1, hM12, hD1, -⟩ := h
  by_cases hM3 : M < 3
  · rw [dayCount_of_lt_three (by omega) (by omega) hM3]
    omega
  · rw [dayCount_of_three_le (by omega) (by omega)]
    omega

theorem dayCount_le_of_real {Y M Dd : Int} (h : DateReal Y M Dd) (hY : Y ≤ 30827) :
    dayCount Y M Dd ≤ 10674941 := by
  have h31 := (day_le_of_real h).2.2
  obtain ⟨hY0, hM1, hM12, -, -⟩ := h
  by_cases hM3 : M < 3
  · rw [dayCount_of_lt_three (by omega) (by omega) hM3]
    omega
  · rw [dayCount_of_three_le (by omega) (by omega)]
    omega

/-! The round trips of the two functions. -/

theorem ofInt_eq_of_toInt {x : Int} {v : Int16} (h : x = v.toInt) : Int16.ofInt x = v :=
  h ▸ Int16.ofInt_toInt v

theorem rtlTimeToTimeFields_toInt {time : Int} (h0 : 0 ≤ time) (h63 : time < 2 ^ 63) :
    let tf := rtlTimeToTimeFields time
    let date := daysToDate (time / ticksPerSec / secsPerDay)
    tf.year.toInt = date.1 ∧ tf.month.toInt = date.2.1 ∧ tf.day.toInt = date.2.2 ∧
      tf.hour.toInt = time / ticksPerSec % secsPerDay / secsPerHour ∧
      tf.minute.toInt = time / ticksPerSec % secsPerHour / secsPerMin ∧
      tf.second.toInt = time / ticksPerSec % secsPerMin ∧
      tf.milliseconds.toInt = time % ticksPerSec / ticksPerMsec := by
  simp only [rtlTimeToTimeFields, ticksPerSec, ticksPerMsec, secsPerDay, secsPerHour, secsPerMin]
  simp (disch := omega) only [Int.tdiv_eq_ediv_of_nonneg, Int.tmod_eq_emod_of_nonneg]
  have hdays : 0 ≤ time / 10000000 / 86400 := by omega
  have hreal := daysToDate_real _ hdays
  have hlow := dayCount_ge_of_real hreal
  have hD31 := (day_le_of_real hreal).2.2
  rw [dayCount_daysToDate _ hdays] at hlow
  generalize daysToDate (time / 10000000 / 86400) = date at hreal hlow hD31
  obtain ⟨hY, hM1, hM12, hD1, -⟩ := hreal
  -- the year stays below 32768: a LARGE_INTEGER spans fewer than 29248 years of days
  refine ⟨Int16.toInt_ofInt_of_le (by omega) (by omega), Int16.toInt_ofInt_of_le (by omega) (by omega),
    Int16.toInt_ofInt_of_le (by omega) (by omega), ?_, ?_, ?_, ?_⟩ <;>
  rw [Int16.toInt_ofInt_of_le (by omega) (by omega)] <;> omega

theorem rtlTimeToTimeFields_isReal {time : Int} (h0 : 0 ≤ time) (h63 : time < 2 ^ 63) :
    (rtlTimeToTimeFields time).IsReal := by
  obtain ⟨hy, hm, hd, hh, hmi, hs, hms⟩ := rtlTimeToTimeFields_toInt h0 h63
  have hdays : 0 ≤ time / ticksPerSec / secsPerDay := by simp only [ticksPerSec, secsPerDay]; omega
  refine ⟨?_, ⟨?_, ?_, ?_, ?_⟩⟩
  · rw [hy, hm, hd]
    exact daysToDate_real _ hdays
  all_goals simp only [hh, hmi, hs, hms, ticksPerSec, ticksPerMsec, secsPerDay, secsPerHour,
    secsPerMin]; omega

/-- RtlTimeFieldsToTime takes the fields RtlTimeToTimeFields gives any nonnegative LARGE_INTEGER
back to the time, less its ticks below one millisecond. -/
theorem rtlTimeFieldsToTime_rtlTimeToTimeFields (time : Int) (h0 : 0 ≤ time)
    (h63 : time < 2 ^ 63) :
    rtlTimeFieldsToTime (rtlTimeToTimeFields time) = some (time / ticksPerMsec * ticksPerMsec) := by
  obtain ⟨hy, hm, hd, hh, hmi, hs, hms⟩ := rtlTimeToTimeFields_toInt h0 h63
  have hdays : 0 ≤ time / ticksPerSec / secsPerDay := by simp only [ticksPerSec, secsPerDay]; omega
  rw [rtlTimeFieldsToTime_of_accepted (accepted_of_isReal (rtlTimeToTimeFields_isReal h0 h63)),
    hy, hm, hd, dayCount_daysToDate _ hdays, hh, hmi, hs, hms]
  simp only [ticksOf, ticksPerSec, ticksPerMsec, secsPerDay, secsPerHour, secsPerMin, hoursPerDay,
    minsPerHour, Option.some.injEq]
  rw [Int.bmod_eq_of_le (by omega) (by omega)]
  omega

theorem rtlTimeFieldsToTime_rtlTimeToTimeFields_1970 :
    0 ≤ (116444736012345678 : Int) ∧ (116444736012345678 : Int) < 2 ^ 63 ∧
      rtlTimeFieldsToTime (rtlTimeToTimeFields 116444736012345678) =
        some (116444736012345678 / ticksPerMsec * ticksPerMsec) :=
  ⟨by decide, by decide, rtlTimeFieldsToTime_rtlTimeToTimeFields _ (by decide) (by decide)⟩

/-- RtlTimeFieldsToTime accepts the fields of every real instant up to the end of 30827, where
its tick product stays below 2^63, and RtlTimeToTimeFields gives them back from its time, all but
the weekday, which RtlTimeFieldsToTime does not read. -/
theorem rtlTimeToTimeFields_rtlTimeFieldsToTime {tf : TimeFields} (h : tf.IsReal)
    (hyear : tf.year.toInt ≤ 30827) :
    ∃ time, rtlTimeFieldsToTime tf = some time ∧ 0 ≤ time ∧
      { rtlTimeToTimeFields time with weekday := tf.weekday } = tf := by
  refine ⟨_, rtlTimeFieldsToTime_of_accepted (accepted_of_isReal h), ?_⟩
  have hdc := dayCount_ge_of_real h.date
  have hdc' := dayCount_le_of_real h.date hyear
  have hdate := daysToDate_dayCount h.date
  obtain ⟨year, month, day, hour, minute, second, milliseconds, weekday⟩ := tf
  obtain ⟨⟨hY, -, -, -, -⟩, ⟨⟨hh0, hh23⟩, ⟨hm0, hm59⟩, ⟨hs0, hs59⟩, ⟨hms0, hms999⟩⟩⟩ := h
  dsimp only at *
  generalize dayCount year.toInt month.toInt day.toInt = d at hdc hdc' hdate
  simp only [ticksOf, hoursPerDay, minsPerHour, secsPerMin, ticksPerMsec]
  rw [Int.bmod_eq_of_le (by omega) (by omega)]
  refine ⟨by omega, ?_⟩
  simp only [rtlTimeToTimeFields, ticksPerSec, ticksPerMsec, secsPerDay, secsPerHour, secsPerMin]
  simp (disch := omega) only [Int.tdiv_eq_ediv_of_nonneg, Int.tmod_eq_emod_of_nonneg]
  have hdays : ((((d * 24 + hour.toInt) * 60 + minute.toInt) * 60 + second.toInt) * 1000 +
      milliseconds.toInt) * 10000 / 10000000 / 86400 = d := by omega
  rw [hdays, hdate]
  simp only [TimeFields.mk.injEq]
  refine ⟨Int16.ofInt_toInt _, Int16.ofInt_toInt _, Int16.ofInt_toInt _, ofInt_eq_of_toInt (by omega),
    ofInt_eq_of_toInt (by omega), ofInt_eq_of_toInt (by omega), ofInt_eq_of_toInt (by omega), trivial⟩

theorem rtlTimeToTimeFields_rtlTimeFieldsToTime_feb29 :
    TimeFields.IsReal ⟨2000, 2, 29, 23, 59, 59, 999, 0⟩ ∧ (2000 : Int16).toInt ≤ 30827 ∧
      ∃ time, rtlTimeFieldsToTime ⟨2000, 2, 29, 23, 59, 59, 999, 0⟩ = some time ∧ 0 ≤ time ∧
        { rtlTimeToTimeFields time with weekday := 0 } = ⟨2000, 2, 29, 23, 59, 59, 999, 0⟩ :=
  have h : TimeFields.IsReal ⟨2000, 2, 29, 23, 59, 59, 999, 0⟩ :=
    ⟨⟨by decide, by decide, by decide, by decide, by decide⟩,
      ⟨by decide, by decide, by decide, by decide⟩⟩
  ⟨h, by decide, rtlTimeToTimeFields_rtlTimeFieldsToTime h (by decide)⟩

/-- The day counts from 1 January 30829 to 31 December 32767. -/
theorem dayCount_after_30828 {Y M D : Int} (hY : 30829 ≤ Y) (hY' : Y < 2 ^ 15) (hM1 : 1 ≤ M)
    (hM12 : M ≤ 12) (hD1 : 1 ≤ D) (hD : D ≤ 31) :
    10675308 ≤ dayCount Y M D ∧ dayCount Y M D ≤ 11383511 := by
  by_cases hM3 : M < 3
  · rw [dayCount_of_lt_three (by omega) (by omega) hM3]
    have hjul : 11259927 ≤ 36525 * (Y - 1) / 100 ∧ 36525 * (Y - 1) / 100 ≤ 11967781 := by omega
    have hcent : 231 ≤ (3 * ((Y - 1) / 100) + 3) / 4 ∧ (3 * ((Y - 1) / 100) + 3) / 4 ≤ 246 := by
      omega
    have hmon : 428 ≤ 1959 * (M + 13) / 64 ∧ 1959 * (M + 13) / 64 ≤ 459 := by omega
    omega
  · rw [dayCount_of_three_le (by omega) (by omega)]
    have hjul : 11260292 ≤ 36525 * Y / 100 ∧ 36525 * Y / 100 ≤ 11968146 := by omega
    have hcent : 231 ≤ (3 * (Y / 100) + 3) / 4 ∧ (3 * (Y / 100) + 3) / 4 ≤ 246 := by omega
    have hmon : 122 ≤ 1959 * (M + 1) / 64 ∧ 1959 * (M + 1) / 64 ≤ 397 := by omega
    omega

theorem bmod_of_two_pow_63_le {x : Int} (h1 : 2 ^ 63 ≤ x) (h2 : x < 2 ^ 64) :
    Int.bmod x (2 ^ 64) = x - 2 ^ 64 := by
  rw [Int.bmod_def]
  omega

/-- RtlTimeToElapsedTimeFields: a duration split into days and a time of day, with year and
month zero; the weekday is not written and keeps what the structure held. -/
def rtlTimeToElapsedTimeFields (time : Int) (timeFields : TimeFields) : TimeFields :=
  let t := time.tdiv ticksPerSec
  let milliseconds := (time.tmod ticksPerSec).tdiv ticksPerMsec
  let rem := t.tmod secsPerDay
  let second := rem.tmod 60
  let rem := rem.tdiv 60
  { timeFields with
    milliseconds := Int16.ofInt milliseconds
    year := 0
    month := 0
    day := Int16.ofInt (t.tdiv secsPerDay)
    second := Int16.ofInt second
    minute := Int16.ofInt (rem.tmod 60)
    hour := Int16.ofInt (rem.tdiv 60) }

-- splitting seconds by 60 twice, or by 3600 and then 60, truncates alike whatever the sign
theorem tdiv_sixty_sixty (a : Int) :
    (a.tdiv 60).tdiv 60 = a.tdiv 3600 ∧ (a.tdiv 60).tmod 60 = (a.tmod 3600).tdiv 60 ∧
      a.tmod 60 = (a.tmod 3600).tmod 60 := by
  have nonneg : ∀ b : Int, 0 ≤ b → (b.tdiv 60).tdiv 60 = b.tdiv 3600 ∧
      (b.tdiv 60).tmod 60 = (b.tmod 3600).tdiv 60 ∧ b.tmod 60 = (b.tmod 3600).tmod 60 := by
    intro b hb
    simp (disch := omega) only [Int.tdiv_eq_ediv_of_nonneg, Int.tmod_eq_emod_of_nonneg]
    omega
  rcases le_total 0 a with ha | ha
  · exact nonneg a ha
  · obtain ⟨h1, h2, h3⟩ := nonneg (-a) (by omega)
    simp only [Int.neg_tdiv, Int.neg_tmod, Int.neg_inj] at h1 h2 h3
    exact ⟨h1, h2, h3⟩

theorem rtlTimeToElapsedTimeFields_clock (time : Int) (timeFields : TimeFields) :
    let e := rtlTimeToElapsedTimeFields time timeFields
    let f := rtlTimeToTimeFields time
    e.hour = f.hour ∧ e.minute = f.minute ∧ e.second = f.second ∧
      e.milliseconds = f.milliseconds ∧ e.weekday = timeFields.weekday := by
  obtain ⟨hh, hm, hs⟩ := tdiv_sixty_sixty ((time.tdiv ticksPerSec).tmod secsPerDay)
  simp only [rtlTimeToElapsedTimeFields, rtlTimeToTimeFields, secsPerHour, secsPerMin, hh, hm,
    ← hs, and_self]


/-! RtlTimeToSecondsSince1970, RtlTimeToSecondsSince1980 and their inverses. -/

/-- SECS_1601_TO_1970: 369 years and 89 leap days. -/
def secs1601To1970 : Int := (369 * 365 + 89) * secsPerDay

/-- SECS_1601_TO_1980: 379 years and 91 leap days. -/
def secs1601To1980 : Int := (379 * 365 + 91) * secsPerDay

/-- The epochs are the times RtlTimeFieldsToTime gives their first midnights. -/
example : rtlTimeFieldsToTime ⟨1970, 1, 1, 0, 0, 0, 0, 0⟩ = some (secs1601To1970 * ticksPerSec) ∧
    rtlTimeFieldsToTime ⟨1980, 1, 1, 0, 0, 0, 0, 0⟩ = some (secs1601To1980 * ticksPerSec) := by
  decide

/-- The body RtlTimeToSecondsSince1970 and RtlTimeToSecondsSince1980 share: the whole seconds of
the time past the epoch, as a ULONGLONG, and FALSE when that does not fit a DWORD. -/
def timeToSecondsSince (epochSecs time : Int) : Option UInt32 :=
  let tmp := (time.tdiv ticksPerSec - epochSecs) % 2 ^ 64
  if tmp > 0xffffffff then none else some (UInt32.ofNat tmp.toNat)

def rtlTimeToSecondsSince1970 (time : Int) : Option UInt32 :=
  timeToSecondsSince secs1601To1970 time

def rtlTimeToSecondsSince1980 (time : Int) : Option UInt32 :=
  timeToSecondsSince secs1601To1980 time

/-- The body RtlSecondsSince1970ToTime and RtlSecondsSince1980ToTime share; from a DWORD count
the ULONGLONG sum stays below 2^63. -/
def secondsSinceToTime (epochSecs : Int) (seconds : UInt32) : Int :=
  seconds.toNat * ticksPerSec + epochSecs * ticksPerSec

def rtlSecondsSince1970ToTime (seconds : UInt32) : Int :=
  secondsSinceToTime secs1601To1970 seconds

def rtlSecondsSince1980ToTime (seconds : UInt32) : Int :=
  secondsSinceToTime secs1601To1980 seconds

section Epoch

variable {epochSecs : Int} (he0 : 0 < epochSecs) (he : (epochSecs + 2 ^ 32) * ticksPerSec ≤ 2 ^ 63)
include he0 he

theorem timeToSecondsSince_eq_some_iff {time : Int} (h1 : -2 ^ 63 ≤ time) (h2 : time < 2 ^ 63)
    (seconds : UInt32) :
    timeToSecondsSince epochSecs time = some seconds ↔
      epochSecs * ticksPerSec ≤ time ∧ time < (epochSecs + 2 ^ 32) * ticksPerSec ∧
        seconds.toNat = time / ticksPerSec - epochSecs := by
  simp only [ticksPerSec] at he ⊢
  have hq : time.tdiv 10000000 = if 0 ≤ time then time / 10000000 else -((-time) / 10000000) := by
    split_ifs with h
    · exact Int.tdiv_eq_ediv_of_nonneg h
    · rw [← Int.neg_neg time, Int.neg_tdiv, Int.neg_neg, Int.tdiv_eq_ediv_of_nonneg (by omega)]
  by_cases hin : epochSecs * 10000000 ≤ time ∧ time < (epochSecs + 2 ^ 32) * 10000000
  · have hmod : (time / 10000000 - epochSecs) % 2 ^ 64 = time / 10000000 - epochSecs :=
      Int.emod_eq_of_lt (by omega) (by omega)
    simp only [timeToSecondsSince, ticksPerSec, hq, if_pos (show 0 ≤ time by omega), hmod]
    rw [if_neg (by omega), Option.some.injEq]
    constructor
    · rintro rfl
      simp only [UInt32.toNat_ofNat', hin, true_and]
      omega
    · rintro ⟨-, -, hs⟩
      apply UInt32.toNat_inj.mp
      simp only [UInt32.toNat_ofNat']
      omega
  · have hnone : timeToSecondsSince epochSecs time = none := by
      simp only [timeToSecondsSince, ticksPerSec, hq]
      rw [if_pos]
      split_ifs <;> omega
    rw [hnone]
    simp only [reduceCtorEq, false_iff]
    exact fun h => hin ⟨h.1, h.2.1⟩

end Epoch

/-- For an epoch between 1601 and the end of LARGE_INTEGER, a time converts to seconds iff it
lies in the 2^32 seconds from the epoch on, those seconds convert back to the time cut to whole
seconds, and every DWORD count comes back from its time. -/
theorem timeToSecondsSince_roundTrip {epochSecs : Int} (he0 : 0 < epochSecs)
    (he : (epochSecs + 2 ^ 32) * ticksPerSec ≤ 2 ^ 63) :
    (∀ time, -2 ^ 63 ≤ time → time < 2 ^ 63 →
      ((timeToSecondsSince epochSecs time).isSome ↔
        epochSecs * ticksPerSec ≤ time ∧ time < (epochSecs + 2 ^ 32) * ticksPerSec) ∧
      ∀ seconds, timeToSecondsSince epochSecs time = some seconds →
        secondsSinceToTime epochSecs seconds = time / ticksPerSec * ticksPerSec) ∧
    ∀ seconds, timeToSecondsSince epochSecs (secondsSinceToTime epochSecs seconds) = some seconds := by
  have hpos : (0 : Int) < ticksPerSec := by decide
  refine ⟨fun time h1 h2 => ⟨?_, fun seconds hs => ?_⟩, fun seconds => ?_⟩
  · rw [Option.isSome_iff_exists]
    constructor
    · rintro ⟨seconds, hs⟩
      obtain ⟨hlo, hhi, -⟩ := (timeToSecondsSince_eq_some_iff he0 he h1 h2 seconds).mp hs
      exact ⟨hlo, hhi⟩
    · rintro ⟨hlo, hhi⟩
      refine ⟨UInt32.ofNat (time / ticksPerSec - epochSecs).toNat,
        (timeToSecondsSince_eq_some_iff he0 he h1 h2 _).mpr ⟨hlo, hhi, ?_⟩⟩
      simp only [UInt32.toNat_ofNat', ticksPerSec] at hlo hhi ⊢
      omega
  · obtain ⟨-, -, hsec⟩ := (timeToSecondsSince_eq_some_iff he0 he h1 h2 seconds).mp hs
    rw [secondsSinceToTime, hsec, Int.sub_mul, Int.sub_add_cancel]
  · have hlt := seconds.toNat_lt
    simp only [ticksPerSec] at he hpos ⊢
    apply (timeToSecondsSince_eq_some_iff he0 (by simpa only [ticksPerSec] using he)
      (by simp only [secondsSinceToTime, ticksPerSec]; omega)
      (by simp only [secondsSinceToTime, ticksPerSec]; omega) seconds).mpr
    simp only [secondsSinceToTime, ticksPerSec]
    omega

theorem timeToSecondsSince_roundTrip_1970 :
    0 < secs1601To1970 ∧ (secs1601To1970 + 2 ^ 32) * ticksPerSec ≤ 2 ^ 63 ∧
      ∀ seconds, rtlTimeToSecondsSince1970 (rtlSecondsSince1970ToTime seconds) = some seconds :=
  ⟨by decide, by decide, (timeToSecondsSince_roundTrip (by decide) (by decide)).2⟩

end Wine.Ntdll.Time
