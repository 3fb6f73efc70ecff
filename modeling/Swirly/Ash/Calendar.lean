import Swirly.Ash.JulianDay
import Swirly.Lib.Machine

/-!
# Swirly.Ash.Calendar

**The Julian day is the calendar.** Day after day of the calendar has number after number
(`next_jd`): inside a month `ymdToJd` counts the day, and what it gives for the day before the
first of a month is the last of the month before (`monthEnd_succ`). So a later date has a
greater number (`jd_lt`).

The source computes in `int`. The programs `…32` do the same one operation at a time, each of
which has to fit; up to the year 200000 all of them do.
-/

namespace Swirly

open Lib (MachineInt int32)
open Lib.MachineInt (ofNat_eq of_add of_sub of_mul of_div of_mod fits_int32)

/-! ### In 32 bits -/

/-- `ymdToIso`, in `int`, where each operation may overflow. For a date of the calendar none
does. -/
def ymdToIso32 (year mon mday : MachineInt int32) : MachineInt int32 :=
  year * 10000 + (mon + 1) * 100 + mday

/-- `ymdToJd`, in `int`, where each operation may overflow. For a date of the calendar none
does. -/
def ymdToJd32 (year mon mday : MachineInt int32) : MachineInt int32 :=
  let i := year
  let j := mon + 1
  let k := mday
  k - 32075 + 1461 * (i + 4800 + (j - 14) / 12) / 4
    + 367 * (j - 2 - (j - 14) / 12 * 12) / 12
    - 3 * ((i + 4900 + (j - 14) / 12) / 100) / 4

/-- `isoToJd`, in `int`. Taking the digits apart overflows nowhere; counting what they show
may. -/
def isoToJd32 (iso : MachineInt int32) : MachineInt int32 :=
  let year := iso / 10000
  let mon := (iso / 100 % 100) - 1
  let mday := iso % 100
  ymdToJd32 year mon mday

/-- `jdToIso`, in `int`, where each operation may overflow. For the day of a date of the calendar
none does. -/
def jdToIso32 (jd : MachineInt int32) : MachineInt int32 :=
  let l := jd + 68569
  let n := 4 * l / 146097
  let l := l - (146097 * n + 3) / 4
  let i := 4000 * (l + 1) / 1461001
  let l := l - 1461 * i / 4 + 31
  let j := 80 * l / 2447
  let k := l - 2447 * j / 80
  let l := j / 11
  let j := j + 2 - 12 * l
  let i := 100 * (n - 49) + i + l
  i * 10000 + j * 100 + k

section Bounds

variable {year mon mday jd : Int}

theorem ymdToIso32_eq (hyear : 0 ≤ year) (hyear' : year ≤ 200000) (hmon : 1 ≤ mon)
    (hmon' : mon ≤ 12) (hmday : 1 ≤ mday) (hmday' : mday ≤ 31) :
    ymdToIso32 (.of year) (.of (mon - 1)) (.of mday) = .of (ymdToIso year (mon - 1) mday) := by
  unfold ymdToIso32 ymdToIso
  simp (disch := exact fits_int32 (by omega) (by omega)) only [ofNat_eq, of_add, of_mul]

/-- Every quotient but the first is one of numbers that are not negative. -/
theorem ymdToJd32_eq (hyear : 0 ≤ year) (hyear' : year ≤ 200000) (hmon : 1 ≤ mon)
    (hmon' : mon ≤ 12) (hmday : 1 ≤ mday) (hmday' : mday ≤ 31) :
    ymdToJd32 (.of year) (.of (mon - 1)) (.of mday) = .of (ymdToJd year (mon - 1) mday) := by
  have hj : mon - 1 + 1 = mon := by omega
  obtain ⟨carry, hcarry⟩ : ∃ carry, (mon - 14).tdiv 12 = carry := ⟨_, rfl⟩
  have hcases : carry = -1 ∧ mon ≤ 2 ∨ carry = 0 ∧ 3 ≤ mon := by
    have hneg : mon - 14 = -(14 - mon) := by omega
    rw [hneg, Int.neg_tdiv, Int.tdiv_eq_ediv_of_nonneg (by omega)] at hcarry
    omega
  have hyears := Int.tdiv_eq_ediv_of_nonneg (b := 4) (by omega : 0 ≤ 1461 * (year + 4800 + carry))
  have hmonths := Int.tdiv_eq_ediv_of_nonneg (b := 12) (by omega : 0 ≤ 367 * (mon - 2 - carry * 12))
  have hcenturies := Int.tdiv_eq_ediv_of_nonneg (b := 100) (by omega : 0 ≤ year + 4900 + carry)
  have hleap := Int.tdiv_eq_ediv_of_nonneg (b := 4)
    (by omega : 0 ≤ 3 * (year + 4900 + carry).tdiv 100)
  unfold ymdToJd32 ymdToJd
  dsimp only
  simp (disch := first | exact fits_int32 (by omega) (by omega) | decide) only [ofNat_eq, of_add,
    of_sub, of_mul, of_div, hj, hcarry]

/-- Of a day that is not negative, every quotient is one of numbers that are not. -/
theorem jdToIso32_eq (hjd : 0 ≤ jd) (hjd' : jd ≤ 75000000) :
    jdToIso32 (.of jd) = .of (jdToIso jd) := by
  obtain ⟨n, hn⟩ : ∃ n, (4 * (jd + 68569)).tdiv 146097 = n := ⟨_, rfl⟩
  have hn' := hn
  rw [Int.tdiv_eq_ediv_of_nonneg (by omega)] at hn'
  have hnb : 0 ≤ n ∧ n ≤ 2100 := by omega
  obtain ⟨l, hl⟩ : ∃ l, jd + 68569 - (146097 * n + 3).tdiv 4 = l := ⟨_, rfl⟩
  have hl' := hl
  rw [Int.tdiv_eq_ediv_of_nonneg (by omega)] at hl'
  have hlb : 0 ≤ l ∧ l ≤ 36600 := by omega
  -- The bounds are all that the rest takes from the quotients.
  clear hn' hl'
  obtain ⟨i, hi⟩ : ∃ i, (4000 * (l + 1)).tdiv 1461001 = i := ⟨_, rfl⟩
  have hi' := hi
  rw [Int.tdiv_eq_ediv_of_nonneg (by omega)] at hi'
  have hib : 0 ≤ i ∧ i ≤ 101 := by omega
  obtain ⟨d, hd⟩ : ∃ d, l - (1461 * i).tdiv 4 + 31 = d := ⟨_, rfl⟩
  have hd' := hd
  rw [Int.tdiv_eq_ediv_of_nonneg (by omega)] at hd'
  have hdb : 0 ≤ d ∧ d ≤ 400 := by omega
  clear hi' hd'
  obtain ⟨j, hj⟩ : ∃ j, (80 * d).tdiv 2447 = j := ⟨_, rfl⟩
  have hj' := hj
  rw [Int.tdiv_eq_ediv_of_nonneg (by omega)] at hj'
  have hjb : 0 ≤ j ∧ j ≤ 13 := by omega
  clear hj'
  have hleap := Int.tdiv_eq_ediv_of_nonneg (b := 4) (by omega : 0 ≤ 146097 * n + 3)
  have hyear := Int.tdiv_eq_ediv_of_nonneg (b := 4) (by omega : 0 ≤ 1461 * i)
  have hmon := Int.tdiv_eq_ediv_of_nonneg (b := 80) (by omega : 0 ≤ 2447 * j)
  have hcarry := Int.tdiv_eq_ediv_of_nonneg (b := 11) (by omega : 0 ≤ j)
  unfold jdToIso32 jdToIso
  dsimp only
  simp (disch := first | exact fits_int32 (by omega) (by omega) | decide) only [ofNat_eq, of_add,
    of_sub, of_mul, of_div, hn, hl, hi, hd, hj]

end Bounds

/-! ### Day after day -/

/-- A date of the calendar. -/
@[ext] structure CalendarDate where
  year : Int
  mon : Int
  mday : Int
  isDate : IsDate year mon mday

theorem daysIn_bounds (year mon : Int) : 28 ≤ daysIn year mon ∧ daysIn year mon ≤ 31 := by
  unfold daysIn
  split_ifs
  all_goals exact ⟨by decide, by decide⟩

namespace CalendarDate

/-- The number that shows the date. -/
def iso (d : CalendarDate) : Int := ymdToIso d.year (d.mon - 1) d.mday

/-- The number of the day. -/
def jd (d : CalendarDate) : Int := ymdToJd d.year (d.mon - 1) d.mday

/-- The day after. -/
def next (d : CalendarDate) : CalendarDate :=
  if hday : d.mday < daysIn d.year d.mon then
    ⟨d.year, d.mon, d.mday + 1, { d.isDate with
      mday_pos := by have := d.isDate.mday_pos; omega, mday_le := by omega }⟩
  else if hmon : d.mon < 12 then
    ⟨d.year, d.mon + 1, 1, { d.isDate with
      mon_pos := by have := d.isDate.mon_pos; omega, mon_le := by omega,
      mday_pos := Int.le_refl 1,
      mday_le := by have := daysIn_bounds d.year (d.mon + 1); omega }⟩
  else
    ⟨d.year + 1, 1, 1, by
      have hyear := d.isDate.year_nonneg
      exact ⟨by omega, Int.le_refl 1, by decide, Int.le_refl 1,
        by have := daysIn_bounds (d.year + 1) 1; omega⟩⟩

/-- The order of the calendar. -/
def Before (d d' : CalendarDate) : Prop :=
  d.year < d'.year ∨ d.year = d'.year ∧
    (d.mon < d'.mon ∨ d.mon = d'.mon ∧ d.mday < d'.mday)

end CalendarDate

/-- The day before the first of a month; the months count from 1. -/
def monthEnd (year mon : Int) : Int := ymdToJd year (mon - 1) 0

theorem ymdToJd_eq (year mon mday : Int) :
    ymdToJd year (mon - 1) mday = monthEnd year mon + mday := by
  unfold monthEnd ymdToJd
  dsimp only
  omega

/-- January and February are counted with the year before. -/
theorem monthEnd_eq {year mon : Int} (carry : Int) (hyear : 0 ≤ year)
    (hcarry : 1 ≤ mon ∧ mon ≤ 2 ∧ carry = -1 ∨ 3 ≤ mon ∧ mon ≤ 12 ∧ carry = 0) :
    monthEnd year mon = 1461 * (year + 4800 + carry) / 4 + 367 * (mon - 2 - carry * 12) / 12
      - 3 * ((year + 4900 + carry) / 100) / 4 - 32075 := by
  have hdiv : (mon - 14).tdiv 12 = carry := by
    have hneg : mon - 14 = -(14 - mon) := by omega
    rw [hneg, Int.neg_tdiv, Int.tdiv_eq_ediv_of_nonneg (by omega)]
    omega
  unfold monthEnd ymdToJd
  dsimp only
  rw [Int.sub_add_cancel, hdiv,
    Int.tdiv_eq_ediv_of_nonneg (by omega : 0 ≤ 1461 * (year + 4800 + carry)),
    Int.tdiv_eq_ediv_of_nonneg (by omega : 0 ≤ 367 * (mon - 2 - carry * 12)),
    Int.tdiv_eq_ediv_of_nonneg (by omega : 0 ≤ year + 4900 + carry),
    Int.tdiv_eq_ediv_of_nonneg (by omega : 0 ≤ 3 * ((year + 4900 + carry) / 100))]
  omega

/-- The days from March to March, as the years are counted. -/
theorem years_succ (year : Int) : 1461 * (year + 4800 + 0) / 4 =
    1461 * (year + 4800 + -1) / 4 + if year % 4 = 0 then 366 else 365 := by
  split
  · omega
  · next hleap =>
      rcases (by omega : year % 4 = 1 ∨ year % 4 = 2 ∨ year % 4 = 3) with h | h | h
      all_goals omega

/-- The days that the centuries leave out. -/
theorem centuries_succ (year : Int) : 3 * ((year + 4900 + 0) / 100) / 4 =
    3 * ((year + 4900 + -1) / 100) / 4 + if year % 100 = 0 ∧ year % 400 ≠ 0 then 1 else 0 := by
  by_cases hcentury : year % 100 = 0
  · have hsucc : (year + 4900 + 0) / 100 = (year + 4900 + -1) / 100 + 1 := by omega
    rw [hsucc]
    rcases (by omega : year / 100 % 4 = 0 ∨ year / 100 % 4 = 1 ∨ year / 100 % 4 = 2 ∨
      year / 100 % 4 = 3) with h | h | h | h
    all_goals
      split
      · omega
      · omega
  · have hsame : (year + 4900 + 0) / 100 = (year + 4900 + -1) / 100 := by omega
    rw [hsame, if_neg (fun h => hcentury h.1), Int.add_zero]

/-- **The last day of a month is the one before the first of the next.** -/
theorem monthEnd_succ {year mon : Int} (hyear : 0 ≤ year) (hmon : 1 ≤ mon) (hmon' : mon < 12) :
    monthEnd year (mon + 1) = monthEnd year mon + daysIn year mon := by
  have hcases : mon = 1 ∨ mon = 2 ∨ mon = 3 ∨ mon = 4 ∨ mon = 5 ∨ mon = 6 ∨ mon = 7 ∨ mon = 8 ∨
      mon = 9 ∨ mon = 10 ∨ mon = 11 := by omega
  rcases hcases with rfl | rfl | hlate
  · have hdays : daysIn year 1 = 31 := rfl
    rw [monthEnd_eq (-1) hyear (by omega), monthEnd_eq (-1) hyear (by omega)]
    omega
  · have hdays : daysIn year 2 =
        if year % 4 = 0 ∧ (year % 100 ≠ 0 ∨ year % 400 = 0) then 29 else 28 := if_pos rfl
    rw [monthEnd_eq 0 hyear (by omega), monthEnd_eq (-1) hyear (by omega),
      years_succ, centuries_succ, hdays]
    split_ifs
    all_goals omega
  · rw [monthEnd_eq 0 hyear (by omega), monthEnd_eq 0 hyear (by omega),
      daysIn, if_neg (by omega)]
    rcases hlate with rfl | rfl | rfl | rfl | rfl | rfl | rfl | rfl | rfl
    all_goals
      split
      · omega
      · omega

/-- A year ends with December. -/
theorem monthEnd_december {year : Int} (hyear : 0 ≤ year) :
    monthEnd (year + 1) 1 = monthEnd year 12 + 31 := by
  have hyears : year + 1 + 4800 + -1 = year + 4800 + 0 := by omega
  have hcenturies : year + 1 + 4900 + -1 = year + 4900 + 0 := by omega
  rw [monthEnd_eq (-1) (by omega) (by omega), monthEnd_eq 0 hyear (by omega),
    hyears, hcenturies]
  omega

theorem monthEnd_le_of_mon_le {year mon mon' : Int} (hyear : 0 ≤ year) (hmon : 1 ≤ mon)
    (hle : mon ≤ mon') (hmon' : mon' ≤ 12) : monthEnd year mon ≤ monthEnd year mon' := by
  obtain ⟨k, rfl⟩ := Int.exists_add_of_le hle
  induction k with
  | zero => simp
  | succ k ih =>
      have hprev := ih (by omega) (by omega)
      have hsucc : monthEnd year (mon + k + 1) = monthEnd year (mon + k) + daysIn year (mon + k) :=
        monthEnd_succ hyear (by omega) (by omega)
      have hdays := daysIn_bounds year (mon + k)
      rw [Int.natCast_succ, ← Int.add_assoc]
      omega

theorem monthEnd_le_of_year_le {year year' : Int} (hyear : 0 ≤ year) (hle : year ≤ year') :
    monthEnd year 1 ≤ monthEnd year' 1 := by
  obtain ⟨k, rfl⟩ := Int.exists_add_of_le hle
  induction k with
  | zero => simp
  | succ k ih =>
      have hprev := ih (by omega)
      have hyears : monthEnd (year + k) 1 ≤ monthEnd (year + k) 12 :=
        monthEnd_le_of_mon_le (by omega) (Int.le_refl 1) (by decide) (Int.le_refl 12)
      have hsucc : monthEnd (year + k + 1) 1 = monthEnd (year + k) 12 + 31 :=
        monthEnd_december (by omega)
      rw [Int.natCast_succ, ← Int.add_assoc]
      omega

/-- A month ends in its year. -/
theorem monthEnd_add_le {year mon : Int} (hyear : 0 ≤ year) (hmon : 1 ≤ mon) (hmon' : mon ≤ 12) :
    monthEnd year mon + daysIn year mon ≤ monthEnd (year + 1) 1 := by
  have hsucc := monthEnd_december hyear
  by_cases hlt : mon < 12
  · have hdays := monthEnd_succ hyear hmon hlt
    have hrest : monthEnd year (mon + 1) ≤ monthEnd year 12 :=
      monthEnd_le_of_mon_le hyear (by omega) hlt (Int.le_refl 12)
    omega
  · have hdecember : mon = 12 := by omega
    have hdays : daysIn year 12 = 31 := rfl
    rw [hdecember, hdays]
    omega

namespace CalendarDate

variable {d d' : CalendarDate}

theorem jd_eq (d : CalendarDate) : d.jd = monthEnd d.year d.mon + d.mday :=
  ymdToJd_eq d.year d.mon d.mday

/-- **The next day has the next number.** -/
theorem next_jd (d : CalendarDate) : d.next.jd = d.jd + 1 := by
  obtain ⟨hyear, hmon, hmon', hpos, hle⟩ := d.isDate
  rw [jd_eq d]
  unfold next
  split
  · rw [jd_eq]
    dsimp only
    omega
  · next hday =>
      split
      · next hlt =>
          have hsucc := monthEnd_succ hyear hmon hlt
          rw [jd_eq]
          dsimp only
          omega
      · next hlt =>
          have hdecember : d.mon = 12 := by omega
          have hdays : daysIn d.year 12 = 31 := rfl
          have hsucc := monthEnd_december hyear
          rw [hdecember] at hle hday ⊢
          rw [jd_eq]
          dsimp only
          omega

/-- **A later day has a greater number.** -/
theorem jd_lt (h : d.Before d') : d.jd < d'.jd := by
  obtain ⟨hyear, hmon, hmon', hpos, hle⟩ := d.isDate
  obtain ⟨hyear₁, hmon₁, hmon₁', hpos₁, -⟩ := d'.isDate
  rw [jd_eq, jd_eq]
  rcases h with hlt | ⟨heq, hlt | ⟨heq', hlt⟩⟩
  · have hrest := monthEnd_add_le hyear hmon hmon'
    have hyears : monthEnd (d.year + 1) 1 ≤ monthEnd d'.year 1 :=
      monthEnd_le_of_year_le (by omega) hlt
    have hmons := monthEnd_le_of_mon_le hyear₁ (Int.le_refl 1) hmon₁ hmon₁'
    omega
  · have hsucc := monthEnd_succ hyear hmon (by omega)
    have hmons := monthEnd_le_of_mon_le hyear (by omega) hlt hmon₁'
    rw [← heq]
    omega
  · rw [heq, heq']
    omega

theorem jd_nonneg (d : CalendarDate) : 0 ≤ d.jd := Int.le_of_lt d.isDate.ymdToJd_pos

/-- Up to the year 200000 a day is well inside the type. -/
theorem jd_le (d : CalendarDate) (hyear : d.year ≤ 200000) : d.jd ≤ 75000000 := by
  obtain ⟨hyear', hmon, hmon', -, hle⟩ := d.isDate
  have hrest := monthEnd_add_le hyear' hmon hmon'
  have hyears : monthEnd (d.year + 1) 1 ≤ monthEnd 200001 1 :=
    monthEnd_le_of_year_le (by omega) (by omega)
  have hlast : monthEnd 200001 1 ≤ 75000000 := by decide
  rw [jd_eq]
  omega

theorem isoToJd32_eq (d : CalendarDate) (hyear : d.year ≤ 200000) :
    isoToJd32 (.of d.iso) = .of d.jd := by
  have hmday := d.isDate.mday_le_31
  obtain ⟨hyears, hmons, hdays⟩ := d.isDate.ymdToIso_parts
  obtain ⟨hyear', hmon, hmon', hpos, -⟩ := d.isDate
  have hfits : Lib.Fits int32 d.iso := by
    unfold iso ymdToIso
    exact fits_int32 (by omega) (by omega)
  have hfits' : Lib.Fits int32 100 := by decide
  unfold isoToJd32
  simp only [ofNat_eq]
  rw [of_div hfits (by decide), of_div hfits (by decide), of_mod (by decide) hfits',
    of_mod (by decide) hfits', iso, hyears, hmons, hdays, of_sub (fits_int32 (by omega) (by omega)),
    ymdToJd32_eq hyear' hyear hmon hmon' hpos hmday, jd]

/-- **The conversions are a faithful calendar**, and nothing in them overflows. -/
theorem julianDay_faithful (d : CalendarDate) (hle : d.year ≤ 200000) :
    (jdToIso d.jd = d.iso ∧ isoToJd d.iso = d.jd) ∧
    (d.next.jd = d.jd + 1 ∧ ∀ d' : CalendarDate, d.Before d' → d.jd < d'.jd) ∧
    ymdToIso32 (.of d.year) (.of (d.mon - 1)) (.of d.mday) = .of d.iso ∧
    ymdToJd32 (.of d.year) (.of (d.mon - 1)) (.of d.mday) = .of d.jd ∧
    isoToJd32 (.of d.iso) = .of d.jd ∧ jdToIso32 (.of d.jd) = .of d.iso := by
  have hmday := d.isDate.mday_le_31
  obtain ⟨hyear, hmon, hmon', hday, -⟩ := d.isDate
  have hiso : jdToIso d.jd = d.iso := d.isDate.jdToIso_ymdToJd
  refine ⟨⟨hiso, d.isDate.isoToJd_ymdToIso⟩, ⟨next_jd d, fun d' h => jd_lt h⟩, ?_, ?_, ?_, ?_⟩
  · exact ymdToIso32_eq hyear hle hmon hmon' hday hmday
  · exact ymdToJd32_eq hyear hle hmon hmon' hday hmday
  · exact isoToJd32_eq d hle
  · rw [jdToIso32_eq (jd_nonneg d) (jd_le d hle), hiso]

/-- The last day of the year 200000. -/
def lastDay : CalendarDate where
  year := 200000
  mon := 12
  mday := 31
  isDate := ⟨by decide, by decide, by decide, by decide, by decide⟩

theorem lastDay_faithful : jdToIso32 (.of lastDay.jd) = .of 2000001231 ∧
    lastDay.next.jd = lastDay.jd + 1 := by
  have h := julianDay_faithful lastDay (by decide)
  exact ⟨h.2.2.2.2.2, h.2.1.1⟩

end CalendarDate

end Swirly
