import Swirly.Ash.Types

/-!
# Swirly.Ash.JulianDay

**Dates as numbers.** The engine counts days by the Julian day, and shows a date as the
number whose digits are the year, month and day. `ymdToJd` and `jdToIso` are a pair of
formulas in integers alone; for every date of the calendar the second undoes the first
(`jdToIso_ymdToJd`), and so a date that is stored as a day is shown as it was given
(`jdToIso_isoToJd`).

Both formulas let the year begin in March, so that the day that comes and goes is its last.
In a `MarchDate` each division of `jdToIso` gives back one of the four parts.
-/

namespace Swirly

/-- Gregorian to ISO8601 date: the eight digits as a number. The month counts from zero here, as
in the source. -/
def ymdToIso (year mon mday : Int) : Int := year * 10000 + (mon + 1) * 100 + mday

/-- Gregorian date to Julian day, in exact integers with the source's truncating divisions.
Nothing tests that there is such a date. -/
def ymdToJd (year mon mday : Int) : Int :=
  let i := year
  let j := mon + 1
  let k := mday
  k - 32075 + (1461 * (i + 4800 + (j - 14).tdiv 12)).tdiv 4
    + (367 * (j - 2 - (j - 14).tdiv 12 * 12)).tdiv 12
    - (3 * ((i + 4900 + (j - 14).tdiv 12).tdiv 100)).tdiv 4

/-- ISO8601 to Julian day: the digits are taken apart and counted as a date, whether or not they
show one. -/
def isoToJd (iso : Int) : Int :=
  let year := iso.tdiv 10000
  let mon := (iso.tdiv 100).tmod 100 - 1
  let mday := iso.tmod 100
  ymdToJd year mon mday

/-- ISO8601 to Julian day if argument is non-zero. -/
def maybeIsoToJd (iso : Int) : Int := if iso ≠ 0 then isoToJd iso else 0

/-- The days of a month; the months count from 1. -/
def daysIn (year mon : Int) : Int :=
  if mon = 2 then
    if year % 4 = 0 ∧ (year % 100 ≠ 0 ∨ year % 400 = 0) then 29 else 28
  else if mon = 4 ∨ mon = 6 ∨ mon = 9 ∨ mon = 11 then 30
  else 31

/-- A date of the calendar: a month of twelve, and a day that this month has in this year. -/
structure IsDate (year mon mday : Int) : Prop where
  year_nonneg : 0 ≤ year
  mon_pos : 1 ≤ mon
  mon_le : mon ≤ 12
  mday_pos : 1 ≤ mday
  mday_le : mday ≤ daysIn year mon

/-- A number that shows a date, or zero for none. -/
inductive DateOrNone : Int → Prop
  | none : DateOrNone 0
  | date {year mon mday : Int} (h : IsDate year mon mday) :
      DateOrNone (ymdToIso year (mon - 1) mday)

/-! ### Years from March -/

/-- A date of the years that begin in March: the centuries since 4900 years before the year
zero, the year of the century, the month and the day. -/
structure MarchDate (C e M d : Int) : Prop where
  century_nonneg : 0 ≤ C
  year_nonneg : 0 ≤ e
  year_le : e ≤ 99
  mon_pos : 1 ≤ M
  mon_le : M ≤ 12
  mday_pos : 1 ≤ d
  mday_le : d ≤ 31
  short : M = 2 ∨ M = 4 ∨ M = 7 ∨ M = 9 → d ≤ 30
  last : M = 12 → d ≤ 29
  /-- The year in which the last month has its last day ends in a leap year. -/
  leap : M = 12 → d = 29 → e % 4 = 3 ∧ (e = 99 → C % 4 = 0)

/-- The day of the year, from zero. -/
def yearDay (M d : Int) : Int := d + 367 * M / 12 - 31

/-- The days that `jdToIso` counts. -/
def marchDay (C e M d : Int) : Int := 36525 * C - 3 * C / 4 + 1461 * e / 4 + yearDay M d

section March

variable {C e M d : Int}

namespace MarchDate

theorem yearDay_nonneg (h : MarchDate C e M d) : 0 ≤ yearDay M d := by
  obtain ⟨-, -, -, hM, -, hd, -⟩ := h
  unfold yearDay
  omega

/-- The last day of a leap year is the only one of its number. -/
theorem yearDay_le (h : MarchDate C e M d) :
    yearDay M d ≤ 364 ∨ yearDay M d = 365 ∧ e % 4 = 3 ∧ (e = 99 → C % 4 = 0) := by
  obtain ⟨-, -, -, hM, hM', hd, hd', hshort, hlast, hleap⟩ := h
  unfold yearDay
  by_cases hM12 : M = 12
  · subst hM12
    by_cases hd29 : d = 29
    · subst hd29
      exact Or.inr ⟨by decide, hleap rfl rfl⟩
    · have := hlast rfl
      omega
  · omega

theorem century_eq (h : MarchDate C e M d) : 4 * marchDay C e M d / 146097 = C := by
  have hnonneg := h.yearDay_nonneg
  have hle := h.yearDay_le
  have hyear := h.year_nonneg
  have hyear' := h.year_le
  unfold marchDay
  omega

theorem year_eq (h : MarchDate C e M d) :
    4000 * (1461 * e / 4 + yearDay M d + 1) / 1461001 = e := by
  have hnonneg := h.yearDay_nonneg
  have hle := h.yearDay_le
  have hyear := h.year_nonneg
  have hyear' := h.year_le
  omega

theorem month_eq (h : MarchDate C e M d) :
    80 * (d + 367 * M / 12) / 2447 = M ∧ d + 367 * M / 12 - 2447 * M / 80 = d := by
  obtain ⟨-, -, -, hM, hM', hd, hd', hshort, hlast, -⟩ := h
  have hcases : M = 1 ∨ M = 2 ∨ M = 3 ∨ M = 4 ∨ M = 5 ∨ M = 6 ∨ M = 7 ∨ M = 8 ∨ M = 9 ∨
      M = 10 ∨ M = 11 ∨ M = 12 := by omega
  rcases hcases with rfl | rfl | rfl | rfl | rfl | rfl | rfl | rfl | rfl | rfl | rfl | rfl <;>
    omega

/-- **Each division gives back a part of the date.** -/
theorem jdToIso_eq (h : MarchDate C e M d) {jd : Int} (hjd : jd + 68569 = marchDay C e M d) :
    jdToIso jd = ymdToIso (100 * (C - 49) + e + M / 11) (M + 2 - 12 * (M / 11) - 1) d := by
  have hC := h.century_nonneg
  have he := h.year_nonneg
  have hM := h.mon_pos
  have hx := h.yearDay_nonneg
  have hd : 0 ≤ d + 367 * M / 12 := by
    have hmday := h.mday_pos
    omega
  have hcentury : (4 * (jd + 68569)).tdiv 146097 = C := by
    have hnonneg : 0 ≤ marchDay C e M d := by
      unfold marchDay
      omega
    rw [hjd, Int.tdiv_eq_ediv_of_nonneg (by omega), h.century_eq]
  have hrest : jd + 68569 - (146097 * C + 3).tdiv 4 = 1461 * e / 4 + yearDay M d := by
    rw [hjd, marchDay, Int.tdiv_eq_ediv_of_nonneg (by omega)]
    omega
  have hyear : (4000 * (1461 * e / 4 + yearDay M d + 1)).tdiv 1461001 = e := by
    rw [Int.tdiv_eq_ediv_of_nonneg (by omega), h.year_eq]
  have hday : 1461 * e / 4 + yearDay M d - (1461 * e).tdiv 4 + 31 = d + 367 * M / 12 := by
    rw [Int.tdiv_eq_ediv_of_nonneg (by omega), yearDay]
    omega
  have hmon : (80 * (d + 367 * M / 12)).tdiv 2447 = M := by
    rw [Int.tdiv_eq_ediv_of_nonneg (by omega), h.month_eq.1]
  have hmday : d + 367 * M / 12 - (2447 * M).tdiv 80 = d := by
    rw [Int.tdiv_eq_ediv_of_nonneg (by omega), h.month_eq.2]
  have hcarry : M.tdiv 11 = M / 11 := Int.tdiv_eq_ediv_of_nonneg (by omega)
  unfold jdToIso ymdToIso
  dsimp only
  rw [hcentury, hrest, hyear, hday, hmon, hmday, hcarry]
  omega

end MarchDate

end March

/-! ### Dates of the calendar -/

section Dates

variable {year mon mday : Int}

namespace IsDate

theorem mday_le_31 (h : IsDate year mon mday) : mday ≤ 31 := by
  have hle := h.mday_le
  unfold daysIn at hle
  split at hle
  · split at hle <;> omega
  · split at hle <;> omega

/-- A date of January or February is one of the year before. -/
theorem exists_marchDate (h : IsDate year mon mday) : ∃ C e M,
    MarchDate C e M mday ∧ ymdToJd year (mon - 1) mday + 68569 = marchDay C e M mday ∧
    100 * (C - 49) + e + M / 11 = year ∧ M + 2 - 12 * (M / 11) = mon := by
  have hmday := h.mday_le_31
  obtain ⟨hyear, hmon, hmon', hpos, hle⟩ := h
  obtain ⟨a, ha, hcases⟩ : ∃ a, (mon - 14).tdiv 12 = a ∧
      (mon ≤ 2 ∧ a = -1 ∨ 3 ≤ mon ∧ a = 0) := by
    refine ⟨_, rfl, ?_⟩
    have hneg : mon - 14 = -(14 - mon) := by omega
    rw [hneg, Int.neg_tdiv, Int.tdiv_eq_ediv_of_nonneg (by omega)]
    omega
  refine ⟨(year + a + 4900) / 100, (year + a + 4900) % 100, mon - 2 - 12 * a, ?_, ?_, ?_, ?_⟩
  · unfold daysIn at hle
    refine ⟨by omega, by omega, by omega, by omega, by omega, hpos, hmday, ?_, ?_, ?_⟩
    · intro hM
      rw [if_neg (by omega), if_pos (by omega)] at hle
      exact hle
    · intro hM
      rw [if_pos (by omega)] at hle
      split at hle <;> omega
    · intro hM hd
      rw [if_pos (by omega)] at hle
      split at hle
      · next hleap => omega
      · omega
  · have hcentury : (year + 4900 + a).tdiv 100 = (year + a + 4900) / 100 := by
      rw [Int.tdiv_eq_ediv_of_nonneg (by omega)]
      omega
    have hM : mon - 2 - a * 12 = mon - 2 - 12 * a := by omega
    unfold ymdToJd marchDay yearDay
    dsimp only
    rw [Int.sub_add_cancel, ha, hM, hcentury,
      Int.tdiv_eq_ediv_of_nonneg (by omega : 0 ≤ 1461 * (year + 4800 + a)),
      Int.tdiv_eq_ediv_of_nonneg (by omega : 0 ≤ 367 * (mon - 2 - 12 * a)),
      Int.tdiv_eq_ediv_of_nonneg (by omega : 0 ≤ 3 * ((year + a + 4900) / 100))]
    omega
  · omega
  · omega

/-- **The day of a date is shown as the date.** -/
theorem jdToIso_ymdToJd (h : IsDate year mon mday) :
    jdToIso (ymdToJd year (mon - 1) mday) = ymdToIso year (mon - 1) mday := by
  obtain ⟨C, e, M, hmarch, hjd, hyear, hmon⟩ := h.exists_marchDate
  rw [hmarch.jdToIso_eq hjd, hyear, hmon]

/-- A day is never the one that stands for no date. -/
theorem ymdToJd_pos (h : IsDate year mon mday) : 0 < ymdToJd year (mon - 1) mday := by
  obtain ⟨C, e, M, hmarch, hjd, hyear, hmon⟩ := h.exists_marchDate
  have hx := hmarch.yearDay_nonneg
  have he := hmarch.year_nonneg
  have hM := hmarch.mon_le
  have hnonneg := h.year_nonneg
  have hle := hmarch.year_le
  unfold marchDay at hjd
  omega

/-- The digits of a date are read back. -/
theorem ymdToIso_parts (h : IsDate year mon mday) :
    (ymdToIso year (mon - 1) mday).tdiv 10000 = year ∧
    ((ymdToIso year (mon - 1) mday).tdiv 100).tmod 100 = mon ∧
    (ymdToIso year (mon - 1) mday).tmod 100 = mday := by
  have hmday := h.mday_le_31
  obtain ⟨hyear, hmon, hmon', hpos, -⟩ := h
  unfold ymdToIso
  refine ⟨?_, ?_, ?_⟩
  · rw [Int.tdiv_eq_ediv_of_nonneg (by omega)]
    omega
  · rw [Int.tdiv_eq_ediv_of_nonneg (by omega), Int.tmod_eq_emod_of_nonneg (by omega)]
    omega
  · rw [Int.tmod_eq_emod_of_nonneg (by omega)]
    omega

theorem isoToJd_ymdToIso (h : IsDate year mon mday) :
    isoToJd (ymdToIso year (mon - 1) mday) = ymdToJd year (mon - 1) mday := by
  obtain ⟨hyear, hmon, hday⟩ := h.ymdToIso_parts
  unfold isoToJd
  dsimp only
  rw [hyear, hmon, hday]

end IsDate

theorem DateOrNone.nonneg {iso : Int} (h : DateOrNone iso) : 0 ≤ iso := by
  cases h with
  | none => exact Int.le_refl 0
  | date h =>
      obtain ⟨hyear, hmon, -, hpos, -⟩ := h
      unfold ymdToIso
      omega

/-- **A date that is stored as a day is shown as it was given.** -/
theorem DateOrNone.maybeJdToIso_maybeIsoToJd {iso : Int} (h : DateOrNone iso) :
    maybeJdToIso (maybeIsoToJd iso) = iso := by
  cases h with
  | none => rfl
  | date h =>
      next year mon mday =>
      have hne : ymdToIso year (mon - 1) mday ≠ 0 := by
        obtain ⟨hyear, hmon, -, hpos, -⟩ := h
        unfold ymdToIso
        omega
      rw [maybeIsoToJd, if_pos hne, h.isoToJd_ymdToIso, maybeJdToIso, if_pos h.ymdToJd_pos.ne',
        h.jdToIso_ymdToJd]

end Dates

end Swirly
