import Swirly.Ash.JulianDay
import Swirly.Lib.Zone

/-!
# Swirly.Elm.Date

**Business days roll at 5 pm in New York.** `getBusDay` takes the date in New York seven hours
later. The time in the zone is what the date library makes of the rule that it is given
(`IsNewYork`); the days on which the clock is turned are of no matter here, only that it is done
at two o'clock. So the business day is the date until 5 pm and the next one afterwards, in the
nights when the clock is turned as in any other (`getBusDay_eq`).
-/

namespace Swirly

open Lib (Zone)

/-- An hour, in milliseconds. -/
def hour : Int := 3600000

/-- Roll at 5pm: the hour of the day from which on a day's business is the next day's. -/
def rollHour : Int := 17

/-- `EST-5EDT,M3.2.0/2,M11.1.0/2`: five hours behind, one less in summer, and two o'clock on the
day when the clock is turned. -/
structure IsNewYork (z : Zone) : Prop where
  base : z.base = -5 * hour
  save : z.save = hour
  turn : z.turn = 2 * hour

/-- `millisToPtime`: the whole seconds and the rest, which has the sign of the time. -/
def millisToPtime (ms : Int) : Int := ms.tdiv 1000 * 1000 + ms.tmod 1000

/-- The Julian day of 1970-01-01, from which times are counted. -/
def epochDay : Int := ymdToJd 1970 0 1

/-- `getBusDay`: the day in New York, and the next one from 5 pm on. The zone is a parameter. A
time beyond the years that the source's calendar has throws there, and is a day like any other
here. -/
def getBusDay (newYork : Zone) (ms : Int) : Int :=
  epochDay + newYork.date (millisToPtime ms + (24 - rollHour) * hour)

theorem millisToPtime_eq (ms : Int) : millisToPtime ms = ms := Int.tdiv_mul_add_tmod ms 1000

section NewYork

variable {z : Zone}

/-- **The business day is the date, or from 5 pm on the next one.** -/
theorem getBusDay_eq (hz : IsNewYork z) (ms : Int) :
    getBusDay z ms = epochDay + z.date ms + if rollHour * hour ≤ z.clock ms then 1 else 0 := by
  have hroll := z.date_add (7 * hour) (by rw [hz.save]; decide)
    (by rw [hz.save, hz.turn]; decide) ms
  unfold getBusDay
  rw [millisToPtime_eq]
  exact (congrArg (epochDay + ·) hroll).trans (Int.add_assoc ..).symm

/-- The business day never goes back. -/
theorem getBusDay_mono {ms ms' : Int} (hle : ms ≤ ms') : getBusDay z ms ≤ getBusDay z ms' := by
  unfold getBusDay
  rw [millisToPtime_eq, millisToPtime_eq]
  have hdate := z.date_mono (Int.add_le_add_right hle ((24 - rollHour) * hour))
  omega

/-- A day is over at 5 pm. -/
theorem getBusDay_le_iff (hz : IsNewYork z) (ms jd : Int) : getBusDay z ms ≤ jd ↔
    epochDay + z.date ms < jd ∨ epochDay + z.date ms = jd ∧ z.clock ms < rollHour * hour := by
  rw [getBusDay_eq hz]
  split <;> omega

end NewYork

namespace Mock

/-- New York in 2014, when it was summer from March 9 to November 2. -/
def newYork : Zone where
  base := -5 * hour
  save := hour
  turn := 2 * hour
  summer u := 1394348400000 ≤ u ∧ u < 1414908000000
  save_nonneg := by decide
  save_le_turn := by decide
  turn_le_day := by decide
  forward u u' hle hu hu' := by
    simp only [decide_eq_false_iff_not, decide_eq_true_eq] at hu hu'
    exact ⟨16138, by unfold hour Lib.day; omega, by unfold hour Lib.day; omega⟩
  back u u' hle hu hu' := by
    simp only [decide_eq_false_iff_not, decide_eq_true_eq] at hu hu'
    exact ⟨16376, by unfold hour Lib.day; omega, by unfold hour Lib.day; omega⟩

theorem newYork_isNewYork : IsNewYork newYork := ⟨rfl, rfl, rfl⟩

end Mock

/-- 5 pm on March 14, 2014. -/
example : getBusDay Mock.newYork 1394830799000 = ymdToJd 2014 2 14 ∧
    getBusDay Mock.newYork 1394830800000 = ymdToJd 2014 2 15 := by decide

end Swirly
