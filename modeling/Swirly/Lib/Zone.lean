import Mathlib.Order.Basic

/-!
# Swirly.Lib.Zone

**Dates in a zone with summer time.** The clock of a `Zone` is ahead of its standard time in
summer, and it is put forward and back at one hour of a night. Which nights these are does not
matter for the dates: they never go back, although the clock does (`Zone.date_mono`), and what
the date will be some hours later can be told from the clock, as if it were not turned meanwhile
(`Zone.date_add`).

Times are in milliseconds, and universal where nothing else is said.
-/

namespace Lib

/-- The length of a day. -/
def day : Int := 86400000

/-- A zone: its clock is ahead in summer, and is turned at one time of the day. Which days that
happens on is left open, in whatever years. -/
structure Zone where
  /-- Standard time, less universal time. -/
  base : Int
  /-- By how much the clock is ahead in summer. -/
  save : Int
  /-- What the clock shows when it is turned. -/
  turn : Int
  /-- Is it summer? -/
  summer : Int → Bool
  save_nonneg : 0 ≤ save
  save_le_turn : save ≤ turn
  turn_le_day : turn ≤ day
  /-- From winter to summer, the standard time passes `turn`. -/
  forward : ∀ u u', u ≤ u' → summer u = false → summer u' = true →
    ∃ d, u + base < d * day + turn ∧ d * day + turn ≤ u' + base
  /-- From summer to winter, the summer time does. -/
  back : ∀ u u', u ≤ u' → summer u = true → summer u' = false →
    ∃ d, u + base + save < d * day + turn ∧ d * day + turn ≤ u' + base + save

namespace Zone

variable (z : Zone)

/-- What the clock and the calendar show. -/
def localTime (u : Int) : Int := u + z.base + if z.summer u then z.save else 0

/-- The day that the calendar of the zone shows at a time. -/
def date (u : Int) : Int := z.localTime u / day

/-- The time of the day that the clock of the zone shows. -/
def clock (u : Int) : Int := z.localTime u % day

variable {z}

theorem localTime_winter {u : Int} (h : z.summer u = false) : z.localTime u = u + z.base := by
  simp [localTime, h]

theorem localTime_summer {u : Int} (h : z.summer u = true) :
    z.localTime u = u + z.base + z.save := by
  simp [localTime, h]

/-- A day, by the time at which it begins and ends. -/
theorem date_eq_iff {u d : Int} :
    z.date u = d ↔ d * day ≤ z.localTime u ∧ z.localTime u < d * day + day := by
  unfold date day
  omega

/-- **The date never goes back.** Only the turn in autumn puts the clock back, and not past
midnight. -/
theorem date_mono {u u' : Int} (hle : u ≤ u') : z.date u ≤ z.date u' := by
  have hsave := z.save_nonneg
  cases hu : z.summer u with
  | false =>
      have hlocal := localTime_winter hu
      have hlocal' : u' + z.base ≤ z.localTime u' := by
        unfold localTime
        split <;> omega
      exact Int.ediv_le_ediv (by decide) (by omega)
  | true =>
      have hlocal := localTime_summer hu
      cases hu' : z.summer u' with
      | true =>
          have hlocal' := localTime_summer hu'
          exact Int.ediv_le_ediv (by decide) (by omega)
      | false =>
          -- The clock has been put back in the night before the day `d`, or later.
          have hlocal' := localTime_winter hu'
          obtain ⟨d, hlt, hle'⟩ := z.back u u' hle hu hu'
          have hturn := z.save_le_turn
          have hday := z.turn_le_day
          have hbefore : z.localTime u < (d + 1) * day := by
            rw [Int.add_mul]
            omega
          have hafter : d * day ≤ z.localTime u' := by omega
          have hdate : z.date u < d + 1 := Int.ediv_lt_of_lt_mul (by decide) hbefore
          have hdate' : d ≤ z.date u' := (Int.le_ediv_iff_mul_le (by decide)).mpr hafter
          omega

/-- **The date some hours later**: the next one from the hour on from which it is that long to
midnight. The clock may be turned in these hours, if that is done well before they end. -/
theorem date_add (ahead : Int) (hahead : z.save ≤ ahead)
    (hlong : z.turn + ahead + z.save ≤ day) (u : Int) :
    z.date (u + ahead) = z.date u + if day - ahead ≤ z.clock u then 1 else 0 := by
  have hsave := z.save_nonneg
  have hturn := z.save_le_turn
  have hdate : z.date u * day + z.clock u = z.localTime u := Int.ediv_mul_add_emod _ _
  have hclock : 0 ≤ z.clock u := Int.emod_nonneg _ (by decide)
  have hclock' : z.clock u < day := Int.emod_lt_of_pos _ (by decide)
  rw [date_eq_iff]
  cases hu : z.summer u with
  | false =>
      have hlocal := localTime_winter hu
      cases hu' : z.summer (u + ahead) with
      | false =>
          have hlocal' := localTime_winter hu'
          unfold day at *
          split <;> constructor <;> omega
      | true =>
          -- The clock is put forward, in this night or in the one before.
          have hlocal' := localTime_summer hu'
          obtain ⟨d, hlt, hle⟩ := z.forward u _ (by omega) hu hu'
          unfold day at *
          split <;> constructor <;> omega
  | true =>
      have hlocal := localTime_summer hu
      cases hu' : z.summer (u + ahead) with
      | true =>
          have hlocal' := localTime_summer hu'
          unfold day at *
          split <;> constructor <;> omega
      | false =>
          -- The clock is put back.
          have hlocal' := localTime_winter hu'
          obtain ⟨d, hlt, hle⟩ := z.back u _ (by omega) hu hu'
          unfold day at *
          split <;> constructor <;> omega

end Zone

end Lib
