import Mathlib.Data.Int.ConditionallyCompleteOrder
import Mathlib.Data.Prod.Lex
import Mathlib.Tactic.IntervalCases

/-!
# The proleptic Gregorian calendar

A date is a year, a month and a day that exist together, and `Date.next` is the day after
it. Everything else is derived from this one operation: the date of the `n`-th day after the
epoch is `n` times the day after, and the weekday turns with it.

For arithmetic a date has an `index`, the number of days since the first of March of the
year 0. Years that begin in March end with the leap day, so that the index is a sum of a
term of the year and a term of the day in the year, and it grows by one with each day.
-/

namespace Proteus.Calendar

variable (y : ℤ)

/-- Every fourth year is a leap year, except for the centuries that 400 does not divide. -/
def isLeap : Bool :=
  y % 4 = 0 ∧ (y % 100 ≠ 0 ∨ y % 400 = 0)

variable (m : ℕ)

def daysInMonth : ℕ :=
  if m = 2 then if isLeap y then 29 else 28
  else if m = 4 ∨ m = 6 ∨ m = 9 ∨ m = 11 then 30
  else 31

theorem daysInMonth_pos : 0 < daysInMonth y m := by
  unfold daysInMonth
  split_ifs <;> decide

theorem daysInMonth_le : daysInMonth y m ≤ 31 := by
  unfold daysInMonth
  split_ifs <;> decide

/-- A day of the calendar: only dates that exist can be built. -/
@[ext] structure Date where
  year : ℤ
  month : ℕ
  day : ℕ
  month_pos : 0 < month
  month_le : month ≤ 12
  day_pos : 0 < day
  day_le : day ≤ daysInMonth year month

def newYear : Date :=
  ⟨y, 1, 1, Nat.one_pos, by decide, Nat.one_pos, daysInMonth_pos y 1⟩

/-- The first of January 1970. -/
def epoch : Date := newYear 1970

/-! ## The day after -/

variable (d : Date)

def Date.next : Date :=
  if h : d.day < daysInMonth d.year d.month then
    ⟨d.year, d.month, d.day + 1, d.month_pos, d.month_le, Nat.succ_pos _, h⟩
  else if h' : d.month < 12 then
    ⟨d.year, d.month + 1, 1, Nat.succ_pos _, h', Nat.one_pos, daysInMonth_pos _ _⟩
  else newYear (d.year + 1)

variable (n : ℕ)

/-- The date `n` days after the epoch. -/
def civil : Date := Date.next^[n] epoch

theorem civil_succ : civil (n + 1) = (civil n).next :=
  Function.iterate_succ_apply' _ _ _

/-- What `next` does to the date, with what is known of the date in each case. -/
inductive Follows (d e : Date) : Prop
  | day (y : e.year = d.year) (m : e.month = d.month) (s : e.day = d.day + 1)
  | month (last : d.day = daysInMonth d.year d.month) (y : e.year = d.year)
      (m : e.month = d.month + 1) (s : e.day = 1)
  | year (last : d.day = 31) (december : d.month = 12) (y : e.year = d.year + 1)
      (m : e.month = 1) (s : e.day = 1)

theorem Date.follows_next : Follows d d.next := by
  unfold Date.next
  have hle := d.day_le
  split_ifs with h h'
  · exact .day rfl rfl rfl
  · exact .month (by omega) rfl rfl rfl
  · have hm : d.month = 12 := by have := d.month_le; omega
    refine .year ?_ hm rfl rfl rfl
    rw [hm] at h hle
    have h31 : daysInMonth d.year 12 = 31 := by simp [daysInMonth]
    omega

/-! ## Order -/

/-- Year, month and day, compared in this order. -/
def Date.key : ℤ ×ₗ ℤ ×ₗ ℤ := toLex (d.year, toLex ((d.month : ℤ), (d.day : ℤ)))

theorem Date.key_lt_next : d.key < d.next.key := by
  have h := d.follows_next
  unfold Date.key
  rw [Prod.Lex.toLex_lt_toLex, Prod.Lex.toLex_lt_toLex]
  cases h with
  | day y m s => exact .inr ⟨y.symm, .inr ⟨by simp only [m], by simp only [s]; omega⟩⟩
  | month last y m s => exact .inr ⟨y.symm, .inl (by simp only [m]; omega)⟩
  | year last dec y m s => exact .inl (by simp only [y]; omega)

theorem civil_key_strictMono : StrictMono fun n => (civil n).key := by
  apply strictMono_nat_of_lt_succ
  intro n
  rw [civil_succ]
  exact (civil n).key_lt_next

/-! ## Days of the week -/

/-- The days of the week are counted from Sunday, which is 1. -/
def nextWeekday (w : ℕ) : ℕ := if w = 7 then 1 else w + 1

/-- The epoch is a Thursday. -/
def weekday : ℕ := nextWeekday^[n] 5

theorem weekday_succ : weekday (n + 1) = nextWeekday (weekday n) :=
  Function.iterate_succ_apply' _ _ _

theorem weekday_eq : weekday n = (n + 4) % 7 + 1 := by
  induction n with
  | zero => rfl
  | succ n ih =>
    rw [weekday_succ, ih, nextWeekday]
    split_ifs <;> omega

/-! ## Counting days from March -/

/-- Days from the first of March of the year 0 to that of the year `y`. -/
def marchStart : ℤ := 365 * y + y / 4 - y / 100 + y / 400

theorem marchStart_succ :
    marchStart (y + 1) = marchStart y + if isLeap (y + 1) then 366 else 365 := by
  simp only [marchStart, isLeap, decide_eq_true_eq]
  split_ifs with h <;> omega

theorem add_le_marchStart {x y : ℤ} (h : x < y) : marchStart x + 365 ≤ marchStart y := by
  simp only [marchStart]
  omega

/-- Two first days of March with less than a year between them are the same. -/
theorem eq_of_marchStart_close {x y : ℤ} (h : marchStart x < marchStart y + 365)
    (h' : marchStart y < marchStart x + 365) : x = y := by
  rcases lt_trichotomy x y with hlt | heq | hgt
  · have := add_le_marchStart hlt
    omega
  · exact heq
  · have := add_le_marchStart hgt
    omega

namespace Date

/-- January and February belong to the March year that began in the year before. -/
def marchYear : ℤ := if d.month ≤ 2 then d.year - 1 else d.year

/-- Full months since the last first of March. -/
def marchMonth : ℕ := if d.month ≤ 2 then d.month + 9 else d.month - 3

/-- Full days since the last first of March: the months from March on have 31, 30, 31, 30,
31 days and so on, which is `153 / 5` on average. -/
def marchDay : ℕ := (153 * d.marchMonth + 2) / 5 + (d.day - 1)

def index : ℤ := marchStart d.marchYear + d.marchDay

/-- A March year has its 366th day when the civil year it ends in is a leap year. -/
theorem marchDay_le : d.marchDay ≤ 364 ∨ d.marchDay = 365 ∧ isLeap (d.marchYear + 1) := by
  have hd := d.day_le
  have h12 := d.month_le
  unfold marchDay marchMonth marchYear
  unfold daysInMonth at hd
  by_cases h2 : d.month = 2
  · simp only [h2, if_true, le_refl, Int.sub_add_cancel] at hd ⊢
    split_ifs at hd with hl
    · by_cases h29 : d.day = 29
      · exact .inr ⟨by omega, hl⟩
      · exact .inl (by omega)
    · exact .inl (by omega)
  · left
    split_ifs at hd ⊢ <;> omega

/-- The month is read off the day in the March year. -/
theorem marchMonth_eq : d.marchMonth = (5 * d.marchDay + 2) / 153 := by
  have hd := d.day_le
  have h12 := d.month_le
  unfold marchDay marchMonth
  unfold daysInMonth at hd
  have hleap : (if isLeap d.year then 29 else 28) ≤ 29 := by split_ifs <;> decide
  generalize d.month = k at *
  -- the bound of the day depends on the month, so the months are taken one by one
  interval_cases k <;> simp at hd ⊢ <;> omega

/-- The first of a month follows the last of the month before it. -/
theorem marchDay_month {d e : Date} (last : d.day = daysInMonth d.year d.month)
    (m : e.month = d.month + 1) (s : e.day = 1) (h2 : d.month ≠ 2) : e.marchDay = d.marchDay + 1 := by
  have h12 := e.month_le
  simp only [daysInMonth, h2, if_false] at last
  simp only [marchDay, marchMonth, m, s, last]
  generalize d.month = k at *
  have h11 : k ≤ 11 := by omega
  interval_cases k <;> first | rfl | contradiction

theorem index_next : d.next.index = d.index + 1 := by
  unfold index
  have hp := d.day_pos
  cases d.follows_next with
  | day y m s =>
    simp only [marchYear, marchDay, marchMonth, y, m, s]
    omega
  | month last y m s =>
    by_cases h2 : d.month = 2
    · -- from the last day of February to the first day of the next March year
      have hy : d.next.marchYear = d.marchYear + 1 := by simp only [marchYear, y, m, h2]; simp
      rw [hy, marchStart_succ]
      simp only [daysInMonth, h2, if_true] at last
      have hle : d.marchYear + 1 = d.year := by simp only [marchYear, h2]; simp
      rw [hle]
      simp only [marchDay, marchMonth, m, s, h2, last]
      split_ifs <;> simp <;> omega
    · have hy : d.next.marchYear = d.marchYear := by
        simp only [marchYear, y, m]
        split_ifs <;> omega
      rw [hy, marchDay_month last m s h2]
      omega
  | year last dec y m s =>
    have hy : d.next.marchYear = d.marchYear := by simp [marchYear, y, m, dec]
    rw [hy]
    simp only [marchDay, marchMonth, m, s, last, dec]
    simp
    omega

theorem index_iterate (k : ℕ) : (next^[k] d).index = d.index + k := by
  induction k with
  | zero => simp
  | succ k ih =>
    rw [Function.iterate_succ_apply', index_next, ih]
    push_cast
    omega

/-- A day comes before the March year that follows its own. -/
theorem index_lt_marchStart {d : Date} {y : ℤ} (h : d.marchYear < y) : d.index < marchStart y := by
  have hs := marchStart_succ d.marchYear
  have hmono : marchStart (d.marchYear + 1) ≤ marchStart y := by
    rcases Int.lt_or_eq_of_le (Int.add_one_le_of_lt h) with hlt | heq
    · have := add_le_marchStart hlt
      omega
    · rw [heq]
  unfold index
  rcases d.marchDay_le with hd | ⟨hd, hl⟩
  · split_ifs at hs <;> omega
  · rw [if_pos hl] at hs
    omega

theorem index_injective : Function.Injective index := by
  intro d e h
  have hy : d.marchYear = e.marchYear := by
    rcases lt_trichotomy d.marchYear e.marchYear with hlt | heq | hgt
    · have := index_lt_marchStart hlt
      unfold index at h this
      omega
    · exact heq
    · have := index_lt_marchStart hgt
      unfold index at h this
      omega
  have hs : d.marchDay = e.marchDay := by
    unfold index at h
    rw [hy] at h
    omega
  have hm : d.marchMonth = e.marchMonth := by rw [marchMonth_eq, marchMonth_eq, hs]
  have hpd := d.day_pos
  have hpe := e.day_pos
  have hmd := d.month_pos
  have hme := e.month_pos
  have hld := d.month_le
  have hle := e.month_le
  have hday : d.day = e.day := by
    unfold marchDay at hs
    omega
  unfold marchMonth at hm
  unfold marchYear at hy
  have hmonth : d.month = e.month := by split_ifs at hm <;> omega
  rw [hmonth] at hy
  have hyear : d.year = e.year := by split_ifs at hy <;> omega
  exact Date.ext hyear hmonth hday

theorem index_newYear : (newYear y).index = marchStart (y - 1) + 306 := by
  simp [index, marchDay, marchMonth, marchYear, newYear]

/-- The days of a year: 365 after its first one only exist in a leap year. -/
theorem index_year_bounds :
    (newYear d.year).index ≤ d.index ∧ (d.index ≤ (newYear d.year).index + 364 ∨
      d.index = (newYear d.year).index + 365 ∧ isLeap d.year) := by
  have hd := d.day_le
  have h0 := d.month_pos
  have h12 := d.month_le
  rw [index_newYear]
  unfold index marchYear marchDay marchMonth
  have hs := marchStart_succ (d.year - 1)
  rw [Int.sub_add_cancel] at hs
  unfold daysInMonth at hd
  by_cases hm : d.month ≤ 2
  · simp only [hm, if_true]
    split_ifs at hd <;> omega
  · simp only [hm, if_false]
    by_cases hl : isLeap d.year
    · simp only [hl, and_true, if_true] at hs ⊢
      split_ifs at hd <;> omega
    · simp only [hl, if_false, Bool.false_eq_true] at hs
      split_ifs at hd <;> omega

end Date

/-- The quarter of a month. -/
def quarter : ℕ := (m - 1) / 3 + 1

theorem civil_index : (civil n).index = n + 719468 := by
  have h : epoch.index = 719468 := by decide
  rw [civil, Date.index_iterate, h]
  omega

end Proteus.Calendar
