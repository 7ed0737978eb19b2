import Mathlib.Tactic.IntervalCases

/-!
# `kernel_mktime`

`kernelMktime` computes as mktime.c does, and fails where an `int` or a `long` overflows.
`Tm.seconds` counts the days of the months since January 1970, by the Gregorian calendar, and the
time of day. `kernelMktime_seconds`: they agree up to the end of 2037, since the offsets `year + 1`
and `year + 2` count on a leap year every four years, which holds until then (`leap_iff`).

Scope. The fields are natural numbers, as a date from 1970 on has them.
-/

set_option autoImplicit false

namespace EasyKernels.Linux.Mktime

/-- The fields of `struct tm` that are read. -/
structure Tm where
  tmSec : ℕ
  tmMin : ℕ
  tmHour : ℕ
  tmMday : ℕ
  tmMon : ℕ
  tmYear : ℕ

def minute : ℤ := 60
def hour : ℤ := 60 * minute
def day : ℤ := 24 * hour
def year : ℤ := 365 * day

/-- The days before a month, in a leap year. -/
def monthDays : List ℕ := [0, 31, 60, 91, 121, 152, 182, 213, 244, 274, 305, 335]

def month : List ℤ := monthDays.map fun n : ℕ ↦ day * n

/-- A value of type `int` or `long`, if it is one. -/
def int (x : ℤ) : Option ℤ := if -2 ^ 31 ≤ x ∧ x < 2 ^ 31 then some x else none

/-- `res += x`. -/
def add (res x : ℤ) : Option ℤ := do
  let x ← int x
  int (res + x)

variable (tm : Tm)

def kernelMktime : Option ℤ := do
  let y ← int (tm.tmYear - 70)
  let res ← add 0 (year * y)
  let res ← add res (day * (y + 1).tdiv 4)
  let start ← month[tm.tmMon]?
  let res ← add res start
  let res ← add res (if tm.tmMon > 1 ∧ (y + 2).tmod 4 ≠ 0 then -day else 0)
  let res ← add res (day * (tm.tmMday - 1))
  let res ← add res (hour * tm.tmHour)
  let res ← add res (minute * tm.tmMin)
  add res tm.tmSec

/-! ### The calendar -/

/-- The leap years of the Gregorian calendar. -/
def leap (y : ℕ) : Prop := y % 4 = 0 ∧ (y % 100 ≠ 0 ∨ y % 400 = 0)

instance (y : ℕ) : Decidable (leap y) := inferInstanceAs (Decidable (_ ∧ _))

/-- The days of a month; January is month 0. -/
def monthLength (y : ℕ) : ℕ → ℕ
  | 1 => if leap y then 29 else 28
  | 3 | 5 | 8 | 10 => 30
  | _ => 31

/-- The days of the first months since January 1970. -/
def daysBefore : ℕ → ℕ
  | 0 => 0
  | k + 1 => daysBefore k + monthLength (1970 + k / 12) (k % 12)

/-- A date and a time from 1970 on. -/
structure Tm.Valid (tm : Tm) : Prop where
  year_le : 70 ≤ tm.tmYear
  mon_lt : tm.tmMon < 12
  mday_pos : 1 ≤ tm.tmMday
  mday_le : tm.tmMday ≤ monthLength (1900 + tm.tmYear) tm.tmMon
  hour_lt : tm.tmHour < 24
  min_lt : tm.tmMin < 60
  sec_lt : tm.tmSec < 60

/-- The months since January 1970. -/
def Tm.months : ℕ := 12 * (tm.tmYear - 70) + tm.tmMon

/-- The seconds since January 1970. -/
def Tm.seconds : ℕ :=
  86400 * (daysBefore tm.months + (tm.tmMday - 1)) + 3600 * tm.tmHour + 60 * tm.tmMin + tm.tmSec

/-- The fields from the largest unit down. -/
def Tm.fields : List ℕ :=
  [tm.tmYear, tm.tmMon, tm.tmMday, tm.tmHour, tm.tmMin, tm.tmSec]

theorem leap_iff {y : ℕ} (hy : y ≤ 67) : leap (1970 + y) ↔ (y + 2) % 4 = 0 := by
  unfold leap
  omega

theorem monthLength_le (y mon : ℕ) : monthLength y mon ≤ 31 := by
  unfold monthLength
  split
  · split_ifs <;> decide
  all_goals decide

theorem daysBefore_succ {y mon : ℕ} (hmon : mon < 12) :
    daysBefore (12 * y + mon + 1) = daysBefore (12 * y + mon) + monthLength (1970 + y) mon := by
  rw [daysBefore, show (12 * y + mon) / 12 = y by omega, show (12 * y + mon) % 12 = mon by omega]

/-- What the kernel takes off after February, in days. -/
def correction (y mon : ℕ) : ℕ := if 1 < mon ∧ (y + 2) % 4 ≠ 0 then 1 else 0

theorem daysBefore_month {y : ℕ} (mon : ℕ) (hy : y ≤ 67) (hmon : mon < 12) :
    ∃ n, monthDays[mon]? = some n ∧
      daysBefore (12 * y + mon) + correction y mon = daysBefore (12 * y) + n := by
  induction mon with
  | zero => exact ⟨0, rfl, rfl⟩
  | succ mon ih =>
    obtain ⟨n, hn, hsum⟩ := ih (by omega)
    have hmon : mon < 11 := by omega
    rw [← Nat.add_assoc, daysBefore_succ (by omega)]
    interval_cases mon
    all_goals
      obtain rfl := Option.some.inj hn
      refine ⟨_, rfl, ?_⟩
      simp only [correction, monthLength, leap_iff hy] at hsum ⊢
      split_ifs at hsum ⊢ <;> omega

theorem daysBefore_year {y : ℕ} (hy : y ≤ 67) : daysBefore (12 * y) = 365 * y + (y + 1) / 4 := by
  induction y with
  | zero => rfl
  | succ y ih =>
    obtain ⟨n, hn, hsum⟩ := daysBefore_month (y := y) 11 (by omega) (by decide)
    obtain rfl := Option.some.inj hn
    have hold := ih (by omega)
    rw [show 12 * (y + 1) = 12 * y + 11 + 1 by omega, daysBefore_succ (by decide)]
    simp only [correction, monthLength, Nat.add_assoc, Nat.reduceAdd] at hsum ⊢
    split_ifs at hsum <;> omega

theorem daysBefore_lt {k l : ℕ} (h : k < l) :
    daysBefore k + monthLength (1970 + k / 12) (k % 12) ≤ daysBefore l := by
  induction l with
  | zero => omega
  | succ l ih =>
    rcases Nat.lt_succ_iff_lt_or_eq.mp h with hlt | rfl
    · exact (ih hlt).trans (Nat.le_add_right _ _)
    · exact le_rfl

/-! ### The result -/

variable {tm tm' : Tm}

/-- A later moment has more seconds. -/
theorem Tm.Valid.seconds_lt (h : tm.Valid) (h' : tm'.Valid) (hlt : tm.fields < tm'.fields) :
    tm.seconds < tm'.seconds := by
  obtain ⟨hyear, hmon, hpos, hmday, hhour, hmin, hsec⟩ := h
  have hmon' := h'.mon_lt
  have hyear' := h'.year_le
  simp only [fields, List.cons_lt_cons_iff, List.lt_irrefl, and_false, or_false] at hlt
  unfold seconds
  by_cases hmonths : tm.months < tm'.months
  · have hdays := daysBefore_lt hmonths
    rw [show 1970 + tm.months / 12 = 1900 + tm.tmYear by unfold months; omega,
      show tm.months % 12 = tm.tmMon by unfold months; omega] at hdays
    omega
  · unfold months at hmonths ⊢
    obtain ⟨hyears, hmonth⟩ : tm.tmYear = tm'.tmYear ∧ tm.tmMon = tm'.tmMon := by omega
    rw [hyears, hmonth]
    omega

theorem add_bind {res x : ℤ} {f : ℤ → Option ℤ}
    (h : 0 ≤ res ∧ -86400 ≤ x ∧ 0 ≤ res + x ∧ res + x < 2 ^ 31) :
    (add res x).bind f = f (res + x) := by
  rw [add, int, if_pos (by omega)]
  exact congrArg (Option.bind · f) (if_pos (by omega))

theorem Tm.Valid.kernelMktime_eq (h : tm.Valid) (hlast : tm.tmYear ≤ 137) :
    kernelMktime tm = some (tm.seconds : ℤ) := by
  obtain ⟨hyear, hmon, hpos, hmday, hhour, hmin, hsec⟩ := h
  obtain ⟨y, hy⟩ := Nat.exists_eq_add_of_le hyear
  obtain ⟨n, hn, hsum⟩ := daysBefore_month (y := y) _ (by omega) hmon
  have hdays := daysBefore_year (y := y) (by omega)
  have hle : n ≤ 335 := (by decide : ∀ n ∈ monthDays, n ≤ 335) n (List.mem_of_getElem? hn)
  have hlen := hmday.trans (monthLength_le _ _)
  have hcorrection : correction y tm.tmMon ≤ 1 := by
    unfold correction
    split_ifs <;> decide
  obtain ⟨hminute, hhours, hday, hyears⟩ : minute = 60 ∧ hour = 3600 ∧ day = 86400 ∧
    year = 31536000 := by decide
  have hstart : month[tm.tmMon]? = some (86400 * (n : ℤ)) := by simp [month, hn, hday]
  have htdiv : ((y : ℤ) + 1).tdiv 4 = ((y + 1) / 4 : ℕ) := rfl
  have htmod : ((y : ℤ) + 2).tmod 4 = ((y + 2) % 4 : ℕ) := rfl
  have hleap : (if tm.tmMon > 1 ∧ ((y : ℤ) + 2).tmod 4 ≠ 0 then -86400 else 0) =
      -86400 * (correction y tm.tmMon : ℤ) := by
    rw [htmod, correction]
    split_ifs <;> omega
  rw [kernelMktime, int, hstart, hminute, hhours, hday, hyears, Option.bind_eq_bind,
    show (tm.tmYear : ℤ) - 70 = y by omega, if_pos (by omega), Option.bind_some, htdiv, hleap,
    add_bind (by omega), add_bind (by omega), Option.bind_some, add_bind (by omega),
    add_bind (by omega), add_bind (by omega), add_bind (by omega), add_bind (by omega), seconds,
    months, show tm.tmYear - 70 = y by omega, ← Option.bind_fun_some (add _ _),
    add_bind (by omega)]
  congr 1
  omega

/-- The seconds since 1970 for every date and time up to 2037, which grow with them. -/
theorem kernelMktime_seconds (tm tm' : Tm) (h : tm.Valid) (h' : tm'.Valid)
    (hlast : tm.tmYear ≤ 137) (hlast' : tm'.tmYear ≤ 137) :
    kernelMktime tm = some (tm.seconds : ℤ) ∧ (tm.fields < tm'.fields →
      ∃ a b, kernelMktime tm = some a ∧ kernelMktime tm' = some b ∧ a < b) :=
  ⟨h.kernelMktime_eq hlast, fun hlt ↦ ⟨_, _, h.kernelMktime_eq hlast, h'.kernelMktime_eq hlast',
    Int.ofNat_lt.mpr (h.seconds_lt h' hlt)⟩⟩

/-- The last second of 2037, after the first of March 2000. -/
theorem kernelMktime_last : kernelMktime ⟨59, 59, 23, 31, 11, 137⟩ = some 2145916799 ∧
    ∃ a b, kernelMktime ⟨0, 0, 0, 1, 2, 100⟩ = some a ∧
      kernelMktime ⟨59, 59, 23, 31, 11, 137⟩ = some b ∧ a < b := by
  have hvalid : Tm.Valid ⟨59, 59, 23, 31, 11, 137⟩ := by constructor <;> decide
  have hvalid' : Tm.Valid ⟨0, 0, 0, 1, 2, 100⟩ := by constructor <;> decide
  refine ⟨?_, (kernelMktime_seconds _ _ hvalid' hvalid (by decide) (by decide)).2 (by decide)⟩
  rw [(kernelMktime_seconds _ _ hvalid hvalid (by decide) (by decide)).1]
  decide +kernel

end EasyKernels.Linux.Mktime
