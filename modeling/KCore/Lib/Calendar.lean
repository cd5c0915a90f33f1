import KCore.Lib.Text

/-!
# Dates

An instant is a number of microseconds since the first of January of year 1, in the
proleptic Gregorian calendar. `ofOrdinal` is the date of a day (`datetime._ord2ymd`). A date
is that of one day only (`ofOrdinal_injective`), and `strftime` tells instants apart by
their second (`append_strftime_inj`).
-/

namespace Calendar

open Text

@[ext] structure Date where
  year : ℕ
  month : ℕ
  day : ℕ
  deriving DecidableEq

def isLeap (year : ℕ) : Bool := year % 4 = 0 && (year % 100 ≠ 0 || year % 400 = 0)

/-- The days of a common year before each month, from the first on. -/
def daysBeforeMonth : List ℕ := [0, 31, 59, 90, 120, 151, 181, 212, 243, 273, 304, 334]

/-- The days of a year before a month. -/
def daysBefore (leap : Bool) (month : ℕ) : ℕ := daysBeforeMonth.getD (month - 1) 0 + (leap && 2 < month).toNat

/-- The year of the day `n`, and which of its days it is. -/
def yearDay (n : ℕ) : ℕ × ℕ :=
  let n100 := n % 146097 / 36524
  let n4 := n % 146097 % 36524 / 1461
  let n1 := n % 146097 % 36524 % 1461 / 365
  let year := n / 146097 * 400 + n100 * 100 + n4 * 4 + n1 + 1
  -- the last day of a leap year comes out as a day after it
  if n1 = 4 ∨ n100 = 4 then (year - 1, 365) else (year, n % 146097 % 36524 % 1461 % 365)

/-- The month of a day of the year, and which of its days it is: `(n + 50) >> 5` is the month or the one after. -/
def monthDay (leap : Bool) (n : ℕ) : ℕ × ℕ :=
  let month := (n + 50) / 32
  let month := if n < daysBefore leap month then month - 1 else month
  (month, n - daysBefore leap month + 1)

/-- The date of the day `n`, counted from 0. -/
def ofOrdinal (n : ℕ) : Date :=
  let (year, n) := yearDay n
  let (month, day) := monthDay (isLeap year) n
  ⟨year, month, day⟩

/-- The days before a year, in terms of its place in its cycles of 400, 100 and 4 years. -/
theorem daysBeforeYear {a b c d : ℕ} (hb : b ≤ 3) (hc : c ≤ 24) (hd : d ≤ 3) :
    (a * 400 + b * 100 + c * 4 + d) * 365 + (a * 400 + b * 100 + c * 4 + d) / 4 -
      (a * 400 + b * 100 + c * 4 + d) / 100 + (a * 400 + b * 100 + c * 4 + d) / 400 =
        a * 146097 + b * 36524 + c * 1461 + d * 365 := by
  have h4 : (a * 400 + b * 100 + c * 4 + d) / 4 = a * 100 + b * 25 + c := by omega
  have h100 : (a * 400 + b * 100 + c * 4 + d) / 100 = a * 4 + b := by omega
  have h400 : (a * 400 + b * 100 + c * 4 + d) / 400 = a := by omega
  rw [h4, h100, h400]
  omega

/-- The days before a day of a year. -/
theorem yearDay_spec (n : ℕ) :
    (yearDay n).2 ≤ 365 ∧ ((yearDay n).1 - 1) * 365 + ((yearDay n).1 - 1) / 4 - ((yearDay n).1 - 1) / 100 +
      ((yearDay n).1 - 1) / 400 + (yearDay n).2 = n := by
  have h400 := Nat.div_add_mod n 146097
  have l400 := Nat.mod_lt n (by decide : 146097 > 0)
  have h100 := Nat.div_add_mod (n % 146097) 36524
  have l100 := Nat.mod_lt (n % 146097) (by decide : 36524 > 0)
  have h4 := Nat.div_add_mod (n % 146097 % 36524) 1461
  have l4 := Nat.mod_lt (n % 146097 % 36524) (by decide : 1461 > 0)
  have h1 := Nat.div_add_mod (n % 146097 % 36524 % 1461) 365
  have l1 := Nat.mod_lt (n % 146097 % 36524 % 1461) (by decide : 365 > 0)
  unfold yearDay
  dsimp only
  generalize n / 146097 = a at *
  generalize n % 146097 / 36524 = b at *
  generalize n % 146097 % 36524 / 1461 = c at *
  generalize n % 146097 % 36524 % 1461 / 365 = d at *
  generalize n % 146097 % 36524 % 1461 % 365 = r at *
  generalize n % 146097 % 36524 % 1461 = n1 at *
  generalize n % 146097 % 36524 = n4 at *
  generalize n % 146097 = n100 at *
  by_cases hb : b = 4
  · rw [if_pos (.inr hb)]
    have hyear : a * 400 + b * 100 + c * 4 + d + 1 - 1 - 1 = a * 400 + 3 * 100 + 24 * 4 + 3 := by omega
    rw [hyear, daysBeforeYear (by omega) (by omega) (by omega)]
    omega
  by_cases hd : d = 4
  · rw [if_pos (.inl hd)]
    have hyear : a * 400 + b * 100 + c * 4 + d + 1 - 1 - 1 = a * 400 + b * 100 + c * 4 + 3 := by omega
    rw [hyear, daysBeforeYear (by omega) (by omega) (by omega)]
    omega
  · rw [if_neg (by omega)]
    have hyear : a * 400 + b * 100 + c * 4 + d + 1 - 1 = a * 400 + b * 100 + c * 4 + d := by omega
    rw [hyear, daysBeforeYear (by omega) (by omega) (by omega)]
    omega

set_option maxRecDepth 4000 in
theorem daysBefore_monthDay : ∀ leap, ∀ n < 366,
    daysBefore leap (monthDay leap n).1 + (monthDay leap n).2 = n + 1 := by decide

theorem ofOrdinal_injective : Function.Injective ofOrdinal := by
  intro n m h
  obtain ⟨hn, hn'⟩ := yearDay_spec n
  obtain ⟨hm, hm'⟩ := yearDay_spec m
  have hn'' := daysBefore_monthDay (isLeap (yearDay n).1) _ (Nat.lt_succ_of_le hn)
  have hm'' := daysBefore_monthDay (isLeap (yearDay m).1) _ (Nat.lt_succ_of_le hm)
  simp only [ofOrdinal, Date.mk.injEq] at h
  obtain ⟨hyear, hmonth, hday⟩ := h
  rw [hmonth, hday, hyear, hm''] at hn''
  have hdays : (yearDay n).2 = (yearDay m).2 := by omega
  rw [hyear, hdays, hm'] at hn'
  exact hn'.symm

/-! ## Instants -/

/-- The microseconds of a second. -/
def second : ℕ := 1000000

/-- `strftime("%m/%d/%Y-%H:%M:%S")`. -/
def strftime (instant : ℕ) : Str :=
  let seconds := instant / second
  let date := ofOrdinal (seconds / 86400)
  pad 2 date.month ++ "/".toList ++ pad 2 date.day ++ "/".toList ++ pad 4 date.year ++ "-".toList ++
    pad 2 (seconds % 86400 / 3600) ++ ":".toList ++ pad 2 (seconds % 3600 / 60) ++ ":".toList ++ pad 2 (seconds % 60)

theorem strftime_ends (t : ℕ) : ∃ a, strftime t = a ++ ':' :: pad 2 (t / second % 60) := by
  refine ⟨pad 2 (ofOrdinal (t / second / 86400)).month ++ "/".toList ++ pad 2 (ofOrdinal (t / second / 86400)).day ++
    "/".toList ++ pad 4 (ofOrdinal (t / second / 86400)).year ++ "-".toList ++ pad 2 (t / second % 86400 / 3600) ++
      ":".toList ++ pad 2 (t / second % 3600 / 60), ?_⟩
  exact List.append_assoc _ [':'] _

/-- A text that ends in a number after a character that is no digit gives both. -/
theorem append_pad_inj {a b : Str} {c : Char} {w m n : ℕ} (hc : c.isDigit = false)
    (h : a ++ [c] ++ pad w m = b ++ [c] ++ pad w n) : a = b ∧ m = n := by
  simp only [List.append_assoc, List.singleton_append] at h
  obtain ⟨ha, hn⟩ := append_run_inj hc (fun _ => isDigit_of_mem_pad) (fun _ => isDigit_of_mem_pad) h
  exact ⟨ha, pad_injective w hn⟩

/-- The text before a time, and its second. -/
theorem append_strftime_inj {a b : Str} {s t : ℕ} (h : a ++ "-".toList ++ strftime s = b ++ "-".toList ++ strftime t) :
    a = b ∧ s / second = t / second := by
  unfold strftime at h
  dsimp only at h
  simp only [← List.append_assoc] at h
  obtain ⟨h, hsec⟩ := append_pad_inj (by decide) h
  obtain ⟨h, hmin⟩ := append_pad_inj (by decide) h
  obtain ⟨h, hhour⟩ := append_pad_inj (by decide) h
  obtain ⟨h, hyear⟩ := append_pad_inj (by decide) h
  obtain ⟨h, hday⟩ := append_pad_inj (by decide) h
  obtain ⟨h, hmonth⟩ := append_pad_inj (by decide) h
  have hdate : s / second / 86400 = t / second / 86400 := ofOrdinal_injective (Date.ext hyear hmonth hday)
  exact ⟨h, by omega⟩

theorem strftime_congr {s t : ℕ} (h : s / second = t / second) : strftime s = strftime t := by
  rw [strftime, strftime, h]

end Calendar
