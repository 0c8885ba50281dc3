import Mathlib

/-! The calendar of the gallery search, from `search_query.rs`, and the windows of days that it looks for when a query
names the last or the third Friday of a month, or a holiday that falls on a weekday. -/

namespace LibreServ.Search

variable {w : DayWindow}

/-- `as i32`, and what arithmetic on years wraps to. -/
def i32 (x : Int) : Int := (x + 2 ^ 31) % 2 ^ 32 - 2 ^ 31

def daysFromCivil (year : Int) (month day : ℕ) : Int :=
  let y := if month ≤ 2 then i32 (year - 1) else year
  let era := y / 400
  let yoe := (y - era * 400).toNat
  let mp := if 2 < month then month - 3 else month + 9
  let doy := (153 * mp + 2) / 5 + day - 1
  let doe := yoe * 365 + yoe / 4 - yoe / 100 + doy
  era * 146097 + doe - 719468

def daysInMonth (y : Int) : ℕ → ℕ
  | 1 | 3 | 5 | 7 | 8 | 10 | 12 => 31
  | 4 | 6 | 9 | 11 => 30
  | 2 => if y % 4 = 0 ∧ (y % 100 ≠ 0 ∨ y % 400 = 0) then 29 else 28
  | _ => 0

/-- Sunday is 0; 1970-01-01 was a Thursday. -/
def dow (y : Int) (m d : ℕ) : ℕ := ((daysFromCivil y m d + 4) % 7).toNat

structure DayWindow where
  month : ℕ
  dayLo : ℕ
  dayHi : ℕ
  weekday : Option ℕ
deriving DecidableEq

/-- "last friday of june". -/
def lastWeekday (m wd : ℕ) : DayWindow :=
  let dim := daysInMonth 2024 m
  ⟨m, dim - 6, dim, some wd⟩

/-- "third friday of june". -/
def nthWeekday (nth m wd : ℕ) : DayWindow :=
  let lo := 1 + 7 * (nth - 1)
  let hi := min (7 * nth) (daysInMonth 2024 m)
  ⟨m, lo, hi, some wd⟩

/-- The rows of `HOLIDAYS` whose windows name a weekday. -/
def weekdayHolidays : List (String × List DayWindow) :=
  [("thanksgiving", [⟨11, 22, 28, some 4⟩]),
    ("mlk day", [⟨1, 15, 21, some 1⟩]),
    ("martin luther king day", [⟨1, 15, 21, some 1⟩]),
    ("martin luther king jr day", [⟨1, 15, 21, some 1⟩]),
    ("presidents day", [⟨2, 15, 21, some 1⟩]),
    ("president s day", [⟨2, 15, 21, some 1⟩]),
    ("washington s birthday", [⟨2, 15, 21, some 1⟩]),
    ("mothers day", [⟨5, 8, 14, some 0⟩]),
    ("mother s day", [⟨5, 8, 14, some 0⟩]),
    ("fathers day", [⟨6, 15, 21, some 0⟩]),
    ("father s day", [⟨6, 15, 21, some 0⟩]),
    ("memorial day", [⟨5, 25, 31, some 1⟩]),
    ("labor day", [⟨9, 1, 7, some 1⟩]),
    ("labour day", [⟨9, 1, 7, some 1⟩]),
    ("columbus day", [⟨10, 8, 14, some 1⟩]),
    ("indigenous peoples day", [⟨10, 8, 14, some 1⟩]),
    ("indigenous people s day", [⟨10, 8, 14, some 1⟩]),
    ("black friday", [⟨11, 23, 29, some 5⟩]),
    ("cyber monday", [⟨11, 26, 30, some 1⟩, ⟨12, 1, 2, some 1⟩]),
    ("super bowl", [⟨2, 1, 14, some 0⟩]),
    ("super bowl sunday", [⟨2, 1, 14, some 0⟩]),
    ("superbowl", [⟨2, 1, 14, some 0⟩])]

def windowRange (w : DayWindow) (y : Int) : Int × Int :=
  let whole := (daysFromCivil y w.month w.dayLo * 86400, (daysFromCivil y w.month w.dayHi + 1) * 86400)
  match w.weekday with
  | none => whole
  | some wd =>
    match (List.range' w.dayLo (w.dayHi + 1 - w.dayLo)).find? (fun d => dow y w.month d = wd) with
    | none => whole
    | some d => (daysFromCivil y w.month d * 86400, (daysFromCivil y w.month d + 1) * 86400)

inductive Rel where
  | last
  | this
  | next
deriving DecidableEq

def pickYear (rangeFor : Int → Int × Int) (rel : Rel) (now y : Int) : Int :=
  match rel with
  | .this => y
  | .last => if (rangeFor y).2 ≤ now then y else y - 1
  | .next => if now ≤ (rangeFor y).1 then y else y + 1

/-- "last cyber monday": one range for every window of the holiday. -/
def holidayRanges (windows : List DayWindow) (rel : Rel) (now y : Int) : List (Int × Int) :=
  windows.map fun w => windowRange w (pickYear (windowRange w) rel now y)

/-- The dates of a year. -/
def IsDate (y : Int) (m d : ℕ) : Prop := 1 ≤ d ∧ d ≤ daysInMonth y m

/-- What the gallery asks of a picture's date. -/
def DayWindow.Met (w : DayWindow) (y : Int) (m d : ℕ) : Prop :=
  IsDate y m d ∧ m = w.month ∧ w.dayLo ≤ d ∧ d ≤ w.dayHi ∧ ∀ wd ∈ w.weekday, dow y m d = wd

/-- The `n`-th of a month's days that fall on a weekday. -/
def IsNth (y : Int) (m wd n d : ℕ) : Prop :=
  IsDate y m d ∧ dow y m d = wd ∧ Nat.count (fun k => dow y m (k + 1) = wd) d = n

def IsLast (y : Int) (m wd d : ℕ) : Prop :=
  IsDate y m d ∧ dow y m d = wd ∧ ∀ d', IsDate y m d' → dow y m d' = wd → d' ≤ d

/-- A window's days of its weekday. -/
def Picked (w : DayWindow) (y : Int) (d : ℕ) : Prop :=
  w.dayLo ≤ d ∧ d ≤ w.dayHi ∧ w.weekday = some (dow y w.month d)

/-- The last `wd` of the month, and no other date. -/
def LastRight (y : Int) (m wd : ℕ) : Prop :=
  ∃ d, IsLast y m wd d ∧ ∀ m' d', (lastWeekday m wd).Met y m' d' ↔ m' = m ∧ d' = d

def NthRight (y : Int) (m wd n : ℕ) : Prop :=
  ∀ m' d', (nthWeekday n m wd).Met y m' d' ↔ m' = m ∧ IsNth y m wd n d'

/-- The range is one day that the window picks, or a query that gets it finds no other days by it. -/
def RangeRight (windows : List DayWindow) (w : DayWindow) (y : Int) : Prop :=
  (∃ d, Picked w y d ∧
    windowRange w y = (daysFromCivil y w.month d * 86400, (daysFromCivil y w.month d + 1) * 86400)) ∨
  ∀ rel now year, windowRange w y ∈ holidayRanges windows rel now year →
    ∀ t, (windowRange w y).1 ≤ t → t < (windowRange w y).2 →
      ∃ d, Picked w y d ∧ daysFromCivil y w.month d * 86400 ≤ t ∧ t < (daysFromCivil y w.month d + 1) * 86400

/-- Cyber Monday's windows share a week; the year's Monday is in one of them. -/
def HoldsMonday (w : DayWindow) (y : Int) : Prop :=
  (w = ⟨11, 26, 30, some 1⟩ → dow y 11 26 ≠ 2 ∧ dow y 11 26 ≠ 3) ∧
  (w = ⟨12, 1, 2, some 1⟩ → dow y 12 1 = 0 ∨ dow y 12 1 = 1)

variable {y : Int} {m wd n d : ℕ}

theorem daysFromCivil_day (hd : 0 < d) : daysFromCivil y m d = daysFromCivil y m 1 + (d - 1) := by
  simp only [daysFromCivil]
  omega

theorem dow_day (hd : 0 < d) : dow y m d = (dow y m 1 + (d - 1)) % 7 := by
  have hday := @daysFromCivil_day y m d hd
  simp only [dow]
  omega

theorem dow_lt : dow y m d < 7 := by
  unfold dow
  omega

/-- Seven days in a row hold every weekday. -/
theorem exists_in_week (lo : ℕ) (hlo : 0 < lo) (hwd : wd < 7) :
    ∃ d, lo ≤ d ∧ d ≤ lo + 6 ∧ dow y m d = wd := by
  refine ⟨lo + (wd + 7 - dow y m lo) % 7, by omega, by omega, ?_⟩
  have hlast := @dow_day y m (lo + (wd + 7 - dow y m lo) % 7) (by omega)
  have hfirst := @dow_day y m lo hlo
  omega

theorem week_apart {d' : ℕ} (hd : 0 < d) (hlt : d < d') (heq : dow y m d = dow y m d') : d + 7 ≤ d' := by
  rw [dow_day hd, dow_day (Nat.lt_trans hd hlt)] at heq
  omega

/-- Every seventh day counts. -/
theorem count_dow (hwd : wd < 7) :
    Nat.count (fun k => dow y m (k + 1) = wd) n = (n + 6 - (wd + 7 - dow y m 1) % 7) / 7 := by
  induction n with
  | zero => rw [Nat.count_zero]; omega
  | succ n ih =>
    have hlt := @dow_lt y m 1
    rw [Nat.count_succ, dow_day (Nat.succ_pos n)]
    split <;> omega

theorem daysInMonth_le (hm : 1 ≤ m ∧ m ≤ 12) : 28 ≤ daysInMonth y m ∧ (daysInMonth 2024 m = daysInMonth y m ∨
      m = 2 ∧ daysInMonth y m = 28 ∧ daysInMonth 2024 m = 29) := by
  by_cases hfeb : m = 2
  · subst hfeb
    have hleap : daysInMonth 2024 2 = 29 := by decide
    have hlen : daysInMonth y 2 = 29 ∨ daysInMonth y 2 = 28 := by
      rw [daysInMonth]
      split
      · exact .inl rfl
      · exact .inr rfl
    omega
  · obtain ⟨hlo, hhi⟩ := hm
    interval_cases m <;> simp_all [daysInMonth]

/-- A window met by the days of a stretch of the month. -/
theorem met_iff {w : DayWindow} {m' d' : ℕ} (hw : w.weekday = some wd) :
    w.Met y m' d' ↔ m' = w.month ∧ IsDate y w.month d' ∧ w.dayLo ≤ d' ∧ d' ≤ w.dayHi ∧ dow y w.month d' = wd := by
  rw [DayWindow.Met, hw]
  constructor
  · rintro ⟨hdate, rfl, hlo, hhi, hwd⟩
    exact ⟨rfl, hdate, hlo, hhi, hwd wd rfl⟩
  · rintro ⟨rfl, hdate, hlo, hhi, rfl⟩
    exact ⟨hdate, rfl, hlo, hhi, fun _ h => Option.some.inj h⟩

theorem nthRight (hm : 1 ≤ m ∧ m ≤ 12) (hwd : wd < 7) (hn : 1 ≤ n) : NthRight y m wd n := by
  intro m' d
  obtain ⟨-, hlen⟩ := @daysInMonth_le y m hm
  have hbound : ∀ d, IsDate y m d → d ≤ daysInMonth 2024 m := by
    intro d hdate
    have := hdate.2
    rcases hlen with h | ⟨rfl, h, h'⟩ <;> omega
  rw [met_iff rfl]
  refine and_congr_right fun _ => and_congr_right fun hdate => ?_
  have hmax := hbound d hdate
  have hpos := hdate.1
  have hday := @dow_day y m d hpos
  simp only [nthWeekday, count_dow hwd, Nat.le_min]
  constructor
  · rintro ⟨hlo, ⟨hhi, -⟩, rfl⟩
    exact ⟨rfl, by omega⟩
  · rintro ⟨rfl, hcount⟩
    omega

theorem lastRight_iff (hm : 1 ≤ m ∧ m ≤ 12) (hwd : wd < 7) :
    LastRight y m wd ↔ ¬ (m = 2 ∧ daysInMonth y 2 = 28 ∧ dow y 2 22 = wd) := by
  obtain ⟨hmin, hlen⟩ := @daysInMonth_le y m hm
  have hmet {d : ℕ} := @met_iff y wd (lastWeekday m wd) m d rfl
  simp only [lastWeekday] at hmet
  constructor
  · rintro ⟨d, -, honly⟩ ⟨rfl, hshort, hfirst⟩
    -- the window starts on the 23rd, and no day of it is a `wd`
    obtain ⟨-, hdate, hlo, -, hd⟩ := hmet.mp ((honly 2 d).mpr ⟨rfl, rfl⟩)
    have hleap : daysInMonth 2024 2 = 29 := rfl
    have hapart := @week_apart y 2 22 d (by omega) (by omega) (hfirst.trans hd.symm)
    have hhi := hdate.2
    omega
  · intro hcase
    obtain ⟨d, hlo, hhi, hd⟩ := @exists_in_week y m wd (daysInMonth y m - 6) (by omega) hwd
    have hdate : IsDate y m d := ⟨by omega, by omega⟩
    have hlater : ∀ d', IsDate y m d' → dow y m d' = wd → d' ≤ d := by
      intro d' hd' hwd'
      by_contra hlt
      have hapart := @week_apart y m d d' hdate.1 (Nat.lt_of_not_le hlt) (hd.trans hwd'.symm)
      have hmax := hd'.2
      omega
    refine ⟨d, ⟨hdate, hd, hlater⟩, fun m' d' => ?_⟩
    rw [met_iff rfl]
    simp only [lastWeekday]
    constructor
    · rintro ⟨rfl, hdate', hlo', -, hd'⟩
      refine ⟨rfl, Nat.le_antisymm (hlater d' hdate' hd') ?_⟩
      by_contra hlt
      have hapart := @week_apart y m' d' d hdate'.1 (Nat.lt_of_not_le hlt) (hd'.trans hd.symm)
      have hmax := hdate.2
      omega
    · rintro ⟨rfl, rfl⟩
      have hmax := hdate.2
      refine ⟨rfl, hdate, ?_, by omega, hd⟩
      -- only the 22nd of a short February is before the window
      by_contra hlt
      rcases hlen with hlen | ⟨rfl, hshort, hleap⟩
      · omega
      · have h22 : d' = 22 := by omega
        exact hcase ⟨rfl, hshort, h22 ▸ hd⟩

/-- A range of one day, where a day of the window has its weekday. -/
theorem windowRange_day (hw : w.weekday = some wd) (hd : ∃ d, w.dayLo ≤ d ∧ d ≤ w.dayHi ∧ dow y w.month d = wd) :
    ∃ d, Picked w y d ∧
      windowRange w y = (daysFromCivil y w.month d * 86400, (daysFromCivil y w.month d + 1) * 86400) := by
  obtain ⟨d, hlo, hhi, hd⟩ := hd
  cases hfind : (List.range' w.dayLo (w.dayHi + 1 - w.dayLo)).find? (fun d => dow y w.month d = wd) with
  | none =>
    have hmem : d ∈ List.range' w.dayLo (w.dayHi + 1 - w.dayLo) := List.mem_range'_1.mpr (by omega)
    exact absurd (decide_eq_true hd) (List.find?_eq_none.mp hfind d hmem)
  | some first =>
    have hmem := List.mem_range'_1.mp (List.mem_of_find?_eq_some hfind)
    have hdow := List.find?_some hfind
    rw [decide_eq_true_eq] at hdow
    refine ⟨first, ⟨hmem.1, by omega, by rw [hw, hdow]⟩, ?_⟩
    simp only [windowRange, hw, hfind]

/-- Else the range starts on a day of another weekday. -/
theorem not_rangeRight {windows : List DayWindow} (hmem : w ∈ windows) (hw : w.weekday = some wd)
    (hpos : 0 < w.dayLo) (hle : w.dayLo ≤ w.dayHi) (hd : ∀ d, w.dayLo ≤ d → d ≤ w.dayHi → dow y w.month d ≠ wd) :
    ¬ RangeRight windows w y := by
  have hnone : ∀ d, ¬ Picked w y d := fun d hpick =>
    hd d hpick.1 hpick.2.1 (Option.some.inj (hpick.2.2.symm.trans hw))
  have hlt : (windowRange w y).1 < (windowRange w y).2 := by
    have hlast := @daysFromCivil_day y w.month w.dayHi (Nat.lt_of_lt_of_le hpos hle)
    have hfirst := @daysFromCivil_day y w.month w.dayLo hpos
    simp only [windowRange, hw]
    split
    · omega
    · omega
  rintro (⟨d, hpick, -⟩ | hunused)
  · exact hnone d hpick
  · have hthis : windowRange w y ∈ holidayRanges windows .this 0 y := List.mem_map.mpr ⟨w, hmem, rfl⟩
    obtain ⟨d, hpick, -⟩ := hunused .this 0 y hthis _ (Int.le_refl _) hlt
    exact hnone d hpick

/-- Every window of a weekday spans a week, but for those of Cyber Monday. -/
theorem weekdayHolidays_span : ∀ row ∈ weekdayHolidays, ∀ w ∈ row.2, ∃ wd < 7, w.weekday = some wd ∧ 0 < w.dayLo ∧
    w.dayLo ≤ w.dayHi ∧ (w.dayLo + 6 ≤ w.dayHi ∨ w = ⟨11, 26, 30, some 1⟩ ∨ w = ⟨12, 1, 2, some 1⟩) := by
  decide

/-- The days of a window come round to its weekday just when its first day is close enough before it. -/
theorem exists_dow_iff (lo hi : ℕ) (hlo : 0 < lo) (hwd : wd < 7) :
    (∃ d, lo ≤ d ∧ d ≤ hi ∧ dow y m d = wd) ↔ lo + (wd + 7 - dow y m lo) % 7 ≤ hi := by
  have hfirst := @dow_day y m lo hlo
  constructor
  · rintro ⟨d, hd, hhi, hdow⟩
    have hthat := @dow_day y m d (Nat.lt_of_lt_of_le hlo hd)
    omega
  · intro hle
    obtain ⟨d, hd, hweek, hdow⟩ := @exists_in_week y m wd lo hlo hwd
    have hthat := @dow_day y m d (Nat.lt_of_lt_of_le hlo hd)
    exact ⟨d, hd, by omega, hdow⟩

theorem rangeRight_iff {row : String × List DayWindow} (hrow : row ∈ weekdayHolidays) (hw : w ∈ row.2) :
    RangeRight row.2 w y ↔ HoldsMonday w y := by
  obtain ⟨wd, hwd, hday, hpos, hle, hspan⟩ := weekdayHolidays_span row hrow w hw
  have hright : RangeRight row.2 w y ↔ ∃ d, w.dayLo ≤ d ∧ d ≤ w.dayHi ∧ dow y w.month d = wd := by
    constructor
    · intro h
      by_contra hnone
      exact not_rangeRight hw hday hpos hle (fun d hlo hhi hd => hnone ⟨d, hlo, hhi, hd⟩) h
    · intro h
      exact .inl (windowRange_day hday h)
  rw [hright, exists_dow_iff _ _ hpos hwd, HoldsMonday]
  rcases hspan with hweek | rfl | rfl
  · refine iff_of_true (by omega) ⟨?_, ?_⟩
    · rintro rfl
      exact absurd hweek (by decide)
    · rintro rfl
      exact absurd hweek (by decide)
  · cases hday
    have hlt := @dow_lt y 11 26
    simp
    omega
  · cases hday
    have hlt := @dow_lt y 12 1
    simp
    omega

/-- **Nth weekdays.** The windows pick the right days but for the last weekday of a short February that falls on the
22nd, and for a holiday whose days are not all in one window. -/
theorem picked_iff {row : String × List DayWindow} {w : DayWindow} (hm : 1 ≤ m ∧ m ≤ 12) (hwd : wd < 7)
    (hn : 1 ≤ n ∧ n ≤ 5) (hrow : row ∈ weekdayHolidays) (hw : w ∈ row.2) :
    LastRight y m wd ∧ NthRight y m wd n ∧ RangeRight row.2 w y ↔
      ¬ (m = 2 ∧ daysInMonth y 2 = 28 ∧ dow y 2 22 = wd) ∧ HoldsMonday w y := by
  rw [lastRight_iff hm hwd, rangeRight_iff hrow hw]
  exact and_congr_right fun _ => and_iff_right (nthRight hm hwd hn.1)

/-- Mothers' day, and the last Friday of a June. -/
theorem picked_mothers_day : LastRight 2027 6 5 ∧ NthRight 2027 6 5 5 ∧ RangeRight [⟨5, 8, 14, some 0⟩] ⟨5, 8, 14, some 0⟩ 2027 :=
  (@picked_iff 2027 6 5 5 ("mothers day", [⟨5, 8, 14, some 0⟩]) ⟨5, 8, 14, some 0⟩ (by decide) (by decide) (by decide)
    (by decide) (by decide)).mpr ⟨by decide, by decide, by decide⟩

/-- The last Monday of February 2027 is the 22nd, before the window. -/
theorem last_monday_missed : ¬ ∀ (y : Int) (m wd n : ℕ), 1970 ≤ y → 1 ≤ m ∧ m ≤ 12 → wd < 7 → 1 ≤ n ∧ n ≤ 5 →
      LastRight y m wd ∧ NthRight y m wd n ∧ ∀ row ∈ weekdayHolidays, ∀ w ∈ row.2, RangeRight row.2 w y := by
  intro h
  have hlast := (h 2027 2 1 1 (by decide) (by decide) (by decide) (by decide)).1
  exact (lastRight_iff (by decide) (by decide)).mp hlast ⟨rfl, by decide, by decide⟩

end LibreServ.Search
