import Mathlib.Algebra.BigOperators.Group.List.Basic
import Mathlib.Algebra.GroupWithZero.Nat
import Mathlib.Algebra.Order.Group.Nat
import OsTools.Lib.Word
/-!
# OsTools.Devices.Rtc

`rtc_get_time` of `devices/rtc.c`: it reads the six registers of the real time clock
one after the other until the first has not changed in between, and turns the date into
seconds.

`Date.seconds` is the number of seconds since 1970 by the Gregorian calendar. What the
code computes is ahead of it by `Date.ahead` days.

## Proof shape

The conversion and the loop are separate. For the conversion, the days that the code adds
are compared with the calendar's, first for the years and then for the months; the
differences are collected in `Date.ahead`, so that `toTime_eq` is an equation without
conditions on the date but that the result fits.

For the loop, a round is accepted if its first and its last reading of the seconds agree.
All readings of a round are made within a minute, so that equal seconds are the same second
of the same minute, and then all registers belong to one date (`Clock.round`). Both that and
that some round lies within one second are what the hardware is relied on for.
-/

namespace OsTools.Devices.Rtc

/-- What the clock shows; years have two digits. -/
structure Date where
  sec : Nat
  min : Nat
  hour : Nat
  mday : Nat
  mon : Nat
  year : Nat
  deriving DecidableEq

/-- `days_per_month`. -/
def daysPerMonth : List Nat := [31, 28, 31, 30, 31, 30, 31, 31, 30, 31, 30, 31]

/-! ### Reading the clock -/

/-- A number in binary-coded decimal. -/
def toBcd (n : Nat) : UInt8 := UInt8.ofNat (n / 10 * 16 + n % 10)

def bcdToBin (x : UInt8) : Nat := (x &&& 0x0f).toNat + (x >>> 4).toNat * 10

/-- `cmos_read`, while the clock shows `d`. -/
def cmosRead (d : Date) (index : Nat) : UInt8 :=
  match index with
  | 0 => toBcd d.sec
  | 2 => toBcd d.min
  | 4 => toBcd d.hour
  | 7 => toBcd d.mday
  | 8 => toBcd d.mon
  | 9 => toBcd d.year
  | _ => 0

/-- What `rtc_get_time` makes of the numbers that it has read; `none` where the first product
overflows an `int`. -/
def toTime (sec min hour mday mon year : Nat) : Option Nat :=
  let year : Int := if year < 70 then (year + 100 : Int) - 70 else year - 70
  let days := year * 365 + (year - 1).tdiv 4
  if days * 24 * 60 * 60 ≥ 2 ^ 31 then none
  else
    let time := days * 24 * 60 * 60
    let time := (daysPerMonth.take mon).foldl
      (fun (time : Int) (n : Nat) => time + n * 24 * 60 * 60) time
    let time := if mon > 2 ∧ year.tmod 4 = 0 then time + 24 * 60 * 60 else time
    let time := time + ((mday : Int) - 1) * 24 * 60 * 60
    let time := time + hour * 60 * 60
    let time := time + min * 60
    some (toUInt32 (time + sec))

/-- `rtc_get_time`, where the clock shows `clock n` at the read with number `n`; `fuel` bounds
the passes of its loop. -/
def rtcGetTime (clock : Nat → Date) : Nat → Nat → Option Nat
  | 0, _ => none
  | fuel + 1, n =>
      let sec := bcdToBin (cmosRead (clock n) 0)
      let min := bcdToBin (cmosRead (clock (n + 1)) 2)
      let hour := bcdToBin (cmosRead (clock (n + 2)) 4)
      let mday := bcdToBin (cmosRead (clock (n + 3)) 7)
      let mon := bcdToBin (cmosRead (clock (n + 4)) 8)
      let year := bcdToBin (cmosRead (clock (n + 5)) 9)
      if sec ≠ bcdToBin (cmosRead (clock (n + 6)) 0) then rtcGetTime clock fuel (n + 7)
      else toTime sec min hour mday mon year

/-! ### The calendar -/

def isLeap (y : Nat) : Bool := y % 4 = 0 && (y % 100 ≠ 0 || y % 400 = 0)

def monthLength (y m : Nat) : Nat :=
  daysPerMonth.getD (m - 1) 0 + if m = 2 ∧ isLeap y then 1 else 0

/-- The days of the years from 1970 up to `1970 + n`. -/
def daysBeforeYear (n : Nat) : Nat :=
  ((List.range n).map fun k => if isLeap (1970 + k) then 366 else 365).sum

def daysBeforeMonth (y m : Nat) : Nat := ((List.range (m - 1)).map fun i => monthLength y (i + 1)).sum

namespace Date

/-- Years from 70 on are in the 20th century. -/
def fullYear (d : Date) : Nat := if d.year < 70 then 2000 + d.year else 1900 + d.year

structure Valid (d : Date) : Prop where
  sec : d.sec < 60
  min : d.min < 60
  hour : d.hour < 24
  mon : 1 ≤ d.mon ∧ d.mon ≤ 12
  mday : 1 ≤ d.mday ∧ d.mday ≤ monthLength d.fullYear d.mon
  year : d.year < 100

def days (d : Date) : Nat :=
  daysBeforeYear (d.fullYear - 1970) + daysBeforeMonth d.fullYear d.mon + (d.mday - 1)

def seconds (d : Date) : Nat := d.days * 86400 + d.hour * 3600 + d.min * 60 + d.sec

/-- The days that `rtc_get_time` is ahead: those of the current month, a day after February of
every fourth year from 1970 on, and less a day for leap years that it misses. -/
def ahead (d : Date) : Nat :=
  let y := d.fullYear - 1970
  daysPerMonth.getD (d.mon - 1) 0 + (if 2 < d.mon ∧ y % 4 = 0 then 1 else 0) -
    ((if y % 4 = 3 ∨ y % 4 = 0 ∧ 0 < y then 1 else 0) + (if 2 < d.mon ∧ y % 4 = 2 then 1 else 0))

end Date

/-! ### The conversion -/

variable {d : Date} {n : Nat}

theorem bcdToBin_toBcd (h : n < 100) : bcdToBin (toBcd n) = n := by
  have htable : ∀ n < 100, bcdToBin (toBcd n) = n := by decide
  exact htable n h

theorem isLeap_iff {k : Nat} (h : k < 100) : isLeap (1970 + k) = decide (k % 4 = 2) := by
  have htable : ∀ k < 100, isLeap (1970 + k) = decide (k % 4 = 2) := by decide
  exact htable k h

theorem daysBeforeYear_eq (h : n ≤ 100) : daysBeforeYear n = n * 365 + (n + 1) / 4 := by
  induction n with
  | zero => rfl
  | succ n ih =>
      have hrec : daysBeforeYear (n + 1) =
          daysBeforeYear n + if isLeap (1970 + n) then 366 else 365 := by
        unfold daysBeforeYear
        rw [List.range_succ, List.map_append, List.sum_append]
        rfl
      rw [hrec, ih (by omega), isLeap_iff (by omega)]
      by_cases hleap : n % 4 = 2
      · rw [if_pos (decide_eq_true hleap)]
        omega
      · rw [if_neg (by simpa using hleap)]
        omega

/-- The days before a month, and what the loop of `rtc_get_time` adds for it. -/
theorem daysBeforeMonth_eq (y : Nat) {m : Nat} (h₁ : 1 ≤ m) (h₂ : m ≤ 12) :
    (daysPerMonth.take m).sum + (if 2 < m ∧ isLeap y then 1 else 0) =
      daysBeforeMonth y m + daysPerMonth.getD (m - 1) 0 := by
  have htable : ∀ b : Bool, ∀ m < 13, 1 ≤ m →
      (daysPerMonth.take m).sum + (if 2 < m ∧ b then 1 else 0) =
        ((List.range (m - 1)).map fun i =>
          daysPerMonth.getD i 0 + if i + 1 = 2 ∧ b then 1 else 0).sum +
          daysPerMonth.getD (m - 1) 0 := by
    decide
  exact htable (isLeap y) m (by omega) h₁

theorem foldl_days (l : List Nat) (time : Int) :
    l.foldl (fun (time : Int) (n : Nat) => time + n * 24 * 60 * 60) time =
      time + (l.sum : Nat) * 86400 := by
  induction l generalizing time with
  | nil => simp
  | cons n l ih =>
      rw [List.foldl_cons, ih, List.sum_cons]
      omega

theorem daysPerMonth_bounds {m : Nat} (h₁ : 1 ≤ m) (h₂ : m ≤ 12) :
    28 ≤ daysPerMonth.getD (m - 1) 0 ∧ daysPerMonth.getD (m - 1) 0 ≤ 31 := by
  have htable : ∀ m < 13, 1 ≤ m →
      28 ≤ daysPerMonth.getD (m - 1) 0 ∧ daysPerMonth.getD (m - 1) 0 ≤ 31 := by decide
  exact htable m (by omega) h₁

/-- The clock is ahead by about a month. -/
theorem ahead_bounds (h : d.Valid) : 27 ≤ d.ahead ∧ d.ahead ≤ 32 := by
  have hmonth := daysPerMonth_bounds h.mon.1 h.mon.2
  unfold Date.ahead
  dsimp only
  split <;> split <;> split <;> omega

theorem years_tdiv (y : Nat) : ((y : Int) - 1).tdiv 4 = ((y - 1) / 4 : Nat) := by
  cases y with
  | zero => rfl
  | succ y =>
      rw [show ((y + 1 : Nat) : Int) - 1 = (y : Int) by omega]
      rfl

/-- **The conversion**, for dates before 2038. Years, months and days are compared one after
the other; all sums stay far below what an `unsigned` holds, and the days that the two sides
differ by are those of `Date.ahead`. -/
theorem toTime_eq (h : d.Valid) (hyear : d.fullYear < 2038) :
    toTime d.sec d.min d.hour d.mday d.mon d.year = some (d.seconds + 86400 * d.ahead) := by
  obtain ⟨hsec, hmin, hhour, ⟨hmon₁, hmon₂⟩, ⟨hmday₁, hmday₂⟩, hy⟩ := h
  obtain ⟨y, hyy⟩ : ∃ y, d.fullYear = 1970 + y := by
    refine ⟨d.fullYear - 1970, ?_⟩
    unfold Date.fullYear
    split <;> omega
  have hlt : y < 68 := by omega
  have hint : (if d.year < 70 then (d.year + 100 : Int) - 70 else (d.year : Int) - 70) = y := by
    unfold Date.fullYear at hyy
    split at hyy <;> rename_i hlow
    · rw [if_pos hlow]
      omega
    · rw [if_neg hlow]
      omega
  have hsub : d.fullYear - 1970 = y := by omega
  have hleap : isLeap d.fullYear = decide (y % 4 = 2) := by rw [hyy, isLeap_iff (by omega)]
  have hmonth := daysBeforeMonth_eq d.fullYear hmon₁ hmon₂
  have hbounds := daysPerMonth_bounds hmon₁ hmon₂
  have hbefore := daysBeforeYear_eq (n := y) (by omega)
  have hmod : ((y : Int).tmod 4 = 0) ↔ y % 4 = 0 := by
    show ((y % 4 : Nat) : Int) = 0 ↔ _
    omega
  have hless : daysBeforeMonth d.fullYear d.mon ≤ 366 := by
    have hall : ∀ b : Bool, ∀ m < 13, ((List.range (m - 1)).map fun i =>
        daysPerMonth.getD i 0 + if i + 1 = 2 ∧ b then 1 else 0).sum ≤ 366 := by decide
    exact hall (isLeap d.fullYear) d.mon (by omega)
  have hmdays : d.mday ≤ 32 := by
    unfold monthLength at hmday₂
    split at hmday₂ <;> omega
  rw [hleap] at hmonth
  have hdays : (y - 1) / 4 + (daysPerMonth.take d.mon).sum +
      (if 2 < d.mon ∧ y % 4 = 0 then 1 else 0) =
        (y + 1) / 4 + daysBeforeMonth d.fullYear d.mon + d.ahead := by
    unfold Date.ahead
    rw [hsub]
    dsimp only
    generalize (daysPerMonth.take d.mon).sum = total at hmonth
    generalize daysPerMonth.getD (d.mon - 1) 0 = current at hmonth hbounds
    generalize daysBeforeMonth d.fullYear d.mon = before at hmonth
    simp only [decide_eq_true_eq] at hmonth
    split at hmonth <;> split <;> split <;> omega
  have hextra : ∀ time : Int, (if d.mon > 2 ∧ y % 4 = 0 then time + 24 * 60 * 60 else time) =
      time + (if 2 < d.mon ∧ y % 4 = 0 then 1 else 0 : Nat) * 86400 := by
    intro time
    by_cases hm : 2 < d.mon ∧ y % 4 = 0
    · rw [if_pos hm, if_pos hm]
      omega
    · rw [if_neg hm, if_neg hm]
      omega
  have hahead := (ahead_bounds ⟨hsec, hmin, hhour, ⟨hmon₁, hmon₂⟩, ⟨hmday₁, hmday₂⟩, hy⟩).2
  unfold toTime
  rw [hint]
  simp only [years_tdiv, foldl_days, hmod, hextra]
  rw [if_neg (by omega)]
  refine congrArg some ?_
  unfold Date.seconds Date.days toUInt32
  rw [hsub, hbefore]
  generalize (if 2 < d.mon ∧ y % 4 = 0 then 1 else 0 : Nat) = extra at hdays
  generalize (daysPerMonth.take d.mon).sum = total at hdays
  omega

/-! ### The loop -/

/-- A round of reads that all show `d`. -/
theorem rtcGetTime_stable {clock : Nat → Date} {fuel : Nat} (h : d.Valid)
    (hyear : d.fullYear < 2038) (hsame : ∀ i, i < 7 → clock (n + i) = d) :
    rtcGetTime clock (fuel + 1) n = some (d.seconds + 86400 * d.ahead) := by
  have hmday : d.mday < 100 := by
    have hbounds := daysPerMonth_bounds h.mon.1 h.mon.2
    have := h.mday.2
    unfold monthLength at this
    split at this <;> omega
  have h0 : clock n = d := hsame 0 (by omega)
  rw [rtcGetTime]
  simp only [hsame 1 (by omega), hsame 2 (by omega), hsame 3 (by omega), hsame 4 (by omega),
    hsame 5 (by omega), hsame 6 (by omega), h0, cmosRead, ne_eq, not_true_eq_false, if_false]
  have hs := h.sec
  have hm := h.min
  have hh := h.hour
  have hmon := h.mon
  rw [bcdToBin_toBcd (by omega), bcdToBin_toBcd (by omega), bcdToBin_toBcd (by omega),
    bcdToBin_toBcd hmday, bcdToBin_toBcd (by omega), bcdToBin_toBcd h.year]
  exact toTime_eq h hyear

theorem sec_eq (h : d.Valid) : d.sec = d.seconds % 60 := by
  have := h.sec
  unfold Date.seconds
  omega

/-- What the hardware is relied on for: the clock shows the right date, and the reads are made
one after the other, those of one round within a minute. `second n` is when read `n` is made. -/
structure Clock (second : Nat → Nat) (date : Nat → Date) : Prop where
  mono : Monotone second
  valid : ∀ n, (date (second n)).Valid
  right : ∀ n, (date (second n)).seconds = second n
  before : ∀ n, (date (second n)).fullYear < 2038
  quick : ∀ k, second (7 * k + 6) < second (7 * k) + 60

/-- A round is accepted just when all of its reads are in the same second. -/
theorem Clock.round {second : Nat → Nat} {date : Nat → Date} (h : Clock second date) (k : Nat) :
    bcdToBin (cmosRead (date (second (7 * k))) 0) =
        bcdToBin (cmosRead (date (second (7 * k + 6))) 0) ↔
      second (7 * k + 6) = second (7 * k) := by
  have hle : second (7 * k) ≤ second (7 * k + 6) := h.mono (by omega)
  have hquick := h.quick k
  have hs₁ := sec_eq (h.valid (7 * k))
  have hs₂ := sec_eq (h.valid (7 * k + 6))
  have hlt₁ := (h.valid (7 * k)).sec
  have hlt₂ := (h.valid (7 * k + 6)).sec
  rw [h.right] at hs₁ hs₂
  show bcdToBin (toBcd _) = bcdToBin (toBcd _) ↔ _
  rw [bcdToBin_toBcd (by omega), bcdToBin_toBcd (by omega)]
  omega

/-- All reads of such a round show the same date. -/
theorem Clock.same {second : Nat → Nat} {date : Nat → Date} (h : Clock second date) {k : Nat}
    (hstable : second (7 * k + 6) = second (7 * k)) {i : Nat} (hi : i < 7) :
    date (second (7 * k + i)) = date (second (7 * k)) := by
  have hlow : second (7 * k) ≤ second (7 * k + i) := h.mono (by omega)
  have hhigh : second (7 * k + i) ≤ second (7 * k + 6) := h.mono (by omega)
  rw [show second (7 * k + i) = second (7 * k) by omega]

/-- A round within one second is the last one. -/
theorem Clock.accept {second : Nat → Nat} {date : Nat → Date} (h : Clock second date) {k : Nat}
    (hstable : second (7 * k + 6) = second (7 * k)) (fuel : Nat) :
    rtcGetTime (fun n => date (second n)) (fuel + 1) (7 * k) =
      some (second (7 * k) + 86400 * (date (second (7 * k))).ahead) := by
  rw [rtcGetTime_stable (h.valid (7 * k)) (h.before (7 * k)) fun i hi => h.same hstable hi,
    h.right]

/-- After a round across seconds the clock is read again. -/
theorem Clock.reject {second : Nat → Nat} {date : Nat → Date} (h : Clock second date) {k : Nat}
    (hchange : second (7 * k + 6) ≠ second (7 * k)) (fuel : Nat) :
    rtcGetTime (fun n => date (second n)) (fuel + 1) (7 * k) =
      rtcGetTime (fun n => date (second n)) fuel (7 * (k + 1)) := by
  have hsec := mt (h.round k).1 hchange
  conv_lhs => rw [rtcGetTime]
  exact if_pos hsec

/-- **`rtc_get_time`.** If a round of reads takes less than a minute and some round lies within
one second, it returns; all that it has read belongs to one second, and the result is that second
and about a month. By induction on the rounds before the one that lies within a second: each of
them is either accepted, and then it was within one second too, or rejected. -/
theorem rtc_get_time_ahead {second : Nat → Nat} {date : Nat → Date} (h : Clock second date)
    {last : Nat} (hlast : second (7 * last + 6) = second (7 * last)) :
    ∃ k ≤ last, second (7 * k + 6) = second (7 * k) ∧
      rtcGetTime (fun n => date (second n)) (last + 1) 0 =
        some (second (7 * k) + 86400 * (date (second (7 * k))).ahead) ∧
      27 ≤ (date (second (7 * k))).ahead ∧ (date (second (7 * k))).ahead ≤ 32 := by
  -- the induction is on the rounds that are left
  have hloop : ∀ j k, k + j = last → ∃ k' ≤ last, second (7 * k' + 6) = second (7 * k') ∧
      rtcGetTime (fun n => date (second n)) (j + 1) (7 * k) =
        some (second (7 * k') + 86400 * (date (second (7 * k'))).ahead) := by
    intro j
    induction j with
    | zero =>
        intro k hk
        obtain rfl : k = last := hk
        exact ⟨k, Nat.le_refl _, hlast, h.accept hlast 0⟩
    | succ j ih =>
        intro k hk
        by_cases hstable : second (7 * k + 6) = second (7 * k)
        · exact ⟨k, by omega, hstable, h.accept hstable (j + 1)⟩
        · rw [h.reject hstable]
          exact ih (k + 1) (by omega)
  obtain ⟨k, hk, hstable, htime⟩ := hloop last 0 (Nat.zero_add _)
  exact ⟨k, hk, hstable, htime, ahead_bounds (h.valid _)⟩

/-- The year 2000 begins after three reads. -/
def newYear (n : Nat) : Nat := if n < 3 then 946684799 else 946684800

def newYearDate (s : Nat) : Date :=
  if s ≤ 946684799 then ⟨59, 59, 23, 31, 12, 99⟩ else ⟨0, 0, 0, 1, 1, 0⟩

theorem newYear_eq (n : Nat) : newYear n = 946684799 ∨ newYear n = 946684800 := by
  unfold newYear
  split
  · exact Or.inl rfl
  · exact Or.inr rfl

theorem newYear_clock : Clock newYear newYearDate where
  mono := by
    intro a b hab
    unfold newYear
    split <;> split <;> omega
  valid n := by
    rcases newYear_eq n with h | h <;> rw [h]
    · exact ⟨by decide, by decide, by decide, by decide, by decide, by decide⟩
    · exact ⟨by decide, by decide, by decide, by decide, by decide, by decide⟩
  right n := by
    rcases newYear_eq n with h | h <;> rw [h]
    · decide +kernel
    · decide +kernel
  before n := by
    rcases newYear_eq n with h | h <;> rw [h]
    · decide
    · decide
  quick k := by
    have h₁ := newYear_eq (7 * k)
    have h₂ := newYear_eq (7 * k + 6)
    omega

theorem rtc_get_time_ahead_newYear :
    ∃ k ≤ 1, newYear (7 * k + 6) = newYear (7 * k) ∧
      rtcGetTime (fun n => newYearDate (newYear n)) 2 0 =
        some (newYear (7 * k) + 86400 * (newYearDate (newYear (7 * k))).ahead) ∧
      27 ≤ (newYearDate (newYear (7 * k))).ahead ∧
      (newYearDate (newYear (7 * k))).ahead ≤ 32 :=
  rtc_get_time_ahead newYear_clock (by decide)

end OsTools.Devices.Rtc
