import Mathlib.Algebra.Group.Nat.Defs
import Mathlib.Data.Nat.Notation
import Mathlib.Logic.Function.Iterate
import Mathlib.Tactic.Common

/-!
# The DS1307 clock driver

`ds1307_get_time` reads the seven registers one by one, stages them in
`rtc_info` and decodes them; `ds1307_set_time` encodes, stages and writes them
one by one. The chip counts on between two transfers: a tick advances the
seconds and carries into the other registers at once, with the calendar of the
chip (every fourth year is a leap year).

A time that is read while the chip ticks has each field from the instant of its
own transfer. It is the time of the first transfer as long as no tick carries
into a register that is still to be read, and in a call of less than a minute
it is the time of no instant at all when one does.
-/
namespace LinuxDeviceDrivers.Ds1307Rtc

abbrev NR_REGS : ℕ := 7

/-- `rtc_info`, or the registers of a chip. -/
abbrev Regs := Fin NR_REGS → BitVec 8

def REG_OFFSET_SECS : Fin NR_REGS := 0
def REG_OFFSET_MINS : Fin NR_REGS := 1
def REG_OFFSET_HOURS : Fin NR_REGS := 2
def REG_OFFSET_DAY : Fin NR_REGS := 3
def REG_OFFSET_DATE : Fin NR_REGS := 4
def REG_OFFSET_MONTH : Fin NR_REGS := 5
def REG_OFFSET_YEAR : Fin NR_REGS := 6

/-- The fields of `struct rtc_time` that the driver uses. -/
@[ext] structure RtcTime where
  tmSec : BitVec 32
  tmMin : BitVec 32
  tmHour : BitVec 32
  tmWday : BitVec 32
  tmMday : BitVec 32
  tmMon : BitVec 32
  tmYear : BitVec 32
deriving DecidableEq, Repr

def bcd2bin (val : BitVec 8) : BitVec 32 :=
  (val &&& 0x0f).setWidth 32 + (val >>> 4).setWidth 32 * 10

def bin2bcd (val : BitVec 32) : BitVec 8 := ((val / 10) <<< 4 + val % 10).setWidth 8

/-- The assignments to `t` in `ds1307_get_time`. -/
def decode (rtcInfo : Regs) : RtcTime where
  tmSec := bcd2bin (rtcInfo REG_OFFSET_SECS &&& 0x7f)
  tmMin := bcd2bin (rtcInfo REG_OFFSET_MINS &&& 0x7f)
  tmHour := bcd2bin (rtcInfo REG_OFFSET_HOURS &&& 0x3f)
  tmWday := bcd2bin (rtcInfo REG_OFFSET_DAY &&& 0x07) - 1
  tmMday := bcd2bin (rtcInfo REG_OFFSET_DATE &&& 0x3f)
  tmMon := bcd2bin (rtcInfo REG_OFFSET_MONTH &&& 0x1f) - 1
  tmYear := bcd2bin (rtcInfo REG_OFFSET_YEAR) + 100

/-- The assignments to `rtc_info` in `ds1307_set_time`. -/
def encode (t : RtcTime) : Regs
  | 0 => bin2bcd t.tmSec
  | 1 => bin2bcd t.tmMin
  | 2 => bin2bcd t.tmHour
  | 3 => bin2bcd (t.tmWday + 1)
  | 4 => bin2bcd t.tmMday
  | 5 => bin2bcd (t.tmMon + 1)
  | 6 => bin2bcd (t.tmYear - 100)

/-- `ds1307_get_time` with the values that the seven calls of
`i2c_smbus_read_byte_data` return; each is cut to the `u8` that stages it. -/
def ds1307GetTime (xfer : Fin NR_REGS → BitVec 32) : ℤ × RtcTime :=
  (0, decode fun i => (xfer i).setWidth 8)

/-! ## The chip -/

def isLeap (year : ℕ) : Bool := year % 4 = 0

def daysIn (month year : ℕ) : ℕ :=
  if month = 2 then (if isLeap year then 29 else 28)
  else if month = 4 ∨ month = 6 ∨ month = 9 ∨ month = 11 then 30 else 31

theorem one_le_daysIn (month year : ℕ) : 1 ≤ daysIn month year := by
  unfold daysIn
  split_ifs <;> decide

theorem daysIn_le (month year : ℕ) : daysIn month year ≤ 31 := by
  unfold daysIn
  split_ifs <;> decide

/-- Two decimal digits in the two halves of a register. -/
def toBcd (n : ℕ) : BitVec 8 := BitVec.ofNat 8 (n / 10 * 16 + n % 10)

/-- A time in the 24-hour mode of the chip. -/
structure ChipTime where
  sec : ℕ
  min : ℕ
  hour : ℕ
  day : ℕ
  date : ℕ
  month : ℕ
  year : ℕ
  sec_lt : sec < 60
  min_lt : min < 60
  hour_lt : hour < 24
  day_range : 1 ≤ day ∧ day ≤ 7
  date_range : 1 ≤ date ∧ date ≤ daysIn month year
  month_range : 1 ≤ month ∧ month ≤ 12
  year_lt : year < 100
deriving DecidableEq

namespace ChipTime

/-- The next day at midnight. -/
def midnight (c : ChipTime) : ChipTime :=
  let day := if c.day = 7 then 1 else c.day + 1
  have hday : 1 ≤ day ∧ day ≤ 7 := by
    have := c.day_range
    dsimp only [day]
    split_ifs <;> omega
  if hd : c.date < daysIn c.month c.year then
    { c with
      sec := 0, min := 0, hour := 0, day := day, date := c.date + 1
      sec_lt := by decide
      min_lt := by decide
      hour_lt := by decide
      day_range := hday
      date_range := ⟨Nat.le_add_left 1 c.date, hd⟩ }
  else if hm : c.month < 12 then
    { c with
      sec := 0, min := 0, hour := 0, day := day, date := 1, month := c.month + 1
      sec_lt := by decide
      min_lt := by decide
      hour_lt := by decide
      day_range := hday
      date_range := ⟨Nat.le_refl 1, one_le_daysIn _ _⟩
      month_range := ⟨Nat.le_add_left 1 c.month, hm⟩ }
  else
    { sec := 0, min := 0, hour := 0, day := day, date := 1, month := 1, year := (c.year + 1) % 100
      sec_lt := by decide
      min_lt := by decide
      hour_lt := by decide
      day_range := hday
      date_range := ⟨Nat.le_refl 1, one_le_daysIn _ _⟩
      month_range := by decide
      year_lt := Nat.mod_lt _ (by decide) }

/-- One second later. -/
def tick (c : ChipTime) : ChipTime :=
  if hs : c.sec < 59 then { c with sec := c.sec + 1, sec_lt := by omega }
  else if hm : c.min < 59 then
    { c with sec := 0, min := c.min + 1, sec_lt := by decide, min_lt := by omega }
  else if hh : c.hour < 23 then
    { c with
      sec := 0, min := 0, hour := c.hour + 1
      sec_lt := by decide
      min_lt := by decide
      hour_lt := by omega }
  else c.midnight

theorem date_lt (c : ChipTime) : c.date < 32 :=
  Nat.lt_succ_of_le (Nat.le_trans c.date_range.2 (daysIn_le _ _))

/-- The counter behind each register. -/
def field (c : ChipTime) : Fin NR_REGS → ℕ
  | 0 => c.sec
  | 1 => c.min
  | 2 => c.hour
  | 3 => c.day
  | 4 => c.date
  | 5 => c.month
  | 6 => c.year

/-- The registers hold the counters in BCD. -/
def regs (c : ChipTime) : Regs := fun i => toBcd (c.field i)

/-- The time that the chip shows. -/
def shows (c : ChipTime) : RtcTime where
  tmSec := BitVec.ofNat 32 c.sec
  tmMin := BitVec.ofNat 32 c.min
  tmHour := BitVec.ofNat 32 c.hour
  tmWday := BitVec.ofNat 32 (c.day - 1)
  tmMday := BitVec.ofNat 32 c.date
  tmMon := BitVec.ofNat 32 (c.month - 1)
  tmYear := BitVec.ofNat 32 (c.year + 100)

/-- The time made of the field of each register at an instant of its own. -/
def showsEach (c : Fin NR_REGS → ChipTime) : RtcTime where
  tmSec := (c REG_OFFSET_SECS).shows.tmSec
  tmMin := (c REG_OFFSET_MINS).shows.tmMin
  tmHour := (c REG_OFFSET_HOURS).shows.tmHour
  tmWday := (c REG_OFFSET_DAY).shows.tmWday
  tmMday := (c REG_OFFSET_DATE).shows.tmMday
  tmMon := (c REG_OFFSET_MONTH).shows.tmMon
  tmYear := (c REG_OFFSET_YEAR).shows.tmYear

theorem decode_sec : ∀ n < 60, bcd2bin (toBcd n &&& 0x7f) = BitVec.ofNat 32 n := by decide

theorem decode_hour : ∀ n < 24, bcd2bin (toBcd n &&& 0x3f) = BitVec.ofNat 32 n := by decide

theorem decode_day : ∀ n < 8, 1 ≤ n → bcd2bin (toBcd n &&& 0x07) - 1 = BitVec.ofNat 32 (n - 1) := by
  decide

theorem decode_date : ∀ n < 32, bcd2bin (toBcd n &&& 0x3f) = BitVec.ofNat 32 n := by decide

theorem decode_month : ∀ n < 13, 1 ≤ n →
    bcd2bin (toBcd n &&& 0x1f) - 1 = BitVec.ofNat 32 (n - 1) := by decide

theorem decode_year : ∀ n < 100, bcd2bin (toBcd n) + 100 = BitVec.ofNat 32 (n + 100) := by decide

/-- Decoding registers of different instants takes each field from its own instant. -/
theorem decode_regs (c : Fin NR_REGS → ChipTime) : decode (fun i => (c i).regs i) = showsEach c := by
  refine RtcTime.ext ?_ ?_ ?_ ?_ ?_ ?_ ?_
  · exact decode_sec _ (c REG_OFFSET_SECS).sec_lt
  · exact decode_sec _ (c REG_OFFSET_MINS).min_lt
  · exact decode_hour _ (c REG_OFFSET_HOURS).hour_lt
  · exact decode_day _ (Nat.lt_succ_of_le (c REG_OFFSET_DAY).day_range.2)
      (c REG_OFFSET_DAY).day_range.1
  · exact decode_date _ (c REG_OFFSET_DATE).date_lt
  · exact decode_month _ (Nat.lt_succ_of_le (c REG_OFFSET_MONTH).month_range.2)
      (c REG_OFFSET_MONTH).month_range.1
  · exact decode_year _ (c REG_OFFSET_YEAR).year_lt

theorem ofNat_inj {a b n : ℕ} (hn : n ≤ 2 ^ 32) (ha : a < n) (hb : b < n)
    (h : BitVec.ofNat 32 a = BitVec.ofNat 32 b) : a = b := by
  have hnat := congrArg BitVec.toNat h
  rwa [BitVec.toNat_ofNat, BitVec.toNat_ofNat, Nat.mod_eq_of_lt (Nat.lt_of_lt_of_le ha hn),
    Nat.mod_eq_of_lt (Nat.lt_of_lt_of_le hb hn)] at hnat

/-- The time shown determines the counters. -/
theorem field_eq_of_showsEach {c d : Fin NR_REGS → ChipTime} (h : showsEach c = showsEach d)
    (i : Fin NR_REGS) : (c i).field i = (d i).field i := by
  obtain ⟨hsec, hmin, hhour, hday, hdate, hmonth, hyear⟩ := RtcTime.ext_iff.mp h
  match i with
  | 0 => exact ofNat_inj (by decide) (c 0).sec_lt (d 0).sec_lt hsec
  | 1 => exact ofNat_inj (by decide) (c 1).min_lt (d 1).min_lt hmin
  | 2 => exact ofNat_inj (by decide) (c 2).hour_lt (d 2).hour_lt hhour
  | 3 =>
      have hc := (c REG_OFFSET_DAY).day_range
      have hd := (d REG_OFFSET_DAY).day_range
      have hpred := ofNat_inj (n := 7) (by decide) (by omega) (by omega) hday
      show (c REG_OFFSET_DAY).day = (d REG_OFFSET_DAY).day
      omega
  | 4 => exact ofNat_inj (by decide) (c 4).date_lt (d 4).date_lt hdate
  | 5 =>
      have hc := (c REG_OFFSET_MONTH).month_range
      have hd := (d REG_OFFSET_MONTH).month_range
      have hpred := ofNat_inj (n := 12) (by decide) (by omega) (by omega) hmonth
      show (c REG_OFFSET_MONTH).month = (d REG_OFFSET_MONTH).month
      omega
  | 6 =>
      have hadd := ofNat_inj (n := 200) (by decide) (Nat.add_lt_add_right (c 6).year_lt 100)
        (Nat.add_lt_add_right (d 6).year_lt 100) hyear
      exact Nat.add_right_cancel hadd

theorem midnight_sec (c : ChipTime) : c.midnight.sec = 0 := by
  simp only [midnight]
  split_ifs <;> rfl

theorem sec_tick (c : ChipTime) : c.tick.sec = (c.sec + 1) % 60 := by
  have hlt := c.sec_lt
  unfold tick
  split_ifs
  · show c.sec + 1 = (c.sec + 1) % 60
    omega
  · show 0 = (c.sec + 1) % 60
    omega
  · show 0 = (c.sec + 1) % 60
    omega
  · rw [midnight_sec]
    omega

theorem sec_iterate (c : ChipTime) (n : ℕ) : (tick^[n] c).sec = (c.sec + n) % 60 := by
  induction n with
  | zero => exact (Nat.mod_eq_of_lt c.sec_lt).symm
  | succ n ih => rw [Function.iterate_succ_apply', sec_tick, ih]; omega

/-- A tick carries out of the seconds only at the full minute. -/
theorem field_tick {c : ChipTime} (h : c.sec ≠ 59) {i : Fin NR_REGS} (hi : i ≠ REG_OFFSET_SECS) :
    c.tick.field i = c.field i := by
  have hlt := c.sec_lt
  rw [tick, dif_pos (by omega)]
  match i with
  | 0 => exact absurd rfl hi
  | 1 | 2 | 3 | 4 | 5 | 6 => rfl

end ChipTime

/-! ## Reading while the chip ticks -/

open ChipTime

/-- A call of `ds1307_get_time` on a running chip: how many ticks after the
start of the call each register is transferred, and how many until the return. -/
structure Transfers where
  instant : Fin NR_REGS → ℕ
  total : ℕ
  mono : ∀ i j, i ≤ j → instant i ≤ instant j
  le_total : instant REG_OFFSET_YEAR ≤ total

namespace Transfers

/-- What the transfers return when the chip shows `c` at the start of the call. -/
def xfer (x : Transfers) (c : ChipTime) : Fin NR_REGS → BitVec 32 := fun i =>
  ((tick^[x.instant i] c).regs i).setWidth 32

/-- The time returned is what the chip showed at some instant of the call. -/
def Snapshot (x : Transfers) (c : ChipTime) : Prop :=
  ∃ n ≤ x.total, (ds1307GetTime (x.xfer c)).2 = (tick^[n] c).shows

/-- A tick after the first transfer changes a register that is still to be read. -/
def CarriesIntoUnread (x : Transfers) (c : ChipTime) : Prop :=
  ∃ i k, x.instant REG_OFFSET_SECS ≤ k ∧ k < x.instant i ∧
    (tick^[k + 1] c).field i ≠ (tick^[k] c).field i

variable {x : Transfers} {c : ChipTime}

theorem getTime_eq (x : Transfers) (c : ChipTime) :
    ds1307GetTime (x.xfer c) = (0, showsEach fun i => tick^[x.instant i] c) := by
  rw [ds1307GetTime, ← decode_regs]
  congr 2
  funext i
  exact BitVec.setWidth_setWidth_of_le _ (by decide)

theorem start_le (x : Transfers) (i : Fin NR_REGS) :
    x.instant REG_OFFSET_SECS ≤ x.instant i := x.mono _ i (Fin.zero_le i)

theorem le_end (x : Transfers) (i : Fin NR_REGS) : x.instant i ≤ x.total :=
  Nat.le_trans (x.mono i REG_OFFSET_YEAR (Fin.le_last i)) x.le_total

/-- A field that no tick changes. -/
theorem field_constant {i : Fin NR_REGS} {a b : ℕ} (hab : a ≤ b)
    (h : ∀ k, a ≤ k → k < b → (tick^[k + 1] c).field i = (tick^[k] c).field i) :
    (tick^[b] c).field i = (tick^[a] c).field i := by
  obtain ⟨d, rfl⟩ := Nat.exists_eq_add_of_le hab
  induction d with
  | zero => rfl
  | succ d ih =>
      rw [← Nat.add_assoc, h (a + d) (Nat.le_add_right a d) (Nat.lt_succ_self _)]
      exact ih (Nat.le_add_right a d) fun k hk hkd => h k hk (Nat.lt_succ_of_lt hkd)

theorem showsEach_congr {d : Fin NR_REGS → ChipTime} {c : ChipTime}
    (h : ∀ i, (d i).field i = c.field i) : showsEach d = c.shows := by
  have hsec : (d REG_OFFSET_SECS).sec = c.sec := h REG_OFFSET_SECS
  have hmin : (d REG_OFFSET_MINS).min = c.min := h REG_OFFSET_MINS
  have hhour : (d REG_OFFSET_HOURS).hour = c.hour := h REG_OFFSET_HOURS
  have hday : (d REG_OFFSET_DAY).day = c.day := h REG_OFFSET_DAY
  have hdate : (d REG_OFFSET_DATE).date = c.date := h REG_OFFSET_DATE
  have hmonth : (d REG_OFFSET_MONTH).month = c.month := h REG_OFFSET_MONTH
  have hyear : (d REG_OFFSET_YEAR).year = c.year := h REG_OFFSET_YEAR
  simp only [showsEach, shows, hsec, hmin, hhour, hday, hdate, hmonth, hyear]

/-- Without a carry into an unread register the time is that of the first transfer. -/
theorem getTime_of_not_carries (h : ¬x.CarriesIntoUnread c) :
    (ds1307GetTime (x.xfer c)).2 = (tick^[x.instant REG_OFFSET_SECS] c).shows := by
  rw [getTime_eq]
  refine showsEach_congr fun i => field_constant (x.start_le i) fun k hk hki => ?_
  by_contra hne
  exact h ⟨i, k, hk, hki, hne⟩

/-- Within a minute the seconds tell the instants apart. -/
theorem instant_unique {m n : ℕ} (hm : m < 60) (hn : n < 60)
    (h : (tick^[m] c).sec = (tick^[n] c).sec) : m = n := by
  rw [sec_iterate, sec_iterate] at h
  omega

/-- In a call of less than a minute a carry into an unread register leaves its
trace: the register changes once and not back. -/
theorem not_snapshot_of_carries (htotal : x.total < 60) (h : x.CarriesIntoUnread c) :
    ¬x.Snapshot c := by
  rintro ⟨n, hn, htime⟩
  obtain ⟨i, k, hk, hki, hchange⟩ := h
  rw [getTime_eq] at htime
  have hfield : ∀ j, (tick^[x.instant j] c).field j = (tick^[n] c).field j :=
    fun j => field_eq_of_showsEach (c := fun i => tick^[x.instant i] c)
      (d := fun _ => tick^[n] c) htime j
  have hend := x.le_end i
  -- the seconds that were read name the only instant that can match
  obtain rfl : x.instant REG_OFFSET_SECS = n :=
    instant_unique (Nat.lt_of_le_of_lt (x.le_end _) htotal) (Nat.lt_of_le_of_lt hn htotal)
      (hfield REG_OFFSET_SECS)
  have hi : i ≠ REG_OFFSET_SECS := by
    rintro rfl
    omega
  have hsec : (tick^[k] c).sec = 59 := by
    by_contra hne
    exact hchange (by rw [Function.iterate_succ_apply']; exact field_tick hne hi)
  have hquiet : ∀ j, j ≠ k → j < 60 → (tick^[j + 1] c).field i = (tick^[j] c).field i := by
    intro j hjk hj
    rw [Function.iterate_succ_apply']
    refine field_tick (fun hj59 => hjk ?_) hi
    exact instant_unique hj (by omega) (hj59.trans hsec.symm)
  have hbefore := field_constant (c := c) (i := i) hk fun j _ hj => hquiet j (by omega) (by omega)
  have hafter := field_constant (c := c) (i := i) (show k + 1 ≤ x.instant i from hki)
    fun j hj hji => hquiet j (by omega) (by omega)
  exact hchange (hafter.symm.trans ((hfield i).trans hbefore.symm))

end Transfers

/-- Each field of the time returned is the one that the chip showed at its own
transfer. The time is that of the first transfer if no tick carries into a
register that is still to be read, and in a call of less than a minute it is
the time of an instant only then. -/
theorem getTime_snapshot (c : ChipTime) (x : Transfers) :
    ds1307GetTime (x.xfer c) = (0, showsEach fun i => tick^[x.instant i] c) ∧
      (¬x.CarriesIntoUnread c →
        (ds1307GetTime (x.xfer c)).2 = (tick^[x.instant REG_OFFSET_SECS] c).shows ∧
          x.Snapshot c) ∧
      (x.total < 60 → (x.Snapshot c ↔ ¬x.CarriesIntoUnread c)) := by
  have hsnap : ¬x.CarriesIntoUnread c → x.Snapshot c := fun h =>
    ⟨_, x.le_end _, Transfers.getTime_of_not_carries h⟩
  refine ⟨Transfers.getTime_eq x c, fun h => ⟨Transfers.getTime_of_not_carries h, hsnap h⟩,
    fun htotal => ⟨fun hs hc => Transfers.not_snapshot_of_carries htotal hc hs, hsnap⟩⟩

/-- The chip passes from 12:59:59 to 13:00:00 between the first two transfers. -/
theorem not_snapshot_fullHour : ¬∀ (c : ChipTime) (x : Transfers), x.Snapshot c := by
  intro h
  obtain ⟨n, hn, htime⟩ := h
    { sec := 59, min := 59, hour := 12, day := 1, date := 1, month := 1, year := 24
      sec_lt := by decide
      min_lt := by decide
      hour_lt := by decide
      day_range := by decide
      date_range := by decide
      month_range := by decide
      year_lt := by decide }
    { instant := fun i => if i = 0 then 0 else 1, total := 1
      mono := by decide
      le_total := by decide }
  have hn' : n ≤ 1 := hn
  obtain rfl | rfl : n = 0 ∨ n = 1 := by omega
  · exact absurd (congrArg RtcTime.tmMin htime) (by decide)
  · exact absurd (congrArg RtcTime.tmSec htime) (by decide)

end LinuxDeviceDrivers.Ds1307Rtc
