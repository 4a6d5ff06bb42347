import LinuxDeviceDrivers.Ds1307Rtc
import LinuxDeviceDrivers.KernelPrimitives

/-!
# The DS1307 driver and its bus

A call makes seven transfers, each of which can fail on its own; a failing one
leaves the chip as it was. Neither `ds1307_get_time` nor `ds1307_set_time` looks
at what the transfers return: an error of a read is cut to a byte and decoded,
an error of a write is dropped.

On a bus without errors a time survives the way to the chip and back unless its
year does not: the years are kept modulo 160, from 2000 on.
-/
namespace LinuxDeviceDrivers.Ds1307Bus
open KernelPrimitives Ds1307Rtc ChipTime

/-- The order of the transfers of a call. -/
def transfers : List (Fin NR_REGS) :=
  [REG_OFFSET_SECS, REG_OFFSET_MINS, REG_OFFSET_HOURS, REG_OFFSET_DAY, REG_OFFSET_DATE,
    REG_OFFSET_MONTH, REG_OFFSET_YEAR]

/-- Which of the transfers of a call fail, and with which errors. -/
abbrev Faults := Fin NR_REGS → Option Errno

def i2cSmbusReadByteData (chip : Regs) (i : Fin NR_REGS) : Option Errno → BitVec 32
  | none => (chip i).setWidth 32
  | some e => .ofInt 32 e.val

def i2cSmbusWriteByteData (chip : Regs) (i : Fin NR_REGS) (value : BitVec 8) :
    Option Errno → BitVec 32 × Regs
  | none => (0, Function.update chip i value)
  | some e => (.ofInt 32 e.val, chip)

/-- `ds1307_get_time` on this bus. -/
def getTime (chip : Regs) (reads : Faults) : ℤ × RtcTime :=
  ds1307GetTime fun i => i2cSmbusReadByteData chip i (reads i)

/-- What transfers of the staged registers leave on the chip. -/
def writeRegs (rtcInfo : Regs) (writes : Faults) (chip : Regs) : List (Fin NR_REGS) → Regs
  | [] => chip
  | i :: is => writeRegs rtcInfo writes (i2cSmbusWriteByteData chip i (rtcInfo i) (writes i)).2 is

def ds1307SetTime (t : RtcTime) (writes : Faults) (chip : Regs) : ℤ × Regs :=
  (0, writeRegs (encode t) writes chip transfers)

theorem mem_transfers : ∀ i, i ∈ transfers := by decide

section Transfers
variable {chip rtcInfo : Regs} {t : RtcTime} {reads writes : Faults}

theorem write_other {i j : Fin NR_REGS} (h : j ≠ i) (value : BitVec 8) (fault : Option Errno) :
    (i2cSmbusWriteByteData chip i value fault).2 j = chip j := by
  cases fault with
  | none => exact Function.update_of_ne h _ _
  | some e => rfl

theorem write_self (i : Fin NR_REGS) (value : BitVec 8) (fault : Option Errno) :
    (i2cSmbusWriteByteData chip i value fault).2 i = if fault = none then value else chip i := by
  cases fault with
  | none => exact Function.update_self _ _ _
  | some e => rfl

theorem writeRegs_of_notMem {is : List (Fin NR_REGS)} {j : Fin NR_REGS} (hj : j ∉ is) :
    writeRegs rtcInfo writes chip is j = chip j := by
  induction is generalizing chip with
  | nil => rfl
  | cons i is ih =>
      rw [writeRegs, ih (List.not_mem_of_not_mem_cons hj)]
      exact write_other (List.ne_of_not_mem_cons hj) _ _

theorem writeRegs_of_mem {is : List (Fin NR_REGS)} {j : Fin NR_REGS} (hj : j ∈ is) :
    writeRegs rtcInfo writes chip is j = if writes j = none then rtcInfo j else chip j := by
  induction is generalizing chip with
  | nil => cases hj
  | cons i is ih =>
      rw [writeRegs]
      by_cases hmem : j ∈ is
      · rw [ih hmem]
        by_cases hji : j = i
        · rw [hji, write_self]
          split_ifs
          · rfl
          · rfl
        · rw [write_other hji]
      · obtain rfl := (List.mem_cons.mp hj).resolve_right hmem
        rw [writeRegs_of_notMem hmem, write_self]

theorem setTime_apply (i : Fin NR_REGS) :
    (ds1307SetTime t writes chip).2 i = if writes i = none then encode t i else chip i :=
  writeRegs_of_mem (mem_transfers i)

theorem setTime_eq_encode_iff :
    (ds1307SetTime t writes chip).2 = encode t ↔ ∀ i, writes i = none ∨ chip i = encode t i := by
  rw [funext_iff]
  apply forall_congr'
  intro i
  rw [setTime_apply]
  split_ifs with hw
  · simp only [hw, true_or]
  · simp only [hw, false_or]

theorem getTime_of_no_fault (h : ∀ i, reads i = none) : getTime chip reads = (0, decode chip) := by
  rw [getTime, ds1307GetTime]
  congr 2
  funext i
  rw [h i]
  exact BitVec.setWidth_setWidth_of_le _ (by decide)

/-- A call returns 0 only after seven good transfers, `ds1307_set_time` also when
the registers have been right before. -/
structure BusErrorsReported (chip : Regs) (t : RtcTime) (reads writes : Faults) : Prop where
  get : (getTime chip reads).1 = 0 →
    (∀ i, reads i = none) ∧ (getTime chip reads).2 = decode chip
  set : (ds1307SetTime t writes chip).1 = 0 → (ds1307SetTime t writes chip).2 = encode t

/-- No error is reported, so the calls keep to this only where there is none to
report. -/
theorem busErrorsReported_iff (chip : Regs) (t : RtcTime) (reads writes : Faults) :
    BusErrorsReported chip t reads writes ↔
      (∀ i, reads i = none) ∧ ∀ i, writes i = none ∨ chip i = encode t i := by
  constructor
  · intro h
    exact ⟨(h.get rfl).1, setTime_eq_encode_iff.mp (h.set rfl)⟩
  · intro h
    refine ⟨fun _ => ⟨h.1, ?_⟩, fun _ => setTime_eq_encode_iff.mpr h.2⟩
    rw [getTime_of_no_fault h.1]

/-- The first of seven reads fails with `-EIO`: the seconds are 81. -/
theorem not_busErrorsReported :
    ¬BusErrorsReported (fun _ => 0) ⟨0, 0, 0, 0, 1, 0, 124⟩
      (fun i => if i = REG_OFFSET_SECS then some ⟨-eio, neg_eio⟩ else none) fun _ => none := by
  intro h
  exact absurd ((h.get rfl).1 REG_OFFSET_SECS) (by decide)

end Transfers

/-! ## There and back -/

theorem bin2bcd_eq (v : BitVec 32) : bin2bcd v = toBcd v.toNat := by
  apply BitVec.eq_of_toNat_eq
  have hv := v.isLt
  simp only [bin2bcd, toBcd, BitVec.toNat_setWidth, BitVec.toNat_add, BitVec.toNat_shiftLeft,
    BitVec.toNat_udiv, BitVec.toNat_umod, BitVec.toNat_ofNat, BitVec.reduceToNat,
    Nat.shiftLeft_eq]
  omega

theorem toNat_bcd2bin (val : BitVec 8) :
    (bcd2bin val).toNat = val.toNat % 16 + val.toNat / 16 * 10 := by
  have hval := val.isLt
  have hlow : (val &&& 0x0f).toNat = val.toNat % 16 := by
    rw [BitVec.toNat_and]
    exact Nat.and_two_pow_sub_one_eq_mod val.toNat 4
  simp only [bcd2bin, BitVec.toNat_add, BitVec.toNat_mul, BitVec.toNat_setWidth, hlow,
    BitVec.toNat_ushiftRight, BitVec.reduceToNat, Nat.shiftRight_eq_div_pow]
  omega

/-- What is left of a number after two decimal digits in a byte. -/
theorem toNat_bcd2bin_bin2bcd (v : BitVec 32) : (bcd2bin (bin2bcd v)).toNat = v.toNat % 160 := by
  rw [bin2bcd_eq, toNat_bcd2bin, toBcd, BitVec.toNat_ofNat]
  omega

/-- The ranges that `rtc_valid_tm` checks, with 31 days in every month, and that
of `tm_wday`. All but the year are compared as `unsigned`. -/
structure Accepted (t : RtcTime) : Prop where
  sec : t.tmSec.toNat < 60
  min : t.tmMin.toNat < 60
  hour : t.tmHour.toNat < 24
  wday : t.tmWday.toNat ≤ 6
  mday : 1 ≤ t.tmMday.toNat ∧ t.tmMday.toNat ≤ 31
  mon : t.tmMon.toNat < 12
  year : 70 ≤ t.tmYear.toInt

/-- `ds1307_set_time` fails and changes nothing, or `ds1307_get_time` returns what
has been set. No transfer fails. -/
def ReadsBack (chip : Regs) (t : RtcTime) : Prop :=
  let set := ds1307SetTime t (fun _ => none) chip
  (set.1 < 0 ∧ set.2 = chip) ∨ (set.1 = 0 ∧ getTime set.2 (fun _ => none) = (0, t))

section RoundTrip
variable {chip : Regs} {t : RtcTime}

theorem readsBack_iff_decode : ReadsBack chip t ↔ decode (encode t) = t := by
  have hset : (ds1307SetTime t (fun _ => none) chip).2 = encode t :=
    setTime_eq_encode_iff.mpr fun _ => .inl rfl
  unfold ReadsBack
  simp only [hset, getTime_of_no_fault fun _ => rfl, Prod.mk.injEq, true_and]
  constructor
  · rintro (⟨hneg, _⟩ | ⟨_, h⟩)
    · exact absurd hneg (Int.lt_irrefl 0)
    · exact h
  · intro h
    exact .inr ⟨rfl, h⟩

theorem year_iff (y : BitVec 32) (hy : 70 ≤ y.toInt) :
    bcd2bin (bin2bcd (y - 100)) + 100 = y ↔ 100 ≤ y.toInt ∧ y.toInt ≤ 259 := by
  have hback : bcd2bin (bin2bcd (y - 100)) + 100 = y ↔
      (y - 100).toNat % 160 = (y - 100).toNat := by
    rw [← toNat_bcd2bin_bin2bcd, BitVec.toNat_inj]
    exact BitVec.eq_sub_iff_add_eq.symm
  rw [hback]
  have hlt := y.isLt
  simp only [BitVec.toNat_sub, BitVec.reduceToNat, BitVec.toInt_eq_toNat_cond] at *
  split_ifs at * <;> omega

/-- What is decoded from the digits of `u` is decoded from its register. -/
theorem decoded {f : BitVec 8 → BitVec 32} {u v : BitVec 32}
    (h : f (toBcd u.toNat) = BitVec.ofNat 32 v.toNat) : f (bin2bcd u) = v := by
  rw [bin2bcd_eq, h, BitVec.ofNat_toNat, BitVec.setWidth_eq]

theorem toNat_add_one {v : BitVec 32} (h : v.toNat < 12) : (v + 1).toNat = v.toNat + 1 := by
  rw [BitVec.toNat_add]
  simp only [BitVec.reduceToNat]
  omega

/-- All fields but the year come back. -/
theorem decode_encode (h : Accepted t) :
    decode (encode t) = t ↔ bcd2bin (bin2bcd (t.tmYear - 100)) + 100 = t.tmYear := by
  have hsec : bcd2bin (bin2bcd t.tmSec &&& 0x7f) = t.tmSec :=
    decoded (f := fun r => bcd2bin (r &&& 0x7f)) (decode_sec _ h.sec)
  have hmin : bcd2bin (bin2bcd t.tmMin &&& 0x7f) = t.tmMin :=
    decoded (f := fun r => bcd2bin (r &&& 0x7f)) (decode_sec _ h.min)
  have hhour : bcd2bin (bin2bcd t.tmHour &&& 0x3f) = t.tmHour :=
    decoded (f := fun r => bcd2bin (r &&& 0x3f)) (decode_hour _ h.hour)
  have hwday : bcd2bin (bin2bcd (t.tmWday + 1) &&& 0x07) - 1 = t.tmWday := by
    have hday := toNat_add_one (Nat.lt_of_le_of_lt h.wday (by decide))
    apply decoded (f := fun r => bcd2bin (r &&& 0x07) - 1)
    rw [hday]
    exact decode_day _ (Nat.lt_succ_of_le (Nat.succ_le_succ h.wday)) (Nat.le_add_left 1 _)
  have hmday : bcd2bin (bin2bcd t.tmMday &&& 0x3f) = t.tmMday :=
    decoded (f := fun r => bcd2bin (r &&& 0x3f)) (decode_date _ (Nat.lt_succ_of_le h.mday.2))
  have hmon : bcd2bin (bin2bcd (t.tmMon + 1) &&& 0x1f) - 1 = t.tmMon := by
    have hmonth := toNat_add_one h.mon
    apply decoded (f := fun r => bcd2bin (r &&& 0x1f) - 1)
    rw [hmonth]
    exact decode_month _ (Nat.succ_lt_succ h.mon) (Nat.le_add_left 1 _)
  constructor
  · intro hall
    exact congrArg RtcTime.tmYear hall
  · exact fun hyear => RtcTime.ext hsec hmin hhour hwday hmday hmon hyear

/-- A time comes back from the chip if and only if it is of the years 2000 to 2159. -/
theorem readsBack_iff_year (chip : Regs) (h : Accepted t) :
    ReadsBack chip t ↔ 100 ≤ t.tmYear.toInt ∧ t.tmYear.toInt ≤ 259 := by
  rw [readsBack_iff_decode, decode_encode h]
  exact year_iff t.tmYear h.year

/-- Noon of a day in 2024. -/
theorem readsBack_2024 :
    ReadsBack (fun _ => 0) ⟨0, 0, 12, 4, 29, 1, 124⟩ ↔
      100 ≤ (124 : BitVec 32).toInt ∧ (124 : BitVec 32).toInt ≤ 259 :=
  readsBack_iff_year _ ⟨by decide, by decide, by decide, by decide, by decide, by decide, by decide⟩

/-- The last second of 1999 comes back as that of 2095. -/
theorem not_readsBack_1999 :
    ¬∀ (chip : Regs) (t : RtcTime), Accepted t → ReadsBack chip t := by
  intro h
  have hback := h (fun _ => 0) ⟨59, 59, 23, 5, 31, 11, 99⟩
    ⟨by decide, by decide, by decide, by decide, by decide, by decide, by decide⟩
  rw [readsBack_iff_decode] at hback
  exact absurd (congrArg RtcTime.tmYear hback) (by decide)

end RoundTrip

end LinuxDeviceDrivers.Ds1307Bus
