import LinuxDeviceDrivers.Ds1307Bus
import Mathlib.Algebra.GroupWithZero.Nat

/-!
# Setting the DS1307 while it ticks

`ds1307_set_time` writes one register after the other, the seconds first, and
the chip counts on between two writes. A full minute that falls between them
carries through the registers as they stand then, some with the new time and
some with the old one.

The chip runs right from then on exactly if the carry of the new time stays
within the registers written so far, and the month that the chip sees at
midnight is as long as the new one.
-/
namespace LinuxDeviceDrivers.Ds1307SetTime
open Ds1307Rtc Ds1307Bus ChipTime

/-! ## A chip that holds any counters -/

instance : NeZero NR_REGS := ⟨by decide⟩

/-- The number in each register, not necessarily those of a time. -/
abbrev Counters := Fin NR_REGS → ℕ

/-- Whether a chip ends its month. A date that the month does not have ends it
or not as the chip likes. -/
structure Calendar where
  rolls : ℕ → ℕ → ℕ → Bool
  rolls_iff : ∀ {date month year}, date ≤ daysIn month year →
    (rolls date month year = true ↔ date = daysIn month year)

/-- The tick reaches a register. -/
def Carries (cal : Calendar) (f : Counters) : Fin NR_REGS → Prop
  | 0 => True
  | 1 => ¬f 0 < 59
  | 2 => ¬f 0 < 59 ∧ ¬f 1 < 59
  | 3 | 4 => ¬f 0 < 59 ∧ ¬f 1 < 59 ∧ ¬f 2 < 23
  | 5 => ¬f 0 < 59 ∧ ¬f 1 < 59 ∧ ¬f 2 < 23 ∧ cal.rolls (f 4) (f 5) (f 6) = true
  | 6 => ¬f 0 < 59 ∧ ¬f 1 < 59 ∧ ¬f 2 < 23 ∧ cal.rolls (f 4) (f 5) (f 6) = true ∧ ¬f 5 < 12

instance (cal : Calendar) (f : Counters) : (i : Fin NR_REGS) → Decidable (Carries cal f i)
  | 0 => inferInstanceAs (Decidable True)
  | 1 => inferInstanceAs (Decidable (¬_))
  | 2 | 3 | 4 | 5 | 6 => inferInstanceAs (Decidable (_ ∧ _))

/-- What a register holds after a tick that reaches it. -/
def advance (cal : Calendar) (f : Counters) : Fin NR_REGS → ℕ
  | 0 => if f 0 < 59 then f 0 + 1 else 0
  | 1 => if f 1 < 59 then f 1 + 1 else 0
  | 2 => if f 2 < 23 then f 2 + 1 else 0
  | 3 => if f 3 = 7 then 1 else f 3 + 1
  | 4 => if cal.rolls (f 4) (f 5) (f 6) then 1 else f 4 + 1
  | 5 => if f 5 < 12 then f 5 + 1 else 1
  | 6 => (f 6 + 1) % 100

def count (cal : Calendar) (f : Counters) : Counters := fun i =>
  if Carries cal f i then advance cal f i else f i

section Count
variable {cal : Calendar} {f g : Counters} {c : ChipTime} {i : Fin NR_REGS} {n : ℕ}

theorem regs_ext (h0 : f 0 = g 0) (h1 : f 1 = g 1) (h2 : f 2 = g 2) (h3 : f 3 = g 3)
    (h4 : f 4 = g 4) (h5 : f 5 = g 5) (h6 : f 6 = g 6) : f = g := by
  funext i
  match i with
  | 0 => exact h0
  | 1 => exact h1
  | 2 => exact h2
  | 3 => exact h3
  | 4 => exact h4
  | 5 => exact h5
  | 6 => exact h6

theorem midnight_day (c : ChipTime) : c.midnight.day = if c.day = 7 then 1 else c.day + 1 := by
  simp only [midnight]
  split_ifs <;> rfl

theorem count_midnight (hs : ¬c.sec < 59) (hm : ¬c.min < 59) (hh : ¬c.hour < 23) :
    count cal c.field = c.midnight.field := by
  have hle := c.date_range.2
  have hrolls := cal.rolls_iff hle
  have hday : count cal c.field 3 = c.midnight.day := by
    rw [midnight_day]
    exact if_pos ⟨hs, hm, hh⟩
  funext i
  by_cases hd : c.date < daysIn c.month c.year
  · have hstay := mt hrolls.mp (Nat.ne_of_lt hd)
    match i with
    | 3 => exact hday
    | 0 | 1 | 2 | 4 | 5 | 6 => simp [count, Carries, advance, field, midnight, hs, hm, hh, hd, hstay]
  have hroll := hrolls.mpr (Nat.le_antisymm hle (Nat.not_lt.mp hd))
  by_cases hmon : c.month < 12
  · match i with
    | 3 => exact hday
    | 0 | 1 | 2 | 4 | 5 | 6 =>
        simp [count, Carries, advance, field, midnight, hs, hm, hh, hd, hroll, hmon]
  · match i with
    | 3 => exact hday
    | 0 | 1 | 2 | 4 | 5 | 6 =>
        simp [count, Carries, advance, field, midnight, hs, hm, hh, hd, hroll, hmon]

/-- The tick of a chip that holds a time. -/
theorem count_field (cal : Calendar) (c : ChipTime) : count cal c.field = c.tick.field := by
  unfold tick
  split_ifs with hs hm hh
  · apply regs_ext <;> simp [count, Carries, advance, field, hs]
  · apply regs_ext <;> simp [count, Carries, advance, field, hs, hm]
  · apply regs_ext <;> simp [count, Carries, advance, field, hs, hm, hh]
  · exact count_midnight hs hm hh

theorem iterate_count_field (cal : Calendar) (c : ChipTime) (n : ℕ) :
    (count cal)^[n] c.field = (tick^[n] c).field := by
  induction n with
  | zero => rfl
  | succ n ih => rw [Function.iterate_succ_apply', Function.iterate_succ_apply', ih, count_field]

@[simp] theorem update_secs_mins (f : Counters) (s : ℕ) : Function.update f 0 s 1 = f 1 := rfl

/-- Within a minute only the seconds move. -/
theorem count_update {s : ℕ} (h : s < 59) :
    count cal (Function.update f 0 s) = Function.update f 0 (s + 1) := by
  apply regs_ext <;> simp [count, Carries, advance, h]

theorem iterate_count_update {s : ℕ} (h : s + n < 60) :
    (count cal)^[n] (Function.update f 0 s) = Function.update f 0 (s + n) := by
  induction n generalizing s with
  | zero => rfl
  | succ n ih =>
      rw [Function.iterate_succ_apply, count_update (by omega), ih (by omega), Nat.add_right_comm,
        Nat.add_assoc]

/-- The counters after the full minute, except for the seconds. -/
def minute (cal : Calendar) (f : Counters) : Counters := count cal (Function.update f 0 59)

theorem minute_zero : minute cal f 0 = 0 := by
  simp [minute, count, Carries, advance]

theorem iterate_count_minute {s : ℕ} (hs : s < 60) (hfull : 60 ≤ s + n) (hend : s + n < 120) :
    (count cal)^[n] (Function.update f 0 s) = Function.update (minute cal f) 0 (s + n - 60) := by
  obtain ⟨k, rfl⟩ := Nat.exists_eq_add_of_le (show 60 - s ≤ n by omega)
  have hlast : Function.update (minute cal f) 0 0 = minute cal f := by
    have hzero := @minute_zero cal f
    rw [← hzero, Function.update_eq_self]
  have hfirst : (count cal)^[60 - s] (Function.update f 0 s) = minute cal f := by
    obtain ⟨j, hj⟩ : ∃ j, 60 - s = j + 1 := ⟨59 - s, by omega⟩
    rw [hj, Function.iterate_succ_apply', iterate_count_update (by omega)]
    rw [show s + j = 59 by omega, minute]
  rw [Nat.add_comm, Function.iterate_add_apply, hfirst, ← hlast, iterate_count_update (by omega), hlast]
  congr 1
  omega

theorem update_zero_inj {s : ℕ} :
    Function.update f 0 s = Function.update g 0 s ↔ ∀ i ≠ 0, f i = g i := by
  constructor
  · intro h i hi
    have happ := congrFun h i
    rwa [Function.update_of_ne hi, Function.update_of_ne hi] at happ
  · intro h
    funext i
    by_cases hi : i = 0
    · rw [hi, Function.update_self, Function.update_self]
    · rw [Function.update_of_ne hi, Function.update_of_ne hi, h i hi]

end Count

/-! ## The call -/

/-- A write of a byte to a register: the chip counts on from its two digits. -/
def i2cSmbusWriteByteData (f : Counters) (i : Fin NR_REGS) (value : BitVec 8) : Counters :=
  Function.update f i (bcd2bin value).toNat

/-- Writes of the staged registers; behind each one the chip counts for a while. -/
def writeRegs (cal : Calendar) (rtcInfo : Regs) (wait : Fin NR_REGS → ℕ) :
    List (Fin NR_REGS) → Counters → Counters
  | [], f => f
  | i :: is, f =>
      writeRegs cal rtcInfo wait is
        ((count cal)^[wait i] (i2cSmbusWriteByteData f i (rtcInfo i)))

/-- `ds1307_set_time` on a chip that counts. -/
def ds1307SetTime (cal : Calendar) (t : RtcTime) (wait : Fin NR_REGS → ℕ) (f : Counters) :
    ℤ × Counters :=
  (0, writeRegs cal (encode t) wait transfers f)

def ticks (wait : Fin NR_REGS → ℕ) (is : List (Fin NR_REGS)) : ℕ := (is.map wait).sum

/-- The registers still to be written when the minute is full, `s + w` seconds
into it before the next write. -/
def late (wait : Fin NR_REGS → ℕ) (s w : ℕ) : List (Fin NR_REGS) → List (Fin NR_REGS)
  | [] => []
  | i :: is => if s + w < 60 then late wait (s + w) (wait i) is else i :: is

/-- What is on the chip before the registers `todo` are written. -/
def mix (g old : Counters) (todo : List (Fin NR_REGS)) : Counters := fun i =>
  if i ∈ todo then old i else g i

section Writes
variable {cal : Calendar} {f g old : Counters} {i : Fin NR_REGS} {is todo : List (Fin NR_REGS)}
  {wait : Fin NR_REGS → ℕ} {rtcInfo : Regs} {s w : ℕ}

/-- The registers hold the numbers `g`. -/
def Stages (rtcInfo : Regs) (g : Counters) : Prop := ∀ i, (bcd2bin (rtcInfo i)).toNat = g i

theorem ticks_cons : ticks wait (i :: is) = wait i + ticks wait is := List.sum_cons

theorem write_mix (hg : Stages rtcInfo g) (hi : i ≠ 0) (his : i ∉ is) :
    i2cSmbusWriteByteData (Function.update (mix g old (i :: is)) 0 s) i (rtcInfo i) =
      Function.update (mix g old is) 0 s := by
  funext j
  rw [i2cSmbusWriteByteData, hg i]
  by_cases hji : j = i
  · subst hji
    rw [Function.update_self, Function.update_of_ne hi, mix, if_neg his]
  rw [Function.update_of_ne hji]
  by_cases hj : j = 0
  · subst hj
    rw [Function.update_self, Function.update_self]
  · rw [Function.update_of_ne hj, Function.update_of_ne hj, mix, mix]
    simp only [List.mem_cons, hji, false_or]

/-- Without a full minute the writes put down their registers. -/
theorem writeRegs_update (hg : Stages rtcInfo g) (h0 : 0 ∉ is) (hs : s + ticks wait is < 60) :
    writeRegs cal rtcInfo wait is (Function.update f 0 s) =
      Function.update (mix f g is) 0 (s + ticks wait is) := by
  induction is generalizing f s with
  | nil =>
      rw [writeRegs]
      rfl
  | cons i is ih =>
      rw [ticks_cons] at hs ⊢
      have hi : i ≠ 0 := fun h => h0 (h ▸ List.mem_cons_self)
      rw [writeRegs, i2cSmbusWriteByteData, hg i, Function.update_comm hi.symm,
        iterate_count_update (by omega), ih (List.not_mem_of_not_mem_cons h0) (by omega),
        Nat.add_assoc]
      congr 1
      funext j
      simp only [mix, List.mem_cons]
      by_cases hji : j = i
      · subst hji
        simp
      · simp [hji]

end Writes

/-- The full minute of the new time finds what it changes written, and at
midnight a month that ends when the new one does. -/
structure Takes (cal : Calendar) (g old : Counters) (todo : List (Fin NR_REGS)) : Prop where
  written : ∀ i ∈ todo, ¬Carries cal (Function.update g 0 59) i
  month : Carries cal (Function.update g 0 59) REG_OFFSET_DATE →
    cal.rolls (g REG_OFFSET_DATE) (mix g old todo REG_OFFSET_MONTH) (mix g old todo REG_OFFSET_YEAR) =
      cal.rolls (g REG_OFFSET_DATE) (g REG_OFFSET_MONTH) (g REG_OFFSET_YEAR)

section Takes
variable {cal : Calendar} {f g old : Counters} {d : ChipTime} {i : Fin NR_REGS}
  {todo : List (Fin NR_REGS)} {wait : Fin NR_REGS → ℕ} {rtcInfo : Regs} {s w : ℕ}

theorem minute_of_not_carries (hi : i ≠ 0) (h : ¬Carries cal (Function.update g 0 59) i) :
    minute cal g i = g i := by
  rw [minute, count, if_neg h, Function.update_of_ne hi]

theorem advance_ne (d : ChipTime) (hi : i ≠ 0) (h : Carries cal (Function.update d.field 0 59) i) :
    advance cal (Function.update d.field 0 59) i ≠ d.field i := by
  have hdate := cal.rolls_iff d.date_range.2
  match i with
  | 0 => exact absurd rfl hi
  | 1 =>
      show (if d.min < 59 then d.min + 1 else 0) ≠ d.min
      split_ifs <;> omega
  | 2 =>
      show (if d.hour < 23 then d.hour + 1 else 0) ≠ d.hour
      split_ifs <;> omega
  | 3 =>
      show (if d.day = 7 then 1 else d.day + 1) ≠ d.day
      split_ifs <;> omega
  | 4 =>
      show (if cal.rolls d.date d.month d.year then 1 else d.date + 1) ≠ d.date
      have hdays : 28 ≤ daysIn d.month d.year := by
        unfold daysIn
        split_ifs <;> decide
      split_ifs with hroll
      · rw [hdate.mp hroll]
        omega
      · omega
  | 5 =>
      show (if d.month < 12 then d.month + 1 else 1) ≠ d.month
      split_ifs <;> omega
  | 6 =>
      have hyear := d.year_lt
      show (d.year + 1) % 100 ≠ d.year
      omega

theorem minute_eq_iff (d : ChipTime) (hi : i ≠ 0) :
    minute cal d.field i = d.field i ↔ ¬Carries cal (Function.update d.field 0 59) i := by
  constructor
  · intro h hcarry
    rw [minute, count, if_pos hcarry] at h
    exact advance_ne d hi hcarry h
  · exact minute_of_not_carries hi

theorem minute_date (h : Carries cal (Function.update f 0 59) 4) :
    minute cal f 4 = if cal.rolls (f 4) (f 5) (f 6) then 1 else f 4 + 1 :=
  if_pos h

theorem carries_date (cal : Calendar) (h1 : f 1 = g 1) (h2 : f 2 = g 2) :
    Carries cal (Function.update f 0 59) 4 ↔ Carries cal (Function.update g 0 59) 4 := by
  simp [Carries, h1, h2]

theorem carries_month :
    Carries cal f 5 ↔ Carries cal f 4 ∧ cal.rolls (f 4) (f 5) (f 6) = true := by
  simp only [Carries, and_assoc]

/-- What a register holds after the full minute depends on the registers below
it and, from the date on, on the end of the month. -/
theorem minute_congr (hi : i ≠ 0) (h : ∀ j ≤ i, f j = g j)
    (hmonth : 4 ≤ i → Carries cal (Function.update g 0 59) 4 →
      cal.rolls (f 4) (f 5) (f 6) = cal.rolls (g 4) (g 5) (g 6)) :
    minute cal f i = minute cal g i := by
  match i with
  | 0 => exact absurd rfl hi
  | 1 =>
      have h1 := h 1 (by decide)
      show (if f 1 < 59 then f 1 + 1 else 0) = if g 1 < 59 then g 1 + 1 else 0
      rw [h1]
  | 2 =>
      have h1 := h 1 (by decide)
      have h2 := h 2 (by decide)
      simp [minute, count, Carries, advance, h1, h2]
  | 3 =>
      have h1 := h 1 (by decide)
      have h2 := h 2 (by decide)
      have h3 := h 3 (by decide)
      simp [minute, count, Carries, advance, h1, h2, h3]
  | 4 =>
      have hdate := carries_date cal (h 1 (by decide)) (h 2 (by decide))
      by_cases hcarry : Carries cal (Function.update g 0 59) 4
      · rw [minute_date (hdate.mpr hcarry), minute_date hcarry, h 4 (Fin.le_refl 4),
          ← hmonth (Fin.le_refl 4) hcarry, h 4 (Fin.le_refl 4)]
      · rw [minute_of_not_carries hi (mt hdate.mp hcarry), minute_of_not_carries hi hcarry,
          h 4 (Fin.le_refl 4)]
  | 5 =>
      have hdate := carries_date cal (h 1 (by decide)) (h 2 (by decide))
      have hroll : Carries cal (Function.update f 0 59) 5 ↔ Carries cal (Function.update g 0 59) 5 := by
        rw [carries_month, carries_month, hdate]
        apply and_congr_right
        intro hcarry
        exact Bool.eq_iff_iff.mp (hmonth (by decide) hcarry)
      have h5 := h 5 (Fin.le_refl 5)
      simp only [minute, count, hroll, advance]
      simp [h5]
  | 6 =>
      have h1 := h 1 (by decide)
      have h2 := h 2 (by decide)
      have h4 := h 4 (by decide)
      have h5 := h 5 (by decide)
      have h6 := h 6 (by decide)
      simp [minute, count, Carries, advance, h1, h2, h4, h5, h6]

theorem ite_one_succ_inj {p q : Prop} [Decidable p] [Decidable q] {n : ℕ} (hn : 1 ≤ n) :
    ((if p then 1 else n + 1) = if q then 1 else n + 1) ↔ (p ↔ q) := by
  split_ifs with hp hq hq <;> simp [hp, hq] <;> omega

/-! The registers that a call has still to write. -/

theorem zero_notMem (h : todo <:+ transfers.tail) : 0 ∉ todo := by
  have hall : ∀ todo ∈ transfers.tail.tails, 0 ∉ todo := by decide
  exact hall todo (List.mem_tails todo _ |>.mpr h)

theorem nodup_of_suffix (h : todo <:+ transfers.tail) : todo.Nodup :=
  List.Nodup.sublist h.sublist (by decide)

theorem mem_of_le (h : todo <:+ transfers.tail) : ∀ {i j}, i ∈ todo → i ≤ j → j ∈ todo := by
  have hall : ∀ todo ∈ transfers.tail.tails, ∀ i ∈ todo, ∀ j, i ≤ j → j ∈ todo := by decide
  intro i j hi hij
  exact hall todo (List.mem_tails todo _ |>.mpr h) i hi j hij

theorem mix_of_notMem (h : todo <:+ transfers.tail) {j : Fin NR_REGS} (hi : i ∉ todo) (hj : j ≤ i) :
    mix g old todo j = g j :=
  if_neg fun hmem => hi (mem_of_le h hmem hj)

/-- The chip comes through the full minute with the new time, apart from what
is still to be written. -/
theorem takes_iff (d : ChipTime) (h : todo <:+ transfers.tail) :
    (∀ i ≠ 0, mix (minute cal (mix d.field old todo)) d.field todo i = minute cal d.field i) ↔
      Takes cal d.field old todo := by
  constructor
  · intro heq
    have hwritten : ∀ i ∈ todo, ¬Carries cal (Function.update d.field 0 59) i := by
      intro i hi
      have hne : i ≠ 0 := fun h0 => zero_notMem h (h0 ▸ hi)
      have hi' := heq i hne
      rw [mix, if_pos hi] at hi'
      exact (minute_eq_iff d hne).mp hi'.symm
    refine ⟨hwritten, fun hcarry => ?_⟩
    have hmem : (4 : Fin NR_REGS) ∉ todo := fun hm => hwritten 4 hm hcarry
    have hdate := heq 4 (by decide)
    rw [mix, if_neg hmem] at hdate
    have hmix : Carries cal (Function.update (mix d.field old todo) 0 59) 4 :=
      (carries_date cal (mix_of_notMem h hmem (by decide)) (mix_of_notMem h hmem (by decide))).mpr hcarry
    have hpos : 1 ≤ d.field 4 := d.date_range.1
    rw [minute_date hmix, minute_date hcarry, mix_of_notMem h hmem (Fin.le_refl 4)] at hdate
    exact Bool.eq_iff_iff.mpr ((ite_one_succ_inj hpos).mp hdate)
  · intro htakes i hi
    rw [mix]
    split_ifs with hmem
    · exact (minute_of_not_carries hi (htakes.written i hmem)).symm
    · apply minute_congr hi
      · intro j hj
        exact mix_of_notMem h hmem hj
      · intro hle hcarry
        have hdate : mix d.field old todo 4 = d.field 4 := mix_of_notMem h hmem hle
        rw [hdate]
        exact htakes.month hcarry

/-- The rest of a call that starts `s` seconds into the minute of the new time. -/
theorem writeRegs_iff (d : ChipTime) (hg : Stages rtcInfo d.field) (h : todo <:+ transfers.tail)
    (hs : s < 60) (hend : s + w + ticks wait todo < 120) :
    writeRegs cal rtcInfo wait todo ((count cal)^[w] (Function.update (mix d.field old todo) 0 s)) =
        (count cal)^[w + ticks wait todo] (Function.update d.field 0 s) ↔
      Takes cal d.field old (late wait s w todo) := by
  induction todo generalizing s w with
  | nil =>
      have hmix : mix d.field old [] = d.field := rfl
      simp only [writeRegs, hmix, ticks, List.map_nil, List.sum_nil, Nat.add_zero, late, true_iff]
      exact ⟨fun i hi => absurd hi List.not_mem_nil, fun _ => rfl⟩
  | cons i is ih =>
      have hzero := zero_notMem h
      have htail : is <:+ transfers.tail := (List.suffix_cons i is).trans h
      have hi : i ≠ 0 := fun h0 => hzero (h0 ▸ List.mem_cons_self)
      rw [late]
      split_ifs with hminute
      · rw [ticks_cons] at hend ⊢
        have hstart : (count cal)^[w + (wait i + ticks wait is)] (Function.update d.field 0 s) =
            (count cal)^[wait i + ticks wait is] (Function.update d.field 0 (s + w)) := by
          rw [Nat.add_comm w, Function.iterate_add_apply, iterate_count_update hminute]
        rw [hstart, ← ih htail hminute (by omega), iterate_count_update hminute, writeRegs,
          write_mix hg hi (List.nodup_cons.mp (nodup_of_suffix h)).1]
      · rw [iterate_count_minute hs (by omega) (by omega), writeRegs_update hg hzero (by omega),
          iterate_count_minute hs (by omega) (by omega), ← takes_iff d h,
          show s + w - 60 + ticks wait (i :: is) = s + (w + ticks wait (i :: is)) - 60 by omega]
        exact update_zero_inj

/-- The driver stages the time that the chip is to show. -/
theorem stages_shows (d : ChipTime) : Stages (encode d.shows) d.field := by
  have hsec := d.sec_lt
  have hmin := d.min_lt
  have hhour := d.hour_lt
  have hday := d.day_range
  have hdate := d.date_lt
  have hmonth := d.month_range
  have hyear := d.year_lt
  intro i
  match i with
  | 0 | 1 | 2 | 3 | 4 | 5 | 6 =>
      simp only [encode, shows, field, toNat_bcd2bin_bin2bcd, BitVec.toNat_add, BitVec.toNat_sub,
        BitVec.toNat_ofNat, BitVec.reduceToNat]
      omega

/-- After a call that ends before the second full minute the chip runs with the
new time exactly if the full minute found what it needs. -/
theorem setTime_runs_iff (cal : Calendar) (d : ChipTime) (wait : Fin NR_REGS → ℕ) (f : Counters)
    (hend : d.sec + ticks wait transfers < 120) :
    (∀ k, (count cal)^[k] (ds1307SetTime cal d.shows wait f).2 =
        (tick^[ticks wait transfers + k] d).field) ↔
      Takes cal d.field f (late wait d.sec (wait REG_OFFSET_SECS) transfers.tail) := by
  have hg := stages_shows d
  have hsecs : i2cSmbusWriteByteData f 0 (encode d.shows 0) =
      Function.update (mix d.field f transfers.tail) 0 d.sec := by
    rw [i2cSmbusWriteByteData, hg 0]
    apply update_zero_inj.mpr
    intro i hi
    have hmem : ∀ i : Fin NR_REGS, i ≠ 0 → i ∈ transfers.tail := by decide
    rw [mix, if_pos (hmem i hi)]
  have hsec : Function.update d.field 0 d.sec = d.field := Function.update_eq_self 0 d.field
  have hcall : (ds1307SetTime cal d.shows wait f).2 = (tick^[ticks wait transfers] d).field ↔
      Takes cal d.field f (late wait d.sec (wait REG_OFFSET_SECS) transfers.tail) := by
    rw [← writeRegs_iff d hg List.suffix_rfl d.sec_lt (by rwa [Nat.add_assoc, ← ticks_cons]),
      ← hsecs, hsec, iterate_count_field, ← ticks_cons]
    exact Iff.rfl
  rw [← hcall]
  constructor
  · intro h
    exact h 0
  · intro h k
    rw [h, iterate_count_field, Nat.add_comm, Function.iterate_add_apply]

theorem late_eq_nil (h : s + w + ticks wait todo < 60) : late wait s w todo = [] := by
  induction todo generalizing s w with
  | nil => rfl
  | cons i is ih =>
      rw [ticks_cons] at h
      rw [late, if_pos (by omega)]
      exact ih (by omega)

/-- No full minute in the call: whatever was on the chip, it runs right. -/
theorem setTime_runs (cal : Calendar) (d : ChipTime) (f : Counters)
    (h : d.sec + ticks wait transfers < 60) (k : ℕ) :
    (count cal)^[k] (ds1307SetTime cal d.shows wait f).2 =
      (tick^[ticks wait transfers + k] d).field := by
  have hlate : late wait d.sec (wait REG_OFFSET_SECS) transfers.tail = [] :=
    late_eq_nil (by rwa [Nat.add_assoc, ← ticks_cons])
  apply (setTime_runs_iff cal d wait f (by omega)).mpr
  rw [hlate]
  exact ⟨fun i hi => absurd hi List.not_mem_nil, fun _ => rfl⟩

/-- A chip that also ends a month behind its last day. -/
def Calendar.atLeast : Calendar where
  rolls date month year := daysIn month year ≤ date
  rolls_iff h := by
    rw [decide_eq_true_iff]
    exact ⟨Nat.le_antisymm h, fun heq => Nat.le_of_eq heq.symm⟩

/-- The 28th of February 2024 ends before the year is written over that of 2023. -/
theorem not_setTime_leapDay :
    ¬∀ k, (count .atLeast)^[k] (ds1307SetTime .atLeast
        (shows ⟨59, 59, 23, 3, 28, 2, 24, by decide, by decide, by decide, by decide, by decide,
          by decide, by decide⟩) (fun i => if i = REG_OFFSET_MONTH then 1 else 0)
        fun i => if i = REG_OFFSET_YEAR then 23 else 0).2 =
      (tick^[1 + k] ⟨59, 59, 23, 3, 28, 2, 24, by decide, by decide, by decide, by decide,
        by decide, by decide, by decide⟩).field := by
  intro h
  have htakes := (setTime_runs_iff .atLeast _ _ _ (by decide)).mp h
  exact absurd (htakes.month (by decide)) (by decide)

end Takes

end LinuxDeviceDrivers.Ds1307SetTime
