import LinuxDeviceDrivers.Ds1307Rtc
import LinuxDeviceDrivers.ThreadProgram

/-!
# Several DS1307 chips and one `rtc_info`

`ds1307_get_time` and `ds1307_set_time` step by step, for any number of chips.
The RTC core admits one call at a time to each device; calls on different
devices interleave at every transfer, every store to `rtc_info` and every load
from it, and the chips go on counting.

All devices stage their bytes in the same array. A call gets its own bytes back
as long as nobody stores another byte over one that it still has to use. What
its own bytes are is said by the run: the registers that its chip held at the
transfers of the call, and those that its chip holds after them.
-/
namespace LinuxDeviceDrivers.Ds1307Devices
open TransitionSystem ThreadProgram Ds1307Rtc

/-- `rtc_info`, the registers of the chip of each device, and the call that the
RTC core has let in on each device. -/
structure Shared where
  rtcInfo : Regs
  chips : ℕ → Regs
  opsLock : ℕ → Option ℕ

/-- The initialiser of `rtc_info`. -/
def rtcInfoInit : Regs := fun i => if i = REG_OFFSET_YEAR then 71 else 1

/-- `seen` are the bytes that the transfers of a call have returned, `loaded`
the bytes that it has taken out of `rtc_info`, and `sent` those that it has
written to its chip. -/
inductive Pc where
  | unstarted
  | getLock (d : ℕ)
  | xfer (d : ℕ) (i : Fin NR_REGS) (seen : Regs)
  | stage (d : ℕ) (i : Fin NR_REGS) (v : BitVec 8) (seen : Regs)
  | load (d : ℕ) (i : Fin NR_REGS) (seen loaded : Regs)
  | getUnlock (d : ℕ) (seen loaded : Regs)
  | getDone (d : ℕ) (seen : Regs) (t : RtcTime)
  | setLock (d : ℕ) (t : RtcTime)
  | fill (d : ℕ) (t : RtcTime) (i : Fin NR_REGS)
  | send (d : ℕ) (t : RtcTime) (i : Fin NR_REGS) (sent : Regs)
  | write (d : ℕ) (t : RtcTime) (i : Fin NR_REGS) (v : BitVec 8) (sent : Regs)
  | setUnlock (d : ℕ) (t : RtcTime) (sent : Regs)
  | setDone (d : ℕ) (t : RtcTime) (sent : Regs)

inductive Choice where
  | getTime (d : ℕ)
  | setTime (d : ℕ) (t : RtcTime)
  | run
  | count (d : ℕ) (regs : Regs)

inductive Effect where
  | skip
  | lock (d : ℕ)
  | unlock (d : ℕ)
  | stage (i : Fin NR_REGS) (v : BitVec 8)
  | write (d : ℕ) (i : Fin NR_REGS) (v : BitVec 8)
  | count (d : ℕ) (regs : Regs)

/-- The register after this one. -/
def nextReg (i : Fin NR_REGS) : Option (Fin NR_REGS) :=
  if h : i.val + 1 < NR_REGS then some ⟨i.val + 1, h⟩ else none

theorem lt_nextReg {i i' : Fin NR_REGS} (h : nextReg i = some i') (j : Fin NR_REGS) :
    j < i' ↔ j < i ∨ j = i := by
  unfold nextReg at h
  split_ifs at h
  cases h
  simp only [Fin.lt_def, Fin.ext_iff]
  omega

theorem le_nextReg_none {i : Fin NR_REGS} (h : nextReg i = none) (j : Fin NR_REGS) :
    j < i ∨ j = i := by
  unfold nextReg at h
  split_ifs at h
  simp only [Fin.lt_def, Fin.ext_iff]
  have := j.isLt
  omega

def ds1307GetTime (s : Shared) : Pc → Option (Effect × Pc)
  | .xfer d i seen => some (.skip, .stage d i (s.chips d i) seen)
  | .stage d i v seen =>
      let seen := Function.update seen i v
      match nextReg i with
      | some j => some (.stage i v, .xfer d j seen)
      | none => some (.stage i v, .load d REG_OFFSET_SECS seen fun _ => 0)
  | .load d i seen loaded =>
      let loaded := Function.update loaded i (s.rtcInfo i)
      match nextReg i with
      | some j => some (.skip, .load d j seen loaded)
      | none => some (.skip, .getUnlock d seen loaded)
  | _ => none

def ds1307SetTime (s : Shared) : Pc → Option (Effect × Pc)
  | .fill d t i =>
      match nextReg i with
      | some j => some (.stage i (encode t i), .fill d t j)
      | none => some (.stage i (encode t i), .send d t REG_OFFSET_SECS fun _ => 0)
  | .send d t i sent => some (.skip, .write d t i (s.rtcInfo i) sent)
  | .write d t i v sent =>
      let sent := Function.update sent i v
      match nextReg i with
      | some j => some (.write d i v, .send d t j sent)
      | none => some (.write d i v, .setUnlock d t sent)
  | _ => none

/-- The RTC core takes the lock of the device around a call. -/
def move (s : Shared) : Choice → Pc → Option (Effect × Pc)
  | .getTime d, .unstarted => some (.skip, .getLock d)
  | .setTime d t, .unstarted => some (.skip, .setLock d t)
  | .count d regs, .unstarted => some (.count d regs, .unstarted)
  | .run, .getLock d =>
      if s.opsLock d = none then some (.lock d, .xfer d REG_OFFSET_SECS fun _ => 0) else none
  | .run, .setLock d t =>
      if s.opsLock d = none then some (.lock d, .fill d t REG_OFFSET_SECS) else none
  | .run, .getUnlock d seen loaded => some (.unlock d, .getDone d seen (decode loaded))
  | .run, .setUnlock d t sent => some (.unlock d, .setDone d t sent)
  | .run, .xfer d i seen => ds1307GetTime s (.xfer d i seen)
  | .run, .stage d i v seen => ds1307GetTime s (.stage d i v seen)
  | .run, .load d i seen loaded => ds1307GetTime s (.load d i seen loaded)
  | .run, .fill d t i => ds1307SetTime s (.fill d t i)
  | .run, .send d t i sent => ds1307SetTime s (.send d t i sent)
  | .run, .write d t i v sent => ds1307SetTime s (.write d t i v sent)
  | _, _ => none

def effect (c : ℕ) : Effect → Shared → Shared
  | .skip, s => s
  | .lock d, s => { s with opsLock := Function.update s.opsLock d (some c) }
  | .unlock d, s => { s with opsLock := Function.update s.opsLock d none }
  | .stage i v, s => { s with rtcInfo := Function.update s.rtcInfo i v }
  | .write d i v, s =>
      { s with chips := Function.update s.chips d (Function.update (s.chips d) i v) }
  | .count d regs, s => { s with chips := Function.update s.chips d regs }

def program : Program Shared Choice Effect Pc where
  move := move
  effect := effect
  others _ p := p

abbrev State := Config Shared Pc

def initial (chips : ℕ → Regs) : State :=
  ⟨{ rtcInfo := rtcInfoInit, chips := chips, opsLock := fun _ => none }, fun _ => .unstarted⟩

def system : System State (ℕ × Choice) := program.system fun s => ∃ chips, s = initial chips

/-- Every move of a call, with the condition under which it is taken. -/
inductive Edge (s : Shared) : Choice → Pc → Effect → Pc → Prop
  | enterGet (d : ℕ) : Edge s (.getTime d) .unstarted .skip (.getLock d)
  | enterSet (d : ℕ) (t : RtcTime) : Edge s (.setTime d t) .unstarted .skip (.setLock d t)
  | count (d : ℕ) (regs : Regs) : Edge s (.count d regs) .unstarted (.count d regs) .unstarted
  | getLock (d : ℕ) : s.opsLock d = none →
      Edge s .run (.getLock d) (.lock d) (.xfer d REG_OFFSET_SECS fun _ => 0)
  | setLock (d : ℕ) (t : RtcTime) : s.opsLock d = none →
      Edge s .run (.setLock d t) (.lock d) (.fill d t REG_OFFSET_SECS)
  | xfer (d : ℕ) (i : Fin NR_REGS) (seen : Regs) :
      Edge s .run (.xfer d i seen) .skip (.stage d i (s.chips d i) seen)
  | stage (d : ℕ) (i j : Fin NR_REGS) (v : BitVec 8) (seen : Regs) : nextReg i = some j →
      Edge s .run (.stage d i v seen) (.stage i v) (.xfer d j (Function.update seen i v))
  | staged (d : ℕ) (i : Fin NR_REGS) (v : BitVec 8) (seen : Regs) : nextReg i = none →
      Edge s .run (.stage d i v seen) (.stage i v)
        (.load d REG_OFFSET_SECS (Function.update seen i v) fun _ => 0)
  | load (d : ℕ) (i j : Fin NR_REGS) (seen loaded : Regs) : nextReg i = some j →
      Edge s .run (.load d i seen loaded) .skip
        (.load d j seen (Function.update loaded i (s.rtcInfo i)))
  | loaded (d : ℕ) (i : Fin NR_REGS) (seen loaded : Regs) : nextReg i = none →
      Edge s .run (.load d i seen loaded) .skip
        (.getUnlock d seen (Function.update loaded i (s.rtcInfo i)))
  | getUnlock (d : ℕ) (seen loaded : Regs) :
      Edge s .run (.getUnlock d seen loaded) (.unlock d) (.getDone d seen (decode loaded))
  | fill (d : ℕ) (t : RtcTime) (i j : Fin NR_REGS) : nextReg i = some j →
      Edge s .run (.fill d t i) (.stage i (encode t i)) (.fill d t j)
  | filled (d : ℕ) (t : RtcTime) (i : Fin NR_REGS) : nextReg i = none →
      Edge s .run (.fill d t i) (.stage i (encode t i)) (.send d t REG_OFFSET_SECS fun _ => 0)
  | send (d : ℕ) (t : RtcTime) (i : Fin NR_REGS) (sent : Regs) :
      Edge s .run (.send d t i sent) .skip (.write d t i (s.rtcInfo i) sent)
  | write (d : ℕ) (t : RtcTime) (i j : Fin NR_REGS) (v : BitVec 8) (sent : Regs) :
      nextReg i = some j →
      Edge s .run (.write d t i v sent) (.write d i v) (.send d t j (Function.update sent i v))
  | written (d : ℕ) (t : RtcTime) (i : Fin NR_REGS) (v : BitVec 8) (sent : Regs) :
      nextReg i = none →
      Edge s .run (.write d t i v sent) (.write d i v) (.setUnlock d t (Function.update sent i v))
  | setUnlock (d : ℕ) (t : RtcTime) (sent : Regs) :
      Edge s .run (.setUnlock d t sent) (.unlock d) (.setDone d t sent)

section Inversion
variable {s : Shared} {e : Effect} {p' : Pc}

theorem edge_of_getTime {p : Pc} (h : ds1307GetTime s p = some (e, p')) : Edge s .run p e p' := by
  cases p with
  | xfer d i seen => cases h; exact .xfer d i seen
  | stage d i v seen =>
      simp only [ds1307GetTime] at h
      split at h <;> cases h
      · exact .stage d i _ v seen ‹_›
      · exact .staged d i v seen ‹_›
  | load d i seen loaded =>
      simp only [ds1307GetTime] at h
      split at h <;> cases h
      · exact .load d i _ seen loaded ‹_›
      · exact .loaded d i seen loaded ‹_›
  | _ => cases h

theorem edge_of_setTime {p : Pc} (h : ds1307SetTime s p = some (e, p')) : Edge s .run p e p' := by
  cases p with
  | fill d t i =>
      simp only [ds1307SetTime] at h
      split at h <;> cases h
      · exact .fill d t i _ ‹_›
      · exact .filled d t i ‹_›
  | send d t i sent => cases h; exact .send d t i sent
  | write d t i v sent =>
      simp only [ds1307SetTime] at h
      split at h <;> cases h
      · exact .write d t i _ v sent ‹_›
      · exact .written d t i v sent ‹_›
  | _ => cases h

theorem edge_of_move {k : Choice} {p : Pc} (h : move s k p = some (e, p')) : Edge s k p e p' := by
  unfold move at h
  split at h
  · cases h; exact .enterGet _
  · cases h; exact .enterSet _ _
  · cases h; exact .count _ _
  · split_ifs at h with ho
    cases h
    exact .getLock _ ho
  · split_ifs at h with ho
    cases h
    exact .setLock _ _ ho
  · cases h; exact .getUnlock _ _ _
  · cases h; exact .setUnlock _ _ _
  · exact edge_of_getTime h
  · exact edge_of_getTime h
  · exact edge_of_getTime h
  · exact edge_of_setTime h
  · exact edge_of_setTime h
  · exact edge_of_setTime h
  · cases h

theorem edge_of_step {s t : State} {c : ℕ} {k : Choice} {e : Effect} (h : program.Step s c k e t) :
    Edge s.shared k (s.pc c) e (t.pc c) :=
  edge_of_move h.move

end Inversion

/-- The device that a call has locked. -/
def deviceOf : Pc → Option ℕ
  | .xfer d _ _ | .stage d _ _ _ | .load d _ _ _ | .getUnlock d _ _ => some d
  | .fill d _ _ | .send d _ _ _ | .write d _ _ _ _ | .setUnlock d _ _ => some d
  | _ => none

/-- The lock of the RTC core for one device. -/
def rtcLock (d : ℕ) : Lock program where
  owner s := s.opsLock d
  holds p := deviceOf p = some d
  others _ _ := Iff.rfl
  move := by
    intro s k p e p' c h
    cases edge_of_move h with
    | getLock d' ho | setLock d' _ ho =>
        show LockMove c (s.opsLock d) _ _ (Function.update s.opsLock d' (some c) d)
        by_cases hd : d' = d
        · subst hd
          rw [Function.update_self]
          exact .acquire ho nofun rfl
        · rw [Function.update_of_ne (Ne.symm hd)]
          exact .outside nofun fun he => hd (Option.some.inj he)
    | getUnlock d' | setUnlock d' =>
        show LockMove c (s.opsLock d) _ _ (Function.update s.opsLock d' none d)
        by_cases hd : d' = d
        · subst hd
          rw [Function.update_self]
          exact .release rfl nofun
        · rw [Function.update_of_ne (Ne.symm hd)]
          exact .outside (fun he => hd (Option.some.inj he)) nofun
    | _ => exact .stay Iff.rfl

/-- The byte of `rtc_info` that a call has stored and still has to use. -/
def expects : Pc → Fin NR_REGS → Option (BitVec 8)
  | .xfer _ i seen, j => if j < i then some (seen j) else none
  | .stage _ i _ seen, j => if j < i then some (seen j) else none
  | .load _ i seen _, j => if j < i then none else some (seen j)
  | .fill _ t i, j => if j < i then some (encode t j) else none
  | .send _ t i _, j => if j < i then none else some (encode t j)
  | .write _ t i _ _, j => if j < i ∨ j = i then none else some (encode t j)
  | _, _ => none

/-- The store to `rtc_info` that a call is about to make. -/
def staging : Pc → Option (Fin NR_REGS × BitVec 8)
  | .stage _ i v _ => some (i, v)
  | .fill _ t i => some (i, encode t i)
  | _ => none

/-- No byte of `rtc_info` is replaced by another one while a call on another
device still has to use it. -/
def Undisturbed (s : State) (a : ℕ × Choice) : Prop :=
  ∀ i v, a.2 = .run → staging (s.pc a.1) = some (i, v) →
    ∀ u w, deviceOf (s.pc u) ≠ deviceOf (s.pc a.1) → expects (s.pc u) i = some w → w = v

/-- What a call has taken out of `rtc_info` is what it has put in. -/
def Honest : Pc → Prop
  | .load _ i seen loaded => ∀ j < i, loaded j = seen j
  | .getUnlock _ seen loaded => loaded = seen
  | .getDone _ seen t => t = decode seen
  | .send _ t i sent => ∀ j < i, sent j = encode t j
  | .write _ t i v sent => v = encode t i ∧ ∀ j < i, sent j = encode t j
  | .setUnlock _ t sent | .setDone _ t sent => sent = encode t
  | _ => True

section History
variable (s : State) (as : List (ℕ × Choice)) (c d : ℕ)

/-- In the run from `s` under `as`, call `c` makes the transfer of register `i` of
device `d` while the chip holds `v` there. -/
def Reads (i : Fin NR_REGS) (v : BitVec 8) : Prop :=
  ∃ u w seen, system.Takes s as u (c, .run) w ∧ u.pc c = .xfer d i seen ∧ u.shared.chips d i = v

/-- Call `c` has been asked to set `time`, and its transfer to register `i` of
device `d` leaves `v` there. -/
def Stores (time : RtcTime) (i : Fin NR_REGS) (v : BitVec 8) : Prop :=
  ∃ u w b sent, system.Takes s as u (c, .run) w ∧ u.pc c = .write d time i b sent ∧
    w.shared.chips d i = v

/-- Every get that has returned has returned the decoding of what it read from its
own chip, and every set has written the encoding of its own argument to its own
chip. A chip changes by nothing else than its counting and the sets of its own
device. -/
structure OwnData (t : State) : Prop where
  got : ∀ c d seen time, t.pc c = .getDone d seen time →
    ∃ regs, time = decode regs ∧ ∀ i, Reads s as c d i (regs i)
  set : ∀ c d time sent, t.pc c = .setDone d time sent →
    ∀ i, Stores s as c d time i (encode time i)
  only : ∀ u c k w d, system.Takes s as u (c, k) w → w.shared.chips d ≠ u.shared.chips d →
    (∃ regs, k = .count d regs) ∨ ∃ time i b sent, u.pc c = .write d time i b sent ∧
      w.shared.chips d = Function.update (u.shared.chips d) i (encode time i)

/-- The bytes that a call carries along are those of its transfers. -/
def Recorded : Pc → Prop
  | .xfer d i seen => ∀ j < i, Reads s as c d j (seen j)
  | .stage d i v seen => Reads s as c d i v ∧ ∀ j < i, Reads s as c d j (seen j)
  | .load d _ seen _ | .getUnlock d seen _ | .getDone d seen _ => ∀ j, Reads s as c d j (seen j)
  | .send d time i sent | .write d time i _ sent => ∀ j < i, Stores s as c d time j (sent j)
  | .setUnlock d time sent | .setDone d time sent => ∀ j, Stores s as c d time j (sent j)
  | _ => True

end History

/-- Every byte of `rtc_info` that some call still has to use is there. -/
def Staged (s : State) : Prop :=
  ∀ u j v, expects (s.pc u) j = some v → s.shared.rtcInfo j = v

theorem update_seen {seen : Regs} {i j : Fin NR_REGS} {v w : BitVec 8} {info : Regs}
    (hinfo : ∀ w, (if j < i then some (seen j) else none) = some w → info j = w)
    (h : j < i ∨ j = i) (hw : Function.update seen i v j = w) : Function.update info i v j = w := by
  by_cases hj : j = i
  · subst hj
    rwa [Function.update_self] at hw ⊢
  · rw [Function.update_of_ne hj] at hw ⊢
    have hlt := h.resolve_right hj
    exact hinfo w (by rw [if_pos hlt, hw])

section Own
variable {s : Shared} {c : ℕ} {k : Choice} {p p' : Pc} {e : Effect}

/-- The bytes that a call expects after its own move. -/
theorem staged_edge (h : Edge s k p e p') (hp : ∀ j v, expects p j = some v → s.rtcInfo j = v)
    (j : Fin NR_REGS) (v : BitVec 8) (hv : expects p' j = some v) :
    (effect c e s).rtcInfo j = v := by
  cases h with
  | enterGet | enterSet | count | getUnlock | loaded | written | setUnlock => cases hv
  | getLock | setLock =>
      simp only [expects] at hv
      split_ifs at hv with hlt
      exact absurd hlt (Nat.not_lt_zero j.val)
  | xfer d i seen => exact hp j v hv
  | stage d i i' b seen hnext =>
      simp only [expects] at hv
      split_ifs at hv with hlt
      exact update_seen (hp j) ((lt_nextReg hnext j).mp hlt) (Option.some.inj hv)
  | staged d i b seen hnext =>
      simp only [expects] at hv
      split_ifs at hv
      exact update_seen (hp j) (le_nextReg_none hnext j) (Option.some.inj hv)
  | fill d t i i' hnext =>
      simp only [expects] at hv
      split_ifs at hv with hlt
      have hw : Function.update (encode t) i (encode t i) j = v := by
        rw [Function.update_eq_self]
        exact Option.some.inj hv
      exact update_seen (hp j) ((lt_nextReg hnext j).mp hlt) hw
  | filled d t i hnext =>
      simp only [expects] at hv
      split_ifs at hv
      have hw : Function.update (encode t) i (encode t i) j = v := by
        rw [Function.update_eq_self]
        exact Option.some.inj hv
      exact update_seen (hp j) (le_nextReg_none hnext j) hw
  | load d i i' seen loaded hnext =>
      simp only [expects] at hv
      split_ifs at hv with hlt
      rw [lt_nextReg hnext, not_or] at hlt
      exact hp j v ((if_neg hlt.1).trans hv)
  | send d t i sent =>
      simp only [expects] at hv
      split_ifs at hv with hlt
      rw [not_or] at hlt
      exact hp j v ((if_neg hlt.1).trans hv)
  | write d t i i' b sent hnext =>
      simp only [expects] at hv
      split_ifs at hv with hlt
      rw [lt_nextReg hnext] at hlt
      exact hp j v ((if_neg hlt).trans hv)

/-- A loop that stores one byte after the other. -/
theorem update_each {R : Fin NR_REGS → BitVec 8 → Prop} {dst : Regs} {i j : Fin NR_REGS}
    (hdone : ∀ j < i, R j (dst j)) {v : BitVec 8} (hv : R i v) (h : j < i ∨ j = i) :
    R j (Function.update dst i v j) := by
  by_cases hj : j = i
  · rw [hj, Function.update_self]
    exact hv
  · rw [Function.update_of_ne hj]
    exact hdone j (h.resolve_right hj)

theorem update_copied {dst src : Regs} {i j : Fin NR_REGS} (hcopied : ∀ j < i, dst j = src j)
    {v : BitVec 8} (hv : v = src i) (h : j < i ∨ j = i) : Function.update dst i v j = src j :=
  update_each (R := fun j b => b = src j) hcopied hv h

theorem honest_edge (h : Edge s k p e p') (hp : ∀ j v, expects p j = some v → s.rtcInfo j = v)
    (hh : Honest p) : Honest p' := by
  cases h with
  | staged d i v seen hnext => exact fun j hj => absurd hj (Nat.not_lt_zero j.val)
  | filled d t i hnext => exact fun j hj => absurd hj (Nat.not_lt_zero j.val)
  | load d i i' seen loaded hnext =>
      have hv : s.rtcInfo i = seen i := hp i _ (if_neg (Fin.lt_irrefl i))
      exact fun j hj => update_copied hh hv ((lt_nextReg hnext j).mp hj)
  | loaded d i seen loaded hnext =>
      have hv : s.rtcInfo i = seen i := hp i _ (if_neg (Fin.lt_irrefl i))
      exact funext fun j => update_copied hh hv (le_nextReg_none hnext j)
  | getUnlock d seen loaded => exact congrArg decode hh
  | send d t i sent => exact ⟨hp i _ (if_neg (Fin.lt_irrefl i)), hh⟩
  | write d t i i' v sent hnext =>
      exact fun j hj => update_copied hh.2 hh.1 ((lt_nextReg hnext j).mp hj)
  | written d t i v sent hnext =>
      exact funext fun j => update_copied hh.2 hh.1 (le_nextReg_none hnext j)
  | setUnlock d t sent => exact hh
  | _ => trivial

/-- Only a store to `rtc_info` changes it. -/
theorem rtcInfo_edge (h : Edge s k p e p') :
    (effect c e s).rtcInfo = s.rtcInfo ∨
      k = .run ∧ ∃ i v, staging p = some (i, v) ∧
        (effect c e s).rtcInfo = Function.update s.rtcInfo i v := by
  cases h with
  | stage d i _ v | staged d i v => exact .inr ⟨rfl, i, v, rfl, rfl⟩
  | fill d t i | filled d t i => exact .inr ⟨rfl, i, encode t i, rfl, rfl⟩
  | _ => exact .inl rfl

theorem deviceOf_of_staging {p : Pc} {x : Fin NR_REGS × BitVec 8} (h : staging p = some x) :
    ∃ d, deviceOf p = some d := by
  cases p with
  | stage d | fill d => exact ⟨d, rfl⟩
  | _ => cases h

/-- Only a tick of the chip and a transfer of a set change its registers. -/
theorem chips_edge (h : Edge s k p e p') (d : ℕ) (hne : (effect c e s).chips d ≠ s.chips d) :
    (∃ regs, k = .count d regs) ∨ ∃ time i b sent, p = .write d time i b sent ∧
      (effect c e s).chips d = Function.update (s.chips d) i b := by
  cases h with
  | count d' regs =>
      obtain rfl : d = d' := by
        by_contra hd
        exact hne (Function.update_of_ne hd _ _)
      exact .inl ⟨regs, rfl⟩
  | write d' time i _ b sent | written d' time i b sent =>
      obtain rfl : d = d' := by
        by_contra hd
        exact hne (Function.update_of_ne hd _ _)
      exact .inr ⟨time, i, b, sent, rfl, Function.update_self _ _ _⟩
  | _ => exact absurd rfl hne

end Own

section Recording
variable {s u w : State} {as : List (ℕ × Choice)} {c d : ℕ} {k : Choice} {e : Effect}

theorem Reads.append {i : Fin NR_REGS} {v : BitVec 8} (h : Reads s as c d i v)
    (bs : List (ℕ × Choice)) : Reads s (as ++ bs) c d i v := by
  obtain ⟨u, w, seen, htakes, hread⟩ := h
  exact ⟨u, w, seen, htakes.append bs, hread⟩

theorem Stores.append {time : RtcTime} {i : Fin NR_REGS} {v : BitVec 8}
    (h : Stores s as c d time i v) (bs : List (ℕ × Choice)) :
    Stores s (as ++ bs) c d time i v := by
  obtain ⟨u, w, b, sent, htakes, hstore⟩ := h
  exact ⟨u, w, b, sent, htakes.append bs, hstore⟩

theorem Recorded.append {p : Pc} (h : Recorded s as c p) (bs : List (ℕ × Choice)) :
    Recorded s (as ++ bs) c p := by
  cases p with
  | xfer d i seen => exact fun j hj => (h j hj).append bs
  | stage d i v seen => exact ⟨h.1.append bs, fun j hj => (h.2 j hj).append bs⟩
  | load | getUnlock | getDone => exact fun j => (h j).append bs
  | send d time i sent | write d time i v sent => exact fun j hj => (h j hj).append bs
  | setUnlock | setDone => exact fun j => (h j).append bs
  | _ => trivial

/-- A call that has just moved: a transfer records the byte on the chip. -/
theorem Recorded.step (h : Recorded s as c (u.pc c)) (he : program.Step u c k e w)
    (hlast : system.Takes s (as ++ [(c, k)]) u (c, k) w) :
    Recorded s (as ++ [(c, k)]) c (w.pc c) := by
  have hold := h.append [(c, k)]
  have hedge := edge_of_step he
  have hshared := he.shared
  generalize hp : u.pc c = p at hold hedge
  generalize w.pc c = p' at hedge ⊢
  cases hedge with
  | getLock | filled => exact fun j hj => absurd hj (Nat.not_lt_zero j.val)
  | xfer d i seen => exact ⟨⟨u, w, seen, hlast, hp, rfl⟩, hold⟩
  | stage d i i' v seen hnext =>
      exact fun j hj => update_each hold.2 hold.1 ((lt_nextReg hnext j).mp hj)
  | staged d i v seen hnext =>
      exact fun j => update_each hold.2 hold.1 (le_nextReg_none hnext j)
  | load | loaded | getUnlock | send | setUnlock => exact hold
  | write d time i i' b sent hnext =>
      have hstore : Stores s (as ++ [(c, .run)]) c d time i b :=
        ⟨u, w, b, sent, hlast, hp, by simp [hshared, program, effect]⟩
      exact fun j hj => update_each hold hstore ((lt_nextReg hnext j).mp hj)
  | written d time i b sent hnext =>
      have hstore : Stores s (as ++ [(c, .run)]) c d time i b :=
        ⟨u, w, b, sent, hlast, hp, by simp [hshared, program, effect]⟩
      exact fun j => update_each hold hstore (le_nextReg_none hnext j)
  | _ => trivial

end Recording

section Runs
variable {s t : State} {ok : State → ℕ × Choice → Prop}

theorem exclusive (h : system.ReachableWhen ok s) (d : ℕ) : (rtcLock d).Exclusive s := by
  refine Lock.exclusive_reachable ?_ h
  rintro s ⟨chips, rfl⟩ c hc
  cases hc

/-- Two calls inside the RTC core work on different devices. -/
theorem device_ne {d u c : ℕ} (hx : (rtcLock d).Exclusive s) (hu : u ≠ c)
    (hc : deviceOf (s.pc c) = some d) : deviceOf (s.pc u) ≠ deviceOf (s.pc c) := fun he =>
  hu (hx.unique (he.trans hc) hc)

theorem Staged.step {c : ℕ} {k : Choice} {e : Effect} (h : Staged s)
    (hx : ∀ d, (rtcLock d).Exclusive s) (hok : Undisturbed s (c, k))
    (he : program.Step s c k e t) : Staged t := by
  have hedge := edge_of_step he
  intro u j v hv
  rw [he.shared]
  by_cases huc : u = c
  · subst huc
    exact staged_edge hedge (h u) j v hv
  · rw [he.others u huc] at hv
    rcases rtcInfo_edge (c := c) hedge with hsame | ⟨hk, i, w, hstage, hupdate⟩
    · exact (congrFun hsame j).trans (h u j v hv)
    · refine (congrFun hupdate j).trans ?_
      by_cases hj : j = i
      · subst hj
        obtain ⟨d, hd⟩ := deviceOf_of_staging hstage
        rw [Function.update_self]
        exact (hok j w hk hstage u v (device_ne (hx d) huc hd) hv).symm
      · rw [Function.update_of_ne hj]
        exact h u j v hv

theorem staged (h : system.ReachableWhen Undisturbed s) : Staged s := by
  refine Program.invariant ?_ ?_ h
  · rintro s ⟨chips, rfl⟩ u j v hv
    cases hv
  · intro s c k e t hr hs hok he
    exact hs.step (exclusive hr) hok he

def AllHonest (s : State) : Prop := ∀ u, Honest (s.pc u)

theorem allHonest (h : system.ReachableWhen Undisturbed s) : AllHonest s := by
  refine Program.invariant ?_ ?_ h
  · rintro s ⟨chips, rfl⟩ u
    trivial
  · intro s c k e t hr hs hok he
    exact he.forall_threads hs (honest_edge (edge_of_step he) (staged hr c) (hs c))
      fun u _ hu => hu

theorem recorded {as : List (ℕ × Choice)} (hs : ∃ chips, s = initial chips)
    (hrun : system.run s as = some t) (c : ℕ) : Recorded s as c (t.pc c) := by
  refine System.run_history (I := fun as t => ∀ c, Recorded s as c (t.pc c))
    (System.meets_true s as) hrun ?_ ?_ c
  · obtain ⟨chips, rfl⟩ := hs
    exact fun c => trivial
  · rintro as u ⟨c, k⟩ w _ hu h _ hn
    obtain ⟨e, he⟩ := Program.step_of_next hn
    exact he.forall_threads (I := Recorded s as) (J := Recorded s (as ++ [(c, k)])) h
      ((h c).step he (System.takes_last hu hn)) fun v _ hv => hv.append _

/-- In a run in which no call replaces a byte that a call on another device
still has to use, every call gets its own data back. -/
theorem ownData_of_undisturbed {as : List (ℕ × Choice)} (hs : ∃ chips, s = initial chips)
    (hok : system.Meets Undisturbed s as) (hrun : system.run s as = some t) : OwnData s as t := by
  have hstart : system.ReachableWhen Undisturbed s := .start hs
  have hhonest := allHonest (hstart.run hok hrun)
  refine ⟨fun c d seen time hp => ?_, fun c d time sent hp => ?_, fun u c k w d htakes hne => ?_⟩
  · have hc := hhonest c
    have hread := recorded hs hrun c
    rw [hp] at hc hread
    exact ⟨seen, hc, hread⟩
  · have hc := hhonest c
    have hstore := recorded hs hrun c
    rw [hp] at hc hstore
    exact hc ▸ hstore
  · have hu := htakes.reachable hstart hok
    obtain ⟨bs, cs, -, -, hn⟩ := htakes
    obtain ⟨e, he⟩ := Program.step_of_next hn
    rw [he.shared] at hne ⊢
    refine (chips_edge (edge_of_step he) d hne).imp id ?_
    rintro ⟨time, i, b, sent, hp, hupdate⟩
    have hc := allHonest hu c
    rw [hp] at hc
    exact ⟨time, i, b, sent, hp, hc.1 ▸ hupdate⟩

end Runs

def steps (c n : ℕ) : List (ℕ × Choice) := List.replicate n (c, .run)

/-- Two chips that show different seconds. -/
def twoChips : ℕ → Regs := fun d i => if d = 1 ∧ i = REG_OFFSET_SECS then 0x30 else 0x01

/-- The test of `Undisturbed` for the calls below `N`. -/
def undisturbedBelow (N : ℕ) (s : State) (a : ℕ × Choice) : Bool :=
  (staging (s.pc a.1)).all fun x => (List.range N).all fun u =>
    deviceOf (s.pc u) = deviceOf (s.pc a.1) || (expects (s.pc u) x.1).all fun w => w = x.2

theorem undisturbed_of_below {N : ℕ} {s : State} {a : ℕ × Choice}
    (hN : ∀ u, N ≤ u → s.pc u = .unstarted) (h : undisturbedBelow N s a = true) :
    Undisturbed s a := by
  intro i v _ hstage u w hd hw
  by_cases hu : u < N
  · simp only [undisturbedBelow, hstage, Option.all_some, List.all_eq_true, List.mem_range] at h
    simpa [hd, hw] using h u hu
  · rw [hN u (Nat.not_lt.mp hu)] at hw
    cases hw

def newYear : RtcTime := ⟨59, 58, 23, 5, 31, 11, 125⟩

/-- A set fills each byte of `rtc_info` right after a get on the other device has
loaded it, and the chip of the get counts on after it has been read. -/
def getAndSet : List (ℕ × Choice) :=
  [(0, .getTime 0), (1, .setTime 1 newYear)] ++ steps 0 15 ++ [(2, .count 0 fun _ => 0x02)] ++
    steps 1 1 ++ (List.replicate 7 [(0, .run), (1, .run)]).flatten ++ steps 0 1 ++ steps 1 15

theorem ownData_of_undisturbed_getAndSet :
    ∃ t, system.run (initial twoChips) getAndSet = some t ∧
      (∃ seen time, t.pc 0 = .getDone 0 seen time ∧ time.tmSec = 1) ∧
      (∃ sent, t.pc 1 = .setDone 1 newYear sent) ∧
      (∀ i, t.shared.chips 1 i = encode newYear i) ∧ OwnData (initial twoChips) getAndSet t := by
  have hmeets : system.Meets Undisturbed (initial twoChips) getAndSet :=
    Program.meets_of_passes (N := 3) (fun _ => rfl) (fun _ _ => undisturbed_of_below)
      (fun _ _ => rfl) (by decide) (by decide)
  exact ⟨_, rfl, ⟨_, _, rfl, by decide⟩, ⟨_, rfl⟩, by decide,
    ownData_of_undisturbed ⟨twoChips, rfl⟩ hmeets rfl⟩

/-- The second get stores its seconds over those of the first one, which has
not decoded them yet. -/
def getsOverlapping : List (ℕ × Choice) :=
  ((0, .getTime 0) :: steps 0 15) ++ ((1, .getTime 1) :: steps 1 3) ++ steps 0 8

/-- The seconds of the first chip are 1 all the time. -/
def FirstShowsOne (s : State) (_ : ℕ × Choice) : Prop := s.shared.chips 0 REG_OFFSET_SECS = 1

instance (s : State) (a : ℕ × Choice) : Decidable (FirstShowsOne s a) :=
  inferInstanceAs (Decidable (_ = _))

theorem not_ownData_getsOverlapping :
    ¬∀ chips as t, system.run (initial chips) as = some t → OwnData (initial chips) as t := by
  intro h
  have hown := h twoChips getsOverlapping _ rfl
  obtain ⟨regs, htime, hreads⟩ := hown.got 0 0 _ _ rfl
  obtain ⟨u, w, seen, htakes, -, hsecs⟩ := hreads REG_OFFSET_SECS
  have hones : system.Meets FirstShowsOne (initial twoChips) getsOverlapping :=
    System.meets_of_passes (I := fun _ => True)
      (fun _ _ _ htest => of_decide_eq_true htest) (fun _ _ _ _ _ _ => trivial) trivial (by decide)
  have hchip : u.shared.chips 0 REG_OFFSET_SECS = 1 := htakes.meets hones
  have hsec : (decode regs).tmSec = 1 := by
    show bcd2bin (regs REG_OFFSET_SECS &&& 0x7f) = 1
    rw [← hsecs, hchip]
    decide
  exact absurd ((congrArg RtcTime.tmSec htime).trans hsec) (by decide)

end LinuxDeviceDrivers.Ds1307Devices
