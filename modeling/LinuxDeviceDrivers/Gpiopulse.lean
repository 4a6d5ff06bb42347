import LinuxDeviceDrivers.KernelPrimitives
import LinuxDeviceDrivers.ThreadCount

/-!
# The timer of pltdrv_gpiopulse

A bound device with its self-rearming timer: the callback, the two `store`
functions of the sysfs files and `pltdrv_gpiopulse_remove`, step by step, with
any number of threads. A pending timer may expire at any step; while its
callback runs the timer can be armed again, but the timer core does not start a
second callback next to it. `del_timer` only dequeues a pending timer.
`device_unregister` removes the files one after the other: a removed file
accepts no new call, and its removal waits for the calls in progress on it.

A `long` has `bits` bits. `label_show`, which reads nothing but the label, and
the messages are left out.
-/
namespace LinuxDeviceDrivers.Gpiopulse
open KernelPrimitives TransitionSystem ThreadProgram ThreadCount

/-- `struct pltdata_gpiopulse` without the label; the pin stands for `desc`. -/
structure PltdataGpiopulse where
  enablepulse : BitVec 32
  pulsetime : BitVec 32
deriving DecidableEq, Repr

inductive Attr where
  | enablepulse
  | pulsetime
deriving DecidableEq, Repr

def gpiopulseAttrs : List Attr := [.enablepulse, .pulsetime]

/-- A pending timer has the delay in milliseconds it was armed with. `running`
is the thread of the callback, `active` counts the calls in progress on a file
and `toggles` the calls of `gpiod_set_value`. -/
structure Shared where
  pltDataPrv : PltdataGpiopulse
  pin : Bool
  timer : Option (BitVec 32)
  running : Option ℕ
  registered : Attr → Bool
  active : Attr → ℕ
  bound : Bool
  toggles : ℕ

inductive CbkStage where
  | getValue
  | setValue (val : Bool)
  | test
  | loadPulsetime
  | modTimer (pulsetime : BitVec 32)
  | finish
deriving DecidableEq, Repr

inductive EnableStage (bits : ℕ) where
  | kstrtol (res : Except Errno (BitVec bits))
  | assign (enablepulse : BitVec bits)
  | test (enablepulse : BitVec bits)
  | loadPulsetime
  | modTimer (pulsetime : BitVec 32)

inductive PulseStage (bits : ℕ) where
  | kstrtol (res : Except Errno (BitVec bits))
  | assign (pulsetime : BitVec bits)

/-- `left` are the files that `device_unregister` has still to remove. -/
inductive RemoveStage where
  | delTimer
  | removeFiles (left : List Attr)
  | drain (a : Attr) (left : List Attr)
  | returned
deriving DecidableEq, Repr

inductive Pc (bits : ℕ) where
  | unstarted
  | cbk (st : CbkStage)
  | cbkDone
  | enablepulseStore (count : ℕ) (st : EnableStage bits)
  | pulsetimeStore (count : ℕ) (st : PulseStage bits)
  | leaving (a : Attr) (ret : Except Errno ℕ)
  | stored (a : Attr) (ret : Except Errno ℕ)
  | remove (st : RemoveStage)

/-- A call of a `store` function comes with what `kstrtol` makes of its text. -/
inductive Choice (bits : ℕ) where
  | expire
  | enablepulseStore (count : ℕ) (res : Except Errno (BitVec bits))
  | pulsetimeStore (count : ℕ) (res : Except Errno (BitVec bits))
  | remove
  | run

inductive Effect where
  | skip
  | expire
  | setValue (val : Bool)
  | modTimer (delay : BitVec 32)
  | finish
  | enter (a : Attr)
  | setEnablepulse (x : BitVec 32)
  | setPulsetime (x : BitVec 32)
  | leave (a : Attr)
  | unbind
  | delTimer
  | removeFile (a : Attr)
deriving DecidableEq, Repr

section Driver
variable {bits : ℕ}

def timerCbk (s : Shared) : CbkStage → Effect × Pc bits
  | .getValue => (.skip, .cbk (.setValue s.pin))
  | .setValue val => (.setValue (!val), .cbk .test)
  | .test => (.skip, .cbk (if s.pltDataPrv.enablepulse = 0 then .finish else .loadPulsetime))
  | .loadPulsetime => (.skip, .cbk (.modTimer s.pltDataPrv.pulsetime))
  | .modTimer pulsetime => (.modTimer pulsetime, .cbk .finish)
  | .finish => (.finish, .cbkDone)

/-- The flag is an `int`, the test is made on the `long`. -/
def enablepulseStore (s : Shared) (count : ℕ) : EnableStage bits → Effect × Pc bits
  | .kstrtol (.error err) => (.skip, .leaving .enablepulse (.error err))
  | .kstrtol (.ok v) => (.skip, .enablepulseStore count (.assign v))
  | .assign v => (.setEnablepulse (v.setWidth 32), .enablepulseStore count (.test v))
  | .test v =>
      (.skip, if v = 0 then .leaving .enablepulse (.ok count)
        else .enablepulseStore count .loadPulsetime)
  | .loadPulsetime => (.skip, .enablepulseStore count (.modTimer s.pltDataPrv.pulsetime))
  | .modTimer pulsetime => (.modTimer pulsetime, .leaving .enablepulse (.ok count))

def pulsetimeStore (count : ℕ) : PulseStage bits → Effect × Pc bits
  | .kstrtol (.error err) => (.skip, .leaving .pulsetime (.error err))
  | .kstrtol (.ok v) => (.skip, .pulsetimeStore count (.assign v))
  | .assign v => (.setPulsetime (v.setWidth 32), .leaving .pulsetime (.ok count))

def pltdrvGpiopulseRemove (s : Shared) : RemoveStage → Option (Effect × Pc bits)
  | .delTimer => some (.delTimer, .remove (.removeFiles gpiopulseAttrs))
  | .removeFiles (a :: left) => some (.removeFile a, .remove (.drain a left))
  | .drain a left => if s.active a = 0 then some (.skip, .remove (.removeFiles left)) else none
  | .removeFiles [] => some (.skip, .remove .returned)
  | .returned => none

def move (s : Shared) : Choice bits → Pc bits → Option (Effect × Pc bits)
  | .expire, .unstarted =>
      if s.timer.isSome ∧ s.running = none then some (.expire, .cbk .getValue) else none
  | .run, .cbk st => some (timerCbk s st)
  | .enablepulseStore count res, .unstarted =>
      if s.registered .enablepulse then
        some (.enter .enablepulse, .enablepulseStore count (.kstrtol res))
      else none
  | .run, .enablepulseStore count st => some (enablepulseStore s count st)
  | .pulsetimeStore count res, .unstarted =>
      if s.registered .pulsetime then
        some (.enter .pulsetime, .pulsetimeStore count (.kstrtol res))
      else none
  | .run, .pulsetimeStore count st => some (pulsetimeStore count st)
  | .run, .leaving a ret => some (.leave a, .stored a ret)
  | .remove, .unstarted => if s.bound then some (.unbind, .remove .delTimer) else none
  | .run, .remove st => pltdrvGpiopulseRemove s st
  | _, _ => none

def effect (c : ℕ) : Effect → Shared → Shared
  | .skip, s => s
  | .expire, s => { s with timer := none, running := some c }
  | .setValue val, s => { s with pin := val, toggles := s.toggles + 1 }
  | .modTimer delay, s => { s with timer := some delay }
  | .finish, s => { s with running := none }
  | .enter a, s => { s with active := Function.update s.active a (s.active a + 1) }
  | .setEnablepulse x, s => { s with pltDataPrv := { s.pltDataPrv with enablepulse := x } }
  | .setPulsetime x, s => { s with pltDataPrv := { s.pltDataPrv with pulsetime := x } }
  | .leave a, s => { s with active := Function.update s.active a (s.active a - 1) }
  | .unbind, s => { s with bound := false }
  | .delTimer, s => { s with timer := none }
  | .removeFile a, s => { s with registered := Function.update s.registered a false }

variable (bits)

def program : Program Shared (Choice bits) Effect (Pc bits) where
  move := move
  effect := effect
  others _ p := p

@[simp] theorem program_effect (c : ℕ) (e : Effect) (s : Shared) :
    (program bits).effect c e s = effect c e s := rfl

@[simp] theorem program_others (e : Effect) (p : Pc bits) : (program bits).others e p = p := rfl

abbrev State := Config Shared (Pc bits)

/-- The device as `pltdrv_gpiopulse_probe` leaves it: the pin is high and the
timer armed, whatever the device tree says in `enablepulse`. -/
def probed (dt : PltdataGpiopulse) : State bits where
  shared :=
    { pltDataPrv := dt
      pin := true
      timer := some dt.pulsetime
      running := none
      registered := fun _ => true
      active := fun _ => 0
      bound := true
      toggles := 0 }
  pc _ := .unstarted

def system : System (State bits) (ℕ × Choice bits) :=
  (program bits).system fun s => ∃ dt, s = probed bits dt

end Driver

/-- Every move, with the condition under which it is taken. -/
inductive Edge {bits : ℕ} (s : Shared) : Choice bits → Pc bits → Effect → Pc bits → Prop
  | expire : s.timer.isSome → s.running = none → Edge s .expire .unstarted .expire (.cbk .getValue)
  | getValue : Edge s .run (.cbk .getValue) .skip (.cbk (.setValue s.pin))
  | setValue (val : Bool) : Edge s .run (.cbk (.setValue val)) (.setValue (!val)) (.cbk .test)
  | disabled : s.pltDataPrv.enablepulse = 0 → Edge s .run (.cbk .test) .skip (.cbk .finish)
  | enabled : s.pltDataPrv.enablepulse ≠ 0 → Edge s .run (.cbk .test) .skip (.cbk .loadPulsetime)
  | loadPulsetime :
      Edge s .run (.cbk .loadPulsetime) .skip (.cbk (.modTimer s.pltDataPrv.pulsetime))
  | modTimer (x : BitVec 32) : Edge s .run (.cbk (.modTimer x)) (.modTimer x) (.cbk .finish)
  | finish : Edge s .run (.cbk .finish) .finish .cbkDone
  | enterEnable (count : ℕ) (res : Except Errno (BitVec bits)) :
      s.registered .enablepulse = true →
      Edge s (.enablepulseStore count res) .unstarted (.enter .enablepulse)
        (.enablepulseStore count (.kstrtol res))
  | rejectEnable (count : ℕ) (err : Errno) :
      Edge s .run (.enablepulseStore count (.kstrtol (.error err))) .skip
        (.leaving .enablepulse (.error err))
  | acceptEnable (count : ℕ) (v : BitVec bits) :
      Edge s .run (.enablepulseStore count (.kstrtol (.ok v))) .skip
        (.enablepulseStore count (.assign v))
  | assignEnable (count : ℕ) (v : BitVec bits) :
      Edge s .run (.enablepulseStore count (.assign v)) (.setEnablepulse (v.setWidth 32))
        (.enablepulseStore count (.test v))
  | storeZero (count : ℕ) :
      Edge s .run (.enablepulseStore count (.test 0)) .skip (.leaving .enablepulse (.ok count))
  | storeNonzero (count : ℕ) (v : BitVec bits) : v ≠ 0 →
      Edge s .run (.enablepulseStore count (.test v)) .skip (.enablepulseStore count .loadPulsetime)
  | storeLoad (count : ℕ) :
      Edge s .run (.enablepulseStore count .loadPulsetime) .skip
        (.enablepulseStore count (.modTimer s.pltDataPrv.pulsetime))
  | storeModTimer (count : ℕ) (x : BitVec 32) :
      Edge s .run (.enablepulseStore count (.modTimer x)) (.modTimer x)
        (.leaving .enablepulse (.ok count))
  | enterPulse (count : ℕ) (res : Except Errno (BitVec bits)) :
      s.registered .pulsetime = true →
      Edge s (.pulsetimeStore count res) .unstarted (.enter .pulsetime)
        (.pulsetimeStore count (.kstrtol res))
  | rejectPulse (count : ℕ) (err : Errno) :
      Edge s .run (.pulsetimeStore count (.kstrtol (.error err))) .skip
        (.leaving .pulsetime (.error err))
  | acceptPulse (count : ℕ) (v : BitVec bits) :
      Edge s .run (.pulsetimeStore count (.kstrtol (.ok v))) .skip
        (.pulsetimeStore count (.assign v))
  | assignPulse (count : ℕ) (v : BitVec bits) :
      Edge s .run (.pulsetimeStore count (.assign v)) (.setPulsetime (v.setWidth 32))
        (.leaving .pulsetime (.ok count))
  | leave (a : Attr) (ret : Except Errno ℕ) :
      Edge s .run (.leaving a ret) (.leave a) (.stored a ret)
  | unbind : s.bound = true → Edge s .remove .unstarted .unbind (.remove .delTimer)
  | delTimer :
      Edge s .run (.remove .delTimer) .delTimer (.remove (.removeFiles gpiopulseAttrs))
  | removeFile (a : Attr) (left : List Attr) :
      Edge s .run (.remove (.removeFiles (a :: left))) (.removeFile a) (.remove (.drain a left))
  | drain (a : Attr) (left : List Attr) : s.active a = 0 →
      Edge s .run (.remove (.drain a left)) .skip (.remove (.removeFiles left))
  | returned : Edge s .run (.remove (.removeFiles [])) .skip (.remove .returned)

section Inversion
variable {bits : ℕ} {s : Shared} {k : Choice bits} {e : Effect} {p p' : Pc bits}

theorem edge_of_timerCbk {st : CbkStage} (h : timerCbk s st = (e, p')) :
    Edge s .run (.cbk st) e p' := by
  cases st <;> cases h
  case test =>
    split_ifs with hflag
    · exact .disabled hflag
    · exact .enabled hflag
  · exact .getValue
  · exact .setValue _
  · exact .loadPulsetime
  · exact .modTimer _
  · exact .finish

theorem edge_of_enablepulseStore {count : ℕ} {st : EnableStage bits}
    (h : enablepulseStore s count st = (e, p')) : Edge s .run (.enablepulseStore count st) e p' := by
  cases st with
  | kstrtol res =>
      cases res <;> cases h
      · exact .rejectEnable count _
      · exact .acceptEnable count _
  | assign v => cases h; exact .assignEnable count v
  | test v =>
      cases h
      split_ifs with hv
      · subst hv; exact .storeZero count
      · exact .storeNonzero count v hv
  | loadPulsetime => cases h; exact .storeLoad count
  | modTimer x => cases h; exact .storeModTimer count x

theorem edge_of_pulsetimeStore {count : ℕ} {st : PulseStage bits}
    (h : pulsetimeStore count st = (e, p')) : Edge s .run (.pulsetimeStore count st) e p' := by
  cases st with
  | kstrtol res =>
      cases res <;> cases h
      · exact .rejectPulse count _
      · exact .acceptPulse count _
  | assign v => cases h; exact .assignPulse count v

theorem edge_of_remove {st : RemoveStage} (h : pltdrvGpiopulseRemove s st = some (e, p')) :
    Edge s .run (.remove st) e p' := by
  unfold pltdrvGpiopulseRemove at h
  split at h
  · cases h; exact .delTimer
  · cases h; exact .removeFile _ _
  · split_ifs at h with ha
    cases h
    exact .drain _ _ ha
  · cases h; exact .returned
  · cases h

theorem edge_of_move (h : move s k p = some (e, p')) : Edge s k p e p' := by
  unfold move at h
  split at h
  · split_ifs at h with hc
    cases h
    exact .expire hc.1 hc.2
  · exact edge_of_timerCbk (Option.some.inj h)
  · split_ifs at h with hc
    cases h
    exact .enterEnable _ _ hc
  · exact edge_of_enablepulseStore (Option.some.inj h)
  · split_ifs at h with hc
    cases h
    exact .enterPulse _ _ hc
  · exact edge_of_pulsetimeStore (Option.some.inj h)
  · cases h; exact .leave _ _
  · split_ifs at h with hc
    cases h
    exact .unbind hc
  · exact edge_of_remove h
  · cases h

theorem edge_of_step {s t : State bits} {c : ℕ} (h : (program bits).Step s c k e t) :
    Edge s.shared k (s.pc c) e (t.pc c) :=
  edge_of_move h.move

end Inversion

/-- The callback that a thread is in. -/
def cbkOf {bits : ℕ} : Pc bits → Option CbkStage
  | .cbk st => some st
  | _ => none

/-- The file whose `store` function a thread is in. -/
def storeOf {bits : ℕ} : Pc bits → Option Attr
  | .enablepulseStore _ _ => some .enablepulse
  | .pulsetimeStore _ _ => some .pulsetime
  | .leaving a _ => some a
  | _ => none

/-- The next step of a thread is its `mod_timer`. -/
def armsTimer {bits : ℕ} : Pc bits → Bool
  | .cbk (.modTimer _) => true
  | .enablepulseStore _ (.modTimer _) => true
  | _ => false

/-- The timer is not pending and no callback is running. -/
def Quiet {bits : ℕ} (s : State bits) : Prop := s.shared.timer = none ∧ ∀ u, cbkOf (s.pc u) = none

section Threads
variable {bits : ℕ} {s : Shared} {k : Choice bits} {e : Effect} {p p' : Pc bits} {c : ℕ}

theorem cbkOf_edge (h : Edge s k p e p') :
    e = .expire ∧ s.timer.isSome ∧ s.running = none ∧ cbkOf p = none ∧
        cbkOf p' = some .getValue ∨
      e = .finish ∧ cbkOf p = some .finish ∧ cbkOf p' = none ∨
      (effect c e s).running = s.running ∧ (cbkOf p').isSome = (cbkOf p).isSome := by
  cases h with
  | expire ht hr => exact .inl ⟨rfl, ht, hr, rfl, rfl⟩
  | finish => exact .inr (.inl ⟨rfl, rfl, rfl⟩)
  | _ => exact .inr (.inr ⟨rfl, rfl⟩)

theorem storeOf_edge (h : Edge s k p e p') :
    (∃ a, e = .enter a ∧ s.registered a = true ∧ storeOf p = none ∧ storeOf p' = some a) ∨
      (∃ a, e = .leave a ∧ storeOf p = some a ∧ storeOf p' = none) ∨
      (effect c e s).active = s.active ∧ storeOf p' = storeOf p := by
  cases h with
  | enterEnable _ _ hr | enterPulse _ _ hr => exact .inl ⟨_, rfl, hr, rfl, rfl⟩
  | leave a => exact .inr (.inl ⟨a, rfl, rfl, rfl⟩)
  | _ => exact .inr (.inr ⟨rfl, rfl⟩)

theorem effect_timer (h : Edge s k p e p') (hp : armsTimer p = false) (ht : s.timer = none) :
    (effect c e s).timer = none := by
  cases h with
  | modTimer | storeModTimer => cases hp
  | expire | delTimer => rfl
  | _ => exact ht

/-- The callback excludes itself, as if it held a mutex. -/
def callback (bits : ℕ) : Lock (program bits) where
  owner := Shared.running
  holds p := (cbkOf p).isSome = true
  others _ _ := Iff.rfl
  move := by
    intro s k p e p' c h
    rcases cbkOf_edge (c := c) (edge_of_move h) with
      ⟨rfl, _, hr, hp, hp'⟩ | ⟨rfl, hp, hp'⟩ | ⟨hr, hp⟩
    · exact .acquire hr (by simp [hp]) (by simp [hp'])
    · exact .release (by simp [hp]) (by simp [hp'])
    · show LockMove c s.running _ _ (effect c e s).running
      rw [hr, hp]
      exact .stay Iff.rfl

/-- `active` counts the threads in the `store` function of each file. -/
def ActiveCounted (s : State bits) : Prop :=
  ∀ a, Counted (fun p => storeOf p = some a) s (s.shared.active a)

end Threads

section Runs
variable {bits : ℕ} {s t : State bits} {c : ℕ} {k : Choice bits} {e : Effect}
  {ok : State bits → ℕ × Choice bits → Prop}

theorem ActiveCounted.step (h : ActiveCounted s) (he : (program bits).Step s c k e t) :
    ActiveCounted t := by
  intro a
  have hid : ∀ (_ : Effect) (p : Pc bits), storeOf p = some a ↔ storeOf p = some a :=
    fun _ _ => Iff.rfl
  have hactive : t.shared.active = (effect c e s.shared).active := by rw [he.shared]; rfl
  rw [hactive]
  rcases storeOf_edge (c := c) (edge_of_step he) with
    ⟨b, rfl, _, hp, hp'⟩ | ⟨b, rfl, hp, hp'⟩ | ⟨ha, hp⟩
  · by_cases hab : a = b
    · subst hab
      simp only [effect, Function.update_self]
      exact (h a).enter hid he (by simp [hp]) hp'
    · simp only [effect, Function.update_of_ne hab]
      exact (h a).stay hid he (by simp [hp, hp', Ne.symm hab])
  · by_cases hab : a = b
    · subst hab
      obtain ⟨m, hm, hcount⟩ := (h a).leave hid he hp (by simp [hp'])
      simp only [effect, Function.update_self, hm]
      exact hcount
    · simp only [effect, Function.update_of_ne hab]
      exact (h a).stay hid he (by simp [hp, hp', Ne.symm hab])
  · rw [ha]
    exact (h a).stay hid he (by rw [hp])

theorem activeCounted (h : (system bits).ReachableWhen ok s) : ActiveCounted s := by
  refine Program.invariant ?_ ?_ h
  · rintro s ⟨dt, rfl⟩ a
    exact counted_zero nofun
  · intro s c k e t _ hs _ he
    exact hs.step he

theorem callback_exclusive (h : (system bits).ReachableWhen ok s) : (callback bits).Exclusive s := by
  refine Lock.exclusive_reachable ?_ h
  rintro s ⟨dt, rfl⟩ c hc
  cases hc

theorem quiet_of_idle (hx : (callback bits).Exclusive s) (ht : s.shared.timer = none)
    (hr : s.shared.running = none) : Quiet s := by
  refine ⟨ht, fun u => ?_⟩
  by_contra hu
  have howner : s.shared.running = some u := hx u (Option.isSome_iff_ne_none.mpr hu)
  exact absurd (hr.symm.trans howner) nofun

/-- Only a `mod_timer` wakes a quiet timer. -/
theorem Quiet.step (h : Quiet s) (harm : armsTimer (s.pc c) = false)
    (he : (program bits).Step s c k e t) : Quiet t := by
  have hedge := edge_of_step he
  have hshared : t.shared = effect c e s.shared := he.shared
  refine ⟨?_, fun u => ?_⟩
  · rw [hshared]
    exact effect_timer hedge harm h.1
  · refine he.forall_pc (Q := fun p => cbkOf p = none) h.2 ?_ (fun _ hp => hp) u
    rcases cbkOf_edge (c := c) hedge with ⟨-, ht, -⟩ | ⟨-, -, hp'⟩ | ⟨-, hp⟩
    · rw [h.1] at ht
      cases ht
    · exact hp'
    · rw [h.2 c] at hp
      exact Option.not_isSome_iff_eq_none.mp (Bool.eq_false_iff.mp hp)

end Runs

def steps {bits : ℕ} (c n : ℕ) : List (ℕ × Choice bits) := List.replicate n (c, .run)

end LinuxDeviceDrivers.Gpiopulse
