import LinuxDeviceDrivers.Gpiopulse

/-!
# The probe of pltdrv_gpiopulse and the files it creates

`pltdrv_gpiopulse_probe`, step by step, next to any number of calls on the files
of the device it creates, which can begin once `device_create_with_groups` has
returned. Each kernel call of the probe succeeds or fails. A call on a file
first loads the driver data of the created device; with these it goes on as on a
bound device, and so does the timer callback. A label fits `char label[16]`.

The probe sets the driver data last, and not at all if it fails, but it leaves
the files of the created device in any case.
-/
namespace LinuxDeviceDrivers.GpiopulseProbe
open KernelPrimitives TransitionSystem ThreadProgram
open Gpiopulse (PltdataGpiopulse)

abbrev Label := { l : String // l.utf8ByteSize < 16 }

/-- `dev` is the device with its private data, its timer and its files,
`probing` the thread of the probe, `created` says that
`device_create_with_groups` has returned a device and `storeArmed` that
`enablepulse_store` has armed the timer. -/
structure Shared where
  dev : Gpiopulse.Shared
  label : Label
  probing : Option ℕ
  created : Bool
  timerReady : Bool
  storeArmed : Bool
  ofdevDrvdata : Bool
  deviceDrvdata : Bool

/-- What `parse_dt_arg_dev` gets from the kernel. -/
structure DtArgs where
  ofNode : Bool
  gpioRequest : Bool
  label : Option Label
  enablepulse : Option (BitVec 32)
  pulsetime : Option (BitVec 32)

inductive ProbeStage where
  | devmKzalloc
  | parseDtArgDev (privDev : Bool)
  | deviceCreateWithGroups
  | directionOutput
  | timerSetup
  | modTimer
  | setDrvdata
  | setDeviceDrvdata
  | returned (ret : ℤ)
deriving DecidableEq, Repr

/-- A call on a file, with what `kstrtol` makes of its text. -/
inductive Handler (bits : ℕ) where
  | enablepulseStore (count : ℕ) (res : Except Errno (BitVec bits))
  | pulsetimeStore (count : ℕ) (res : Except Errno (BitVec bits))
  | labelShow

inductive Pc (bits : ℕ) where
  | unstarted
  | probe (st : ProbeStage)
  | getDrvdata (h : Handler bits)
  | nullData (h : Handler bits)
  | labelShow
  | shown (text : String)
  | device (p : Gpiopulse.Pc bits)
  | crashed

inductive Choice (bits : ℕ) where
  | probe
  | call (h : Handler bits)
  | expire
  | run
  | fail (err : Errno)
  | parse (x : DtArgs)

/-- `device` is an effect on the device, with the note that it is the
`mod_timer` of `enablepulse_store`. -/
inductive Effect where
  | skip
  | begin
  | fill (pltData : PltdataGpiopulse) (label : Label)
  | create
  | directionOutput
  | timerSetup
  | setDrvdata
  | setDeviceDrvdata
  | device (storeArms : Bool) (e : Gpiopulse.Effect)

/-- `none` is the crash on the null pointer that `devm_kzalloc` returns and
`IS_ERR` does not catch. -/
def parseDtArgDev (privDev : Bool) (x : DtArgs) : Option (Except ℤ (PltdataGpiopulse × Label)) :=
  if !x.ofNode then some (.error (-EINVAL))
  else if !x.gpioRequest then some (.error (-ENOMEM))
  else if !privDev then none
  else match x.label with
    | none => some (.error (-EINVAL))
    | some label =>
        match x.enablepulse with
        | none => some (.error (-EINVAL))
        | some enablepulse =>
            match x.pulsetime with
            | none => some (.error (-EINVAL))
            | some pulsetime => some (.ok (⟨enablepulse, pulsetime⟩, label))

def labelShow (label : String) : String := "sysfs show : device label " ++ label ++ "\n"

section Driver
variable {bits : ℕ}

def parseStep : Option (Except ℤ (PltdataGpiopulse × Label)) → Effect × Pc bits
  | none => (.skip, .crashed)
  | some (.error ret) => (.skip, .probe (.returned ret))
  | some (.ok (pltData, label)) => (.fill pltData label, .probe .deviceCreateWithGroups)

def pltdrvGpiopulseProbe (s : Shared) : Choice bits → ProbeStage → Option (Effect × Pc bits)
  | .run, .devmKzalloc => some (.skip, .probe (.parseDtArgDev true))
  | .fail _, .devmKzalloc => some (.skip, .probe (.parseDtArgDev false))
  | .parse x, .parseDtArgDev privDev => some (parseStep (parseDtArgDev privDev x))
  | .run, .deviceCreateWithGroups => some (.create, .probe .directionOutput)
  | .fail err, .deviceCreateWithGroups => some (.skip, .probe (.returned err.val))
  | .run, .directionOutput => some (.directionOutput, .probe .timerSetup)
  | .fail err, .directionOutput => some (.skip, .probe (.returned err.val))
  | .run, .timerSetup => some (.timerSetup, .probe .modTimer)
  | .run, .modTimer =>
      some (.device false (.modTimer s.dev.pltDataPrv.pulsetime), .probe .setDrvdata)
  | .run, .setDrvdata => some (.setDrvdata, .probe .setDeviceDrvdata)
  | .run, .setDeviceDrvdata => some (.setDeviceDrvdata, .probe (.returned 0))
  | _, _ => none

namespace Handler

def enter : Handler bits → Effect
  | .enablepulseStore _ _ => .device false (.enter .enablepulse)
  | .pulsetimeStore _ _ => .device false (.enter .pulsetime)
  | .labelShow => .skip

/-- The call once it has its data. -/
def start : Handler bits → Pc bits
  | .enablepulseStore count res => .device (.enablepulseStore count (.kstrtol res))
  | .pulsetimeStore count res => .device (.pulsetimeStore count (.kstrtol res))
  | .labelShow => .labelShow

/-- The call on a null pointer: a store crashes unless its text is rejected
before, and `sprintf` does not read a string in the first page. -/
def onNull : Handler bits → Pc bits
  | .enablepulseStore _ (.error ret) => .device (.leaving .enablepulse (.error ret))
  | .pulsetimeStore _ (.error ret) => .device (.leaving .pulsetime (.error ret))
  | .enablepulseStore _ (.ok _) | .pulsetimeStore _ (.ok _) => .crashed
  | .labelShow => .shown (GpiopulseProbe.labelShow "(efault)")

end Handler

/-- The next step is the `mod_timer` of `enablepulse_store`. -/
def storeArms : Gpiopulse.Pc bits → Bool
  | .enablepulseStore _ (.modTimer _) => true
  | _ => false

def move (s : Shared) : Choice bits → Pc bits → Option (Effect × Pc bits)
  | .probe, .unstarted => if s.probing = none then some (.begin, .probe .devmKzalloc) else none
  | k, .probe st => pltdrvGpiopulseProbe s k st
  | .call h, .unstarted => if s.created then some (h.enter, .getDrvdata h) else none
  | .run, .getDrvdata h => some (.skip, if s.deviceDrvdata then h.start else .nullData h)
  | .run, .nullData h => some (.skip, h.onNull)
  | .run, .labelShow => some (.skip, .shown (labelShow s.label.val))
  | .expire, .unstarted =>
      if s.dev.timer.isSome ∧ s.dev.running = none then
        some (.device false .expire, .device (.cbk .getValue))
      else none
  | .run, .device p =>
      (Gpiopulse.move s.dev .run p).map fun m => (.device (storeArms p) m.1, .device m.2)
  | _, _ => none

/-- A probe that sets the driver data returns 0 at once, which binds the device. -/
def effect (c : ℕ) : Effect → Shared → Shared
  | .skip, s => s
  | .begin, s => { s with probing := some c }
  | .fill pltData label, s => { s with dev := { s.dev with pltDataPrv := pltData }, label := label }
  | .create, s => { s with dev := { s.dev with registered := fun _ => true }, created := true }
  | .directionOutput, s => { s with dev := { s.dev with pin := true } }
  | .timerSetup, s => { s with dev := { s.dev with timer := none }, timerReady := true }
  | .setDrvdata, s => { s with ofdevDrvdata := true }
  | .setDeviceDrvdata, s => { s with dev := { s.dev with bound := true }, deviceDrvdata := true }
  | .device armed e, s =>
      { s with dev := Gpiopulse.effect c e s.dev, storeArmed := s.storeArmed || armed }

variable (bits)

def program : Program Shared (Choice bits) Effect (Pc bits) where
  move := move
  effect := effect
  others _ p := p

abbrev State := Config Shared (Pc bits)

/-- A device that is about to be probed, with its pin at some level. -/
def unprobed (pin : Bool) : State bits where
  shared :=
    { dev :=
        { pltDataPrv := ⟨0, 0⟩
          pin := pin
          timer := none
          running := none
          registered := fun _ => false
          active := fun _ => 0
          bound := false
          toggles := 0 }
      label := ⟨"", by decide⟩
      probing := none
      created := false
      timerReady := false
      storeArmed := false
      ofdevDrvdata := false
      deviceDrvdata := false }
  pc _ := .unstarted

def system : System (State bits) (ℕ × Choice bits) :=
  (program bits).system fun s => ∃ pin, s = unprobed bits pin

end Driver

section Statement
variable {bits : ℕ}

/-- A handler finds its driver data, and `enablepulse_store` arms the timer only
after its setup. -/
structure ServedInTime (s : State bits) (a : ℕ × Choice bits) : Prop where
  data : ∀ h, s.pc a.1 = .getDrvdata h → s.shared.deviceDrvdata = true
  modTimer : ∀ count x, s.pc a.1 = .device (.enablepulseStore count (.modTimer x)) →
    s.shared.timerReady = true
  timerSetup : s.pc a.1 = .probe .timerSetup → s.shared.storeArmed = false

/-- No handler loads its driver data before the probe has returned 0. -/
def LoadsAfterProbe (s : State bits) (a : ℕ × Choice bits) : Prop :=
  ∀ h, s.pc a.1 = .getDrvdata h → ∃ u, s.pc u = .probe (.returned 0)

end Statement

/-- Every move, with the condition under which it is taken. -/
inductive Edge {bits : ℕ} (s : Shared) : Choice bits → Pc bits → Effect → Pc bits → Prop
  | begin : s.probing = none → Edge s .probe .unstarted .begin (.probe .devmKzalloc)
  | devmKzalloc : Edge s .run (.probe .devmKzalloc) .skip (.probe (.parseDtArgDev true))
  | noMemory (err : Errno) :
      Edge s (.fail err) (.probe .devmKzalloc) .skip (.probe (.parseDtArgDev false))
  | parseCrash (privDev : Bool) (x : DtArgs) : parseDtArgDev privDev x = none →
      Edge s (.parse x) (.probe (.parseDtArgDev privDev)) .skip .crashed
  | parseError (privDev : Bool) (x : DtArgs) (ret : ℤ) :
      parseDtArgDev privDev x = some (.error ret) →
      Edge s (.parse x) (.probe (.parseDtArgDev privDev)) .skip (.probe (.returned ret))
  | parsed (privDev : Bool) (x : DtArgs) (pltData : PltdataGpiopulse) (label : Label) :
      parseDtArgDev privDev x = some (.ok (pltData, label)) →
      Edge s (.parse x) (.probe (.parseDtArgDev privDev)) (.fill pltData label)
        (.probe .deviceCreateWithGroups)
  | create : Edge s .run (.probe .deviceCreateWithGroups) .create (.probe .directionOutput)
  | noDevice (err : Errno) :
      Edge s (.fail err) (.probe .deviceCreateWithGroups) .skip (.probe (.returned err.val))
  | directionOutput :
      Edge s .run (.probe .directionOutput) .directionOutput (.probe .timerSetup)
  | noDirection (err : Errno) :
      Edge s (.fail err) (.probe .directionOutput) .skip (.probe (.returned err.val))
  | timerSetup : Edge s .run (.probe .timerSetup) .timerSetup (.probe .modTimer)
  | modTimer :
      Edge s .run (.probe .modTimer) (.device false (.modTimer s.dev.pltDataPrv.pulsetime))
        (.probe .setDrvdata)
  | setDrvdata : Edge s .run (.probe .setDrvdata) .setDrvdata (.probe .setDeviceDrvdata)
  | setDeviceDrvdata :
      Edge s .run (.probe .setDeviceDrvdata) .setDeviceDrvdata (.probe (.returned 0))
  | call (h : Handler bits) : s.created = true →
      Edge s (.call h) .unstarted h.enter (.getDrvdata h)
  | loadData (h : Handler bits) : s.deviceDrvdata = true →
      Edge s .run (.getDrvdata h) .skip h.start
  | loadNull (h : Handler bits) : s.deviceDrvdata = false →
      Edge s .run (.getDrvdata h) .skip (.nullData h)
  | onNull (h : Handler bits) : Edge s .run (.nullData h) .skip h.onNull
  | labelShow : Edge s .run .labelShow .skip (.shown (GpiopulseProbe.labelShow s.label.val))
  | expire : s.dev.timer.isSome → s.dev.running = none →
      Edge s .expire .unstarted (.device false .expire) (.device (.cbk .getValue))
  | device {e : Gpiopulse.Effect} {p p' : Gpiopulse.Pc bits} :
      Gpiopulse.move s.dev .run p = some (e, p') →
      Edge s .run (.device p) (.device (storeArms p) e) (.device p')

section Inversion
variable {bits : ℕ} {s : Shared} {k : Choice bits} {e : Effect} {p p' : Pc bits}

theorem edge_of_parse {privDev : Bool} {x : DtArgs} {r : Option (Except ℤ (PltdataGpiopulse × Label))}
    (hr : parseDtArgDev privDev x = r) (h : parseStep r = (e, p')) :
    Edge s (.parse x) (.probe (.parseDtArgDev privDev)) e p' := by
  unfold parseStep at h
  split at h <;> cases h
  · exact .parseCrash _ _ hr
  · exact .parseError _ _ _ hr
  · exact .parsed _ _ _ _ hr

theorem edge_of_probe {st : ProbeStage} (h : pltdrvGpiopulseProbe s k st = some (e, p')) :
    Edge s k (.probe st) e p' := by
  unfold pltdrvGpiopulseProbe at h
  split at h
  case h_3 => exact edge_of_parse rfl (Option.some.inj h)
  all_goals cases h
  · exact .devmKzalloc
  · exact .noMemory _
  · exact .create
  · exact .noDevice _
  · exact .directionOutput
  · exact .noDirection _
  · exact .timerSetup
  · exact .modTimer
  · exact .setDrvdata
  · exact .setDeviceDrvdata

theorem edge_of_move (h : move s k p = some (e, p')) : Edge s k p e p' := by
  unfold move at h
  split at h
  · split_ifs at h with hc
    cases h
    exact .begin hc
  · exact edge_of_probe h
  · split_ifs at h with hc
    cases h
    exact .call _ hc
  · cases h
    split_ifs with hdata
    · exact .loadData _ hdata
    · exact .loadNull _ (Bool.eq_false_iff.mpr hdata)
  · cases h; exact .onNull _
  · cases h; exact .labelShow
  · split_ifs at h with hc
    cases h
    exact .expire hc.1 hc.2
  · obtain ⟨⟨e', q⟩, hm, hq⟩ := Option.map_eq_some_iff.mp h
    cases hq
    exact .device hm
  · cases h

theorem edge_of_step {s t : State bits} {c : ℕ} (h : (program bits).Step s c k e t) :
    Edge s.shared k (s.pc c) e (t.pc c) :=
  edge_of_move h.move

end Inversion

def probeOf {bits : ℕ} : Pc bits → Option ProbeStage
  | .probe st => some st
  | _ => none

/-- The probe has set up the timer. -/
def pastSetup {bits : ℕ} (p : Pc bits) : Prop :=
  p = .probe .modTimer ∨ p = .probe .setDrvdata ∨ p = .probe .setDeviceDrvdata ∨
    p = .probe (.returned 0)

/-- The thread is in `enablepulse_store` and has its driver data. -/
def inEnable {bits : ℕ} (p : Pc bits) : Prop := ∃ count st, p = .device (.enablepulseStore count st)

section Threads
variable {bits : ℕ} {s : Shared} {k : Choice bits} {e : Effect} {p p' : Pc bits} {c : ℕ}

theorem parseDtArgDev_neg {privDev : Bool} {x : DtArgs} {ret : ℤ}
    (h : parseDtArgDev privDev x = some (.error ret)) : ret < 0 := by
  unfold parseDtArgDev at h
  split_ifs at h
  · cases h; decide
  · cases h; decide
  · split at h
    · cases h; decide
    · split at h
      · cases h; decide
      · split at h <;> cases h
        decide

/-- A handler is in no probe, whether it has its data or not. -/
theorem probeOf_handler (h : Handler bits) : probeOf h.start = none ∧ probeOf h.onNull = none := by
  rcases h with ⟨count, ret | v⟩ | ⟨count, ret | v⟩ | _ <;> exact ⟨rfl, rfl⟩

/-- A probe begins, goes on or crashes, and no other thread gets into it. -/
theorem probing_edge (h : Edge s k p e p') :
    e = .begin ∧ s.probing = none ∧ probeOf p = none ∧ (probeOf p').isSome = true ∨
      (effect c e s).probing = s.probing ∧
        ((probeOf p').isSome = true → (probeOf p).isSome = true) := by
  cases h with
  | begin hnone => exact .inl ⟨rfl, hnone, rfl, rfl⟩
  | loadData h => exact .inr ⟨rfl, by rw [(probeOf_handler h).1]; exact id⟩
  | onNull h => exact .inr ⟨rfl, by rw [(probeOf_handler h).2]; exact id⟩
  | call h => exact .inr ⟨by cases h <;> rfl, id⟩
  | parseCrash => exact .inr ⟨rfl, fun _ => rfl⟩
  | _ => exact .inr ⟨rfl, id⟩

theorem setup_edge (h : Edge s k p e p') (hs : pastSetup p → s.timerReady = true) :
    (pastSetup p → pastSetup p') ∧
      ((effect c e s).timerReady = true ↔ s.timerReady = true ∨ pastSetup p') := by
  cases h with
  | loadData h | onNull h =>
      rcases h with ⟨count, ret | v⟩ | ⟨count, ret | v⟩ | _ <;>
        simp [pastSetup, effect, Handler.start, Handler.onNull]
  | call h => cases h <;> simp [pastSetup, effect, Handler.enter]
  | noDevice err | noDirection err => simp [pastSetup, effect, err.neg.ne]
  | parseError _ _ ret hret => simp [pastSetup, effect, (parseDtArgDev_neg hret).ne]
  | modTimer | setDrvdata | setDeviceDrvdata =>
      have hready := hs (by simp [pastSetup])
      simp [pastSetup, effect, hready]
  | _ => simp [pastSetup, effect]

theorem data_edge (h : Edge s k p e p') :
    (p = .probe (.returned 0) → p' = .probe (.returned 0)) ∧
      ((effect c e s).deviceDrvdata = true ↔
        s.deviceDrvdata = true ∨ p' = .probe (.returned 0)) := by
  cases h with
  | loadData h | onNull h =>
      rcases h with ⟨count, ret | v⟩ | ⟨count, ret | v⟩ | _ <;>
        simp [effect, Handler.start, Handler.onNull]
  | call h => cases h <;> simp [effect, Handler.enter]
  | noDevice err | noDirection err => simp [effect, err.neg.ne]
  | parseError _ _ ret hret => simp [effect, (parseDtArgDev_neg hret).ne]
  | _ => simp [effect]

/-- The thread of the probe. -/
def probing (bits : ℕ) : Lock (program bits) where
  owner := Shared.probing
  holds p := (probeOf p).isSome = true
  others _ _ := Iff.rfl
  move := by
    intro s k p e p' c h
    rcases probing_edge (c := c) (edge_of_move h) with ⟨rfl, hnone, hp, hp'⟩ | ⟨hsame, hstay⟩
    · exact .acquire hnone (by simp [hp]) hp'
    · show LockMove c s.probing _ _ (effect c e s).probing
      rw [hsame]
      by_cases hp : (probeOf p).isSome = true
      · by_cases hp' : (probeOf p').isSome = true
        · exact .inside hp hp'
        · exact .leak hp hp'
      · exact .outside hp fun hp' => hp (hstay hp')

/-- The setup of the timer. -/
def setup (bits : ℕ) : Latch (program bits) where
  raised s := s.timerReady = true
  past := pastSetup
  move _ h := setup_edge (edge_of_move h)
  others _ _ := Iff.rfl

/-- The driver data of the created device. -/
def drvdata (bits : ℕ) : Latch (program bits) where
  raised s := s.deviceDrvdata = true
  past p := p = .probe (.returned 0)
  move _ h _ := data_edge (edge_of_move h)
  others _ _ := Iff.rfl

theorem enable_of_move {s : Gpiopulse.Shared} {p p' : Gpiopulse.Pc bits} {e : Gpiopulse.Effect}
    (h : Gpiopulse.move s .run p = some (e, p')) (hp' : ∃ count st, p' = .enablepulseStore count st) :
    ∃ count st, p = .enablepulseStore count st := by
  cases Gpiopulse.edge_of_move h with
  | acceptEnable count v => exact ⟨count, _, rfl⟩
  | assignEnable count v => exact ⟨count, _, rfl⟩
  | storeNonzero count v => exact ⟨count, _, rfl⟩
  | storeLoad count => exact ⟨count, _, rfl⟩
  | _ => simp at hp'

/-- A thread gets into `enablepulse_store` with its driver data only. -/
theorem inEnable_edge (h : Edge s k p e p') (hp' : inEnable p') :
    inEnable p ∨ s.deviceDrvdata = true := by
  cases h with
  | loadData _ hdata => exact .inr hdata
  | onNull h =>
      rcases h with ⟨count, ret | v⟩ | ⟨count, ret | v⟩ | _ <;>
        simp [inEnable, Handler.onNull] at hp'
  | device hm =>
      obtain ⟨count, st, rfl⟩ := enable_of_move hm (by simpa [inEnable] using hp')
      exact .inl ⟨count, st, rfl⟩
  | _ => simp [inEnable] at hp'

theorem inEnable_of_storeArms {p : Gpiopulse.Pc bits} (h : storeArms p = true) :
    inEnable (.device p) := by
  unfold storeArms at h
  split at h
  · exact ⟨_, _, rfl⟩
  · cases h

theorem storeArmed_edge (h : Edge s k p e p') (harmed : (effect c e s).storeArmed = true) :
    s.storeArmed = true ∨ inEnable p := by
  cases h with
  | device => exact ((Bool.or_eq_true _ _).mp harmed).imp_right inEnable_of_storeArms
  | modTimer | expire => exact .inl ((Bool.or_false _).symm.trans harmed)
  | call h =>
      cases h with
      | labelShow => exact .inl harmed
      | _ => exact .inl ((Bool.or_false _).symm.trans harmed)
  | _ => exact .inl harmed

/-- Driver data that are set stay set. -/
theorem deviceDrvdata_edge (h : Edge s k p e p') (hdata : s.deviceDrvdata = true) :
    (effect c e s).deviceDrvdata = true := (data_edge h).2.mpr (.inl hdata)

end Threads

/-- Whoever arms the timer in `enablepulse_store` has found the driver data set. -/
structure Served {bits : ℕ} (s : State bits) : Prop where
  enable : ∀ u, inEnable (s.pc u) → s.shared.deviceDrvdata = true
  armed : s.shared.storeArmed = true → s.shared.deviceDrvdata = true

section Runs
variable {bits : ℕ} {s t : State bits} {ok : State bits → ℕ × Choice bits → Prop}

theorem Served.step {c : ℕ} {k : Choice bits} {e : Effect} (h : Served s)
    (he : (program bits).Step s c k e t) : Served t := by
  have hedge := edge_of_step he
  have hshared : t.shared = effect c e s.shared := he.shared
  have hkeep : s.shared.deviceDrvdata = true → t.shared.deviceDrvdata = true := fun hdata => by
    rw [hshared]
    exact deviceDrvdata_edge hedge hdata
  refine ⟨fun u hu => hkeep ?_, fun harmed => hkeep ?_⟩
  · by_cases huc : u = c
    · subst huc
      exact (inEnable_edge hedge hu).elim (h.enable u) id
    · rw [show t.pc u = s.pc u from he.others u huc] at hu
      exact h.enable u hu
  · rw [hshared] at harmed
    exact (storeArmed_edge hedge harmed).elim h.armed (h.enable c)

theorem served (h : (system bits).ReachableWhen ok s) : Served s := by
  refine Program.invariant ?_ (fun _ _ _ _ _ _ hs _ he => hs.step he) h
  rintro s ⟨pin, rfl⟩
  refine ⟨fun u hu => ?_, nofun⟩
  obtain ⟨count, st, hu⟩ := hu
  cases hu

theorem probing_exclusive (h : (system bits).ReachableWhen ok s) : (probing bits).Exclusive s := by
  refine Lock.exclusive_reachable ?_ h
  rintro s ⟨pin, rfl⟩ c hc
  cases hc

theorem drvdata_sound (h : (system bits).ReachableWhen ok s) : (drvdata bits).Sound s := by
  refine Latch.sound_reachable ?_ h
  rintro s ⟨pin, rfl⟩
  exact ⟨nofun, nofun⟩

theorem setup_sound (h : (system bits).ReachableWhen ok s) : (setup bits).Sound s := by
  refine Latch.sound_reachable ?_ h
  rintro s ⟨pin, rfl⟩
  exact ⟨nofun, fun u hu => by simp [setup, pastSetup, unprobed] at hu⟩

/-- Whatever the handlers find, the timer is right: its only users have the
driver data, which the probe sets after the setup. -/
theorem servedInTime_iff (h : (system bits).ReachableWhen ok s) (a : ℕ × Choice bits) :
    ServedInTime s a ↔ LoadsAfterProbe s a := by
  have hdata : s.shared.deviceDrvdata = true ↔ ∃ u, s.pc u = .probe (.returned 0) := drvdata_sound h
  constructor
  · intro hs handler hload
    exact hdata.mp (hs.data handler hload)
  · intro hlate
    refine ⟨fun handler hload => hdata.mpr (hlate handler hload), fun count x harms => ?_,
      fun hsetup => ?_⟩
    · obtain ⟨u, hu⟩ := hdata.mp ((served h).enable a.1 ⟨count, _, harms⟩)
      exact (setup_sound h).mpr ⟨u, .inr (.inr (.inr hu))⟩
    · by_contra harmed
      obtain ⟨u, hu⟩ := hdata.mp ((served h).armed (Bool.not_eq_false _ ▸ harmed))
      have huc := (probing_exclusive h).unique (c := u) (d := a.1)
        (by rw [hu]; rfl) (by rw [hsetup]; rfl)
      rw [huc, hsetup] at hu
      cases hu

/-- A probe that nobody disturbs leaves the device as the model of the bound
device starts it. -/
theorem probed_alone (pin : Bool) (pltData : PltdataGpiopulse) (label : Label) :
    ∃ s, (system bits).run (unprobed bits pin)
        ([(0, .probe), (0, .run),
          (0, .parse ⟨true, true, some label, some pltData.enablepulse, some pltData.pulsetime⟩)] ++
          List.replicate 6 (0, .run)) = some s ∧
      s.pc 0 = .probe (.returned 0) ∧ s.shared.dev = (Gpiopulse.probed bits pltData).shared :=
  ⟨_, rfl, rfl, rfl⟩

end Runs

end LinuxDeviceDrivers.GpiopulseProbe
