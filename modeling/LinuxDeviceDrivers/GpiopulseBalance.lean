import LinuxDeviceDrivers.DriverCore
import LinuxDeviceDrivers.GpiopulseProbe
import LinuxDeviceDrivers.ResourceLedger

/-!
# What pltdrv_gpiopulse holds over all its devices

`pltdrv_gpiopulse_probe` and `pltdrv_gpiopulse_remove` as whole calls, on any
number of device-tree nodes and with any of their kernel calls failing. The
private data and the gpio are managed resources: they go with a failed probe or
with the binding. The class device and the timer are the driver's own.

The probe returns when `gpiod_direction_output` fails without unregistering the
device that it has created, and it takes a null pointer from `devm_kzalloc` for
memory. `parse_dt_arg_dev` copies the label of the node with `strcpy`, whatever
its length, and the probe then passes it as a format without any arguments to
`device_create_with_groups`. What a label does that leaves its array or asks for
an argument is not defined, and the model stops there as at a null pointer. All
the other ways out leave nothing behind.
-/
namespace LinuxDeviceDrivers.GpiopulseBalance
open CStrings KernelPrimitives TransitionSystem ThreadProgram ResourceLedger DriverCore
open Gpiopulse (PltdataGpiopulse)
open GpiopulseProbe (DtArgs Label)

/-- What `parse_dt_arg_dev` gets from the kernel, with a label of any length. -/
structure Node where
  ofNode : Bool
  gpioRequest : Bool
  label : Option String
  enablepulse : Option (BitVec 32)
  pulsetime : Option (BitVec 32)

/-- The array of the label, if `strcpy` does not leave it. -/
def strcpyLabel (label : String) : Option Label :=
  if h : label.utf8ByteSize < 16 then some ⟨label, h⟩ else none

/-- `none` is a crash, on the null pointer from `devm_kzalloc` or behind the label. -/
def parseDtArgDev (privDev : Bool) (x : Node) : Option (Except ℤ (PltdataGpiopulse × Label)) :=
  if !x.ofNode then some (.error (-EINVAL))
  else if !x.gpioRequest then some (.error (-ENOMEM))
  else if !privDev then none
  else match x.label with
    | none => some (.error (-EINVAL))
    | some text =>
        match strcpyLabel text with
        | none => none
        | some label =>
            match x.enablepulse with
            | none => some (.error (-EINVAL))
            | some enablepulse =>
                match x.pulsetime with
                | none => some (.error (-EINVAL))
                | some pulsetime => some (.ok (⟨enablepulse, pulsetime⟩, label))

def nodeOf (x : DtArgs) : Node :=
  ⟨x.ofNode, x.gpioRequest, x.label.map Subtype.val, x.enablepulse, x.pulsetime⟩

theorem strcpyLabel_val (label : Label) : strcpyLabel label.val = some label := dif_pos label.property

theorem parseDtArgDev_nodeOf (privDev : Bool) (x : DtArgs) :
    parseDtArgDev privDev (nodeOf x) = GpiopulseProbe.parseDtArgDev privDev x := by
  obtain ⟨ofNode, gpioRequest, label, enablepulse, pulsetime⟩ := x
  unfold parseDtArgDev GpiopulseProbe.parseDtArgDev nodeOf
  cases label with
  | none => rfl
  | some label =>
  cases enablepulse with
  | none => simp only [Option.map_some, strcpyLabel_val]
  | some enablepulse =>
  cases pulsetime with
  | none => simp only [Option.map_some, strcpyLabel_val]
  | some pulsetime => simp only [Option.map_some, strcpyLabel_val]

structure Results where
  devmKzalloc : Bool
  dt : Node
  deviceCreate : Option Errno
  directionOutput : Option Errno

inductive Resource where
  | classDevice
  | timer
deriving DecidableEq, Repr

/-- A device as the driver sees it: its private data while they are allocated,
whether the driver data point to them, and what the driver holds of its own.
`oops` is set when the driver does what C does not define. -/
structure Device where
  privDev : Option PltdataGpiopulse
  drvdata : Bool
  ledger : Ledger Resource
  oops : Bool

def Device.acquire (v : Device) (r : Resource) : Device := { v with ledger := v.ledger.acquire r }

def Device.release (v : Device) (r : Resource) : Device := { v with ledger := v.ledger.release r }

def devmKzalloc (mem : Bool) : Option PltdataGpiopulse := if mem then some ⟨0, 0⟩ else none

def pltdrvGpiopulseProbe (v : Device) (x : Results) : Option ℤ × Device :=
  let v := { v with privDev := devmKzalloc x.devmKzalloc }
  match parseDtArgDev v.privDev.isSome x.dt with
  | none => (none, { v with oops := true })
  | some (.error ret) => (some ret, v)
  | some (.ok (pltData, label)) =>
      let v := { v with privDev := some pltData }
      -- the label is the format of the name, and the call passes no arguments for it
      match formatNoArgs (utf8 label.val) with
      | none => (none, { v with oops := true })
      | some _ =>
        match x.deviceCreate with
        | some err => (some err.val, v)
        | none =>
          let v := v.acquire .classDevice
          match x.directionOutput with
          | some err => (some err.val, v)
          | none =>
            let v := v.acquire .timer
            (some 0, { v with drvdata := true })

def pltdrvGpiopulseRemove (v : Device) : Device :=
  if v.drvdata then (v.release .timer).release .classDevice else { v with oops := true }

def bookOf (s : GpiopulseProbe.Shared) : Multiset Resource :=
  (if s.timerReady then {.timer} else 0) + if s.created then {.classDevice} else 0

def runParse {bits : ℕ} (mem : Bool) (dt : DtArgs) : List (ℕ × GpiopulseProbe.Choice bits) :=
  [(0, .probe), (0, if mem then .run else .fail ⟨-ENOMEM, neg_ENOMEM⟩), (0, .parse dt)]

def endOf {bits : ℕ} : Option ℤ → GpiopulseProbe.Pc bits
  | none => .crashed
  | some ret => .probe (.returned ret)

/-- The whole call with a label that fits and asks for no arguments is a run of the
probe step by step, on a device that nobody else uses. -/
theorem probe_run (bits : ℕ) (pin mem : Bool) (dt : DtArgs) (create direction : Option Errno)
    (hformat : ∀ label ∈ dt.label, (formatNoArgs (utf8 label.val)).isSome) :
    let y := pltdrvGpiopulseProbe ⟨none, false, .empty, false⟩ ⟨mem, nodeOf dt, create, direction⟩
    ∃ as t, (GpiopulseProbe.system bits).run (GpiopulseProbe.unprobed bits pin)
        (runParse mem dt ++ as) = some t ∧
      y.2.ledger = ⟨bookOf t.shared, 0⟩ ∧ t.pc 0 = endOf y.1 := by
  simp only [pltdrvGpiopulseProbe, parseDtArgDev_nodeOf]
  obtain ⟨ofNode, gpioRequest, label, enablepulse, pulsetime⟩ := dt
  cases ofNode with
  | false => cases mem <;> exact ⟨[], _, rfl, rfl, rfl⟩
  | true =>
  cases gpioRequest with
  | false => cases mem <;> exact ⟨[], _, rfl, rfl, rfl⟩
  | true =>
  cases mem with
  | false => exact ⟨[], _, rfl, rfl, rfl⟩
  | true =>
  cases label with
  | none => exact ⟨[], _, rfl, rfl, rfl⟩
  | some label =>
  cases enablepulse with
  | none => exact ⟨[], _, rfl, rfl, rfl⟩
  | some enablepulse =>
  cases pulsetime with
  | none => exact ⟨[], _, rfl, rfl, rfl⟩
  | some pulsetime =>
  have hparse : GpiopulseProbe.parseDtArgDev (devmKzalloc true).isSome
      ⟨true, true, some label, some enablepulse, some pulsetime⟩ =
        some (.ok (⟨enablepulse, pulsetime⟩, label)) := rfl
  obtain ⟨name, hname⟩ := Option.isSome_iff_exists.mp (hformat label rfl)
  simp only [hparse, hname]
  cases create with
  | some err => exact ⟨[(0, .fail err)], _, rfl, rfl, rfl⟩
  | none =>
  cases direction with
  | some err => exact ⟨[(0, .run), (0, .fail err)], _, rfl, rfl, rfl⟩
  | none => exact ⟨List.replicate 6 (0, .run), _, rfl, rfl, rfl⟩

/-- `pltdrv_gpiopulse`. The core frees the managed resources of a device that is
not bound and clears its driver data. -/
def gpiopulseDriver : Driver Device Results where
  fresh := ⟨none, false, .empty, false⟩
  probe x v := pltdrvGpiopulseProbe v x
  remove := pltdrvGpiopulseRemove
  unbind v := { v with privDev := none, drvdata := false }

/-- No class device is registered, no timer is set up, and the driver has given
back nothing that it did not hold. -/
structure Idle (v : Device) : Prop where
  ledger : v.ledger.Holds 0
  noOops : v.oops = false

/-- One class device is registered and one timer set up, with private data behind them. -/
structure Held (v : Device) : Prop where
  ledger : v.ledger.Holds (.timer ::ₘ .classDevice ::ₘ 0)
  privDev : v.privDev.isSome
  drvdata : v.drvdata = true
  noOops : v.oops = false

def Complete (x : Node) : Prop :=
  x.ofNode ∧ x.gpioRequest ∧ x.label.isSome ∧ x.enablepulse.isSome ∧ x.pulsetime.isSome

def Requested (x : Node) : Prop := x.ofNode ∧ x.gpioRequest

def LabelFits (x : Node) : Prop := ∀ label ∈ x.label, label.utf8ByteSize < 16

def LabelPrints (x : Node) : Prop := ∀ label ∈ x.label, formatNoArgs (utf8 label) ≠ none

/-- The memory is there before it is used, the label fits it and is no format that
asks for arguments, and the direction can be set once the device is created. -/
structure GoesWell (x : Results) : Prop where
  mem : Requested x.dt → x.devmKzalloc
  label : Requested x.dt → LabelFits x.dt
  format : Complete x.dt → LabelPrints x.dt
  direction : Complete x.dt → x.deviceCreate = none → x.directionOutput = none

section Spec
variable {x : Results} {v : Device}

theorem strcpyLabel_eq_none {text : String} : strcpyLabel text = none ↔ ¬text.utf8ByteSize < 16 := by
  unfold strcpyLabel
  split_ifs with h
  · simp [h]
  · simp [h]

theorem parse_cases (privDev : Bool) (x : Node) :
    (parseDtArgDev privDev x = none ∧ Requested x ∧ (privDev = true → ¬LabelFits x)) ∨
      (∃ ret, parseDtArgDev privDev x = some (.error ret) ∧ ret < 0 ∧ ¬Complete x ∧
        (Requested x → privDev = true ∧ LabelFits x)) ∨
      ∃ r : PltdataGpiopulse × Label, parseDtArgDev privDev x = some (.ok r) ∧ Complete x ∧
        privDev = true ∧ LabelFits x ∧ x.label = some r.2.val := by
  obtain ⟨ofNode, gpioRequest, label, enablepulse, pulsetime⟩ := x
  cases ofNode with
  | false => exact .inr (.inl ⟨-EINVAL, rfl, by decide, by simp [Complete], by simp [Requested]⟩)
  | true =>
  cases gpioRequest with
  | false => exact .inr (.inl ⟨-ENOMEM, rfl, neg_ENOMEM, by simp [Complete], by simp [Requested]⟩)
  | true =>
  cases privDev with
  | false => exact .inl ⟨rfl, ⟨rfl, rfl⟩, by simp⟩
  | true =>
  cases label with
  | none =>
      exact .inr (.inl ⟨-EINVAL, rfl, by decide, by simp [Complete], by simp [LabelFits]⟩)
  | some text =>
  by_cases hfits : text.utf8ByteSize < 16
  · have hlabel : LabelFits ⟨true, true, some text, enablepulse, pulsetime⟩ := by
      simpa [LabelFits] using hfits
    have hstrcpy : strcpyLabel text = some ⟨text, hfits⟩ := dif_pos hfits
    cases enablepulse with
    | none =>
        refine .inr (.inl ⟨-EINVAL, ?_, by decide, by simp [Complete], fun _ => ⟨rfl, hlabel⟩⟩)
        simp [parseDtArgDev, hstrcpy]
    | some enablepulse =>
    cases pulsetime with
    | none =>
        refine .inr (.inl ⟨-EINVAL, ?_, by decide, by simp [Complete], fun _ => ⟨rfl, hlabel⟩⟩)
        simp [parseDtArgDev, hstrcpy]
    | some pulsetime =>
        refine .inr (.inr ⟨(⟨enablepulse, pulsetime⟩, ⟨text, hfits⟩), ?_, ?_, rfl, hlabel, rfl⟩)
        · simp [parseDtArgDev, hstrcpy]
        · exact ⟨rfl, rfl, rfl, rfl, rfl⟩
  · refine .inl ⟨?_, ⟨rfl, rfl⟩, fun _ h => hfits (h text rfl)⟩
    simp [parseDtArgDev, strcpyLabel_eq_none.mpr hfits]

theorem devmKzalloc_isSome (mem : Bool) : (devmKzalloc mem).isSome = mem := by
  cases mem with
  | false => rfl
  | true => rfl

/-- A probe that goes well binds the device or gives everything back. -/
theorem probe_good (h : Idle v) (hx : GoesWell x) :
    (∃ v', pltdrvGpiopulseProbe v x = (some 0, v') ∧ Held v') ∨
      ∃ ret v', pltdrvGpiopulseProbe v x = (some ret, v') ∧ ret < 0 ∧
        Idle { v' with privDev := none, drvdata := false } := by
  unfold pltdrvGpiopulseProbe
  dsimp only
  rw [devmKzalloc_isSome]
  rcases parse_cases x.devmKzalloc x.dt with
    ⟨-, hreq, hleaves⟩ | ⟨ret, hparse, hneg, -, -⟩ | ⟨r, hparse, hcomplete, -, -, hlabel⟩
  · exact absurd (hx.label hreq) (hleaves (hx.mem hreq))
  · rw [hparse]
    exact .inr ⟨ret, _, rfl, hneg, h.ledger, h.noOops⟩
  · obtain ⟨name, hname⟩ := Option.ne_none_iff_exists'.mp (hx.format hcomplete r.2.val hlabel)
    rw [hparse]
    dsimp only
    rw [hname]
    cases hcreate : x.deviceCreate with
    | some err => exact .inr ⟨err.val, _, rfl, err.neg, h.ledger, h.noOops⟩
    | none =>
        rw [hx.direction hcomplete hcreate]
        exact .inl ⟨_, rfl, (h.ledger.acquire .classDevice).acquire .timer, rfl, rfl, h.noOops⟩

theorem probe_bad (v : Device) (hx : ¬GoesWell x) :
    (∃ v', pltdrvGpiopulseProbe v x = (none, v') ∧ ¬Idle v') ∨
      ∃ ret v', pltdrvGpiopulseProbe v x = (some ret, v') ∧ ret ≠ 0 ∧
        ¬Idle { v' with privDev := none, drvdata := false } := by
  unfold pltdrvGpiopulseProbe
  dsimp only
  rw [devmKzalloc_isSome]
  rcases parse_cases x.devmKzalloc x.dt with
    ⟨hparse, -, -⟩ | ⟨ret, -, -, hincomplete, hfine⟩ | ⟨r, hparse, hcomplete, hmem, hfits, hlabel⟩
  · rw [hparse]
    exact .inl ⟨_, rfl, fun h => Bool.noConfusion h.noOops⟩
  · exact absurd ⟨fun hreq => (hfine hreq).1, fun hreq => (hfine hreq).2,
      fun hcomplete => absurd hcomplete hincomplete,
      fun hcomplete => absurd hcomplete hincomplete⟩ hx
  · rw [hparse]
    dsimp only
    cases hformat : formatNoArgs (utf8 r.2.val) with
    | none => exact .inl ⟨_, rfl, fun h => Bool.noConfusion h.noOops⟩
    | some name =>
        have hprints : LabelPrints x.dt := by
          rintro label hmem
          obtain rfl : r.2.val = label := Option.some.inj (hlabel.symm.trans hmem)
          rw [hformat]
          nofun
        have hdirection : x.deviceCreate = none ∧ x.directionOutput ≠ none := by
          by_contra hno
          refine hx ⟨fun _ => hmem, fun _ => hfits, fun _ => hprints, fun _ hcreate => ?_⟩
          by_contra hdir
          exact hno ⟨hcreate, hdir⟩
        obtain ⟨hcreate, hdir⟩ := hdirection
        obtain ⟨err, herr⟩ := Option.ne_none_iff_exists'.mp hdir
        rw [hcreate, herr]
        refine .inr ⟨err.val, _, rfl, err.neg.ne, fun h => ?_⟩
        exact Multiset.cons_ne_zero (congrArg Ledger.held h.ledger)

theorem pltdrvGpiopulseRemove_idle (h : Held v) :
    Idle { pltdrvGpiopulseRemove v with privDev := none, drvdata := false } := by
  rw [pltdrvGpiopulseRemove, if_pos h.drvdata]
  exact ⟨h.ledger.release.release, h.noOops⟩

end Spec

theorem gpiopulseDriver_contract : gpiopulseDriver.Contract Idle Held GoesWell where
  fresh := ⟨Ledger.holds_empty, rfl⟩
  remove _ hv := pltdrvGpiopulseRemove_idle hv
  good _ _ hv hx := probe_good hv hx
  bad _ v _ hx := probe_bad v hx

/-- After every call of a run the class devices and timers are those of the bound
devices, with their private data, no probe has used memory that it did not get,
left its label or read arguments that nobody passed, and a probe that failed has
returned an error, exactly if all probes go well. -/
theorem balanced_iff_goesWell (as : List (Call Results)) :
    gpiopulseDriver.system.Along (Settled Idle Held) gpiopulseDriver.initial as ↔
      gpiopulseDriver.system.Meets (ProbesKeep GoesWell) gpiopulseDriver.initial as :=
  gpiopulseDriver_contract.along_iff as

def noDirection : Results :=
  ⟨true, ⟨true, true, some "pulse", some 1, some 100⟩, none, some ⟨-eio, neg_eio⟩⟩

/-- The probe fails, its private data are freed, and its class device stays. -/
theorem not_balanced_noDirection :
    ¬∀ as : List (Call Results),
      gpiopulseDriver.system.Along (Settled Idle Held) gpiopulseDriver.initial as := by
  intro h
  have hstate := ((h [.probe 0 noDirection]).2 _ rfl : Settled Idle Held _).idle 0
    (Finset.notMem_empty 0)
  exact absurd (congrArg Ledger.held hstate.ledger) (by decide)

end LinuxDeviceDrivers.GpiopulseBalance
