import LinuxDeviceDrivers.KernelPrimitives
import LinuxDeviceDrivers.ResourceLedger
import LinuxDeviceDrivers.TransitionSystem
import Mathlib.Algebra.BigOperators.Group.Finset.Piecewise
import Mathlib.Tactic.Common

/-!
# Probe and remove of pltdrv_attr_dt

`pltdrv_probe` and `pltdrv_remove` on any number of platform devices, with or
without a device-tree node. Each kernel call of a probe succeeds or fails as the
environment says, except that a device number that is already in use is always
refused. The driver core calls `pltdrv_probe` for devices that are not bound
and `pltdrv_remove` for bound ones.

The resources are in balance after every call. The device numbers come from the
count of bound devices, so they stay apart only while the devices are removed
in the reverse order of their probes.
-/
namespace LinuxDeviceDrivers.PltdrvProbe
open KernelPrimitives ResourceLedger TransitionSystem

def NR_MINOR_DEVCS : ℕ := 2

structure PltdataFifo where
  version : BitVec 32
  fsize : BitVec 32
deriving DecidableEq, Repr

/-- The fields of `struct fifo_prvt_devc` that the probe fills. -/
structure FifoPrvtDevc where
  myfifo : Kfifo
  pltDataPrv : PltdataFifo
  devnr : BitVec 32
deriving DecidableEq, Repr

/-- What the driver reads of a `struct platform_device`: whether its node is
compatible with the driver, whether it has a node, its platform data and its id. -/
structure PlatformDevice where
  compatible : Bool
  ofNode : Bool
  platdata : Option PltdataFifo
  id : BitVec 32
deriving DecidableEq, Repr

/-- The results of the kernel calls of one probe. -/
structure Results where
  pltMem : Bool
  version : Option (BitVec 32)
  fsize : Option (BitVec 32)
  devMem : Bool
  deviceCreate : Option Errno
  cdevAdd : Option Errno
  fifoMem : Bool
  sysfsCreateGroup : Option Errno
deriving DecidableEq, Repr

/-- A device is registered in the class under its number; the other resources
belong to a platform device. -/
inductive Resource where
  | classDevice (devnr : BitVec 32)
  | cdev (d : ℕ)
  | fifo (d : ℕ)
  | sysfsGroup (d : ℕ)
deriving DecidableEq, Repr

/-- `prv_drv`, the driver data of each device, the bound devices, and what the
driver holds. `nr_devcs_probed` is an `unsigned int`: the bound devices would
have to use up all device numbers to make it wrap. `oops` is set when the
driver follows a null pointer. -/
structure State where
  bDevnr : BitVec 32
  nrDevcsProbed : ℕ
  drvdata : ℕ → Option FifoPrvtDevc
  bound : Finset ℕ
  ledger : Ledger Resource
  oops : Bool

namespace State

def setDrvdata (s : State) (d : ℕ) (v : Option FifoPrvtDevc) : State :=
  { s with drvdata := Function.update s.drvdata d v }

def acquire (s : State) (r : Resource) : State := { s with ledger := s.ledger.acquire r }

def release (s : State) (r : Resource) : State := { s with ledger := s.ledger.release r }

@[simp] theorem release_acquire (s : State) (r : Resource) : (s.acquire r).release r = s := by
  simp [acquire, release]

@[simp] theorem setDrvdata_setDrvdata (s : State) (d : ℕ) (v w : Option FifoPrvtDevc) :
    (s.setDrvdata d v).setDrvdata d w = s.setDrvdata d w := by
  simp [setDrvdata]

@[simp] theorem setDrvdata_acquire (s : State) (d : ℕ) (v : Option FifoPrvtDevc) (r : Resource) :
    (s.acquire r).setDrvdata d v = (s.setDrvdata d v).acquire r := rfl

/-- `device_create` refuses a number that it has already given to a device. -/
def InUse (s : State) (devnr : BitVec 32) : Prop := .classDevice devnr ∈ s.ledger.held

instance (s : State) (devnr : BitVec 32) : Decidable (s.InUse devnr) :=
  inferInstanceAs (Decidable (_ ∈ s.ledger.held))

end State

def setupPltdrvDev (dev : FifoPrvtDevc) (mem : Bool) : Except ℤ FifoPrvtDevc :=
  match kfifoAlloc dev.pltDataPrv.fsize mem with
  | .error ret => .error ret
  | .ok myfifo => .ok { dev with myfifo := myfifo }

theorem setupPltdrvDev_data {dev dev' : FifoPrvtDevc} {mem : Bool}
    (h : setupPltdrvDev dev mem = .ok dev') : dev'.myfifo.data = [] := by
  unfold setupPltdrvDev at h
  split at h
  · cases h
  · cases h
    exact (kfifoAlloc_ok ‹_›).1

def uninstallPltdrvDev (d : ℕ) (s : State) : State := s.release (.fifo d)

/-- A null pointer is `.ok none`, an error pointer `.error`. -/
def parseDtArgDevcs (ofdev : PlatformDevice) (x : Results) : Except ℤ (Option PltdataFifo) :=
  if !ofdev.ofNode then .ok none
  else if !x.pltMem then .error (-ENOMEM)
  else match x.version with
    | none => .error (-EINVAL)
    | some version =>
        match x.fsize with
        | none => .error (-EINVAL)
        | some fsize => .ok (some ⟨version, fsize⟩)

section Probe
variable (d : ℕ) (devData : FifoPrvtDevc) (ret : ℤ) (s : State)

def errDestructDevice : ℤ × State := (ret, s.release (.classDevice devData.devnr))

def errUnregisterCdev : ℤ × State := errDestructDevice devData ret (s.release (.cdev d))

def errSetupPltdrv : ℤ × State := errUnregisterCdev d devData ret (uninstallPltdrvDev d s)

/-- `pltdrv_probe` from `dev_set_drvdata` on. -/
def registerDevice (x : Results) : ℤ × State :=
  let s := s.setDrvdata d (some devData)
  if s.InUse devData.devnr then (-EEXIST, s)
  else match x.deviceCreate with
    | some err => (err.val, s)
    | none =>
      let s := s.acquire (.classDevice devData.devnr)
      match x.cdevAdd with
      | some err => errDestructDevice devData err.val s
      | none =>
        let s := s.acquire (.cdev d)
        match setupPltdrvDev devData x.fifoMem with
        | .error ret => errUnregisterCdev d devData ret s
        | .ok devData =>
          let s := (s.setDrvdata d (some devData)).acquire (.fifo d)
          match x.sysfsCreateGroup with
          | some err => errSetupPltdrv d devData err.val s
          | none =>
            let s := s.acquire (.sysfsGroup d)
            (0, { s with nrDevcsProbed := s.nrDevcsProbed + 1 })

/-- The platform data of a device and its `data_id`. -/
def platformData (ofdev : PlatformDevice) (x : Results) :
    Except ℤ (Option PltdataFifo × BitVec 32) :=
  if ofdev.compatible then
    match parseDtArgDevcs ofdev x with
    | .error _ => .error (-ENOMEM)
    | .ok pltData => .ok (pltData, BitVec.ofNat 32 s.nrDevcsProbed)
  else .ok (ofdev.platdata, ofdev.id)

def pltdrvProbe (ofdev : PlatformDevice) (x : Results) : ℤ × State :=
  match platformData s ofdev x with
  | .error ret => (ret, s)
  | .ok (none, _) => (-EINVAL, s)
  | .ok (some pltData, dataId) =>
      if !x.devMem then (-EINVAL, s)
      else registerDevice d ⟨⟨0, []⟩, pltData, s.bDevnr + dataId⟩ s x

def pltdrvRemove : State :=
  match s.drvdata d with
  | none => { s with oops := true }
  | some devData =>
      let s := s.release (.sysfsGroup d)
      let s := uninstallPltdrvDev d s
      let s := s.release (.cdev d)
      let s := s.release (.classDevice devData.devnr)
      { s with nrDevcsProbed := s.nrDevcsProbed - 1 }

end Probe

inductive Call where
  | probe (d : ℕ) (ofdev : PlatformDevice) (x : Results)
  | remove (d : ℕ)
deriving DecidableEq, Repr

/-- The driver core around the two calls: a device is bound by a probe that
returns 0, and its driver data go away with a failed probe or a remove. -/
def call (s : State) : Call → Option State
  | .probe d ofdev x =>
      if d ∈ s.bound then none
      else
        let (ret, s) := pltdrvProbe d s ofdev x
        if ret = 0 then some { s with bound := insert d s.bound } else some (s.setDrvdata d none)
  | .remove d =>
      if d ∈ s.bound then
        let s := pltdrvRemove d s
        some { s.setDrvdata d none with bound := s.bound.erase d }
      else none

/-- The driver after `pltdrv_init`. -/
def initial (bDevnr : BitVec 32) : State :=
  { bDevnr := bDevnr, nrDevcsProbed := 0, drvdata := fun _ => none, bound := ∅
    ledger := .empty, oops := false }

def system : System State Call where
  start s := ∃ bDevnr, s = initial bDevnr
  next := call

/-- The state after a probe of `d` that has come to its end. -/
def probed (d : ℕ) (v : FifoPrvtDevc) (s : State) : State :=
  { s with
    nrDevcsProbed := s.nrDevcsProbed + 1
    drvdata := Function.update s.drvdata d (some v)
    ledger := (((s.ledger.acquire (.classDevice v.devnr)).acquire (.cdev d)).acquire
      (.fifo d)).acquire (.sysfsGroup d) }

/-- No kernel call of the probe fails once it has its driver data. -/
structure Registers (devData : FifoPrvtDevc) (x : Results) (s : State) : Prop where
  free : ¬s.InUse devData.devnr
  create : x.deviceCreate = none
  add : x.cdevAdd = none
  fifo : ∃ f, kfifoAlloc devData.pltDataPrv.fsize x.fifoMem = .ok f
  sysfs : x.sysfsCreateGroup = none

/-- A call that gave back all it took, with an error. -/
def Undone (d : ℕ) (s : State) (r : ℤ × State) : Prop :=
  r.1 < 0 ∧ r.2.setDrvdata d none = s.setDrvdata d none

section ProbeSpec
variable {d : ℕ} {devData : FifoPrvtDevc} {s : State} {x : Results} {ofdev : PlatformDevice}

theorem kfifoAlloc_neg {size : BitVec 32} {mem : Bool} {ret : ℤ}
    (h : kfifoAlloc size mem = .error ret) : ret < 0 := by
  simp only [kfifoAlloc] at h
  split_ifs at h
  · cases h; decide
  · cases h; decide

/-- The goto ladder releases, last first, what was acquired before the failing call. -/
theorem registerDevice_cases (d : ℕ) (devData : FifoPrvtDevc) (s : State) (x : Results) :
    (Registers devData x s ∧
      ∃ v, v.devnr = devData.devnr ∧ registerDevice d devData s x = (0, probed d v s)) ∨
    ¬Registers devData x s ∧ Undone d s (registerDevice d devData s x) := by
  have hundone : ∀ {ret : ℤ} (v : Option FifoPrvtDevc), ret < 0 →
      Undone d s (ret, s.setDrvdata d v) := fun v hret =>
    ⟨hret, s.setDrvdata_setDrvdata d v none⟩
  unfold registerDevice
  dsimp only
  split_ifs with hfree
  · exact .inr ⟨fun h => h.free hfree, hundone _ (by decide)⟩
  cases hcreate : x.deviceCreate with
  | some err => exact .inr ⟨fun h => by simp [h.create] at hcreate, hundone _ err.neg⟩
  | none =>
    cases hadd : x.cdevAdd with
    | some err =>
        refine .inr ⟨fun h => by simp [h.add] at hadd, ?_⟩
        simpa [errDestructDevice] using hundone (some devData) err.neg
    | none =>
      cases hfifo : kfifoAlloc devData.pltDataPrv.fsize x.fifoMem with
      | error ret =>
          refine .inr ⟨fun h => ?_, ?_⟩
          · obtain ⟨f, hf⟩ := h.fifo
            simp [hf] at hfifo
          · simpa [setupPltdrvDev, hfifo, errUnregisterCdev, errDestructDevice] using
              hundone (some devData) (kfifoAlloc_neg hfifo)
      | ok f =>
        cases hsysfs : x.sysfsCreateGroup with
        | some err =>
            refine .inr ⟨fun h => by simp [h.sysfs] at hsysfs, ?_⟩
            simpa [setupPltdrvDev, hfifo, errSetupPltdrv, uninstallPltdrvDev, errUnregisterCdev,
              errDestructDevice] using hundone (some { devData with myfifo := f }) err.neg
        | none =>
            refine .inl ⟨⟨hfree, hcreate, hadd, ⟨f, hfifo⟩, hsysfs⟩, { devData with myfifo := f },
              rfl, ?_⟩
            simp [setupPltdrvDev, hfifo, probed, State.setDrvdata, State.acquire]

/-- Every kernel call of the probe succeeds, up to the choice of the number. -/
structure Accepts (s : State) (ofdev : PlatformDevice) (x : Results) (devData : FifoPrvtDevc) :
    Prop where
  data : ∃ pltData dataId, platformData s ofdev x = .ok (some pltData, dataId) ∧
    devData = ⟨⟨0, []⟩, pltData, s.bDevnr + dataId⟩
  mem : x.devMem = true
  registers : Registers devData x s

theorem pltdrvProbe_cases (d : ℕ) (s : State) (ofdev : PlatformDevice) (x : Results) :
    (∃ devData v, Accepts s ofdev x devData ∧ v.devnr = devData.devnr ∧
      pltdrvProbe d s ofdev x = (0, probed d v s)) ∨
    (∀ devData, ¬Accepts s ofdev x devData) ∧ Undone d s (pltdrvProbe d s ofdev x) := by
  unfold pltdrvProbe
  split
  · rename_i ret hdata
    refine .inr ⟨fun devData h => ?_, ?_, rfl⟩
    · obtain ⟨pltData, dataId, hdata', _⟩ := h.data
      simp [hdata] at hdata'
    · unfold platformData at hdata
      split_ifs at hdata
      split at hdata
      · cases hdata
        exact neg_ENOMEM
      · cases hdata
  · rename_i hdata
    refine .inr ⟨fun devData h => ?_, show (-EINVAL : ℤ) < 0 by decide, rfl⟩
    obtain ⟨pltData, dataId, hdata', _⟩ := h.data
    simp [hdata] at hdata'
  · rename_i pltData dataId hdata
    split_ifs with hmem
    · exact .inr ⟨fun devData h => by simp [h.mem] at hmem,
        show (-EINVAL : ℤ) < 0 by decide, rfl⟩
    · have hmem' : x.devMem = true := by simpa using hmem
      rcases registerDevice_cases d ⟨⟨0, []⟩, pltData, s.bDevnr + dataId⟩ s x with
        ⟨hreg, v, hv, hr⟩ | ⟨hreg, hundone⟩
      · exact .inl ⟨_, v, ⟨⟨pltData, dataId, hdata, rfl⟩, hmem', hreg⟩, hv, hr⟩
      · refine .inr ⟨fun devData h => hreg ?_, hundone⟩
        obtain ⟨pltData', dataId', hdata', rfl⟩ := h.data
        rw [hdata] at hdata'
        cases hdata'
        exact h.registers

end ProbeSpec

/-- The state after a remove of `d` with driver data `v`. -/
def removed (d : ℕ) (v : FifoPrvtDevc) (s : State) : State :=
  { s with
    nrDevcsProbed := s.nrDevcsProbed - 1
    ledger := (((s.ledger.release (.sysfsGroup d)).release (.fifo d)).release (.cdev d)).release
      (.classDevice v.devnr) }

theorem pltdrvRemove_eq {d : ℕ} {s : State} {v : FifoPrvtDevc} (h : s.drvdata d = some v) :
    pltdrvRemove d s = removed d v s := by
  simp [pltdrvRemove, h, uninstallPltdrvDev, State.release, removed]

/-- What a call of the driver core does when bound devices have driver data. -/
inductive Called (s : State) : Call → State → Prop
  | bound (d : ℕ) (ofdev : PlatformDevice) (x : Results) (devData v : FifoPrvtDevc) :
      d ∉ s.bound → Accepts s ofdev x devData → v.devnr = devData.devnr →
      Called s (.probe d ofdev x) { probed d v s with bound := insert d s.bound }
  | undone (d : ℕ) (ofdev : PlatformDevice) (x : Results) : d ∉ s.bound →
      (∀ devData, ¬Accepts s ofdev x devData) →
      Called s (.probe d ofdev x) (s.setDrvdata d none)
  | removed (d : ℕ) (v : FifoPrvtDevc) : d ∈ s.bound → s.drvdata d = some v →
      Called s (.remove d)
        { (removed d v s).setDrvdata d none with bound := s.bound.erase d }

theorem called_of_call {s t : State} {a : Call} (hdrv : ∀ d ∈ s.bound, ∃ v, s.drvdata d = some v)
    (h : call s a = some t) : Called s a t := by
  cases a with
  | probe d ofdev x =>
      simp only [call] at h
      split_ifs at h with hd hret
      · cases h
        rcases pltdrvProbe_cases d s ofdev x with ⟨devData, v, hacc, hv, hr⟩ | ⟨_, hneg, _⟩
        · rw [hr]
          exact .bound d ofdev x devData v hd hacc hv
        · exact absurd hret hneg.ne
      · cases h
        rcases pltdrvProbe_cases d s ofdev x with ⟨devData, v, _, _, hr⟩ | ⟨hacc, _, hundone⟩
        · rw [hr] at hret
          exact absurd rfl hret
        · rw [hundone]
          exact .undone d ofdev x hd hacc
  | remove d =>
      simp only [call] at h
      split_ifs at h with hd
      obtain ⟨v, hv⟩ := hdrv d hd
      rw [pltdrvRemove_eq hv] at h
      cases h
      exact .removed d v hd hv

/-- What a device with these driver data has been given. -/
def owned (d : ℕ) : Option FifoPrvtDevc → Multiset Resource
  | none => 0
  | some v => .sysfsGroup d ::ₘ .fifo d ::ₘ .cdev d ::ₘ {.classDevice v.devnr}

/-- Each bound device has one resource of each kind and a number of its own, the
driver holds nothing else and has released nothing else, and
`nr_devcs_probed` counts the bound devices. -/
structure Balanced (s : State) : Prop where
  drvdata : ∀ d, d ∈ s.bound ↔ ∃ v, s.drvdata d = some v
  held : s.ledger.Holds (∑ d ∈ s.bound, owned d (s.drvdata d))
  apart : ∀ d e v w, s.drvdata d = some v → s.drvdata e = some w → v.devnr = w.devnr → d = e
  count : s.nrDevcsProbed = s.bound.card
  noOops : s.oops = false

section Balance
variable {s t : State} {a : Call}

theorem owned_some (d : ℕ) (v : FifoPrvtDevc) : owned d (some v) =
    .sysfsGroup d ::ₘ .fifo d ::ₘ .cdev d ::ₘ {.classDevice v.devnr} := rfl

theorem mem_owned {n : BitVec 32} {d : ℕ} {v : Option FifoPrvtDevc} :
    .classDevice n ∈ owned d v ↔ ∃ w, v = some w ∧ w.devnr = n := by
  cases v with
  | none => simp [owned]
  | some w => simp [owned, eq_comm]

theorem Balanced.inUse_iff (h : Balanced s) (n : BitVec 32) :
    s.InUse n ↔ ∃ d v, s.drvdata d = some v ∧ v.devnr = n := by
  have hheld : s.ledger.held = ∑ d ∈ s.bound, owned d (s.drvdata d) := congrArg Ledger.held h.held
  rw [State.InUse, hheld, Multiset.mem_sum]
  constructor
  · rintro ⟨d, _, hd⟩
    obtain ⟨v, hv, hn⟩ := mem_owned.mp hd
    exact ⟨d, v, hv, hn⟩
  · rintro ⟨d, v, hv, hn⟩
    exact ⟨d, (h.drvdata d).mpr ⟨v, hv⟩, mem_owned.mpr ⟨v, hv, hn⟩⟩

/-- The devices that a call is not about keep what they have. -/
theorem sum_owned_update {d : ℕ} {B : Finset ℕ} (hd : d ∉ B) (s : State)
    (v : Option FifoPrvtDevc) :
    ∑ e ∈ B, owned e (Function.update s.drvdata d v e) = ∑ e ∈ B, owned e (s.drvdata e) := by
  refine Finset.sum_congr rfl fun e he => ?_
  have hne : e ≠ d := fun h => hd (h ▸ he)
  rw [Function.update_of_ne hne]

theorem Balanced.drvdata_none (h : Balanced s) {d : ℕ} (hd : d ∉ s.bound) : s.drvdata d = none := by
  by_contra hne
  exact hd ((h.drvdata d).mpr (Option.ne_none_iff_exists'.mp hne))

theorem Balanced.setDrvdata_none (h : Balanced s) {d : ℕ} (hd : d ∉ s.bound) :
    s.setDrvdata d none = s := by
  rw [State.setDrvdata, ← h.drvdata_none hd, Function.update_eq_self]

theorem Balanced.bind (h : Balanced s) {d : ℕ} (hd : d ∉ s.bound) {v : FifoPrvtDevc}
    (hfree : ¬s.InUse v.devnr) : Balanced { probed d v s with bound := insert d s.bound } where
  drvdata e := by
    by_cases he : e = d
    · simp [probed, he]
    · simp [probed, he, h.drvdata]
  held := by
    have hsum : ∑ e ∈ insert d s.bound, owned e ((probed d v s).drvdata e) =
        .sysfsGroup d ::ₘ .fifo d ::ₘ .cdev d ::ₘ .classDevice v.devnr ::ₘ
          ∑ e ∈ s.bound, owned e (s.drvdata e) := by
      rw [Finset.sum_insert hd]
      simp only [probed, Function.update_self, sum_owned_update hd, owned_some, Multiset.cons_add,
        Multiset.singleton_add]
    show Ledger.Holds _ (∑ e ∈ insert d s.bound, owned e ((probed d v s).drvdata e))
    rw [hsum]
    exact (((h.held.acquire _).acquire _).acquire _).acquire _
  apart := by
    have hnew : ∀ e w, s.drvdata e = some w → v.devnr ≠ w.devnr := fun e w hw hn =>
      hfree ((h.inUse_iff _).mpr ⟨e, w, hw, hn.symm⟩)
    intro e f w u hw hu hn
    by_cases he : e = d <;> by_cases hf : f = d
    · rw [he, hf]
    · simp only [probed, he, Function.update_self, Function.update_of_ne hf] at hw hu
      cases hw
      exact absurd hn (hnew f u hu)
    · simp only [probed, hf, Function.update_self, Function.update_of_ne he] at hw hu
      cases hu
      exact absurd hn.symm (hnew e w hw)
    · simp only [probed, Function.update_of_ne he, Function.update_of_ne hf] at hw hu
      exact h.apart e f w u hw hu hn
  count := by
    simp [probed, h.count, Finset.card_insert_of_notMem hd]
  noOops := h.noOops

theorem Balanced.unbind (h : Balanced s) {d : ℕ} (hd : d ∈ s.bound) {v : FifoPrvtDevc}
    (hv : s.drvdata d = some v) :
    Balanced { (removed d v s).setDrvdata d none with bound := s.bound.erase d } where
  drvdata e := by
    by_cases he : e = d
    · simp [removed, State.setDrvdata, he]
    · simp [removed, State.setDrvdata, he, h.drvdata]
  held := by
    have hsum : ∑ e ∈ s.bound, owned e (s.drvdata e) =
        .sysfsGroup d ::ₘ .fifo d ::ₘ .cdev d ::ₘ .classDevice v.devnr ::ₘ
          ∑ e ∈ s.bound.erase d, owned e (Function.update s.drvdata d none e) := by
      rw [sum_owned_update (Finset.notMem_erase d s.bound), ← Finset.add_sum_erase _ _ hd, hv]
      simp only [owned_some, Multiset.cons_add, Multiset.singleton_add]
    have hheld := h.held
    rw [hsum] at hheld
    exact hheld.release.release.release.release
  apart := by
    intro e f w u hw hu hn
    by_cases he : e = d
    · simp [removed, State.setDrvdata, he] at hw
    by_cases hf : f = d
    · simp [removed, State.setDrvdata, hf] at hu
    simp only [removed, State.setDrvdata, Function.update_of_ne he, Function.update_of_ne hf]
      at hw hu
    exact h.apart e f w u hw hu hn
  count := by
    simp [removed, State.setDrvdata, h.count, Finset.card_erase_of_mem hd]
  noOops := h.noOops

theorem Balanced.called (h : Balanced s) (ht : call s a = some t) : Called s a t :=
  called_of_call (fun d hd => (h.drvdata d).mp hd) ht

theorem Balanced.step (h : Balanced s) (ht : call s a = some t) : Balanced t := by
  cases h.called ht with
  | bound d ofdev x devData v hd hacc hv => exact h.bind hd (hv ▸ hacc.registers.free)
  | undone d ofdev x hd _ => exact (h.setDrvdata_none hd).symm ▸ h
  | removed d v hd hv => exact h.unbind hd hv

end Balance

theorem balanced_initial (bDevnr : BitVec 32) : Balanced (initial bDevnr) where
  drvdata d := by simp [initial]
  held := Ledger.holds_empty
  apart := nofun
  count := rfl
  noOops := rfl

theorem balanced_reachable {s : State} (h : system.Reachable s) : Balanced s := by
  refine h.invariant ?_ fun s a t _ hs _ ht => hs.step ht
  rintro s ⟨bDevnr, rfl⟩
  exact balanced_initial bDevnr

/-- A device with platform data whose FIFO gets the given size, a device-tree
device whose sysfs group cannot be created, and another one that is bound before
the first one is removed. -/
def mixedDevices : List Call :=
  [.probe 0 ⟨false, false, some ⟨1, 16⟩, 5⟩ ⟨true, none, none, true, none, none, true, none⟩,
    .probe 1 ⟨true, true, none, 0⟩
      ⟨true, some 1, some 16, true, none, none, true, some ⟨-ENOMEM, neg_ENOMEM⟩⟩,
    .probe 2 ⟨true, true, none, 0⟩ ⟨true, some 1, some 16, true, none, none, true, none⟩,
    .remove 0]

theorem balanced_reachable_mixedDevices :
    ∃ s, system.run (initial 0x0f500000) mixedDevices = some s ∧ s.bound = {2} ∧
      s.ledger.held = {.sysfsGroup 2, .fifo 2, .cdev 2, .classDevice 0x0f500001} ∧ Balanced s :=
  ⟨_, rfl, rfl, rfl, balanced_reachable (System.Reachable.run (.start ⟨_, rfl⟩)
    (show system.run (initial 0x0f500000) mixedDevices = _ from rfl))⟩

/-- A device with a device-tree node that the driver matches. -/
def PlatformDevice.OnDeviceTree (ofdev : PlatformDevice) : Prop :=
  ofdev.compatible = true ∧ ofdev.ofNode = true

def Call.OnDeviceTree : Call → Prop
  | .probe _ ofdev _ => ofdev.OnDeviceTree
  | .remove _ => True

/-- `MINOR` -/
def minor (dev : BitVec 32) : ℕ := dev.toNat % 2 ^ 20

/-- Device-tree devices only, after `alloc_chrdev_region` from minor 0. -/
def deviceTreeSystem : System State { a : Call // a.OnDeviceTree } where
  start s := ∃ bDevnr, minor bDevnr = 0 ∧ s = initial bDevnr
  next s a := call s a

/-- Every kernel call of the probe of a device-tree device succeeds, apart from
a refused device number. -/
structure Results.AllSucceed (x : Results) : Prop where
  pltMem : x.pltMem = true
  version : ∃ version, x.version = some version
  fsize : ∃ fsize f, x.fsize = some fsize ∧ kfifoAlloc fsize x.fifoMem = .ok f
  devMem : x.devMem = true
  create : x.deviceCreate = none
  add : x.cdevAdd = none
  sysfs : x.sysfsCreateGroup = none

/-- A device whose probe meets no failing kernel call. -/
def goodDevice : PlatformDevice := ⟨true, true, none, 0⟩

def goodResults : Results := ⟨true, some 0, some 16, true, none, none, true, none⟩

/-- The number that `pltdrv_probe` computes for a device-tree device. -/
def State.nextDevnr (s : State) : BitVec 32 := s.bDevnr + BitVec.ofNat 32 s.nrDevcsProbed

/-- The region that `alloc_chrdev_region` has reserved. -/
def State.InRegion (s : State) (devnr : BitVec 32) : Prop :=
  s.bDevnr.toNat ≤ devnr.toNat ∧ devnr.toNat < s.bDevnr.toNat + NR_MINOR_DEVCS

/-- While there is room, the next probe succeeds with a new number from the
region, and no bound device has a number outside it. -/
structure MinorsRight (s : State) : Prop where
  next : s.bound.card < NR_MINOR_DEVCS → ∀ d ofdev x, d ∉ s.bound → ofdev.OnDeviceTree →
    x.AllSucceed → ∃ t v, call s (.probe d ofdev x) = some t ∧ t.bound = insert d s.bound ∧
      t.drvdata d = some v ∧ s.InRegion v.devnr ∧
      ∀ e w, s.drvdata e = some w → w.devnr ≠ v.devnr
  region : ∀ d v, s.drvdata d = some v → s.InRegion v.devnr

/-- A device is probed while there is room, and the device removed is the one
with the highest number. -/
def Ordered (s : State) (a : { a : Call // a.OnDeviceTree }) : Prop :=
  match a.val with
  | .probe d _ x => d ∉ s.bound → x.AllSucceed → s.bound.card < NR_MINOR_DEVCS
  | .remove d => ∀ v, s.drvdata d = some v →
      v.devnr = s.bDevnr + BitVec.ofNat 32 (s.bound.card - 1)

/-- The numbers in use are those from `b_devnr` on, one for each bound device. -/
structure Consecutive (s : State) : Prop where
  minor : minor s.bDevnr = 0
  room : s.bound.card ≤ NR_MINOR_DEVCS
  inUse : ∀ n, s.InUse n ↔ ∃ i < s.bound.card, n = s.bDevnr + BitVec.ofNat 32 i

section DeviceTree
variable {s t : State} {ofdev : PlatformDevice} {x : Results} {devData : FifoPrvtDevc} {d : ℕ}

theorem platformData_deviceTree (hdt : ofdev.OnDeviceTree) :
    platformData s ofdev x =
      match parseDtArgDevcs ofdev x with
      | .error _ => .error (-ENOMEM)
      | .ok pltData => .ok (pltData, BitVec.ofNat 32 s.nrDevcsProbed) := if_pos hdt.1

theorem Accepts.deviceTree (hdt : ofdev.OnDeviceTree) (h : Accepts s ofdev x devData) :
    x.AllSucceed ∧ devData.devnr = s.nextDevnr := by
  obtain ⟨pltData, dataId, hdata, rfl⟩ := h.data
  obtain ⟨f, hf⟩ := h.registers.fifo
  rw [platformData_deviceTree hdt] at hdata
  split at hdata
  · cases hdata
  rename_i hparse
  cases hdata
  simp only [parseDtArgDevcs, hdt.2] at hparse
  split_ifs at hparse with _ hmem
  · cases hparse
  split at hparse
  · cases hparse
  split at hparse
  · cases hparse
  rename_i version hversion _ fsize hfsize
  cases hparse
  exact ⟨⟨by simpa using hmem, ⟨version, hversion⟩, ⟨fsize, f, hfsize, hf⟩, h.mem,
    h.registers.create, h.registers.add, h.registers.sysfs⟩, rfl⟩

theorem accepts_of_allSucceed (hdt : ofdev.OnDeviceTree) (hx : x.AllSucceed)
    (hfree : ¬s.InUse s.nextDevnr) : ∃ devData, Accepts s ofdev x devData := by
  obtain ⟨version, hversion⟩ := hx.version
  obtain ⟨fsize, f, hfsize, hf⟩ := hx.fsize
  have hdata : platformData s ofdev x =
      .ok (some ⟨version, fsize⟩, BitVec.ofNat 32 s.nrDevcsProbed) := by
    simp [platformData_deviceTree hdt, parseDtArgDevcs, hdt.2, hx.pltMem, hversion, hfsize]
  exact ⟨_, ⟨_, _, hdata, rfl⟩, hx.devMem, hfree, hx.create, hx.add, ⟨f, hf⟩, hx.sysfs⟩

theorem number_inj {b : BitVec 32} {i j : ℕ} (hi : i < 2 ^ 32) (hj : j < 2 ^ 32)
    (h : b + BitVec.ofNat 32 i = b + BitVec.ofNat 32 j) : i = j := by
  bv_omega

theorem inUse_bound {v : FifoPrvtDevc} {n : BitVec 32} :
    State.InUse { probed d v s with bound := insert d s.bound } n ↔
      n = v.devnr ∨ s.InUse n := by
  simp [State.InUse, probed, Ledger.acquire]

theorem inUse_unbound (hb : Balanced s) (hd : d ∈ s.bound) {v : FifoPrvtDevc}
    (hv : s.drvdata d = some v) {n : BitVec 32} :
    State.InUse { (removed d v s).setDrvdata d none with bound := s.bound.erase d } n ↔
      s.InUse n ∧ n ≠ v.devnr := by
  rw [(hb.unbind hd hv).inUse_iff, hb.inUse_iff]
  constructor
  · rintro ⟨e, w, hw, rfl⟩
    by_cases he : e = d
    · simp [removed, State.setDrvdata, he] at hw
    · simp only [removed, State.setDrvdata, Function.update_of_ne he] at hw
      exact ⟨⟨e, w, hw, rfl⟩, fun hn => he (hb.apart e d w v hw hv hn)⟩
  · rintro ⟨⟨e, w, hw, rfl⟩, hn⟩
    have he : e ≠ d := by
      rintro rfl
      rw [hv] at hw
      cases hw
      exact hn rfl
    exact ⟨e, w, by simpa [removed, State.setDrvdata, Function.update_of_ne he] using hw, rfl⟩

theorem Consecutive.nextDevnr_free (hc : Consecutive s) (hb : Balanced s) :
    ¬s.InUse s.nextDevnr := by
  rw [hc.inUse]
  rintro ⟨i, hi, hn⟩
  have hroom := hc.room
  rw [State.nextDevnr, hb.count] at hn
  have := number_inj (by unfold NR_MINOR_DEVCS at hroom; omega)
    (by unfold NR_MINOR_DEVCS at hroom; omega) hn
  omega

theorem Consecutive.bind (hc : Consecutive s) (hb : Balanced s) (hd : d ∉ s.bound)
    (hroom : s.bound.card < NR_MINOR_DEVCS) {v : FifoPrvtDevc} (hv : v.devnr = s.nextDevnr) :
    Consecutive { probed d v s with bound := insert d s.bound } where
  minor := hc.minor
  room := by
    show (insert d s.bound).card ≤ NR_MINOR_DEVCS
    rw [Finset.card_insert_of_notMem hd]
    exact hroom
  inUse n := by
    show _ ↔ ∃ i < (insert d s.bound).card, n = s.bDevnr + BitVec.ofNat 32 i
    rw [inUse_bound, Finset.card_insert_of_notMem hd, hc.inUse, hv, State.nextDevnr, hb.count]
    constructor
    · rintro (rfl | ⟨i, hi, rfl⟩)
      · exact ⟨_, Nat.lt_succ_self _, rfl⟩
      · exact ⟨i, by omega, rfl⟩
    · rintro ⟨i, hi, rfl⟩
      rcases Nat.lt_succ_iff_lt_or_eq.mp hi with hlt | rfl
      · exact .inr ⟨i, hlt, rfl⟩
      · exact .inl rfl

theorem Consecutive.unbind (hc : Consecutive s) (hb : Balanced s) (hd : d ∈ s.bound)
    {v : FifoPrvtDevc} (hv : s.drvdata d = some v)
    (hlast : v.devnr = s.bDevnr + BitVec.ofNat 32 (s.bound.card - 1)) :
    Consecutive { (removed d v s).setDrvdata d none with bound := s.bound.erase d } where
  minor := hc.minor
  room := (Finset.card_erase_le).trans hc.room
  inUse n := by
    have hroom := hc.room
    unfold NR_MINOR_DEVCS at hroom
    show _ ↔ ∃ i < (s.bound.erase d).card, n = s.bDevnr + BitVec.ofNat 32 i
    rw [inUse_unbound hb hd hv, Finset.card_erase_of_mem hd, hc.inUse, hlast]
    constructor
    · rintro ⟨⟨i, hi, rfl⟩, hne⟩
      exact ⟨i, by have : i ≠ s.bound.card - 1 := fun he => hne (he ▸ rfl); omega, rfl⟩
    · rintro ⟨i, hi, rfl⟩
      refine ⟨⟨i, by omega, rfl⟩, fun he => ?_⟩
      have := number_inj (by omega) (by omega) he
      omega

/-- A number in the region is one of the first `NR_MINOR_DEVCS`. -/
theorem inRegion_number (hminor : minor s.bDevnr = 0) {i : ℕ} (hi : i < 2 ^ 20) :
    s.InRegion (s.bDevnr + BitVec.ofNat 32 i) ↔ i < NR_MINOR_DEVCS := by
  have hnum : (s.bDevnr + BitVec.ofNat 32 i).toNat = s.bDevnr.toNat + i := by
    have := s.bDevnr.isLt
    unfold minor at hminor
    rw [BitVec.toNat_add, BitVec.toNat_ofNat]
    omega
  unfold State.InRegion
  rw [hnum]
  omega

theorem call_probe_deviceTree (hd : d ∉ s.bound) (hdt : ofdev.OnDeviceTree) (hx : x.AllSucceed)
    (hfree : ¬s.InUse s.nextDevnr) : ∃ v, v.devnr = s.nextDevnr ∧
      call s (.probe d ofdev x) = some { probed d v s with bound := insert d s.bound } := by
  obtain ⟨devData, hacc⟩ := accepts_of_allSucceed hdt hx hfree
  rcases pltdrvProbe_cases d s ofdev x with ⟨devData', v, hacc', hv, hr⟩ | ⟨hno, _⟩
  · refine ⟨v, hv.trans (hacc'.deviceTree hdt).2, ?_⟩
    simp only [call, if_neg hd, hr, if_true]
    rfl
  · exact absurd hacc (hno devData)

theorem Consecutive.minorsRight (hc : Consecutive s) (hb : Balanced s) : MinorsRight s where
  region d v hv := by
    obtain ⟨i, hi, hn⟩ := (hc.inUse _).mp ((hb.inUse_iff _).mpr ⟨d, v, hv, rfl⟩)
    have hroom := hc.room
    rw [hn, inRegion_number hc.minor (by unfold NR_MINOR_DEVCS at hroom; omega)]
    omega
  next hroom d ofdev x hd hdt hx := by
    have hfree := hc.nextDevnr_free hb
    obtain ⟨v, hv, hcall⟩ := call_probe_deviceTree hd hdt hx hfree
    refine ⟨_, v, hcall, rfl, Function.update_self _ _ _, ?_, ?_⟩
    · rw [hv, State.nextDevnr, hb.count,
        inRegion_number hc.minor (by unfold NR_MINOR_DEVCS at hroom; omega)]
      exact hroom
    · intro e w hw hn
      exact hfree (hv ▸ hn ▸ (hb.inUse_iff _).mpr ⟨e, w, hw, rfl⟩)

/-- A device probed when there is no room gets a number outside the region. -/
theorem not_minorsRight_crowded (hc : Consecutive s) (hb : Balanced s)
    (hfull : ¬s.bound.card < NR_MINOR_DEVCS) {v : FifoPrvtDevc} (hv : v.devnr = s.nextDevnr) :
    ¬MinorsRight { probed d v s with bound := insert d s.bound } := by
  intro h
  have hroom := hc.room
  have hregion : s.InRegion v.devnr := h.region d v (Function.update_self _ _ _)
  rw [hv, State.nextDevnr, hb.count,
    inRegion_number hc.minor (by unfold NR_MINOR_DEVCS at hroom; omega)] at hregion
  exact hfull hregion

theorem goodDevice_onDeviceTree : goodDevice.OnDeviceTree := ⟨rfl, rfl⟩

theorem goodResults_allSucceed : goodResults.AllSucceed :=
  ⟨rfl, ⟨_, rfl⟩, ⟨16, ⟨16, []⟩, rfl, by decide⟩, rfl, rfl, rfl, rfl⟩

/-- Once a device with a lower number is gone, the counter names the highest
number, which is still in use. -/
theorem not_minorsRight_outOfOrder (hc : Consecutive s) (hb : Balanced s) (hd : d ∈ s.bound)
    {v : FifoPrvtDevc} (hv : s.drvdata d = some v)
    (hlast : v.devnr ≠ s.bDevnr + BitVec.ofNat 32 (s.bound.card - 1)) :
    ¬MinorsRight { (removed d v s).setDrvdata d none with bound := s.bound.erase d } := by
  intro h
  have hpos := Finset.card_pos.mpr ⟨d, hd⟩
  have hcard := Finset.card_erase_of_mem hd
  have hroom : (s.bound.erase d).card < NR_MINOR_DEVCS := by
    have := hc.room
    omega
  obtain ⟨t, w, hcall, hbound, _⟩ := h.next hroom d goodDevice goodResults
    (Finset.notMem_erase d s.bound) goodDevice_onDeviceTree goodResults_allSucceed
  have hused : State.InUse { (removed d v s).setDrvdata d none with bound := s.bound.erase d }
      (s.bDevnr + BitVec.ofNat 32 (s.nrDevcsProbed - 1)) := by
    rw [inUse_unbound hb hd hv, hb.count, hc.inUse]
    exact ⟨⟨_, by omega, rfl⟩, hlast.symm⟩
  cases (hb.unbind hd hv).called hcall with
  | bound _ _ _ devData w' _ hacc _ =>
      refine hacc.registers.free ?_
      rw [(hacc.deviceTree goodDevice_onDeviceTree).2]
      exact hused
  | undone =>
      have hmem : d ∈ s.bound.erase d := by
        rw [show s.bound.erase d = insert d (s.bound.erase d) from hbound]
        exact Finset.mem_insert_self d _
      exact Finset.notMem_erase d s.bound hmem

end DeviceTree

/-- What holds in every state of an ordered run. -/
def Sound (s : State) : Prop := Balanced s ∧ Consecutive s

theorem sound_of_ordered {s : State} (h : deviceTreeSystem.ReachableWhen Ordered s) : Sound s := by
  refine h.invariant ?_ ?_
  · rintro s ⟨bDevnr, hminor, rfl⟩
    refine ⟨balanced_initial bDevnr, hminor, Nat.zero_le _, fun n => ?_⟩
    simp [State.InUse, initial, Ledger.empty]
  · rintro s ⟨a, hdt⟩ t _ ⟨hb, hc⟩ hok ht
    refine ⟨hb.step ht, ?_⟩
    cases hb.called ht with
    | bound d ofdev x devData v hd hacc hv =>
        obtain ⟨hx, hn⟩ := hacc.deviceTree hdt
        exact hc.bind hb hd (hok hd hx) (hv.trans hn)
    | undone d ofdev x hd _ => exact (hb.setDrvdata_none hd).symm ▸ hc
    | removed d v hd hv => exact hc.unbind hb hd hv (hok v hv)

theorem not_minorsRight_of_not_ordered {s : State} (h : Sound s)
    {a : { a : Call // a.OnDeviceTree }} (hok : ¬Ordered s a) :
    ∃ t, deviceTreeSystem.next s a = some t ∧ ¬MinorsRight t := by
  obtain ⟨hb, hc⟩ := h
  obtain ⟨a, hdt⟩ := a
  cases a with
  | probe d ofdev x =>
      simp only [Ordered, Classical.not_imp] at hok
      obtain ⟨hd, hx, hfull⟩ := hok
      obtain ⟨v, hv, hcall⟩ := call_probe_deviceTree hd hdt hx (hc.nextDevnr_free hb)
      exact ⟨_, hcall, not_minorsRight_crowded hc hb hfull hv⟩
  | remove d =>
      simp only [Ordered, not_forall] at hok
      obtain ⟨v, hv, hlast⟩ := hok
      have hd := (hb.drvdata d).mpr ⟨v, hv⟩
      refine ⟨_, ?_, not_minorsRight_outOfOrder hc hb hd hv hlast⟩
      show call s (.remove d) = _
      simp only [call, if_pos hd, pltdrvRemove_eq hv]
      rfl

/-- The numbers are right in every state of a run exactly if no device is probed
beyond the room and the devices are removed highest number first. -/
theorem minorsRight_iff_ordered {bDevnr : BitVec 32} (hminor : minor bDevnr = 0)
    (as : List { a : Call // a.OnDeviceTree }) :
    deviceTreeSystem.Along MinorsRight (initial bDevnr) as ↔
      deviceTreeSystem.Meets Ordered (initial bDevnr) as :=
  System.along_iff_meets (fun _ h => (sound_of_ordered h).2.minorsRight (sound_of_ordered h).1)
    (fun _ _ h hok => not_minorsRight_of_not_ordered (sound_of_ordered h) hok)
    (.start ⟨bDevnr, hminor, rfl⟩) as

def probeGood (d : ℕ) : { a : Call // a.OnDeviceTree } :=
  ⟨.probe d goodDevice goodResults, goodDevice_onDeviceTree⟩

def removeDevice (d : ℕ) : { a : Call // a.OnDeviceTree } := ⟨.remove d, trivial⟩

theorem minorsRight_iff_ordered_reverseOrder :
    deviceTreeSystem.Along MinorsRight (initial 0x0f500000)
      [probeGood 0, probeGood 1, removeDevice 1, probeGood 2] := by
  refine (minorsRight_iff_ordered (by decide) _).mpr ?_
  refine .cons (fun _ _ => by decide) rfl (.cons (fun _ _ => by decide) rfl (.cons ?_ rfl
    (.cons (fun _ _ => by decide) rfl trivial)))
  rintro v hv
  cases hv
  rfl

/-- Two devices are probed and the first one is removed: the next device gets
the number of the second one. -/
theorem not_minorsRight_removeFirst : ¬∀ s, deviceTreeSystem.Reachable s → MinorsRight s := by
  intro h
  have hs := h _ (System.Reachable.run (S := deviceTreeSystem)
    (.start ⟨0x0f500000, by decide, rfl⟩)
    (show deviceTreeSystem.run _ [probeGood 0, probeGood 1, removeDevice 0] = _ from rfl))
  obtain ⟨t, v, hcall, hbound, _⟩ := hs.next (by decide) 0 goodDevice goodResults (by decide)
    goodDevice_onDeviceTree goodResults_allSucceed
  cases hcall
  exact absurd hbound (by decide)

end LinuxDeviceDrivers.PltdrvProbe
