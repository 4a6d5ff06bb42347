import LinuxDeviceDrivers.DriverCore
import LinuxDeviceDrivers.PciDrvProbe

/-!
# What pci_drv holds over all its devices

`pci_drv_probe` and `pci_drv_remove` as whole calls, on any number of PCI
devices and with any of their kernel calls failing. The labels of the error path
are functions of their own. The memory of `devm_kzalloc` goes with the binding
and is not counted.

Both `pci_iomap` calls are made before either result is tested, and the label
they share on failure releases no mapping: the books balance as long as both
succeed or both fail.
-/
namespace LinuxDeviceDrivers.PciDrvBalance
open KernelPrimitives TransitionSystem ThreadProgram ResourceLedger DriverCore
open PciDrv (PciPrvDev prvDev)
open PciDrvProbe (Resource ProbeStage)

/-- The results of the kernel calls of one probe. -/
structure Results where
  enableDeviceMem : Option Errno
  dmaSetMask : Option Errno
  requestRegions : Option Errno
  devmKzalloc : Bool
  iomapMemio : Bool
  iomapPrtio : Bool
  allocIrqVectors : Option Errno
  requestIrq : Option Errno
  sysfsCreateGroup : Option Errno
deriving DecidableEq, Repr

/-- A device as the driver sees it. `oops` is set when the driver follows a null pointer. -/
structure PciDev where
  drvdata : Option PciPrvDev
  ledger : Ledger Resource
  oops : Bool

namespace PciDev

def acquire (v : PciDev) (r : Resource) : PciDev := { v with ledger := v.ledger.acquire r }

def release (v : PciDev) (r : Resource) : PciDev := { v with ledger := v.ledger.release r }

@[simp] theorem acquire_ledger (v : PciDev) (r : Resource) :
    (v.acquire r).ledger = v.ledger.acquire r := rfl
@[simp] theorem release_ledger (v : PciDev) (r : Resource) :
    (v.release r).ledger = v.ledger.release r := rfl
@[simp] theorem acquire_oops (v : PciDev) (r : Resource) : (v.acquire r).oops = v.oops := rfl
@[simp] theorem release_oops (v : PciDev) (r : Resource) : (v.release r).oops = v.oops := rfl
@[simp] theorem release_acquire (v : PciDev) (r : Resource) : (v.acquire r).release r = v := by
  simp [acquire, release]

theorem release_acquire_of_ne {r r' : Resource} (h : r ≠ r') (v : PciDev) :
    (v.acquire r').release r = (v.release r).acquire r' := by
  simp [acquire, release, Ledger.release_acquire_of_ne h]

end PciDev

section Probe
variable (ret : ℤ) (prv : PciPrvDev) (v : PciDev)

/-- `err_dma_set` and `err_req_rgn` -/
def errReqRgn : Option ℤ × PciDev := (some ret, v.release .device)

/-- `err_iomap` and `err_alloc` -/
def errAlloc : Option ℤ × PciDev := errReqRgn ret (v.release .regions)

def errIrqVec : Option ℤ × PciDev :=
  errAlloc ret ((v.release (.iomap prv.hwmem)).release (.iomap prv.hwprtmem))

def errReqIrq : Option ℤ × PciDev := errIrqVec ret prv (v.release .irqVectors)

def errSysfsGrp : Option ℤ × PciDev := errReqIrq ret prv (v.release .irq)

/-- `pci_drv_probe` behind the test of the two mappings. -/
def setupIrq (x : Results) : Option ℤ × PciDev :=
  match x.allocIrqVectors with
  | some err => errIrqVec err.val prv v
  | none =>
    let v := v.acquire .irqVectors
    match x.requestIrq with
    | some err => errReqIrq err.val prv v
    | none =>
      let v := v.acquire .irq
      match x.sysfsCreateGroup with
      | some err => errSysfsGrp err.val prv v
      | none => (some 0, { v.acquire .sysfsGroup with drvdata := some prv })

def pciDrvProbe (x : Results) : Option ℤ × PciDev :=
  match x.enableDeviceMem with
  | some err => (some err.val, v)
  | none =>
    let v := v.acquire .device
    match x.dmaSetMask with
    | some err => errReqRgn err.val v
    | none =>
      match x.requestRegions with
      | some err => errReqRgn err.val v
      | none =>
        let v := v.acquire .regions
        if !x.devmKzalloc then errAlloc (-ENOMEM) v
        else
          let v := if x.iomapMemio then v.acquire (.iomap .mmio) else v
          let v := if x.iomapPrtio then v.acquire (.iomap .prtio) else v
          if !x.iomapMemio || !x.iomapPrtio then errAlloc (-eio) v
          else setupIrq prvDev v x

def pciDrvRemove : PciDev :=
  match v.drvdata with
  | none => { v with oops := true }
  | some prv =>
      let v := v.release .sysfsGroup
      let v := v.release .irq
      let v := v.release .irqVectors
      let v := v.release (.iomap prv.hwmem)
      let v := v.release (.iomap prv.hwprtmem)
      let v := v.release .regions
      v.release .device

end Probe

/-- What thread 0 does in the probe: it runs on, meets a failing call and unwinds. -/
def runThenFail {bits : ℕ} (n : ℕ) (err : Errno) (m : ℕ) : List (ℕ × PciDrvProbe.Choice bits) :=
  [(0, .probe)] ++ List.replicate n (0, .run) ++ [(0, .fail err)] ++ List.replicate m (0, .run)

/-- A failure whose code the driver does not look at. -/
def noMemory : Errno := ⟨-ENOMEM, neg_ENOMEM⟩

/-- The whole call is a run of the probe step by step, on a device that nobody
else uses. -/
theorem probe_run (bits : ℕ) (x : Results) :
    ∃ as t, (PciDrvProbe.system bits).run (PciDrvProbe.unprobed bits) as = some t ∧
      t.shared.ledger = (pciDrvProbe ⟨none, .empty, false⟩ x).2.ledger ∧
        ((pciDrvProbe ⟨none, .empty, false⟩ x).1 = some 0 ∧ t.pc 0 = .probe .returned ∨
          ∃ err, (pciDrvProbe ⟨none, .empty, false⟩ x).1 = some err.val ∧
            t.pc 0 = .probe (.failed err)) := by
  obtain ⟨enable, dma, regions, mem, memio, prtio, irqVec, irq, sysfs⟩ := x
  cases enable with
  | some err => exact ⟨runThenFail 0 err 0, _, rfl, rfl, .inr ⟨err, rfl, rfl⟩⟩
  | none =>
  cases dma with
  | some err => exact ⟨runThenFail 1 err 1, _, rfl, rfl, .inr ⟨err, rfl, rfl⟩⟩
  | none =>
  cases regions with
  | some err => exact ⟨runThenFail 3 err 1, _, rfl, rfl, .inr ⟨err, rfl, rfl⟩⟩
  | none =>
  cases mem with
  | false =>
      exact ⟨runThenFail 4 noMemory 2, _, rfl, rfl, .inr ⟨noMemory, rfl, rfl⟩⟩
  | true =>
  cases memio with
  | false =>
      cases prtio with
      | false =>
          exact ⟨runThenFail 5 noMemory 0 ++ [(0, .fail noMemory)] ++ List.replicate 2 (0, .run), _,
            rfl, rfl, .inr ⟨⟨-eio, neg_eio⟩, rfl, rfl⟩⟩
      | true =>
          exact ⟨runThenFail 5 noMemory 3, _, rfl, rfl, .inr ⟨⟨-eio, neg_eio⟩, rfl, rfl⟩⟩
  | true =>
  cases prtio with
  | false => exact ⟨runThenFail 6 noMemory 2, _, rfl, rfl, .inr ⟨⟨-eio, neg_eio⟩, rfl, rfl⟩⟩
  | true =>
  cases irqVec with
  | some err => exact ⟨runThenFail 7 err 4, _, rfl, rfl, .inr ⟨err, rfl, rfl⟩⟩
  | none =>
  cases irq with
  | some err => exact ⟨runThenFail 8 err 5, _, rfl, rfl, .inr ⟨err, rfl, rfl⟩⟩
  | none =>
  cases sysfs with
  | some err => exact ⟨runThenFail 9 err 6, _, rfl, rfl, .inr ⟨err, rfl, rfl⟩⟩
  | none =>
      exact ⟨[(0, .probe)] ++ List.replicate 12 (0, .run), _, rfl, rfl, .inl ⟨rfl, rfl⟩⟩

/-- `pci_driver`. The core clears the driver data of a device that is not bound. -/
def pciDriver : Driver PciDev Results where
  fresh := ⟨none, .empty, false⟩
  probe x v := pciDrvProbe v x
  remove := pciDrvRemove
  unbind v := { v with drvdata := none }

/-- What a bound device has been given. -/
def owned : Multiset Resource :=
  .sysfsGroup ::ₘ .irq ::ₘ .irqVectors ::ₘ .iomap .prtio ::ₘ .iomap .mmio ::ₘ .regions ::ₘ {.device}

/-- The driver holds nothing of the device and has released nothing that it did not hold. -/
structure Idle (v : PciDev) : Prop where
  ledger : v.ledger.Holds 0
  noOops : v.oops = false

/-- The driver holds each resource of the device once, and its data say where the BARs are. -/
structure Held (v : PciDev) : Prop where
  ledger : v.ledger.Holds owned
  drvdata : v.drvdata = some prvDev
  noOops : v.oops = false

/-- If the probe comes to the mappings, both `pci_iomap` calls succeed or both fail. -/
def MapsBothOrNone (x : Results) : Prop :=
  x.enableDeviceMem = none → x.dmaSetMask = none → x.requestRegions = none →
    x.devmKzalloc = true → x.iomapMemio = x.iomapPrtio

section Spec
variable {x : Results} {v : PciDev} {ret : ℤ}

/-- The device past the two mappings. -/
def mapped (v : PciDev) : PciDev :=
  (((v.acquire .device).acquire .regions).acquire (.iomap .mmio)).acquire (.iomap .prtio)

/-- The device at the end of a probe that returns 0. -/
def probed (v : PciDev) : PciDev :=
  { (((mapped v).acquire .irqVectors).acquire .irq).acquire .sysfsGroup with drvdata := some prvDev }

theorem errAlloc_regions (ret : ℤ) (v : PciDev) :
    errAlloc ret ((v.acquire .device).acquire .regions) = (some ret, v) := by
  simp [errAlloc, errReqRgn]

theorem errIrqVec_mapped (ret : ℤ) (v : PciDev) : errIrqVec ret prvDev (mapped v) = (some ret, v) := by
  have hne : Resource.iomap .mmio ≠ .iomap .prtio := by decide
  unfold errIrqVec mapped prvDev
  rw [PciDev.release_acquire_of_ne hne, PciDev.release_acquire, PciDev.release_acquire,
    errAlloc_regions]

/-- The label that the two mappings share leaves a mapping behind. -/
theorem errAlloc_iomap (ret : ℤ) (v : PciDev) (bar : PciDevEmu.Bar) :
    errAlloc ret (((v.acquire .device).acquire .regions).acquire (.iomap bar)) =
      (some ret, v.acquire (.iomap bar)) := by
  have hregions : Resource.regions ≠ .iomap bar := by simp
  have hdevice : Resource.device ≠ .iomap bar := by simp
  unfold errAlloc errReqRgn
  rw [PciDev.release_acquire_of_ne hregions, PciDev.release_acquire,
    PciDev.release_acquire_of_ne hdevice, PciDev.release_acquire]

theorem setupIrq_cases (v : PciDev) (x : Results) :
    setupIrq prvDev (mapped v) x = (some 0, probed v) ∨
      ∃ ret, ret < 0 ∧ setupIrq prvDev (mapped v) x = (some ret, v) := by
  unfold setupIrq
  cases x.allocIrqVectors with
  | some err => exact .inr ⟨_, err.neg, errIrqVec_mapped _ v⟩
  | none =>
    cases x.requestIrq with
    | some err =>
        refine .inr ⟨_, err.neg, ?_⟩
        simp only [errReqIrq, PciDev.release_acquire, errIrqVec_mapped]
    | none =>
      cases x.sysfsCreateGroup with
      | some err =>
          refine .inr ⟨_, err.neg, ?_⟩
          simp only [errSysfsGrp, errReqIrq, PciDev.release_acquire, errIrqVec_mapped]
      | none => exact .inl rfl

/-- A probe that maps both BARs or none holds everything or gives everything back. -/
theorem pciDrvProbe_cases (hx : MapsBothOrNone x) (v : PciDev) :
    pciDrvProbe v x = (some 0, probed v) ∨ ∃ ret, ret < 0 ∧ pciDrvProbe v x = (some ret, v) := by
  unfold pciDrvProbe
  cases henable : x.enableDeviceMem with
  | some err => exact .inr ⟨_, err.neg, rfl⟩
  | none =>
    cases hdma : x.dmaSetMask with
    | some err =>
        refine .inr ⟨_, err.neg, ?_⟩
        simp only [errReqRgn, PciDev.release_acquire]
    | none =>
      cases hregions : x.requestRegions with
      | some err =>
          refine .inr ⟨_, err.neg, ?_⟩
          simp only [errReqRgn, PciDev.release_acquire]
      | none =>
        cases hmem : x.devmKzalloc with
        | false => exact .inr ⟨_, neg_ENOMEM, errAlloc_regions _ v⟩
        | true =>
          have hboth := hx henable hdma hregions hmem
          cases hprtio : x.iomapPrtio with
          | false =>
              rw [hprtio] at hboth
              simp only [hboth]
              exact .inr ⟨_, neg_eio, errAlloc_regions _ v⟩
          | true =>
              rw [hprtio] at hboth
              simp only [hboth]
              exact setupIrq_cases v x

/-- A probe that maps one BAR only leaves it mapped. -/
theorem pciDrvProbe_leaks (hx : ¬MapsBothOrNone x) (v : PciDev) :
    ∃ bar, pciDrvProbe v x = (some (-eio), v.acquire (.iomap bar)) := by
  simp only [MapsBothOrNone, Classical.not_imp] at hx
  obtain ⟨henable, hdma, hregions, hmem, hone⟩ := hx
  simp only [pciDrvProbe, henable, hdma, hregions, hmem]
  cases hmmio : x.iomapMemio with
  | true =>
      have hprtio : x.iomapPrtio = false := by
        rw [hmmio] at hone
        exact Bool.eq_false_iff.mpr (Ne.symm hone)
      simp only [hprtio]
      exact ⟨.mmio, errAlloc_iomap _ v .mmio⟩
  | false =>
      have hprtio : x.iomapPrtio = true := by
        rw [hmmio] at hone
        exact Bool.eq_true_of_not_eq_false (Ne.symm hone)
      simp only [hprtio]
      exact ⟨.prtio, errAlloc_iomap _ v .prtio⟩

theorem probed_held (h : Idle v) : Held (probed v) where
  ledger := ((((((h.ledger.acquire .device).acquire .regions).acquire (.iomap .mmio)).acquire
    (.iomap .prtio)).acquire .irqVectors).acquire .irq).acquire .sysfsGroup
  drvdata := rfl
  noOops := h.noOops

theorem not_idle_of_mapped (v : PciDev) (bar : PciDevEmu.Bar) :
    ¬Idle { v.acquire (.iomap bar) with drvdata := none } := by
  intro hidle
  have hheld : .iomap bar ::ₘ v.ledger.held = 0 := congrArg Ledger.held hidle.ledger
  exact Multiset.cons_ne_zero hheld

theorem pciDrvRemove_idle (h : Held v) : Idle { pciDrvRemove v with drvdata := none } := by
  have howned : owned = .sysfsGroup ::ₘ .irq ::ₘ .irqVectors ::ₘ .iomap .mmio ::ₘ .iomap .prtio ::ₘ
      .regions ::ₘ .device ::ₘ 0 := by
    unfold owned
    rw [Multiset.cons_swap (Resource.iomap .prtio)]
    rfl
  have hheld := h.ledger
  rw [howned] at hheld
  have hledger : (((((((v.ledger.release .sysfsGroup).release .irq).release .irqVectors).release
      (.iomap .mmio)).release (.iomap .prtio)).release .regions).release .device).Holds 0 :=
    hheld.release.release.release.release.release.release.release
  have hremove : (pciDrvRemove v).ledger = ((((((v.ledger.release .sysfsGroup).release .irq).release
      .irqVectors).release (.iomap .mmio)).release (.iomap .prtio)).release .regions).release .device := by
    simp only [pciDrvRemove, h.drvdata, PciDev.release_ledger, prvDev]
  have hoops : (pciDrvRemove v).oops = v.oops := by
    simp only [pciDrvRemove, h.drvdata, PciDev.release_oops]
  exact ⟨hremove ▸ hledger, hoops.trans h.noOops⟩

end Spec

theorem pciDriver_contract : pciDriver.Contract Idle Held MapsBothOrNone where
  fresh := ⟨Ledger.holds_empty, rfl⟩
  remove v hv := pciDrvRemove_idle hv
  good x v hv hx := by
    rcases pciDrvProbe_cases hx v with hprobe | ⟨ret, hneg, hprobe⟩
    · exact .inl ⟨_, hprobe, probed_held hv⟩
    · exact .inr ⟨ret, v, hprobe, hneg, ⟨hv.ledger, hv.noOops⟩⟩
  bad x v hv hx := by
    obtain ⟨bar, hprobe⟩ := pciDrvProbe_leaks hx v
    exact .inr ⟨-eio, _, hprobe, by decide, not_idle_of_mapped v bar⟩

/-- After every call of a run the driver holds the resources of the bound devices
and no others, exactly if no probe maps one of its two BARs only. -/
theorem balanced_iff_mapsBothOrNone (as : List (Call Results)) :
    pciDriver.system.Along (Settled Idle Held) pciDriver.initial as ↔
      pciDriver.system.Meets (ProbesKeep MapsBothOrNone) pciDriver.initial as :=
  pciDriver_contract.along_iff as

/-- The second `pci_iomap` fails and nothing else. -/
def prtioUnmapped : Results := ⟨none, none, none, true, true, false, none, none, none⟩

theorem not_balanced_prtioUnmapped :
    ¬∀ as : List (Call Results), pciDriver.system.Along (Settled Idle Held) pciDriver.initial as := by
  intro h
  have hstate := ((h [.probe 0 prtioUnmapped]).2 _ rfl : Settled Idle Held _).idle 0
    (Finset.notMem_empty 0)
  have hheld := congrArg Ledger.held hstate.ledger
  exact absurd hheld (by decide)

end LinuxDeviceDrivers.PciDrvBalance
