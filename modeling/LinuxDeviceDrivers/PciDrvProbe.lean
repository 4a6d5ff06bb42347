import LinuxDeviceDrivers.PciDrv
import LinuxDeviceDrivers.ResourceLedger
import LinuxDeviceDrivers.ThreadProgram

/-!
# The probe of pci_drv and the attributes it creates

`pci_drv_probe`, step by step with its error path, next to any number of calls
of the attribute functions, which can begin once `sysfs_create_group` has
returned 0. A call first loads the driver data; with these it is one step on the
emulated device. The group is created before the driver data are set.
-/
namespace LinuxDeviceDrivers.PciDrvProbe
open KernelPrimitives TransitionSystem ThreadProgram ResourceLedger
open PciDevEmu (Bar PCIEmuDevice pciEmuDevRealize)
open PciDrv (PciPrvDev prvDev Printed Attr Call)

/-- What the probe acquires, less the memory that goes with the device. -/
inductive Resource where
  | device
  | regions
  | iomap (bar : Bar)
  | irqVectors
  | irq
  | sysfsGroup
deriving DecidableEq, Repr

structure Shared where
  dev : PCIEmuDevice
  probed : Bool
  drvdata : Option PciPrvDev
  ledger : Ledger Resource

/-- `hwmem` says that the first `pci_iomap` has not returned NULL. The labels of
the error path are stages of their own, with a second one for the second
`pci_iounmap`; `returned` is a return of 0. -/
inductive ProbeStage where
  | enableDeviceMem
  | dmaSetMask
  | setMaster
  | requestRegions
  | devmKzalloc
  | iomapMemio
  | iomapPrtio (hwmem : Bool)
  | allocIrqVectors
  | requestIrq
  | sysfsCreateGroup
  | pciSetDrvdata
  | devSetDrvdata
  | errSysfsGrp (ret : Errno)
  | errReqIrq (ret : Errno)
  | errIrqVec (ret : Errno)
  | iounmapPrtio (ret : Errno)
  | errAlloc (ret : Errno)
  | errReqRgn (ret : Errno)
  | returned
  | failed (ret : Errno)
deriving DecidableEq, Repr

inductive Pc (bits : ℕ) where
  | unstarted
  | probe (st : ProbeStage)
  | getDrvdata (a : Call bits)
  | nullData (a : Call bits)
  | access (a : Call bits)
  | stored (ret : Except Errno ℕ)
  | shown (text : Printed)
  | crashed

inductive Choice (bits : ℕ) where
  | probe
  | call (a : Call bits)
  | run
  | fail (err : Errno)

inductive Effect where
  | skip
  | begin
  | acquire (r : Resource)
  | release (r : Resource)
  | setDrvdata
  | setDevice (d : PCIEmuDevice)

section Driver
variable {bits : ℕ}

def pciDrvProbe : Choice bits → ProbeStage → Option (Effect × Pc bits)
  | .run, .enableDeviceMem => some (.acquire .device, .probe .dmaSetMask)
  | .fail err, .enableDeviceMem => some (.skip, .probe (.failed err))
  | .run, .dmaSetMask => some (.skip, .probe .setMaster)
  | .fail err, .dmaSetMask => some (.skip, .probe (.errReqRgn err))
  | .run, .setMaster => some (.skip, .probe .requestRegions)
  | .run, .requestRegions => some (.acquire .regions, .probe .devmKzalloc)
  | .fail err, .requestRegions => some (.skip, .probe (.errReqRgn err))
  | .run, .devmKzalloc => some (.skip, .probe .iomapMemio)
  | .fail _, .devmKzalloc => some (.skip, .probe (.errAlloc ⟨-ENOMEM, neg_ENOMEM⟩))
  | .run, .iomapMemio => some (.acquire (.iomap .mmio), .probe (.iomapPrtio true))
  | .fail _, .iomapMemio => some (.skip, .probe (.iomapPrtio false))
  | .run, .iomapPrtio hwmem =>
      some (.acquire (.iomap .prtio),
        .probe (if hwmem then .allocIrqVectors else .errAlloc ⟨-eio, neg_eio⟩))
  | .fail _, .iomapPrtio _ => some (.skip, .probe (.errAlloc ⟨-eio, neg_eio⟩))
  | .run, .allocIrqVectors => some (.acquire .irqVectors, .probe .requestIrq)
  | .fail err, .allocIrqVectors => some (.skip, .probe (.errIrqVec err))
  | .run, .requestIrq => some (.acquire .irq, .probe .sysfsCreateGroup)
  | .fail err, .requestIrq => some (.skip, .probe (.errReqIrq err))
  | .run, .sysfsCreateGroup => some (.acquire .sysfsGroup, .probe .pciSetDrvdata)
  | .fail err, .sysfsCreateGroup => some (.skip, .probe (.errSysfsGrp err))
  | .run, .pciSetDrvdata => some (.setDrvdata, .probe .devSetDrvdata)
  | .run, .devSetDrvdata => some (.setDrvdata, .probe .returned)
  | .run, .errSysfsGrp ret => some (.release .irq, .probe (.errReqIrq ret))
  | .run, .errReqIrq ret => some (.release .irqVectors, .probe (.errIrqVec ret))
  | .run, .errIrqVec ret => some (.release (.iomap .mmio), .probe (.iounmapPrtio ret))
  | .run, .iounmapPrtio ret => some (.release (.iomap .prtio), .probe (.errAlloc ret))
  | .run, .errAlloc ret => some (.release .regions, .probe (.errReqRgn ret))
  | .run, .errReqRgn ret => some (.release .device, .probe (.failed ret))
  | _, _ => none

/-- A call on a null pointer crashes unless its text is rejected before. -/
def onNull : Call bits → Pc bits
  | .storeVal _ _ (.error ret) => .stored (.error ret)
  | .storeVal _ _ (.ok _) | .showVal _ => .crashed

def access (d : PCIEmuDevice) : Call bits → Option (Effect × Pc bits)
  | .storeVal attr count res => (attr.store count res d).map fun r => (.setDevice r.2, .stored r.1)
  | .showVal attr => some (.skip, .shown (attr.show d))

def move (s : Shared) : Choice bits → Pc bits → Option (Effect × Pc bits)
  | .probe, .unstarted => if s.probed then none else some (.begin, .probe .enableDeviceMem)
  | k, .probe st => pciDrvProbe k st
  | .call a, .unstarted => if .sysfsGroup ∈ s.ledger.held then some (.skip, .getDrvdata a) else none
  | .run, .getDrvdata a => some (.skip, if s.drvdata.isSome then .access a else .nullData a)
  | .run, .nullData a => some (.skip, onNull a)
  | .run, .access a => access s.dev a
  | _, _ => none

def effect : Effect → Shared → Shared
  | .skip, s => s
  | .begin, s => { s with probed := true }
  | .acquire r, s => { s with ledger := s.ledger.acquire r }
  | .release r, s => { s with ledger := s.ledger.release r }
  | .setDrvdata, s => { s with drvdata := some prvDev }
  | .setDevice d, s => { s with dev := d }

variable (bits)

def program : Program Shared (Choice bits) Effect (Pc bits) where
  move := move
  effect _ := effect
  others _ p := p

abbrev State := Config Shared (Pc bits)

def unprobed : State bits where
  shared := ⟨pciEmuDevRealize, false, none, .empty⟩
  pc _ := .unstarted

def system : System (State bits) (ℕ × Choice bits) :=
  (program bits).system fun s => s = unprobed bits

end Driver

section Statement
variable {bits : ℕ}

/-- An attribute function finds its driver data. -/
def Served (s : State bits) (a : ℕ × Choice bits) : Prop :=
  ∀ call, s.pc a.1 = .getDrvdata call → s.shared.drvdata ≠ none

/-- The probe has set the driver data. -/
def setsData (p : Pc bits) : Prop := p = .probe .devSetDrvdata ∨ p = .probe .returned

/-- No attribute function loads its driver data before the probe is past
`pci_set_drvdata`. -/
def LoadsAfterProbe (s : State bits) (a : ℕ × Choice bits) : Prop :=
  ∀ call, s.pc a.1 = .getDrvdata call → ∃ u, setsData (s.pc u)

end Statement

section Threads
variable {bits : ℕ} {s : Shared} {k : Choice bits} {e : Effect} {p p' : Pc bits}

/-- The probe sets the driver data on its way past `pci_set_drvdata`. -/
theorem data_probe {st : ProbeStage} (h : pciDrvProbe k st = some (e, p'))
    (hs : setsData (.probe st : Pc bits) → s.drvdata ≠ none) :
    (setsData (.probe st : Pc bits) → setsData p') ∧
      ((effect e s).drvdata ≠ none ↔ s.drvdata ≠ none ∨ setsData p') := by
  unfold pciDrvProbe at h
  split at h <;> cases h
  case h_12 hwmem => cases hwmem <;> simp [setsData, effect]
  case h_21 => exact ⟨fun _ => .inr rfl, iff_of_true nofun (.inr (.inr rfl))⟩
  all_goals simp [setsData, effect]

/-- What is not a step of the probe leaves the driver data alone. -/
theorem data_other (hp : ¬setsData p) (hp' : ¬setsData p')
    (he : (effect e s).drvdata = s.drvdata) :
    (setsData p → setsData p') ∧ ((effect e s).drvdata ≠ none ↔ s.drvdata ≠ none ∨ setsData p') := by
  refine ⟨fun h => absurd h hp, ?_⟩
  rw [he]
  exact ⟨.inl, fun h => h.resolve_right hp'⟩

theorem data_move (h : move s k p = some (e, p')) (hs : setsData p → s.drvdata ≠ none) :
    (setsData p → setsData p') ∧ ((effect e s).drvdata ≠ none ↔ s.drvdata ≠ none ∨ setsData p') := by
  unfold move at h
  split at h
  · split_ifs at h
    cases h
    exact data_other (by simp [setsData]) (by simp [setsData]) rfl
  · exact data_probe h hs
  · split_ifs at h
    cases h
    exact data_other (by simp [setsData]) (by simp [setsData]) rfl
  · cases h
    refine data_other (by simp [setsData]) ?_ rfl
    split_ifs <;> simp [setsData]
  · cases h
    refine data_other (by simp [setsData]) ?_ rfl
    unfold onNull
    split <;> simp [setsData]
  · unfold access at h
    split at h
    · obtain ⟨r, -, hr⟩ := Option.map_eq_some_iff.mp h
      cases hr
      exact data_other (by simp [setsData]) (by simp [setsData]) rfl
    · cases h
      exact data_other (by simp [setsData]) (by simp [setsData]) rfl
  · cases h

/-- The driver data of the device. -/
def drvdata (bits : ℕ) : Latch (program bits) where
  raised s := s.drvdata ≠ none
  past := setsData
  move _ := data_move
  others _ _ := Iff.rfl

end Threads

section Runs
variable {bits : ℕ} {s : State bits} {ok : State bits → ℕ × Choice bits → Prop}

theorem drvdata_sound (h : (system bits).ReachableWhen ok s) : (drvdata bits).Sound s := by
  refine Latch.sound_reachable ?_ h
  rintro s rfl
  exact ⟨fun hdata => hdata rfl, fun u hu => by simp [drvdata, setsData, unprobed] at hu⟩

theorem served_iff (h : (system bits).ReachableWhen ok s) (a : ℕ × Choice bits) :
    Served s a ↔ LoadsAfterProbe s a :=
  forall_congr' fun _ => imp_congr_right fun _ => drvdata_sound h

end Runs

end LinuxDeviceDrivers.PciDrvProbe
