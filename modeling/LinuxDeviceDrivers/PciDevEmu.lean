import LinuxDeviceDrivers.FlatMemory
import LinuxDeviceDrivers.TransitionSystem

/-!
# The BARs of pci-dev-emu

The memory core of QEMU calls the callbacks of a region with the offset and the
size of each access; an access of eight bytes reaches them whole or in two
halves. The callbacks keep one 64-bit value and do not look at the offset. What
the guest expects is a memory of eight bytes, kept as a history variable next to
the span of the write that came last. `msi_notify` changes nothing in here and
is left out.
-/
namespace LinuxDeviceDrivers.PciDevEmu
open FlatMemory TransitionSystem

structure PCIEmuDevice where
  mmioVal : BitVec 64
  prtioVal : BitVec 64
deriving DecidableEq, Repr

/-- The two read callbacks return their value at any offset. -/
def regRead (val : BitVec 64) (_addr size : ℕ) : BitVec 64 :=
  if 4 ≤ size ∧ size ≤ 8 then val else 0

/-- The value that a write leaves behind, unless the assertion on its size fails. -/
def regWrite (_addr : ℕ) (val : BitVec 64) (size : ℕ) : Option (BitVec 64) :=
  if 4 ≤ size ∧ size ≤ 8 then some val else none

def pciEmuDevMmioRead (ped : PCIEmuDevice) : ℕ → ℕ → BitVec 64 := regRead ped.mmioVal

def pciEmuDevMmioWrite (prvDev : PCIEmuDevice) (addr : ℕ) (val : BitVec 64) (size : ℕ) :
    Option PCIEmuDevice :=
  (regWrite addr val size).map fun v => { prvDev with mmioVal := v }

def pciEmuDevPrtioRead (prvDev : PCIEmuDevice) : ℕ → ℕ → BitVec 64 := regRead prvDev.prtioVal

def pciEmuDevPrtioWrite (prvDev : PCIEmuDevice) (addr : ℕ) (val : BitVec 64) (size : ℕ) :
    Option PCIEmuDevice :=
  (regWrite addr val size).map fun v => { prvDev with prtioVal := v }

structure MemoryRegionOps where
  read : PCIEmuDevice → ℕ → ℕ → BitVec 64
  write : PCIEmuDevice → ℕ → BitVec 64 → ℕ → Option PCIEmuDevice

def pciEmuDevMmioOps : MemoryRegionOps := ⟨pciEmuDevMmioRead, pciEmuDevMmioWrite⟩

def pciEmuDevPrtioOps : MemoryRegionOps := ⟨pciEmuDevPrtioRead, pciEmuDevPrtioWrite⟩

/-- The BARs that `pci_emu_dev_realize` registers. -/
inductive Bar where
  | mmio
  | prtio
deriving DecidableEq, Repr

def Bar.ops : Bar → MemoryRegionOps
  | .mmio => pciEmuDevMmioOps
  | .prtio => pciEmuDevPrtioOps

/-- A new device, its memory cleared by the object model. -/
def pciEmuDevRealize : PCIEmuDevice := ⟨0, 0⟩

def PCIEmuDevice.reg (d : PCIEmuDevice) : Bar → BitVec 64
  | .mmio => d.mmioVal
  | .prtio => d.prtioVal

/-! ## The memory core -/

/-- The bytes that an access covers. -/
inductive Span where
  | low
  | high
  | whole
deriving DecidableEq, Repr

def Span.addr : Span → ℕ
  | .low | .whole => 0
  | .high => 4

def Span.size : Span → ℕ
  | .low | .high => 4
  | .whole => 8

/-- The low `size` bytes of a value. -/
def truncate (size : ℕ) (val : BitVec 64) : BitVec 64 := (val.setWidth (8 * size)).setWidth 64

def coreRead (b : Bar) (d : PCIEmuDevice) (sp : Span) : BitVec 64 :=
  truncate sp.size (b.ops.read d sp.addr sp.size)

def coreWrite (b : Bar) (d : PCIEmuDevice) (sp : Span) (val : BitVec 64) : Option PCIEmuDevice :=
  b.ops.write d sp.addr (truncate sp.size val) sp.size

/-- A guest access. One of eight bytes may be delivered in halves, a write with
either half first. -/
inductive Access where
  | read (sp : Span)
  | readHalves
  | write (sp : Span) (val : BitVec 64)
  | writeHalves (val : BitVec 64) (lowFirst : Bool)
deriving DecidableEq, Repr

def guestRead (b : Bar) (d : PCIEmuDevice) : Access → Option (BitVec 64)
  | .read sp => some (coreRead b d sp)
  | .readHalves => some (coreRead b d .low ||| coreRead b d .high <<< 32)
  | .write _ _ | .writeHalves _ _ => none

def guestWrite (b : Bar) (d : PCIEmuDevice) : Access → Option PCIEmuDevice
  | .read _ | .readHalves => some d
  | .write sp val => coreWrite b d sp val
  | .writeHalves val true =>
      (coreWrite b d .low val).bind fun d => coreWrite b d .high (val >>> 32)
  | .writeHalves val false =>
      (coreWrite b d .high (val >>> 32)).bind fun d => coreWrite b d .low val

/-- The device under accesses to its BARs. -/
def bus : System PCIEmuDevice (Bar × Access) where
  start d := d = pciEmuDevRealize
  next d a := guestWrite a.1 d a.2

/-! ## What the guest expects -/

/-- The bytes last written to the offsets of a BAR, zero if there are none, and
the span that the device was last given a write for. -/
structure Written where
  bytes : ℕ → ℕ
  last : Option Span

def Written.nothing : Written := ⟨fun _ => 0, none⟩

def Written.record (w : Written) : Access → Written
  | .read _ | .readHalves => w
  | .write sp val => ⟨storeLE w.bytes sp.addr sp.size (truncate sp.size val).toNat, some sp⟩
  | .writeHalves val lowFirst =>
      ⟨storeLE w.bytes 0 8 val.toNat, some (if lowFirst then .high else .low)⟩

def Written.expected (w : Written) : Access → Option ℕ
  | .read sp => some (loadLE w.bytes sp.addr sp.size)
  | .readHalves => some (loadLE w.bytes 0 8)
  | .write _ _ | .writeHalves _ _ => none

def Written.lowHalf (w : Written) : ℕ := loadLE w.bytes 0 4

def Written.highHalf (w : Written) : ℕ := loadLE w.bytes 4 4

def watchedBus : System (PCIEmuDevice × (Bar → Written)) (Bar × Access) :=
  bus.withHistory (fun _ _ => .nothing)
    fun _ a w => Function.update w a.1 ((w a.1).record a.2)

/-- A read returns, little-endian, the bytes last written where it reads. -/
def ReadsWritten (x : PCIEmuDevice × (Bar → Written)) (a : Bar × Access) : Prop :=
  (guestRead a.1 x.1 a.2).map BitVec.toNat = (x.2 a.1).expected a.2

/-- Where the one value of the device is what the guest expects: in the half
that was written last; in the other half if both halves hold the same; in the
whole after a write of the whole, after a write of the low half under a zero
high half, and after a write of the high half if both are zero. -/
def Written.Kept (w : Written) : Access → Prop
  | .read .low => w.last = some .high → w.lowHalf = w.highHalf
  | .read .high => w.last ≠ some .high → w.lowHalf = w.highHalf
  | .read .whole =>
      (w.last = some .low → w.highHalf = 0) ∧
        (w.last = some .high → w.lowHalf = 0 ∧ w.highHalf = 0)
  | .readHalves => w.lowHalf = w.highHalf
  | .write _ _ | .writeHalves _ _ => True

def ReadsKept (x : PCIEmuDevice × (Bar → Written)) (a : Bar × Access) : Prop :=
  (x.2 a.1).Kept a.2

section Core
variable {b : Bar} {d : PCIEmuDevice} {sp : Span} {val : BitVec 64}

theorem truncate_toNat (sp : Span) (val : BitVec 64) :
    (truncate sp.size val).toNat = val.toNat % 256 ^ sp.size := by
  rw [truncate, BitVec.toNat_setWidth, BitVec.toNat_setWidth]
  have hval := val.isLt
  cases sp <;> simp only [Span.size] <;> omega

theorem size_ok (sp : Span) : 4 ≤ sp.size ∧ sp.size ≤ 8 := by
  cases sp <;> decide

theorem coreRead_toNat : (coreRead b d sp).toNat = (d.reg b).toNat % 256 ^ sp.size := by
  rw [coreRead, truncate_toNat]
  congr 2
  cases b <;> exact if_pos (size_ok sp)

/-- Any write is accepted and becomes the value of its BAR, at any offset. -/
theorem coreWrite_reg (b : Bar) (d : PCIEmuDevice) (sp : Span) (val : BitVec 64) :
    ∃ d', coreWrite b d sp val = some d' ∧
      d'.reg = Function.update d.reg b (truncate sp.size val) := by
  have hwrite : regWrite sp.addr (truncate sp.size val) sp.size = some (truncate sp.size val) :=
    if_pos (size_ok sp)
  cases b with
  | mmio =>
      refine ⟨{ d with mmioVal := truncate sp.size val }, ?_, ?_⟩
      · exact congrArg (Option.map _) hwrite
      · funext b
        cases b <;> rfl
  | prtio =>
      refine ⟨{ d with prtioVal := truncate sp.size val }, ?_, ?_⟩
      · exact congrArg (Option.map _) hwrite
      · funext b
        cases b <;> rfl

/-- Two halves side by side. -/
theorem halves_toNat (lo hi : BitVec 64) (hlo : lo.toNat < 256 ^ 4) (hhi : hi.toNat < 256 ^ 4) :
    (lo ||| hi <<< 32).toNat = lo.toNat + 256 ^ 4 * hi.toNat := by
  have hshift : hi.toNat <<< 32 = 2 ^ 32 * hi.toNat := by rw [Nat.shiftLeft_eq, Nat.mul_comm]
  have hfits : 2 ^ 32 * hi.toNat < 2 ^ 64 := by omega
  rw [BitVec.toNat_or, BitVec.toNat_shiftLeft, hshift, Nat.mod_eq_of_lt hfits, Nat.or_comm,
    ← Nat.two_pow_add_eq_or_of_lt hlo]
  omega

end Core

/-- The span that decides what the device shows, and its value. -/
def Written.held (w : Written) : ℕ :=
  match w.last with
  | none => 0
  | some sp => loadLE w.bytes sp.addr sp.size

/-- The device shows what was written where the last write went. -/
structure Shows (val : ℕ) (w : Written) : Prop where
  bytes : Bytes w.bytes
  value : val = w.held
  untouched : w.last = none → w.lowHalf = 0 ∧ w.highHalf = 0

section Reads
variable {val : ℕ} {w : Written}

theorem whole_eq (w : Written) : loadLE w.bytes 0 8 = w.lowHalf + 256 ^ 4 * w.highHalf :=
  loadLE_add w.bytes 0 4 4

theorem Shows.held_cases (h : Shows val w) :
    w.last = none ∧ val = 0 ∧ w.lowHalf = 0 ∧ w.highHalf = 0 ∨
      w.last = some .low ∧ val = w.lowHalf ∨ w.last = some .high ∧ val = w.highHalf ∨
        w.last = some .whole ∧ val = w.lowHalf + 256 ^ 4 * w.highHalf := by
  have hvalue := h.value
  rw [Written.held] at hvalue
  cases hlast : w.last with
  | none =>
      rw [hlast] at hvalue
      exact .inl ⟨rfl, hvalue, h.untouched hlast⟩
  | some sp =>
      rw [hlast] at hvalue
      cases sp with
      | low => exact .inr (.inl ⟨rfl, hvalue⟩)
      | high => exact .inr (.inr (.inl ⟨rfl, hvalue⟩))
      | whole => exact .inr (.inr (.inr ⟨rfl, hvalue.trans (whole_eq w)⟩))

theorem Shows.read_iff (h : Shows val w) (sp : Span) :
    val % 256 ^ sp.size = loadLE w.bytes sp.addr sp.size ↔ w.Kept (.read sp) := by
  have hlow : w.lowHalf < 256 ^ 4 := h.bytes.loadLE_lt 0 4
  have hhigh : w.highHalf < 256 ^ 4 := h.bytes.loadLE_lt 4 4
  cases sp with
  | low =>
      show val % 256 ^ 4 = w.lowHalf ↔ (w.last = some .high → _)
      rcases h.held_cases with ⟨hl, hv, hzero⟩ | ⟨hl, hv⟩ | ⟨hl, hv⟩ | ⟨hl, hv⟩ <;> simp [hl] <;> omega
  | high =>
      show val % 256 ^ 4 = w.highHalf ↔ (w.last ≠ some .high → _)
      rcases h.held_cases with ⟨hl, hv, hzero⟩ | ⟨hl, hv⟩ | ⟨hl, hv⟩ | ⟨hl, hv⟩ <;> simp [hl] <;> omega
  | whole =>
      show val % 256 ^ 8 = loadLE w.bytes 0 8 ↔ (w.last = some .low → _) ∧ (w.last = some .high → _)
      have hval : val < 256 ^ 8 := by
        rcases h.held_cases with ⟨-, hv, -⟩ | ⟨-, hv⟩ | ⟨-, hv⟩ | ⟨-, hv⟩ <;> omega
      rw [whole_eq, Nat.mod_eq_of_lt hval]
      rcases h.held_cases with ⟨hl, hv, hzero⟩ | ⟨hl, hv⟩ | ⟨hl, hv⟩ | ⟨hl, hv⟩ <;> simp [hl] <;> omega

theorem Shows.halves_iff (h : Shows val w) :
    val % 256 ^ 4 + 256 ^ 4 * (val % 256 ^ 4) = loadLE w.bytes 0 8 ↔ w.Kept .readHalves := by
  have hlow : w.lowHalf < 256 ^ 4 := h.bytes.loadLE_lt 0 4
  have hhigh : w.highHalf < 256 ^ 4 := h.bytes.loadLE_lt 4 4
  show _ ↔ w.lowHalf = w.highHalf
  rw [whole_eq]
  rcases h.held_cases with ⟨-, hv, hzero⟩ | ⟨-, hv⟩ | ⟨-, hv⟩ | ⟨-, hv⟩ <;> omega

end Reads

section Runs
variable {b : Bar} {d d' : PCIEmuDevice} {w : Written} {a : Access}

theorem Shows.reads_iff (h : Shows (d.reg b).toNat w) (a : Access) :
    (guestRead b d a).map BitVec.toNat = w.expected a ↔ w.Kept a := by
  cases a with
  | read sp =>
      rw [← h.read_iff, ← coreRead_toNat]
      exact Option.some_inj
  | readHalves =>
      have hread : ∀ sp : Span, sp.size = 4 → (coreRead b d sp).toNat = (d.reg b).toNat % 256 ^ 4 :=
        fun sp hsize => by rw [coreRead_toNat, hsize]
      have hhalves := halves_toNat (coreRead b d .low) (coreRead b d .high)
        (by rw [hread _ rfl]; omega) (by rw [hread _ rfl]; omega)
      rw [hread _ rfl, hread _ rfl] at hhalves
      rw [← h.halves_iff, ← hhalves]
      exact Option.some_inj
  | write | writeHalves => exact ⟨fun _ => trivial, fun _ => rfl⟩

/-- The halves of a number written whole. -/
theorem halves_storeLE {m : ℕ → ℕ} {v : ℕ} (hm : Bytes m) (hv : v < 256 ^ 8) :
    loadLE (storeLE m 0 8 v) 0 4 = v % 256 ^ 4 ∧ loadLE (storeLE m 0 8 v) 4 4 = v / 256 ^ 4 := by
  have hwhole := loadLE_storeLE_self (m := m) (a := 0) hv
  have hlow := (hm.storeLE (a := 0) (n := 8) (v := v)).loadLE_lt 0 4
  rw [loadLE_add _ 0 4 4] at hwhole
  simp only [Nat.zero_add] at hwhole
  omega

/-- The two writes of a number delivered in halves: the second one stays. -/
theorem coreWrite_twice (b : Bar) (d : PCIEmuDevice) (sp sp' : Span) (val val' : BitVec 64) :
    ∃ d', ((coreWrite b d sp val).bind fun d => coreWrite b d sp' val') = some d' ∧
      d'.reg = Function.update d.reg b (truncate sp'.size val') := by
  obtain ⟨d₁, hd₁, hreg₁⟩ := coreWrite_reg b d sp val
  obtain ⟨d₂, hd₂, hreg₂⟩ := coreWrite_reg b d₁ sp' val'
  refine ⟨d₂, ?_, ?_⟩
  · rw [hd₁]
    exact hd₂
  · rw [hreg₂, hreg₁, Function.update_idem]

/-- What an access makes of the value of its BAR. -/
theorem Shows.access (h : Shows (d.reg b).toNat w) (a : Access) :
    ∃ d', guestWrite b d a = some d' ∧ Shows (d'.reg b).toNat (w.record a) ∧
      ∀ b', b' ≠ b → d'.reg b' = d.reg b' := by
  cases a with
  | read sp => exact ⟨d, rfl, h, fun _ _ => rfl⟩
  | readHalves => exact ⟨d, rfl, h, fun _ _ => rfl⟩
  | write sp val =>
      obtain ⟨d', hd', hreg⟩ := coreWrite_reg b d sp val
      refine ⟨d', hd', ⟨h.bytes.storeLE, ?_, nofun⟩, fun b' hb' => ?_⟩
      · rw [hreg, Function.update_self]
        refine (loadLE_storeLE_self ?_).symm
        rw [truncate_toNat]
        exact Nat.mod_lt _ (Nat.pow_pos (by decide))
      · rw [hreg, Function.update_of_ne hb']
  | writeHalves val lowFirst =>
      obtain ⟨hlow, hhigh⟩ := halves_storeLE h.bytes val.isLt
      have hbytes : Bytes (storeLE w.bytes 0 8 val.toNat) := h.bytes.storeLE
      cases lowFirst with
      | true =>
          obtain ⟨d', hd', hreg⟩ := coreWrite_twice b d .low .high val (val >>> 32)
          refine ⟨d', hd', ⟨hbytes, ?_, nofun⟩, fun b' hb' => ?_⟩
          · rw [hreg, Function.update_self, truncate_toNat, BitVec.toNat_ushiftRight,
              Nat.shiftRight_eq_div_pow]
            refine Eq.trans (Nat.mod_eq_of_lt ?_) hhigh.symm
            have hval := val.isLt
            simp only [Span.size]
            omega
          · rw [hreg, Function.update_of_ne hb']
      | false =>
          obtain ⟨d', hd', hreg⟩ := coreWrite_twice b d .high .low (val >>> 32) val
          refine ⟨d', hd', ⟨hbytes, ?_, nofun⟩, fun b' hb' => ?_⟩
          · rw [hreg, Function.update_self, truncate_toNat]
            exact hlow.symm
          · rw [hreg, Function.update_of_ne hb']

end Runs

section Bus
variable {ok : PCIEmuDevice × (Bar → Written) → Bar × Access → Prop}
  {x : PCIEmuDevice × (Bar → Written)}

theorem shows_written (h : watchedBus.ReachableWhen ok x) (b : Bar) :
    Shows (x.1.reg b).toNat (x.2 b) := by
  refine h.invariant (I := fun x => ∀ b, Shows (x.1.reg b).toNat (x.2 b)) ?_ ?_ b
  · rintro ⟨d, w⟩ ⟨hd, hw⟩ b
    obtain rfl : d = pciEmuDevRealize := hd
    obtain rfl : w = fun _ => .nothing := hw
    refine ⟨fun _ => Nat.succ_pos 255, by cases b <;> rfl, fun _ => ⟨loadLE_zero 0 4, loadLE_zero 4 4⟩⟩
  · rintro x ⟨b₀, a⟩ y _ hs _ hn b
    obtain ⟨hnext, hw⟩ := System.withHistory_next.mp hn
    obtain ⟨d', hd', hshows, hother⟩ := (hs b₀).access a
    obtain rfl : d' = y.1 := Option.some.inj (hd'.symm.trans hnext)
    rw [hw]
    by_cases hb : b = b₀
    · subst hb
      simpa only [Function.update_self] using hshows
    · simp only [Function.update_of_ne hb, hother b hb]
      exact hs b

/-- For every sequence of accesses to the two BARs, the reads return what was
written exactly where the one value of the device is what the guest expects. -/
theorem readsWritten_iff_readsKept (as : List (Bar × Access)) :
    watchedBus.Meets ReadsWritten (pciEmuDevRealize, fun _ => .nothing) as ↔
      watchedBus.Meets ReadsKept (pciEmuDevRealize, fun _ => .nothing) as := by
  have hstart : watchedBus.ReachableWhen ReadsWritten (pciEmuDevRealize, fun _ => .nothing) :=
    .start ⟨rfl, rfl⟩
  exact hstart.meets_iff (fun _ a h => (shows_written h a.1).reads_iff a.2) as

/-- A write to the high half shows up in the low one. -/
theorem not_readsWritten_high :
    ¬∀ as, watchedBus.Meets ReadsWritten (pciEmuDevRealize, fun _ => .nothing) as := by
  intro h
  have hread : (some 1 : Option ℕ) = some 0 :=
    ((h [(.mmio, .write .high 1), (.mmio, .read .low)]).2 _ rfl).1
  exact absurd hread (by decide)

end Bus
end LinuxDeviceDrivers.PciDevEmu
