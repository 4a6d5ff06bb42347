import LinuxDeviceDrivers.KernelPrimitives
import LinuxDeviceDrivers.PciDevEmu

/-!
# The attributes of pci_drv over the emulated device

`store` parses a `long` and writes its low 32 bits to the start of a BAR, `show`
reads 32 bits there and prints them as an unsigned number. A number comes back
as it was accepted if it is one of these. Every call is taken to run alone; a
`long` has `bits` bits.
-/
namespace LinuxDeviceDrivers.PciDrv
open KernelPrimitives TransitionSystem PciDevEmu

/-- Where the driver has mapped the BARs of its device. -/
structure PciPrvDev where
  hwmem : Bar
  hwprtmem : Bar
deriving DecidableEq, Repr

/-- The device data as `pci_drv_probe` fills them. -/
def prvDev : PciPrvDev := ⟨.mmio, .prtio⟩

def iowrite32 (val : BitVec 32) (hw : Bar) (d : PCIEmuDevice) : Option PCIEmuDevice :=
  coreWrite hw d .low (val.setWidth 64)

def ioread32 (hw : Bar) (d : PCIEmuDevice) : BitVec 32 := (coreRead hw d .low).setWidth 32

/-- The output of `sprintf` for a format with one `%u`. -/
structure Printed where
  format : String
  val : BitVec 32
deriving DecidableEq, Repr

/-- A `store` function on what `kstrtol` makes of its text. -/
def valStore {bits : ℕ} (hw : Bar) (count : ℕ) (res : Except Errno (BitVec bits))
    (d : PCIEmuDevice) : Option (Except Errno ℕ × PCIEmuDevice) :=
  match res with
  | .error ret => some (.error ret, d)
  | .ok val => (iowrite32 (BitVec.ofInt 32 val.toInt) hw d).map fun d => (.ok count, d)

def valShow (format : String) (hw : Bar) (d : PCIEmuDevice) : Printed := ⟨format, ioread32 hw d⟩

inductive Attr where
  | mmioval
  | prtioval
deriving DecidableEq, Repr

section Driver
variable {bits : ℕ}

def mmiovalStore (count : ℕ) (res : Except Errno (BitVec bits)) :
    PCIEmuDevice → Option (Except Errno ℕ × PCIEmuDevice) :=
  valStore prvDev.hwmem count res

def prtiovalStore (count : ℕ) (res : Except Errno (BitVec bits)) :
    PCIEmuDevice → Option (Except Errno ℕ × PCIEmuDevice) :=
  valStore prvDev.hwprtmem count res

def mmiovalShow : PCIEmuDevice → Printed := valShow "mmioval show: %u\n" prvDev.hwmem

def prtiovalShow : PCIEmuDevice → Printed := valShow "prtioval show : %u\n" prvDev.hwprtmem

def Attr.store : Attr → ℕ → Except Errno (BitVec bits) → PCIEmuDevice →
    Option (Except Errno ℕ × PCIEmuDevice)
  | .mmioval => mmiovalStore
  | .prtioval => prtiovalStore

def Attr.show : Attr → PCIEmuDevice → Printed
  | .mmioval => mmiovalShow
  | .prtioval => prtiovalShow

def Attr.bar : Attr → Bar
  | .mmioval => prvDev.hwmem
  | .prtioval => prvDev.hwprtmem

variable (bits) in
inductive Call where
  | storeVal (attr : Attr) (count : ℕ) (res : Except Errno (BitVec bits))
  | showVal (attr : Attr)

/-- The device under calls of the attribute functions. -/
def calls : System PCIEmuDevice (Call bits) where
  start d := d = pciEmuDevRealize
  next d
    | .storeVal attr count res => (attr.store count res d).map Prod.snd
    | .showVal _ => some d

/-- The number that each attribute has accepted last. -/
def accept (last : Attr → Option ℤ) : Call bits → Attr → Option ℤ
  | .storeVal attr _ (.ok val) => Function.update last attr (some val.toInt)
  | .storeVal _ _ (.error _) | .showVal _ => last

def watchedCalls : System (PCIEmuDevice × (Attr → Option ℤ)) (Call bits) :=
  calls.withHistory (fun _ _ => none) fun _ a last => accept last a

/-- A `show` prints the number its attribute has accepted last, and a `store`
leaves what the other attribute shows. -/
def ShowsAccepted (x : PCIEmuDevice × (Attr → Option ℤ)) : Call bits → Prop
  | .showVal attr => ∀ v, x.2 attr = some v → ((attr.show x.1).val.toNat : ℤ) = v
  | .storeVal attr count res =>
      ∀ other, other ≠ attr → ∀ r, attr.store count res x.1 = some r →
        other.show r.2 = other.show x.1

/-- The number to be shown is one that 32 bits can print. -/
def FitsU32 (x : PCIEmuDevice × (Attr → Option ℤ)) : Call bits → Prop
  | .showVal attr => ∀ v, x.2 attr = some v → 0 ≤ v ∧ v < 2 ^ 32
  | .storeVal _ _ _ => True

theorem store_eq (attr : Attr) (count : ℕ) (res : Except Errno (BitVec bits)) :
    attr.store count res = valStore attr.bar count res := by
  cases attr <;> rfl

theorem show_val (attr : Attr) (d : PCIEmuDevice) : (attr.show d).val = ioread32 attr.bar d := by
  cases attr <;> rfl

theorem bar_injective {attr other : Attr} (h : other ≠ attr) : other.bar ≠ attr.bar := by
  cases attr <;> cases other <;> first | exact absurd rfl h | decide

theorem ioread32_toNat (hw : Bar) (d : PCIEmuDevice) :
    (ioread32 hw d).toNat = (d.reg hw).toNat % 2 ^ 32 := by
  rw [ioread32, BitVec.toNat_setWidth, coreRead_toNat]
  exact Nat.mod_mod _ _

/-- What reads 32 bits of a BAR sees is decided by the value of that BAR. -/
theorem show_congr {attr : Attr} {d d' : PCIEmuDevice} (h : d'.reg attr.bar = d.reg attr.bar) :
    attr.show d' = attr.show d := by
  have hread : ioread32 attr.bar d' = ioread32 attr.bar d := by
    refine BitVec.eq_of_toNat_eq ?_
    rw [ioread32_toNat, ioread32_toNat, h]
  cases attr with
  | mmioval => exact congrArg (Printed.mk _) hread
  | prtioval => exact congrArg (Printed.mk _) hread

/-- A rejected text changes nothing; an accepted number leaves its low 32 bits in
the BAR of its attribute. -/
theorem store_cases {attr : Attr} {count : ℕ} {res : Except Errno (BitVec bits)}
    {d : PCIEmuDevice} {r : Except Errno ℕ × PCIEmuDevice}
    (h : attr.store count res d = some r) :
    (∃ ret, res = .error ret ∧ r.2 = d) ∨
      ∃ val, res = .ok val ∧ ((r.2.reg attr.bar).toNat : ℤ) = val.toInt % 2 ^ 32 ∧
        ∀ hw, hw ≠ attr.bar → r.2.reg hw = d.reg hw := by
  rw [store_eq] at h
  cases res with
  | error ret =>
      cases h
      exact .inl ⟨ret, rfl, rfl⟩
  | ok val =>
      obtain ⟨d', hd', rfl⟩ := Option.map_eq_some_iff.mp h
      obtain ⟨d₁, hd₁, hreg⟩ :=
        coreWrite_reg attr.bar d .low ((BitVec.ofInt 32 val.toInt).setWidth 64)
      obtain rfl : d₁ = d' := Option.some.inj (hd₁.symm.trans hd')
      refine .inr ⟨val, rfl, ?_, fun hw hne => ?_⟩
      · rw [hreg, Function.update_self, truncate_toNat, BitVec.toNat_setWidth, BitVec.toNat_ofInt]
        have hpos := Int.emod_nonneg val.toInt (show (2 ^ 32 : ℤ) ≠ 0 by decide)
        have hlt := Int.emod_lt_of_pos val.toInt (show (0 : ℤ) < 2 ^ 32 by decide)
        simp only [Span.size]
        omega
      · rw [hreg, Function.update_of_ne hne]

/-- What the BARs hold of the numbers accepted last. -/
def Holds (x : PCIEmuDevice × (Attr → Option ℤ)) : Prop :=
  ∀ attr v, x.2 attr = some v → ((x.1.reg attr.bar).toNat : ℤ) = v % 2 ^ 32

theorem Holds.store {x : PCIEmuDevice × (Attr → Option ℤ)} (hx : Holds x) {attr : Attr} {count : ℕ}
    {res : Except Errno (BitVec bits)} {r : Except Errno ℕ × PCIEmuDevice}
    (h : attr.store count res x.1 = some r) : Holds (r.2, accept x.2 (.storeVal attr count res)) := by
  intro other v hv
  rcases store_cases h with ⟨ret, rfl, hsame⟩ | ⟨val, rfl, hval, hother⟩
  · simp only [hsame]
    exact hx other v hv
  · by_cases hattr : other = attr
    · subst hattr
      simp only [accept, Function.update_self, Option.some.injEq] at hv
      rw [← hv]
      exact hval
    · simp only [accept, Function.update_of_ne hattr] at hv
      simp only [hother _ (bar_injective hattr)]
      exact hx other v hv

theorem holds {ok : PCIEmuDevice × (Attr → Option ℤ) → Call bits → Prop}
    {x : PCIEmuDevice × (Attr → Option ℤ)} (h : watchedCalls.ReachableWhen ok x) : Holds x := by
  refine h.invariant ?_ ?_
  · rintro ⟨d, last⟩ ⟨-, hlast⟩ attr v hv
    obtain rfl : last = fun _ => none := hlast
    cases hv
  · rintro x a ⟨d, last⟩ _ hx _ hn
    obtain ⟨hnext, hlast⟩ := System.withHistory_next.mp hn
    obtain rfl : last = accept x.2 a := hlast
    cases a with
    | showVal attr =>
        obtain rfl : x.1 = d := Option.some.inj hnext
        exact hx
    | storeVal attr count res =>
        obtain ⟨r, hr, rfl⟩ := Option.map_eq_some_iff.mp hnext
        exact hx.store hr

theorem showsAccepted_iff {x : PCIEmuDevice × (Attr → Option ℤ)} (hx : Holds x) (a : Call bits) :
    ShowsAccepted x a ↔ FitsU32 x a := by
  cases a with
  | showVal attr =>
      refine forall_congr' fun v => imp_congr_right fun hv => ?_
      have hreg := hx attr v hv
      rw [show_val, ioread32_toNat]
      omega
  | storeVal attr count res =>
      refine ⟨fun _ => trivial, fun _ other hother r hr => show_congr ?_⟩
      rcases store_cases hr with ⟨_, -, hsame⟩ | ⟨_, -, -, hregs⟩
      · rw [hsame]
      · exact hregs _ (bar_injective hother)

/-- In any sequence of calls every `show` prints the number accepted last by its
attribute, and no other, exactly when the numbers shown are unsigned 32-bit ones. -/
theorem showsAccepted_iff_fitsU32 (as : List (Call bits)) :
    watchedCalls.Meets ShowsAccepted (pciEmuDevRealize, fun _ => none) as ↔
      watchedCalls.Meets FitsU32 (pciEmuDevRealize, fun _ => none) as := by
  have hstart : (watchedCalls : System _ (Call bits)).ReachableWhen ShowsAccepted
      (pciEmuDevRealize, fun _ => none) := .start ⟨rfl, rfl⟩
  exact hstart.meets_iff (fun _ a h => showsAccepted_iff (holds h) a) as

end Driver

/-- The number -1 is accepted and shown as 4294967295. -/
theorem not_showsAccepted_negative :
    ¬∀ (bits : ℕ) (as : List (Call bits)),
      watchedCalls.Meets ShowsAccepted (pciEmuDevRealize, fun _ => none) as := by
  intro h
  have hshow : (4294967295 : ℤ) = -1 :=
    ((h 64 [.storeVal .mmioval 3 (.ok (-1)), .showVal .mmioval]).2 _ rfl).1 _ rfl
  exact absurd hshow (by decide)

end LinuxDeviceDrivers.PciDrv
