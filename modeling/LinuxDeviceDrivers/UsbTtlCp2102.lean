import LinuxDeviceDrivers.Cp2102If
import LinuxDeviceDrivers.TransitionSystem

/-!
# The modem lines of the CP2102 serial driver

`serial_cp2102_tiocmset` builds the request word in a local variable that it
never initialises, and sets the value bit of the wrong line for `TIOCM_DTR`.
Which calls do what they are asked is decided by the bits of that stack slot,
the two masks and the line states before the call; the condition is exact for
each call, and so for each sequence of calls.
-/
namespace LinuxDeviceDrivers.UsbTtlCp2102
open KernelPrimitives TransitionSystem Cp2102If

def MCR_DTR : BitVec 16 := 0x0001
def MCR_RTS : BitVec 16 := 0x0002
def MCR_CTS : BitVec 16 := 0x0010
def MCR_DSR : BitVec 16 := 0x0020
def MCR_RI : BitVec 16 := 0x0040
def MCR_DCD : BitVec 16 := 0x0080
def MCR_DTR_MASK : BitVec 16 := 0x0100
def MCR_RTS_MASK : BitVec 16 := 0x0200

def TIOCM_DTR : BitVec 32 := 0x002
def TIOCM_RTS : BitVec 32 := 0x004
def TIOCM_CTS : BitVec 32 := 0x020
def TIOCM_CD : BitVec 32 := 0x040
def TIOCM_RI : BitVec 32 := 0x080
def TIOCM_DSR : BitVec 32 := 0x100

/-- The fields of `struct cp2102_prv_dev` that the modem calls use. -/
structure Cp2102PrvDev where
  bInterfaceNumber : BitVec 8
  mcr : BitVec 16
  msr : BitVec 8
deriving DecidableEq, Repr

/-- `x & flag` as a condition. -/
def has {w : ℕ} (x flag : BitVec w) : Bool := x &&& flag != 0

/-- The four branches of `serial_cp2102_tiocmset` on the local variable `mcr`. -/
def buildMcr (mcr : BitVec 16) (set clear : BitVec 32) : BitVec 16 :=
  let mcr := if has set TIOCM_RTS then mcr ||| MCR_RTS ||| MCR_RTS_MASK else mcr
  let mcr := if has set TIOCM_DTR then mcr ||| MCR_RTS ||| MCR_DTR_MASK else mcr
  let mcr := if has clear TIOCM_RTS then mcr &&& ~~~MCR_RTS ||| MCR_RTS_MASK else mcr
  if has clear TIOCM_DTR then mcr &&& ~~~MCR_DTR ||| MCR_DTR_MASK else mcr

/-- The driver's data and the chip. -/
structure State where
  prvDev : Cp2102PrvDev
  chip : Chip
deriving DecidableEq, Repr

/-- A call of `serial_cp2102_tiocmset`: what lies on the stack in the place of
`mcr`, the masks, and how the transfer ends. -/
structure TiocmsetCall where
  mcr : BitVec 16
  set : BitVec 32
  clear : BitVec 32
  outcome : UsbOutcome
deriving DecidableEq, Repr

def serialCp2102Tiocmset (s : State) (call : TiocmsetCall) : ℤ × State :=
  let mcr := buildMcr call.mcr call.set call.clear
  let r := cp2102SetMdmhndshk call.outcome s.prvDev.bInterfaceNumber mcr s.chip
  (r.1, ⟨{ s.prvDev with mcr := mcr }, r.2⟩)

/-- The word that `serial_cp2102_tiocmget` returns. -/
def tiocmWord (msr : BitVec 16) : BitVec 32 :=
  (if has msr MCR_DTR then TIOCM_DTR else 0) |||
  (if has msr MCR_RTS then TIOCM_RTS else 0) |||
  (if has msr MCR_CTS then TIOCM_CTS else 0) |||
  (if has msr MCR_DSR then TIOCM_DSR else 0) |||
  (if has msr MCR_RI then TIOCM_RI else 0) |||
  (if has msr MCR_DCD then TIOCM_CD else 0)

def serialCp2102Tiocmget (s : State) (o : UsbOutcome) : Except ℤ (BitVec 32) × State :=
  match cp2102GetMdmstat o s.prvDev.bInterfaceNumber s.chip with
  | .error ret => (.error ret, s)
  | .ok msr => (.ok (tiocmWord (msr.setWidth 16)), { s with prvDev := { s.prvDev with msr := msr } })

/-- The calls of `serial_cp2102_tiocmset`, one after the other under the mutex. -/
def system : System State TiocmsetCall where
  start _ := True
  next s call := some (serialCp2102Tiocmset s call).2

/-- The four bits of the request word that the chip looks at. -/
theorem buildMcr_bits (mcr : BitVec 16) (set clear : BitVec 32) :
    (buildMcr mcr set clear).getLsbD 0 = (!has clear TIOCM_DTR && mcr.getLsbD 0) ∧
    (buildMcr mcr set clear).getLsbD 1 =
      (!has clear TIOCM_RTS && (has set TIOCM_RTS || has set TIOCM_DTR || mcr.getLsbD 1)) ∧
    (buildMcr mcr set clear).getLsbD 8 =
      (has set TIOCM_DTR || has clear TIOCM_DTR || mcr.getLsbD 8) ∧
    (buildMcr mcr set clear).getLsbD 9 =
      (has set TIOCM_RTS || has clear TIOCM_RTS || mcr.getLsbD 9) := by
  unfold buildMcr
  cases has set TIOCM_RTS <;> cases has set TIOCM_DTR <;> cases has clear TIOCM_RTS <;>
    cases has clear TIOCM_DTR <;> simp [MCR_DTR, MCR_RTS, MCR_DTR_MASK, MCR_RTS_MASK]

theorem has_twoPow {w : ℕ} (x : BitVec w) (i : ℕ) : has x (BitVec.twoPow w i) = x.getLsbD i := by
  rw [has, BitVec.and_twoPow]
  cases hx : x.getLsbD i with
  | false => rfl
  | true =>
      have hbit : (BitVec.twoPow w i).getLsbD i = true := by simp [BitVec.lt_of_getLsbD hx]
      rw [if_pos rfl, bne_iff_ne]
      intro hzero
      rw [hzero] at hbit
      exact absurd hbit (by simp)

/-- Each of the two lines has its bit in the word. -/
theorem tiocmWord_has (msr : BitVec 16) :
    has (tiocmWord msr) TIOCM_DTR = has msr MCR_DTR ∧
      has (tiocmWord msr) TIOCM_RTS = has msr MCR_RTS := by
  unfold tiocmWord
  generalize has msr MCR_DTR = dtr, has msr MCR_RTS = rts, has msr MCR_CTS = cts,
    has msr MCR_DSR = dsr, has msr MCR_RI = ri, has msr MCR_DCD = dcd
  revert dtr rts cts dsr ri dcd
  decide

theorem mdmsts_has (chip : Chip) :
    has (chip.mdmsts.setWidth 16) MCR_DTR = chip.dtr ∧
      has (chip.mdmsts.setWidth 16) MCR_RTS = chip.rts := by
  have hdtr : MCR_DTR = BitVec.twoPow 16 0 := by decide
  have hrts : MCR_RTS = BitVec.twoPow 16 1 := by decide
  rw [hdtr, hrts, has_twoPow, has_twoPow, BitVec.getLsbD_setWidth, BitVec.getLsbD_setWidth]
  simp only [Chip.mdmsts, BitVec.getLsbD_ofBoolListLE]
  exact ⟨rfl, rfl⟩

/-- `serial_cp2102_tiocmget` reports the lines that the chip reports. -/
theorem tiocmWord_mdmsts (chip : Chip) :
    has (tiocmWord (chip.mdmsts.setWidth 16)) TIOCM_DTR = chip.dtr ∧
      has (tiocmWord (chip.mdmsts.setWidth 16)) TIOCM_RTS = chip.rts := by
  obtain ⟨hdtr, hrts⟩ := tiocmWord_has (chip.mdmsts.setWidth 16)
  obtain ⟨hchipDtr, hchipRts⟩ := mdmsts_has chip
  exact ⟨hdtr.trans hchipDtr, hrts.trans hchipRts⟩

theorem serialCp2102Tiocmget_ok {s t : State} {o : UsbOutcome} {word : BitVec 32}
    (h : serialCp2102Tiocmget s o = (.ok word, t)) :
    has word TIOCM_DTR = s.chip.dtr ∧ has word TIOCM_RTS = s.chip.rts := by
  unfold serialCp2102Tiocmget at h
  split at h
  · cases h
  · rename_i msr hmsr
    cases h
    rw [cp2102GetMdmstat_ok hmsr]
    exact tiocmWord_mdmsts s.chip

/-- What a call asks of a line that is now in state `now`. -/
def asked (set clear : Bool) (now : Bool) : Bool := if clear then false else if set then true else now

/-- A call that returns 0 leaves both lines as asked, and as long as they stay
so a successful `serial_cp2102_tiocmget` reports them. -/
def LinesRight (s : State) (call : TiocmsetCall) : Prop :=
  let dtr := asked (has call.set TIOCM_DTR) (has call.clear TIOCM_DTR) s.chip.dtr
  let rts := asked (has call.set TIOCM_RTS) (has call.clear TIOCM_RTS) s.chip.rts
  let r := serialCp2102Tiocmset s call
  r.1 = 0 →
    r.2.chip.dtr = dtr ∧ r.2.chip.rts = rts ∧
      ∀ later o word t, later.chip.dtr = r.2.chip.dtr → later.chip.rts = r.2.chip.rts →
        serialCp2102Tiocmget later o = (.ok word, t) →
          has word TIOCM_DTR = dtr ∧ has word TIOCM_RTS = rts

/-- RTS is named, or not marked as changing, or sent as it is. -/
def RtsEncoded (s : State) (call : TiocmsetCall) : Prop :=
  has call.clear TIOCM_RTS = true ∨ has call.set TIOCM_RTS = true ∨ call.mcr.getLsbD 9 = false ∨
    (has call.set TIOCM_DTR || call.mcr.getLsbD 1) = s.chip.rts

/-- DTR is cleared, or set with its value bit already in the stack slot, or not
named and either not marked as changing or sent as it is. -/
def DtrEncoded (s : State) (call : TiocmsetCall) : Prop :=
  has call.clear TIOCM_DTR = true ∨ has call.set TIOCM_DTR = true ∧ call.mcr.getLsbD 0 = true ∨
    has call.set TIOCM_DTR = false ∧
      (call.mcr.getLsbD 8 = false ∨ call.mcr.getLsbD 0 = s.chip.dtr)

/-- If the transfer succeeds, the stack slot happens to hold what the call needs. -/
def Encoded (s : State) (call : TiocmsetCall) : Prop :=
  call.outcome = .done → DtrEncoded s call ∧ RtsEncoded s call

section Calls
variable {s : State} {call : TiocmsetCall}

theorem tiocmset_chip (h : call.outcome = .done) :
    (serialCp2102Tiocmset s call).2.chip.dtr =
        (if (buildMcr call.mcr call.set call.clear).getLsbD 8 then
          (buildMcr call.mcr call.set call.clear).getLsbD 0 else s.chip.dtr) ∧
      (serialCp2102Tiocmset s call).2.chip.rts =
        (if (buildMcr call.mcr call.set call.clear).getLsbD 9 then
          (buildMcr call.mcr call.set call.clear).getLsbD 1 else s.chip.rts) := by
  simp only [serialCp2102Tiocmset, h, cp2102SetMdmhndshk_done, and_self]

theorem tiocmset_dtr (h : call.outcome = .done) :
    (serialCp2102Tiocmset s call).2.chip.dtr =
        asked (has call.set TIOCM_DTR) (has call.clear TIOCM_DTR) s.chip.dtr ↔
      DtrEncoded s call := by
  obtain ⟨hvalue, _, hmask, _⟩ := buildMcr_bits call.mcr call.set call.clear
  rw [(tiocmset_chip h).1, hvalue, hmask, DtrEncoded, asked]
  cases has call.set TIOCM_DTR <;> cases has call.clear TIOCM_DTR <;>
    cases call.mcr.getLsbD 0 <;> cases call.mcr.getLsbD 8 <;> cases s.chip.dtr <;> decide

theorem tiocmset_rts (h : call.outcome = .done) :
    (serialCp2102Tiocmset s call).2.chip.rts =
        asked (has call.set TIOCM_RTS) (has call.clear TIOCM_RTS) s.chip.rts ↔
      RtsEncoded s call := by
  obtain ⟨_, hvalue, _, hmask⟩ := buildMcr_bits call.mcr call.set call.clear
  rw [(tiocmset_chip h).2, hvalue, hmask, RtsEncoded, asked]
  cases has call.set TIOCM_RTS <;> cases has call.clear TIOCM_RTS <;>
    cases has call.set TIOCM_DTR <;> cases call.mcr.getLsbD 1 <;> cases call.mcr.getLsbD 9 <;>
      cases s.chip.rts <;> decide

theorem linesRight_iff (s : State) (call : TiocmsetCall) : LinesRight s call ↔ Encoded s call := by
  have hret : (serialCp2102Tiocmset s call).1 = 0 ↔ call.outcome = .done := cp2102SetMdmhndshk_ret
  constructor
  · intro h hdone
    obtain ⟨hdtr, hrts, _⟩ := h (hret.mpr hdone)
    exact ⟨(tiocmset_dtr hdone).mp hdtr, (tiocmset_rts hdone).mp hrts⟩
  · intro h hzero
    have hdone := hret.mp hzero
    have hdtr := (tiocmset_dtr hdone).mpr (h hdone).1
    have hrts := (tiocmset_rts hdone).mpr (h hdone).2
    refine ⟨hdtr, hrts, fun later o word t hd hr hget => ?_⟩
    obtain ⟨hwd, hwr⟩ := serialCp2102Tiocmget_ok hget
    exact ⟨hwd.trans (hd.trans hdtr), hwr.trans (hr.trans hrts)⟩

end Calls

/-- In a sequence of calls, from any state, every call does what it is asked
exactly when every call finds the bits it needs in its stack slot. -/
theorem linesRight_iff_encoded (s : State) (calls : List TiocmsetCall) :
    system.Meets LinesRight s calls ↔ system.Meets Encoded s calls :=
  System.meets_congr linesRight_iff s calls

/-- `TIOCM_DTR` is set with a stack slot of zeros: DTR stays low. -/
theorem not_linesRight_setDtr :
    ¬∀ (s : State) (calls : List TiocmsetCall), system.Meets LinesRight s calls := by
  intro h
  have hcall := (h ⟨⟨0, 0, 0⟩, ⟨false, false, false, false, false, false, false, false⟩⟩
    [⟨0, TIOCM_DTR, 0, .done⟩]).1
  exact absurd (hcall rfl).1 (by decide)

end LinuxDeviceDrivers.UsbTtlCp2102
