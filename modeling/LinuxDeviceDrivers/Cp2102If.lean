import LinuxDeviceDrivers.KernelPrimitives
import Mathlib.Data.Nat.Digits.Lemmas

/-!
# Control requests of the CP2102

`cp2102if.c` wraps each vendor request of the chip in a control transfer. A
transfer succeeds, or fails with an error code, and a request that failed for
the host may still have reached the chip. The chip changes its modem lines and
reports them as the comments from AN571 in the driver say.
-/
namespace LinuxDeviceDrivers.Cp2102If
open KernelPrimitives

def IFC_ENABLE_REQ : BitVec 8 := 0x00
def SET_LINE_CTL_REQ : BitVec 8 := 0x03
def SET_BAUDRATE_REQ : BitVec 8 := 0x1E
def GET_MDMSTS_REQ : BitVec 8 := 0x08
def SET_MHS_REQ : BitVec 8 := 0x07

def wValue_IFC_ENABLE : BitVec 16 := 0x0001
def wValue_IFC_DISABLE : BitVec 16 := 0x0000

/-- The setup packet of a vendor request on endpoint 0. -/
structure ControlMsg where
  request : BitVec 8
  requestType : BitVec 8
  value : BitVec 16
  index : BitVec 16
deriving DecidableEq, Repr

/-- The modem lines of the chip: two that the host sets, four inputs, and the
reserved bits of the modem status. -/
structure Chip where
  dtr : Bool
  rts : Bool
  cts : Bool
  dsr : Bool
  ri : Bool
  dcd : Bool
  reserved : Bool × Bool
deriving DecidableEq, Repr

/-- Bits 0 and 1 are the new DTR and RTS, bits 8 and 9 say which of them change. -/
def Chip.receive (chip : Chip) (m : ControlMsg) : Chip :=
  if m.request = SET_MHS_REQ then
    { chip with
      dtr := if m.value.getLsbD 8 then m.value.getLsbD 0 else chip.dtr
      rts := if m.value.getLsbD 9 then m.value.getLsbD 1 else chip.rts }
  else chip

/-- Bits 0 and 1 are DTR and RTS, bits 4 to 7 are CTS, DSR, RI and DCD. -/
def Chip.mdmsts (chip : Chip) : BitVec 8 :=
  BitVec.ofBoolListLE [chip.dtr, chip.rts, chip.reserved.1, chip.reserved.2, chip.cts, chip.dsr,
    chip.ri, chip.dcd]

def Chip.answer (chip : Chip) (m : ControlMsg) : BitVec 8 :=
  if m.request = GET_MDMSTS_REQ then chip.mdmsts else 0

/-- How a control transfer ends for the host, and whether the chip saw it. -/
inductive UsbOutcome where
  | done
  | failed (status : Errno) (delivered : Bool)
deriving DecidableEq, Repr

def usbControlMsgSend (o : UsbOutcome) (m : ControlMsg) (chip : Chip) : ℤ × Chip :=
  match o with
  | .done => (0, chip.receive m)
  | .failed status delivered => (status.val, if delivered then chip.receive m else chip)

/-- A transfer of one byte to the host. -/
def usbControlMsgRecv (o : UsbOutcome) (m : ControlMsg) (chip : Chip) : Except ℤ (BitVec 8) :=
  match o with
  | .done => .ok (chip.answer m)
  | .failed status _ => .error status.val

def usbTranslateErrors (status : ℤ) : ℤ :=
  if status = 0 ∨ status = -ENOMEM ∨ status = -ENODEV ∨ status = -EOPNOTSUPP then status else -eio

theorem usbTranslateErrors_ne {status : ℤ} (h : status ≠ 0) : usbTranslateErrors status ≠ 0 := by
  unfold usbTranslateErrors
  split_ifs
  · exact h
  · decide

def cp2102SetMdmhndshk (o : UsbOutcome) (bInterfaceNumber : BitVec 8) (val : BitVec 16)
    (chip : Chip) : ℤ × Chip :=
  let r := usbControlMsgSend o ⟨SET_MHS_REQ, 0x41, val, bInterfaceNumber.setWidth 16⟩ chip
  (if r.1 ≠ 0 then usbTranslateErrors r.1 else r.1, r.2)

def cp2102GetMdmstat (o : UsbOutcome) (bInterfaceNumber : BitVec 8) (chip : Chip) :
    Except ℤ (BitVec 8) :=
  match usbControlMsgRecv o ⟨GET_MDMSTS_REQ, 0xC1, 0, bInterfaceNumber.setWidth 16⟩ chip with
  | .ok val => .ok val
  | .error status => .error (usbTranslateErrors status)

/-- A request on the wire: its setup packet, the bytes the host sends with it,
and how it ends. -/
structure ControlTransfer where
  msg : ControlMsg
  data : List ℕ
  outcome : UsbOutcome
deriving DecidableEq, Repr

/-- The chip has seen the request. -/
def UsbOutcome.arrived : UsbOutcome → Bool
  | .done => true
  | .failed _ delivered => delivered

/-- What a request returns after its transfer. -/
def UsbOutcome.ret : UsbOutcome → ℤ
  | .done => 0
  | .failed status _ => if status.val ≠ 0 then usbTranslateErrors status.val else status.val

/-- A request to the chip, with its return value. -/
def sendRequest (request : BitVec 8) (value : BitVec 16) (data : List ℕ) (o : UsbOutcome)
    (bInterfaceNumber : BitVec 8) : ℤ × ControlTransfer :=
  (o.ret, ⟨⟨request, 0x41, value, bInterfaceNumber.setWidth 16⟩, data, o⟩)

def cp2102Enableif : UsbOutcome → BitVec 8 → ℤ × ControlTransfer :=
  sendRequest IFC_ENABLE_REQ wValue_IFC_ENABLE []

def cp2102Disableif : UsbOutcome → BitVec 8 → ℤ × ControlTransfer :=
  sendRequest IFC_ENABLE_REQ wValue_IFC_DISABLE []

def cp2102SetLctrl (val : BitVec 16) : UsbOutcome → BitVec 8 → ℤ × ControlTransfer :=
  sendRequest SET_LINE_CTL_REQ val []

/-- The byte order of the host. -/
inductive Endian where
  | little
  | big
deriving DecidableEq, Repr

/-- The four bytes of a `u32` in memory. -/
def u32Bytes (host : Endian) (val : BitVec 32) : List ℕ :=
  match host with
  | .little => Nat.digitsAppend 256 4 val.toNat
  | .big => (Nat.digitsAppend 256 4 val.toNat).reverse

/-- The `u32` is sent as it lies in memory. -/
def cp2102SetBaud (host : Endian) (val : BitVec 32) : UsbOutcome → BitVec 8 → ℤ × ControlTransfer :=
  sendRequest SET_BAUDRATE_REQ 0 (u32Bytes host val)

/-- The chip reads a baud rate as a little-endian `u32`. -/
def chipU32 (data : List ℕ) : BitVec 32 := BitVec.ofNat 32 (Nat.ofDigits 256 data)

section Spec
variable {o : UsbOutcome} {n : BitVec 8} {val : BitVec 16} {chip : Chip}

theorem ret_eq_zero : o.ret = 0 ↔ o = .done := by
  cases o with
  | done => exact ⟨fun _ => rfl, fun _ => rfl⟩
  | failed status delivered =>
      have hne : status.val ≠ 0 := Int.ne_of_lt status.neg
      refine ⟨fun h => ?_, nofun⟩
      exact absurd ((if_pos hne).symm.trans h) (usbTranslateErrors_ne hne)

theorem u32Bytes_valid (host : Endian) (rate : BitVec 32) :
    (u32Bytes host rate).length = 4 ∧ ∀ x ∈ u32Bytes host rate, x < 256 := by
  have hrate : rate.toNat < 256 ^ 4 := rate.isLt
  cases host with
  | little => exact Nat.mapsTo_digitsAppend (by decide) 4 hrate
  | big =>
      obtain ⟨hlen, hlt⟩ := Nat.mapsTo_digitsAppend (show 1 < 256 by decide) 4 hrate
      exact ⟨List.length_reverse.trans hlen, fun x hx => hlt x (List.mem_reverse.mp hx)⟩

/-- The chip reads a rate from four bytes exactly when they are its bytes from
the least significant one on. -/
theorem chipU32_eq_iff {data : List ℕ} (hdata : data.length = 4 ∧ ∀ x ∈ data, x < 256)
    (rate : BitVec 32) : chipU32 data = rate ↔ data = u32Bytes .little rate := by
  obtain ⟨hdigits, hvalue⟩ := Nat.setInvOn_digitsAppend_ofDigits (show 1 < 256 by decide) 4
  have hlt : Nat.ofDigits 256 data < 2 ^ 32 := Nat.mapsTo_ofDigits (by decide) 4 hdata
  constructor
  · rintro rfl
    rw [chipU32, u32Bytes, BitVec.toNat_ofNat, Nat.mod_eq_of_lt hlt]
    exact (hdigits hdata).symm
  · rintro rfl
    refine BitVec.eq_of_toNat_eq ?_
    rw [chipU32, BitVec.toNat_ofNat, Nat.mod_eq_of_lt hlt]
    exact hvalue rate.isLt

/-- A rate arrives as it was sent if the host is little-endian or its bytes are
the same in both orders. -/
theorem chipU32_u32Bytes (host : Endian) (rate : BitVec 32) :
    chipU32 (u32Bytes host rate) = rate ↔
      host = .little ∨ u32Bytes .big rate = u32Bytes .little rate := by
  rw [chipU32_eq_iff (u32Bytes_valid host rate)]
  cases host with
  | little => exact ⟨fun _ => .inl rfl, fun _ => rfl⟩
  | big => exact ⟨.inr, fun h => h.resolve_left nofun⟩

/-- A request returns 0 exactly when its transfer succeeded. -/
theorem cp2102SetMdmhndshk_ret : (cp2102SetMdmhndshk o n val chip).1 = 0 ↔ o = .done := by
  rw [← ret_eq_zero]
  cases o with
  | done => exact Iff.rfl
  | failed status delivered => exact Iff.rfl

theorem cp2102SetMdmhndshk_done :
    (cp2102SetMdmhndshk .done n val chip).2 =
      { chip with
        dtr := if val.getLsbD 8 then val.getLsbD 0 else chip.dtr
        rts := if val.getLsbD 9 then val.getLsbD 1 else chip.rts } := rfl

theorem cp2102GetMdmstat_ok {msr : BitVec 8} (h : cp2102GetMdmstat o n chip = .ok msr) :
    msr = chip.mdmsts := by
  cases o with
  | done => exact (Except.ok.inj h).symm
  | failed status delivered => cases h

end Spec
end LinuxDeviceDrivers.Cp2102If
