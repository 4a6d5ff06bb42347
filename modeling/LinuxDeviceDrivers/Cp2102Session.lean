import LinuxDeviceDrivers.UsbTtlCp2102

/-!
# Sessions of the CP2102 serial driver

usb-serial opens a closed port and makes the other calls only until it closes
the port again. Every request of a call is kept in a log, newest first, with the
way its transfer ended; what the chip was told before a request is read off the
log below it.

`serial_cp2102_open` overwrites the result of `cp2102_enableif` by that of
`usb_serial_generic_open`. `serial_cp2102_set_termios` falls back to
`DEFAULT_BAUD_RATE` in the termios only, not on the chip.
-/
namespace LinuxDeviceDrivers.UsbTtlCp2102
open KernelPrimitives TransitionSystem Cp2102If

def DEFAULT_BAUD_RATE : BitVec 32 := 9600
def PARITY_ODD_MASK : BitVec 16 := 0x0010
def PARITY_EVEN_MASK : BitVec 16 := 0x0020
def STOP_1_MASK : BitVec 16 := 0x0000
def DATA_8_MASK : BitVec 16 := 0x0800

def CREAD : BitVec 32 := 0x080
def PARENB : BitVec 32 := 0x100
def PARODD : BitVec 32 := 0x200
def HUPCL : BitVec 32 := 0x400
def CLOCAL : BitVec 32 := 0x800

/-- `struct ktermios` as the driver uses it: the baud rate it encodes and the
other bits of `c_cflag`. -/
structure Ktermios where
  baud : BitVec 32
  cCflag : BitVec 32
deriving DecidableEq, Repr

def ttyTermiosHwChange (a b : Ktermios) : Bool :=
  a.baud != b.baud || has (a.cCflag ^^^ b.cCflag) (~~~(HUPCL ||| CREAD ||| CLOCAL))

/-- The port with its tty and chip. `chipBaud` is the rate the chip runs at and
`sent` the log of the requests. -/
structure Session where
  dev : State
  termios : Ktermios
  chipBaud : BitVec 32
  opened : Bool
  sent : List ControlTransfer
deriving DecidableEq, Repr

/-- A request goes into the log, and the chip takes over a baud rate it has seen. -/
def Session.exchange (s : Session) (t : ControlTransfer) : Session :=
  { s with
    sent := t :: s.sent
    chipBaud := if t.msg.request = SET_BAUDRATE_REQ ∧ t.outcome.arrived then chipU32 t.data
      else s.chipBaud }

structure OpenCall where
  enable : UsbOutcome
  genericOpen : Except Errno Unit
  disable : UsbOutcome

/-- The tty core has put the requested `termios` into the tty before the call.
`lctrl` is what lies on the stack in the place of the local variable. -/
structure SetTermiosCall where
  termios : Ktermios
  oldTermios : Option Ktermios
  lctrl : BitVec 16
  setBaud : UsbOutcome
  setLctrl : UsbOutcome

inductive Call where
  | openPort (call : OpenCall)
  | close (disable : UsbOutcome)
  | setTermios (call : SetTermiosCall)
  | tiocmset (call : TiocmsetCall)
  | tiocmget (o : UsbOutcome)

def serialCp2102Open (s : Session) (call : OpenCall) : ℤ × Session :=
  let s := s.exchange (cp2102Enableif call.enable s.dev.prvDev.bInterfaceNumber).2
  match call.genericOpen with
  | .error err =>
      (err.val, s.exchange (cp2102Disableif call.disable s.dev.prvDev.bInterfaceNumber).2)
  | .ok () => (0, s)

def serialCp2102Close (s : Session) (disable : UsbOutcome) : Session :=
  s.exchange (cp2102Disableif disable s.dev.prvDev.bInterfaceNumber).2

/-- Nothing has changed and the call returns at once. -/
def SetTermiosCall.unchanged (call : SetTermiosCall) : Bool :=
  call.oldTermios.any fun old => !ttyTermiosHwChange call.termios old

def setBaudRate (host : Endian) (s : Session) (o : UsbOutcome) : Session :=
  let baudrate := s.termios.baud
  if 0 < baudrate then
    let r := cp2102SetBaud host baudrate o s.dev.prvDev.bInterfaceNumber
    { s.exchange r.2 with
      termios := { s.termios with baud := if r.1 ≠ 0 then DEFAULT_BAUD_RATE else baudrate } }
  else s

def buildLctrl (lctrl : BitVec 16) (cCflag : BitVec 32) : BitVec 16 :=
  let lctrl :=
    if has cCflag PARENB then
      if has cCflag PARODD then lctrl ||| PARITY_ODD_MASK else lctrl ||| PARITY_EVEN_MASK
    else lctrl
  lctrl ||| STOP_1_MASK ||| DATA_8_MASK

def serialCp2102SetTermios (host : Endian) (s : Session) (call : SetTermiosCall) : Session :=
  let s := { s with termios := call.termios }
  if call.unchanged then s
  else
    let s := setBaudRate host s call.setBaud
    let lctrl := buildLctrl call.lctrl s.termios.cCflag
    s.exchange (cp2102SetLctrl lctrl call.setLctrl s.dev.prvDev.bInterfaceNumber).2

/-- The two modem calls, with the request they send. -/
def sessionTiocmset (s : Session) (call : TiocmsetCall) : Session :=
  let dev := (serialCp2102Tiocmset s.dev call).2
  { s.exchange ⟨⟨SET_MHS_REQ, 0x41, dev.prvDev.mcr, dev.prvDev.bInterfaceNumber.setWidth 16⟩, [],
      call.outcome⟩ with dev := dev }

def sessionTiocmget (s : Session) (o : UsbOutcome) : Session :=
  let dev := (serialCp2102Tiocmget s.dev o).2
  { s.exchange ⟨⟨GET_MDMSTS_REQ, 0xC1, 0, dev.prvDev.bInterfaceNumber.setWidth 16⟩, [], o⟩ with
    dev := dev }

def sessionNext (host : Endian) (s : Session) : Call → Option Session
  | .openPort call =>
      if s.opened then none
      else
        let r := serialCp2102Open s call
        some { r.2 with opened := r.1 = 0 }
  | .close disable =>
      if s.opened then some { serialCp2102Close s disable with opened := false } else none
  | .setTermios call => if s.opened then some (serialCp2102SetTermios host s call) else none
  | .tiocmset call => if s.opened then some (sessionTiocmset s call) else none
  | .tiocmget o => if s.opened then some (sessionTiocmget s o) else none

/-- All sequences of calls on a port that nobody has used yet. -/
def sessions (host : Endian) : System Session Call where
  start s := s.opened = false ∧ s.sent = []
  next := sessionNext host

/-- The last successful `IFC_ENABLE` request had the value 1. -/
def ifcEnabled : List ControlTransfer → Bool
  | [] => false
  | t :: earlier =>
      if t.msg.request = IFC_ENABLE_REQ ∧ t.outcome = .done then t.msg.value == wValue_IFC_ENABLE
      else ifcEnabled earlier

/-- The requests that AN571 allows only on an enabled interface. -/
def governed (t : ControlTransfer) : Prop :=
  t.msg.request ∈ [SET_LINE_CTL_REQ, SET_BAUDRATE_REQ, SET_MHS_REQ, GET_MDMSTS_REQ]

theorem governed_setBaud {t : ControlTransfer} (h : t.msg.request = SET_BAUDRATE_REQ) :
    governed t := by
  rw [governed, h]
  decide

def Obeys : List ControlTransfer → Prop
  | [] => True
  | t :: earlier => (governed t → ifcEnabled earlier) ∧ Obeys earlier

/-- The requests so far obey the rule, and an open that has returned 0 has left
the interface enabled. -/
structure EnableProtocol (s : Session) : Prop where
  obeys : Obeys s.sent
  enabled : s.opened → ifcEnabled s.sent

/-- An open that succeeds enables the interface, or finds it still enabled. -/
def OpensEnabled (s : Session) (a : Call) : Prop :=
  ∀ call, a = .openPort call → s.opened = false → call.genericOpen = .ok () →
    call.enable = .done ∨ ifcEnabled s.sent

section Protocol
variable {host : Endian} {s t : Session} {x : ControlTransfer} {a : Call}

theorem obeys_exchange_ifc (h : Obeys s.sent) (hx : x.msg.request = IFC_ENABLE_REQ) :
    Obeys (s.exchange x).sent := by
  refine ⟨fun hg => ?_, h⟩
  rw [governed, hx] at hg
  exact absurd hg (by decide)

/-- The log obeys the rule and the interface is enabled. -/
def Ready (s : Session) : Prop := Obeys s.sent ∧ ifcEnabled s.sent

/-- On an enabled interface every other request keeps to the rule. -/
theorem Ready.exchange (h : Ready s) (hx : x.msg.request ≠ IFC_ENABLE_REQ) :
    Ready (s.exchange x) := by
  refine ⟨⟨fun _ => h.2, h.1⟩, ?_⟩
  show (if _ then _ else _) = true
  rw [if_neg fun hifc => hx hifc.1]
  exact h.2

theorem Ready.setBaudRate (h : Ready s) (o : UsbOutcome) :
    Ready (UsbTtlCp2102.setBaudRate host s o) := by
  unfold UsbTtlCp2102.setBaudRate
  by_cases hrate : 0 < s.termios.baud
  · simp only [if_pos hrate]
    exact Ready.exchange h (show SET_BAUDRATE_REQ ≠ IFC_ENABLE_REQ by decide)
  · simp only [if_neg hrate]
    exact h

theorem Ready.setTermios (h : Ready s) (call : SetTermiosCall) :
    Ready (serialCp2102SetTermios host s call) := by
  have htermios : Ready { s with termios := call.termios } := h
  simp only [serialCp2102SetTermios]
  split_ifs
  · exact htermios
  · exact (htermios.setBaudRate _).exchange (show SET_LINE_CTL_REQ ≠ IFC_ENABLE_REQ by decide)

theorem obeys_open (h : Obeys s.sent) (call : OpenCall) : Obeys (serialCp2102Open s call).2.sent := by
  have henable :
      Obeys (s.exchange (cp2102Enableif call.enable s.dev.prvDev.bInterfaceNumber).2).sent :=
    obeys_exchange_ifc h rfl
  simp only [serialCp2102Open]
  split
  · exact obeys_exchange_ifc henable rfl
  · exact henable

/-- After an open that returns 0 the interface is enabled if the request has
enabled it or an earlier one has. -/
theorem enabled_open {call : OpenCall} (hgen : call.genericOpen = .ok ()) :
    (serialCp2102Open s call).1 = 0 ∧
      (ifcEnabled (serialCp2102Open s call).2.sent ↔
        call.enable = .done ∨ ifcEnabled s.sent = true) := by
  rw [serialCp2102Open, hgen]
  refine ⟨rfl, ?_⟩
  show (if _ then _ else _) = true ↔ _
  by_cases hdone : call.enable = .done
  · rw [if_pos ⟨rfl, hdone⟩]
    exact ⟨fun _ => .inl hdone, fun _ => rfl⟩
  · rw [if_neg fun hifc => hdone hifc.2]
    exact ⟨.inr, fun h => h.resolve_left hdone⟩

theorem open_ret_ne {call : OpenCall} {err : Errno} (hgen : call.genericOpen = .error err) :
    (serialCp2102Open s call).1 ≠ 0 := by
  rw [serialCp2102Open, hgen]
  exact Int.ne_of_lt err.neg

theorem EnableProtocol.step (h : EnableProtocol s) (hok : OpensEnabled s a)
    (hn : (sessions host).next s a = some t) : EnableProtocol t := by
  simp only [sessions, sessionNext] at hn
  cases a with
  | openPort call =>
      split_ifs at hn with hopen
      cases hn
      refine ⟨obeys_open h.obeys call, fun hret => ?_⟩
      have hzero : (serialCp2102Open s call).1 = 0 := of_decide_eq_true hret
      cases hgen : call.genericOpen with
      | error err => exact absurd hzero (open_ret_ne hgen)
      | ok =>
          exact (enabled_open hgen).2.mpr (hok call rfl (Bool.eq_false_iff.mpr hopen) hgen)
  | close disable =>
      split_ifs at hn with hopen
      cases hn
      exact ⟨obeys_exchange_ifc h.obeys rfl, nofun⟩
  | setTermios call =>
      split_ifs at hn with hopen
      cases hn
      have hready : Ready (serialCp2102SetTermios host s call) :=
        Ready.setTermios ⟨h.obeys, h.enabled hopen⟩ call
      exact ⟨hready.1, fun _ => hready.2⟩
  | tiocmset call =>
      split_ifs at hn with hopen
      cases hn
      have hready : Ready (sessionTiocmset s call) :=
        Ready.exchange ⟨h.obeys, h.enabled hopen⟩ (show SET_MHS_REQ ≠ IFC_ENABLE_REQ by decide)
      exact ⟨hready.1, fun _ => hready.2⟩
  | tiocmget o =>
      split_ifs at hn with hopen
      cases hn
      have hready : Ready (sessionTiocmget s o) :=
        Ready.exchange ⟨h.obeys, h.enabled hopen⟩ (show GET_MDMSTS_REQ ≠ IFC_ENABLE_REQ by decide)
      exact ⟨hready.1, fun _ => hready.2⟩

theorem enableProtocol (h : (sessions host).ReachableWhen OpensEnabled s) : EnableProtocol s := by
  refine h.invariant ?_ fun s a t _ hs hok hn => hs.step hok hn
  rintro s ⟨hclosed, hsent⟩
  exact ⟨hsent ▸ trivial, fun hopen => absurd (hclosed.symm.trans hopen) nofun⟩

theorem not_enableProtocol_of_open (hok : ¬OpensEnabled s a) :
    ∃ t, (sessions host).next s a = some t ∧ ¬EnableProtocol t := by
  simp only [OpensEnabled, not_forall, not_or] at hok
  obtain ⟨call, rfl, hclosed, hgen, hdone, hoff⟩ := hok
  obtain ⟨hret, henabled⟩ := enabled_open (s := s) hgen
  refine ⟨{ (serialCp2102Open s call).2 with opened := (serialCp2102Open s call).1 = 0 }, ?_, ?_⟩
  · simp only [sessions, sessionNext, hclosed, Bool.false_eq_true, if_false]
  · intro ht
    exact absurd (henabled.mp (ht.enabled (decide_eq_true hret))) (not_or.mpr ⟨hdone, hoff⟩)

/-- Over any number of opens and closes and under any failures, the requests
obey the rule of AN571 exactly when every successful open has enabled the
interface or found it enabled. -/
theorem along_enableProtocol_iff (host : Endian) (s : Session) (hs : (sessions host).start s)
    (calls : List Call) :
    (sessions host).Along EnableProtocol s calls ↔ (sessions host).Meets OpensEnabled s calls :=
  System.along_iff_meets (fun _ => enableProtocol) (fun _ _ _ => not_enableProtocol_of_open)
    (.start hs) calls

end Protocol

/-- A new port at 9600 baud. -/
def newPort : Session where
  dev := ⟨⟨0, 0, 0⟩, ⟨false, false, false, false, false, false, false, false⟩⟩
  termios := ⟨DEFAULT_BAUD_RATE, 0⟩
  chipBaud := DEFAULT_BAUD_RATE
  opened := false
  sent := []

/-- A port is opened, set to 115200 baud and closed. The request that enables
the interface ends with `enable`. -/
def oneSession (enable : UsbOutcome) : List Call :=
  [.openPort ⟨enable, .ok (), .done⟩, .setTermios ⟨⟨115200, 0⟩, none, 0, .done, .done⟩, .close .done]

theorem along_enableProtocol_iff_oneSession :
    (sessions .little).Along EnableProtocol newPort (oneSession .done) := by
  refine (along_enableProtocol_iff .little newPort ⟨rfl, rfl⟩ _).mpr ?_
  refine System.meets_of_forall (fun a ha s call hcall _ _ => ?_) newPort
  subst hcall
  simp only [oneSession, List.mem_cons, Call.openPort.injEq, reduceCtorEq, List.not_mem_nil,
    or_false] at ha
  exact .inl (by rw [ha])

/-- The request to enable the interface fails and the open succeeds: the line is
set up on a disabled interface. -/
theorem not_enableProtocol_failed :
    ¬∀ (host : Endian) (s t : Session) (calls : List Call), (sessions host).start s →
      (sessions host).run s calls = some t → EnableProtocol t := by
  intro h
  obtain ⟨t, hrun, hsent⟩ : ∃ t,
      (sessions .little).run newPort (oneSession (.failed ⟨-ENOMEM, neg_ENOMEM⟩ false)) = some t ∧
        ¬Obeys t.sent := by
    refine ⟨_, rfl, fun hobeys => ?_⟩
    -- the baud rate is sent third from the end, below the line control and the close
    have hbaud : false = true := hobeys.2.2.1 (governed_setBaud rfl)
    cases hbaud
  exact hsent (h _ _ _ _ ⟨rfl, rfl⟩ hrun).obeys

/-! ## The baud rate -/

/-- The call sends a `SET_BAUDRATE` request. -/
def SetTermiosCall.attempts (call : SetTermiosCall) : Prop :=
  call.unchanged = false ∧ 0 < call.termios.baud

/-- A call that has sent one leaves the rate of the chip in the termios. -/
def BaudAgrees (host : Endian) (s : Session) (a : Call) : Prop :=
  ∀ call, a = .setTermios call → call.attempts →
    (serialCp2102SetTermios host s call).termios.baud =
      (serialCp2102SetTermios host s call).chipBaud

/-- The request succeeds and the chip reads the rate that was sent, or it fails
and the chip runs at the default rate all the same. -/
def RateTaken (host : Endian) (s : Session) (call : SetTermiosCall) : Prop :=
  match call.setBaud with
  | .done => host = .little ∨ u32Bytes .big call.termios.baud = u32Bytes .little call.termios.baud
  | .failed _ true => u32Bytes host call.termios.baud = u32Bytes .little DEFAULT_BAUD_RATE
  | .failed _ false => s.chipBaud = DEFAULT_BAUD_RATE

def RatesTaken (host : Endian) (s : Session) (a : Call) : Prop :=
  ∀ call, a = .setTermios call → call.attempts → RateTaken host s call

section Baud
variable {host : Endian} {s : Session} {call : SetTermiosCall}

/-- Only a `SET_BAUDRATE` request changes the rate of the chip. -/
theorem chipBaud_other {x : ControlTransfer} (hx : x.msg.request ≠ SET_BAUDRATE_REQ) :
    (s.exchange x).chipBaud = s.chipBaud :=
  if_neg fun h => hx h.1

theorem setTermios_baud (host : Endian) (s : Session) (h : call.attempts) :
    (serialCp2102SetTermios host s call).termios.baud =
        (if call.setBaud.ret ≠ 0 then DEFAULT_BAUD_RATE else call.termios.baud) ∧
      (serialCp2102SetTermios host s call).chipBaud =
        (if call.setBaud.arrived then chipU32 (u32Bytes host call.termios.baud)
          else s.chipBaud) := by
  obtain ⟨hchanged, hrate⟩ := h
  simp only [serialCp2102SetTermios, hchanged, Bool.false_eq_true, if_false, setBaudRate, hrate,
    if_true]
  refine ⟨rfl, ?_⟩
  rw [chipBaud_other (show SET_LINE_CTL_REQ ≠ SET_BAUDRATE_REQ by decide)]
  exact if_congr (and_iff_right rfl) rfl rfl

theorem baudAgrees_iff (h : call.attempts) :
    (serialCp2102SetTermios host s call).termios.baud =
      (serialCp2102SetTermios host s call).chipBaud ↔ RateTaken host s call := by
  obtain ⟨htermios, hchip⟩ := setTermios_baud host s h
  rw [htermios, hchip, RateTaken]
  cases houtcome : call.setBaud with
  | done => exact eq_comm.trans (chipU32_u32Bytes host call.termios.baud)
  | failed status delivered =>
      have hfails : (UsbOutcome.failed status delivered).ret ≠ 0 := by
        rw [Ne, ret_eq_zero]
        nofun
      rw [if_pos hfails]
      cases delivered with
      | true => exact eq_comm.trans (chipU32_eq_iff (u32Bytes_valid host _) DEFAULT_BAUD_RATE)
      | false => exact eq_comm

/-- In any sequence of calls from any state, every attempt to set the baud rate
leaves termios and chip agreeing exactly when each rate is taken. -/
theorem baudAgrees_iff_ratesTaken (host : Endian) (s : Session) (calls : List Call) :
    (sessions host).Meets (BaudAgrees host) s calls ↔
      (sessions host).Meets (RatesTaken host) s calls := by
  refine System.meets_congr (fun s a => ?_) s calls
  exact forall_congr' fun call => imp_congr_right fun _ => imp_congr_right baudAgrees_iff

end Baud

/-- The request fails before the chip has seen it, and the chip stays at 115200
baud while the termios falls back to 9600. -/
theorem not_baudAgrees_failed :
    ¬∀ (host : Endian) (s : Session) (calls : List Call),
      (sessions host).Meets (BaudAgrees host) s calls := by
  intro h
  have hcall := (h .little { newPort with chipBaud := 115200, opened := true }
    [.setTermios ⟨⟨57600, 0⟩, none, 0, .failed ⟨-ENOMEM, neg_ENOMEM⟩ false, .done⟩]).1
  exact absurd (hcall _ rfl ⟨rfl, by decide⟩) (by decide)

end LinuxDeviceDrivers.UsbTtlCp2102
