import LinuxDeviceDrivers.Cp2102Session

/-!
# The line control of the CP2102 driver

`serial_cp2102_set_termios` builds the line control in a local variable that it
never sets: every assignment adds bits to what lies on the stack. The request
asks for 8 data bits, 1 stop bit and the parity of the termios if and only if
nothing else lies there.
-/
namespace LinuxDeviceDrivers.UsbTtlCp2102
open Cp2102If

/-- The line control as AN571 lays it out: bits 15-8, 7-4 and 3-0. -/
structure LineControl where
  wordLength : BitVec 8
  parity : BitVec 4
  stopBits : BitVec 4
deriving DecidableEq, Repr

def LineControl.word (l : LineControl) : BitVec 16 := l.wordLength ++ l.parity ++ l.stopBits

def lineControl (lctrl : BitVec 16) : LineControl :=
  ⟨lctrl.extractLsb' 8 8, lctrl.extractLsb' 4 4, lctrl.extractLsb' 0 4⟩

theorem lineControl_word (l : LineControl) : lineControl l.word = l := by
  obtain ⟨wordLength, parity, stopBits⟩ := l
  have hlength : (wordLength ++ parity ++ stopBits).extractLsb' 8 8 = wordLength := by
    ext i hi
    grind
  have hparity : (wordLength ++ parity ++ stopBits).extractLsb' 4 4 = parity := by
    ext i hi
    grind
  have hstop : (wordLength ++ parity ++ stopBits).extractLsb' 0 4 = stopBits := by
    ext i hi
    grind
  simp only [lineControl, LineControl.word, hlength, hparity, hstop]

theorem word_lineControl (lctrl : BitVec 16) : (lineControl lctrl).word = lctrl := by
  ext i hi
  simp only [lineControl, LineControl.word]
  grind

/-- 8 data bits, 1 stop bit and no, odd (1) or even (2) parity. -/
def requested (cCflag : BitVec 32) : LineControl where
  wordLength := 8
  parity := if has cCflag PARENB then if has cCflag PARODD then 1 else 2 else 0
  stopBits := 0

theorem requested_congr {c d : BitVec 32} (henb : has c PARENB = has d PARENB)
    (hodd : has c PARODD = has d PARODD) : requested c = requested d := by
  simp only [requested, henb, hodd]

theorem buildLctrl_eq (lctrl : BitVec 16) (cCflag : BitVec 32) :
    buildLctrl lctrl cCflag = lctrl ||| (requested cCflag).word := by
  have hzero : (⟨8, 0, 0⟩ : LineControl).word = STOP_1_MASK ||| DATA_8_MASK := by decide
  have hodd : (⟨8, 1, 0⟩ : LineControl).word = PARITY_ODD_MASK ||| STOP_1_MASK ||| DATA_8_MASK := by
    decide
  have heven : (⟨8, 2, 0⟩ : LineControl).word =
      PARITY_EVEN_MASK ||| STOP_1_MASK ||| DATA_8_MASK := by decide
  unfold buildLctrl requested
  split_ifs
  · rw [hodd]
    simp only [BitVec.or_assoc]
  · rw [heven]
    simp only [BitVec.or_assoc]
  · rw [hzero]
    simp only [BitVec.or_assoc]

/-- Or-ing `x` to `w` changes nothing if and only if `x` has no other bits. -/
theorem or_eq_right_iff_andNot {n : ℕ} (x w : BitVec n) : x ||| w = w ↔ x &&& ~~~w = 0 := by
  constructor
  · intro h
    ext i hi
    have hi' := congrArg (fun y => y[i]) h
    grind
  · intro h
    ext i hi
    have hi' := congrArg (fun y => y[i]) h
    grind

def lctrlSent (s : Session) : Option (BitVec 16) :=
  s.sent.head?.bind fun x => if x.msg.request = SET_LINE_CTL_REQ then some x.msg.value else none

section LineControl
variable {host : Endian} {s s₁ s₂ : Session} {call call₁ call₂ : SetTermiosCall}

theorem setBaudRate_cCflag (host : Endian) (s : Session) (o : UsbOutcome) :
    (setBaudRate host s o).termios.cCflag = s.termios.cCflag := by
  simp only [setBaudRate]
  split_ifs <;> rfl

/-- A call that reaches the line-control step adds the requested bits to the old ones. -/
theorem lctrlSent_setTermios (h : call.unchanged = false) :
    lctrlSent (serialCp2102SetTermios host s call) =
      some (call.lctrl ||| (requested call.termios.cCflag).word) := by
  have hflag := setBaudRate_cCflag host { s with termios := call.termios } call.setBaud
  simp only [serialCp2102SetTermios, h]
  rw [← buildLctrl_eq, ← hflag]
  rfl

/-- Nothing lies on the stack that the termios does not ask for. -/
def SetTermiosCall.Clean (call : SetTermiosCall) : Prop :=
  call.lctrl &&& ~~~(requested call.termios.cCflag).word = 0

/-- Two calls send the same line control, and it is what the termios asks for. -/
def SendRequested (host : Endian) (s₁ s₂ : Session) (call₁ call₂ : SetTermiosCall) : Prop :=
  ∃ lctrl, lctrlSent (serialCp2102SetTermios host s₁ call₁) = some lctrl ∧
    lctrlSent (serialCp2102SetTermios host s₂ call₂) = some lctrl ∧
    lineControl lctrl = requested call₁.termios.cCflag

/-- Two calls with the same parity flags that reach the line-control step. -/
theorem sendRequested_iff_clean (h₁ : call₁.unchanged = false) (h₂ : call₂.unchanged = false)
    (henb : has call₁.termios.cCflag PARENB = has call₂.termios.cCflag PARENB)
    (hodd : has call₁.termios.cCflag PARODD = has call₂.termios.cCflag PARODD) :
    SendRequested host s₁ s₂ call₁ call₂ ↔ call₁.Clean ∧ call₂.Clean := by
  have hsame := requested_congr henb hodd
  unfold SendRequested SetTermiosCall.Clean
  rw [lctrlSent_setTermios h₁, lctrlSent_setTermios h₂, ← or_eq_right_iff_andNot,
    ← or_eq_right_iff_andNot, ← hsame]
  constructor
  · rintro ⟨lctrl, hsent₁, hsent₂, hasks⟩
    have hword : (requested call₁.termios.cCflag).word = lctrl := by
      rw [← hasks, word_lineControl]
    rw [Option.some.injEq, ← hword] at hsent₁ hsent₂
    exact ⟨hsent₁, hsent₂⟩
  · rintro ⟨hclean₁, hclean₂⟩
    exact ⟨_, congrArg some hclean₁, congrArg some hclean₂, lineControl_word _⟩

end LineControl

def evenParity (lctrl : BitVec 16) : SetTermiosCall :=
  ⟨⟨DEFAULT_BAUD_RATE, PARENB⟩, none, lctrl, .done, .done⟩

/-- Two calls that find on the stack what an earlier one has left there, or nothing. -/
theorem sendRequested_evenParity :
    SendRequested .little newPort newPort (evenParity 0x0820) (evenParity 0) ↔
      (evenParity 0x0820).Clean ∧ (evenParity 0).Clean :=
  sendRequested_iff_clean rfl rfl rfl rfl

/-- On a stack full of ones both calls ask for word length 255. -/
theorem not_sendRequested_ones :
    ¬∀ (host : Endian) (s₁ s₂ : Session) (call₁ call₂ : SetTermiosCall),
      call₁.unchanged = false → call₂.unchanged = false →
      has call₁.termios.cCflag PARENB = has call₂.termios.cCflag PARENB →
      has call₁.termios.cCflag PARODD = has call₂.termios.cCflag PARODD →
      SendRequested host s₁ s₂ call₁ call₂ := by
  intro h
  obtain ⟨lctrl, hsent, _, hasks⟩ :=
    h .little newPort newPort (evenParity 0xFFFF) (evenParity 0xFFFF) rfl rfl rfl rfl
  have hones : lctrl = 0xFFFF := (Option.some.inj hsent).symm
  rw [hones] at hasks
  exact absurd hasks (by decide)

end LinuxDeviceDrivers.UsbTtlCp2102
