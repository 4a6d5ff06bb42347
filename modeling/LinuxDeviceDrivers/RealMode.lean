import LinuxDeviceDrivers.FlatMemory

/-!
# A real-mode processor

Four instructions of the 16-bit x86 in their machine encoding, and a processor
that fetches them from a memory of bytes. Nothing keeps a program from storing
into its own code, so what is fetched is decoded anew in each step. A step that
meets another instruction, or stores outside of the memory, has no result.

The segments have fixed bases. `runToOut` runs the processor up to the next
output, as far as its fuel allows.
-/
namespace LinuxDeviceDrivers.RealMode
open FlatMemory

inductive Instr where
  /-- `mov %ax, addr` -/
  | movMem (addr : BitVec 16)
  /-- `out %ax, $port` -/
  | outImm (port : UInt8)
  /-- `inc %ax` -/
  | incAx
  /-- `jmp`, with the distance from the end of the instruction. -/
  | jmpShort (disp : BitVec 8)
deriving DecidableEq

def Instr.encode : Instr → List UInt8
  | .movMem addr => 0xA3 :: ByteOrder.little.encode 2 addr.toNat
  | .outImm port => [0xE7, port]
  | .incAx => [0x40]
  | .jmpShort disp => [0xEB, .ofBitVec disp]

def Instr.size : Instr → ℕ
  | .movMem _ => 3
  | .outImm _ => 2
  | .incAx => 1
  | .jmpShort _ => 2

/-- The instruction that stands at the front of what is fetched. -/
def decode (fetch : ℕ → UInt8) : Option Instr :=
  if fetch 0 = 0xA3 then some (.movMem (.ofNat 16 (ByteOrder.little.decode [fetch 1, fetch 2])))
  else if fetch 0 = 0xE7 then some (.outImm (fetch 1))
  else if fetch 0 = 0x40 then some .incAx
  else if fetch 0 = 0xEB then some (.jmpShort (fetch 1).toBitVec)
  else none

def assemble (prog : List Instr) : List UInt8 := prog.flatMap Instr.encode

section Encoding
variable {fetch mem : ℕ → UInt8} {i : Instr} {prog : List Instr} {a : ℕ}

theorem word_lt (x : BitVec 16) : x.toNat < 256 ^ 2 :=
  Nat.lt_of_lt_of_le x.isLt (by decide)

theorem encode_length (i : Instr) : i.encode.length = i.size := by
  cases i with
  | movMem addr =>
      have hlength := FlatMemory.encode_length .little (n := 2) (word_lt addr)
      simp only [Instr.encode, Instr.size, List.length_cons, hlength]
  | outImm port => rfl
  | incAx => rfl
  | jmpShort disp => rfl

theorem load_three (fetch : ℕ → UInt8) : load fetch 0 3 = [fetch 0, fetch 1, fetch 2] := rfl

/-- An instruction is decoded from its encoding and from nothing else. -/
theorem decode_eq_some_iff : decode fetch = some i ↔ load fetch 0 i.size = i.encode := by
  cases i with
  | movMem addr =>
      have hword : [fetch 1, fetch 2] = ByteOrder.little.encode 2 addr.toNat ↔
          ByteOrder.little.decode [fetch 1, fetch 2] = addr.toNat :=
        eq_comm.trans (@encode_eq_iff .little [fetch 1, fetch 2] _ (word_lt addr))
      have haddr : BitVec.ofNat 16 (ByteOrder.little.decode [fetch 1, fetch 2]) = addr ↔
          ByteOrder.little.decode [fetch 1, fetch 2] = addr.toNat := by
        have hlt := decode_lt .little [fetch 1, fetch 2]
        rw [List.length_cons, List.length_singleton] at hlt
        rw [← BitVec.toNat_inj, BitVec.toNat_ofNat, Nat.mod_eq_of_lt (Nat.lt_of_lt_of_le hlt (by decide))]
      rw [Instr.size, load_three, Instr.encode, List.cons.injEq, hword, ← haddr, decode]
      split_ifs with h
      · simp [h]
      all_goals simp [h]
  | outImm port =>
      show decode fetch = _ ↔ [fetch 0, fetch 1] = _
      rw [decode]
      split_ifs with h1 h2
      all_goals simp_all [Instr.encode]
  | incAx =>
      show decode fetch = _ ↔ [fetch 0] = _
      rw [decode]
      split_ifs with h1 h2 h3
      all_goals simp_all [Instr.encode]
  | jmpShort disp =>
      have hdisp : fetch 1 = .ofBitVec disp ↔ (fetch 1).toBitVec = disp := by
        constructor
        · intro h
          rw [h]
        · intro h
          rw [← h]
      show decode fetch = _ ↔ [fetch 0, fetch 1] = _
      rw [decode]
      split_ifs with h1 h2 h3 h4
      all_goals simp_all [Instr.encode]

/-- The program stands in memory from address `a` on. -/
def Holds (mem : ℕ → UInt8) (a : ℕ) (prog : List Instr) : Prop :=
  load mem a (assemble prog).length = assemble prog

theorem load_shift (mem : ℕ → UInt8) (a n : ℕ) : load (fun j => mem (a + j)) 0 n = load mem a n := by
  simp only [load, Nat.zero_add]

theorem Holds.split (h : Holds mem a (i :: prog)) :
    decode (fun j => mem (a + j)) = some i ∧ Holds mem (a + i.size) prog := by
  unfold Holds assemble at h
  rw [List.flatMap_cons, List.length_append, load_append, encode_length] at h
  obtain ⟨hfirst, hrest⟩ := List.append_inj h (by rw [load_length, encode_length])
  refine ⟨decode_eq_some_iff.mpr ?_, hrest⟩
  rw [load_shift]
  exact hfirst

/-- A program is not disturbed by what changes elsewhere. -/
theorem Holds.congr {mem' : ℕ → UInt8} (h : Holds mem a prog)
    (hsame : ∀ j, a ≤ j → j < a + (assemble prog).length → mem j = mem' j) :
    Holds mem' a prog := by
  rw [Holds, ← load_congr hsame]
  exact h

end Encoding

/-- Where the segments of code and data begin, and the size of the memory. -/
structure Layout where
  cs : ℕ
  ds : ℕ
  size : ℕ

structure Machine where
  ip : BitVec 16
  ax : BitVec 16
  mem : ℕ → UInt8

/-- An output: the port and the word. -/
structure Out where
  port : UInt8
  value : BitVec 16
deriving DecidableEq

section Machine
variable (l : Layout)

def Machine.fetch (m : Machine) : ℕ → UInt8 := fun j => m.mem (l.cs + m.ip.toNat + j)

def Machine.execute (m : Machine) : Instr → Option (Machine × Option Out)
  | .movMem addr =>
      if l.ds + addr.toNat + 2 ≤ l.size then
        some ({ m with
          ip := m.ip + 3
          mem := store m.mem (l.ds + addr.toNat) (ByteOrder.little.encode 2 m.ax.toNat) }, none)
      else none
  | .outImm port => some ({ m with ip := m.ip + 2 }, some ⟨port, m.ax⟩)
  | .incAx => some ({ m with ip := m.ip + 1, ax := m.ax + 1 }, none)
  | .jmpShort disp => some ({ m with ip := m.ip + 2 + disp.signExtend 16 }, none)

def Machine.step (m : Machine) : Option (Machine × Option Out) := (decode (m.fetch l)).bind (m.execute l)

/-- The run up to the next output. -/
def runToOut : ℕ → Machine → Option (Machine × Out)
  | 0, _ => none
  | fuel + 1, m =>
      match m.step l with
      | none => none
      | some (m, some out) => some (m, out)
      | some (m, none) => runToOut fuel m

variable {l} {m m' : Machine} {i : Instr} {fuel : ℕ}

theorem step_of_holds {p : List Instr} (h : Holds m.mem (l.cs + m.ip.toNat) (i :: p)) :
    m.step l = m.execute l i := by
  have hdecode : decode (m.fetch l) = some i := h.split.1
  rw [Machine.step, hdecode]
  rfl

theorem runToOut_step (h : m.step l = some (m', none)) :
    runToOut l (fuel + 1) m = runToOut l fuel m' := by
  rw [runToOut, h]

theorem runToOut_out {out : Out} (h : m.step l = some (m', some out)) :
    runToOut l (fuel + 1) m = some (m', out) := by
  rw [runToOut, h]

end Machine

end LinuxDeviceDrivers.RealMode
