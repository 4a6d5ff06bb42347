import LinuxDeviceDrivers.CStrings
import LinuxDeviceDrivers.HostKvmGuest
import LinuxDeviceDrivers.RealMode

/-!
# The KVM host and its guest

The guest of `guest.S` in the machine that `vm_setup` and `vcpu_reg` have set
up, and the loop of `run_and_emulate` on top of it. `KVM_RUN` runs the guest up
to its next output and leaves the value in the page that the host prints it
from.

The first instruction of the guest does not clear `%ax`; it stores `%ax` over
itself. The counter starts at 0 because `vcpu_reg` clears all registers, and the
loop behind that instruction is not hit.
-/
namespace LinuxDeviceDrivers.HostKvmRun
open CStrings FlatMemory RealMode
open HostKvmSimple (Env KvmRun KVM_EXIT_IO E_OK)
open HostKvmGuest (ReadResult Vcpu)

def loop : List Instr := [.outImm 0x10, .incAx, .jmpShort (-5)]

def start : List Instr := .movMem 0 :: loop

/-- What `ld --oformat binary` makes of it. -/
def image : List UInt8 := assemble start

/-- The guest, and what the host sees of the processor: the exit reason and the
page with the data of the last output. -/
structure Vm where
  machine : Machine
  exitReason : BitVec 32
  page : ℕ → UInt8

def ioData (dataOffset : ℕ) (page : ℕ → UInt8) : ℕ := loadNum .little page dataOffset 4

def hex (n : ℕ) : List UInt8 := (Nat.toDigits 16 n).map byte

def counterLine (n : ℕ) : List UInt8 := ascii "Counter loop : " ++ hex n ++ ascii "\n"

/-- `ioctl(vcpu_fd, KVM_RUN, 0)` with a guest that gets to its next output. -/
def kvmRun (l : Layout) (fuel dataOffset : ℕ) (vm : Vm) : Option Vm :=
  (runToOut l fuel vm.machine).map fun r =>
    { machine := r.1
      exitReason := KVM_EXIT_IO
      page := store vm.page dataOffset (ByteOrder.little.encode 2 r.2.value.toNat) }

/-- So many turns of the loop in `run_and_emulate`: what `KVM_RUN` has returned
and what the host has printed. -/
def turns (l : Layout) (fuel dataOffset : ℕ) : ℕ → Vm → Option (List (KvmRun × List UInt8))
  | 0, _ => some []
  | n + 1, vm => do
      let vm ← kvmRun l fuel dataOffset vm
      let line :=
        if vm.exitReason = KVM_EXIT_IO then counterLine (ioData dataOffset vm.page) else []
      let rest ← turns l fuel dataOffset n vm
      pure ((⟨0, vm.exitReason⟩, line) :: rest)

/-- The segments that `vcpu_reg` leaves, with the memory of `vm_setup`. -/
def layout (env : Env) (vcpu : Vcpu) (ds : ℕ) : Layout where
  cs := (HostKvmGuest.vcpuReg env vcpu).2.sregs.csBase.toNat
  ds := ds
  size := (HostKvmGuest.region env).memorySize.toNat

/-- The machine that starts. `kvm_regs` is cleared before `rip` is set. -/
def boot (env : Env) (vcpu : Vcpu) (c : HostKvmGuest.Copy) (page : ℕ → UInt8) : Vm where
  machine :=
    { ip := (HostKvmGuest.vcpuReg env vcpu).2.regs.rip.setWidth 16
      ax := 0
      mem := c.mem }
  exitReason := 0
  page := page

theorem image_eq : image = [0xA3, 0x00, 0x00, 0xE7, 0x10, 0x40, 0xEB, 0xFB] := by decide

/-! ## The guest -/

section Guest
variable {l : Layout} {m : Machine} {fuel : ℕ}

theorem holds_out (hcode : Holds m.mem (l.cs + 3) loop) :
    Holds m.mem (l.cs + 5) [.incAx, .jmpShort (-5)] ∧ Holds m.mem (l.cs + 6) [.jmpShort (-5)] :=
  ⟨hcode.split.2, hcode.split.2.split.2⟩

theorem run_out (hcode : Holds m.mem (l.cs + 3) loop) (hip : m.ip = 3) :
    runToOut l (fuel + 1) m = some ({ m with ip := 5 }, ⟨0x10, m.ax⟩) := by
  apply runToOut_out
  rw [step_of_holds (p := [.incAx, .jmpShort (-5)]) (by rw [hip]; exact hcode), Machine.execute, hip]
  rfl

theorem run_back (hcode : Holds m.mem (l.cs + 3) loop) (hip : m.ip = 5) :
    runToOut l (fuel + 3) m = some ({ m with ax := m.ax + 1 }, ⟨0x10, m.ax + 1⟩) := by
  obtain ⟨hinc, hjmp⟩ := holds_out hcode
  have hfirst : m.step l = some ({ m with ip := 6, ax := m.ax + 1 }, none) := by
    rw [step_of_holds (p := [.jmpShort (-5)]) (by rw [hip]; exact hinc), Machine.execute, hip]
    rfl
  have htarget : (6 : BitVec 16) + 2 + (-5 : BitVec 8).signExtend 16 = 3 := by decide
  have hsecond : Machine.step l { m with ip := 6, ax := m.ax + 1 } =
      some ({ m with ip := 3, ax := m.ax + 1 }, none) := by
    rw [step_of_holds (m := { m with ip := 6, ax := m.ax + 1 }) (p := []) hjmp, Machine.execute,
      htarget]
  rw [runToOut_step hfirst, runToOut_step hsecond, hip]
  exact run_out hcode rfl

/-- The first instruction overwrites itself with `%ax` and leaves the loop. -/
theorem run_start (hcode : Holds m.mem l.cs start) (hip : m.ip = 0)
    (hds : l.ds + 2 ≤ l.cs + 3 ∨ l.cs + 8 ≤ l.ds) (hsize : l.ds + 2 ≤ l.size) :
    ∃ mem, runToOut l (fuel + 2) m = some (⟨5, m.ax, mem⟩, ⟨0x10, m.ax⟩) ∧
      Holds mem (l.cs + 3) loop := by
  have hword := FlatMemory.encode_length .little (word_lt m.ax)
  have hloop : Holds (store m.mem l.ds (ByteOrder.little.encode 2 m.ax.toNat)) (l.cs + 3) loop := by
    apply hcode.split.2.congr
    intro j hlow hhigh
    have hlength : (assemble loop).length = 5 := by decide
    rw [hlength] at hhigh
    rw [Instr.size] at hlow hhigh
    rcases hds with hds | hds
    · exact (store_of_le (by omega)).symm
    · exact (store_of_lt _ (by omega)).symm
  have hfirst : m.step l =
      some (⟨3, m.ax, store m.mem l.ds (ByteOrder.little.encode 2 m.ax.toNat)⟩, none) := by
    rw [step_of_holds (p := loop) (by rw [hip]; exact hcode)]
    exact (if_pos hsize).trans (by rw [hip]; rfl)
  exact ⟨_, by rw [runToOut_step hfirst, run_out hloop rfl], hloop⟩

end Guest

/-! ## The host -/

section Host
variable {l : Layout} {vm : Vm} {a : BitVec 16} {fuel dataOffset : ℕ} {page : ℕ → UInt8}

/-- An output of two bytes is the number that the host reads, if the two bytes
behind it are 0. -/
theorem ioData_store (hzero : load page (dataOffset + 2) 2 = [0, 0]) (a : BitVec 16) :
    ioData dataOffset (store page dataOffset (ByteOrder.little.encode 2 a.toNat)) = a.toNat ∧
      load (store page dataOffset (ByteOrder.little.encode 2 a.toNat)) (dataOffset + 2) 2 = [0, 0] := by
  have hlength := FlatMemory.encode_length .little (word_lt a)
  have hself := load_store_self page dataOffset (ByteOrder.little.encode 2 a.toNat)
  rw [hlength] at hself
  have hrest : load (store page dataOffset (ByteOrder.little.encode 2 a.toNat)) (dataOffset + 2) 2 =
      [0, 0] := by
    rw [← hzero]
    apply load_congr
    intro i hi _
    exact store_of_le (by omega)
  refine ⟨?_, hrest⟩
  rw [ioData, loadNum, show 4 = 2 + 2 from rfl, load_append, hself, hrest, decode_little_append,
    decode_encode .little (word_lt a), show ByteOrder.little.decode [0, 0] = 0 from rfl]
  exact Nat.add_zero _

structure Counting (l : Layout) (dataOffset : ℕ) (vm : Vm) (a : BitVec 16) : Prop where
  code : Holds vm.machine.mem (l.cs + 3) loop
  ip : vm.machine.ip = 5
  ax : vm.machine.ax + 1 = a
  page : load vm.page (dataOffset + 2) 2 = [0, 0]

def Shows (dataOffset : ℕ) (vm : Vm) (a : BitVec 16) : Prop :=
  vm.exitReason = KVM_EXIT_IO ∧ ioData dataOffset vm.page = a.toNat

theorem Counting.kvmRun (h : Counting l dataOffset vm a) (hfuel : 3 ≤ fuel) :
    ∃ vm', kvmRun l fuel dataOffset vm = some vm' ∧ Shows dataOffset vm' a ∧
      Counting l dataOffset vm' (a + 1) := by
  obtain ⟨fuel, rfl⟩ := Nat.exists_eq_add_of_le' hfuel
  have hrun := @run_back l vm.machine fuel h.code h.ip
  rw [h.ax] at hrun
  obtain ⟨hdata, hpage⟩ := ioData_store h.page a
  rw [HostKvmRun.kvmRun, hrun]
  exact ⟨_, rfl, ⟨rfl, hdata⟩, h.code, h.ip, rfl, hpage⟩

def counted (a : BitVec 16) (n : ℕ) : List (KvmRun × List UInt8) :=
  (List.range n).map fun i => (⟨0, KVM_EXIT_IO⟩, counterLine (a + .ofNat 16 i).toNat)

theorem counted_succ (a : BitVec 16) (n : ℕ) :
    counted a (n + 1) = (⟨0, KVM_EXIT_IO⟩, counterLine a.toNat) :: counted (a + 1) n := by
  rw [counted, counted, List.range_succ_eq_map, List.map_cons, List.map_map]
  congr 1
  · rw [show a + .ofNat 16 0 = a from BitVec.add_zero a]
  · apply List.map_congr_left
    intro i _
    rw [Function.comp_apply, BitVec.add_assoc, Nat.succ_eq_one_add, BitVec.ofNat_add]
    rfl

theorem turns_succ {vm' : Vm} {n : ℕ} {rest : List (KvmRun × List UInt8)}
    (hrun : kvmRun l fuel dataOffset vm = some vm') (hshows : Shows dataOffset vm' a)
    (hrest : turns l fuel dataOffset n vm' = some rest) :
    turns l fuel dataOffset (n + 1) vm =
      some ((⟨0, KVM_EXIT_IO⟩, counterLine a.toNat) :: rest) := by
  obtain ⟨hexit, hdata⟩ := hshows
  simp only [turns, hrun, hrest, Option.bind_eq_bind, Option.bind_some, hexit, if_true, hdata]
  rfl

theorem Counting.turns (h : Counting l dataOffset vm a) (hfuel : 3 ≤ fuel) (n : ℕ) :
    turns l fuel dataOffset n vm = some (counted a n) := by
  induction n generalizing vm a with
  | zero => rfl
  | succ n ih =>
      obtain ⟨vm', hrun, hshows, hnext⟩ := h.kvmRun hfuel
      rw [counted_succ]
      exact turns_succ hrun hshows (ih hnext)

end Host

/-! ## Both together -/

section Booted
variable {env : Env} {reads : ℕ → ReadResult} {vcpu : Vcpu} {c : HostKvmGuest.Copy}
  {page : ℕ → UInt8} {ds fuel dataOffset : ℕ}

/-- What the setup has to leave: the whole image read, a code segment at 0, a
data segment in memory that is not on the guest's loop, and a page of zeros. -/
structure SetUp (env : Env) (reads : ℕ → ReadResult) (vcpu : Vcpu) (c : HostKvmGuest.Copy)
    (page : ℕ → UInt8) (ds dataOffset : ℕ) : Prop where
  copied : (HostKvmGuest.vmSetup env reads image).2 = some c
  whole : HostKvmGuest.Brings reads image.length
  registers : (HostKvmGuest.vcpuReg env vcpu).1 = E_OK
  code : vcpu.sregs.csBase = 0
  data : ds + 2 ≤ 3 ∨ 8 ≤ ds
  inMemory : ds + 2 ≤ 2 ^ 30
  zeros : load page (dataOffset + 2) 2 = [0, 0]

theorem SetUp.holds (h : SetUp env reads vcpu c page ds dataOffset) : Holds c.mem 0 start := by
  obtain ⟨_, hc⟩ := HostKvmGuest.vmSetup_some_iff.mp h.copied
  have hcopied := HostKvmGuest.cpGuestImg_whole h.whole
  have hmem : c.mem = store (fun _ => 0) 0 image := by
    rw [hc]
    exact hcopied.mem
  rw [Holds, hmem]
  exact load_store_self _ 0 image

theorem SetUp.first (h : SetUp env reads vcpu c page ds dataOffset) (hfuel : 2 ≤ fuel) :
    ∃ vm, kvmRun (layout env vcpu ds) fuel dataOffset (boot env vcpu c page) = some vm ∧
      Shows dataOffset vm 0 ∧ Counting (layout env vcpu ds) dataOffset vm 1 := by
  obtain ⟨fuel, rfl⟩ := Nat.exists_eq_add_of_le' hfuel
  have hvcpu := HostKvmGuest.vcpuReg_vcpu h.registers
  have hcs : (layout env vcpu ds).cs = 0 := by
    rw [layout, hvcpu, h.code]
    rfl
  have hip : (boot env vcpu c page).machine.ip = 0 := by
    rw [boot, hvcpu]
    rfl
  have hds : (layout env vcpu ds).ds + 2 ≤ (layout env vcpu ds).cs + 3 ∨
      (layout env vcpu ds).cs + 8 ≤ (layout env vcpu ds).ds := by
    rw [hcs]
    simpa [layout] using h.data
  obtain ⟨mem, hrun, hloop⟩ := @run_start _ _ fuel (by rw [hcs]; exact h.holds) hip hds h.inMemory
  obtain ⟨hdata, hpage⟩ := ioData_store h.zeros 0
  rw [kvmRun, hrun]
  exact ⟨_, rfl, ⟨rfl, hdata⟩, hloop, rfl, rfl, hpage⟩

theorem runAndEmulate_running {run : BitVec 64} (hrun : run ≠ HostKvmSimple.MAP_FAILED) (ret : ℤ)
    {rs : List KvmRun} (hall : ∀ r ∈ rs, HostKvmSimple.continues r) :
    (HostKvmSimple.runAndEmulate run ret rs).1 = .running := by
  induction rs with
  | nil => rfl
  | cons r rs ih =>
      obtain ⟨hret, hexit⟩ := hall r List.mem_cons_self
      rw [HostKvmSimple.runAndEmulate, if_neg (Int.not_lt.mpr hret), if_neg hrun, if_neg hexit]
      exact ih fun r hr => hall r (List.mem_cons_of_mem _ hr)

/-- The host prints 0, 1, 2, .. in 16 bits, one number for each turn, and never
leaves its loop. -/
theorem turns_boot (h : SetUp env reads vcpu c page ds dataOffset) (hfuel : 3 ≤ fuel)
    {run : BitVec 64} (hrun : run ≠ HostKvmSimple.MAP_FAILED) (n : ℕ) :
    ∃ rs, turns (layout env vcpu ds) fuel dataOffset n (boot env vcpu c page) = some rs ∧
      rs.map Prod.snd = (List.range n).map (fun i => counterLine (i % 2 ^ 16)) ∧
      (HostKvmSimple.runAndEmulate run E_OK (rs.map Prod.fst)).1 = .running := by
  have hturns : turns (layout env vcpu ds) fuel dataOffset n (boot env vcpu c page) =
      some (counted 0 n) := by
    cases n with
    | zero => rfl
    | succ n =>
        obtain ⟨vm, hfirst, hshows, hcounting⟩ := h.first (Nat.le_of_succ_le hfuel)
        rw [counted_succ]
        exact turns_succ hfirst hshows (hcounting.turns hfuel n)
  refine ⟨_, hturns, ?_, ?_⟩
  · simp only [counted, List.map_map]
    apply List.map_congr_left
    intro i _
    simp
  · apply runAndEmulate_running hrun
    intro r hr
    simp only [counted, List.map_map, List.mem_map, Function.comp_apply] at hr
    obtain ⟨i, _, rfl⟩ := hr
    exact ⟨Int.le_refl 0, by decide⟩

/-- All calls work, and the processor starts with its code segment at 0. -/
theorem setUp_works : SetUp HostKvmSimple.tripleFault (fun _ => .got 4096) ⟨⟨0xfff0, 2⟩, ⟨0, 0⟩⟩
    (HostKvmGuest.cpGuestImg (fun _ => .got 4096) 0 image fun _ => 0) (fun _ => 0) 0 4096 where
  copied := HostKvmGuest.vmSetup_some_iff.mpr ⟨by decide, rfl⟩
  whole := ⟨1, fun _ _ => Nat.zero_lt_succ 4095, by decide⟩
  registers := by decide
  code := rfl
  data := .inl (by decide)
  inMemory := by decide
  zeros := rfl

theorem turns_boot_three :
    ∃ rs, turns (layout HostKvmSimple.tripleFault ⟨⟨0xfff0, 2⟩, ⟨0, 0⟩⟩ 0) 3 4096 3
        (boot HostKvmSimple.tripleFault ⟨⟨0xfff0, 2⟩, ⟨0, 0⟩⟩
          (HostKvmGuest.cpGuestImg (fun _ => .got 4096) 0 image fun _ => 0) fun _ => 0) = some rs ∧
      rs.map Prod.snd = (List.range 3).map (fun i => counterLine (i % 2 ^ 16)) ∧
      (HostKvmSimple.runAndEmulate 0x7F0000000000 E_OK (rs.map Prod.fst)).1 = .running :=
  turns_boot setUp_works (Nat.le_refl 3) (by decide) 3

end Booted

end LinuxDeviceDrivers.HostKvmRun
