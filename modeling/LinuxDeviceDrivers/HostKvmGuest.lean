import LinuxDeviceDrivers.FlatMemory
import LinuxDeviceDrivers.HostKvmSimple

/-!
# The guest of the KVM host

What the setup does to the guest: `cp_guest_img` reads the image into the memory,
4096 bytes at a time, and `vcpu_reg` sets the registers from which the guest
starts. A read gets what it gets; the loop goes on after a short one and ends
at an error as it does at the end of the image. It knows neither the size of
the memory nor that of the image, and what it has read is not reported.

The segment base is written back as the kernel gave it, so the guest starts at
the image only if that base is 0.
-/
namespace LinuxDeviceDrivers.HostKvmGuest
open CheckedCalls FlatMemory HostKvmSimple

/-- How a call of `read` ends: with an error, or with at most so many bytes. -/
inductive ReadResult where
  | error
  | got (n : ℕ)
deriving DecidableEq, Repr

def ReadResult.bytes : ReadResult → ℕ
  | .error => 0
  | .got n => min n 4096

/-- The return value of `read(img_fd, p, 4096)` with `img` still unread. -/
def ReadResult.ret (img : List UInt8) : ReadResult → ℤ
  | .error => -1
  | .got n => min (min n 4096) img.length

/-- What the loop leaves: the memory, the part of the image that it has not read,
and where its reads were directed. -/
structure Copy where
  mem : ℕ → UInt8
  unread : List UInt8
  targets : List ℕ

theorem ReadResult.toNat_ret (r : ReadResult) (img : List UInt8) :
    (r.ret img).toNat = min r.bytes img.length := by
  cases r with
  | error => exact (Nat.zero_min _).symm
  | got n =>
      simp only [ReadResult.ret, ReadResult.bytes]
      omega

/-- Addresses are counted from the start of the mapping. -/
def cpGuestImg (reads : ℕ → ReadResult) (p : ℕ) (img : List UInt8) (mem : ℕ → UInt8) : Copy :=
  let r := (reads 0).ret img
  if r ≤ 0 then ⟨mem, img, [p]⟩
  else
    let c := cpGuestImg (fun i => reads (i + 1)) (p + r.toNat) (img.drop r.toNat)
      (store mem p (img.take r.toNat))
    { c with targets := p :: c.targets }
termination_by img.length
decreasing_by
  have hret := (reads 0).toNat_ret img
  rw [List.length_drop]
  omega

structure UserspaceMemoryRegion where
  slot : BitVec 32
  guestPhysAddr : BitVec 64
  memorySize : BitVec 64
  userspaceAddr : BitVec 64
deriving DecidableEq, Repr

def region (env : Env) : UserspaceMemoryRegion where
  slot := 0
  guestPhysAddr := 0
  memorySize := 1 <<< 30
  userspaceAddr := env.mmap .mem

/-- `vm_setup` returns, and has copied the image if it has got that far. A new
mapping is full of zeros. -/
def vmSetup (env : Env) (reads : ℕ → ReadResult) (img : List UInt8) : ℤ × Option Copy :=
  let ret := (setupRet (HostKvmSimple.vmSetup env)).1
  (ret, if ret = E_OK then some (cpGuestImg reads 0 img fun _ => 0) else none)

/-- The reads bring `n` bytes before one of them brings none. -/
def Brings (reads : ℕ → ReadResult) (n : ℕ) : Prop :=
  ∃ k, (∀ i < k, 0 < (reads i).bytes) ∧ n ≤ ((List.range k).map fun i => (reads i).bytes).sum

section Copies
variable {reads : ℕ → ReadResult} {n p : ℕ} {img : List UInt8} {mem : ℕ → UInt8}

theorem brings_zero (reads : ℕ → ReadResult) : Brings reads 0 :=
  ⟨0, fun _ hi => absurd hi (Nat.not_lt_zero _), Nat.zero_le _⟩

theorem brings_iff (hn : 0 < n) :
    Brings reads n ↔
      0 < (reads 0).bytes ∧ Brings (fun i => reads (i + 1)) (n - (reads 0).bytes) := by
  constructor
  · rintro ⟨k, hpos, hsum⟩
    cases k with
    | zero => exact absurd hsum (Nat.not_le.mpr hn)
    | succ k =>
        rw [List.range_succ_eq_map, List.map_cons, List.sum_cons, List.map_map] at hsum
        refine ⟨hpos 0 (Nat.succ_pos k), k, fun i hi => hpos (i + 1) (Nat.succ_lt_succ hi), ?_⟩
        exact Nat.sub_le_iff_le_add'.mpr hsum
  · rintro ⟨hfirst, k, hpos, hsum⟩
    refine ⟨k + 1, fun i hi => ?_, ?_⟩
    · cases i with
      | zero => exact hfirst
      | succ i => exact hpos i (Nat.lt_of_succ_lt_succ hi)
    · rw [List.range_succ_eq_map, List.map_cons, List.sum_cons, List.map_map]
      exact Nat.sub_le_iff_le_add'.mp hsum

/-- The loop has stored `done` and stopped behind it. -/
structure Copied (p : ℕ) (img : List UInt8) (mem : ℕ → UInt8) (c : Copy) (done : List UInt8) :
    Prop where
  split : done ++ c.unread = img
  mem : c.mem = store mem p done
  last : p + done.length ∈ c.targets
  le_last : ∀ a ∈ c.targets, a ≤ p + done.length

theorem cpGuestImg_copied (reads : ℕ → ReadResult) (p : ℕ) (img : List UInt8) (mem : ℕ → UInt8) :
    ∃ done, Copied p img mem (cpGuestImg reads p img mem) done := by
  induction reads, p, img, mem using cpGuestImg.induct with
  | case1 reads p img mem r hend =>
      rw [cpGuestImg, if_pos hend]
      refine ⟨[], rfl, (store_nil mem p).symm, List.mem_singleton_self p, fun a ha => ?_⟩
      exact Nat.le_of_eq (List.mem_singleton.mp ha)
  | case2 reads p img mem r hgoes ih =>
      rw [cpGuestImg, if_neg hgoes]
      obtain ⟨done, hsplit, hmem, hlast, hle⟩ := ih
      have hret : r.toNat ≤ img.length := by
        rw [(reads 0).toNat_ret img]
        exact Nat.min_le_right _ _
      have hlength : (img.take r.toNat).length = r.toNat := List.length_take_of_le hret
      have hend : p + (img.take r.toNat ++ done).length = p + r.toNat + done.length := by
        rw [List.length_append, hlength, Nat.add_assoc]
      refine ⟨img.take r.toNat ++ done, ?_, ?_, ?_, ?_⟩
      · rw [List.append_assoc]
        exact (congrArg _ hsplit).trans (List.take_append_drop _ _)
      · rw [← store_append, hlength]
        exact hmem
      · rw [hend]
        exact List.mem_cons_of_mem p hlast
      · intro a ha
        rw [hend]
        rcases List.mem_cons.mp ha with rfl | ha
        · omega
        · exact hle a ha

theorem unread_eq_nil_iff (reads : ℕ → ReadResult) (p : ℕ) (img : List UInt8) (mem : ℕ → UInt8) :
    (cpGuestImg reads p img mem).unread = [] ↔ Brings reads img.length := by
  induction reads, p, img, mem using cpGuestImg.induct with
  | case1 reads p img mem r hend =>
      rw [cpGuestImg, if_pos hend]
      have hret : min (reads 0).bytes img.length = 0 := by
        rw [← (reads 0).toNat_ret img]
        exact Int.toNat_eq_zero.mpr hend
      cases img with
      | nil => exact iff_of_true rfl (brings_zero reads)
      | cons b bs =>
          refine iff_of_false (List.cons_ne_nil b bs) fun h => ?_
          have hfirst := ((brings_iff (Nat.succ_pos _)).mp h).1
          rw [List.length_cons] at hret
          omega
  | case2 reads p img mem r hgoes ih =>
      rw [cpGuestImg, if_neg hgoes]
      have hret : r.toNat = min (reads 0).bytes img.length := (reads 0).toNat_ret img
      have hpos : 0 < r.toNat := by omega
      have hfirst : 0 < (reads 0).bytes := by omega
      rw [brings_iff (by omega)]
      refine ih.trans ?_
      have hleft : (img.drop r.toNat).length = img.length - (reads 0).bytes := by
        rw [List.length_drop]
        omega
      rw [hleft]
      exact (and_iff_right hfirst).symm

end Copies

/-! ## The image -/

/-- A copy of the whole image into a memory of `size` bytes. -/
structure Holds (size : ℕ) (img : List UInt8) (c : Copy) : Prop where
  fits : img.length ≤ size
  image : ∀ a < size, c.mem a = img.getD a 0

/-- `vm_setup` returns `E_OK` only with the image in the guest's memory, no read
goes past that memory, and an image that does not fit or is not read to its end
is an error. -/
structure LoadsImage (env : Env) (reads : ℕ → ReadResult) (img : List UInt8) : Prop where
  loaded : (vmSetup env reads img).1 = E_OK → env.mmap .mem ≠ MAP_FAILED ∧
    ∃ c, (vmSetup env reads img).2 = some c ∧ Holds (region env).memorySize.toNat img c
  within : ∀ c, (vmSetup env reads img).2 = some c →
    ∀ a ∈ c.targets, a < (region env).memorySize.toNat
  reported : ∀ c, (vmSetup env reads img).2 = some c →
    (region env).memorySize.toNat < img.length ∨ c.unread ≠ [] →
      (vmSetup env reads img).1 = E_NOT_OK

section Image
variable {env : Env} {reads : ℕ → ReadResult} {img : List UInt8}

/-- The calls before the copy are accepted; `mmap` is only compared with `NULL`. -/
def CopyReached (env : Env) : Prop :=
  0 ≤ env.ioctl .createVm ∧ env.mmap .mem ≠ 0 ∧ 0 ≤ env.ioctl .setUserMemoryRegion

instance (env : Env) : Decidable (CopyReached env) := inferInstanceAs (Decidable (_ ∧ _ ∧ _))

theorem setupRet_eq_ok_iff (stages : List (Stage Event)) :
    (setupRet stages).1 = E_OK ↔ ∀ st ∈ stages, st.rejected = false := by
  rw [← attempt_all_iff, setupRet]
  by_cases h : (attempt stages).1 = true
  · simp only [h, if_true]
  · simp [h, E_OK, E_NOT_OK]

theorem vmSetup_ret_iff (env : Env) (reads : ℕ → ReadResult) (img : List UInt8) :
    (vmSetup env reads img).1 = E_OK ↔ CopyReached env := by
  refine (setupRet_eq_ok_iff _).trans ?_
  simp [HostKvmSimple.vmSetup, Env.ioctlStage, Env.mmapStage, CopyReached]

theorem vmSetup_some_iff {c : Copy} :
    (vmSetup env reads img).2 = some c ↔
      CopyReached env ∧ c = cpGuestImg reads 0 img fun _ => 0 := by
  have hret := vmSetup_ret_iff env reads img
  simp only [vmSetup] at hret ⊢
  rw [← hret]
  split_ifs with h
  · rw [Option.some.injEq, and_iff_right h]
    exact eq_comm
  · exact iff_of_false nofun fun hcopy => h hcopy.1

theorem store_zero_eq (img : List UInt8) (a : ℕ) :
    store (fun _ => 0) 0 img a = img.getD a 0 := by
  rw [store, if_pos (Nat.zero_le a), Nat.sub_zero, List.getD_eq_getElem?_getD]

/-- If the setup gets to the copy, there is a mapping, the image is smaller than
the memory, and the reads bring all of it. -/
def ReadsWhole (env : Env) (reads : ℕ → ReadResult) (img : List UInt8) : Prop :=
  CopyReached env → env.mmap .mem ≠ MAP_FAILED ∧ img.length < 2 ^ 30 ∧ Brings reads img.length

theorem cpGuestImg_whole (h : Brings reads img.length) :
    Copied 0 img (fun _ => 0) (cpGuestImg reads 0 img fun _ => 0) img := by
  obtain ⟨done, hcopied⟩ := cpGuestImg_copied reads 0 img fun _ => 0
  have hsplit := hcopied.split
  rw [(unread_eq_nil_iff reads 0 img fun _ => 0).mpr h, List.append_nil] at hsplit
  rwa [hsplit] at hcopied

theorem loadsImage_of_readsWhole (h : ReadsWhole env reads img) : LoadsImage env reads img := by
  refine ⟨fun hret => ?_, fun c hc a ha => ?_, fun c hc hbad => ?_⟩
  · have hcopy := (vmSetup_ret_iff env reads img).mp hret
    obtain ⟨hmapped, hlength, hbrings⟩ := h hcopy
    refine ⟨hmapped, _, vmSetup_some_iff.mpr ⟨hcopy, rfl⟩, Nat.le_of_lt hlength, fun a _ => ?_⟩
    rw [(cpGuestImg_whole hbrings).mem]
    exact store_zero_eq img a
  · obtain ⟨hcopy, rfl⟩ := vmSetup_some_iff.mp hc
    obtain ⟨-, hlength, hbrings⟩ := h hcopy
    have hend := (cpGuestImg_whole hbrings).le_last a ha
    rw [Nat.zero_add] at hend
    exact Nat.lt_of_le_of_lt hend hlength
  · obtain ⟨hcopy, rfl⟩ := vmSetup_some_iff.mp hc
    obtain ⟨-, hlength, hbrings⟩ := h hcopy
    rcases hbad with hlarge | hrest
    · exact absurd hlarge (Nat.not_lt.mpr (Nat.le_of_lt hlength))
    · exact absurd ((unread_eq_nil_iff reads 0 img fun _ => 0).mpr hbrings) hrest

theorem readsWhole_of_loadsImage (h : LoadsImage env reads img) : ReadsWhole env reads img := by
  intro hcopy
  have hret := (vmSetup_ret_iff env reads img).mpr hcopy
  have hsome : (vmSetup env reads img).2 = some (cpGuestImg reads 0 img fun _ => 0) :=
    vmSetup_some_iff.mpr ⟨hcopy, rfl⟩
  have hbrings : Brings reads img.length := by
    rw [← unread_eq_nil_iff reads 0 img fun _ => 0]
    by_contra hrest
    have hreport := h.reported _ hsome (.inr hrest)
    rw [hret] at hreport
    exact absurd hreport (by decide)
  have hwithin := h.within _ hsome _ (cpGuestImg_whole hbrings).last
  rw [Nat.zero_add] at hwithin
  exact ⟨(h.loaded hret).1, hwithin, hbrings⟩

/-- The read that finds the end of the image must still be inside the memory. -/
theorem loadsImage_iff (env : Env) (reads : ℕ → ReadResult) (img : List UInt8) :
    LoadsImage env reads img ↔ ReadsWhole env reads img :=
  ⟨readsWhole_of_loadsImage, loadsImage_of_readsWhole⟩

/-- Everything works, but the first read is interrupted. -/
theorem not_loadsImage_interrupted :
    ¬∀ (env : Env) (reads : ℕ → ReadResult) (img : List UInt8), LoadsImage env reads img := by
  intro h
  have hcopy : CopyReached tripleFault := by decide
  have hreport := (h tripleFault (fun _ => .error) [0xB8, 0x00, 0x00]).reported _
    (vmSetup_some_iff.mpr ⟨hcopy, rfl⟩) (.inr (by simp [cpGuestImg, ReadResult.ret]))
  exact absurd hreport (by decide)

end Image

/-! ## The first instruction -/

/-- The fields of `struct kvm_regs` that are not left 0. -/
structure KvmRegs where
  rip : BitVec 64
  rflags : BitVec 64
deriving DecidableEq, Repr

structure KvmSregs where
  csBase : BitVec 64
  csSelector : BitVec 16
deriving DecidableEq, Repr

structure Vcpu where
  regs : KvmRegs
  sregs : KvmSregs
deriving DecidableEq, Repr

def vcpuReg (env : Env) (vcpu : Vcpu) : ℤ × Vcpu :=
  let regs : KvmRegs := { rflags := 2, rip := 0 }
  if env.ioctl .getSregs < 0 then (E_NOT_OK, vcpu)
  else
    let sregs := vcpu.sregs
    if env.ioctl .setSregs < 0 then (E_NOT_OK, vcpu)
    else
      let vcpu := { vcpu with sregs := sregs }
      if env.ioctl .setRegs < 0 then (E_NOT_OK, vcpu) else (E_OK, { vcpu with regs := regs })

/-- In real mode without paging. -/
def Vcpu.fetches (vcpu : Vcpu) : BitVec 64 := vcpu.sregs.csBase + vcpu.regs.rip

def StartsAtImage (env : Env) (vcpu : Vcpu) : Prop :=
  (vcpuReg env vcpu).1 = E_OK → (vcpuReg env vcpu).2.fetches = (region env).guestPhysAddr

section Vcpu
variable {env : Env}

theorem vcpuReg_ret (env : Env) (vcpu : Vcpu) :
    (vcpuReg env vcpu).1 = (setupRet (HostKvmSimple.vcpuReg env)).1 := by
  simp only [vcpuReg, setupRet, HostKvmSimple.vcpuReg, Env.ioctlStage]
  by_cases hget : env.ioctl .getSregs < 0
  · simp [attempt, hget]
  · by_cases hset : env.ioctl .setSregs < 0
    · simp [attempt, hget, hset]
    · by_cases hregs : env.ioctl .setRegs < 0
      · simp [attempt, hget, hset, hregs]
      · simp [attempt, hget, hset, hregs]

theorem vcpuReg_ret_iff (vcpu : Vcpu) :
    (vcpuReg env vcpu).1 = E_OK ↔
      0 ≤ env.ioctl .getSregs ∧ 0 ≤ env.ioctl .setSregs ∧ 0 ≤ env.ioctl .setRegs := by
  rw [vcpuReg_ret, setupRet_eq_ok_iff]
  simp [HostKvmSimple.vcpuReg, Env.ioctlStage]

theorem vcpuReg_vcpu {vcpu : Vcpu} (h : (vcpuReg env vcpu).1 = E_OK) :
    (vcpuReg env vcpu).2 = ⟨{ rflags := 2, rip := 0 }, vcpu.sregs⟩ := by
  obtain ⟨hget, hset, hregs⟩ := (vcpuReg_ret_iff vcpu).mp h
  rw [vcpuReg, if_neg (Int.not_lt.mpr hget), if_neg (Int.not_lt.mpr hset),
    if_neg (Int.not_lt.mpr hregs)]

/-- Whatever the new processor's registers hold: it starts at the image only if a
call fails or the code segment has the base 0 already. -/
theorem startsAtImage_iff (env : Env) (vcpu : Vcpu) :
    StartsAtImage env vcpu ↔
      (0 ≤ env.ioctl .getSregs ∧ 0 ≤ env.ioctl .setSregs ∧ 0 ≤ env.ioctl .setRegs →
        vcpu.sregs.csBase = 0) := by
  rw [← vcpuReg_ret_iff vcpu]
  apply imp_congr_right
  intro hret
  rw [vcpuReg_vcpu hret]
  have hentry : vcpu.sregs.csBase + 0 = vcpu.sregs.csBase := BitVec.add_zero _
  show vcpu.sregs.csBase + 0 = 0 ↔ vcpu.sregs.csBase = 0
  rw [hentry]

end Vcpu

/-- A processor after its reset: the code segment is the last 64 KiB below 4 GiB. -/
def resetVcpu : Vcpu := ⟨⟨0xfff0, 2⟩, ⟨0xffff0000, 0xf000⟩⟩

theorem not_startsAtImage_reset : ¬∀ (env : Env) (vcpu : Vcpu), StartsAtImage env vcpu := by
  intro h
  exact absurd (h tripleFault resetVcpu rfl) (by decide)

end LinuxDeviceDrivers.HostKvmGuest
