import LinuxDeviceDrivers.CheckedCalls
import LinuxDeviceDrivers.KernelPrimitives

/-!
# The KVM host

`main` sets up the virtual machine and its processor and then runs the guest
until it ends. The results of all calls are given, those of `KVM_RUN` as a
finite list; at its end the guest is still running. The trace has the `ioctl`
and `mmap` calls in the order in which they are made. `cp_guest_img`, which
fills the guest memory and returns nothing, and the calls of `close` are left
out.

Both checks of `mmap` compare with `NULL`, and the `ret` that the loop of
`run_and_emulate` sets is not the one that the function returns.
-/
namespace LinuxDeviceDrivers.HostKvmSimple
open KernelPrimitives CheckedCalls

def E_OK : ℤ := 0
def E_NOT_OK : ℤ := 1

def MAP_FAILED : BitVec 64 := -1

def KVM_EXIT_IO : BitVec 32 := 2
def KVM_EXIT_SHUTDOWN : BitVec 32 := 8

inductive Request where
  | createVm
  | setUserMemoryRegion
  | createVcpu
  | getVcpuMmapSize
  | getSregs
  | setSregs
  | setRegs
deriving DecidableEq, Repr

inductive Mapping where
  | mem
  | run
deriving DecidableEq, Repr

/-- A return from `KVM_RUN`, with the exit reason in the shared page. -/
structure KvmRun where
  ret : ℤ
  exitReason : BitVec 32
deriving DecidableEq, Repr

inductive Event where
  | ioctl (req : Request) (ret : ℤ)
  | mmap (what : Mapping) (addr : BitVec 64)
  | kvmRun (r : KvmRun)
deriving DecidableEq, Repr

/-- What the calls return if they are made. -/
structure Env where
  openKvm : ℤ
  openImg : ℤ
  ioctl : Request → ℤ
  mmap : Mapping → BitVec 64
  runs : List KvmRun

inductive Status where
  | running
  | segv
  | exited (status : ℤ)
deriving DecidableEq, Repr

def Env.ioctlStage (env : Env) (req : Request) : Stage Event :=
  ⟨.ioctl req (env.ioctl req), env.ioctl req < 0⟩

def Env.mmapStage (env : Env) (what : Mapping) : Stage Event :=
  ⟨.mmap what (env.mmap what), env.mmap what = 0⟩

def vmSetup (env : Env) : List (Stage Event) :=
  [env.ioctlStage .createVm, env.mmapStage .mem, env.ioctlStage .setUserMemoryRegion]

def vcpuReg (env : Env) : List (Stage Event) :=
  [env.ioctlStage .getSregs, env.ioctlStage .setSregs, env.ioctlStage .setRegs]

def vcpuSetup (env : Env) : List (Stage Event) :=
  [env.ioctlStage .createVcpu, env.ioctlStage .getVcpuMmapSize, env.mmapStage .run] ++ vcpuReg env

/-- What a setup function returns, with the calls it has made. -/
def setupRet (stages : List (Stage Event)) : ℤ × List Event :=
  (if (attempt stages).1 then E_OK else E_NOT_OK, (attempt stages).2)

/-- `ret` is the variable of the function; the one that is set in the loop
shadows it. The exit reason is read from the mapping of `kvm_run`. -/
def runAndEmulate (run : BitVec 64) (ret : ℤ) : List KvmRun → Status × List Event
  | [] => (.running, [])
  | r :: rs =>
      if r.ret < 0 then (.exited ret, [.kvmRun r])
      else if run = MAP_FAILED then (.segv, [.kvmRun r])
      else if r.exitReason = KVM_EXIT_SHUTDOWN then (.exited ret, [.kvmRun r])
      else
        let rest := runAndEmulate run ret rs
        (rest.1, .kvmRun r :: rest.2)

def main (env : Env) : Status × List Event :=
  if env.openKvm < 0 then (.exited E_NOT_OK, [])
  else if env.openImg < 0 then (.exited E_NOT_OK, [])
  else
    let vm := setupRet (vmSetup env)
    if vm.1 ≠ 0 then (.exited vm.1, vm.2)
    else
      let vcpu := setupRet (vcpuSetup env)
      if vcpu.1 ≠ 0 then (.exited vcpu.1, vm.2 ++ vcpu.2)
      else
        let r := runAndEmulate (env.mmap .run) E_OK env.runs
        (r.1, vm.2 ++ vcpu.2 ++ r.2)

/-- `ioctl` fails with a negative value, `mmap` with `MAP_FAILED`. -/
def Event.failed : Event → Prop
  | .ioctl _ ret => ret < 0
  | .mmap _ addr => addr = MAP_FAILED
  | .kvmRun r => r.ret < 0

def Event.isSetup : Event → Prop
  | .kvmRun _ => False
  | _ => True

/-- The guest was shut down. -/
def Event.shutdown : Event → Prop
  | .kvmRun r => 0 ≤ r.ret ∧ r.exitReason = KVM_EXIT_SHUTDOWN
  | _ => False

/-- A failed call or a shutdown gives a non-zero exit status, and nothing is
done after a setup call that has failed. -/
structure Reports (env : Env) : Prop where
  status : ∀ e ∈ (main env).2, e.failed ∨ e.shutdown → ∃ n, (main env).1 = .exited n ∧ n ≠ 0
  stops : FailsLast (fun e => e.isSetup ∧ e.failed) (main env).2

/-- The calls of `mmap` are reached when all calls before them are accepted. -/
def memReached (env : Env) : Prop :=
  0 ≤ env.openKvm ∧ 0 ≤ env.openImg ∧ 0 ≤ env.ioctl .createVm

def runReached (env : Env) : Prop :=
  memReached env ∧ env.mmap .mem ≠ 0 ∧ 0 ≤ env.ioctl .setUserMemoryRegion ∧
    0 ≤ env.ioctl .createVcpu ∧ 0 ≤ env.ioctl .getVcpuMmapSize

def loopReached (env : Env) : Prop :=
  runReached env ∧ env.mmap .run ≠ 0 ∧ 0 ≤ env.ioctl .getSregs ∧ 0 ≤ env.ioctl .setSregs ∧
    0 ≤ env.ioctl .setRegs

/-- No `mmap` fails and `KVM_RUN` neither fails nor ends in a shutdown, as far as
they are reached. -/
structure NoneHidden (env : Env) : Prop where
  mem : memReached env → env.mmap .mem ≠ MAP_FAILED
  run : runReached env → env.mmap .run ≠ MAP_FAILED
  loop : loopReached env → ∀ r ∈ env.runs, 0 ≤ r.ret ∧ r.exitReason ≠ KVM_EXIT_SHUTDOWN

def setup (env : Env) : List (Stage Event) := vmSetup env ++ vcpuSetup env

def setupFailed (e : Event) : Prop := e.isSetup ∧ e.failed

section Setup
variable {env : Env}

/-- Past the two files, `main` is the calls of the setup and then the loop. -/
theorem main_opened (hkvm : 0 ≤ env.openKvm) (himg : 0 ≤ env.openImg) :
    main env =
      if (attempt (setup env)).1 then
        ((runAndEmulate (env.mmap .run) E_OK env.runs).1,
          (attempt (setup env)).2 ++ (runAndEmulate (env.mmap .run) E_OK env.runs).2)
      else (.exited E_NOT_OK, (attempt (setup env)).2) := by
  rw [main, if_neg (Int.not_lt.mpr hkvm), if_neg (Int.not_lt.mpr himg), setup, attempt_append]
  by_cases hvm : (attempt (vmSetup env)).1 = true
  · by_cases hvcpu : (attempt (vcpuSetup env)).1 = true
    · simp [setupRet, hvm, hvcpu, E_OK]
    · simp [setupRet, hvm, hvcpu, E_OK, E_NOT_OK]
  · simp [setupRet, hvm, E_NOT_OK]

/-- The whole setup is accepted when the loop is reached. -/
theorem setup_accepted_iff (hkvm : 0 ≤ env.openKvm) (himg : 0 ≤ env.openImg) :
    (attempt (setup env)).1 = true ↔ loopReached env := by
  rw [attempt_all_iff]
  simp [setup, vmSetup, vcpuSetup, vcpuReg, Env.ioctlStage, Env.mmapStage, loopReached, runReached,
    memReached, hkvm, himg, and_assoc]

theorem null_ne_mapFailed {addr : BitVec 64} (h : addr ≠ 0 → addr ≠ MAP_FAILED) :
    addr ≠ MAP_FAILED := by
  by_cases hnull : addr = 0
  · rw [hnull]
    decide
  · exact h hnull

/-- A failed `ioctl` is always noticed, a failed `mmap` never. -/
theorem noticed_setup_iff (hkvm : 0 ≤ env.openKvm) (himg : 0 ≤ env.openImg) :
    Noticed setupFailed (setup env) ↔
      (memReached env → env.mmap .mem ≠ MAP_FAILED) ∧
        (runReached env → env.mmap .run ≠ MAP_FAILED) := by
  simp only [setup, vmSetup, vcpuSetup, vcpuReg, Env.ioctlStage, Env.mmapStage, List.cons_append,
    List.nil_append, Noticed, setupFailed, Event.isSetup, Event.failed, true_and,
    decide_eq_false_iff_not, Int.not_lt, memReached, runReached, hkvm, himg]
  constructor
  · intro h
    refine ⟨fun hvm => null_ne_mapFailed fun hmem => ((h hvm).2 hmem).1, ?_⟩
    rintro ⟨hvm, hmem, hregion, hvcpu, hsize⟩
    refine null_ne_mapFailed fun hrun => ?_
    have hmapped := (((h hvm).2 hmem).2 hregion).2 hvcpu
    exact ((hmapped.2 hsize).2 hrun).1
  · rintro ⟨hmem, hrun⟩ hvm
    refine ⟨hvm, fun hmem₀ => ⟨hmem hvm, fun hregion => ⟨hregion, fun hvcpu => ⟨hvcpu, fun hsize =>
      ⟨hsize, fun _ => ⟨hrun ⟨hvm, hmem₀, hregion, hvcpu, hsize⟩, fun hget => ?_⟩⟩⟩⟩⟩⟩
    exact ⟨hget, fun hset => ⟨hset, fun hregs => ⟨hregs, trivial⟩⟩⟩

theorem failsLast_setup_iff :
    FailsLast setupFailed (attempt (setup env)).2 ↔ Noticed setupFailed (setup env) := by
  refine failsLast_attempt_iff fun st hst hfailed => ?_
  obtain rfl : env.ioctlStage .setRegs = st := Option.some.inj hst
  exact decide_eq_true hfailed.2

theorem setup_isSetup {e : Event} (he : e ∈ (attempt (setup env)).2) : e.isSetup := by
  obtain ⟨st, hst, rfl⟩ := attempt_mem he
  simp only [setup, vmSetup, vcpuSetup, vcpuReg, List.cons_append, List.nil_append, List.mem_cons,
    List.not_mem_nil, or_false] at hst
  rcases hst with rfl | rfl | rfl | rfl | rfl | rfl | rfl | rfl | rfl <;> trivial

theorem setup_not_shutdown {e : Event} (he : e.isSetup) : ¬e.shutdown := by
  cases e with
  | kvmRun => exact fun _ => he
  | _ => exact fun h => h

end Setup

section Loop
variable {run : BitVec 64} {ret : ℤ} {runs : List KvmRun} {e : Event}

/-- The guest goes on after this return from `KVM_RUN`. -/
def continues (r : KvmRun) : Prop := 0 ≤ r.ret ∧ r.exitReason ≠ KVM_EXIT_SHUTDOWN

theorem loop_events (he : e ∈ (runAndEmulate run ret runs).2) : ¬e.isSetup := by
  induction runs with
  | nil => cases he
  | cons r rs ih =>
      rw [runAndEmulate] at he
      split_ifs at he
      case neg =>
        rcases List.mem_cons.mp he with rfl | he
        · exact fun h => h
        · exact ih he
      all_goals
        rw [List.mem_singleton.mp he]
        exact fun h => h

theorem loop_runs (ret : ℤ) (hrun : run ≠ MAP_FAILED) (hall : ∀ r ∈ runs, continues r) :
    ∀ e ∈ (runAndEmulate run ret runs).2, ¬(e.failed ∨ e.shutdown) := by
  induction runs with
  | nil => simp [runAndEmulate]
  | cons r rs ih =>
      obtain ⟨hret, hexit⟩ := hall r List.mem_cons_self
      rw [runAndEmulate, if_neg (Int.not_lt.mpr hret), if_neg hrun, if_neg hexit]
      rintro e he
      rcases List.mem_cons.mp he with rfl | he
      · rintro (hfail | ⟨-, hshut⟩)
        · exact absurd hret (Int.not_le.mpr hfail)
        · exact hexit hshut
      · exact ih (fun r hr => hall r (List.mem_cons_of_mem _ hr)) e he

/-- The first return that does not go on ends the loop, with the status of the
outer variable. -/
theorem loop_ends (ret : ℤ) (hrun : run ≠ MAP_FAILED) (hex : ∃ r ∈ runs, ¬continues r) :
    (runAndEmulate run ret runs).1 = .exited ret ∧
      ∃ e ∈ (runAndEmulate run ret runs).2, e.failed ∨ e.shutdown := by
  induction runs with
  | nil => simp at hex
  | cons r rs ih =>
      rw [runAndEmulate]
      by_cases hret : r.ret < 0
      · rw [if_pos hret]
        exact ⟨rfl, _, List.mem_singleton_self _, .inl hret⟩
      · by_cases hexit : r.exitReason = KVM_EXIT_SHUTDOWN
        · rw [if_neg hret, if_neg hrun, if_pos hexit]
          exact ⟨rfl, _, List.mem_singleton_self _, .inr ⟨Int.not_lt.mp hret, hexit⟩⟩
        · rw [if_neg hret, if_neg hrun, if_neg hexit]
          obtain ⟨hstatus, e, he, hbad⟩ := ih (by
            obtain ⟨r', hr', hstop⟩ := hex
            rcases List.mem_cons.mp hr' with rfl | hr'
            · exact absurd ⟨Int.not_lt.mp hret, hexit⟩ hstop
            · exact ⟨r', hr', hstop⟩)
          exact ⟨hstatus, e, List.mem_cons_of_mem _ he, hbad⟩

end Loop

section Main
variable {env : Env}

theorem reports_unopened (h : env.openKvm < 0 ∨ env.openImg < 0) :
    Reports env ∧ NoneHidden env := by
  have hmain : main env = (.exited E_NOT_OK, []) := by
    rw [main]
    rcases h with hkvm | himg
    · rw [if_pos hkvm]
    · rw [if_pos himg, ite_self]
  have hmem : ¬memReached env := by
    rintro ⟨hkvm, himg, -⟩
    omega
  refine ⟨⟨?_, ?_⟩, ⟨fun hr => absurd hr hmem, fun hr => absurd hr.1 hmem,
    fun hr => absurd hr.1.1 hmem⟩⟩
  · rw [hmain]
    exact fun e he => absurd he List.not_mem_nil
  · rw [hmain]
    trivial

theorem reports_of_noneHidden (hkvm : 0 ≤ env.openKvm) (himg : 0 ≤ env.openImg)
    (h : NoneHidden env) : Reports env := by
  have hnoticed := (noticed_setup_iff hkvm himg).mpr ⟨h.mem, h.run⟩
  have hmain := main_opened hkvm himg
  cases hsetup : (attempt (setup env)).1 with
  | false =>
      rw [hsetup, if_neg Bool.false_ne_true] at hmain
      refine ⟨?_, ?_⟩ <;> rw [hmain]
      · exact fun e _ _ => ⟨E_NOT_OK, rfl, by decide⟩
      · exact failsLast_setup_iff.mpr hnoticed
  | true =>
      have hloop := (setup_accepted_iff hkvm himg).mp hsetup
      rw [hsetup, if_pos rfl] at hmain
      have hok : ∀ e ∈ (attempt (setup env)).2, ¬setupFailed e := fun e he hf =>
        absurd ((attempt_reports hnoticed he hf).symm.trans hsetup) nofun
      have hrun := loop_runs E_OK (h.run hloop.1) (h.loop hloop)
      refine ⟨?_, ?_⟩ <;> rw [hmain]
      · intro e he hbad
        rcases List.mem_append.mp he with he | he
        · rcases hbad with hfail | hshut
          · exact absurd ⟨setup_isSetup he, hfail⟩ (hok e he)
          · exact absurd hshut (setup_not_shutdown (setup_isSetup he))
        · exact absurd hbad (hrun e he)
      · refine failsLast_append hok (failsLast_of_none fun e he hf => loop_events he hf.1)

theorem noneHidden_of_reports (hkvm : 0 ≤ env.openKvm) (himg : 0 ≤ env.openImg)
    (h : Reports env) : NoneHidden env := by
  have hmain := main_opened hkvm himg
  have hnoticed : Noticed setupFailed (setup env) := by
    rw [← failsLast_setup_iff]
    have hstops := h.stops
    rw [hmain] at hstops
    cases hsetup : (attempt (setup env)).1 with
    | false => rwa [hsetup, if_neg Bool.false_ne_true] at hstops
    | true =>
        rw [hsetup, if_pos rfl] at hstops
        exact hstops.left
  obtain ⟨hmem, hrun⟩ := (noticed_setup_iff hkvm himg).mp hnoticed
  refine ⟨hmem, hrun, fun hloop => ?_⟩
  by_contra hall
  have hends : ∃ r ∈ env.runs, ¬continues r := by
    simpa only [continues, not_forall, exists_prop] using hall
  obtain ⟨hstatus, e, he, hbad⟩ := loop_ends E_OK (hrun hloop.1) hends
  rw [if_pos ((setup_accepted_iff hkvm himg).mpr hloop)] at hmain
  have hreport := h.status
  rw [hmain] at hreport
  obtain ⟨n, hn, hne⟩ := hreport e (List.mem_append_right _ he) hbad
  rw [hstatus, Status.exited.injEq] at hn
  exact hne hn.symm

/-- For all results of the calls and all returns from `KVM_RUN`, failures are
reported and end the setup exactly when no `mmap` fails and the guest does not
end in a failure or a shutdown. -/
theorem reports_iff_noneHidden (env : Env) : Reports env ↔ NoneHidden env := by
  by_cases hkvm : 0 ≤ env.openKvm
  · by_cases himg : 0 ≤ env.openImg
    · exact ⟨noneHidden_of_reports hkvm himg, reports_of_noneHidden hkvm himg⟩
    · obtain ⟨hrep, hnone⟩ := reports_unopened (.inr (Int.not_le.mp himg))
      exact ⟨fun _ => hnone, fun _ => hrep⟩
  · obtain ⟨hrep, hnone⟩ := reports_unopened (.inl (Int.not_le.mp hkvm))
    exact ⟨fun _ => hnone, fun _ => hrep⟩

end Main

/-- Everything works, and the guest is shut down by a triple fault. -/
def tripleFault : Env where
  openKvm := 3
  openImg := 4
  ioctl _ := 5
  mmap _ := 0x7F0000000000
  runs := [⟨0, KVM_EXIT_IO⟩, ⟨0, KVM_EXIT_SHUTDOWN⟩]

theorem not_reports_tripleFault : ¬∀ env, Reports env := by
  intro h
  obtain ⟨n, hn, hne⟩ := (h tripleFault).status (.kvmRun ⟨0, KVM_EXIT_SHUTDOWN⟩) (by decide)
    (.inr ⟨Int.le_refl 0, rfl⟩)
  have hzero : (main tripleFault).1 = .exited 0 := rfl
  rw [hzero, Status.exited.injEq] at hn
  exact hne hn.symm

end LinuxDeviceDrivers.HostKvmSimple
