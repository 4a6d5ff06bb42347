import LinuxDeviceDrivers.KernelPrimitives
import LinuxDeviceDrivers.ResourceLedger
import LinuxDeviceDrivers.TransitionSystem
import Mathlib.Algebra.BigOperators.Group.Finset.Basic

/-!
# Initialisation of mcdevdrvs

`mcdevdrvs_init` step by step for any number `n` of minors, with every kernel
call free to fail. Two loops acquire the devices and the kfifos, and one
unwinding with two counters gives back what they have acquired. It starts with
the index at which a loop has stopped, which was not acquired completely or,
after a failure of the second loop, is `n`.

The call is all-or-nothing exactly when none of the calls in the loops fails.
-/
namespace LinuxDeviceDrivers.McdevdrvsInit
open KernelPrimitives ResourceLedger TransitionSystem

inductive Resource where
  | region
  | newClass
  | device (i : ℕ)
  | cdev (i : ℕ)
  | kfifo (i : ℕ)
deriving DecidableEq, Repr

/-- `outside` is set by a step that indexes `devcs` outside `0..n-1`. -/
structure Held where
  ledger : Ledger Resource
  outside : Bool

/-- The next thing `mcdevdrvs_init` does; the indices are `dev_cnt` or
`fifo_cnt`, and the error points keep what `ret` holds. -/
inductive InitPc where
  | allocChrdevRegion
  | classCreate
  | deviceCreate (i : ℕ)
  | cdevAdd (i : ℕ)
  | kfifoAlloc (i : ℕ)
  | kfifoFree (j i : ℕ) (ret : ℤ)
  | cdevDel (i : ℕ) (ret : ℤ)
  | deviceDestroy (i : ℕ) (ret : ℤ)
  | classDestroy (ret : ℤ)
  | unregisterChrdevRegion (ret : ℤ)
  | returned (ret : ℤ)
deriving DecidableEq, Repr

inductive Effect where
  | skip
  | acquire (r : Resource)
  | addCdev (i : ℕ)
  | allocFifo (i : ℕ) (f : Kfifo)
  | freeFifo (i : ℕ)
  | delCdev (i : ℕ)
  | release (r : Resource)
deriving DecidableEq, Repr

section Loops
variable (n : ℕ)

/-- The loop head of the kfifos, with the return after the loop. -/
def fifoLoop (i : ℕ) : InitPc := if i < n then .kfifoAlloc i else .returned 0

/-- The loop head of the devices. -/
def deviceLoop (i : ℕ) : InitPc := if i < n then .deviceCreate i else fifoLoop n 0

/-- A kernel call that acquires `r`, or fails and goes to a label. -/
def orGoto (res : Option Errno) (e : Effect) (next : InitPc) (label : ℤ → InitPc) :
    Effect × InitPc :=
  match res with
  | none => (e, next)
  | some err => (.skip, label err.val)

/-- One step; `res` is how the kernel call of the step ends. `ret` is still 0
from `alloc_chrdev_region` when `cdev_add` fails, since its error is in `rc`.
The label `err_fifo` is `kfifoFree`, `err_cdev` and `err_device` are `cdevDel`,
`err_class` is `unregisterChrdevRegion`. -/
def mcdevdrvsInit (fsize : BitVec 32) (res : Option Errno) : InitPc → Effect × InitPc
  | .allocChrdevRegion => orGoto res (.acquire .region) .classCreate .returned
  | .classCreate => orGoto res (.acquire .newClass) (deviceLoop n 0) .unregisterChrdevRegion
  | .deviceCreate i => orGoto res (.acquire (.device i)) (.cdevAdd i) (.cdevDel i)
  | .cdevAdd i => orGoto res (.addCdev i) (deviceLoop n (i + 1)) fun _ => .cdevDel i 0
  | .kfifoAlloc i =>
      match KernelPrimitives.kfifoAlloc fsize res.isNone with
      | .ok f => (.allocFifo i f, fifoLoop n (i + 1))
      | .error ret => (.skip, .kfifoFree i n ret)
  | .kfifoFree j i ret =>
      (.freeFifo j, match j with
        | 0 => .cdevDel i ret
        | j + 1 => .kfifoFree j i ret)
  | .cdevDel i ret => (.delCdev i, .deviceDestroy i ret)
  | .deviceDestroy i ret =>
      (.release (.device i), match i with
        | 0 => .classDestroy ret
        | i + 1 => .cdevDel i ret)
  | .classDestroy ret => (.release .newClass, .unregisterChrdevRegion ret)
  | .unregisterChrdevRegion ret => (.release .region, .returned ret)
  | .returned ret => (.skip, .returned ret)

/-- The effect of a step on what the driver holds. `kfifo_free` does nothing to
a kfifo that was never allocated. -/
def effect : Effect → Held → Held
  | .skip, s => s
  | .acquire r, s => { s with ledger := s.ledger.acquire r }
  | .addCdev i, s => ⟨s.ledger.acquire (.cdev i), s.outside || n ≤ i⟩
  | .allocFifo i _, s => ⟨s.ledger.acquire (.kfifo i), s.outside || n ≤ i⟩
  | .freeFifo i, s =>
      ⟨if .kfifo i ∈ s.ledger.held then s.ledger.release (.kfifo i) else s.ledger,
        s.outside || n ≤ i⟩
  | .delCdev i, s => ⟨s.ledger.release (.cdev i), s.outside || n ≤ i⟩
  | .release r, s => { s with ledger := s.ledger.release r }

end Loops

/-- How the kernel calls of one initialisation end. -/
structure Results where
  region : Option Errno
  newClass : Option Errno
  device : ℕ → Option Errno
  cdev : ℕ → Option Errno
  kfifo : ℕ → Option Errno

def Results.at (x : Results) : InitPc → Option Errno
  | .allocChrdevRegion => x.region
  | .classCreate => x.newClass
  | .deviceCreate i => x.device i
  | .cdevAdd i => x.cdev i
  | .kfifoAlloc i => x.kfifo i
  | _ => none

structure State where
  held : Held
  pc : InitPc

section Run
variable (n : ℕ) (fsize : BitVec 32) (x : Results)

def advance (s : State) : State :=
  let m := mcdevdrvsInit n fsize (x.at s.pc) s.pc
  ⟨effect n m.1 s.held, m.2⟩

def initial : State := ⟨⟨.empty, false⟩, .allocChrdevRegion⟩

/-- How many steps are left at most. -/
def rank : InitPc → ℕ
  | .returned _ => 0
  | .unregisterChrdevRegion _ => 1
  | .classDestroy _ => 2
  | .deviceDestroy i _ => 2 * i + 3
  | .cdevDel i _ => 2 * i + 4
  | .kfifoFree j i _ => 2 * i + j + 5
  | .kfifoAlloc i => 3 * n + 6 + (n - i)
  | .deviceCreate i => 4 * n + 8 + 2 * (n - i)
  | .cdevAdd i => 4 * n + 7 + 2 * (n - i)
  | .classCreate => 6 * n + 9
  | .allocChrdevRegion => 6 * n + 10

/-- The state in which the call returns. -/
def outcome : State := (advance n fsize x)^[rank n .allocChrdevRegion] initial

end Run

/-- What is held after `i` turns of the first loop. -/
def devices (i : ℕ) : Multiset Resource :=
  (∑ j ∈ Finset.range i, {.cdev j, .device j}) + {.region, .newClass}

/-- What is held after `i` turns of the second loop. -/
def fifos (n i : ℕ) : Multiset Resource := (∑ j ∈ Finset.range i, {.kfifo j}) + devices n

/-- The region, the class and all `n` devices, cdevs and kfifos. -/
def everything (n : ℕ) : Multiset Resource := fifos n n

theorem devices_succ (i : ℕ) : devices (i + 1) = .cdev i ::ₘ .device i ::ₘ devices i := by
  rw [devices, devices, Finset.sum_range_succ, add_right_comm, add_comm, Multiset.insert_eq_cons,
    Multiset.cons_add, Multiset.singleton_add]

theorem devices_zero : devices 0 = .newClass ::ₘ {.region} := by
  rw [devices, Finset.sum_range_zero, zero_add]
  exact Multiset.cons_swap _ _ _

theorem fifos_zero (n : ℕ) : fifos n 0 = devices n := by
  rw [fifos, Finset.sum_range_zero, zero_add]

theorem fifos_succ (n i : ℕ) : fifos n (i + 1) = .kfifo i ::ₘ fifos n i := by
  rw [fifos, fifos, Finset.sum_range_succ, add_right_comm, add_comm, Multiset.singleton_add]

theorem cdev_mem_devices {i k : ℕ} : .cdev k ∈ devices i ↔ k < i := by
  simp [devices]

theorem cdev_mem_fifos {n i k : ℕ} : .cdev k ∈ fifos n i ↔ k < n := by
  simp [fifos, cdev_mem_devices]

/-- None of the kernel calls in the loops fails. -/
def LoopsSucceed (n : ℕ) (fsize : BitVec 32) (x : Results) : Prop :=
  (∀ i < n, x.device i = none ∧ x.cdev i = none) ∧
    ∀ i < n, ∃ f, KernelPrimitives.kfifoAlloc fsize (x.kfifo i).isNone = .ok f

/-- The call fails before the loops, or no call in them fails. -/
def Clean (n : ℕ) (fsize : BitVec 32) (x : Results) : Prop :=
  x.region ≠ none ∨ x.newClass ≠ none ∨ LoopsSucceed n fsize x

/-- The call returns 0 and everything is held, or an error and nothing is; it
has deleted and destroyed nothing else and never indexed outside `devcs`. -/
structure AllOrNothing (n : ℕ) (s : State) (ret : ℤ) : Prop where
  success : ret = 0 → s.held.ledger.Holds (everything n)
  failure : ret ≠ 0 → ret < 0 ∧ s.held.ledger.Holds 0
  inside : s.held.outside = false

section Correctness
variable (n : ℕ) (fsize : BitVec 32) (x : Results)

/-- The first loop is in turn `i` and has not met a failing call. -/
structure InDevices (i : ℕ) : Prop where
  region : x.region = none
  newClass : x.newClass = none
  lt : i < n
  before : ∀ j < i, x.device j = none ∧ x.cdev j = none

structure InFifos (i : ℕ) : Prop where
  region : x.region = none
  newClass : x.newClass = none
  lt : i < n
  devices : ∀ j < n, x.device j = none ∧ x.cdev j = none
  before : ∀ j < i, ∃ f, KernelPrimitives.kfifoAlloc fsize (x.kfifo j).isNone = .ok f

/-- No call of the loops has failed so far. -/
def OnCourse (l : Ledger Resource) : InitPc → Prop
  | .allocChrdevRegion => l.Holds 0
  | .classCreate => x.region = none ∧ l.Holds {.region}
  | .deviceCreate i => InDevices n x i ∧ l.Holds (devices i)
  | .cdevAdd i => InDevices n x i ∧ x.device i = none ∧ l.Holds (.device i ::ₘ devices i)
  | .kfifoAlloc i => InFifos n fsize x i ∧ l.Holds (fifos n i)
  | .unregisterChrdevRegion ret => x.newClass ≠ none ∧ ret < 0 ∧ l.Holds {.region}
  | .returned ret => (ret = 0 ∧ LoopsSucceed n fsize x ∧ l.Holds (everything n)) ∨
      (ret < 0 ∧ (x.region ≠ none ∨ x.newClass ≠ none) ∧ l.Holds 0)
  | _ => False

/-- The unwinding of the loops has released what was not held, or its next
`cdev_del` is going to. -/
def OffCourse (l : Ledger Resource) : InitPc → Prop
  | .kfifoFree _ i _ | .cdevDel i _ => l.strays ≠ 0 ∨ .cdev i ∉ l.held
  | .deviceDestroy _ _ | .classDestroy _ | .unregisterChrdevRegion _ | .returned _ => l.strays ≠ 0
  | _ => False

def Tracked (s : State) : Prop :=
  (s.held.outside = false ∧ OnCourse n fsize x s.held.ledger s.pc) ∨
    (¬Clean n fsize x ∧ OffCourse s.held.ledger s.pc)

variable {n fsize x}

/-- Once off course, the stray release comes and stays. -/
theorem offCourse_step {held : Held} {p : InitPc} (res : Option Errno)
    (h : OffCourse held.ledger p) :
    OffCourse (effect n (mcdevdrvsInit n fsize res p).1 held).ledger
      (mcdevdrvsInit n fsize res p).2 := by
  cases p with
  | kfifoFree j i ret =>
      have hfree : ∀ l : Ledger Resource, l = held.ledger ∨ l = held.ledger.release (.kfifo j) →
          l.strays ≠ 0 ∨ .cdev i ∉ l.held := by
        rintro l (rfl | rfl)
        · exact h
        · exact h.imp (Ledger.strays_release · _) (Ledger.notMem_release · _)
      have hledger := hfree (effect n (.freeFifo j) held).ledger (by
        simp only [effect]
        split_ifs
        · exact .inr rfl
        · exact .inl rfl)
      cases j <;> exact hledger
  | cdevDel i ret => exact h.elim (Ledger.strays_release · _) Ledger.strays_of_notMem
  | deviceDestroy i ret =>
      have hledger := Ledger.strays_release h (.device i)
      cases i with
      | zero => exact hledger
      | succ i => exact .inl hledger
  | classDestroy ret => exact Ledger.strays_release h _
  | unregisterChrdevRegion ret => exact Ledger.strays_release h _
  | returned ret => exact h
  | _ => exact h.elim

theorem rank_offCourse {l : Ledger Resource} {p : InitPc} (res : Option Errno)
    (h : OffCourse l p) (hp : ∀ ret, p ≠ .returned ret) :
    rank n (mcdevdrvsInit n fsize res p).2 < rank n p := by
  cases p with
  | kfifoFree j i ret => cases j <;> simp only [mcdevdrvsInit, rank] <;> omega
  | cdevDel i ret => simp only [mcdevdrvsInit, rank]; omega
  | deviceDestroy i ret => cases i <;> simp only [mcdevdrvsInit, rank] <;> omega
  | classDestroy | unregisterChrdevRegion => simp [mcdevdrvsInit, rank]
  | returned ret => exact absurd rfl (hp ret)
  | _ => exact h.elim

theorem rank_fifoLoop (i : ℕ) : rank n (fifoLoop n i) ≤ 3 * n + 6 + (n - i) := by
  unfold fifoLoop
  split_ifs
  · exact Nat.le_refl _
  · exact Nat.zero_le _

theorem rank_deviceLoop (i : ℕ) : rank n (deviceLoop n i) ≤ 4 * n + 8 + 2 * (n - i) := by
  unfold deviceLoop
  split_ifs
  · exact Nat.le_refl _
  · have := rank_fifoLoop (n := n) 0
    omega

theorem forall_lt_succ {P : ℕ → Prop} {i : ℕ} (h : ∀ j < i, P j) (hi : P i) : ∀ j < i + 1, P j := by
  intro j hj
  rcases Nat.lt_succ_iff_lt_or_eq.mp hj with hlt | rfl
  · exact h j hlt
  · exact hi

theorem onCourse_fifoLoop {l : Ledger Resource} {i : ℕ} (hi : i ≤ n) (hregion : x.region = none)
    (hclass : x.newClass = none) (hdev : ∀ j < n, x.device j = none ∧ x.cdev j = none)
    (hfifo : ∀ j < i, ∃ f, KernelPrimitives.kfifoAlloc fsize (x.kfifo j).isNone = .ok f)
    (hl : l.Holds (fifos n i)) : OnCourse n fsize x l (fifoLoop n i) := by
  unfold fifoLoop
  split_ifs with h
  · exact ⟨⟨hregion, hclass, h, hdev, hfifo⟩, hl⟩
  · obtain rfl : i = n := by omega
    exact .inl ⟨rfl, ⟨hdev, hfifo⟩, hl⟩

theorem onCourse_deviceLoop {l : Ledger Resource} {i : ℕ} (hi : i ≤ n) (hregion : x.region = none)
    (hclass : x.newClass = none) (hdev : ∀ j < i, x.device j = none ∧ x.cdev j = none)
    (hl : l.Holds (devices i)) : OnCourse n fsize x l (deviceLoop n i) := by
  unfold deviceLoop
  split_ifs with h
  · exact ⟨⟨hregion, hclass, h, hdev⟩, hl⟩
  · obtain rfl : i = n := by omega
    refine onCourse_fifoLoop (Nat.zero_le i) hregion hclass hdev nofun ?_
    rw [fifos_zero]
    exact hl

/-- A failing call in turn `i` of the first loop. -/
theorem offCourse_device {l : Ledger Resource} {m : Multiset Resource} {i : ℕ} (ret : ℤ)
    (h : InDevices n x i) (hfail : ¬(x.device i = none ∧ x.cdev i = none)) (hl : l.Holds m)
    (hm : .cdev i ∉ m) : ¬Clean n fsize x ∧ OffCourse l (.cdevDel i ret) := by
  refine ⟨?_, .inr ?_⟩
  · rintro (hr | hc | hloops)
    · exact hr h.region
    · exact hc h.newClass
    · exact hfail (hloops.1 i h.lt)
  · rw [hl]
    exact hm

/-- A failing call in turn `i` of the second loop. -/
theorem offCourse_fifo {l : Ledger Resource} {i : ℕ} (ret : ℤ) (h : InFifos n fsize x i)
    (hfail : ∀ f, KernelPrimitives.kfifoAlloc fsize (x.kfifo i).isNone ≠ .ok f)
    (hl : l.Holds (fifos n i)) : ¬Clean n fsize x ∧ OffCourse l (.kfifoFree i n ret) := by
  refine ⟨?_, .inr ?_⟩
  · rintro (hr | hc | hloops)
    · exact hr h.region
    · exact hc h.newClass
    · obtain ⟨f, hf⟩ := hloops.2 i h.lt
      exact hfail f hf
  · rw [hl, cdev_mem_fifos]
    exact Nat.lt_irrefl n

variable (n fsize x) in
/-- The step from `p` is tracked and brings the return closer. -/
def StepTracked (held : Held) (p : InitPc) : Prop :=
  Tracked n fsize x (advance n fsize x ⟨held, p⟩) ∧
    rank n (advance n fsize x ⟨held, p⟩).pc < rank n p

section Turns
variable {held : Held} {i : ℕ}

theorem allocChrdevRegion_step (hout : held.outside = false) (hl : held.ledger.Holds 0) :
    StepTracked n fsize x held .allocChrdevRegion := by
  cases hx : x.region with
  | none =>
      simp only [StepTracked, advance, Results.at, hx, mcdevdrvsInit, orGoto, effect]
      exact ⟨.inl ⟨hout, hx, hl.acquire _⟩, by simp [rank]⟩
  | some err =>
      simp only [StepTracked, advance, Results.at, hx, mcdevdrvsInit, orGoto, effect]
      exact ⟨.inl ⟨hout, .inr ⟨err.neg, .inl (by simp [hx]), hl⟩⟩, by simp [rank]⟩

theorem classCreate_step (hout : held.outside = false) (hregion : x.region = none)
    (hl : held.ledger.Holds {.region}) : StepTracked n fsize x held .classCreate := by
  cases hx : x.newClass with
  | none =>
      simp only [StepTracked, advance, Results.at, hx, mcdevdrvsInit, orGoto, effect]
      refine ⟨.inl ⟨hout, onCourse_deviceLoop (Nat.zero_le n) hregion hx nofun ?_⟩, ?_⟩
      · rw [devices_zero]
        exact hl.acquire _
      · have hrank := rank_deviceLoop (n := n) 0
        show rank n (deviceLoop n 0) < 6 * n + 9
        omega
  | some err =>
      simp only [StepTracked, advance, Results.at, hx, mcdevdrvsInit, orGoto, effect]
      exact ⟨.inl ⟨hout, by simp [hx], err.neg, hl⟩, by simp [rank]⟩

theorem deviceCreate_step (hout : held.outside = false) (hin : InDevices n x i)
    (hl : held.ledger.Holds (devices i)) : StepTracked n fsize x held (.deviceCreate i) := by
  have hlt := hin.lt
  cases hx : x.device i with
  | none =>
      simp only [StepTracked, advance, Results.at, hx, mcdevdrvsInit, orGoto, effect]
      exact ⟨.inl ⟨hout, hin, hx, hl.acquire _⟩, by simp [rank]⟩
  | some err =>
      simp only [StepTracked, advance, Results.at, hx, mcdevdrvsInit, orGoto, effect]
      refine ⟨.inr (offCourse_device err.val hin (by simp [hx]) hl ?_), ?_⟩
      · rw [cdev_mem_devices]
        omega
      · simp only [rank]
        omega

theorem cdevAdd_step (hout : held.outside = false) (hin : InDevices n x i)
    (hdev : x.device i = none) (hl : held.ledger.Holds (.device i ::ₘ devices i)) :
    StepTracked n fsize x held (.cdevAdd i) := by
  have hlt := hin.lt
  cases hx : x.cdev i with
  | none =>
      simp only [StepTracked, advance, Results.at, hx, mcdevdrvsInit, orGoto, effect]
      refine ⟨.inl ⟨by simp [hout, hlt], ?_⟩, ?_⟩
      · refine onCourse_deviceLoop hlt hin.region hin.newClass ?_ ?_
        · exact forall_lt_succ hin.before ⟨hdev, hx⟩
        · rw [devices_succ]
          exact hl.acquire _
      · have hrank := rank_deviceLoop (n := n) (i + 1)
        show rank n (deviceLoop n (i + 1)) < 4 * n + 7 + 2 * (n - i)
        omega
  | some err =>
      simp only [StepTracked, advance, Results.at, hx, mcdevdrvsInit, orGoto, effect]
      refine ⟨.inr (offCourse_device 0 hin (by simp [hx]) hl ?_), ?_⟩
      · simp [cdev_mem_devices]
      · simp only [rank]
        omega

theorem kfifoAlloc_step (hout : held.outside = false) (hin : InFifos n fsize x i)
    (hl : held.ledger.Holds (fifos n i)) : StepTracked n fsize x held (.kfifoAlloc i) := by
  have hlt := hin.lt
  cases hx : KernelPrimitives.kfifoAlloc fsize (x.kfifo i).isNone with
  | ok f =>
      simp only [StepTracked, advance, Results.at, hx, mcdevdrvsInit, effect]
      refine ⟨.inl ⟨by simp [hout, hlt], ?_⟩, ?_⟩
      · refine onCourse_fifoLoop hlt hin.region hin.newClass hin.devices ?_ ?_
        · exact forall_lt_succ hin.before ⟨f, hx⟩
        · rw [fifos_succ]
          exact hl.acquire _
      · have hrank := rank_fifoLoop (n := n) (i + 1)
        show rank n (fifoLoop n (i + 1)) < 3 * n + 6 + (n - i)
        omega
  | error ret =>
      simp only [StepTracked, advance, Results.at, hx, mcdevdrvsInit, effect]
      refine ⟨.inr (offCourse_fifo ret hin (by simp [hx]) hl), ?_⟩
      simp only [rank]
      omega

end Turns

theorem tracked_step {held : Held} {p : InitPc} (hout : held.outside = false)
    (h : OnCourse n fsize x held.ledger p) (hp : ∀ ret, p ≠ .returned ret) :
    StepTracked n fsize x held p := by
  cases p with
  | allocChrdevRegion => exact allocChrdevRegion_step hout h
  | classCreate => exact classCreate_step hout h.1 h.2
  | deviceCreate i => exact deviceCreate_step hout h.1 h.2
  | cdevAdd i => exact cdevAdd_step hout h.1 h.2.1 h.2.2
  | kfifoAlloc i => exact kfifoAlloc_step hout h.1 h.2
  | unregisterChrdevRegion ret =>
      obtain ⟨hx, hret, hl⟩ := h
      exact ⟨.inl ⟨hout, .inr ⟨hret, .inr hx, Ledger.Holds.release hl⟩⟩,
        by simp [advance, mcdevdrvsInit, rank]⟩
  | returned ret => exact absurd rfl (hp ret)
  | _ => exact h.elim

theorem tracked_advance {s : State} (h : Tracked n fsize x s) (hp : ¬∃ ret, s.pc = .returned ret) :
    Tracked n fsize x (advance n fsize x s) ∧ rank n (advance n fsize x s).pc < rank n s.pc := by
  have hp' : ∀ ret, s.pc ≠ .returned ret := fun ret he => hp ⟨ret, he⟩
  rcases h with ⟨hout, hon⟩ | ⟨hdirty, hoff⟩
  · exact tracked_step hout hon hp'
  · exact ⟨.inr ⟨hdirty, offCourse_step _ hoff⟩, rank_offCourse _ hoff hp'⟩

theorem tracked_outcome (n : ℕ) (fsize : BitVec 32) (x : Results) :
    Tracked n fsize x (outcome n fsize x) ∧ ∃ ret, (outcome n fsize x).pc = .returned ret := by
  have hstay : ∀ s : State, (∃ ret, s.pc = .returned ret) → advance n fsize x s = s := by
    rintro ⟨held, pc⟩ ⟨ret, hret⟩
    cases hret
    rfl
  have hstart : Tracked n fsize x initial := .inl ⟨rfl, Ledger.holds_empty⟩
  exact iterate_stopped (fun s => rank n s.pc) (fun _ => tracked_advance) hstay hstart
    (Nat.le_refl _)

/-- `mcdevdrvs_init` returns, and it is all-or-nothing exactly if it fails
before its loops or none of the kernel calls in them fails. -/
theorem allOrNothing_iff_clean (n : ℕ) (fsize : BitVec 32) (x : Results) :
    ∃ ret, (outcome n fsize x).pc = .returned ret ∧
      (AllOrNothing n (outcome n fsize x) ret ↔ Clean n fsize x) := by
  obtain ⟨htracked, ret, hret⟩ := tracked_outcome n fsize x
  refine ⟨ret, hret, ?_⟩
  rw [Tracked, hret] at htracked
  rcases htracked with ⟨hout, ⟨rfl, hloops, hl⟩ | ⟨hneg, hearly, hl⟩⟩ | ⟨hdirty, hstray⟩
  · exact iff_of_true ⟨fun _ => hl, fun h => absurd rfl h, hout⟩ (.inr (.inr hloops))
  · refine iff_of_true ⟨fun h => ?_, fun _ => ⟨hneg, hl⟩, hout⟩ ?_
    · omega
    · exact hearly.imp id .inl
  · refine iff_of_false (fun h => hstray ?_) hdirty
    by_cases hzero : ret = 0
    · exact (h.success hzero).strays
    · exact (h.failure hzero).2.strays

end Correctness

/-- Everything succeeds but the `cdev_add` of the only minor. -/
def failingCdevAdd : Results where
  region := none
  newClass := none
  device _ := none
  cdev _ := some ⟨-ENOMEM, neg_ENOMEM⟩
  kfifo _ := none

theorem not_allOrNothing_failingCdevAdd :
    ¬∀ n fsize x, 1 ≤ n →
      ∃ ret, (outcome n fsize x).pc = .returned ret ∧ AllOrNothing n (outcome n fsize x) ret := by
  intro h
  obtain ⟨ret, hret, hall⟩ := h 1 16 failingCdevAdd (Nat.le_refl 1)
  have hpc : (outcome 1 16 failingCdevAdd).pc = .returned 0 := rfl
  rw [hpc] at hret
  cases hret
  have hstrays := (hall.success rfl).strays
  have hcdev : (outcome 1 16 failingCdevAdd).held.ledger.strays = {.cdev 0} := rfl
  rw [hcdev] at hstrays
  exact Multiset.singleton_ne_zero _ hstrays

end LinuxDeviceDrivers.McdevdrvsInit
