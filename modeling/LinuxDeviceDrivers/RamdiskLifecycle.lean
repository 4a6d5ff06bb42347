import LinuxDeviceDrivers.KernelPrimitives
import Mathlib.Data.List.Nodup

/-!
# Loading and unloading the RAM disk

`ramdisk_blkdev_init` with the error path of `setup_rmablkdev`, any opens and
releases of the disk and its partitions, and `ramdisk_blkdev_exit`. A lifecycle
is a whole run of these; the exit belongs to it if the init has returned 0.

The model keeps what has been acquired and released and notes every access or
release that has nothing behind it. `put_disk` is commented out in both paths,
so a gendisk that was allocated is never given back.
-/
namespace LinuxDeviceDrivers.RamdiskLifecycle
open KernelPrimitives

/-- A block device that an open can be about. -/
inductive BlockDevice where
  | whole
  | partition (n : ℕ)
deriving DecidableEq, Repr

/-- A major is registered under its number; `gendisk` is the reference that
`blk_mq_alloc_disk` returns. -/
inductive Resource where
  | blkPrv
  | major (n : ℤ)
  | data
  | tagSet
  | gendisk
deriving DecidableEq, Repr

inductive Fault where
  | nullDereference
  | freedDereference
  | delGendiskNotAdded
  | strayBlkdevPut
deriving DecidableEq, Repr

/-- The fields of `struct blk_priv_dev` that exit reads; `gdisk` says that the
pointer is not null. -/
structure BlkPrivDev where
  major : ℤ
  gdisk : Bool
  blkdev : Option BlockDevice
deriving DecidableEq, Repr

/-- The global `blk_prv`, whether the disk is added, and the history. -/
structure State where
  blkPrv : Option BlkPrivDev
  added : Bool
  acquired : List Resource
  released : List Resource
  faults : List Fault
deriving DecidableEq, Repr

namespace State

def acquire (s : State) (r : Resource) : State := { s with acquired := r :: s.acquired }

def release (s : State) (r : Resource) : State := { s with released := r :: s.released }

def fault (s : State) (f : Fault) : State := { s with faults := f :: s.faults }

@[simp] theorem acquire_acquired (s : State) (r : Resource) :
    (s.acquire r).acquired = r :: s.acquired := rfl
@[simp] theorem acquire_released (s : State) (r : Resource) :
    (s.acquire r).released = s.released := rfl
@[simp] theorem acquire_faults (s : State) (r : Resource) : (s.acquire r).faults = s.faults := rfl
@[simp] theorem release_acquired (s : State) (r : Resource) :
    (s.release r).acquired = s.acquired := rfl
@[simp] theorem release_released (s : State) (r : Resource) :
    (s.release r).released = r :: s.released := rfl
@[simp] theorem release_faults (s : State) (r : Resource) : (s.release r).faults = s.faults := rfl
@[simp] theorem fault_acquired (s : State) (f : Fault) : (s.fault f).acquired = s.acquired := rfl
@[simp] theorem fault_released (s : State) (f : Fault) : (s.fault f).released = s.released := rfl
@[simp] theorem fault_faults (s : State) (f : Fault) : (s.fault f).faults = f :: s.faults := rfl

def delGendisk (s : State) : State :=
  if s.added then { s with added := false } else s.fault .delGendiskNotAdded

end State

/-- The results of the kernel calls of `ramdisk_blkdev_init`. -/
structure Results where
  kzallocPrv : Bool
  registerBlkdev : Except Errno ℕ
  kzallocData : Bool
  allocTagSet : Option Errno
  allocDisk : Option Errno
  addDisk : Option Errno

/-- What is done with the block devices while the disk is there. -/
inductive Op where
  | openDev (dev : BlockDevice)
  | releaseDev (dev : BlockDevice)
deriving DecidableEq, Repr

/-- `ramdisk_blkdev_open` and `ramdisk_blkdev_release` -/
def ramdiskBlkdevOp (s : State) : Op → State
  | .openDev dev =>
      match s.blkPrv with
      | none => s.fault .nullDereference
      | some prv => { s with blkPrv := some { prv with blkdev := some dev } }
  | .releaseDev _ => s

/-- `add_disk` scans the new disk for partitions, and opens it for that. -/
def addDisk (s : State) : State := ramdiskBlkdevOp { s with added := true } (.openDev .whole)

section Setup
variable (major ret : ℤ) (s : State)

def errAlloc : Option ℤ × State := (some ret, (s.release (.major major)).release .blkPrv)

def errAllocTag : Option ℤ × State := errAlloc major ret (s.release .data)

def errMqAlloc : Option ℤ × State := errAllocTag major ret (s.release .tagSet)

def errAddDisk : Option ℤ × State := errMqAlloc major ret s.delGendisk

def setupRmablkdev (prv : BlkPrivDev) (x : Results) : Option ℤ × State :=
  if !x.kzallocData then errAlloc major (-ENOMEM) s
  else
    let s := s.acquire .data
    match x.allocTagSet with
    | some err => errAllocTag major err.val s
    | none =>
      let s := s.acquire .tagSet
      match x.allocDisk with
      | some err => errMqAlloc major err.val s
      | none =>
        let s := { s.acquire .gendisk with blkPrv := some { prv with gdisk := true } }
        match x.addDisk with
        | some err => errAddDisk major err.val s
        | none => (some 0, addDisk s)

end Setup

/-- The value that is stored in `blk_prv->major`, tested or not. -/
def majorOf : Except Errno ℕ → ℤ
  | .ok n => n
  | .error err => err.val

def initial : State := ⟨none, false, [], [], []⟩

/-- No return value is a crash: the store to `blk_prv->major` comes before the
test of `blk_prv`. -/
def ramdiskBlkdevInit (x : Results) : Option ℤ × State :=
  let s := if x.kzallocPrv then initial.acquire .blkPrv else initial
  let s := match x.registerBlkdev with
    | .ok n => s.acquire (.major n)
    | .error _ => s
  if !x.kzallocPrv then (none, s.fault .nullDereference)
  else
    let prv : BlkPrivDev := ⟨majorOf x.registerBlkdev, false, none⟩
    setupRmablkdev (majorOf x.registerBlkdev) { s with blkPrv := some prv } prv x

/-- The end of `ramdisk_blkdev_exit`. -/
def freeData (prv : BlkPrivDev) (s : State) : State :=
  ((s.release .data).release (.major prv.major)).release .blkPrv

/-- `bdev_is_partition` and `blkdev_put` on the device of the last open:
`del_gendisk` has freed the partitions, and the driver has no reference to put. -/
def putBlkdev (prv : BlkPrivDev) (s : State) : State :=
  match prv.blkdev with
  | none => s.fault .nullDereference
  | some .whole => freeData prv s
  | some (.partition _) => freeData prv ((s.fault .freedDereference).fault .strayBlkdevPut)

def ramdiskBlkdevExit (s : State) : State :=
  match s.blkPrv with
  | none => s
  | some prv =>
      let s := if prv.gdisk then s.delGendisk else s
      putBlkdev prv (s.release .tagSet)

/-- A whole lifecycle: the init, and the uses and the exit if it has returned 0. -/
def lifecycle (x : Results) (ops : List Op) : State :=
  match ramdiskBlkdevInit x with
  | (some 0, s) => ramdiskBlkdevExit (ops.foldl ramdiskBlkdevOp s)
  | (_, s) => s

/-- Every resource that was acquired has been released exactly once, and nothing
was accessed or released that was not there. -/
structure Clean (s : State) : Prop where
  released : ∀ r ∈ s.acquired, s.acquired.count r = 1 ∧ s.released.count r = 1
  faults : s.faults = []

/-- The init fails before it has a gendisk, and with memory for `blk_prv`. -/
def FailsEarly (x : Results) : Prop :=
  x.kzallocPrv = true ∧ (x.kzallocData = false ∨ x.allocTagSet ≠ none ∨ x.allocDisk ≠ none)


/-! ## The gendisk reference -/

/-- A gendisk was allocated and nothing has put it. -/
def HoldsGendisk (s : State) : Prop :=
  Resource.gendisk ∈ s.acquired ∧ Resource.gendisk ∉ s.released

section Holding
variable {s : State}

theorem HoldsGendisk.not_clean (h : HoldsGendisk s) : ¬Clean s := by
  intro hc
  have hone := (hc.released _ h.1).2
  have hzero := List.count_eq_zero_of_not_mem h.2
  omega

theorem HoldsGendisk.of_histories {t : State} (h : HoldsGendisk s) (ha : t.acquired = s.acquired)
    (hr : t.released = s.released) : HoldsGendisk t := by
  unfold HoldsGendisk
  rw [ha, hr]
  exact h

theorem HoldsGendisk.release (h : HoldsGendisk s) {r : Resource} (hr : r ≠ .gendisk) :
    HoldsGendisk (s.release r) := by
  constructor
  · exact h.1
  · intro hm
    rcases List.mem_cons.mp hm with he | hm
    · exact hr he.symm
    · exact h.2 hm

theorem HoldsGendisk.fault (h : HoldsGendisk s) (f : Fault) : HoldsGendisk (s.fault f) :=
  h.of_histories rfl rfl

theorem HoldsGendisk.delGendisk (h : HoldsGendisk s) : HoldsGendisk s.delGendisk := by
  unfold State.delGendisk
  split
  · exact h.of_histories rfl rfl
  · exact h.fault _

theorem HoldsGendisk.errAddDisk (h : HoldsGendisk s) (major ret : ℤ) :
    HoldsGendisk (errAddDisk major ret s).2 := by
  have htags := h.delGendisk.release (r := .tagSet) (by simp)
  have hdata := htags.release (r := .data) (by simp)
  have hmajor := hdata.release (r := .major major) (by simp)
  exact hmajor.release (by simp)

theorem HoldsGendisk.step (h : HoldsGendisk s) (op : Op) :
    HoldsGendisk (ramdiskBlkdevOp s op) := by
  cases op with
  | openDev dev =>
      simp only [ramdiskBlkdevOp]
      split
      · exact h.fault _
      · exact h.of_histories rfl rfl
  | releaseDev dev => exact h

/-- No open or release of a block device touches the gendisk. -/
theorem HoldsGendisk.run (h : HoldsGendisk s) (ops : List Op) :
    HoldsGendisk (ops.foldl ramdiskBlkdevOp s) := by
  induction ops generalizing s with
  | nil => exact h
  | cons op ops ih => exact ih (h.step op)

theorem HoldsGendisk.freeData (h : HoldsGendisk s) (prv : BlkPrivDev) :
    HoldsGendisk (freeData prv s) := by
  have hdata := h.release (r := .data) (by simp)
  have hmajor := hdata.release (r := .major prv.major) (by simp)
  exact hmajor.release (by simp)

theorem HoldsGendisk.exit (h : HoldsGendisk s) : HoldsGendisk (ramdiskBlkdevExit s) := by
  unfold ramdiskBlkdevExit
  split
  · exact h
  · rename_i prv hprv
    have hdel : HoldsGendisk (if prv.gdisk then s.delGendisk else s) := by
      split
      · exact h.delGendisk
      · exact h
    have htags := hdel.release (r := .tagSet) (by simp)
    simp only [putBlkdev]
    split
    · exact htags.fault _
    · exact htags.freeData prv
    · exact ((htags.fault _).fault _).freeData prv

end Holding


/-! ## Failing before the gendisk -/

theorem Clean.of_nodup {s : State} (ha : s.acquired.Nodup) (hr : s.released.Nodup)
    (hsub : s.acquired ⊆ s.released) (hf : s.faults = []) : Clean s := by
  constructor
  · intro r hm
    constructor
    · exact List.count_eq_one_of_mem ha hm
    · exact List.count_eq_one_of_mem hr (hsub hm)
  · exact hf

/-- The state in which the init calls `setup_rmablkdev`. -/
structure Entered (major : ℤ) (s : State) : Prop where
  acquired : s.acquired = [.major major, .blkPrv] ∨ s.acquired = [.blkPrv]
  released : s.released = []
  faults : s.faults = []

theorem init_of_kzallocPrv {x : Results} (h : x.kzallocPrv = true) :
    ∃ prv s, Entered (majorOf x.registerBlkdev) s ∧
      ramdiskBlkdevInit x = setupRmablkdev (majorOf x.registerBlkdev) s prv x := by
  simp only [ramdiskBlkdevInit, h, if_true, Bool.not_true, Bool.false_eq_true, if_false]
  refine ⟨_, _, ?_, rfl⟩
  cases x.registerBlkdev with
  | ok n => exact ⟨Or.inl rfl, rfl, rfl⟩
  | error err => exact ⟨Or.inr rfl, rfl, rfl⟩

theorem init_of_not_kzallocPrv {x : Results} (h : x.kzallocPrv = false) :
    (ramdiskBlkdevInit x).1 = none ∧
      (ramdiskBlkdevInit x).2.faults = [.nullDereference] := by
  cases hreg : x.registerBlkdev with
  | ok n => simp [ramdiskBlkdevInit, h, hreg, initial]
  | error err => simp [ramdiskBlkdevInit, h, hreg, initial]

section Early
variable {major : ℤ} {s : State} (h : Entered major s)
include h

theorem Entered.clean_errAlloc (ret : ℤ) : Clean (errAlloc major ret s).2 := by
  rcases h.acquired with ha | ha
  · apply Clean.of_nodup <;> simp [errAlloc, ha, h.released, h.faults]
  · apply Clean.of_nodup <;> simp [errAlloc, ha, h.released, h.faults]

theorem Entered.clean_errAllocTag (ret : ℤ) :
    Clean (errAllocTag major ret (s.acquire .data)).2 := by
  rcases h.acquired with ha | ha
  · apply Clean.of_nodup <;> simp [errAllocTag, errAlloc, ha, h.released, h.faults]
  · apply Clean.of_nodup <;> simp [errAllocTag, errAlloc, ha, h.released, h.faults]

theorem Entered.clean_errMqAlloc (ret : ℤ) :
    Clean (errMqAlloc major ret ((s.acquire .data).acquire .tagSet)).2 := by
  rcases h.acquired with ha | ha
  · apply Clean.of_nodup <;> simp [errMqAlloc, errAllocTag, errAlloc, ha, h.released, h.faults]
  · apply Clean.of_nodup <;> simp [errMqAlloc, errAllocTag, errAlloc, ha, h.released, h.faults]

end Early


/-! ## The whole lifecycle -/

theorem lifecycle_of_failed {x : Results} (h : (ramdiskBlkdevInit x).1 ≠ some 0) (ops : List Op) :
    lifecycle x ops = (ramdiskBlkdevInit x).2 := by
  unfold lifecycle
  split
  · rename_i hinit
    rw [hinit] at h
    exact absurd rfl h
  · rename_i hinit
    rw [hinit]

theorem lifecycle_of_loaded {x : Results} {s : State} (h : ramdiskBlkdevInit x = (some 0, s))
    (ops : List Op) : lifecycle x ops = ramdiskBlkdevExit (ops.foldl ramdiskBlkdevOp s) := by
  simp only [lifecycle, h]

section Setup
variable {major : ℤ} {s : State} {prv : BlkPrivDev} {x : Results}

/-- Setup before the gendisk: the error paths release what there is. -/
theorem Entered.setup_early (h : Entered major s)
    (hx : x.kzallocData = false ∨ x.allocTagSet ≠ none ∨ x.allocDisk ≠ none) :
    (setupRmablkdev major s prv x).1 ≠ some 0 ∧ Clean (setupRmablkdev major s prv x).2 := by
  have hneg (ret : ℤ) (hret : ret < 0) : some ret ≠ some 0 := by
    intro he
    cases he
    exact absurd hret (lt_irrefl 0)
  cases hdata : x.kzallocData with
  | false =>
      simp only [setupRmablkdev, hdata, Bool.not_false, if_true]
      exact ⟨hneg _ neg_ENOMEM, h.clean_errAlloc _⟩
  | true =>
      cases htags : x.allocTagSet with
      | some err =>
          simp only [setupRmablkdev, hdata, htags, Bool.not_true, Bool.false_eq_true, if_false]
          exact ⟨hneg _ err.neg, h.clean_errAllocTag _⟩
      | none =>
          cases hdisk : x.allocDisk with
          | some err =>
              simp only [setupRmablkdev, hdata, htags, hdisk, Bool.not_true, Bool.false_eq_true,
                if_false]
              exact ⟨hneg _ err.neg, h.clean_errMqAlloc _⟩
          | none =>
              rw [hdata, htags, hdisk] at hx
              simp at hx

/-- Setup from the gendisk on: it keeps the reference, whether it fails or not. -/
theorem Entered.setup_late (h : Entered major s) (hdata : x.kzallocData = true)
    (htags : x.allocTagSet = none) (hdisk : x.allocDisk = none) :
    HoldsGendisk (setupRmablkdev major s prv x).2 := by
  have hholds (b : Option BlkPrivDev) : HoldsGendisk
      { (((s.acquire .data).acquire .tagSet).acquire .gendisk) with blkPrv := b } := by
    constructor
    · exact List.mem_cons_self
    · simp [h.released]
  simp only [setupRmablkdev, hdata, htags, hdisk, Bool.not_true, Bool.false_eq_true, if_false]
  split
  · exact (hholds _).errAddDisk _ _
  · have hadded := (hholds (some { prv with gdisk := true })).of_histories rfl rfl
    exact hadded.step (.openDev .whole)

end Setup

theorem HoldsGendisk.lifecycle {x : Results} (h : HoldsGendisk (ramdiskBlkdevInit x).2)
    (ops : List Op) : HoldsGendisk (lifecycle x ops) := by
  by_cases hret : (ramdiskBlkdevInit x).1 = some 0
  · have hinit : ramdiskBlkdevInit x = (some 0, (ramdiskBlkdevInit x).2) := Prod.ext hret rfl
    rw [lifecycle_of_loaded hinit]
    exact (h.run ops).exit
  · rw [lifecycle_of_failed hret]
    exact h

/-! ## What the exit does with the last open -/

/-- The device that `blk_prv->blkdev` is about after the operations. -/
def lastOpened (last : BlockDevice) : List Op → BlockDevice
  | [] => last
  | .openDev dev :: ops => lastOpened dev ops
  | .releaseDev _ :: ops => lastOpened last ops

/-- The wrong accesses of the exit, the last one first. -/
def exitFaults : BlockDevice → List Fault
  | .whole => []
  | .partition _ => [.strayBlkdevPut, .freedDereference]

/-- The module is loaded and nothing has gone wrong. -/
structure Loaded (last : BlockDevice) (s : State) : Prop where
  blkPrv : ∃ prv, s.blkPrv = some prv ∧ prv.gdisk = true ∧ prv.blkdev = some last
  added : s.added = true
  faults : s.faults = []

section Unload
variable {s : State} {last : BlockDevice}

theorem Loaded.run (h : Loaded last s) (ops : List Op) :
    Loaded (lastOpened last ops) (ops.foldl ramdiskBlkdevOp s) := by
  induction ops generalizing s last with
  | nil => exact h
  | cons op ops ih =>
      cases op with
      | openDev dev =>
          obtain ⟨prv, hprv, hdisk, -⟩ := h.blkPrv
          apply ih
          simp only [ramdiskBlkdevOp, hprv]
          exact ⟨⟨_, rfl, hdisk, rfl⟩, h.added, h.faults⟩
      | releaseDev dev => exact ih h

theorem Loaded.exit_faults (h : Loaded last s) :
    (ramdiskBlkdevExit s).faults = exitFaults last := by
  obtain ⟨prv, hprv, hdisk, hlast⟩ := h.blkPrv
  simp only [ramdiskBlkdevExit, hprv, hdisk, if_true, State.delGendisk, h.added, putBlkdev, hlast]
  cases last with
  | whole => simp [exitFaults, freeData, h.faults]
  | partition n => simp [exitFaults, freeData, h.faults]

end Unload

theorem Entered.setup_loaded {major : ℤ} {s : State} {prv : BlkPrivDev} {x : Results}
    (h : Entered major s) (hret : (setupRmablkdev major s prv x).1 = some 0) :
    Loaded .whole (setupRmablkdev major s prv x).2 := by
  by_cases hx : x.kzallocData = false ∨ x.allocTagSet ≠ none ∨ x.allocDisk ≠ none
  · exact absurd hret (h.setup_early hx).1
  · simp only [not_or, not_not, Bool.not_eq_false] at hx
    obtain ⟨hdata, htags, hdisk⟩ := hx
    revert hret
    simp only [setupRmablkdev, hdata, htags, hdisk, Bool.not_true, Bool.false_eq_true, if_false]
    split
    · rename_i err _
      intro hret
      exact absurd (Option.some.inj hret) (ne_of_lt err.neg)
    · intro _
      exact ⟨⟨_, rfl, rfl, rfl⟩, rfl, h.faults⟩

/-- A module that was loaded unloads without a wrong access exactly if the last
device that was opened is the whole disk; `add_disk` has opened it first. -/
theorem unload_faults_iff {x : Results} (h : (ramdiskBlkdevInit x).1 = some 0) (ops : List Op) :
    (lifecycle x ops).faults = [] ↔ lastOpened .whole ops = .whole := by
  have hprv : x.kzallocPrv = true := by
    by_contra hfail
    rw [(init_of_not_kzallocPrv (Bool.not_eq_true _ ▸ hfail)).1] at h
    cases h
  obtain ⟨prv, s, hs, hinit⟩ := init_of_kzallocPrv hprv
  have hloaded : Loaded .whole (ramdiskBlkdevInit x).2 := by
    rw [hinit] at h ⊢
    exact hs.setup_loaded h
  rw [lifecycle_of_loaded (Prod.ext h rfl), (hloaded.run ops).exit_faults]
  cases lastOpened .whole ops with
  | whole => simp [exitFaults]
  | partition n => simp [exitFaults]

/-! ## The result -/

/-- A lifecycle is clean exactly if the init fails before it has a gendisk, and
not by the missing memory for `blk_prv`. -/
theorem clean_iff_failsEarly (x : Results) (ops : List Op) :
    Clean (lifecycle x ops) ↔ FailsEarly x := by
  cases hprv : x.kzallocPrv with
  | false =>
      obtain ⟨hret, hfault⟩ := init_of_not_kzallocPrv hprv
      constructor
      · intro hc
        rw [lifecycle_of_failed (by rw [hret]; simp)] at hc
        have hnone := hc.faults
        rw [hfault] at hnone
        cases hnone
      · intro hearly
        have := hearly.1
        rw [hprv] at this
        cases this
  | true =>
      obtain ⟨prv, s, hs, hinit⟩ := init_of_kzallocPrv hprv
      constructor
      · intro hc
        refine ⟨hprv, ?_⟩
        by_contra hlate
        simp only [not_or, not_not, Bool.not_eq_false] at hlate
        obtain ⟨hdata, htags, hdisk⟩ := hlate
        have hholds : HoldsGendisk (ramdiskBlkdevInit x).2 := by
          rw [hinit]
          exact hs.setup_late hdata htags hdisk
        exact (hholds.lifecycle ops).not_clean hc
      · intro hearly
        have hfailed : (ramdiskBlkdevInit x).1 ≠ some 0 ∧ Clean (ramdiskBlkdevInit x).2 := by
          rw [hinit]
          exact hs.setup_early hearly.2
        obtain ⟨hret, hclean⟩ := hfailed
        rw [lifecycle_of_failed hret]
        exact hclean

/-- Every call succeeds, and the whole disk is the last device that was opened:
the gendisk is still there after the exit. -/
theorem not_clean_loadedOnce : ¬∀ (x : Results) (ops : List Op), Clean (lifecycle x ops) := by
  intro h
  have hc := h ⟨true, .ok 252, true, none, none, none⟩ [.openDev .whole, .releaseDev .whole]
  have hone := (hc.released .gendisk (by decide)).2
  revert hone
  decide

end LinuxDeviceDrivers.RamdiskLifecycle
