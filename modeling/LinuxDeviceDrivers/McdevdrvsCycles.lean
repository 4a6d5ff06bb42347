import LinuxDeviceDrivers.McdevdrvsInit
import LinuxDeviceDrivers.ModuleCycles

/-!
# Loading and unloading mcdevdrvs

`mcdevdrvs_exit` gives back the devices, the class, the region and then the
kfifos. It undoes a clean `mcdevdrvs_init`, so the module can be loaded and
unloaded any number of times as long as no load fails in its loops. A failing
`cdev_add` does more harm than the others: the load reports success, and the
next unload releases everything a second time.
-/
namespace LinuxDeviceDrivers.McdevdrvsCycles
open KernelPrimitives ResourceLedger TransitionSystem ModuleCycles McdevdrvsInit

def exitEffects (n : ℕ) : List Effect :=
  (List.range n).flatMap (fun i => [.delCdev i, .release (.device i)]) ++
    [.release .newClass, .release .region] ++ (List.range n).map .freeFifo

def mcdevdrvsExit (n : ℕ) (s : Held) : Held := (exitEffects n).foldl (fun s e => effect n e s) s

/-- The state in which a call of `mcdevdrvs_init` returns that starts with the
ledger `l`. -/
def initFrom (n : ℕ) (fsize : BitVec 32) (x : Results) (l : Ledger Resource) : McdevdrvsInit.State :=
  (advance n fsize x)^[rank n .allocChrdevRegion] ⟨⟨l, false⟩, .allocChrdevRegion⟩

def retOf : InitPc → ℤ
  | .returned ret => ret
  | _ => 0

/-- The module with `n` minors; a load is given its `fsize` and the results of
its kernel calls. -/
def mcdevdrvs (n : ℕ) : Module (BitVec 32 × Results) Resource where
  init env l :=
    let s := initFrom n env.1 env.2 l
    (retOf s.pc, s.held.ledger)
  exit l := (mcdevdrvsExit n ⟨l, false⟩).ledger

section Exit
variable {n : ℕ} {s : Held}

/-- An effect that gives back a resource that is held. -/
inductive Releases : Effect → Resource → Prop
  | delCdev (i : ℕ) : Releases (.delCdev i) (.cdev i)
  | release (r : Resource) : Releases (.release r) r
  | freeFifo (i : ℕ) : Releases (.freeFifo i) (.kfifo i)

theorem Releases.holds {e : Effect} {r : Resource} {m : Multiset Resource} (he : Releases e r)
    (h : s.ledger.Holds (r ::ₘ m)) : (effect n e s).ledger.Holds m := by
  cases he with
  | delCdev i => exact h.release
  | release r => exact h.release
  | freeFifo i =>
      have hmem : Resource.kfifo i ∈ s.ledger.held := by
        rw [h]
        exact Multiset.mem_cons_self _ _
      show (if _ then _ else _ : Ledger Resource).Holds m
      rw [if_pos hmem]
      exact h.release

theorem holds_effects {es : List Effect} {rs : List Resource} (hes : List.Forall₂ Releases es rs)
    (h : s.ledger.Holds rs) : (es.foldl (fun s e => effect n e s) s).ledger.Holds 0 := by
  induction hes generalizing s with
  | nil => exact h
  | cons he _ ih =>
      rw [← Multiset.cons_coe] at h
      exact ih (he.holds h)

def exitResources (n : ℕ) : List Resource :=
  (List.range n).flatMap (fun i => [.cdev i, .device i]) ++ [.newClass, .region] ++
    (List.range n).map .kfifo

theorem exitEffects_releases (n : ℕ) : List.Forall₂ Releases (exitEffects n) (exitResources n) := by
  have hdevices : List.Forall₂ Releases
      ((List.range n).flatMap (fun i => [.delCdev i, .release (.device i)]))
      ((List.range n).flatMap (fun i => [.cdev i, .device i])) := by
    induction List.range n with
    | nil => exact .nil
    | cons i is ih => exact .cons (.delCdev i) (.cons (.release _) ih)
  have hfifos : List.Forall₂ Releases ((List.range n).map .freeFifo) ((List.range n).map .kfifo) := by
    induction List.range n with
    | nil => exact .nil
    | cons i is ih => exact .cons (.freeFifo i) ih
  exact List.rel_append (List.rel_append hdevices (.cons (.release _) (.cons (.release _) .nil))) hfifos

theorem coe_exitResources (n : ℕ) : (exitResources n : Multiset Resource) = everything n := by
  have hdevices : ∀ i, ((List.range i).flatMap (fun i => [Resource.cdev i, .device i]) :
      Multiset Resource) + {.newClass, .region} = devices i := by
    intro i
    induction i with
    | zero => rw [devices_zero]; rfl
    | succ i ih =>
        rw [devices_succ, ← ih, List.range_succ, List.flatMap_append, ← Multiset.coe_add]
        simp only [List.flatMap_cons, List.flatMap_nil, List.append_nil, ← Multiset.cons_coe,
          Multiset.coe_nil, Multiset.add_cons, add_zero, Multiset.cons_add]
  have hfifos : ∀ i, ((List.range i).map Resource.kfifo : Multiset Resource) + devices n = fifos n i := by
    intro i
    induction i with
    | zero =>
        rw [fifos_zero]
        exact zero_add _
    | succ i ih =>
        rw [fifos_succ, ← ih, List.range_succ, List.map_append, ← Multiset.coe_add]
        simp only [List.map_cons, List.map_nil, ← Multiset.cons_coe, Multiset.coe_nil,
          Multiset.add_cons, add_zero, Multiset.cons_add]
  rw [exitResources, ← Multiset.coe_add, ← Multiset.coe_add, add_comm, everything, ← hfifos n,
    ← hdevices n]
  rfl

theorem mcdevdrvsExit_holds (l : Ledger Resource) (h : l.Holds (everything n)) :
    ((mcdevdrvs n).exit l).Holds 0 := by
  apply holds_effects (exitEffects_releases n)
  rw [coe_exitResources]
  exact h

end Exit

section Cycles
variable {n : ℕ} {fsize : BitVec 32} {x : Results}

/-- A load is all-or-nothing unless it fails in its loops. -/
theorem fits_iff_clean (n : ℕ) (fsize : BitVec 32) (x : Results) :
    Fits (everything n) ((mcdevdrvs n).init (fsize, x) .empty) ↔ Clean n fsize x := by
  obtain ⟨htracked, ret, hret⟩ := tracked_outcome n fsize x
  have hinit : (mcdevdrvs n).init (fsize, x) .empty = (ret, (outcome n fsize x).held.ledger) := by
    show (retOf (outcome n fsize x).pc, _) = _
    rw [hret]
    rfl
  rw [Tracked, hret] at htracked
  rw [hinit, Fits]
  rcases htracked with ⟨_, ⟨rfl, hloops, hl⟩ | ⟨hneg, hearly, hl⟩⟩ | ⟨hdirty, hstray⟩
  · exact iff_of_true hl (.inr (.inr hloops))
  · refine iff_of_true ?_ (hearly.imp id .inl)
    rw [if_neg (Int.not_le.mpr hneg)]
    exact hl
  · exact iff_of_false (fun h => hstray h.strays) hdirty

/-- A load that does not fail in its loops. -/
def CleanLoad (n : ℕ) (s : ModuleCycles.State Resource) : Event (BitVec 32 × Results) → Prop
  | .insmod env => s.loaded = false → Clean n env.1 env.2
  | .rmmod => True

/-- The module holds everything while it is loaded and nothing while it is not,
and never gives back what it does not hold, in exactly the runs in which no load
fails in its loops. -/
theorem balanced_iff_clean (n : ℕ) (evs : List (Event (BitVec 32 × Results))) :
    (system (mcdevdrvs n)).Along (Balanced (everything n)) ⟨.empty, false⟩ evs ↔
      (system (mcdevdrvs n)).Meets (CleanLoad n) ⟨.empty, false⟩ evs := by
  rw [balanced_iff_fits mcdevdrvsExit_holds evs]
  apply System.meets_congr
  intro s a
  cases a with
  | insmod env => exact imp_congr_right fun _ => fits_iff_clean n env.1 env.2
  | rmmod => exact Iff.rfl

end Cycles

end LinuxDeviceDrivers.McdevdrvsCycles
