import Mathlib.Algebra.BigOperators.Group.Finset.Basic
import Mathlib.Algebra.Order.Group.Multiset

/-!
# Resource ledgers

The book of a component that acquires and releases resources: what it holds
and, separately, every release of something it did not hold. A component is
balanced when it holds exactly what it should and there is no such release.
Two rules follow it through any order of calls, and an unwinding that releases
in the reverse order leads back to the ledger it started from.
-/
namespace LinuxDeviceDrivers.ResourceLedger

structure Ledger (ρ : Type*) where
  held : Multiset ρ
  strays : Multiset ρ

namespace Ledger
variable {ρ : Type*} {l : Ledger ρ} {m : Multiset ρ} {r : ρ}

def empty : Ledger ρ := ⟨0, 0⟩

def acquire (l : Ledger ρ) (r : ρ) : Ledger ρ := { l with held := r ::ₘ l.held }

/-- The ledger holds exactly `m` and nothing else was ever released. -/
def Holds (l : Ledger ρ) (m : Multiset ρ) : Prop := l = ⟨m, 0⟩

theorem holds_empty : (empty : Ledger ρ).Holds 0 := rfl

theorem Holds.acquire (h : l.Holds m) (r : ρ) : (l.acquire r).Holds (r ::ₘ m) := by
  rw [h]
  rfl

variable [DecidableEq ρ]

/-- Releasing what is not held is recorded as a stray release. -/
def release (l : Ledger ρ) (r : ρ) : Ledger ρ :=
  if r ∈ l.held then { l with held := l.held.erase r } else { l with strays := r ::ₘ l.strays }

@[simp] theorem release_acquire (l : Ledger ρ) (r : ρ) : (l.acquire r).release r = l := by
  simp [acquire, release]

/-- A release passes over the later acquisition of something else. -/
theorem release_acquire_of_ne {r' : ρ} (h : r ≠ r') (l : Ledger ρ) :
    (l.acquire r').release r = (l.release r).acquire r' := by
  have hmem : r ∈ r' ::ₘ l.held ↔ r ∈ l.held := by simp [h]
  unfold acquire release
  by_cases hr : r ∈ l.held
  · simp only [hmem, if_pos hr, Multiset.erase_cons_tail _ (Ne.symm h)]
  · simp only [hmem, if_neg hr]

theorem Holds.release (h : l.Holds (r ::ₘ m)) : (l.release r).Holds m := by
  rw [h]
  simp [Ledger.release, Holds]

/-- A stray release is never forgotten. -/
theorem strays_release (h : l.strays ≠ 0) (r : ρ) : (l.release r).strays ≠ 0 := by
  unfold release
  split_ifs
  · exact h
  · exact Multiset.cons_ne_zero

theorem strays_of_notMem (h : r ∉ l.held) : (l.release r).strays ≠ 0 := by
  rw [release, if_neg h]
  exact Multiset.cons_ne_zero

theorem notMem_release (h : r ∉ l.held) (r' : ρ) : r ∉ (l.release r').held := by
  unfold release
  split_ifs
  · exact fun hm => h (Multiset.mem_of_mem_erase hm)
  · exact h

omit [DecidableEq ρ] in
theorem Holds.strays (h : l.Holds m) : l.strays = 0 := congrArg Ledger.strays h

end Ledger
end LinuxDeviceDrivers.ResourceLedger
