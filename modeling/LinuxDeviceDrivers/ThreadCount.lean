import LinuxDeviceDrivers.ThreadProgram
import Mathlib.Data.Set.Card

/-!
# Counting threads

How many threads stand at a control point of some kind. The number of threads
is not bounded, so a count is an extended number; `Counted` says that it is a
given finite one. A step moves one thread, so a count changes by at most one.
-/
namespace LinuxDeviceDrivers.ThreadCount
open ThreadProgram

section Counts
variable {σ κ ε π : Type*}

def threads (Q : π → Prop) (s : Config σ π) : Set ℕ := {c | Q (s.pc c)}

/-- Exactly `n` threads are at `Q`. -/
def Counted (Q : π → Prop) (s : Config σ π) (n : ℕ) : Prop := (threads Q s).encard = n

variable {P : Program σ κ ε π} {Q R : π → Prop} {s t : Config σ π} {c n m : ℕ} {k : κ} {e : ε}

theorem counted_zero (h : ∀ c, ¬Q (s.pc c)) : Counted Q s 0 := by
  have hempty : threads Q s = ∅ := Set.eq_empty_iff_forall_notMem.mpr h
  rw [Counted, hempty, Set.encard_empty]
  rfl

theorem Counted.nobody (h : Counted Q s 0) (c : ℕ) : ¬Q (s.pc c) := by
  have hempty : threads Q s = ∅ := Set.encard_eq_zero.mp h
  exact Set.eq_empty_iff_forall_notMem.mp hempty c

/-- The count of a kind of control point at which no thread from `N` on stands. -/
theorem counted_below {N : ℕ} [DecidablePred Q] (h : ∀ c, N ≤ c → ¬Q (s.pc c)) :
    Counted Q s ((Finset.range N).filter fun c => Q (s.pc c)).card := by
  have hset : threads Q s = ((Finset.range N).filter fun c => Q (s.pc c) : Finset ℕ) := by
    ext c
    simp only [threads, Set.mem_ofPred_eq, Finset.coe_filter, Finset.mem_range]
    refine ⟨fun hc => ⟨?_, hc⟩, And.right⟩
    by_contra hge
    exact h c (Nat.le_of_not_lt hge) hc
  rw [Counted, hset, Set.encard_coe_eq_coe_finsetCard]

theorem Counted.unique (h : Counted Q s n) (h' : Counted Q s m) : n = m :=
  ENat.natCast_inj.mp (h.symm.trans h')

/-- Fewer threads are at a smaller set of control points. -/
theorem Counted.encard_le (h : Counted Q s n) (hsub : ∀ p, R p → Q p) :
    (threads R s).encard ≤ n := by
  rw [← h]
  exact Set.encard_le_encard fun c hc => hsub _ hc

variable (hQ : ∀ e p, Q (P.others e p) ↔ Q p)
include hQ

theorem at_other (h : P.Step s c k e t) {u : ℕ} (hu : u ≠ c) : Q (t.pc u) ↔ Q (s.pc u) := by
  rw [h.others u hu]
  exact hQ e (s.pc u)

theorem threads_enter (h : P.Step s c k e t) (ht : Q (t.pc c)) :
    threads Q t = insert c (threads Q s) := by
  ext u
  by_cases hu : u = c
  · subst hu
    simp [threads, ht]
  · simp [threads, at_other hQ h hu, hu]

theorem Counted.enter (hn : Counted Q s n) (h : P.Step s c k e t) (hs : ¬Q (s.pc c))
    (ht : Q (t.pc c)) : Counted Q t (n + 1) := by
  have hout : c ∉ threads Q s := hs
  rw [Counted, threads_enter hQ h ht, Set.encard_insert_of_notMem hout, hn]
  rfl

theorem threads_leave (h : P.Step s c k e t) (hs : Q (s.pc c)) :
    threads Q s = insert c (threads Q t) := by
  ext u
  by_cases hu : u = c
  · subst hu
    simp [threads, hs]
  · simp [threads, at_other hQ h hu, hu]

theorem Counted.leave (hn : Counted Q s n) (h : P.Step s c k e t) (hs : Q (s.pc c))
    (ht : ¬Q (t.pc c)) : ∃ m, n = m + 1 ∧ Counted Q t m := by
  have hadd : (threads Q t).encard + 1 = n := by
    rw [← Set.encard_insert_of_notMem (show c ∉ threads Q t from ht), ← threads_leave hQ h hs]
    exact hn
  obtain ⟨m, hm⟩ := ENat.ne_top_iff_exists.mp (show (threads Q t).encard ≠ ⊤ by
    intro htop
    rw [htop] at hadd
    exact absurd hadd (by simp))
  refine ⟨m, ?_, hm.symm⟩
  rw [← hm] at hadd
  exact_mod_cast hadd.symm

theorem Counted.stay (hn : Counted Q s n) (h : P.Step s c k e t) (hc : Q (t.pc c) ↔ Q (s.pc c)) :
    Counted Q t n := by
  have hsame : threads Q t = threads Q s := by
    ext u
    by_cases hu : u = c
    · exact hu ▸ hc
    · exact at_other hQ h hu
  rw [Counted, hsame]
  exact hn

end Counts
end LinuxDeviceDrivers.ThreadCount
