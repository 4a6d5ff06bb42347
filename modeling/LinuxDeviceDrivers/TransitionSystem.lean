import Mathlib.Data.List.Induction
import Mathlib.Data.Nat.Notation
import Mathlib.Logic.Function.Iterate
import Mathlib.Tactic.Common

/-!
# Labelled transition systems

A system has a set of start states and one partial step for each label. The
labels of a concurrent system are the choices of its scheduler, so a run is an
executable fold over a list of labels and a counterexample is such a list.

`ReachableWhen ok` collects the states of exactly those runs in which every
step meets `ok`, a condition on the label and the state before the step.
Reachability without a condition is the case where `ok` always holds.
-/
namespace LinuxDeviceDrivers.TransitionSystem

structure System (σ α : Type*) where
  start : σ → Prop
  next : σ → α → Option σ

namespace System
variable {σ α : Type*} (S : System σ α)

def run : σ → List α → Option σ
  | s, [] => some s
  | s, a :: as => (S.next s a).bind fun t => run t as

@[simp] theorem run_nil (s : σ) : S.run s [] = some s := rfl

@[simp] theorem run_cons (s : σ) (a : α) (as : List α) :
    S.run s (a :: as) = (S.next s a).bind fun t => S.run t as := rfl

theorem run_append (s : σ) (as bs : List α) :
    S.run s (as ++ bs) = (S.run s as).bind fun t => S.run t bs := by
  induction as generalizing s with
  | nil => rfl
  | cons a as ih =>
      simp only [List.cons_append, run_cons, Option.bind_assoc]
      congr 1
      funext t
      exact ih t

theorem run_trans {s t u : σ} {as bs : List α} (h : S.run s as = some t)
    (k : S.run t bs = some u) : S.run s (as ++ bs) = some u := by
  rw [run_append, h]
  exact k

/-- Every step of the run from `s` under `as` meets `ok` in the state it leaves. -/
def Meets (ok : σ → α → Prop) : σ → List α → Prop
  | _, [] => True
  | s, a :: as => ok s a ∧ ∀ t, S.next s a = some t → Meets ok t as

/-- Every state of the run from `s` under `as` satisfies `I`, the first one included. -/
def Along (I : σ → Prop) : σ → List α → Prop
  | s, [] => I s
  | s, a :: as => I s ∧ ∀ t, S.next s a = some t → Along I t as

/-- The run from `s` under `as` takes the step `a` from `u` to `t`. -/
def Takes (s : σ) (as : List α) (u : σ) (a : α) (t : σ) : Prop :=
  ∃ bs cs, as = bs ++ a :: cs ∧ S.run s bs = some u ∧ S.next u a = some t

/-- Every step of the run passes a test that can be evaluated. -/
def passes (test : σ → α → Bool) : σ → List α → Bool
  | _, [] => true
  | s, a :: as => test s a && (S.next s a).all fun t => passes test t as

/-- The states of the runs whose every step meets `ok`. -/
inductive ReachableWhen (ok : σ → α → Prop) : σ → Prop
  | start {s : σ} : S.start s → ReachableWhen ok s
  | step {s t : σ} {a : α} : ReachableWhen ok s → ok s a → S.next s a = some t →
      ReachableWhen ok t

abbrev Reachable : σ → Prop := S.ReachableWhen fun _ _ => True

variable {S} {ok ok' : σ → α → Prop}

theorem Meets.cons {s t : σ} {a : α} {as : List α} (ha : ok s a) (hn : S.next s a = some t)
    (h : S.Meets ok t as) : S.Meets ok s (a :: as) := by
  refine ⟨ha, fun u hu => ?_⟩
  rw [hn, Option.some.injEq] at hu
  exact hu ▸ h

theorem ReachableWhen.run {s t : σ} (h : S.ReachableWhen ok s) {as : List α}
    (hok : S.Meets ok s as) (hrun : S.run s as = some t) : S.ReachableWhen ok t := by
  induction as generalizing s with
  | nil =>
      rw [run_nil, Option.some.injEq] at hrun
      exact hrun ▸ h
  | cons a as ih =>
      obtain ⟨u, hu, hrest⟩ := Option.bind_eq_some_iff.mp hrun
      exact ih (.step h hok.1 hu) (hok.2 u hu) hrest

theorem Meets.append {s t : σ} {as bs : List α} (h : S.Meets ok s as) (hrun : S.run s as = some t)
    (k : S.Meets ok t bs) : S.Meets ok s (as ++ bs) := by
  induction as generalizing s with
  | nil =>
      rw [run_nil, Option.some.injEq] at hrun
      exact hrun ▸ k
  | cons a as ih =>
      obtain ⟨u, hu, hrest⟩ := Option.bind_eq_some_iff.mp hrun
      exact .cons h.1 hu (ih (h.2 u hu) hrest)

theorem Meets.init {s : σ} {as bs : List α} (h : S.Meets ok s (as ++ bs)) : S.Meets ok s as := by
  induction as generalizing s with
  | nil => trivial
  | cons a as ih => exact ⟨h.1, fun t ht => ih (h.2 t ht)⟩

theorem Meets.of_append {s t : σ} {as bs : List α} (h : S.Meets ok s (as ++ bs))
    (hrun : S.run s as = some t) : S.Meets ok t bs := by
  induction as generalizing s with
  | nil =>
      rw [run_nil, Option.some.injEq] at hrun
      exact hrun ▸ h
  | cons a as ih =>
      obtain ⟨u, hu, hrest⟩ := Option.bind_eq_some_iff.mp hrun
      exact ih (h.2 u hu) hrest

theorem Takes.append {s u t : σ} {a : α} {as : List α} (h : S.Takes s as u a t) (cs : List α) :
    S.Takes s (as ++ cs) u a t := by
  obtain ⟨bs, ds, rfl, hrun, hn⟩ := h
  exact ⟨bs, ds ++ cs, by rw [List.append_assoc, List.cons_append], hrun, hn⟩

theorem takes_last {s u t : σ} {a : α} {as : List α} (hrun : S.run s as = some u)
    (hn : S.next u a = some t) : S.Takes s (as ++ [a]) u a t :=
  ⟨as, [], rfl, hrun, hn⟩

theorem Takes.meets {s u t : σ} {a : α} {as : List α} (h : S.Takes s as u a t)
    (hok : S.Meets ok s as) : ok u a := by
  obtain ⟨bs, cs, rfl, hrun, -⟩ := h
  exact (hok.of_append hrun).1

theorem Takes.reachable {s u t : σ} {a : α} {as : List α} (h : S.Takes s as u a t)
    (hs : S.ReachableWhen ok s) (hok : S.Meets ok s as) : S.ReachableWhen ok u := by
  obtain ⟨bs, cs, rfl, hrun, -⟩ := h
  exact hs.run hok.init hrun

/-- An invariant that speaks of the steps taken so far. -/
theorem run_history {I : List α → σ → Prop} {s t : σ} {as : List α} (hok : S.Meets ok s as)
    (hrun : S.run s as = some t) (hnil : I [] s)
    (hstep : ∀ as u a t, S.Meets ok s as → S.run s as = some u → I as u → ok u a →
      S.next u a = some t → I (as ++ [a]) t) : I as t := by
  induction as using List.reverseRecOn generalizing t with
  | nil =>
      rw [run_nil, Option.some.injEq] at hrun
      exact hrun ▸ hnil
  | append_singleton as a ih =>
      rw [run_append] at hrun
      obtain ⟨u, hu, hlast⟩ := Option.bind_eq_some_iff.mp hrun
      obtain ⟨v, hv, hnone⟩ := Option.bind_eq_some_iff.mp hlast
      rw [run_nil, Option.some.injEq] at hnone
      exact hstep as u a t hok.init hu (ih hok.init hu) (hok.of_append hu).1 (hnone ▸ hv)

theorem meets_congr (h : ∀ s a, ok s a ↔ ok' s a) (s : σ) (as : List α) :
    S.Meets ok s as ↔ S.Meets ok' s as := by
  induction as generalizing s with
  | nil => exact Iff.rfl
  | cons a as ih => exact and_congr (h s a) (forall_congr' fun t => imp_congr_right fun _ => ih t)

theorem meets_of_forall {as : List α} (h : ∀ a ∈ as, ∀ s, ok s a) (s : σ) : S.Meets ok s as := by
  induction as generalizing s with
  | nil => trivial
  | cons a as ih =>
      exact ⟨h a List.mem_cons_self s,
        fun t _ => ih (fun b hb => h b (List.mem_cons_of_mem a hb)) t⟩

/-- A test of the steps, in states of which `I` is known. -/
theorem meets_of_passes {I : σ → Prop} {test : σ → α → Bool} {as : List α}
    (htest : ∀ s a, I s → test s a = true → ok s a)
    (hstep : ∀ s, ∀ a ∈ as, ∀ t, I s → S.next s a = some t → I t) {s : σ} (hs : I s)
    (h : S.passes test s as = true) : S.Meets ok s as := by
  induction as generalizing s with
  | nil => trivial
  | cons a as ih =>
      obtain ⟨ha, hrest⟩ := Bool.and_eq_true_iff.mp h
      refine ⟨htest s a hs ha, fun t ht => ?_⟩
      refine ih (fun s b hb => hstep s b (List.mem_cons_of_mem a hb))
        (hstep s a List.mem_cons_self t hs ht) ?_
      rw [ht] at hrest
      exact hrest

theorem meets_true (s : σ) (as : List α) : S.Meets (fun _ _ => True) s as :=
  meets_of_forall (fun _ _ _ => trivial) s

theorem Reachable.run {s t : σ} (h : S.Reachable s) {as : List α}
    (hrun : S.run s as = some t) : S.Reachable t :=
  ReachableWhen.run h (meets_true s as) hrun

/-- An invariant may use what is already known of the states it starts a step
from, so a later invariant is proved on top of the earlier ones. -/
theorem ReachableWhen.invariant {I : σ → Prop} (hstart : ∀ s, S.start s → I s)
    (hstep : ∀ s a t, S.ReachableWhen ok s → I s → ok s a → S.next s a = some t → I t)
    {s : σ} (h : S.ReachableWhen ok s) : I s := by
  induction h with
  | start hs => exact hstart _ hs
  | step hr ha hn ih => exact hstep _ _ _ hr ih ha hn

/-- A condition that follows from `ok` in the states reached under `ok`. -/
theorem ReachableWhen.meets {s : σ} (h : S.ReachableWhen ok s)
    (himp : ∀ s a, S.ReachableWhen ok s → ok s a → ok' s a) {as : List α}
    (hok : S.Meets ok s as) : S.Meets ok' s as := by
  induction as generalizing s with
  | nil => trivial
  | cons a as ih =>
      exact ⟨himp s a h hok.1, fun t ht => ih (.step h hok.1 ht) (hok.2 t ht)⟩

/-- What holds of the states reached under `ok` holds along a run that meets it. -/
theorem ReachableWhen.along {I : σ → Prop} {s : σ} (h : S.ReachableWhen ok s)
    (himp : ∀ s, S.ReachableWhen ok s → I s) {as : List α} (hok : S.Meets ok s as) :
    S.Along I s as := by
  induction as generalizing s with
  | nil => exact himp s h
  | cons a as ih => exact ⟨himp s h, fun t ht => ih (.step h hok.1 ht) (hok.2 t ht)⟩

/-- What every step of a run preserves, the run preserves. -/
theorem run_preserves {I : σ → Prop} (hstep : ∀ s a t, I s → ok s a → S.next s a = some t → I t)
    {s t : σ} {as : List α} (hok : S.Meets ok s as) (hrun : S.run s as = some t) (hs : I s) :
    I t := by
  induction as generalizing s with
  | nil =>
      rw [run_nil, Option.some.injEq] at hrun
      exact hrun ▸ hs
  | cons a as ih =>
      obtain ⟨u, hu, hrest⟩ := Option.bind_eq_some_iff.mp hrun
      exact ih (hok.2 u hu) hrest (hstep s a u hs hok.1 hu)

theorem Along.head {I : σ → Prop} {s : σ} {as : List α} (h : S.Along I s as) : I s := by
  cases as with
  | nil => exact h
  | cons a as => exact h.1

/-- A system whose rank falls until it stops has stopped after as many steps as
its rank says, whatever labels it is given. -/
theorem stops {I stopped : σ → Prop} (rank : σ → ℕ)
    (hstep : ∀ s a, I s → ¬stopped s → ∃ t, S.next s a = some t ∧ I t ∧ rank t < rank s)
    {s : σ} (hs : I s) (as : ℕ → α) :
    ∃ n ≤ rank s, ∃ t, S.run s ((List.range n).map as) = some t ∧ stopped t := by
  generalize hr : rank s = r
  induction r using Nat.strongRecOn generalizing s as with
  | ind r ih =>
      by_cases hstop : stopped s
      · exact ⟨0, Nat.zero_le r, s, rfl, hstop⟩
      · obtain ⟨t, hn, ht, hrank⟩ := hstep s (as 0) hs hstop
        rw [hr] at hrank
        obtain ⟨n, hle, u, hrun, hu⟩ := ih _ hrank ht (fun i => as (i + 1)) rfl
        refine ⟨n + 1, Nat.succ_le_of_lt (Nat.lt_of_le_of_lt hle hrank), u, ?_, hu⟩
        rw [List.range_succ_eq_map, List.map_cons, List.map_map, run_cons, hn]
        exact hrun

/-- If meeting `ok` keeps a run inside `I` and every other step leaves `I` at
once, then the runs inside `I` are the runs that meet `ok`. -/
theorem along_iff_meets {I : σ → Prop} (hgood : ∀ s, S.ReachableWhen ok s → I s)
    (hbad : ∀ s a, S.ReachableWhen ok s → ¬ok s a → ∃ t, S.next s a = some t ∧ ¬I t)
    {s : σ} (hs : S.ReachableWhen ok s) (as : List α) : S.Along I s as ↔ S.Meets ok s as := by
  induction as generalizing s with
  | nil => exact ⟨fun _ => trivial, fun _ => hgood s hs⟩
  | cons a as ih =>
      constructor
      · intro h
        have ha : ok s a := by
          by_contra hna
          obtain ⟨t, ht, hI⟩ := hbad s a hs hna
          exact hI (h.2 t ht).head
        exact ⟨ha, fun t ht => (ih (.step hs ha ht)).mp (h.2 t ht)⟩
      · intro h
        exact ⟨hgood s hs, fun t ht => (ih (.step hs h.1 ht)).mpr (h.2 t ht)⟩

/-- A flag that goes up in exactly the steps that do not meet `ok`, and never
comes down, tells whether a run has met `ok`. -/
theorem Reachable.flag_iff {D : σ → Prop}
    (hstep : ∀ s a t, S.Reachable s → S.next s a = some t → (D t ↔ D s ∨ ¬ok s a))
    {s t : σ} (hs : S.Reachable s) {as : List α} (hrun : S.run s as = some t) :
    ¬D t ↔ ¬D s ∧ S.Meets ok s as := by
  induction as generalizing s with
  | nil =>
      rw [run_nil, Option.some.injEq] at hrun
      rw [hrun]
      exact (and_iff_left trivial).symm
  | cons a as ih =>
      obtain ⟨u, hu, hrest⟩ := Option.bind_eq_some_iff.mp hrun
      rw [ih (.step hs trivial hu) hrest, hstep s a u hs hu, not_or, not_not]
      constructor
      · rintro ⟨⟨hd, ha⟩, hm⟩
        exact ⟨hd, .cons ha hu hm⟩
      · rintro ⟨hd, hm⟩
        exact ⟨⟨hd, hm.1⟩, hm.2 u hu⟩

/-- Conditions that agree in the states reached under one of them. -/
theorem ReachableWhen.meets_iff {s : σ} (h : S.ReachableWhen ok s)
    (hiff : ∀ s a, S.ReachableWhen ok s → (ok s a ↔ ok' s a)) (as : List α) :
    S.Meets ok s as ↔ S.Meets ok' s as := by
  induction as generalizing s with
  | nil => exact Iff.rfl
  | cons a as ih =>
      constructor
      · rintro ⟨ha, hrest⟩
        exact ⟨(hiff s a h).mp ha, fun t ht => (ih (.step h ha ht)).mp (hrest t ht)⟩
      · rintro ⟨ha, hrest⟩
        have ha' := (hiff s a h).mpr ha
        exact ⟨ha', fun t ht => (ih (.step h ha' ht)).mpr (hrest t ht)⟩

/-- The system with a history variable beside its state: `first` is its value at
a start state and `record` what a step makes of it. No step reads it. -/
def withHistory {η : Type*} (S : System σ α) (first : σ → η) (record : σ → α → η → η) :
    System (σ × η) α where
  start x := S.start x.1 ∧ x.2 = first x.1
  next x a := (S.next x.1 a).map fun t => (t, record x.1 a x.2)

section History
variable {η : Type*} {first : σ → η} {record : σ → α → η → η}

theorem withHistory_next {x y : σ × η} {a : α} :
    (S.withHistory first record).next x a = some y ↔
      S.next x.1 a = some y.1 ∧ y.2 = record x.1 a x.2 := by
  obtain ⟨t, h⟩ := y
  simp only [withHistory, Option.map_eq_some_iff, Prod.mk.injEq]
  constructor
  · rintro ⟨u, hu, rfl, rfl⟩
    exact ⟨hu, rfl⟩
  · rintro ⟨hn, rfl⟩
    exact ⟨t, hn, rfl, rfl⟩

/-- Forgetting the history variable gives a run of the system itself. -/
theorem ReachableWhen.forget {okh : σ × η → α → Prop} (hok : ∀ x a, okh x a → ok x.1 a)
    {x : σ × η} (h : (S.withHistory first record).ReachableWhen okh x) :
    S.ReachableWhen ok x.1 := by
  induction h with
  | start hs => exact .start hs.1
  | step _ ha hn ih => exact .step ih (hok _ _ ha) (withHistory_next.mp hn).1

end History
end System

/-- A deterministic machine whose rank falls until it stops has stopped after
as many steps as its rank says. -/
theorem iterate_stopped {σ : Type*} {f : σ → σ} {I stopped : σ → Prop} (rank : σ → ℕ)
    (hstep : ∀ s, I s → ¬stopped s → I (f s) ∧ rank (f s) < rank s)
    (hstay : ∀ s, stopped s → f s = s) {s : σ} {n : ℕ} (hs : I s) (hn : rank s ≤ n) :
    I (f^[n] s) ∧ stopped (f^[n] s) := by
  by_cases hstop : stopped s
  · rw [Function.iterate_fixed (hstay s hstop)]
    exact ⟨hs, hstop⟩
  · obtain ⟨hf, hrank⟩ := hstep s hs hstop
    cases n with
    | zero => omega
    | succ n =>
        rw [Function.iterate_succ_apply]
        exact iterate_stopped rank hstep hstay hf (by omega)

end LinuxDeviceDrivers.TransitionSystem
