import LinuxDeviceDrivers.TransitionSystem
import Mathlib.Data.Finset.Erase
import Mathlib.Data.Finset.Insert
import Mathlib.Data.Int.Notation
import Mathlib.Data.Int.Order.Basic

/-!
# Drivers under a driver core

A driver is a probe and a remove that work on the state of one device. The core
around it keeps any number of devices: it probes those that are not bound, binds
a device whose probe returns 0, removes bound ones, and takes back what goes
with a binding after a failed probe or a remove.

A driver with a `Contract` leaves every device either idle or bound as it should
be. The contract names the probes that keep to this; the runs in which every
state is settled are then exactly the runs whose probes are all of that kind.
-/
namespace LinuxDeviceDrivers.DriverCore
open TransitionSystem

/-- `probe` has no return value when it does not come back; `unbind` is what the
core takes back. -/
structure Driver (δ χ : Type*) where
  fresh : δ
  probe : χ → δ → Option ℤ × δ
  remove : δ → δ
  unbind : δ → δ

/-- The devices, those that are bound, and what the last probe has returned. -/
structure Core (δ : Type*) where
  devs : ℕ → δ
  bound : Finset ℕ
  ret : ℤ

inductive Call (χ : Type*) where
  | probe (d : ℕ) (x : χ)
  | remove (d : ℕ)

/-- Every device is idle or bound as it should be, and a probe that failed has
returned an error. -/
structure Settled {δ : Type*} (idle held : δ → Prop) (s : Core δ) : Prop where
  held : ∀ d ∈ s.bound, held (s.devs d)
  idle : ∀ d ∉ s.bound, idle (s.devs d)
  ret : s.ret ≤ 0

/-- A probe of an unbound device keeps to `ok`. -/
def ProbesKeep {δ χ : Type*} (ok : χ → Prop) (s : Core δ) : Call χ → Prop
  | .probe d x => d ∉ s.bound → ok x
  | .remove _ => True

namespace Driver
variable {δ χ : Type*} (D : Driver δ χ)

def call (s : Core δ) : Call χ → Option (Core δ)
  | .probe d x =>
      if d ∈ s.bound then none
      else
        match D.probe x (s.devs d) with
        | (none, v) => some { s with devs := Function.update s.devs d v }
        | (some ret, v) =>
            if ret = 0 then some ⟨Function.update s.devs d v, insert d s.bound, 0⟩
            else some ⟨Function.update s.devs d (D.unbind v), s.bound, ret⟩
  | .remove d =>
      if d ∈ s.bound then
        some ⟨Function.update s.devs d (D.unbind (D.remove (s.devs d))), s.bound.erase d, s.ret⟩
      else none

def initial : Core δ := ⟨fun _ => D.fresh, ∅, 0⟩

def system : System (Core δ) (Call χ) where
  start s := s = D.initial
  next := D.call

/-- What a driver does to idle and to bound devices, and that `ok` is no
stronger than it must be. -/
structure Contract (idle held : δ → Prop) (ok : χ → Prop) : Prop where
  fresh : idle D.fresh
  remove : ∀ v, held v → idle (D.unbind (D.remove v))
  good : ∀ x v, idle v → ok x →
    (∃ v', D.probe x v = (some 0, v') ∧ held v') ∨
      ∃ ret v', D.probe x v = (some ret, v') ∧ ret < 0 ∧ idle (D.unbind v')
  bad : ∀ x v, idle v → ¬ok x →
    (∃ v', D.probe x v = (none, v') ∧ ¬idle v') ∨
      ∃ ret v', D.probe x v = (some ret, v') ∧ ret ≠ 0 ∧ ¬idle (D.unbind v')

variable {D} {idle held : δ → Prop} {ok : χ → Prop} {s t : Core δ}

/-- A device that changes its side, and the others as they were. -/
theorem settled_update {d : ℕ} {v : δ} {bound : Finset ℕ} {ret : ℤ} (h : Settled idle held s)
    (hother : ∀ e, e ≠ d → (e ∈ bound ↔ e ∈ s.bound)) (hheld : d ∈ bound → held v)
    (hidle : d ∉ bound → idle v) (hret : ret ≤ 0) :
    Settled idle held ⟨Function.update s.devs d v, bound, ret⟩ := by
  refine ⟨fun e he => ?_, fun e he => ?_, hret⟩
  · by_cases hed : e = d
    · subst hed
      simpa only [Function.update_self] using hheld he
    · simpa only [Function.update_of_ne hed] using h.held e ((hother e hed).mp he)
  · by_cases hed : e = d
    · subst hed
      simpa only [Function.update_self] using hidle he
    · simpa only [Function.update_of_ne hed] using h.idle e fun hm => he ((hother e hed).mpr hm)

theorem Contract.step (hc : D.Contract idle held ok) (h : Settled idle held s) {a : Call χ}
    (hok : ProbesKeep ok s a) (hn : D.call s a = some t) : Settled idle held t := by
  cases a with
  | probe d x =>
      simp only [call] at hn
      split_ifs at hn with hd
      rcases hc.good x (s.devs d) (h.idle d hd) (hok hd) with ⟨v, hv, hheld⟩ | ⟨ret, v, hv, hneg, hidle⟩
      · rw [hv] at hn
        cases hn
        refine settled_update h (fun e he => ?_) (fun _ => hheld) (fun hm => ?_) (le_refl 0)
        · rw [Finset.mem_insert]
          exact or_iff_right he
        · exact absurd (Finset.mem_insert_self d s.bound) hm
      · rw [hv] at hn
        dsimp only at hn
        rw [if_neg hneg.ne] at hn
        cases hn
        exact settled_update h (fun _ _ => Iff.rfl) (fun hm => absurd hm hd) (fun _ => hidle) hneg.le
  | remove d =>
      simp only [call] at hn
      split_ifs at hn with hd
      cases hn
      refine settled_update h (fun e he => ?_) (fun hm => ?_)
        (fun _ => hc.remove _ (h.held d hd)) h.ret
      · rw [Finset.mem_erase]
        exact and_iff_right he
      · exact absurd hm (Finset.notMem_erase d s.bound)

theorem Contract.settled (hc : D.Contract idle held ok)
    (h : D.system.ReachableWhen (ProbesKeep ok) s) : Settled idle held s := by
  refine h.invariant ?_ (fun s a t _ hs hok hn => hc.step hs hok hn)
  rintro s rfl
  exact ⟨fun d hd => absurd hd (Finset.notMem_empty d), fun _ _ => hc.fresh, le_refl 0⟩

theorem Contract.unsettled (hc : D.Contract idle held ok) (h : Settled idle held s) {a : Call χ}
    (hbad : ¬ProbesKeep ok s a) : ∃ t, D.call s a = some t ∧ ¬Settled idle held t := by
  cases a with
  | remove d => exact absurd trivial hbad
  | probe d x =>
      simp only [ProbesKeep, Classical.not_imp] at hbad
      obtain ⟨hd, hx⟩ := hbad
      have hat : ∀ v ret, ¬idle v →
          ¬Settled idle held ⟨Function.update s.devs d v, s.bound, ret⟩ := by
        intro v ret hv ht
        have hidle : idle (Function.update s.devs d v d) := ht.idle d hd
        rw [Function.update_self] at hidle
        exact hv hidle
      simp only [call, if_neg hd]
      rcases hc.bad x (s.devs d) (h.idle d hd) hx with ⟨v, hv, hnot⟩ | ⟨ret, v, hv, hne, hnot⟩
      · rw [hv]
        exact ⟨_, rfl, hat v _ hnot⟩
      · rw [hv]
        exact ⟨_, if_neg hne, hat _ _ hnot⟩

/-- A run stays settled exactly if all its probes keep to `ok`. -/
theorem Contract.along_iff (hc : D.Contract idle held ok) (as : List (Call χ)) :
    D.system.Along (Settled idle held) D.initial as ↔ D.system.Meets (ProbesKeep ok) D.initial as :=
  System.along_iff_meets (fun _ h => hc.settled h) (fun _ _ h hbad => hc.unsettled (hc.settled h) hbad)
    (.start rfl) as

end Driver
end LinuxDeviceDrivers.DriverCore
