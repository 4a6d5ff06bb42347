import LinuxDeviceDrivers.ThreadProgram
import Mathlib.Data.List.Nodup

/-!
# The order of the turns in a mutex

A history of a mutex lists the threads that have taken it, in the order in
which they did. A thread takes it at most once, which the control points at
which a thread has had its turn make precise. Then the list holds exactly these
threads, each once, and the thread inside the mutex comes last.
-/
namespace LinuxDeviceDrivers.LockTurns
open TransitionSystem ThreadProgram

/-- What one move of thread `c` does to the list of turns of a mutex with owner
`o`; `h` and `h'` say whether the thread holds the mutex before and after, `d`
and `d'` whether it has had its turn. -/
inductive TurnMove (c : ℕ) (order : List ℕ) (o : Option ℕ) (h h' d d' : Prop) : List ℕ → Prop
  | begins : o = none → ¬d → d' → TurnMove c order o h h' d d' (order ++ [c])
  | keeps : (h' → h) → (d' ↔ d) → TurnMove c order o h h' d d' order

theorem TurnMove.stay {c : ℕ} {order : List ℕ} {o : Option ℕ} {h h' d d' : Prop} (hh : h' ↔ h)
    (hd : d' ↔ d) : TurnMove c order o h h' d d' order := .keeps hh.mp hd

structure History {σ κ ε π : Type*} {P : Program σ κ ε π} (L : Lock P) where
  order : σ → List ℕ
  had : π → Prop
  move : ∀ {s k p e p'} (c : ℕ), P.move s k p = some (e, p') →
    TurnMove c (order s) (L.owner s) (L.holds p) (L.holds p') (had p) (had p')
      (order (P.effect c e s))
  others : ∀ e p, had (P.others e p) ↔ had p

namespace History
variable {σ κ ε π : Type*} {P : Program σ κ ε π} {L : Lock P} (H : History L)

structure Turns (s : Config σ π) : Prop where
  had : ∀ c, c ∈ H.order s.shared ↔ H.had (s.pc c)
  nodup : (H.order s.shared).Nodup
  last : ∀ c, L.holds (s.pc c) → ∃ pre, H.order s.shared = pre ++ [c]

variable {H} {s t : Config σ π} {c : ℕ} {k : κ} {e : ε}

theorem turns_start (horder : H.order s.shared = []) (hhad : ∀ c, ¬H.had (s.pc c))
    (hholds : ∀ c, ¬L.holds (s.pc c)) : H.Turns s where
  had c := by simp [horder, hhad c]
  nodup := by simp [horder]
  last c hc := absurd hc (hholds c)

theorem Turns.last_new (h : H.Turns s) (hc : L.holds (s.pc c)) :
    ∃ pre, H.order s.shared = pre ++ [c] ∧ c ∉ pre := by
  obtain ⟨pre, horder⟩ := h.last c hc
  have hn := h.nodup
  rw [horder, List.nodup_append] at hn
  exact ⟨pre, horder, fun hm => hn.2.2 c hm c (List.mem_singleton_self c) rfl⟩

theorem had_other (h : P.Step s c k e t) {u : ℕ} (hu : u ≠ c) :
    H.had (t.pc u) ↔ H.had (s.pc u) := by
  rw [h.others u hu]
  exact H.others e (s.pc u)

theorem Turns.begin (h : H.Turns s) (hx : L.Exclusive s) (he : P.Step s c k e t)
    (ho : L.owner s.shared = none) (hc : ¬H.had (s.pc c)) (hc' : H.had (t.pc c))
    (horder : H.order t.shared = H.order s.shared ++ [c]) : H.Turns t where
  had u := by
    rw [horder, List.mem_append, List.mem_singleton]
    by_cases hu : u = c
    · subst hu
      simp [hc']
    · simp [hu, h.had, had_other he hu]
  nodup := by
    rw [horder, List.nodup_append]
    refine ⟨h.nodup, List.nodup_singleton c, ?_⟩
    rintro u hu _ hm rfl
    exact hc ((h.had c).mp (List.mem_singleton.mp hm ▸ hu))
  last u hu := by
    by_cases huc : u = c
    · exact ⟨_, huc ▸ horder⟩
    · -- the mutex was free, so nobody else is inside
      have hin := hx u ((Lock.holds_other he huc).mp hu)
      exact absurd (hin.symm.trans ho) nofun

theorem Turns.keep (h : H.Turns s) (he : P.Step s c k e t)
    (hh : L.holds (t.pc c) → L.holds (s.pc c)) (hd : H.had (t.pc c) ↔ H.had (s.pc c))
    (horder : H.order t.shared = H.order s.shared) : H.Turns t where
  had u := by
    rw [horder, h.had]
    by_cases hu : u = c
    · exact hu ▸ hd.symm
    · exact (had_other he hu).symm
  nodup := horder ▸ h.nodup
  last u hu := by
    rw [horder]
    by_cases huc : u = c
    · subst huc
      exact h.last u (hh hu)
    · exact h.last u ((Lock.holds_other he huc).mp hu)

theorem Turns.step (h : H.Turns s) (hx : L.Exclusive s) (he : P.Step s c k e t) : H.Turns t := by
  have hm := H.move c he.move
  rw [← he.shared] at hm
  generalize horder : H.order t.shared = order' at hm
  cases hm with
  | begins ho hc hc' => exact h.begin hx he ho hc hc' horder
  | keeps hh hd => exact h.keep he hh hd horder

end History
end LinuxDeviceDrivers.LockTurns
