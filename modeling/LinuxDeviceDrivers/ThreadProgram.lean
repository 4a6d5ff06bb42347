import LinuxDeviceDrivers.TransitionSystem
import Mathlib.Logic.Function.Basic
import Mathlib.Data.Nat.Notation

/-!
# Threads over a shared state

A program says what one thread can do at its control point: which effect it has
on the shared state and where it goes next. A step of the system is one such
move of one thread; the number of threads is unbounded and every interleaving
of their moves is a run. An effect may also act on the control points of the
other threads, which is how a wake-up reaches the sleepers of a wait queue.

The second half is a mutex as such a program sees it: a field with the owner
and the control points at which a thread holds it. Mutual exclusion needs only
the classification `LockMove` of each move. A move may leave the mutex behind
(`leak`); without leaks the owner is always a thread that still holds it.

A latch is a flag that goes up when a thread passes a point of its program and
never comes down: it is up exactly when some thread is past that point.
-/
namespace LinuxDeviceDrivers.ThreadProgram
open TransitionSystem

structure Program (σ κ ε π : Type*) where
  move : σ → κ → π → Option (ε × π)
  effect : ℕ → ε → σ → σ
  others : ε → π → π

structure Config (σ π : Type*) where
  shared : σ
  pc : ℕ → π

namespace Program
variable {σ κ ε π : Type*} (P : Program σ κ ε π)

def next (s : Config σ π) (a : ℕ × κ) : Option (Config σ π) :=
  (P.move s.shared a.2 (s.pc a.1)).map fun m =>
    { shared := P.effect a.1 m.1 s.shared
      pc := Function.update (fun u => P.others m.1 (s.pc u)) a.1 m.2 }

def system (start : Config σ π → Prop) : System (Config σ π) (ℕ × κ) where
  start := start
  next := P.next

/-- Everything one step of thread `c` changes. -/
structure Step (s : Config σ π) (c : ℕ) (k : κ) (e : ε) (t : Config σ π) : Prop where
  move : P.move s.shared k (s.pc c) = some (e, t.pc c)
  shared : t.shared = P.effect c e s.shared
  others : ∀ u, u ≠ c → t.pc u = P.others e (s.pc u)

variable {P}

theorem step_of_next {s t : Config σ π} {a : ℕ × κ} (h : P.next s a = some t) :
    ∃ e, P.Step s a.1 a.2 e t := by
  obtain ⟨⟨e, p⟩, hm, rfl⟩ := Option.map_eq_some_iff.mp h
  refine ⟨e, ?_, rfl, ?_⟩
  · rw [hm]
    simp only [Function.update_self]
  · intro u hu
    simp only [Function.update_of_ne hu]

theorem next_of_move {s : Config σ π} {c : ℕ} {k : κ} {e : ε} {p : π}
    (h : P.move s.shared k (s.pc c) = some (e, p)) :
    P.next s (c, k) = some ⟨P.effect c e s.shared,
      Function.update (fun u => P.others e (s.pc u)) c p⟩ := by
  simp only [next, h, Option.map_some]

/-- What holds at the start and is preserved by every step of a thread holds of
every run. -/
theorem invariant {start : Config σ π → Prop} {ok : Config σ π → ℕ × κ → Prop}
    {I : Config σ π → Prop} (hstart : ∀ s, start s → I s)
    (hstep : ∀ s c k e t, (P.system start).ReachableWhen ok s → I s → ok s (c, k) →
      P.Step s c k e t → I t)
    {s : Config σ π} (h : (P.system start).ReachableWhen ok s) : I s := by
  refine h.invariant hstart fun s a t hr hs hok hn => ?_
  obtain ⟨e, he⟩ := step_of_next hn
  exact hstep s a.1 a.2 e t hr hs hok he

/-- A fact about every thread after a step: the moving thread has it, and the
others keep it through the effect. -/
theorem Step.forall_threads {I J : ℕ → π → Prop} {s t : Config σ π} {c : ℕ} {k : κ} {e : ε}
    (h : P.Step s c k e t) (hI : ∀ u, I u (s.pc u)) (own : J c (t.pc c))
    (other : ∀ u, u ≠ c → I u (s.pc u) → J u (P.others e (s.pc u))) (u : ℕ) : J u (t.pc u) := by
  by_cases hu : u = c
  · exact hu ▸ own
  · rw [h.others u hu]
    exact other u hu (hI u)

theorem Step.forall_pc {Q : π → Prop} {s t : Config σ π} {c : ℕ} {k : κ} {e : ε}
    (h : P.Step s c k e t) (hQ : ∀ u, Q (s.pc u)) (own : Q (t.pc c))
    (other : ∀ p, Q p → Q (P.others e p)) (u : ℕ) : Q (t.pc u) :=
  h.forall_threads (I := fun _ => Q) (J := fun _ => Q) hQ own (fun _ _ hu => other _ hu) u

/-- A fact that the shared state or some thread vouches for: after a step it is
as old as before, or it is the step that has brought it about. -/
theorem Step.vouched {A : σ → Prop} {B : π → Prop} {R : Prop} {s t : Config σ π} {c : ℕ} {k : κ}
    {e : ε} (h : P.Step s c k e t) (other : ∀ p, B (P.others e p) → B p)
    (own : A (P.effect c e s.shared) ∨ B (t.pc c) → A s.shared ∨ B (s.pc c) ∨ R)
    (ht : A t.shared ∨ ∃ u, B (t.pc u)) : (A s.shared ∨ ∃ u, B (s.pc u)) ∨ R := by
  have hown : A (P.effect c e s.shared) ∨ B (t.pc c) → (A s.shared ∨ ∃ u, B (s.pc u)) ∨ R := by
    intro hc
    rcases own hc with hA | hB | hR
    · exact .inl (.inl hA)
    · exact .inl (.inr ⟨c, hB⟩)
    · exact .inr hR
  rcases ht with hA | ⟨u, hu⟩
  · exact hown (.inl (h.shared ▸ hA))
  · by_cases huc : u = c
    · exact hown (.inr (huc ▸ hu))
    · rw [h.others u huc] at hu
      exact .inl (.inr ⟨u, other _ hu⟩)

/-- Control points that no thread has left are found above every thread that
took a step, as long as wake-ups do not touch them. -/
theorem Step.unstarted {p₀ : π} (hp₀ : ∀ e, P.others e p₀ = p₀) {s t : Config σ π} {c : ℕ}
    {k : κ} {e : ε} (h : P.Step s c k e t) (hs : ∃ N, ∀ u, N ≤ u → s.pc u = p₀) :
    ∃ N, ∀ u, N ≤ u → t.pc u = p₀ := by
  obtain ⟨N, hN⟩ := hs
  refine ⟨max N (c + 1), fun u hu => ?_⟩
  have hne : u ≠ c := by omega
  rw [h.others u hne, hN u (by omega), hp₀]

/-- What holds at rest and of the threads below `N` holds of all of them. -/
theorem forall_of_below {p₀ : π} {pc : ℕ → π} {N : ℕ} (hN : ∀ u, N ≤ u → pc u = p₀) {Q : π → Prop}
    (hp₀ : Q p₀) (h : ∀ u < N, Q (pc u)) (u : ℕ) : Q (pc u) := by
  by_cases hu : u < N
  · exact h u hu
  · rw [hN u (Nat.not_lt.mp hu)]
    exact hp₀

/-- A schedule of the threads below `N` is tested with all others at rest. -/
theorem meets_of_passes {start : Config σ π → Prop} {p₀ : π} (hp₀ : ∀ e, P.others e p₀ = p₀) {N : ℕ}
    {ok : Config σ π → ℕ × κ → Prop} {test : Config σ π → ℕ × κ → Bool}
    (htest : ∀ s a, (∀ u, N ≤ u → s.pc u = p₀) → test s a = true → ok s a) {s : Config σ π}
    {as : List (ℕ × κ)} (hs : ∀ u, N ≤ u → s.pc u = p₀) (has : ∀ a ∈ as, a.1 < N)
    (h : (P.system start).passes test s as = true) : (P.system start).Meets ok s as := by
  refine System.meets_of_passes htest (fun s a ha t hs hn u hu => ?_) hs h
  obtain ⟨e, he⟩ := step_of_next hn
  rw [he.others u (by have := has a ha; omega), hs u hu, hp₀]

/-- A thread that does not move in a run stays where it is, if no effect reaches
the other threads. -/
theorem run_untouched {start : Config σ π → Prop} (hothers : ∀ e p, P.others e p = p)
    {s t : Config σ π} {as : List (ℕ × κ)} (hrun : (P.system start).run s as = some t) {u : ℕ}
    (hu : ∀ a ∈ as, a.1 ≠ u) : t.pc u = s.pc u := by
  induction as generalizing s with
  | nil =>
      rw [System.run_nil, Option.some.injEq] at hrun
      rw [hrun]
  | cons a as ih =>
      obtain ⟨r, hr, hrest⟩ := Option.bind_eq_some_iff.mp hrun
      obtain ⟨e, he⟩ := step_of_next hr
      rw [ih hrest fun b hb => hu b (List.mem_cons_of_mem a hb),
        he.others u (Ne.symm (hu a List.mem_cons_self)), hothers]

/-- `n` moves of thread `c` with nobody else moving, on the shared state and its
own control point only. -/
def solo (P : Program σ κ ε π) (c : ℕ) (k : κ) : ℕ → σ × π → Option (σ × π)
  | 0, x => some x
  | n + 1, (s, p) => (P.move s k p).bind fun m => P.solo c k n (P.effect c m.1 s, m.2)

theorem solo_succ {c n : ℕ} {k : κ} {s : σ} {p p' : π} {e : ε} {x : Option (σ × π)}
    (h : P.move s k p = some (e, p')) (hx : P.solo c k n (P.effect c e s, p') = x) :
    P.solo c k (n + 1) (s, p) = x := by
  rw [solo, h]
  exact hx

/-- A solo execution is a run of the system. The other threads only undergo the
effects: whatever these cannot change about a control point stays true of it. -/
theorem run_of_solo (start : Config σ π → Prop) {c : ℕ} {k : κ} {n : ℕ} {s : Config σ π} {x : σ}
    {p : π} (h : P.solo c k n (s.shared, s.pc c) = some (x, p)) :
    ∃ t, (P.system start).run s (List.replicate n (c, k)) = some t ∧ t.shared = x ∧ t.pc c = p ∧
      ∀ Q : π → Prop, (∀ e p, Q p → Q (P.others e p)) → ∀ u, u ≠ c → Q (s.pc u) → Q (t.pc u) := by
  induction n generalizing s with
  | zero =>
      cases h
      exact ⟨s, rfl, rfl, rfl, fun _ _ _ _ hq => hq⟩
  | succ n ih =>
      obtain ⟨m, hm, hrest⟩ := Option.bind_eq_some_iff.mp h
      have hn := next_of_move (P := P) (s := s) (c := c) (k := k) (e := m.1) (p := m.2) hm
      obtain ⟨t, ht, hshared, hpc, hothers⟩ := ih (s := ⟨P.effect c m.1 s.shared,
        Function.update (fun u => P.others m.1 (s.pc u)) c m.2⟩)
        (by simpa only [Function.update_self] using hrest)
      refine ⟨t, ?_, hshared, hpc, fun Q hQ u hu hq => ?_⟩
      · rw [List.replicate_succ, System.run_cons]
        exact Option.bind_eq_some_iff.mpr ⟨_, hn, ht⟩
      · refine hothers Q hQ u hu ?_
        simpa only [Function.update_of_ne hu] using hQ _ _ hq

/-- A solo execution that gets stuck is a run that gets stuck. -/
theorem run_of_solo_none (start : Config σ π → Prop) {c : ℕ} {k : κ} {n : ℕ} {s : Config σ π}
    (h : P.solo c k n (s.shared, s.pc c) = none) :
    (P.system start).run s (List.replicate n (c, k)) = none := by
  induction n generalizing s with
  | zero => cases h
  | succ n ih =>
      rw [List.replicate_succ, System.run_cons]
      cases hm : P.move s.shared k (s.pc c) with
      | none =>
          have hn : P.next s (c, k) = none := by simp only [next, hm, Option.map_none]
          exact Option.bind_eq_none_iff.mpr fun t ht => absurd (hn.symm.trans ht) nofun
      | some m =>
          have hn := next_of_move (P := P) (s := s) (c := c) (k := k) (e := m.1) (p := m.2) hm
          rw [solo, hm, Option.bind_some] at h
          refine Option.bind_eq_none_iff.mpr fun t ht => ?_
          obtain rfl : _ = t := Option.some.inj (hn.symm.trans ht)
          exact ih (by simpa only [Function.update_self] using h)

end Program

/-- What one move of thread `c` can do to a mutex with owner `o`; `h` and `h'`
say whether the thread holds it before and after. -/
inductive LockMove (c : ℕ) (o : Option ℕ) (h h' : Prop) : Option ℕ → Prop
  | outside : ¬h → ¬h' → LockMove c o h h' o
  | inside : h → h' → LockMove c o h h' o
  | acquire : o = none → ¬h → h' → LockMove c o h h' (some c)
  | release : h → ¬h' → LockMove c o h h' none
  | leak : h → ¬h' → LockMove c o h h' o

theorem LockMove.stay {c : ℕ} {o : Option ℕ} {h h' : Prop} (hh : h' ↔ h) :
    LockMove c o h h' o := by
  by_cases hp : h
  · exact .inside hp (hh.mpr hp)
  · exact .outside hp fun hp' => hp (hh.mp hp')

/-- A mutex of a program: its owner field and the control points inside it. -/
structure Lock {σ κ ε π : Type*} (P : Program σ κ ε π) where
  owner : σ → Option ℕ
  holds : π → Prop
  move : ∀ {s k p e p'} (c : ℕ), P.move s k p = some (e, p') →
    LockMove c (owner s) (holds p) (holds p') (owner (P.effect c e s))
  others : ∀ e p, holds (P.others e p) ↔ holds p

namespace Lock
variable {σ κ ε π : Type*} {P : Program σ κ ε π} (L : Lock P)

/-- Only the owner is inside. -/
def Exclusive (s : Config σ π) : Prop :=
  ∀ c, L.holds (s.pc c) → L.owner s.shared = some c

/-- The owner is inside. -/
def Tight (s : Config σ π) : Prop :=
  ∀ c, L.owner s.shared = some c → L.holds (s.pc c)

/-- The move of `c` from `s` drops out of the mutex without giving it back. -/
def Leaks (s : Config σ π) (c : ℕ) (k : κ) : Prop :=
  ∃ e p, P.move s.shared k (s.pc c) = some (e, p) ∧ L.holds (s.pc c) ∧ ¬L.holds p ∧
    L.owner (P.effect c e s.shared) ≠ none

variable {L} {s t : Config σ π} {c : ℕ} {k : κ} {e : ε}

theorem Exclusive.unique (h : L.Exclusive s) {c d : ℕ} (hc : L.holds (s.pc c))
    (hd : L.holds (s.pc d)) : c = d :=
  Option.some.inj ((h c hc).symm.trans (h d hd))

theorem holds_other (h : P.Step s c k e t) {u : ℕ} (hu : u ≠ c) :
    L.holds (t.pc u) ↔ L.holds (s.pc u) := by
  rw [h.others u hu]
  exact L.others e (s.pc u)

/-- No move, leaking or not, lets a second thread in. -/
theorem Exclusive.step (hs : L.Exclusive s) (h : P.Step s c k e t) : L.Exclusive t := by
  intro d hd
  rw [h.shared]
  have old : d ≠ c → L.owner s.shared = some d := fun hne =>
    hs d ((holds_other h hne).mp hd)
  have hm := L.move c h.move
  generalize L.owner (P.effect c e s.shared) = o' at hm ⊢
  cases hm with
  | outside hc hc' =>
      exact old fun he => hc' (he ▸ hd)
  | inside hc hc' =>
      by_cases he : d = c
      · exact he ▸ hs c hc
      · exact old he
  | acquire ho hc hc' =>
      by_cases he : d = c
      · rw [he]
      · rw [ho] at old
        exact absurd (old he) (by simp)
  | release hc hc' =>
      have he : d ≠ c := fun he => hc' (he ▸ hd)
      exact absurd (hs.unique ((holds_other h he).mp hd) hc) he
  | leak hc hc' =>
      exact old fun he => hc' (he ▸ hd)

/-- A run that starts with nobody inside, whatever its steps are. -/
theorem exclusive_reachable {start : Config σ π → Prop} {ok : Config σ π → ℕ × κ → Prop}
    (hstart : ∀ s, start s → ∀ c, ¬L.holds (s.pc c))
    (h : (P.system start).ReachableWhen ok s) : L.Exclusive s := by
  refine Program.invariant ?_ ?_ h
  · intro s hs c hc
    exact absurd hc (hstart s hs c)
  · intro s c k e t _ hs _ he
    exact hs.step he

/-- A move that does not leak keeps the owner inside. -/
theorem Tight.step (hs : L.Tight s) (h : P.Step s c k e t) (hl : ¬L.Leaks s c k) :
    L.Tight t := by
  intro d hd
  rw [h.shared] at hd
  have old : d ≠ c → L.owner s.shared = some d → L.holds (t.pc d) := fun hne ho =>
    (holds_other h hne).mpr (hs d ho)
  have hm := L.move c h.move
  generalize ho' : L.owner (P.effect c e s.shared) = o' at hm hd
  cases hm with
  | outside hc _ => exact old (fun he => hc (hs c (he ▸ hd))) hd
  | inside _ hc' =>
      by_cases he : d = c
      · exact he ▸ hc'
      · exact old he hd
  | acquire _ _ hc' => exact Option.some.inj hd ▸ hc'
  | release _ _ => cases hd
  | leak hc hc' => exact absurd ⟨e, t.pc c, h.move, hc, hc', by simp [ho', hd]⟩ hl

/-- A mutex whose owner has left stays locked for good: nobody is inside to
release it and nobody can acquire it. -/
theorem stuck_step (hx : L.Exclusive s) {d : ℕ} (ho : L.owner s.shared = some d)
    (hd : ¬L.holds (s.pc d)) (h : P.Step s c k e t) :
    L.owner t.shared = some d := by
  rw [h.shared]
  have hout : ¬L.holds (s.pc c) := fun hc =>
    hd (Option.some.inj (ho.symm.trans (hx c hc)) ▸ hc)
  have hm := L.move c h.move
  generalize L.owner (P.effect c e s.shared) = o' at hm ⊢
  cases hm with
  | outside _ _ => exact ho
  | inside hc _ => exact absurd hc hout
  | acquire hn _ _ => simp [hn] at ho
  | release hc _ => exact absurd hc hout
  | leak hc _ => exact absurd hc hout

end Lock

/-- A flag that the threads raise on their way past certain control points. -/
structure Latch {σ κ ε π : Type*} (P : Program σ κ ε π) where
  raised : σ → Prop
  past : π → Prop
  move : ∀ {s k p e p'} (c : ℕ), P.move s k p = some (e, p') → (past p → raised s) →
    (past p → past p') ∧ (raised (P.effect c e s) ↔ raised s ∨ past p')
  others : ∀ e p, past (P.others e p) ↔ past p

namespace Latch
variable {σ κ ε π : Type*} {P : Program σ κ ε π} (L : Latch P) {s t : Config σ π} {c : ℕ} {k : κ}
  {e : ε}

/-- The flag is up exactly when a thread has passed. -/
def Sound (s : Config σ π) : Prop := L.raised s.shared ↔ ∃ u, L.past (s.pc u)

variable {L}

theorem Sound.step (hs : L.Sound s) (h : P.Step s c k e t) : L.Sound t := by
  obtain ⟨hkeep, hraised⟩ := L.move c h.move fun hc => hs.mpr ⟨c, hc⟩
  have hother : ∀ u, u ≠ c → (L.past (t.pc u) ↔ L.past (s.pc u)) := fun u hu => by
    rw [h.others u hu]
    exact L.others e (s.pc u)
  unfold Sound
  rw [h.shared, hraised, show L.raised s.shared ↔ ∃ u, L.past (s.pc u) from hs]
  constructor
  · rintro (⟨u, hu⟩ | hc)
    · by_cases huc : u = c
      · exact ⟨c, hkeep (huc ▸ hu)⟩
      · exact ⟨u, (hother u huc).mpr hu⟩
    · exact ⟨c, hc⟩
  · rintro ⟨u, hu⟩
    by_cases huc : u = c
    · exact .inr (huc ▸ hu)
    · exact .inl ⟨u, (hother u huc).mp hu⟩

theorem sound_reachable {start : Config σ π → Prop} {ok : Config σ π → ℕ × κ → Prop}
    (hstart : ∀ s, start s → ¬L.raised s.shared ∧ ∀ u, ¬L.past (s.pc u))
    (h : (P.system start).ReachableWhen ok s) : L.Sound s := by
  refine Program.invariant (fun s hs => ?_) (fun _ _ _ _ _ _ hs _ he => hs.step he) h
  obtain ⟨hdown, hnone⟩ := hstart s hs
  exact iff_of_false hdown fun ⟨u, hu⟩ => hnone u hu

end Latch
end LinuxDeviceDrivers.ThreadProgram
