import LinuxDeviceDrivers.ChardrvsFifo

/-!
# The mutexes of the chardrvs driver

What each move of a call does to each of `r_f_lock`, `w_f_lock` and `lock`, and
what follows for whole runs: each mutex has at most one call inside, and the
owner of `r_f_lock` or `lock` is always a call inside it. The same is not true
of `w_f_lock`: `wait_event_interruptible` may return early with the mutex held.
-/
namespace LinuxDeviceDrivers.ChardrvsLocks
open KernelPrimitives TransitionSystem ThreadProgram ChardrvsFifo

/-- The control points at which a call is inside a mutex. -/
def holds : Mutex → Pc → Bool
  | .wFLock, .write _ .lock => false
  | .wFLock, .write _ _ => true
  | .rFLock, .read _ .lock => false
  | .rFLock, .read _ _ => true
  | .lock, .refresh _ _ .lock => false
  | .lock, .refresh _ _ _ => true
  | .lock, .poll _ _ _ .pollWait => true
  | .lock, .poll _ _ _ .unlock => true
  | _, _ => false

/-- The four ways a move can treat a mutex. The last one is a signal in
`wait_event_interruptible`. -/
inductive MutexUse (dev : ChardrvsPrivDev) (m : Mutex) (k : Choice) (p : Pc) (e : Effect)
    (p' : Pc) : Prop
  | none : e ≠ .acquire m → e ≠ .release m → holds m p' = holds m p → MutexUse dev m k p e p'
  | acquire : e = .acquire m → dev.owner m = none → holds m p = false → holds m p' = true →
      MutexUse dev m k p e p'
  | release : e = .release m → holds m p = true → holds m p' = false → MutexUse dev m k p e p'
  | leak : e = .skip → m = .wFLock → k = .signal →
      (∃ buf, p = .write buf .parked ∧ dev.avail < buf.count) →
      holds m p = true → holds m p' = false → MutexUse dev m k p e p'

theorem mutexUse {dev : ChardrvsPrivDev} {k : Choice} {p p' : Pc} {e : Effect}
    (h : Edge dev k p e p') (m : Mutex) : MutexUse dev m k p e p' := by
  cases h with
  | signalWait buf ha =>
      cases m with
      | wFLock => exact .leak rfl rfl rfl ⟨buf, rfl, ha⟩ rfl rfl
      | rFLock | lock => exact .none nofun nofun rfl
  | writeLock buf ho =>
      cases m with
      | wFLock => exact .acquire rfl ho rfl rfl
      | rFLock | lock => exact .none nofun nofun rfl
  | readLock buf ho =>
      cases m with
      | rFLock => exact .acquire rfl ho rfl rfl
      | wFLock | lock => exact .none nofun nofun rfl
  | refreshLock _ _ ho | pollLock _ _ _ ho =>
      cases m with
      | lock => exact .acquire rfl ho rfl rfl
      | rFLock | wFLock => exact .none nofun nofun rfl
  | writeUnlock =>
      cases m with
      | wFLock => exact .release rfl rfl rfl
      | rFLock | lock => exact .none nofun nofun rfl
  | readUnlock =>
      cases m with
      | rFLock => exact .release rfl rfl rfl
      | wFLock | lock => exact .none nofun nofun rfl
  | refreshUnlock | pollUnlock =>
      cases m with
      | lock => exact .release rfl rfl rfl
      | rFLock | wFLock => exact .none nofun nofun rfl
  | enter call => cases call <;> cases m <;> exact .none nofun nofun rfl
  | _ => cases m <;> exact .none nofun nofun rfl

theorem effect_owner (c : ℕ) (e : Effect) (s : Shared) (m : Mutex) (ha : e ≠ .acquire m)
    (hr : e ≠ .release m) : (effect c e s).owner m = s.owner m := by
  cases e with
  | acquire m' => exact Function.update_of_ne (fun he : m = m' => ha (by rw [he])) _ _
  | release m' => exact Function.update_of_ne (fun he : m = m' => hr (by rw [he])) _ _
  | _ => rfl

theorem effect_release_owner (c : ℕ) (m : Mutex) (s : Shared) :
    (effect c (.release m) s).owner m = none := by
  simp only [effect, Function.update_self]

@[simp] theorem woken_holds (m : Mutex) (p : Pc) : holds m p.woken = holds m p := by
  unfold Pc.woken
  split
  · cases m <;> rfl
  · cases m <;> rfl
  · rename_i r _
    cases m <;> cases r <;> rfl
  · rfl

theorem others_holds (e : Effect) (m : Mutex) (p : Pc) :
    holds m (others e p) = holds m p :=
  others_of_woken (I := fun q => holds m q = holds m p) e rfl (woken_holds m p)

/-- A mutex of the device as the program's threads use it. -/
def mutex (m : Mutex) : Lock program where
  owner s := s.owner m
  holds p := holds m p = true
  others e p := by rw [program_others, others_holds]
  move := by
    intro s k p e p' c h
    show LockMove c (s.owner m) (holds m p = true) (holds m p' = true) ((effect c e s).owner m)
    cases mutexUse (edge_of_move h) m with
    | none ha hr hh =>
        rw [effect_owner c e s m ha hr]
        exact .stay (by rw [hh])
    | acquire he ho hp hp' =>
        subst he
        simp only [effect, Function.update_self]
        exact .acquire ho (by simp [hp]) hp'
    | release he hp hp' =>
        subst he
        simp only [effect, Function.update_self]
        exact .release hp (by simp [hp'])
    | leak he _ _ _ hp hp' =>
        subst he
        exact .leak hp (by simp [hp'])

section Runs
variable {fsize : BitVec 32} {ok : State → ℕ × Choice → Prop} {s t : State} {a : ℕ × Choice}

theorem exclusive (h : (system fsize).ReachableWhen ok s) (m : Mutex) : (mutex m).Exclusive s := by
  refine Lock.exclusive_reachable ?_ h
  rintro s ⟨dev, _, rfl⟩ c hc
  exact absurd hc (by cases m <;> nofun)

/-- A signal may arrive anywhere except in the wait of a writer that does not
find its room yet. -/
def Uninterrupted (s : State) (a : ℕ × Choice) : Prop :=
  a.2 = .signal → ∀ buf, s.pc a.1 = .write buf .parked → buf.count ≤ s.shared.avail

theorem interrupted_of_leaks {m : Mutex} {c : ℕ} {k : Choice} (h : (mutex m).Leaks s c k) :
    m = .wFLock ∧ ¬Uninterrupted s (c, k) := by
  obtain ⟨e, p', hm, hp, hp', ho⟩ := h
  cases mutexUse (edge_of_move hm) m with
  | none _ _ hh => exact absurd (hh.trans hp) hp'
  | acquire _ _ hf _ => exact absurd (hf.symm.trans hp) nofun
  | release he _ _ =>
      subst he
      exact absurd (Function.update_self _ _ _) ho
  | leak _ hmx hk hb =>
      obtain ⟨buf, hb, ha⟩ := hb
      exact ⟨hmx, fun hu => Nat.not_le.mpr ha (hu hk buf hb)⟩

theorem tight_of_no_leak (h : (system fsize).ReachableWhen ok s) {m : Mutex}
    (hleak : ∀ s c k, ok s (c, k) → ¬(mutex m).Leaks s c k) : (mutex m).Tight s := by
  refine Program.invariant ?_ ?_ h
  · rintro s ⟨dev, hd, rfl⟩ c hc
    rw [show (mutex m).owner (initial dev).shared = dev.owner m from rfl,
      (setupChardrvs_ok hd).2.2.2] at hc
    cases hc
  · intro s c k e t _ hs hok he
    exact hs.step he (hleak s c k hok)

/-- `r_f_lock` and `lock` are never left behind. -/
theorem tight_of_ne (h : (system fsize).ReachableWhen ok s) {m : Mutex} (hm : m ≠ .wFLock) :
    (mutex m).Tight s :=
  tight_of_no_leak h fun _ _ _ _ hl => hm (interrupted_of_leaks hl).1

theorem tight (h : (system fsize).ReachableWhen Uninterrupted s) (m : Mutex) :
    (mutex m).Tight s :=
  tight_of_no_leak h fun _ _ _ hok hl => (interrupted_of_leaks hl).2 hok

def inProgress : Pc → Bool
  | .unstarted | .done _ _ | .pollDone _ => false
  | _ => true

theorem inProgress_of_holds {m : Mutex} {p : Pc} (h : holds m p = true) : inProgress p = true := by
  unfold holds at h
  split at h <;> first | rfl | cases h

/-- Every mutex that is held is held by a call in progress; a call that has
returned holds none; with no call in progress all of them are free. -/
structure LockDiscipline (s : State) : Prop where
  held : ∀ m c, s.shared.owner m = some c → inProgress (s.pc c) = true
  returned : ∀ c, (∃ call ret, s.pc c = .done call ret) ∨ (∃ mask, s.pc c = .pollDone mask) →
    ∀ m, s.shared.owner m ≠ some c
  quiet : (∀ c, inProgress (s.pc c) = false) → ∀ m, s.shared.owner m = none

theorem LockDiscipline.of_held
    (h : ∀ m c, s.shared.owner m = some c → inProgress (s.pc c) = true) : LockDiscipline s := by
  refine ⟨h, ?_, ?_⟩
  · intro c hc m ho
    have hp := h m c ho
    rcases hc with ⟨_, _, hc⟩ | ⟨_, hc⟩ <;> simp [hc, inProgress] at hp
  · intro hq m
    cases ho : s.shared.owner m with
    | none => rfl
    | some c => exact absurd (h m c ho) (by simp [hq c])

/-- A write that was interrupted in its wait and took `w_f_lock` with it. -/
def Leaked (s : State) : Prop :=
  ∃ c buf ret, s.shared.owner .wFLock = some c ∧ s.pc c = .done (.write buf) ret

theorem others_done (e : Effect) (c : Call) (r : ℤ) : others e (.done c r) = .done c r := by
  cases e <;> rfl

/-- Nobody can ever release the mutex of a leaked state. -/
theorem Leaked.step (hx : (mutex .wFLock).Exclusive s) (h : Leaked s)
    (hn : (system fsize).next s a = some t) : Leaked t := by
  obtain ⟨c, buf, ret, ho, hp⟩ := h
  obtain ⟨d, k⟩ := a
  obtain ⟨e, he⟩ := Program.step_of_next hn
  have hne : c ≠ d := by
    rintro rfl
    have hm := edge_of_step he
    rw [hp] at hm
    cases hm
  refine ⟨c, buf, ret, Lock.stuck_step hx ho ?_ he, ?_⟩
  · simp [mutex, hp, holds]
  · rw [he.others c hne, hp]
    exact others_done e _ _

/-- The signal that is not allowed leaks at once. -/
theorem leaked_of_interrupted (hx : (mutex .wFLock).Exclusive s) (hu : ¬Uninterrupted s a)
    (hn : (system fsize).next s a = some t) : Leaked t := by
  simp only [Uninterrupted, not_forall] at hu
  obtain ⟨hk, buf, hp, hlarge⟩ := hu
  obtain ⟨e, he⟩ := Program.step_of_next hn
  have ho : s.shared.owner .wFLock = some a.1 := hx a.1 (by simp [mutex, hp, holds])
  have hm := edge_of_step he
  rw [hk, hp] at hm
  generalize hq : t.pc a.1 = q at hm
  cases hm with
  | signalPass _ ha => exact absurd ha hlarge
  | signalWait => exact ⟨a.1, buf, _, by rw [he.shared]; exact ho, hq⟩

theorem leaked_of_not_meets {as : List (ℕ × Choice)} (h : (system fsize).Reachable s)
    (hrun : (system fsize).run s as = some t) (hm : ¬(system fsize).Meets Uninterrupted s as) :
    Leaked t := by
  induction as generalizing s with
  | nil => exact absurd trivial hm
  | cons a as ih =>
      obtain ⟨u, hu, hrest⟩ := Option.bind_eq_some_iff.mp hrun
      have hru : (system fsize).Reachable u := .step h trivial hu
      by_cases ha : Uninterrupted s a
      · refine ih hru hrest fun hmu => hm ⟨ha, fun v hv => ?_⟩
        rw [hu, Option.some.injEq] at hv
        exact hv ▸ hmu
      · have hl := leaked_of_interrupted (exclusive h .wFLock) ha hu
        exact (System.run_preserves
          (I := fun s => (system fsize).Reachable s ∧ Leaked s)
          (fun s a t hs _ hn => ⟨.step hs.1 trivial hn, hs.2.step (exclusive hs.1 .wFLock) hn⟩)
          (System.meets_true u as) hrest ⟨hru, hl⟩).2

/-- The discipline holds at the end of a run exactly when no step of the run
interrupted a writer that had to go on waiting. -/
theorem lockDiscipline_iff_uninterrupted {s₀ : State} {as : List (ℕ × Choice)}
    (hs : (system fsize).start s₀) (hrun : (system fsize).run s₀ as = some s) :
    LockDiscipline s ↔ (system fsize).Meets Uninterrupted s₀ as := by
  constructor
  · intro hd
    by_contra hm
    obtain ⟨c, buf, ret, ho, hp⟩ := leaked_of_not_meets (.start hs) hrun hm
    exact hd.returned c (.inl ⟨_, _, hp⟩) .wFLock ho
  · intro hm
    have hr := System.ReachableWhen.run (.start hs) hm hrun
    exact .of_held fun m c ho => inProgress_of_holds (tight hr m c ho)

end Runs

/-- One write fills the FIFO; the next one goes to sleep and gets a signal. -/
def interruptedWriter : List (ℕ × Choice) :=
  [(0, .call (.write ⟨List.replicate 16 1, 16⟩))] ++ steps 0 9 ++
    [(1, .call (.write ⟨[2], 1⟩))] ++ steps 1 2 ++ [(1, .signal)]

theorem lockDiscipline_iff_interruptedWriter :
    ∃ s, (system defaultFsize).run (initial defaultDev) interruptedWriter = some s ∧
      (LockDiscipline s ↔
        (system defaultFsize).Meets Uninterrupted (initial defaultDev) interruptedWriter) :=
  ⟨_, rfl, lockDiscipline_iff_uninterrupted start_default rfl⟩

theorem not_lockDiscipline_reachable :
    ¬∀ (fsize : BitVec 32) (s : State), (system fsize).Reachable s → LockDiscipline s := by
  intro h
  obtain ⟨s, hrun, ho, hp⟩ : ∃ s,
      (system defaultFsize).run (initial defaultDev) interruptedWriter = some s ∧
        s.shared.owner .wFLock = some 1 ∧ s.pc 1 = .done (.write ⟨[2], 1⟩) (-ERESTARTSYS) :=
    ⟨_, rfl, rfl, rfl⟩
  have hd := h _ s (System.Reachable.run (.start start_default) hrun)
  exact hd.returned 1 (.inl ⟨_, _, hp⟩) .wFLock ho

end LinuxDeviceDrivers.ChardrvsLocks
