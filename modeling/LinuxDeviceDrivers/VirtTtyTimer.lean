import LinuxDeviceDrivers.VirtTty

/-!
# The timer of the virtual tty and the open count

`del_timer` in the last close and in `virttty_exit` takes away a pending timer
but not the `mod_timer` of a callback that is running, and `kfree` does not wait
for that callback. In the runs where no callback is running when the timer is
cancelled, the timer belongs to an open tty.
-/
namespace LinuxDeviceDrivers.VirtTty
open KernelPrimitives TransitionSystem ThreadProgram

/-- The module after `virttty_init` has returned 0. -/
def initialised : State where
  shared :=
    { prv := .live
      openCount := 0
      mutexReady := true
      mutex := none
      timerReady := false
      pending := false
      running := none
      registered := true
      module := .loaded }
  pc _ := .unstarted

def afterInit : System State (ℕ × Choice) := program.system fun s => s = initialised

section Statement

def inOpen (p : Pc) : Prop := ∃ st, p = .opening st

def inClose (p : Pc) : Prop := ∃ who st, p = .doClose who st

/-- No open, close or callback is in progress. -/
def Idle (s : State) : Prop :=
  ∀ u, ¬inOpen (s.pc u) ∧ ¬inClose (s.pc u) ∧ ¬inCallback (s.pc u)

/-- An idle closed tty has no pending timer, the body of the callback does not
run on a closed one, and nothing is left of the timer once its memory is freed. -/
structure TimerBound (s : State) : Prop where
  idle : Idle s → s.shared.openCount = 0 → s.shared.pending = false
  body : ∀ u, inCallback (s.pc u) → s.shared.openCount = 0 → ∃ v, inClose (s.pc v)
  freed : s.shared.prv ≠ .live → s.shared.pending = false ∧ ∀ u, ¬inCallback (s.pc u)

/-- The thread has cancelled the timer in `virttty_exit`. -/
def pastDelete (p : Pc) : Prop := p = .exit .kfree ∨ p = .exit .clear ∨ p = .exit .returned

instance (p : Pc) : Decidable (pastDelete p) := inferInstanceAs (Decidable (_ ∨ _ ∨ _))

/-- `virttty_exit` has cancelled the timer. -/
def Deleted (s : State) : Prop := s.shared.prv ≠ .live ∨ ∃ u, pastDelete (s.pc u)

/-- `del_timer` finds no callback running, and no open arms the timer after the
`del_timer` of `virttty_exit`. -/
structure Cancelled (s : State) (a : ℕ × Choice) : Prop where
  delTimer : deletes (s.pc a.1) → ∀ u, ¬inCallback (s.pc u)
  modTimer : s.pc a.1 = .opening .modTimer → ¬Deleted s

end Statement

section Edges
variable {s : Shared} {k : Choice} {e : Effect} {p p' : Pc} {c : ℕ}

theorem deleted_edge (h : Edge s k p e p') (hp' : (effect c e s).prv ≠ .live ∨ pastDelete p') :
    s.prv ≠ .live ∨ pastDelete p ∨ e = .delTimer := by
  cases h with
  | init h => cases h <;> simp_all [pastDelete, effect]
  | exitNull hnull => exact .inl (by simp [hnull])
  | exitDelTimer => exact .inr (.inr rfl)
  | closeDelTimer who => exact .inr (.inr rfl)
  | kfree => exact .inr (.inl (.inl rfl))
  | clear => exact .inr (.inl (.inr (.inl rfl)))
  | closeUnlock who => cases who <;> exact .inl (hp'.resolve_right (by simp [pastDelete, Caller.resume]))
  | _ => exact .inl (hp'.resolve_right (by simp [pastDelete]))

/-- After the initialisation no thread begins or is in `virttty_init`. -/
theorem noInit_edge (h : Edge s k p e p') (hmodule : s.module ≠ .absent)
    (hinit : ∀ st, p ≠ .init st) :
    (effect c e s).module ≠ .absent ∧ ∀ st, p' ≠ .init st := by
  cases h with
  | load habsent => exact absurd habsent hmodule
  | init => exact absurd rfl (hinit _)
  | leave => exact ⟨by simp [effect], by simp⟩
  | closeUnlock who => exact ⟨hmodule, by cases who <;> simp [Caller.resume]⟩
  | _ => exact ⟨hmodule, by simp⟩

end Edges

/-- What holds in every state of a run that cancels the timer in time. -/
structure Bound (s : State) : Prop where
  module : s.shared.module ≠ .absent
  noInit : ∀ u st, s.pc u ≠ .init st
  count : CountSound s
  armed : ArmedOpen s
  deleted : Deleted s → ¬Armed s

section Runs
variable {s t : State} {c : ℕ} {k : Choice} {e : Effect}

theorem Bound.deleted_step (h : Bound s) (hok : Cancelled s (c, k))
    (he : program.Step s c k e t) (ht : Deleted t) : ¬Armed t := by
  have hedge := edge_of_step he
  rcases he.vouched (A := fun s : Shared => s.prv ≠ .live) (fun _ hp => hp) (deleted_edge hedge) ht
    with hs | rfl
  · intro harmed
    rcases armed_before he harmed with harmed | harms
    · exact h.deleted hs harmed
    · exact hok.modTimer harms hs
  · exact not_armed_delTimer (hok.delTimer (deletes_of_delTimer hedge)) he

theorem Bound.step (h : Bound s) (hx : mutex.Exclusive s) (hok : Cancelled s (c, k))
    (he : program.Step s c k e t) : Bound t := by
  have hedge := edge_of_step he
  have hshared : t.shared = effect c e s.shared := he.shared
  obtain ⟨hmodule, hnone⟩ := noInit_edge (c := c) hedge h.module (h.noInit c)
  have hdel : e = .delTimer → ∀ u, ¬inCallback (s.pc u) := by
    rintro rfl
    exact hok.delTimer (deletes_of_delTimer hedge)
  refine ⟨hshared ▸ hmodule, ?_, h.count.step hx (h.noInit c) he,
    h.armed.step h.count hdel (h.noInit c) he, h.deleted_step hok he⟩
  exact he.forall_pc (Q := fun p => ∀ st, p ≠ .init st) h.noInit hnone fun _ hp => hp

theorem unstarted_initialised : ∀ s, s = initialised → ∀ u, s.pc u = .unstarted := by
  rintro s rfl u
  rfl

theorem bound (h : afterInit.ReachableWhen Cancelled s) : Bound s := by
  refine Program.invariant ?_ ?_ h
  · rintro s rfl
    have hidle : ¬Armed initialised := by
      rintro (hp | ⟨u, st, hu⟩)
      · cases hp
      · cases hu
    refine ⟨nofun, nofun, ⟨Int.le_refl 0, fun u hu => ?_⟩, fun h => absurd h hidle, fun _ => hidle⟩
    simp [initialised, counts] at hu
  · intro s c k e t hr hs hok he
    exact hs.step (mutex_exclusive unstarted_initialised hr) hok he

/-- In every run in which the timer is cancelled in time, it is bound to the open
count and gone with its memory. -/
theorem timerBound_of_cancelled (h : afterInit.ReachableWhen Cancelled s) : TimerBound s := by
  have hb := bound h
  refine ⟨fun hidle hzero => ?_, fun u hu hzero => ?_, fun hfreed => ?_⟩
  · by_contra hpending
    rcases hb.armed (.inl (Bool.not_eq_false _ ▸ hpending)) with hne | ⟨u, who, hu⟩
    · exact hne hzero
    · exact (hidle u).2.1 ⟨who, by rcases hu with hu | hu <;> exact ⟨_, hu⟩⟩
  · rcases hb.armed (.inr ⟨u, hu⟩) with hne | ⟨v, who, hv⟩
    · exact absurd hzero hne
    · exact ⟨v, who, by rcases hv with hv | hv <;> exact ⟨_, hv⟩⟩
  · have harmed := hb.deleted (.inl hfreed)
    exact ⟨Bool.eq_false_iff.mpr fun hp => harmed (.inl hp), fun u hu => harmed (.inr ⟨u, hu⟩)⟩

end Runs

/-- The test of `Cancelled` for the threads below `N`. -/
def cancelledBelow (N : ℕ) (s : State) (a : ℕ × Choice) : Bool :=
  match s.pc a.1 with
  | .exit .delTimer | .doClose _ .delTimer =>
      (List.range N).all fun u => (cbkOf (s.pc u)).isNone
  | .opening .modTimer => s.shared.prv = .live && (List.range N).all fun u => ¬pastDelete (s.pc u)
  | _ => true

theorem cancelled_of_below {N : ℕ} {s : State} {a : ℕ × Choice}
    (hN : ∀ u, N ≤ u → s.pc u = .unstarted) (h : cancelledBelow N s a = true) : Cancelled s a := by
  refine ⟨fun hdel => noCallback_of_below hN ?_, fun harm hdel => ?_⟩
  · rcases hdel with hp | ⟨who, hp⟩ <;> simpa [cancelledBelow, hp] using h
  · simp only [cancelledBelow, harm, Bool.and_eq_true, decide_eq_true_eq, List.all_eq_true,
      List.mem_range] at h
    rcases hdel with hgone | ⟨u, hu⟩
    · exact hgone h.1
    · exact Program.forall_of_below hN (Q := fun p => ¬pastDelete p) (by simp [pastDelete]) h.2 u hu

/-- Two handles, a callback that begins during the second open and one during the
last close, and the removal of the module. -/
def twoHandles : List (ℕ × Choice) :=
  (0, .openTty) :: steps 0 6 ++ (1, .openTty) :: steps 1 2 ++ (2, .expire) :: steps 2 2 ++
    steps 1 2 ++ steps 2 1 ++ (0, .close) :: steps 0 5 ++ (3, .expire) :: (1, .close) ::
    steps 1 3 ++ steps 3 3 ++ steps 1 3 ++ (4, .exit) :: steps 4 4

theorem timerBound_of_cancelled_twoHandles :
    ∃ s, afterInit.run initialised twoHandles = some s ∧ s.pc 0 = .closed ∧ s.pc 1 = .closed ∧
      s.pc 2 = .cbkDone ∧ s.pc 3 = .cbkDone ∧ s.pc 4 = .exit .returned ∧ s.shared.prv = .null ∧
      TimerBound s := by
  have hmeets : afterInit.Meets Cancelled initialised twoHandles :=
    Program.meets_of_passes (N := 5) (fun _ => rfl) (fun _ _ => cancelled_of_below)
      (fun _ _ => rfl) (by decide) (by decide)
  exact ⟨_, rfl, rfl, rfl, rfl, rfl, rfl, rfl,
    timerBound_of_cancelled (.run (.start rfl) hmeets rfl)⟩

/-- The last close falls between the start of a callback and its `mod_timer`. -/
def straddledClose : List (ℕ × Choice) :=
  (0, .openTty) :: steps 0 6 ++ (1, .expire) :: (0, .close) :: steps 0 6 ++ steps 1 3

theorem not_timerBound_straddledClose : ¬∀ s, afterInit.Reachable s → TimerBound s := by
  intro h
  obtain ⟨s, hrun, hcount, hpending, hpc₀, hpc₁⟩ : ∃ s,
      afterInit.run initialised straddledClose = some s ∧ s.shared.openCount = 0 ∧
        s.shared.pending = true ∧ s.pc 0 = .closed ∧ s.pc 1 = .cbkDone :=
    ⟨_, rfl, rfl, rfl, rfl, rfl⟩
  have hidle : Idle s := by
    intro u
    have hpc : s.pc u = .closed ∨ s.pc u = .cbkDone ∨ s.pc u = .unstarted := by
      by_cases h₀ : u = 0
      · exact .inl (h₀ ▸ hpc₀)
      · by_cases h₁ : u = 1
        · exact .inr (.inl (h₁ ▸ hpc₁))
        · refine .inr (.inr (Program.run_untouched (fun _ _ => rfl) hrun fun a ha => ?_))
          simp only [straddledClose, steps, List.mem_append, List.mem_cons, List.mem_replicate] at ha
          rcases ha with ((rfl | ⟨-, rfl⟩) | rfl | rfl | ⟨-, rfl⟩) | ⟨-, rfl⟩ <;> simp only <;> omega
    rcases hpc with hpc | hpc | hpc <;> rw [hpc] <;> simp [inOpen, inClose, inCallback]
  have htimer := (h s (System.Reachable.run (.start rfl) hrun)).idle hidle hcount
  exact absurd (htimer.symm.trans hpending) Bool.false_ne_true

end LinuxDeviceDrivers.VirtTty
