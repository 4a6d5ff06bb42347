import LinuxDeviceDrivers.Gpiopulse

/-!
# Removal of a pulsing device

`pltdrv_gpiopulse_remove` dequeues the timer first and removes the sysfs files
later, and it waits for the calls on the files but not for the callback. The
driver core frees the device data after it has returned, so by then nothing may
be left that touches them. `Cleared` collects what each stage of the removal has
already taken away.
-/
namespace LinuxDeviceDrivers.Gpiopulse
open KernelPrimitives TransitionSystem ThreadProgram ThreadCount

section Statement
variable {bits : ℕ}

/-- Once the removal has returned, the timer is quiet and stays so. -/
def QuietAfterRemove (s : State bits) : Prop :=
  ∀ c, s.pc c = .remove .returned → ∀ as t, (system bits).run s as = some t → Quiet t

/-- Nobody arms the timer after `del_timer`, and a callback that was running
then has ended when `device_unregister` begins. -/
structure Guarded (s : State bits) (a : ℕ × Choice bits) : Prop where
  modTimer : armsTimer (s.pc a.1) → ∀ u st, s.pc u = .remove st → st = .delTimer
  unregister : s.pc a.1 = .remove (.removeFiles gpiopulseAttrs) → s.shared.running = none

end Statement

def RemoveStage.left : RemoveStage → List Attr
  | .delTimer => gpiopulseAttrs
  | .removeFiles left => left
  | .drain a left => a :: left
  | .returned => []

/-- The file is removed and no call on it is in progress. -/
def FileGone (s : Shared) (a : Attr) : Prop := s.registered a = false ∧ s.active a = 0

structure Cleared (s : Shared) (st : RemoveStage) : Prop where
  timer : st ≠ .delTimer → s.timer = none
  gone : ∀ a, a ∉ st.left → FileGone s a
  closed : ∀ a left, st = .drain a left → s.registered a = false
  stopped : st ≠ .delTimer → st ≠ .removeFiles gpiopulseAttrs → s.running = none

section Effects
variable {bits : ℕ} {s : Shared} {k : Choice bits} {e : Effect} {p p' : Pc bits} {c : ℕ}
  {st : RemoveStage} {a : Attr}

/-- A removed file is not registered again. -/
theorem effect_registered (hr : s.registered a = false) :
    (effect c e s).registered a = false := by
  cases e with
  | removeFile b =>
      by_cases hab : a = b
      · subst hab
        simp only [effect, Function.update_self]
      · simp only [effect, Function.update_of_ne hab, hr]
  | _ => exact hr

theorem FileGone.step (h : Edge s k p e p') (ha : FileGone s a) : FileGone (effect c e s) a := by
  refine ⟨effect_registered ha.1, ?_⟩
  rcases storeOf_edge (c := c) h with ⟨b, rfl, hr, -, -⟩ | ⟨b, rfl, -, -⟩ | ⟨hactive, -⟩
  · have hab : a ≠ b := by
      rintro rfl
      exact absurd (hr.symm.trans ha.1) nofun
    simp only [effect, Function.update_of_ne hab, ha.2]
  · by_cases hab : a = b
    · subst hab
      simp only [effect, Function.update_self, ha.2]
    · simp only [effect, Function.update_of_ne hab, ha.2]
  · rw [hactive]
    exact ha.2

/-- What a removal has taken away stays away while another thread moves. -/
theorem Cleared.other (h : Cleared s st) (hedge : Edge s k p e p')
    (harm : armsTimer p → st = .delTimer) : Cleared (effect c e s) st where
  timer hst := effect_timer hedge (Bool.eq_false_iff.mpr fun hp => hst (harm hp)) (h.timer hst)
  gone a ha := (h.gone a ha).step hedge
  closed a left hst := effect_registered (h.closed a left hst)
  stopped hst hbegun := by
    rcases cbkOf_edge (c := c) hedge with ⟨-, ht, -⟩ | ⟨rfl, -⟩ | ⟨hr, -⟩
    · rw [h.timer hst] at ht
      cases ht
    · rfl
    · rw [hr]
      exact h.stopped hst hbegun

/-- What the removal itself has taken away after its next step. -/
theorem Cleared.own (h : ∀ st, p = .remove st → Cleared s st)
    (hidle : p = .remove (.removeFiles gpiopulseAttrs) → s.running = none)
    (hedge : Edge s k p e (.remove st)) : Cleared (effect c e s) st := by
  cases hedge with
  | unbind =>
      refine ⟨fun hst => absurd rfl hst, fun a ha => ?_, by simp, fun hst => absurd rfl hst⟩
      cases a <;> simp [RemoveStage.left, gpiopulseAttrs] at ha
  | delTimer => exact ⟨fun _ => rfl, (h _ rfl).gone, by simp, fun _ hst => absurd rfl hst⟩
  | removeFile a left =>
      refine ⟨fun _ => (h _ rfl).timer (by simp), fun b hb => ?_, fun b l hst => ?_,
        fun _ _ => ?_⟩
      · exact ((h _ rfl).gone b hb).step (.removeFile a left : Edge s .run _ _ (_ : Pc bits))
      · cases hst
        simp only [effect, Function.update_self]
      · by_cases hbegins : a :: left = gpiopulseAttrs
        · exact hidle (congrArg (fun left => Pc.remove (.removeFiles left)) hbegins)
        · exact (h _ rfl).stopped (by simp) fun hst => hbegins (RemoveStage.removeFiles.inj hst)
  | drain a left hactive =>
      refine ⟨fun _ => (h _ rfl).timer (by simp), fun b hb => ?_, by simp,
        fun _ _ => (h _ rfl).stopped (by simp) (by simp)⟩
      by_cases hab : b = a
      · exact hab ▸ ⟨(h _ rfl).closed a left rfl, hactive⟩
      · exact (h _ rfl).gone b fun hmem => (List.mem_cons.mp hmem).elim hab hb
  | returned =>
      exact ⟨fun _ => (h _ rfl).timer (by simp), (h _ rfl).gone, by simp,
        fun _ _ => (h _ rfl).stopped (by simp) (by simp [gpiopulseAttrs])⟩

end Effects

/-- Nothing of the device is left that could touch its data. -/
structure Dead {bits : ℕ} (s : State bits) : Prop where
  quiet : Quiet s
  closed : ∀ a, s.shared.registered a = false
  store : ∀ u, storeOf (s.pc u) = none

section Runs
variable {bits : ℕ} {s t : State bits} {c : ℕ} {k : Choice bits} {e : Effect}

theorem Dead.step (h : Dead s) (he : (program bits).Step s c k e t) : Dead t := by
  have hedge := edge_of_step he
  have hshared : t.shared = effect c e s.shared := he.shared
  have harm : armsTimer (s.pc c) = false := by
    have hcbk := h.quiet.2 c
    have hstore := h.store c
    revert hcbk hstore
    cases s.pc c <;> simp [cbkOf, storeOf, armsTimer]
  refine ⟨h.quiet.step harm he, fun a => ?_, fun u => ?_⟩
  · rw [hshared]
    exact effect_registered (h.closed a)
  · refine he.forall_pc (Q := fun p => storeOf p = none) h.store ?_ (fun _ hp => hp) u
    rcases storeOf_edge (c := c) hedge with ⟨a, -, hr, -, -⟩ | ⟨-, -, -, hp'⟩ | ⟨-, hp⟩
    · exact absurd (hr.symm.trans (h.closed a)) nofun
    · exact hp'
    · exact hp.trans (h.store c)

theorem Dead.run (h : Dead s) {as : List (ℕ × Choice bits)}
    (hrun : (system bits).run s as = some t) : Dead t := by
  refine System.run_preserves (fun s a t hs _ hn => ?_) (System.meets_true s as) hrun h
  obtain ⟨e, he⟩ := Program.step_of_next hn
  exact hs.step he

theorem cleared (h : (system bits).ReachableWhen Guarded s) :
    ∀ u st, s.pc u = .remove st → Cleared s.shared st := by
  refine Program.invariant (I := fun s => ∀ u st, s.pc u = .remove st → Cleared s.shared st) ?_ ?_ h
  · rintro s ⟨dt, rfl⟩ u st hp
    cases hp
  · intro s c k e t _ hs hok he u st hp
    have hedge := edge_of_step he
    have hshared : t.shared = effect c e s.shared := he.shared
    rw [hshared]
    by_cases hu : u = c
    · subst hu
      exact Cleared.own (hs u) hok.unregister (hp ▸ hedge)
    · rw [he.others u hu] at hp
      exact (hs u st hp).other hedge fun harm => hok.modTimer harm u st hp

theorem dead_of_cleared (h : Cleared s.shared .returned) (hx : (callback bits).Exclusive s)
    (hcount : ActiveCounted s) : Dead s where
  quiet := quiet_of_idle hx (h.timer nofun) (h.stopped nofun nofun)
  closed a := (h.gone a (by simp [RemoveStage.left])).1
  store u := by
    by_contra hu
    obtain ⟨a, ha⟩ := Option.ne_none_iff_exists'.mp hu
    have hzero := hcount a
    rw [(h.gone a (by simp [RemoveStage.left])).2] at hzero
    exact hzero.nobody u ha

/-- If nobody arms the timer after `del_timer` and no callback runs into
`device_unregister`, the removed device stays quiet. -/
theorem quiet_of_guarded (h : (system bits).ReachableWhen Guarded s) : QuietAfterRemove s := by
  intro c hp as t hrun
  have hdead := dead_of_cleared (cleared h c _ hp) (callback_exclusive h) (activeCounted h)
  exact (hdead.run hrun).quiet

def guardedBelow (N : ℕ) (s : State bits) (a : ℕ × Choice bits) : Bool :=
  (!armsTimer (s.pc a.1) || (List.range N).all fun u =>
    match s.pc u with
    | .remove st => st = .delTimer
    | _ => true) &&
  match s.pc a.1 with
  | .remove (.removeFiles _) => s.shared.running = none
  | _ => true

theorem guarded_of_below {N : ℕ} {a : ℕ × Choice bits} (hN : ∀ u, N ≤ u → s.pc u = .unstarted)
    (h : guardedBelow N s a = true) : Guarded s a := by
  obtain ⟨harm, hidle⟩ := Bool.and_eq_true_iff.mp h
  refine ⟨fun ha u st hp => ?_, fun hp => ?_⟩
  · by_cases hu : u < N
    · simp only [ha, Bool.not_true, Bool.false_or, List.all_eq_true, List.mem_range] at harm
      have hst := harm u hu
      rw [hp] at hst
      exact of_decide_eq_true hst
    · rw [hN u (Nat.not_lt.mp hu)] at hp
      cases hp
  · rw [hp] at hidle
    exact of_decide_eq_true hidle

end Runs

/-- The callback is running when `del_timer` runs; it finds the flag zero and ends. -/
def removeDuringCallback : List (ℕ × Choice 64) :=
  [(0, .expire), (1, .remove), (1, .run)] ++ steps 0 4 ++ steps 1 5

theorem quiet_of_guarded_removeDuringCallback :
    ∃ s, (system 64).run (probed 64 ⟨0, 500⟩) removeDuringCallback = some s ∧
      s.pc 1 = .remove .returned ∧ QuietAfterRemove s := by
  have hmeets : (system 64).Meets Guarded (probed 64 ⟨0, 500⟩) removeDuringCallback :=
    Program.meets_of_passes (N := 2) (fun _ => rfl) (fun _ _ => guarded_of_below) (fun _ _ => rfl)
      (by decide) (by decide)
  exact ⟨_, rfl, rfl, quiet_of_guarded (.run (.start ⟨_, rfl⟩) hmeets rfl)⟩

/-- The callback has found the flag set before `del_timer` runs, and arms the
timer again after it. -/
def rearmAfterDelTimer : List (ℕ × Choice 64) :=
  (0, .expire) :: steps 0 3 ++ (1, .remove) :: steps 1 1 ++ steps 0 3 ++ steps 1 5

theorem not_quiet_rearmAfterDelTimer :
    ¬∀ (bits : ℕ) (s : State bits), (system bits).Reachable s → QuietAfterRemove s := by
  intro h
  obtain ⟨s, hrun, hp, ht⟩ : ∃ s,
      (system 64).run (probed 64 ⟨1, 500⟩) rearmAfterDelTimer = some s ∧
        s.pc 1 = .remove .returned ∧ s.shared.timer = some 500 := ⟨_, rfl, rfl, rfl⟩
  have hr : (system 64).Reachable s := System.Reachable.run (.start ⟨_, rfl⟩) hrun
  have hquiet := (h 64 s hr 1 hp [] s rfl).1
  exact absurd (hquiet.symm.trans ht) nofun

end LinuxDeviceDrivers.Gpiopulse
