import LinuxDeviceDrivers.Gpiopulse

/-!
# Disabling the pulse

After `enablepulse_store` has written a zero, the flag stays zero until a
non-zero value is stored, but a pulse may still be on its way: a callback that
has started toggles the pin before it looks at the flag, and a callback may
have looked at it before the write and arm the timer after it. `due` counts
these pulses, and every toggle is paid for by one of them.
-/
namespace LinuxDeviceDrivers.Gpiopulse
open KernelPrimitives TransitionSystem ThreadProgram

section Statement
variable {bits : ℕ}

/-- The choice begins a call of a `store` function. -/
def begins : Choice bits → Bool
  | .enablepulseStore _ _ | .pulsetimeStore _ _ => true
  | _ => false

/-- A `store` begins only when no other one is in progress. -/
def NonOverlapping (s : State bits) (a : ℕ × Choice bits) : Prop :=
  begins a.2 → ∀ u, storeOf (s.pc u) = none

/-- No `enablepulse_store` of a non-zero value begins. -/
def NoEnable (a : ℕ × Choice bits) : Prop :=
  ∀ count v, a.2 = .enablepulseStore count (.ok v) → v = 0

/-- The thread is not on its way to arm the timer in `enablepulse_store`. -/
def disarmed : Pc bits → Prop
  | .enablepulseStore _ (.kstrtol (.ok v)) => v = 0
  | .enablepulseStore _ (.assign v) => v = 0
  | .enablepulseStore _ (.test v) => v = 0
  | .enablepulseStore _ .loadPulsetime => False
  | .enablepulseStore _ (.modTimer _) => False
  | _ => True

structure Off (s : State bits) : Prop where
  flag : s.shared.pltDataPrv.enablepulse = 0
  stores : ∀ u, disarmed (s.pc u)

/-- At most one thread is in a `store` function. -/
def OneStore (s : State bits) : Prop :=
  ∀ u v, storeOf (s.pc u) ≠ none → storeOf (s.pc v) ≠ none → u = v

/-- The callback in progress. -/
def cbkStage (s : State bits) : Option CbkStage :=
  s.shared.running.bind fun c => cbkOf (s.pc c)

end Statement

/-- The toggle that a callback has still ahead of it. -/
def toggleAhead : Option CbkStage → ℕ
  | some .getValue | some (.setValue _) => 1
  | _ => 0

/-- The callback has found the flag set and has not armed the timer yet. -/
def rearming : Option CbkStage → Bool
  | some .loadPulsetime | some (.modTimer _) => true
  | _ => false

/-- The toggles that are on their way while the flag is zero. -/
def due (timer : Option (BitVec 32)) (st : Option CbkStage) : ℕ :=
  toggleAhead st + if timer.isSome || rearming st then 1 else 0

theorem due_le_two (timer : Option (BitVec 32)) (st : Option CbkStage) : due timer st ≤ 2 := by
  have htoggle : toggleAhead st ≤ 1 := by
    unfold toggleAhead
    split <;> decide
  unfold due
  split_ifs <;> omega

theorem due_le (timer : Option (BitVec 32)) (st : Option CbkStage) : due none st ≤ due timer st := by
  unfold due
  cases timer with
  | none => exact Nat.le_refl _
  | some x =>
      simp only [Option.isSome_some, Bool.true_or, if_true]
      split_ifs <;> omega

section Edges
variable {bits : ℕ} {s : Shared} {k : Choice bits} {e : Effect} {p p' : Pc bits} {c : ℕ}

theorem disarmed_of_storeOf (hp : storeOf p = none) : disarmed p := by
  cases p with
  | enablepulseStore => cases hp
  | _ => trivial

theorem armsTimer_of_disarmed (hd : disarmed p) (hp : cbkOf p = none) : armsTimer p = false := by
  cases p with
  | cbk => cases hp
  | enablepulseStore count st =>
      cases st with
      | modTimer => exact hd.elim
      | _ => rfl
  | _ => rfl

theorem storeOf_edge_begins (h : Edge s k p e p') (hp' : storeOf p' ≠ none) :
    begins k = true ∨ storeOf p ≠ none := by
  cases h with
  | enterEnable | enterPulse => exact .inl rfl
  | expire | getValue | setValue | disabled | enabled | loadPulsetime | modTimer | finish | leave
  | unbind | delTimer | removeFile | drain | returned => exact absurd rfl hp'
  | _ => exact .inr nofun

/-- A zero flag stays zero as long as no store of another value is on its way. -/
theorem effect_flag (h : Edge s k p e p') (hd : disarmed p) (hflag : s.pltDataPrv.enablepulse = 0) :
    (effect c e s).pltDataPrv.enablepulse = 0 := by
  cases h with
  | assignEnable count v =>
      obtain rfl : v = 0 := hd
      exact BitVec.setWidth_zero 32 bits
  | _ => exact hflag

theorem disarmed_edge (h : Edge s k p e p') (hd : disarmed p)
    (hk : ∀ count v, k = .enablepulseStore count (.ok v) → v = 0) : disarmed p' := by
  cases h with
  | enterEnable count res =>
      cases res with
      | error => trivial
      | ok v => exact hk count v rfl
  | storeNonzero count v hv => exact hv hd
  | acceptEnable | assignEnable | storeLoad => exact hd
  | _ => trivial

/-- A step of the callback, and its start and end: a toggle was due before it. -/
theorem due_edge (h : Edge s k p e p') (hd : disarmed p) (hflag : s.pltDataPrv.enablepulse = 0) :
    (effect c e s).toggles + due (effect c e s).timer (cbkOf p') ≤
      s.toggles + due s.timer (cbkOf p) := by
  cases h with
  | expire ht => simp [effect, due, toggleAhead, rearming, cbkOf, ht]
  | setValue val =>
      show s.toggles + 1 + (0 + if s.timer.isSome || false then 1 else 0) ≤
        s.toggles + (1 + if s.timer.isSome || false then 1 else 0)
      omega
  | enabled hset => exact absurd hflag hset
  | modTimer => simp [effect, due, toggleAhead, rearming, cbkOf]
  | storeModTimer => exact hd.elim
  | delTimer => exact Nat.add_le_add_left (due_le s.timer none) _
  | _ => exact Nat.le_refl _

/-- A step of another thread leaves the pulses that are due or takes the pending one. -/
theorem due_edge_other (h : Edge s k p e p') (hd : disarmed p) (hp : cbkOf p = none)
    (hp' : cbkOf p' = none) (st : Option CbkStage) :
    (effect c e s).toggles + due (effect c e s).timer st ≤ s.toggles + due s.timer st := by
  cases h with
  | expire => cases hp'
  | getValue | setValue | modTimer => cases hp
  | storeModTimer => exact hd.elim
  | delTimer => exact Nat.add_le_add_left (due_le s.timer st) _
  | _ => exact Nat.le_refl _

end Edges

section Steps
variable {bits : ℕ} {s t : State bits} {c : ℕ} {k : Choice bits} {e : Effect}

theorem cbkStage_of_running (hx : (callback bits).Exclusive s) (hp : (cbkOf (s.pc c)).isSome) :
    cbkStage s = cbkOf (s.pc c) := by
  have hr : s.shared.running = some c := hx c hp
  rw [cbkStage, hr, Option.bind_some]

theorem cbkStage_of_idle (hr : s.shared.running = none) : cbkStage s = none := by
  rw [cbkStage, hr, Option.bind_none]

/-- Either the callback itself moves, or it is left where it is. -/
theorem cbkStage_step (hx : (callback bits).Exclusive s) (he : (program bits).Step s c k e t) :
    cbkStage s = cbkOf (s.pc c) ∧ cbkStage t = cbkOf (t.pc c) ∨
      cbkOf (s.pc c) = none ∧ cbkOf (t.pc c) = none ∧ cbkStage t = cbkStage s := by
  have hx' := hx.step he
  have hshared : t.shared = effect c e s.shared := he.shared
  rcases cbkOf_edge (c := c) (edge_of_step he) with ⟨-, -, hr, hp, hp'⟩ | ⟨rfl, hp, hp'⟩ | ⟨hr, hp⟩
  · refine .inl ⟨?_, cbkStage_of_running hx' (by rw [hp']; rfl)⟩
    rw [cbkStage_of_idle hr, hp]
  · refine .inl ⟨cbkStage_of_running hx (by rw [hp]; rfl), ?_⟩
    rw [hp', cbkStage_of_idle (by rw [hshared]; rfl)]
  · by_cases hc : (cbkOf (s.pc c)).isSome
    · exact .inl ⟨cbkStage_of_running hx hc, cbkStage_of_running hx' (by rw [hp]; exact hc)⟩
    · have hs := Option.not_isSome_iff_eq_none.mp hc
      have ht := Option.not_isSome_iff_eq_none.mp (hp ▸ hc)
      refine .inr ⟨hs, ht, ?_⟩
      rw [cbkStage, cbkStage, hshared, hr]
      cases s.shared.running with
      | none => rfl
      | some d =>
          by_cases hd : d = c
          · rw [hd, Option.bind_some, Option.bind_some, hs, ht]
          · rw [Option.bind_some, Option.bind_some, he.others d hd]
            rfl

theorem Off.step (h : Off s) (hok : NoEnable (c, k)) (he : (program bits).Step s c k e t) :
    Off t := by
  have hedge := edge_of_step he
  have hshared : t.shared = effect c e s.shared := he.shared
  refine ⟨?_, he.forall_pc h.stores (disarmed_edge hedge (h.stores c) hok) fun _ hp => hp⟩
  rw [hshared]
  exact effect_flag hedge (h.stores c) h.flag

/-- While the flag is zero a step adds no pulse: it pays for a toggle with one
that was due. -/
theorem Off.due_step (h : Off s) (hx : (callback bits).Exclusive s)
    (he : (program bits).Step s c k e t) :
    t.shared.toggles + due t.shared.timer (cbkStage t) ≤
      s.shared.toggles + due s.shared.timer (cbkStage s) := by
  have hedge := edge_of_step he
  have hshared : t.shared = effect c e s.shared := he.shared
  rw [hshared]
  rcases cbkStage_step hx he with ⟨hs, ht⟩ | ⟨hs, ht, hst⟩
  · rw [hs, ht]
    exact due_edge hedge (h.stores c) h.flag
  · rw [hst]
    exact due_edge_other hedge (h.stores c) hs ht (cbkStage s)

theorem Off.quiet_step (h : Off s) (hq : Quiet s) (he : (program bits).Step s c k e t) : Quiet t :=
  hq.step (armsTimer_of_disarmed (h.stores c) (hq.2 c)) he

theorem OneStore.step (h : OneStore s) (hok : NonOverlapping s (c, k))
    (he : (program bits).Step s c k e t) : OneStore t := by
  have hedge := edge_of_step he
  intro u v hu hv
  by_cases hk : begins k = true
  · -- nobody was in a store, so only the thread that has moved can be in one
    have honly : ∀ w, storeOf (t.pc w) ≠ none → w = c := fun w hw => by
      by_contra hne
      rw [he.others w hne] at hw
      exact hw (hok hk w)
    rw [honly u hu, honly v hv]
  · have hold : ∀ w, storeOf (t.pc w) ≠ none → storeOf (s.pc w) ≠ none := fun w hw => by
      by_cases hwc : w = c
      · subst hwc
        exact (storeOf_edge_begins hedge hw).resolve_left hk
      · rw [he.others w hwc] at hw
        exact hw
    exact h u v (hold u hu) (hold v hv)

/-- The write of a zero, with no other store in progress. -/
theorem off_of_write (h : OneStore s) {count : ℕ} (hp : s.pc c = .enablepulseStore count (.assign 0))
    (he : (program bits).Step s c k e t) : Off t := by
  have hd : ∀ u, disarmed (s.pc u) := fun u => by
    by_cases hu : storeOf (s.pc u) = none
    · exact disarmed_of_storeOf hu
    · rw [h u c hu (by rw [hp]; nofun), hp]
      rfl
  have hedge := edge_of_step he
  rw [hp] at hedge
  have hshared : t.shared = effect c e s.shared := he.shared
  have hown : disarmed (t.pc c) ∧ (effect c e s.shared).pltDataPrv.enablepulse = 0 := by
    generalize t.pc c = p' at hedge
    cases hedge with
    | assignEnable => exact ⟨rfl, BitVec.setWidth_zero 32 bits⟩
  refine ⟨?_, he.forall_pc hd hown.1 fun _ hp => hp⟩
  rw [hshared]
  exact hown.2

end Steps

section Runs
variable {bits : ℕ} {s s₀ t : State bits} {c count : ℕ} {as : List (ℕ × Choice bits)}

theorem oneStore (h : (system bits).ReachableWhen NonOverlapping s) : OneStore s := by
  refine Program.invariant ?_ ?_ h
  · rintro s ⟨dt, rfl⟩ u v hu
    exact absurd rfl hu
  · intro s c k e t _ hs hok he
    exact hs.step hok he

/-- A run without a store of a non-zero value. -/
theorem Off.run (h : Off s) (hx : (callback bits).Exclusive s)
    (hok : (system bits).Meets (fun _ a => NoEnable a) s as) (hrun : (system bits).run s as = some t) :
    Off t ∧ (callback bits).Exclusive t ∧ (Quiet s → Quiet t) ∧
      t.shared.toggles + due t.shared.timer (cbkStage t) ≤
        s.shared.toggles + due s.shared.timer (cbkStage s) := by
  refine System.run_preserves (I := fun t => Off t ∧ (callback bits).Exclusive t ∧
    (Quiet s → Quiet t) ∧ t.shared.toggles + due t.shared.timer (cbkStage t) ≤
      s.shared.toggles + due s.shared.timer (cbkStage s)) ?_ hok hrun
    ⟨h, hx, fun hq => hq, Nat.le_refl _⟩
  rintro u a v ⟨hu, hxu, hq, hle⟩ ha hn
  obtain ⟨e, he⟩ := Program.step_of_next hn
  exact ⟨hu.step ha he, hxu.step he, fun hs => hu.quiet_step (hq hs) he,
    (hu.due_step hxu he).trans hle⟩

/-- After a store of zero has written the flag, and until a store of another
value begins, the pin is toggled at most twice, and a quiet timer stays quiet. -/
theorem toggles_le_of_noEnable (hs : (system bits).ReachableWhen NonOverlapping s)
    (hp : s.pc c = .enablepulseStore count (.assign 0))
    (hn : (system bits).next s (c, .run) = some s₀)
    (hok : (system bits).Meets (fun _ a => NoEnable a) s₀ as)
    (hrun : (system bits).run s₀ as = some t) :
    t.shared.toggles ≤ s₀.shared.toggles + 2 ∧
      (Quiet t → ∀ bs u, (system bits).Meets (fun _ a => NoEnable a) t bs →
        (system bits).run t bs = some u → Quiet u) := by
  obtain ⟨e, he⟩ := Program.step_of_next hn
  have hoff : Off s₀ := off_of_write (oneStore hs) hp he
  obtain ⟨hoff', hx', -, hle⟩ := hoff.run ((callback_exclusive hs).step he) hok hrun
  have hdue := due_le_two s₀.shared.timer (cbkStage s₀)
  refine ⟨by omega, fun hq bs u hbs hu => ?_⟩
  exact (hoff'.run hx' hbs hu).2.2.1 hq

end Runs

/-- A callback has started, a store of one arms the timer next to it, and a
store of zero is about to write the flag. -/
def disable : List (ℕ × Choice 64) :=
  [(0, .expire), (1, .enablepulseStore 2 (.ok 1))] ++ steps 1 6 ++
    [(2, .enablepulseStore 2 (.ok 0)), (2, .run)]

/-- Both pulses on their way after the write. -/
def lastPulses : List (ℕ × Choice 64) := steps 0 4 ++ (3, .expire) :: steps 3 4

theorem nonOverlapping_steps (s : State 64) (c n : ℕ) :
    (system 64).Meets NonOverlapping s (steps c n) := by
  refine System.meets_of_forall (fun a ha s hb => ?_) s
  obtain rfl := List.eq_of_mem_replicate ha
  cases hb

theorem meets_disable :
    (system 64).Meets NonOverlapping (probed 64 ⟨1, 500⟩) disable := by
  refine .cons nofun rfl (.cons ?_ rfl (.append (nonOverlapping_steps _ 1 6) rfl
    (.cons ?_ rfl (nonOverlapping_steps _ 2 1))))
  · -- only the callback has started
    intro _ u
    by_cases h0 : u = 0
    · simp [h0, storeOf]
    simp [h0, storeOf, probed]
  · -- the first store has returned
    intro _ u
    by_cases h0 : u = 0
    · simp [h0, storeOf]
    by_cases h1 : u = 1
    · simp [h1, storeOf, enablepulseStore]
    simp [h0, h1, storeOf, probed]

theorem toggles_le_of_noEnable_lastPulses :
    ∃ s s₀ t, (system 64).run (probed 64 ⟨1, 500⟩) disable = some s ∧
      (system 64).next s (2, .run) = some s₀ ∧ (system 64).run s₀ lastPulses = some t ∧
      t.shared.toggles = 2 ∧ t.shared.toggles ≤ s₀.shared.toggles + 2 ∧
      ∀ bs u, (system 64).Meets (fun _ a => NoEnable a) t bs →
        (system 64).run t bs = some u → Quiet u := by
  obtain ⟨s, s₀, t, hrun, hp, hn, ht, htoggles, htimer, hidle⟩ : ∃ s s₀ t,
      (system 64).run (probed 64 ⟨1, 500⟩) disable = some s ∧
        s.pc 2 = .enablepulseStore 2 (.assign 0) ∧ (system 64).next s (2, .run) = some s₀ ∧
          (system 64).run s₀ lastPulses = some t ∧ t.shared.toggles = 2 ∧
            t.shared.timer = none ∧ t.shared.running = none :=
    ⟨_, _, _, rfl, rfl, rfl, rfl, rfl, rfl, rfl⟩
  have hs : (system 64).ReachableWhen NonOverlapping s := .run (.start ⟨_, rfl⟩) meets_disable hrun
  have hok : (system 64).Meets (fun _ a => NoEnable a) s₀ lastPulses := by
    refine System.meets_of_forall (fun a ha _ count v hk => ?_) s₀
    simp only [lastPulses, steps, List.mem_append, List.mem_cons, List.mem_replicate] at ha
    rcases ha with ⟨-, rfl⟩ | rfl | ⟨-, rfl⟩ <;> cases hk
  have hr : (system 64).Reachable s := System.Reachable.run (.start ⟨_, rfl⟩) hrun
  have hquiet : Quiet t :=
    quiet_of_idle (callback_exclusive (System.Reachable.run (hr.step trivial hn) ht)) htimer hidle
  obtain ⟨hle, hstays⟩ := toggles_le_of_noEnable hs hp hn hok ht
  exact ⟨s, s₀, t, hrun, hn, ht, htoggles, hle, hstays hquiet⟩

end LinuxDeviceDrivers.Gpiopulse
