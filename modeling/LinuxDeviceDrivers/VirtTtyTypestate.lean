import LinuxDeviceDrivers.VirtTty

/-!
# The typestate of the private data of the virtual tty

The device is registered before `virt_tty_prv` exists, the first open of a
closed tty initialises the timer and `virttty_exit` cancels it in any case. Three
conditions on a run make up for this: no open gets to the mutex before
`virttty_init` has returned or after the memory is freed, the module is not
removed before an open has initialised the timer, and the timer is not cancelled
under a running callback.
-/
namespace LinuxDeviceDrivers.VirtTty
open KernelPrimitives TransitionSystem ThreadProgram

/-- Before `virttty_init` is called. -/
def absent : State where
  shared :=
    { prv := .null
      openCount := 0
      mutexReady := false
      mutex := none
      timerReady := false
      pending := false
      running := none
      registered := false
      module := .absent }
  pc _ := .unstarted

def fromInit : System State (ℕ × Choice) := program.system fun s => s = absent

section Statement

/-- The thread is about to call `del_timer` or `mod_timer`. -/
def usesTimer (p : Pc) : Prop := deletes p ∨ p = .opening .modTimer ∨ p = .cbk .modTimer

/-- What a step may count on: an open finds the memory and its mutex, the timer
is used only after its setup, and set up only while it is idle. -/
structure Typestate (s : State) (a : ℕ × Choice) : Prop where
  mutexLock : s.pc a.1 = .opening .mutexLock →
    s.shared.prv = .live ∧ s.shared.mutexReady = true
  timer : usesTimer (s.pc a.1) → s.shared.timerReady = true
  timerSetup : s.pc a.1 = .opening .timerSetup →
    s.shared.pending = false ∧ s.shared.running = none

/-- The thread has gone through its open at least up to the setup of the timer. -/
def setUp (p : Pc) : Prop :=
  p = .opening .modTimer ∨ p = .opening .mutexUnlock ∨ p = .opened ∨
    (∃ st, p = .doClose .virtttyClose st) ∨ p = .closed

def Module.up : Module → Prop
  | .loaded | .going => True
  | .absent | .loading _ => False

/-- An open comes while the module is up and its memory is there, `virttty_exit`
cancels a timer that some open has set up, and `del_timer` finds no callback
running. -/
structure Orderly (s : State) (a : ℕ × Choice) : Prop where
  mutexLock : s.pc a.1 = .opening .mutexLock → s.shared.module.up ∧ ∀ u, ¬pastFree (s.pc u)
  exit : s.pc a.1 = .exit .delTimer → ∃ u, setUp (s.pc u)
  delTimer : deletes (s.pc a.1) → ∀ u, ¬inCallback (s.pc u)

end Statement

/-- The thread is in `virttty_init`. -/
def inInit (p : Pc) : Prop := ∃ st, p = .init st ∧ ∀ ret, st ≠ .returned ret

/-- What a thread can have done before the module is up. -/
def early (p : Pc) : Prop :=
  p = .unstarted ∨ (∃ st, p = .init st) ∨ p = .opening .mutexLock ∨ p = .crashed

/-- The thread is testing the count in its open, or setting up the timer. -/
def first (p : Pc) : Prop := p = .opening .test ∨ p = .opening .timerSetup

/-- The thread has found the timer set up, or has set it up itself. -/
def relies (p : Pc) : Prop :=
  setUp p ∨ p = .doClose .virtttyExit .dec ∨ p = .doClose .virtttyExit .testLast ∨
    p = .doClose .virtttyExit .delTimer ∨ ∃ st, p = .cbk st

/-- The module before it is up. -/
structure Early (s : State) : Prop where
  pc : ∀ u, early (s.pc u)
  pending : s.shared.pending = false
  initialised : ∀ u, s.pc u = .init .openCount → s.shared.prv = .live ∧ s.shared.mutexReady = true
  allocated : ∀ u, s.pc u = .init .mutexInit → s.shared.prv = .live

/-- The module once it is up. -/
structure Up (s : State) : Prop where
  ready : s.shared.mutexReady = true
  live : s.shared.prv ≠ .live → ∃ u, pastFree (s.pc u)
  count : CountSound s
  armed : ArmedOpen s
  fresh : ∀ u, s.pc u = .opening .timerSetup ∨ s.pc u = .opening .test ∧ s.shared.openCount = 1 →
    ¬Armed s
  counted : s.shared.openCount ≠ 0 → s.shared.timerReady = true ∨ ∃ u, first (s.pc u)
  tested : ∀ u, s.pc u = .opening .test → s.shared.openCount ≠ 1 → s.shared.timerReady = true
  relied : (s.shared.pending = true ∨ ∃ u, relies (s.pc u)) → s.shared.timerReady = true

/-- Only the thread that is loading the module is in `virttty_init`. -/
structure Phases (s : State) : Prop where
  init : ∀ u, inInit (s.pc u) → s.shared.module = .loading u
  early : ¬s.shared.module.up → Early s
  up : s.shared.module.up → Up s

section Edges
variable {s : Shared} {k : Choice} {e : Effect} {p p' : Pc} {c : ℕ}

theorem inInit_of_initEdge {st : InitStage} (h : InitEdge k st e p') : inInit (.init st) :=
  ⟨st, rfl, fun ret hst => by subst hst; cases h⟩

/-- What the mutex and the timer have got they keep. -/
theorem effect_ready (hr : s.mutexReady = true) : (effect c e s).mutexReady = true := by
  cases e with
  | mutexInit => rfl
  | _ => exact hr

theorem effect_timerReady (hr : s.timerReady = true) : (effect c e s).timerReady = true := by
  cases e with
  | timerSetup => rfl
  | _ => exact hr

theorem early_edge (h : Edge s k p e p') (hp : early p) (hpending : s.pending = false)
    (hup : ¬s.module.up) (hlock : p ≠ .opening .mutexLock) :
    e = .load ∧ s.module = .absent ∧ p' = .init .ttyAllocDriver ∨
      (∃ st, p = .init st ∧ InitEdge k st e p') ∨ e = .skip ∧ p' = .opening .mutexLock := by
  cases h with
  | load habsent => exact .inl ⟨rfl, habsent, rfl⟩
  | init h => exact .inr (.inl ⟨_, rfl, h⟩)
  | openTty => exact .inr (.inr ⟨rfl, rfl⟩)
  | expire ht => exact absurd (ht.symm.trans hpending) nofun
  | leave hloaded => exact absurd (hloaded ▸ trivial) hup
  | crash | openLock => exact absurd rfl hlock
  | _ => simp [early] at hp

/-- A module that is up stays up, and nobody begins to load it. -/
theorem up_edge (h : Edge s k p e p') (hup : s.module.up) (hinit : ∀ st, p ≠ .init st) :
    (effect c e s).module.up ∧ ¬inInit p' := by
  cases h with
  | load habsent => exact absurd hup (by rw [habsent]; exact fun h => h)
  | init => exact absurd rfl (hinit _)
  | leave => exact ⟨trivial, by simp [inInit]⟩
  | closeUnlock who => exact ⟨hup, by cases who <;> simp [inInit, Caller.resume]⟩
  | _ => exact ⟨hup, by simp [inInit]⟩

theorem live_edge (h : Edge s k p e p') (hinit : ∀ st, p ≠ .init st)
    (hp' : (effect c e s).prv ≠ .live) : s.prv ≠ .live ∨ pastFree p' := by
  cases h with
  | init => exact absurd rfl (hinit _)
  | kfree => exact .inr (.inl rfl)
  | clear => exact .inr (.inr rfl)
  | _ => exact .inl hp'

theorem pastFree_edge (h : Edge s k p e p') (hp : pastFree p) : pastFree p' := by
  cases h with
  | clear => exact .inr rfl
  | _ => simp [pastFree] at hp

theorem first_edge (h : Edge s k p e p') (hp : first p) :
    first p' ∨ p = .opening .test ∧ s.openCount ≠ 1 ∨ e = .timerSetup := by
  cases h with
  | first => exact .inl (.inr rfl)
  | notFirst hcount => exact .inr (.inl ⟨rfl, hcount⟩)
  | timerSetup => exact .inr (.inr rfl)
  | _ => simp [VirtTty.first] at hp

theorem test_of_edge (h : Edge s k p e p') (hp' : p' = .opening .test) :
    e = .inc ∧ p = .opening .inc := by
  cases h with
  | inc => exact ⟨rfl, rfl⟩
  | init h => cases h <;> cases hp'
  | closeUnlock who => cases who <;> cases hp'
  | _ => cases hp'

theorem timerSetup_of_edge (h : Edge s k p e p') (hp' : p' = .opening .timerSetup) :
    p = .opening .test ∧ s.openCount = 1 := by
  cases h with
  | first hcount => exact ⟨rfl, hcount⟩
  | init h => cases h <;> cases hp'
  | closeUnlock who => cases who <;> cases hp'
  | _ => cases hp'

/-- A pending timer, or a thread that relies on the setup, is not new or comes
after the setup. -/
theorem relied_edge (h : Edge s k p e p') (hp' : (effect c e s).pending = true ∨ relies p') :
    s.pending = true ∨ relies p ∨ e = .timerSetup ∨ p = .opening .test ∧ s.openCount ≠ 1 ∨
      inMutex p = true ∧ ¬first p ∧ s.openCount ≠ 0 := by
  cases h with
  | timerSetup => exact .inr (.inr (.inl rfl))
  | notFirst hcount => exact .inr (.inr (.inr (.inl ⟨rfl, hcount⟩)))
  | isOpen who hcount => exact .inr (.inr (.inr (.inr ⟨rfl, by simp [VirtTty.first], hcount⟩)))
  | expire ht => exact .inl ht
  | openModTimer | openUnlock | close => exact .inr (.inl (by simp [relies, setUp]))
  | pushString | modTimer => exact .inr (.inl (by simp [relies]))
  | dec who | last who => cases who <;> exact .inr (.inl (by simp [relies, setUp]))
  | exitDelTimer => simp [relies, setUp, effect] at hp'
  | closeDelTimer who =>
      cases who with
      | virtttyClose => exact .inr (.inl (.inl (by simp [setUp])))
      | virtttyExit => simp [relies, setUp, effect] at hp'
  | closeUnlock who | closeLock who | notOpen who | notLast who =>
      cases who with
      | virtttyClose => exact .inr (.inl (.inl (by simp [setUp])))
      | virtttyExit => exact .inl (by simpa [relies, setUp, effect, Caller.resume] using hp')
  | init h => cases h <;> exact .inl (hp'.resolve_right (by simp [relies, setUp]))
  | _ => exact .inl (by simpa [relies, setUp, effect] using hp')

end Edges

section Runs
variable {s t : State} {c : ℕ} {k : Choice} {e : Effect}

theorem Phases.noInit (h : Phases s) (hup : s.shared.module.up) (he : program.Step s c k e t)
    (st : InitStage) : s.pc c ≠ .init st := by
  intro hp
  have hedge := edge_of_step he
  rw [hp] at hedge
  cases hedge with
  | init hi =>
      rw [h.init c (hp ▸ inInit_of_initEdge hi)] at hup
      exact hup

theorem timerReady_kept (he : program.Step s c k e t) (hs : s.shared.timerReady = true) :
    t.shared.timerReady = true := by
  rw [show t.shared = effect c e s.shared from he.shared]
  exact effect_timerReady hs

theorem inMutex_of_first {p : Pc} (h : first p) : inMutex p = true := by
  rcases h with rfl | rfl <;> rfl

/-- The count stays as it is while another thread is between lock and unlock. -/
theorem count_kept (hx : mutex.Exclusive s) (hinit : ∀ st, s.pc c ≠ .init st)
    (he : program.Step s c k e t) {u : ℕ} (hu : inMutex (s.pc u) = true) (huc : u ≠ c) :
    t.shared.openCount = s.shared.openCount := by
  have hshared : t.shared = effect c e s.shared := he.shared
  rcases count_edge (c := c) (edge_of_step he) hinit with ⟨-, hp, -⟩ | ⟨who, -, hp, -⟩ | hsame
  · exact absurd (hx.unique hu (by rw [hp]; rfl)) huc
  · exact absurd (hx.unique hu (by rw [hp]; rfl)) huc
  · rw [hshared, hsame]

/-- An open that finds the count zero finds the timer cancelled. -/
theorem not_armed_of_zero (harmed : ArmedOpen s) (hx : mutex.Exclusive s)
    (hzero : s.shared.openCount = 0) (hc : s.pc c = .opening .inc) : ¬Armed s := by
  intro h
  rcases harmed h with hne | ⟨v, hv⟩
  · exact hne hzero
  · have hvc : v = c := hx.unique (inMutex_of_closing hv) (by rw [hc]; rfl)
    rw [hvc, hc] at hv
    simp [closing] at hv

theorem Up.fresh_step (h : Up s) (hx : mutex.Exclusive s) (hinit : ∀ st, s.pc c ≠ .init st)
    (he : program.Step s c k e t) {u : ℕ}
    (hu : t.pc u = .opening .timerSetup ∨ t.pc u = .opening .test ∧ t.shared.openCount = 1) :
    ¬Armed t := by
  have hshared : t.shared = effect c e s.shared := he.shared
  have hedge := edge_of_step he
  have hkeep : s.pc c ≠ .opening .modTimer → ¬Armed s → ¬Armed t := fun hc hs ht =>
    (armed_before he ht).elim hs hc
  by_cases huc : u = c
  · subst huc
    rcases hu with hp | ⟨hp, hone⟩
    · obtain ⟨hq, hcount⟩ := timerSetup_of_edge hedge hp
      exact hkeep (by simp [hq]) (h.fresh u (.inr ⟨hq, hcount⟩))
    · obtain ⟨rfl, hq⟩ := test_of_edge hedge hp
      have hinc : t.shared.openCount = s.shared.openCount + 1 := by rw [hshared]; rfl
      exact hkeep (by simp [hq]) (not_armed_of_zero h.armed hx (by omega) hq)
  · rw [show t.pc u = s.pc u from he.others u huc] at hu
    have hin : inMutex (s.pc u) = true := by
      rcases hu with hp | ⟨hp, -⟩ <;> rw [hp] <;> rfl
    rw [count_kept hx hinit he hin huc] at hu
    refine hkeep (fun hc => huc (hx.unique hin (by rw [hc]; rfl))) (h.fresh u hu)

theorem Up.counted_step (h : Up s) (hinit : ∀ st, s.pc c ≠ .init st)
    (he : program.Step s c k e t) (hne : t.shared.openCount ≠ 0) :
    t.shared.timerReady = true ∨ ∃ u, first (t.pc u) := by
  have hshared : t.shared = effect c e s.shared := he.shared
  have hedge := edge_of_step he
  have hready := timerReady_kept he
  have hfirst : ∀ u, first (s.pc u) → t.shared.timerReady = true ∨ ∃ u, first (t.pc u) := by
    intro u hu
    by_cases huc : u = c
    · subst huc
      rcases first_edge hedge hu with hp | ⟨hp, hcount⟩ | rfl
      · exact .inr ⟨u, hp⟩
      · exact .inl (hready (h.tested u hp hcount))
      · exact .inl (by rw [hshared]; rfl)
    · exact .inr ⟨u, by rwa [show t.pc u = s.pc u from he.others u huc]⟩
  have hbefore : s.shared.openCount ≠ 0 → t.shared.timerReady = true ∨ ∃ u, first (t.pc u) :=
    fun hs => (h.counted hs).elim (fun hs => .inl (hready hs)) fun ⟨u, hu⟩ => hfirst u hu
  rcases count_edge (c := c) hedge hinit with ⟨-, -, hp'⟩ | ⟨who, -, hp, -⟩ | hsame
  · exact .inr ⟨c, .inl hp'⟩
  · have hpos := h.count.positive c (.inr (.inr (.inr ⟨who, hp⟩)))
    exact hbefore (by omega)
  · exact hbefore (by rwa [hshared, hsame] at hne)

/-- A thread in the mutex that is not at the beginning of its open relies on the
count. -/
theorem Up.ready_of_count (h : Up s) (hx : mutex.Exclusive s) (hin : inMutex (s.pc c) = true)
    (hfirst : ¬first (s.pc c)) (hne : s.shared.openCount ≠ 0) : s.shared.timerReady = true := by
  refine (h.counted hne).resolve_right ?_
  rintro ⟨u, hu⟩
  exact hfirst (hx.unique (inMutex_of_first hu) hin ▸ hu)

theorem Up.tested_step (h : Up s) (hx : mutex.Exclusive s) (hinit : ∀ st, s.pc c ≠ .init st)
    (he : program.Step s c k e t) {u : ℕ} (hu : t.pc u = .opening .test)
    (hne : t.shared.openCount ≠ 1) : t.shared.timerReady = true := by
  have hshared : t.shared = effect c e s.shared := he.shared
  have hedge := edge_of_step he
  refine timerReady_kept he ?_
  by_cases huc : u = c
  · subst huc
    obtain ⟨rfl, hq⟩ := test_of_edge hedge hu
    have hinc : t.shared.openCount = s.shared.openCount + 1 := by rw [hshared]; rfl
    exact h.ready_of_count hx (by rw [hq]; rfl) (by simp [hq, first]) (by omega)
  · rw [show t.pc u = s.pc u from he.others u huc] at hu
    rw [count_kept hx hinit he (by rw [hu]; rfl) huc] at hne
    exact h.tested u hu hne

theorem Up.relied_step (h : Up s) (hx : mutex.Exclusive s) (he : program.Step s c k e t)
    (hrelied : t.shared.pending = true ∨ ∃ u, relies (t.pc u)) : t.shared.timerReady = true := by
  have hshared : t.shared = effect c e s.shared := he.shared
  have hready := timerReady_kept he
  rcases he.vouched (A := fun s : Shared => s.pending = true) (B := relies) (fun _ hp => hp)
    (relied_edge (edge_of_step he)) hrelied with hs | rfl | ⟨hp, hcount⟩ | ⟨hin, hfirst, hcount⟩
  · exact hready (h.relied hs)
  · rw [hshared]
    rfl
  · exact hready (h.tested c hp hcount)
  · exact hready (h.ready_of_count hx hin hfirst hcount)

theorem Up.step (h : Up s) (hx : mutex.Exclusive s) (hinit : ∀ st, s.pc c ≠ .init st)
    (hdel : e = .delTimer → ∀ u, ¬inCallback (s.pc u)) (he : program.Step s c k e t) : Up t := by
  have hshared : t.shared = effect c e s.shared := he.shared
  have hedge := edge_of_step he
  refine
    { ready := hshared ▸ effect_ready h.ready
      live := fun hprv => ?_
      count := h.count.step hx hinit he
      armed := h.armed.step h.count hdel hinit he
      fresh := fun u => h.fresh_step hx hinit he
      counted := h.counted_step hinit he
      tested := fun u => h.tested_step hx hinit he
      relied := h.relied_step hx he }
  rw [hshared] at hprv
  rcases live_edge hedge hinit hprv with hs | hp
  · obtain ⟨u, hu⟩ := h.live hs
    by_cases huc : u = c
    · subst huc
      exact ⟨u, pastFree_edge hedge hu⟩
    · exact ⟨u, by rwa [show t.pc u = s.pc u from he.others u huc]⟩
  · exact ⟨c, hp⟩

theorem not_inMutex_of_early {p : Pc} (h : early p) : inMutex p = false := by
  rcases h with rfl | ⟨st, rfl⟩ | rfl | rfl <;> rfl

theorem not_relies_of_early {p : Pc} (h : early p) : ¬relies p := by
  rcases h with rfl | ⟨st, rfl⟩ | rfl | rfl <;> simp [relies, setUp]

theorem not_armed_of_early (hpc : ∀ u, early (s.pc u)) (hpending : s.shared.pending = false) :
    ¬Armed s := by
  rintro (hp | ⟨u, hu⟩)
  · exact absurd (hp.symm.trans hpending) nofun
  · obtain ⟨st, hst⟩ := hu
    exact not_relies_of_early (hpc u) (by rw [hst]; simp [relies])

/-- A module that has just come up. -/
theorem up_of_early (hpc : ∀ u, early (s.pc u)) (hpending : s.shared.pending = false)
    (hzero : s.shared.openCount = 0) (hready : s.shared.mutexReady = true)
    (hprv : s.shared.prv = .live) : Up s where
  ready := hready
  live hgone := absurd hprv hgone
  count :=
    { nonneg := ge_of_eq hzero
      positive := fun u hu =>
        absurd ((not_inMutex_of_early (hpc u)).symm.trans (inMutex_of_counts hu)) nofun }
  armed h := absurd h (not_armed_of_early hpc hpending)
  fresh _ _ := not_armed_of_early hpc hpending
  counted h := absurd hzero h
  tested u hu _ := by
    have hout := not_inMutex_of_early (hpc u)
    rw [hu] at hout
    cases hout
  relied h := by
    rcases h with hp | ⟨u, hu⟩
    · exact absurd (hp.symm.trans hpending) nofun
    · exact absurd hu (not_relies_of_early (hpc u))

/-- A thread begins, the memory and the mutex stay as they are. -/
theorem Early.begin (hs : Early s) (hothers : ∀ u, u ≠ c → t.pc u = s.pc u)
    (hp' : t.pc c = .init .ttyAllocDriver ∨ t.pc c = .opening .mutexLock)
    (hpending : t.shared.pending = s.shared.pending) (hprv : t.shared.prv = s.shared.prv)
    (hready : t.shared.mutexReady = s.shared.mutexReady) : Early t := by
  have hkept : ∀ {u st}, t.pc u = .init st → st ≠ .ttyAllocDriver → s.pc u = .init st := by
    intro u st hu hst
    by_cases huc : u = c
    · rcases hp' with hp | hp <;> rw [huc, hp] at hu <;> cases hu
      exact absurd rfl hst
    · rwa [hothers u huc] at hu
  refine ⟨fun u => ?_, hpending.trans hs.pending, fun u hu => ?_, fun u hu => ?_⟩
  · by_cases huc : u = c
    · rcases hp' with hp | hp <;> rw [huc, hp]
      · exact .inr (.inl ⟨_, rfl⟩)
      · exact .inr (.inr (.inl rfl))
    · rw [hothers u huc]
      exact hs.pc u
  · rw [hprv, hready]
    exact hs.initialised u (hkept hu nofun)
  · rw [hprv]
    exact hs.allocated u (hkept hu nofun)

/-- A step of `virttty_init`. -/
theorem Early.init_step (hs : Early s) (halone : ∀ u, inInit (s.pc u) → u = c) {st : InitStage}
    (hp : s.pc c = .init st) (hi : InitEdge k st e (t.pc c)) (he : program.Step s c k e t) :
    Early t := by
  have hshared : t.shared = effect c e s.shared := he.shared
  have hothers : ∀ u, u ≠ c → t.pc u = s.pc u := he.others
  have hown : ∀ {u st'}, t.pc u = .init st' → (∀ ret, st' ≠ .returned ret) → u = c := by
    intro u st' hu hst
    by_contra huc
    rw [hothers u huc] at hu
    exact huc (halone u ⟨st', hu, hst⟩)
  refine ⟨fun u => ?_, ?_, fun u hu => ?_, fun u hu => ?_⟩
  · by_cases huc : u = c
    · subst huc
      generalize t.pc u = p' at hi
      cases hi with
      | noDriver => exact .inr (.inr (.inr rfl))
      | _ => exact .inr (.inl ⟨_, rfl⟩)
    · rw [hothers u huc]
      exact hs.pc u
  · rw [hshared, ← hs.pending]
    generalize t.pc c = p' at hi
    cases hi <;> rfl
  · have huc := hown hu (by simp)
    rw [huc] at hu
    rw [hu] at hi
    cases hi
    rw [hshared]
    exact ⟨hs.allocated c hp, rfl⟩
  · have huc := hown hu (by simp)
    rw [huc] at hu
    rw [hu] at hi
    cases hi
    rw [hshared]
    rfl

/-- The thread in `virttty_init` stays the one that is loading the module. -/
theorem Phases.init_kept (h : Phases s) (hothers : ∀ u, u ≠ c → t.pc u = s.pc u)
    (hown : inInit (t.pc c) → t.shared.module = .loading c)
    (hmodule : ∀ u, u ≠ c → s.shared.module = .loading u → t.shared.module = .loading u) (u : ℕ)
    (hu : inInit (t.pc u)) : t.shared.module = .loading u := by
  by_cases huc : u = c
  · subst huc
    exact hown hu
  · rw [hothers u huc] at hu
    exact hmodule u huc (h.init u hu)

theorem Phases.init_step (h : Phases s) (hs : Early s) {st : InitStage} (hp : s.pc c = .init st)
    (hi : InitEdge k st e (t.pc c)) (he : program.Step s c k e t) : Phases t := by
  have hshared : t.shared = effect c e s.shared := he.shared
  have hloading : s.shared.module = .loading c := h.init c (hp ▸ inInit_of_initEdge hi)
  have halone : ∀ u, s.shared.module = .loading u → u = c := fun u hu =>
    (Module.loading.inj (hloading.symm.trans hu)).symm
  have hearly : Early t := hs.init_step (fun u hu => halone u (h.init u hu)) hp hi he
  have hothers : ∀ u, u ≠ c → s.shared.module = .loading u → t.shared.module = .loading u :=
    fun u huc hu => absurd (halone u hu) huc
  by_cases hdone : e = .clearCount
  · subst hdone
    have hnot : ¬inInit (t.pc c) := by
      generalize t.pc c = p' at hi
      cases hi
      rintro ⟨st', hst, hne⟩
      exact hne 0 (Pc.init.inj hst).symm
    have hst : st = .openCount := by
      generalize t.pc c = p' at hi
      cases hi
      rfl
    obtain ⟨hprv, hready⟩ := hs.initialised c (hst ▸ hp)
    refine ⟨h.init_kept he.others (fun hc => absurd hc hnot) hothers,
      fun hup => absurd (hshared ▸ trivial) hup, fun _ => ?_⟩
    refine up_of_early hearly.pc hearly.pending ?_ ?_ ?_ <;> rw [hshared]
    exacts [rfl, hready, hprv]
  · have hmodule : t.shared.module = .loading c := by
      rw [hshared, ← hloading]
      generalize t.pc c = p' at hi
      cases hi <;> first | rfl | exact absurd rfl hdone
    refine ⟨h.init_kept he.others (fun _ => hmodule) hothers, fun _ => hearly, fun hup => ?_⟩
    rw [hmodule] at hup
    exact hup.elim

/-- A step of a module that is up. -/
theorem Phases.up_step (h : Phases s) (hx : mutex.Exclusive s) (hok : Orderly s (c, k))
    (hup : s.shared.module.up) (he : program.Step s c k e t) : Phases t := by
  have hshared : t.shared = effect c e s.shared := he.shared
  have hedge := edge_of_step he
  have hinit := h.noInit hup he
  obtain ⟨hupt, hnot⟩ := up_edge (c := c) hedge hup hinit
  rw [← hshared] at hupt
  have hdel : e = .delTimer → ∀ u, ¬inCallback (s.pc u) := by
    rintro rfl
    exact hok.delTimer (deletes_of_delTimer hedge)
  refine ⟨h.init_kept he.others (fun hc => absurd hc hnot) fun u _ hu => ?_,
    fun hn => absurd hupt hn, fun _ => (h.up hup).step hx hinit hdel he⟩
  rw [hu] at hup
  exact hup.elim

theorem Phases.step (h : Phases s) (hx : mutex.Exclusive s) (hok : Orderly s (c, k))
    (he : program.Step s c k e t) : Phases t := by
  by_cases hup : s.shared.module.up
  · exact h.up_step hx hok hup he
  · have hshared : t.shared = effect c e s.shared := he.shared
    have hs := h.early hup
    rcases early_edge (edge_of_step he) (hs.pc c) hs.pending hup fun hp => hup (hok.mutexLock hp).1
      with ⟨rfl, habsent, hp'⟩ | ⟨st, hp, hi⟩ | ⟨rfl, hp'⟩
    · have hmodule : t.shared.module = .loading c := by rw [hshared]; rfl
      have hearly := hs.begin he.others (.inl hp') (by rw [hshared]; rfl) (by rw [hshared]; rfl)
        (by rw [hshared]; rfl)
      refine ⟨h.init_kept he.others (fun _ => hmodule) fun u _ hu => ?_, fun _ => hearly,
        fun hupt => ?_⟩
      · exact absurd (habsent.symm.trans hu) nofun
      · rw [hmodule] at hupt
        exact hupt.elim
    · exact h.init_step hs hp hi he
    · have hsame : t.shared = s.shared := hshared
      have hearly := hs.begin he.others (.inr hp') (by rw [hsame]) (by rw [hsame]) (by rw [hsame])
      have hnot : ¬inInit (t.pc c) := by rw [hp']; simp [inInit]
      refine ⟨h.init_kept he.others (fun hc => absurd hc hnot) fun u _ hu => hsame ▸ hu,
        fun _ => hearly, fun hupt => ?_⟩
      rw [hsame] at hupt
      exact absurd hupt hup

theorem unstarted_absent : ∀ s, s = absent → ∀ u, s.pc u = .unstarted := by
  rintro s rfl u
  rfl

theorem callback_never_leaks : ¬callback.Leaks s c k := by
  rintro ⟨e, p, hm, hp, hp', hr⟩
  rcases cbkOf_edge (c := c) (edge_of_move hm) with ⟨-, -, -, hnone, -⟩ | ⟨rfl, -⟩ | ⟨-, hsame⟩
  · exact absurd (hp.symm.trans (congrArg Option.isSome hnone)) nofun
  · exact hr rfl
  · exact hp' (hsame.trans hp)

/-- The callback that runs is a thread of the program. -/
theorem callback_tight {ok : State → ℕ × Choice → Prop} (h : fromInit.ReachableWhen ok s) :
    callback.Tight s := by
  refine Program.invariant ?_ (fun _ _ _ _ _ _ hs _ he => hs.step he callback_never_leaks) h
  rintro s rfl c hc
  cases hc

theorem cbk_of_isSome {p : Pc} (h : (cbkOf p).isSome = true) : ∃ st, p = .cbk st := by
  unfold cbkOf at h
  split at h
  · exact ⟨_, rfl⟩
  · cases h

theorem phases (h : fromInit.ReachableWhen Orderly s) : Phases s := by
  refine Program.invariant ?_ ?_ h
  · rintro s rfl
    refine ⟨fun u hu => ?_, fun _ => ⟨fun u => .inl rfl, rfl, nofun, nofun⟩, fun hup => hup.elim⟩
    obtain ⟨st, hu, -⟩ := hu
    cases hu
  · intro s c k e t hr hs hok he
    exact hs.step (mutex_exclusive unstarted_absent hr) hok he

theorem typestate_of_orderly {a : ℕ × Choice} (h : fromInit.ReachableWhen Orderly s)
    (hok : Orderly s a) : Typestate s a := by
  have hp := phases h
  have hup : ¬early (s.pc a.1) → Up s := fun hlate =>
    hp.up (by_contra fun hup => hlate ((hp.early hup).pc a.1))
  refine ⟨fun hlock => ?_, fun huse => ?_, fun hsetup => ?_⟩
  · obtain ⟨hmodule, hfree⟩ := hok.mutexLock hlock
    have hs := hp.up hmodule
    refine ⟨by_contra fun hprv => ?_, hs.ready⟩
    obtain ⟨u, hu⟩ := hs.live hprv
    exact hfree u hu
  · rcases huse with (hexit | ⟨who, hclose⟩) | hopen | hcbk
    · exact (hup (by rw [hexit]; simp [early])).relied
        (.inr ((hok.exit hexit).imp fun u hu => .inl hu))
    · refine (hup (by rw [hclose]; simp [early])).relied (.inr ⟨a.1, ?_⟩)
      cases who <;> rw [hclose] <;> simp [relies, setUp]
    · exact (hup (by rw [hopen]; simp [early])).relied (.inr ⟨a.1, .inl (.inl hopen)⟩)
    · exact (hup (by rw [hcbk]; simp [early])).relied (.inr ⟨a.1, by rw [hcbk]; simp [relies]⟩)
  · have harmed := (hup (by rw [hsetup]; simp [early])).fresh a.1 (.inl hsetup)
    refine ⟨by_contra fun hp => harmed (.inl (Bool.not_eq_false _ ▸ hp)), ?_⟩
    cases hr : s.shared.running with
    | none => rfl
    | some v =>
        obtain ⟨st, hst⟩ := cbk_of_isSome (callback_tight h v hr)
        exact absurd (.inr ⟨v, st, hst⟩) harmed

/-- In every orderly run the private data of the tty is used as it has been set
up. -/
theorem typestate {as : List (ℕ × Choice)} (h : fromInit.Meets Orderly absent as) :
    fromInit.Meets Typestate absent as :=
  (System.ReachableWhen.start rfl).meets (fun _ _ hr hok => typestate_of_orderly hr hok) h

end Runs

/-- The test of `Orderly` for the threads below `N`. -/
def orderlyBelow (N : ℕ) (s : State) (a : ℕ × Choice) : Bool :=
  match s.pc a.1 with
  | .opening .mutexLock =>
      (s.shared.module = .loaded || s.shared.module = .going) &&
        (List.range N).all fun u => ¬pastFree (s.pc u)
  | .exit .delTimer =>
      ((List.range N).any fun u => s.pc u = .closed) &&
        (List.range N).all fun u => (cbkOf (s.pc u)).isNone
  | .doClose _ .delTimer => (List.range N).all fun u => (cbkOf (s.pc u)).isNone
  | _ => true

theorem orderly_of_below {N : ℕ} {s : State} {a : ℕ × Choice}
    (hN : ∀ u, N ≤ u → s.pc u = .unstarted) (h : orderlyBelow N s a = true) : Orderly s a := by
  refine ⟨fun hp => ?_, fun hp => ?_, fun hdel => noCallback_of_below hN ?_⟩
  · simp only [orderlyBelow, hp, Bool.and_eq_true, Bool.or_eq_true, decide_eq_true_eq,
      List.all_eq_true, List.mem_range] at h
    refine ⟨by rcases h.1 with hm | hm <;> rw [hm] <;> trivial, fun u => ?_⟩
    exact Program.forall_of_below hN (Q := fun p => ¬pastFree p) (by simp [pastFree]) h.2 u
  · simp only [orderlyBelow, hp, Bool.and_eq_true, List.any_eq_true, decide_eq_true_eq] at h
    obtain ⟨u, -, hclosed⟩ := h.1
    exact ⟨u, .inr (.inr (.inr (.inr hclosed)))⟩
  · rcases hdel with hp | ⟨who, hp⟩
    · simp only [orderlyBelow, hp, Bool.and_eq_true, List.all_eq_true, List.mem_range] at h
      exact h.2
    · simpa [orderlyBelow, hp] using h

/-- The module is loaded, the tty opened and closed with a callback in between,
and the module removed. -/
def load : List (ℕ × Choice) :=
  (0, .init) :: steps 0 3 ++ [(0, .fresh 7), (0, .run), (0, .run)]

def openClose : List (ℕ × Choice) :=
  (1, .openTty) :: steps 1 6 ++ (2, .expire) :: steps 2 3 ++ (1, .close) :: steps 1 6

def remove : List (ℕ × Choice) := (3, .exit) :: steps 3 4

theorem typestate_openClose : fromInit.Meets Typestate absent (load ++ openClose ++ remove) := by
  refine typestate ?_
  exact Program.meets_of_passes (N := 4) (fun _ => rfl) (fun _ _ => orderly_of_below)
    (fun _ _ => rfl) (by decide) (by decide)

/-- The module is removed before anybody has opened the tty. -/
theorem not_typestate_neverOpened : ¬∀ as, fromInit.Meets Typestate absent as := by
  intro h
  obtain ⟨s, hrun, hpc, hready⟩ : ∃ s, fromInit.run absent (load ++ [(1, .exit), (1, .run)]) =
      some s ∧ s.pc 1 = .exit .delTimer ∧ s.shared.timerReady = false :=
    ⟨_, rfl, rfl, rfl⟩
  have hstep : Typestate s (1, .run) :=
    ((h (load ++ [(1, .exit), (1, .run)] ++ [(1, .run)])).of_append hrun).1
  exact absurd ((hstep.timer (.inl (.inl hpc))).symm.trans hready) nofun

end LinuxDeviceDrivers.VirtTty
