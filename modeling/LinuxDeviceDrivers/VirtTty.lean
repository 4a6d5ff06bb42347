import LinuxDeviceDrivers.KernelPrimitives
import LinuxDeviceDrivers.ThreadProgram

/-!
# The virtual tty and its timer

`virttty_init`, `virttty_open`, `do_close`, the timer callback and
`virttty_exit`, step by step, with any number of threads. A handle is a thread
that opens the tty and closes it once; each kernel call of the initialisation
succeeds or fails. An open can begin as soon as the device is registered. The
tty core counts the opens of a tty in an `int` itself, so `open_count`, which
follows its count, is an integer here.

`del_timer` dequeues a pending timer and does not wait for a running callback,
and no second callback starts next to a running one. The callback does not take
the mutex. What is written to `tty` and its flip buffer is left out.
-/
namespace LinuxDeviceDrivers.VirtTty
open KernelPrimitives TransitionSystem ThreadProgram

/-- Where `virt_tty_prv` points. -/
inductive Prv where
  | null
  | live
  | freed
deriving DecidableEq, Repr

/-- The module, with the thread that is in `virttty_init`. -/
inductive Module where
  | absent
  | loading (c : ℕ)
  | loaded
  | going
deriving DecidableEq, Repr

/-- `struct virt_tty_dev` and the state of the module. `mutexReady` and
`timerReady` say that `mutex_init` and `timer_setup` have been called,
`running` is the thread of the callback. -/
structure Shared where
  prv : Prv
  openCount : ℤ
  mutexReady : Bool
  mutex : Option ℕ
  timerReady : Bool
  pending : Bool
  running : Option ℕ
  registered : Bool
  module : Module
deriving DecidableEq, Repr

inductive InitStage where
  | ttyAllocDriver
  | ttyRegisterDriver
  | ttyRegisterDevice
  | kmalloc
  | mutexInit
  | openCount
  | unregDev
  | errTtyAndPrt (ret : ℤ)
  | returned (ret : ℤ)
deriving DecidableEq, Repr

inductive OpenStage where
  | mutexLock
  | inc
  | test
  | timerSetup
  | modTimer
  | mutexUnlock
deriving DecidableEq, Repr

inductive CloseStage where
  | mutexLock
  | test
  | dec
  | testLast
  | delTimer
  | mutexUnlock
deriving DecidableEq, Repr

/-- Who has called `do_close`. -/
inductive Caller where
  | virtttyClose
  | virtttyExit
deriving DecidableEq, Repr

inductive CbkStage where
  | pushString
  | modTimer
  | finish
deriving DecidableEq, Repr

inductive ExitStage where
  | testCount
  | delTimer
  | kfree
  | clear
  | returned
deriving DecidableEq, Repr

/-- A thread that crashes is never seen again. -/
inductive Pc where
  | unstarted
  | init (st : InitStage)
  | opening (st : OpenStage)
  | opened
  | doClose (caller : Caller) (st : CloseStage)
  | closed
  | cbk (st : CbkStage)
  | cbkDone
  | exit (st : ExitStage)
  | crashed
deriving DecidableEq, Repr

/-- `run` is the next step of a thread, in which a kernel call succeeds; `fail`
is a failing one. Fresh memory has any value in the place of `open_count`. -/
inductive Choice where
  | init
  | openTty
  | close
  | expire
  | exit
  | run
  | fail (err : Errno)
  | fresh (openCount : ℤ)
deriving DecidableEq, Repr

inductive Effect where
  | skip
  | load
  | register
  | unregister
  | alloc (openCount : ℤ)
  | mutexInit
  | clearCount
  | lock
  | unlock
  | inc
  | dec
  | timerSetup
  | modTimer
  | delTimer
  | expire
  | finish
  | leave
  | kfree
  | clear
deriving DecidableEq, Repr

/-- `tty_alloc_driver` fails with an error pointer, which passes the test for NULL
and is written through. -/
def virtttyInit : Choice → InitStage → Option (Effect × Pc)
  | .run, .ttyAllocDriver => some (.skip, .init .ttyRegisterDriver)
  | .fail _, .ttyAllocDriver => some (.skip, .crashed)
  | .run, .ttyRegisterDriver => some (.skip, .init .ttyRegisterDevice)
  | .fail err, .ttyRegisterDriver => some (.skip, .init (.errTtyAndPrt err.val))
  | .run, .ttyRegisterDevice => some (.register, .init .kmalloc)
  | .fail _, .ttyRegisterDevice => some (.skip, .init .kmalloc)
  | .fresh n, .kmalloc => some (.alloc n, .init .mutexInit)
  | .fail _, .kmalloc => some (.skip, .init .unregDev)
  | .run, .mutexInit => some (.mutexInit, .init .openCount)
  | .run, .openCount => some (.clearCount, .init (.returned 0))
  | .run, .unregDev => some (.unregister, .init (.errTtyAndPrt (-ENOMEM)))
  | .run, .errTtyAndPrt ret => some (.skip, .init (.returned ret))
  | _, _ => none

/-- A lock of a mutex that is not there crashes the thread. -/
def virtttyOpen (s : Shared) : OpenStage → Option (Effect × Pc)
  | .mutexLock =>
      if s.prv = .null ∨ s.mutexReady = false then some (.skip, .crashed)
      else if s.mutex = none then some (.lock, .opening .inc)
      else none
  | .inc => some (.inc, .opening .test)
  | .test => some (.skip, .opening (if s.openCount = 1 then .timerSetup else .mutexUnlock))
  | .timerSetup => some (.timerSetup, .opening .modTimer)
  | .modTimer => some (.modTimer, .opening .mutexUnlock)
  | .mutexUnlock => some (.unlock, .opened)

def Caller.resume : Caller → Pc
  | .virtttyClose => .closed
  | .virtttyExit => .exit .testCount

def doClose (s : Shared) (caller : Caller) : CloseStage → Option (Effect × Pc)
  | .mutexLock => if s.mutex = none then some (.lock, .doClose caller .test) else none
  | .test => some (.skip, .doClose caller (if s.openCount = 0 then .mutexUnlock else .dec))
  | .dec => some (.dec, .doClose caller .testLast)
  | .testLast => some (.skip, .doClose caller (if s.openCount ≤ 0 then .delTimer else .mutexUnlock))
  | .delTimer => some (.delTimer, .doClose caller .mutexUnlock)
  | .mutexUnlock => some (.unlock, caller.resume)

def timerCbk : CbkStage → Effect × Pc
  | .pushString => (.skip, .cbk .modTimer)
  | .modTimer => (.modTimer, .cbk .finish)
  | .finish => (.finish, .cbkDone)

/-- The tests of the pointer and of the count are one step. -/
def virtttyExit (s : Shared) : ExitStage → Option (Effect × Pc)
  | .testCount =>
      if s.prv = .null then some (.skip, .exit .returned)
      else if s.openCount ≠ 0 then some (.skip, .doClose .virtttyExit .mutexLock)
      else some (.skip, .exit .delTimer)
  | .delTimer => some (.delTimer, .exit .kfree)
  | .kfree => some (.kfree, .exit .clear)
  | .clear => some (.clear, .exit .returned)
  | .returned => none

def move (s : Shared) : Choice → Pc → Option (Effect × Pc)
  | .init, .unstarted =>
      if s.module = .absent then some (.load, .init .ttyAllocDriver) else none
  | k, .init st => virtttyInit k st
  | .openTty, .unstarted => if s.registered then some (.skip, .opening .mutexLock) else none
  | .run, .opening st => virtttyOpen s st
  | .close, .opened => some (.skip, .doClose .virtttyClose .mutexLock)
  | .run, .doClose caller st => doClose s caller st
  | .expire, .unstarted =>
      if s.pending ∧ s.running = none then some (.expire, .cbk .pushString) else none
  | .run, .cbk st => some (timerCbk st)
  | .exit, .unstarted => if s.module = .loaded then some (.leave, .exit .testCount) else none
  | .run, .exit st => virtttyExit s st
  | _, _ => none

def effect (c : ℕ) : Effect → Shared → Shared
  | .skip, s => s
  | .load, s => { s with module := .loading c }
  | .register, s => { s with registered := true }
  | .unregister, s => { s with registered := false }
  | .alloc n, s => { s with prv := .live, openCount := n }
  | .mutexInit, s => { s with mutexReady := true }
  | .clearCount, s => { s with openCount := 0, module := .loaded }
  | .lock, s => { s with mutex := some c }
  | .unlock, s => { s with mutex := none }
  | .inc, s => { s with openCount := s.openCount + 1 }
  | .dec, s => { s with openCount := s.openCount - 1 }
  | .timerSetup, s => { s with timerReady := true }
  | .modTimer, s => { s with pending := true }
  | .delTimer, s => { s with pending := false }
  | .expire, s => { s with pending := false, running := some c }
  | .finish, s => { s with running := none }
  | .leave, s => { s with module := .going, registered := false }
  | .kfree, s => { s with prv := .freed }
  | .clear, s => { s with prv := .null }

def program : Program Shared Choice Effect Pc where
  move := move
  effect := effect
  others _ p := p

abbrev State := Config Shared Pc

def steps (c n : ℕ) : List (ℕ × Choice) := List.replicate n (c, .run)

inductive InitEdge : Choice → InitStage → Effect → Pc → Prop
  | allocDriver : InitEdge .run .ttyAllocDriver .skip (.init .ttyRegisterDriver)
  | noDriver (err : Errno) : InitEdge (.fail err) .ttyAllocDriver .skip .crashed
  | registerDriver : InitEdge .run .ttyRegisterDriver .skip (.init .ttyRegisterDevice)
  | unregistered (err : Errno) :
      InitEdge (.fail err) .ttyRegisterDriver .skip (.init (.errTtyAndPrt err.val))
  | registerDevice : InitEdge .run .ttyRegisterDevice .register (.init .kmalloc)
  | noDevice (err : Errno) : InitEdge (.fail err) .ttyRegisterDevice .skip (.init .kmalloc)
  | kmalloc (n : ℤ) : InitEdge (.fresh n) .kmalloc (.alloc n) (.init .mutexInit)
  | noMemory (err : Errno) : InitEdge (.fail err) .kmalloc .skip (.init .unregDev)
  | mutexInit : InitEdge .run .mutexInit .mutexInit (.init .openCount)
  | openCount : InitEdge .run .openCount .clearCount (.init (.returned 0))
  | unregDev : InitEdge .run .unregDev .unregister (.init (.errTtyAndPrt (-ENOMEM)))
  | errTtyAndPrt (ret : ℤ) : InitEdge .run (.errTtyAndPrt ret) .skip (.init (.returned ret))

/-- Every move, with the condition under which it is taken. -/
inductive Edge (s : Shared) : Choice → Pc → Effect → Pc → Prop
  | load : s.module = .absent → Edge s .init .unstarted .load (.init .ttyAllocDriver)
  | init {k : Choice} {st : InitStage} {e : Effect} {p' : Pc} : InitEdge k st e p' →
      Edge s k (.init st) e p'
  | openTty : s.registered = true → Edge s .openTty .unstarted .skip (.opening .mutexLock)
  | crash : s.prv = .null ∨ s.mutexReady = false →
      Edge s .run (.opening .mutexLock) .skip .crashed
  | openLock : s.prv ≠ .null → s.mutexReady = true → s.mutex = none →
      Edge s .run (.opening .mutexLock) .lock (.opening .inc)
  | inc : Edge s .run (.opening .inc) .inc (.opening .test)
  | first : s.openCount = 1 → Edge s .run (.opening .test) .skip (.opening .timerSetup)
  | notFirst : s.openCount ≠ 1 → Edge s .run (.opening .test) .skip (.opening .mutexUnlock)
  | timerSetup : Edge s .run (.opening .timerSetup) .timerSetup (.opening .modTimer)
  | openModTimer : Edge s .run (.opening .modTimer) .modTimer (.opening .mutexUnlock)
  | openUnlock : Edge s .run (.opening .mutexUnlock) .unlock .opened
  | close : Edge s .close .opened .skip (.doClose .virtttyClose .mutexLock)
  | closeLock (who : Caller) : s.mutex = none →
      Edge s .run (.doClose who .mutexLock) .lock (.doClose who .test)
  | notOpen (who : Caller) : s.openCount = 0 →
      Edge s .run (.doClose who .test) .skip (.doClose who .mutexUnlock)
  | isOpen (who : Caller) : s.openCount ≠ 0 →
      Edge s .run (.doClose who .test) .skip (.doClose who .dec)
  | dec (who : Caller) : Edge s .run (.doClose who .dec) .dec (.doClose who .testLast)
  | last (who : Caller) : s.openCount ≤ 0 →
      Edge s .run (.doClose who .testLast) .skip (.doClose who .delTimer)
  | notLast (who : Caller) : 0 < s.openCount →
      Edge s .run (.doClose who .testLast) .skip (.doClose who .mutexUnlock)
  | closeDelTimer (who : Caller) :
      Edge s .run (.doClose who .delTimer) .delTimer (.doClose who .mutexUnlock)
  | closeUnlock (who : Caller) : Edge s .run (.doClose who .mutexUnlock) .unlock who.resume
  | expire : s.pending = true → s.running = none →
      Edge s .expire .unstarted .expire (.cbk .pushString)
  | pushString : Edge s .run (.cbk .pushString) .skip (.cbk .modTimer)
  | modTimer : Edge s .run (.cbk .modTimer) .modTimer (.cbk .finish)
  | finish : Edge s .run (.cbk .finish) .finish .cbkDone
  | leave : s.module = .loaded → Edge s .exit .unstarted .leave (.exit .testCount)
  | exitNull : s.prv = .null → Edge s .run (.exit .testCount) .skip (.exit .returned)
  | exitClose : s.prv ≠ .null → s.openCount ≠ 0 →
      Edge s .run (.exit .testCount) .skip (.doClose .virtttyExit .mutexLock)
  | exitClosed : s.prv ≠ .null → s.openCount = 0 →
      Edge s .run (.exit .testCount) .skip (.exit .delTimer)
  | exitDelTimer : Edge s .run (.exit .delTimer) .delTimer (.exit .kfree)
  | kfree : Edge s .run (.exit .kfree) .kfree (.exit .clear)
  | clear : Edge s .run (.exit .clear) .clear (.exit .returned)

section Inversion
variable {s : Shared} {k : Choice} {e : Effect} {p p' : Pc}

theorem edge_of_init {st : InitStage} (h : virtttyInit k st = some (e, p')) :
    InitEdge k st e p' := by
  unfold virtttyInit at h
  split at h <;> cases h <;> constructor

theorem edge_of_open {st : OpenStage} (h : virtttyOpen s st = some (e, p')) :
    Edge s .run (.opening st) e p' := by
  cases st with
  | mutexLock =>
      simp only [virtttyOpen] at h
      split_ifs at h with hcrash hfree <;> cases h
      · exact .crash hcrash
      · obtain ⟨hprv, hready⟩ := not_or.mp hcrash
        exact .openLock hprv (Bool.not_eq_false _ ▸ hready) hfree
  | test =>
      cases h
      split_ifs with hcount
      · exact .first hcount
      · exact .notFirst hcount
  | inc => cases h; exact .inc
  | timerSetup => cases h; exact .timerSetup
  | modTimer => cases h; exact .openModTimer
  | mutexUnlock => cases h; exact .openUnlock

theorem edge_of_doClose {who : Caller} {st : CloseStage} (h : doClose s who st = some (e, p')) :
    Edge s .run (.doClose who st) e p' := by
  cases st with
  | mutexLock =>
      simp only [doClose] at h
      split_ifs at h with hfree
      cases h
      exact .closeLock who hfree
  | test =>
      cases h
      split_ifs with hcount
      · exact .notOpen who hcount
      · exact .isOpen who hcount
  | testLast =>
      cases h
      split_ifs with hcount
      · exact .last who hcount
      · exact .notLast who (Int.not_le.mp hcount)
  | dec => cases h; exact .dec who
  | delTimer => cases h; exact .closeDelTimer who
  | mutexUnlock => cases h; exact .closeUnlock who

theorem edge_of_timerCbk {st : CbkStage} (h : timerCbk st = (e, p')) : Edge s .run (.cbk st) e p' := by
  cases st <;> cases h
  · exact .pushString
  · exact .modTimer
  · exact .finish

theorem edge_of_exit {st : ExitStage} (h : virtttyExit s st = some (e, p')) :
    Edge s .run (.exit st) e p' := by
  cases st with
  | testCount =>
      simp only [virtttyExit, ne_eq, ite_not] at h
      split_ifs at h with hprv hcount <;> cases h
      · exact .exitNull hprv
      · exact .exitClosed hprv hcount
      · exact .exitClose hprv hcount
  | delTimer => cases h; exact .exitDelTimer
  | kfree => cases h; exact .kfree
  | clear => cases h; exact .clear
  | returned => cases h

theorem edge_of_move (h : move s k p = some (e, p')) : Edge s k p e p' := by
  unfold move at h
  split at h
  · split_ifs at h with hc
    cases h
    exact .load hc
  · exact .init (edge_of_init h)
  · split_ifs at h with hc
    cases h
    exact .openTty hc
  · exact edge_of_open h
  · cases h; exact .close
  · exact edge_of_doClose h
  · split_ifs at h with hc
    cases h
    exact .expire hc.1 hc.2
  · exact edge_of_timerCbk (Option.some.inj h)
  · split_ifs at h with hc
    cases h
    exact .leave hc
  · exact edge_of_exit h
  · cases h

theorem edge_of_step {s t : State} {c : ℕ} (h : program.Step s c k e t) :
    Edge s.shared k (s.pc c) e (t.pc c) :=
  edge_of_move h.move

end Inversion

/-- The thread is between its lock and its unlock of the mutex. -/
def inMutex : Pc → Bool
  | .opening st => st ≠ .mutexLock
  | .doClose _ st => st ≠ .mutexLock
  | _ => false

def cbkOf : Pc → Option CbkStage
  | .cbk st => some st
  | _ => none

/-- The thread is the running callback. -/
def inCallback (p : Pc) : Prop := ∃ st, p = .cbk st

/-- The thread has decremented the count in `do_close` and not yet acted on it. -/
def closing (p : Pc) : Prop :=
  ∃ who, p = .doClose who .testLast ∨ p = .doClose who .delTimer

/-- The thread has found the count above zero, or made it so, and relies on it. -/
def counts (p : Pc) : Prop :=
  p = .opening .test ∨ p = .opening .timerSetup ∨ p = .opening .modTimer ∨
    ∃ who, p = .doClose who .dec

/-- The thread is about to cancel the timer. -/
def deletes (p : Pc) : Prop := p = .exit .delTimer ∨ ∃ who, p = .doClose who .delTimer

/-- The thread has freed the memory in `virttty_exit`. -/
def pastFree (p : Pc) : Prop := p = .exit .clear ∨ p = .exit .returned

instance (p : Pc) : Decidable (pastFree p) := inferInstanceAs (Decidable (_ ∨ _))

section Threads
variable {s : Shared} {k : Choice} {e : Effect} {p p' : Pc} {c : ℕ}

theorem mutex_edge (h : Edge s k p e p') :
    e = .lock ∧ s.mutex = none ∧ inMutex p = false ∧ inMutex p' = true ∨
      e = .unlock ∧ inMutex p = true ∧ inMutex p' = false ∨
      (effect c e s).mutex = s.mutex ∧ inMutex p' = inMutex p := by
  cases h with
  | init h => cases h <;> exact .inr (.inr ⟨rfl, rfl⟩)
  | openLock _ _ hfree => exact .inl ⟨rfl, hfree, rfl, rfl⟩
  | closeLock who hfree => exact .inl ⟨rfl, hfree, rfl, rfl⟩
  | openUnlock => exact .inr (.inl ⟨rfl, rfl, rfl⟩)
  | closeUnlock who => exact .inr (.inl ⟨rfl, rfl, by cases who <;> rfl⟩)
  | _ => exact .inr (.inr ⟨rfl, rfl⟩)

theorem cbkOf_edge (h : Edge s k p e p') :
    e = .expire ∧ s.pending = true ∧ s.running = none ∧ cbkOf p = none ∧
        cbkOf p' = some .pushString ∨
      e = .finish ∧ cbkOf p = some .finish ∧ cbkOf p' = none ∨
      (effect c e s).running = s.running ∧ (cbkOf p').isSome = (cbkOf p).isSome := by
  cases h with
  | init h => cases h <;> exact .inr (.inr ⟨rfl, rfl⟩)
  | expire ht hr => exact .inl ⟨rfl, ht, hr, rfl, rfl⟩
  | finish => exact .inr (.inl ⟨rfl, rfl, rfl⟩)
  | closeUnlock who => exact .inr (.inr ⟨rfl, by cases who <;> rfl⟩)
  | _ => exact .inr (.inr ⟨rfl, rfl⟩)

theorem inMutex_of_counts (h : counts p) : inMutex p = true := by
  rcases h with rfl | rfl | rfl | ⟨who, rfl⟩ <;> rfl

theorem inMutex_of_closing (h : closing p) : inMutex p = true := by
  rcases h with ⟨who, rfl | rfl⟩ <;> rfl

/-- The mutex of the device. -/
def mutex : Lock program where
  owner := Shared.mutex
  holds p := inMutex p = true
  others _ _ := Iff.rfl
  move := by
    intro s k p e p' c h
    rcases mutex_edge (c := c) (edge_of_move h) with
      ⟨rfl, hfree, hp, hp'⟩ | ⟨rfl, hp, hp'⟩ | ⟨howner, hp⟩
    · exact .acquire hfree (by simp [hp]) hp'
    · exact .release hp (by simp [hp'])
    · show LockMove c s.mutex _ _ (effect c e s).mutex
      rw [howner, hp]
      exact .stay Iff.rfl

/-- The callback excludes itself, as if it held a mutex. -/
def callback : Lock program where
  owner := Shared.running
  holds p := (cbkOf p).isSome = true
  others _ _ := Iff.rfl
  move := by
    intro s k p e p' c h
    rcases cbkOf_edge (c := c) (edge_of_move h) with
      ⟨rfl, _, hr, hp, hp'⟩ | ⟨rfl, hp, hp'⟩ | ⟨hr, hp⟩
    · exact .acquire hr (by simp [hp]) (by simp [hp'])
    · exact .release (by simp [hp]) (by simp [hp'])
    · show LockMove c s.running _ _ (effect c e s).running
      rw [hr, hp]
      exact .stay Iff.rfl

/-- Only the holder of the mutex changes the count, once the module is loaded. -/
theorem count_edge (h : Edge s k p e p') (hinit : ∀ st, p ≠ .init st) :
    e = .inc ∧ p = .opening .inc ∧ p' = .opening .test ∨
      (∃ who, e = .dec ∧ p = .doClose who .dec ∧ p' = .doClose who .testLast) ∨
        (effect c e s).openCount = s.openCount := by
  cases h with
  | init => exact absurd rfl (hinit _)
  | inc => exact .inl ⟨rfl, rfl, rfl⟩
  | dec who => exact .inr (.inl ⟨who, rfl, rfl, rfl⟩)
  | _ => exact .inr (.inr rfl)

theorem not_counts_of_inMutex (h : inMutex p = false) : ¬counts p := fun hp =>
  absurd (h.symm.trans (inMutex_of_counts hp)) nofun

theorem counts_edge (h : Edge s k p e p') (hnonneg : 0 ≤ s.openCount) (hp' : counts p') :
    counts p ∨ 0 < (effect c e s).openCount := by
  cases h with
  | inc => exact .inr (Int.lt_add_one_of_le hnonneg)
  | isOpen who hcount => exact .inr (lt_of_le_of_ne hnonneg (Ne.symm hcount))
  | first => exact .inl (.inl rfl)
  | timerSetup => exact .inl (.inr (.inl rfl))
  | init h => cases h <;> exact absurd hp' (not_counts_of_inMutex rfl)
  | closeUnlock who => cases who <;> exact absurd hp' (not_counts_of_inMutex rfl)
  | notFirst | openModTimer | dec | last | notLast | closeDelTimer | notOpen | closeLock
  | openLock => simp [counts] at hp'
  | _ => exact absurd hp' (not_counts_of_inMutex rfl)

/-- Only an open arms a timer that was not armed. -/
theorem armed_edge (h : Edge s k p e p') (harmed : (effect c e s).pending = true ∨ inCallback p') :
    s.pending = true ∨ inCallback p ∨ p = .opening .modTimer := by
  cases h with
  | openModTimer => exact .inr (.inr rfl)
  | expire hpending => exact .inl hpending
  | pushString | modTimer | finish => exact .inr (.inl ⟨_, rfl⟩)
  | init h => cases h <;> exact .inl (harmed.resolve_right (by simp [inCallback]))
  | closeUnlock who =>
      cases who <;> exact .inl (harmed.resolve_right (by simp [inCallback, Caller.resume]))
  | closeDelTimer | exitDelTimer =>
      exact absurd (harmed.resolve_right (by simp [inCallback])) Bool.false_ne_true
  | _ => exact .inl (harmed.resolve_right (by simp [inCallback]))

theorem closing_edge (h : Edge s k p e p') (hp : closing p) :
    closing p' ∨ 0 < (effect c e s).openCount ∨ e = .delTimer := by
  cases h with
  | last who => exact .inl ⟨who, .inr rfl⟩
  | notLast who hcount => exact .inr (.inl hcount)
  | closeDelTimer who => exact .inr (.inr rfl)
  | closeUnlock who => simp [closing] at hp
  | _ => simp [closing] at hp

/-- A cancelled timer stays armed only through a running callback. -/
theorem delTimer_edge (h : Edge s k p .delTimer p') :
    (effect c .delTimer s).pending = false ∧ ¬inCallback p' := by
  cases h with
  | init h => cases h
  | closeDelTimer | exitDelTimer => exact ⟨rfl, by simp [inCallback]⟩

theorem deletes_of_delTimer (h : Edge s k p .delTimer p') : deletes p := by
  cases h with
  | init h => cases h
  | closeDelTimer who => exact .inr ⟨who, rfl⟩
  | exitDelTimer => exact .inl rfl

end Threads

/-- The count is not negative, and not zero where a thread relies on that. -/
structure CountSound (s : State) : Prop where
  nonneg : 0 ≤ s.shared.openCount
  positive : ∀ u, counts (s.pc u) → 0 < s.shared.openCount

/-- The timer is pending, or its callback is running. -/
def Armed (s : State) : Prop := s.shared.pending = true ∨ ∃ u, inCallback (s.pc u)

/-- While the timer is armed the tty is open, or the last close is about to look
at the count it has left. -/
def ArmedOpen (s : State) : Prop :=
  Armed s → s.shared.openCount ≠ 0 ∨ ∃ u, closing (s.pc u)

section Starts
variable {start : State → Prop} {ok : State → ℕ × Choice → Prop} {s : State}

theorem mutex_exclusive (hstart : ∀ s, start s → ∀ u, s.pc u = .unstarted)
    (h : (program.system start).ReachableWhen ok s) : mutex.Exclusive s := by
  refine Lock.exclusive_reachable (fun s hs c hc => ?_) h
  rw [hstart s hs c] at hc
  cases hc

theorem callback_exclusive (hstart : ∀ s, start s → ∀ u, s.pc u = .unstarted)
    (h : (program.system start).ReachableWhen ok s) : callback.Exclusive s := by
  refine Lock.exclusive_reachable (fun s hs c hc => ?_) h
  rw [hstart s hs c] at hc
  cases hc

end Starts

section Steps
variable {s t : State} {c : ℕ} {k : Choice} {e : Effect}

theorem CountSound.step (h : CountSound s) (hx : mutex.Exclusive s) (hinit : ∀ st, s.pc c ≠ .init st)
    (he : program.Step s c k e t) : CountSound t := by
  have hedge := edge_of_step he
  have hshared : t.shared = effect c e s.shared := he.shared
  have hothers : ∀ u, u ≠ c → t.pc u = s.pc u := he.others
  rcases count_edge (c := c) hedge hinit with ⟨rfl, -, -⟩ | ⟨who, rfl, hp, hp'⟩ | hcount
  · have hinc : t.shared.openCount = s.shared.openCount + 1 := by rw [hshared]; rfl
    have hnonneg := h.nonneg
    exact ⟨by omega, fun _ _ => by omega⟩
  · have hdec : t.shared.openCount = s.shared.openCount - 1 := by rw [hshared]; rfl
    have hpos := h.positive c (.inr (.inr (.inr ⟨who, hp⟩)))
    refine ⟨by omega, fun u hu => ?_⟩
    by_cases huc : u = c
    · subst huc
      rw [hp'] at hu
      simp [counts] at hu
    · rw [hothers u huc] at hu
      exact absurd (hx.unique (inMutex_of_counts hu) (by rw [hp]; rfl)) huc
  · refine ⟨by rw [hshared, hcount]; exact h.nonneg, fun u hu => ?_⟩
    have hpos : counts (s.pc u) → 0 < t.shared.openCount := fun hp => by
      rw [hshared, hcount]
      exact h.positive u hp
    by_cases huc : u = c
    · subst huc
      rcases counts_edge (c := u) hedge h.nonneg hu with hp | hlt
      · exact hpos hp
      · rwa [hshared]
    · exact hpos (hothers u huc ▸ hu)

/-- A timer that is cancelled under no callback is not armed any more. -/
theorem not_armed_delTimer (hcallback : ∀ u, ¬inCallback (s.pc u)) (he : program.Step s c k .delTimer t) :
    ¬Armed t := by
  obtain ⟨hpending, hown⟩ := delTimer_edge (c := c) (edge_of_step he)
  have hshared : t.shared = effect c .delTimer s.shared := he.shared
  rw [← hshared] at hpending
  rintro (hp | ⟨u, hu⟩)
  · exact absurd (hp.symm.trans hpending) nofun
  · exact he.forall_pc (Q := fun p => ¬inCallback p) hcallback hown (fun _ hp => hp) u hu

theorem armed_before (he : program.Step s c k e t) (harmed : Armed t) :
    Armed s ∨ s.pc c = .opening .modTimer :=
  he.vouched (A := fun s : Shared => s.pending = true) (B := inCallback) (fun _ hp => hp)
    (armed_edge (edge_of_step he)) harmed

/-- What keeps the tty open before a step keeps it open after it, or it is the
last close that is about to see it closed. -/
theorem open_step (hc : CountSound s) (hinit : ∀ st, s.pc c ≠ .init st)
    (he : program.Step s c k e t) (hne : s.shared.openCount ≠ 0) :
    t.shared.openCount ≠ 0 ∨ ∃ u, closing (t.pc u) := by
  have hshared : t.shared = effect c e s.shared := he.shared
  have hnonneg := hc.nonneg
  rcases count_edge (c := c) (edge_of_step he) hinit with ⟨rfl, -, -⟩ | ⟨who, -, -, hp'⟩ | hsame
  · have hinc : t.shared.openCount = s.shared.openCount + 1 := by rw [hshared]; rfl
    exact .inl (by omega)
  · exact .inr ⟨c, who, .inl hp'⟩
  · exact .inl (by rwa [hshared, hsame])

/-- A step that does not cancel the timer under a running callback. -/
theorem ArmedOpen.step (h : ArmedOpen s) (hc : CountSound s)
    (hdel : e = .delTimer → ∀ u, ¬inCallback (s.pc u)) (hinit : ∀ st, s.pc c ≠ .init st)
    (he : program.Step s c k e t) : ArmedOpen t := by
  have hshared : t.shared = effect c e s.shared := he.shared
  intro harmed
  have hcancel : e ≠ .delTimer := by
    rintro rfl
    exact not_armed_delTimer (hdel rfl) he harmed
  rcases armed_before he harmed with hs | harms
  · rcases h hs with hne | ⟨u, hu⟩
    · exact open_step hc hinit he hne
    · by_cases huc : u = c
      · subst huc
        rcases closing_edge (c := u) (edge_of_step he) hu with hstill | hpos | hdone
        · exact .inr ⟨u, hstill⟩
        · rw [← hshared] at hpos
          exact .inl (by omega)
        · exact absurd hdone hcancel
      · exact .inr ⟨u, by rw [show t.pc u = s.pc u from he.others u huc]; exact hu⟩
  · have hpos := hc.positive c (.inr (.inr (.inl harms)))
    exact open_step hc hinit he (by omega)

end Steps

/-- A test of the threads below `N` for the callback. -/
theorem noCallback_of_below {N : ℕ} {s : State} (hN : ∀ u, N ≤ u → s.pc u = .unstarted)
    (h : ∀ u < N, (cbkOf (s.pc u)).isNone = true) (u : ℕ) : ¬inCallback (s.pc u) := by
  have hnone := Program.forall_of_below hN (Q := fun p => (cbkOf p).isNone = true) rfl h u
  rintro ⟨st, hst⟩
  rw [hst] at hnone
  cases hnone

end LinuxDeviceDrivers.VirtTty
