import LinuxDeviceDrivers.JiqReaders

/-!
# One reader of the just-in-queue module at a time

Readers of `/proc/jiqwq` and `/proc/jiqwqdelay` that come one after the other
and get no signal. The steps of the reader and of the work it has queued
interleave, but together they do what the calls of `jiq_print` do one by one:
every reader returns with the whole output in its file, and nobody prints to a
file that is closed.
-/
namespace LinuxDeviceDrivers.JiqReaders
open ChardrvsIoctl (LongSize)
open Jiq TransitionSystem

section Statement
variable {k : LongSize}

def OnWorkqueue (f : File) : Prop := f = .jiqwq ∨ f = .jiqwqdelay

def Away (rd : Reader) : Prop := rd = .unopened ∨ rd = .closed

def Reader.Behind : Reader → Prop
  | .returned _ | .closed => True
  | _ => False

/-- A reader of the two files of the workqueue comes when no other one is there,
there are no signals, and the module goes when no work runs. -/
def Alone (s : State k) : Label k → Prop
  | .start _ f => OnWorkqueue f ∧ ∀ u, Away (s.readers u)
  | .signal _ => False
  | .cleanup => ∀ src, s.running (.source src) = none
  | _ => True

/-- The output of a reader whose calls of `jiq_print` have come to their end. -/
def Complete (page : PageSize) (m : SeqFile) : Prop :=
  ∃ j : Jiq.State k, (Jiq.system k page).Reachable j ∧ j.queued = none ∧ j.woken = true ∧ j.m = m

/-- Who is behind its show function has its whole output. -/
def Completes (page : PageSize) (s : State k) : Prop :=
  ∀ r, (s.readers r).Behind → Complete (k := k) page (s.files r)

end Statement

/-! ## The calls of one reader -/

section Calls
variable {k : LongSize} {page : PageSize} {f : File} {data : ClientData k} {m : SeqFile}
  {x : Surroundings k}

def File.item : File → ℤ → Item
  | .jiqwqdelay, delay => .delayedWork delay
  | _, _ => .work

/-- The data and the file stand as after some calls of `jiq_print`, the next of
which is queued. -/
def Called (page : PageSize) (f : File) (data : ClientData k) (m : SeqFile) : Prop :=
  (Jiq.system k page).Reachable ⟨data, m, some (f.item data.delay), false⟩

theorem Called.stop (h : Called page f data m) (x : Surroundings k)
    (hlimit : overLimit (k := k) page data.len) : Complete (k := k) page m := by
  have hn : (Jiq.system k page).next ⟨data, m, some (f.item data.delay), false⟩ x =
      some ⟨data, m, none, true⟩ := by
    have hprint : Jiq.jiqPrint page x data m = (0, data, m) := if_pos hlimit
    cases f <;>
      simp [Jiq.system, File.item, runQueued, jiqPrintWq, jiqPrintWqDelayed, printAndQueue, hprint]
  exact ⟨_, .step h trivial hn, rfl, rfl, rfl⟩

theorem Called.print (h : Called page f data m) (x : Surroundings k)
    (hlimit : ¬overLimit (k := k) page data.len) :
    Called page f
      { data with
        len := data.len + ((putHeader data m).1 +
          .ofNat 32 ((putHeader data m).2.append (line x data.jiffies)).count)
        jiffies := x.jiffies }
      ((putHeader data m).2.append (line x data.jiffies)) := by
  have hprint : Jiq.jiqPrint page x data m = (1,
      { data with
        len := data.len + ((putHeader data m).1 +
          .ofNat 32 ((putHeader data m).2.append (line x data.jiffies)).count)
        jiffies := x.jiffies },
      (putHeader data m).2.append (line x data.jiffies)) := if_neg hlimit
  refine System.ReachableWhen.step (a := x) h trivial ?_
  cases f <;>
    simp [Jiq.system, File.item, runQueued, jiqPrintWq, jiqPrintWqDelayed, printAndQueue, hprint]

/-- The first call is queued for a file that is still empty. -/
theorem Called.first (hlen : data.len = 0) : Called page f data ⟨page.bytes, 0, []⟩ :=
  .start ⟨hlen, rfl, rfl, rfl, rfl, rfl⟩

end Calls

/-! ## The steps of one reader -/

section Invariant
variable {k : LongSize}

/-- Nothing is queued, and what still runs has nothing more to do. -/
def Over (s : State k) (src : Source) : Prop :=
  s.pending src = false ∧ ∀ c, s.running (.source src) = some c → c = .done false

/-- What is queued or runs for the reader `r`, and how far the calls of
`jiq_print` have come with it. -/
def Chain (page : PageSize) (s : State k) (r : ℕ) (f : File) : Bool → Option (Call k) → Prop
  | true, none | true, some (.done false) | false, some .load | false, some (.done true) =>
      Called page f s.data (s.files r)
  | false, some .wake => overLimit (k := k) page s.data.len ∧ Called page f s.data (s.files r)
  | false, some (.print len m _) =>
      len = s.data.len ∧ m = some r ∧ ¬overLimit (k := k) page s.data.len ∧
        Called page f s.data (s.files r)
  | false, some (.store len j) =>
      Called page f { s.data with len := s.data.len + len, jiffies := j } (s.files r)
  | _, _ => False

/-- A reader has not queued its first call yet. -/
def Begins (page : PageSize) (s : State k) (r : ℕ) : Prop :=
  (∀ src, Over s src) ∧ s.files r = ⟨page.bytes, 0, []⟩

/-- A reader has gone to sleep, and sleeps until the calls have come to their end. -/
def Sleeps (page : PageSize) (s : State k) (r : ℕ) (f : File) (woken : Bool) : Prop :=
  s.m = some r ∧ (∀ src, src ≠ f.source → Over s src) ∧
    if woken then Over s f.source ∧ Complete (k := k) page (s.files r)
    else Chain page s r f (s.pending f.source) (s.running (.source f.source))

def At (page : PageSize) (s : State k) (r : ℕ) (f : File) : Stage → Prop
  | .len => Begins page s r
  | .m => Begins page s r ∧ s.data.len = 0
  | .jiffies | .delay | .prepareToWait | .queueWork false =>
      Begins page s r ∧ s.data.len = 0 ∧ s.m = some r
  | .schedule woken => Sleeps page s r f woken
  | _ => False

/-- What is going on for the one reader that is not away. -/
def Current (page : PageSize) (s : State k) (r : ℕ) : Reader → Prop
  | .showing f st => OnWorkqueue f ∧ At page s r f st
  | .returned _ => ∀ src, Over s src
  | _ => False

/-- Neither the work nor the delayed work. -/
def OffWorkqueue (who : Caller) : Prop := ∀ f, OnWorkqueue f → who ≠ .source f.source

structure Lone (page : PageSize) (s : State k) : Prop where
  signal : ∀ r, s.signal r = false
  calls : ∀ who, OffWorkqueue who → s.running who = none
  files : ∀ r, s.readers r = .unopened → s.files r = ⟨page.bytes, 0, []⟩
  completes : Completes page s
  current : (∀ src, Over s src) ∧ (∀ u, Away (s.readers u)) ∨
    ∃ r, Current page s r (s.readers r) ∧ ∀ u, u ≠ r → Away (s.readers u)

end Invariant

section Steps
variable {k : LongSize} {page : PageSize} {delay : ℤ} {s t : State k} {r : ℕ} {f : File} {st : Stage}
  {x : Surroundings k} {src : Source}

theorem lone_loaded (k : LongSize) (page : PageSize) : Lone page (loaded k page) where
  signal _ := rfl
  calls _ _ := rfl
  files _ _ := rfl
  completes _ h := h.elim
  current := .inl ⟨fun _ => ⟨rfl, fun _ h => (by cases h)⟩, fun _ => .inl rfl⟩

/-- Who shows something is the current one. -/
theorem Lone.showing (hs : Lone page s) (hr : s.readers r = .showing f st) :
    OnWorkqueue f ∧ At page s r f st ∧ ∀ u, u ≠ r → Away (s.readers u) := by
  have hpresent : ¬Away (s.readers r) := by simp [Away, hr]
  rcases hs.current with ⟨_, haway⟩ | ⟨u, hcurrent, haway⟩
  · exact absurd (haway r) hpresent
  · obtain rfl : r = u := by
      by_contra hne
      exact hpresent (haway r hne)
    rw [hr] at hcurrent
    exact ⟨hcurrent.1, hcurrent.2, haway⟩

theorem Lone.returned (hs : Lone page s) (hr : s.readers r = .returned f) :
    (∀ src, Over s src) ∧ ∀ u, u ≠ r → Away (s.readers u) := by
  have hpresent : ¬Away (s.readers r) := by simp [Away, hr]
  rcases hs.current with ⟨_, haway⟩ | ⟨u, hcurrent, haway⟩
  · exact absurd (haway r) hpresent
  · obtain rfl : r = u := by
      by_contra hne
      exact hpresent (haway r hne)
    rw [hr] at hcurrent
    exact ⟨hcurrent, haway⟩

/-- One reader moves, the others being away. -/
theorem Lone.moves (hs : Lone page s) {rd : Reader}
    (hreaders : t.readers = Function.update s.readers r rd) (hsignal : t.signal = s.signal)
    (hcalls : ∀ who, OffWorkqueue who → t.running who = none)
    (hfiles : ∀ u, u ≠ r → t.files u = s.files u) (hrd : rd ≠ .unopened)
    (hcomplete : rd.Behind → Complete (k := k) page (t.files r))
    (haway : ∀ u, u ≠ r → Away (s.readers u))
    (hcurrent : Current page t r rd ∨ (∀ src, Over t src) ∧ Away rd) : Lone page t := by
  have hself : t.readers r = rd := by rw [hreaders, Function.update_self]
  have hother (u : ℕ) (hu : u ≠ r) : t.readers u = s.readers u := by
    rw [hreaders, Function.update_of_ne hu]
  refine ⟨hsignal ▸ hs.signal, hcalls, fun u hu => ?_, fun u hu => ?_, ?_⟩
  · by_cases hur : u = r
    · rw [hur, hself] at hu
      exact absurd hu hrd
    · rw [hother u hur] at hu
      rw [hfiles u hur]
      exact hs.files u hu
  · by_cases hur : u = r
    · rw [hur, hself] at hu
      rw [hur]
      exact hcomplete hu
    · rw [hother u hur] at hu
      rw [hfiles u hur]
      exact hs.completes u hu
  · have hawayt (u : ℕ) (hu : u ≠ r) : Away (t.readers u) := by
      rw [hother u hu]
      exact haway u hu
    rcases hcurrent with hcurrent | ⟨hover, hrdaway⟩
    · exact .inr ⟨r, hself ▸ hcurrent, hawayt⟩
    · refine .inl ⟨hover, fun u => ?_⟩
      by_cases hur : u = r
      · rw [hur, hself]
        exact hrdaway
      · exact hawayt u hur

/-- A reader's own step to its next statement. -/
theorem Lone.goto (hs : Lone page s) (hr : s.readers r = .showing f st) (st' : Stage)
    {data : ClientData k} {m : Option ℕ} {pending : Source → Bool}
    (hat : At page ({ s with data := data, m := m, pending := pending }.goto r f st') r f st') :
    Lone page ({ s with data := data, m := m, pending := pending }.goto r f st') := by
  obtain ⟨hf, _, haway⟩ := hs.showing hr
  exact hs.moves rfl rfl hs.calls (fun _ _ => rfl) (by simp) (fun h => h.elim) haway (.inl ⟨hf, hat⟩)

/-- A woken reader returns. -/
theorem Lone.leave (hs : Lone page s) (hr : s.readers r = .showing f (.schedule true)) :
    Lone page (s.leave r f) := by
  obtain ⟨_, ⟨_, hothers, hown⟩, haway⟩ := hs.showing hr
  rw [if_pos rfl] at hown
  refine hs.moves rfl rfl hs.calls (fun _ _ => rfl) (by simp) (fun _ => hown.2) haway (.inl fun src => ?_)
  by_cases hsrc : src = f.source
  · rw [hsrc]
    exact hown.1
  · exact hothers src hsrc

theorem Lone.close (hs : Lone page s) (hr : s.readers r = .returned f) :
    Lone page { s with readers := Function.update s.readers r .closed } := by
  obtain ⟨hover, haway⟩ := hs.returned hr
  exact hs.moves rfl rfl hs.calls (fun _ _ => rfl) (by simp) (fun _ => hs.completes r (by rw [hr]; trivial)) haway
    (.inr ⟨hover, .inr rfl⟩)

theorem Lone.start (hs : Lone page s) (hf : OnWorkqueue f) (haway : ∀ u, Away (s.readers u))
    (hr : s.readers r = .unopened) :
    Lone page ({ s with inside := insert r s.inside }.goto r f .len) := by
  have hover : ∀ src, Over s src := by
    rcases hs.current with ⟨hover, _⟩ | ⟨u, hcurrent, _⟩
    · exact hover
    · rcases haway u with hu | hu
      · rw [hu] at hcurrent
        exact hcurrent.elim
      · rw [hu] at hcurrent
        exact hcurrent.elim
  exact hs.moves rfl rfl hs.calls (fun _ _ => rfl) (by simp) (fun h => h.elim) (fun u _ => haway u)
    (.inl ⟨hf, hover, hs.files r hr⟩)

/-- The first call of a reader is queued. -/
theorem sleeps_queue (hat : At page s r f (.queueWork false)) :
    Sleeps page ((s.queue f.source).goto r f (.schedule false)) r f false := by
  obtain ⟨⟨hover, hfile⟩, hlen, hm⟩ := hat
  refine ⟨hm, fun src hsrc => ⟨?_, (hover src).2⟩, ?_⟩
  · exact (Function.update_of_ne hsrc _ _).trans (hover src).1
  · have hcalled : Called page f s.data (s.files r) := hfile ▸ Called.first hlen
    have hpending : ((s.queue f.source).goto r f (.schedule false)).pending f.source = true :=
      queue_self s f.source
    rw [if_neg (by decide), hpending]
    cases hrun : s.running (.source f.source) with
    | none =>
        rw [show ((s.queue f.source).goto r f (.schedule false)).running (.source f.source) = none
          from hrun]
        exact hcalled
    | some c =>
        obtain rfl := (hover f.source).2 c hrun
        rw [show ((s.queue f.source).goto r f (.schedule false)).running (.source f.source) =
          some (.done false) from hrun]
        exact hcalled

theorem Lone.showNext (hs : Lone page s) (hr : s.readers r = .showing f st)
    (h : showNext delay s r x f st = some t) : Lone page t := by
  obtain ⟨hf, hat, _⟩ := hs.showing hr
  cases st with
  | len =>
      cases h
      exact hs.goto hr _ ⟨hat, rfl⟩
  | m =>
      cases h
      exact hs.goto hr _ ⟨hat.1, hat.2, rfl⟩
  | jiffies =>
      cases h
      rcases hf with rfl | rfl
      · exact hs.goto hr .delay hat
      · exact hs.goto hr .delay hat
  | delay =>
      cases h
      exact hs.goto hr _ hat
  | prepareToWait =>
      cases h
      exact hs.goto hr _ hat
  | queueWork woken =>
      cases woken with
      | true => exact hat.elim
      | false =>
          cases h
          exact hs.goto hr _ (sleeps_queue hat)
  | schedule woken =>
      obtain ⟨hwoken, rfl⟩ := schedule_cases h
      rw [hs.signal r] at hwoken
      obtain rfl := hwoken.resolve_right (by decide)
      exact hs.leave hr
  | taskletSchedule | timerSetup | jiqPrint | addTimer | waitEvent | delTimerSync => exact hat.elim

/-! The calls of `jiq_print`. -/

/-- What is not over belongs to the sleeper. -/
theorem Lone.busy (hs : Lone page s) (hbusy : ¬Over s src) :
    ∃ r f, s.readers r = .showing f (.schedule false) ∧ f.source = src ∧
      Sleeps page s r f false := by
  rcases hs.current with ⟨hover, _⟩ | ⟨r, hcurrent, _⟩
  · exact absurd (hover src) hbusy
  · cases hr : s.readers r with
    | unopened | closed =>
        rw [hr] at hcurrent
        exact hcurrent.elim
    | returned f =>
        rw [hr] at hcurrent
        exact absurd (hcurrent src) hbusy
    | showing f st =>
        rw [hr] at hcurrent
        have hat := hcurrent.2
        cases st with
        | len => exact absurd (hat.1 src) hbusy
        | m | jiffies | delay | prepareToWait => exact absurd (hat.1.1 src) hbusy
        | queueWork woken =>
            cases woken with
            | true => exact hat.elim
            | false => exact absurd (hat.1.1 src) hbusy
        | schedule woken =>
            by_cases hsrc : f.source = src
            · cases woken with
              | false => exact ⟨r, f, hr, hsrc, hat⟩
              | true => exact absurd (hsrc ▸ hat.2.2.1) hbusy
            · exact absurd (hat.2.1 src (Ne.symm hsrc)) hbusy
        | taskletSchedule | timerSetup | jiqPrint | addTimer | waitEvent | delTimerSync =>
            exact hat.elim

/-- A step under a sleeper that goes on sleeping. -/
theorem Lone.under (hs : Lone page s) (hr : s.readers r = .showing f (.schedule false))
    (hreaders : t.readers = s.readers) (hsignal : t.signal = s.signal)
    (hcalls : ∀ who, OffWorkqueue who → t.running who = none) (hfiles : ∀ u, u ≠ r → t.files u = s.files u)
    (hsleeps : Sleeps page t r f false) : Lone page t := by
  obtain ⟨hf, _, haway⟩ := hs.showing hr
  have hself : t.readers = Function.update s.readers r (.showing f (.schedule false)) := by
    rw [hreaders, ← hr, Function.update_eq_self]
  exact hs.moves hself hsignal hcalls hfiles (by simp) (fun h => h.elim) haway (.inl ⟨hf, hsleeps⟩)

theorem calls_setRunning (h : ∀ who, OffWorkqueue who → s.running who = none) (hf : OnWorkqueue f)
    (o : Option (Call k)) (who : Caller) (hwho : OffWorkqueue who) :
    (s.setRunning (.source f.source) o).running who = none :=
  (setRunning_other s o (hwho f hf)).trans (h who hwho)

theorem over_setRunning {src' : Source} (h : Over s src') (hne : src' ≠ src) (o : Option (Call k)) :
    Over (s.setRunning (.source src) o) src' := by
  refine ⟨h.1, fun c hc => h.2 c ?_⟩
  rwa [setRunning_other s o (by simpa using hne)] at hc

theorem Lone.fire (hs : Lone page s) (hpending : s.pending src = true)
    (hnone : s.running (.source src) = none) :
    Lone page ((s.dequeue src).setRunning (.source src) (some .load)) := by
  have hbusy : ¬Over s src := fun h => by
    rw [h.1] at hpending
    cases hpending
  obtain ⟨r, f, hr, rfl, hm, hothers, hchain⟩ := hs.busy hbusy
  rw [if_neg (by decide), hpending, hnone] at hchain
  have hf := (hs.showing hr).1
  refine hs.under hr rfl rfl (calls_setRunning (s := s.dequeue f.source) hs.calls hf _)
    (fun _ _ => rfl) ⟨hm, fun src hsrc => ?_, ?_⟩
  · apply over_setRunning _ hsrc
    exact ⟨(dequeue_other s hsrc).trans (hothers src hsrc).1, (hothers src hsrc).2⟩
  · rw [if_neg (by decide), setRunning_self,
      show ((s.dequeue f.source).setRunning (.source f.source) (some .load)).pending f.source = false
        from dequeue_self s f.source]
    exact hchain

/-- A call of the sleeper's chain goes on. -/
theorem Lone.goesOn (hs : Lone page s) (hr : s.readers r = .showing f (.schedule false))
    (hsleeps : Sleeps page s r f false) (hpending : s.pending f.source = false) {c : Call k}
    (hm : t.m = s.m) (hqueued : t.pending = s.pending) (hrunning : t.running = s.running)
    (hreaders : t.readers = s.readers) (hsignal : t.signal = s.signal)
    (hfiles : ∀ u, u ≠ r → t.files u = s.files u) (hchain : Chain page t r f false (some c)) :
    Lone page (t.setRunning (.source f.source) (some c)) := by
  obtain ⟨hsm, hothers, _⟩ := hsleeps
  have hf := (hs.showing hr).1
  refine hs.under hr hreaders hsignal (calls_setRunning (hrunning ▸ hs.calls) hf _) hfiles
    ⟨hm.trans hsm, fun src hsrc => ?_, ?_⟩
  · apply over_setRunning _ hsrc
    rw [Over, hqueued, hrunning]
    exact hothers src hsrc
  · rw [if_neg (by decide), setRunning_self]
    show Chain page t r f (t.pending f.source) (some c)
    rw [hqueued, hpending]
    exact hchain

/-- The last call wakes the sleeper. -/
theorem Lone.wakes (hs : Lone page s) (hr : s.readers r = .showing f (.schedule false))
    (hsleeps : Sleeps page s r f false) (hpending : s.pending f.source = false)
    (hcomplete : Complete (k := k) page (s.files r)) :
    Lone page (s.wakeUp.setRunning (.source f.source) (some (.done false))) := by
  obtain ⟨hf, _, haway⟩ := hs.showing hr
  obtain ⟨hm, hothers, _⟩ := hsleeps
  have hreaders : s.wakeUp.readers =
      Function.update s.readers r (.showing f (.schedule true)) := by
    funext u
    by_cases hu : u = r
    · rw [hu, Function.update_self]
      show (s.readers r).wake = _
      rw [hr]
      rfl
    · rw [Function.update_of_ne hu]
      show (s.readers u).wake = _
      rcases haway u hu with h | h
      · rw [h]
        rfl
      · rw [h]
        rfl
  refine hs.moves hreaders rfl (calls_setRunning (s := s.wakeUp) hs.calls hf _) (fun _ _ => rfl)
    (by simp) (fun h => h.elim) haway (.inl ⟨hf, hm, fun src hsrc => ?_, ?_⟩)
  · exact over_setRunning (s := s.wakeUp) (hothers src hsrc) hsrc _
  · rw [if_pos rfl]
    refine ⟨⟨hpending, fun c hc => ?_⟩, hcomplete⟩
    rw [setRunning_self] at hc
    exact (Option.some.inj hc).symm

/-- The call after the last one is queued. -/
theorem Lone.requeues (hs : Lone page s) (hr : s.readers r = .showing f (.schedule false))
    (hsleeps : Sleeps page s r f false) (hcalled : Called page f s.data (s.files r)) :
    Lone page ((s.setRunning (.source f.source) none).queue f.source) := by
  obtain ⟨hm, hothers, _⟩ := hsleeps
  have hover (src : Source) (hsrc : src ≠ f.source) :
      Over (s.setRunning (.source f.source) none) src := over_setRunning (hothers src hsrc) hsrc _
  have hf := (hs.showing hr).1
  refine hs.under hr rfl rfl (calls_setRunning hs.calls hf none) (fun _ _ => rfl)
    ⟨hm, fun src hsrc => ?_, ?_⟩
  · exact ⟨(Function.update_of_ne hsrc _ _).trans (hover src hsrc).1, (hover src hsrc).2⟩
  · rw [if_neg (by decide), queue_self,
      show ((s.setRunning (.source f.source) none).queue f.source).running (.source f.source) = none
        from setRunning_self s _ _]
    exact hcalled

theorem over_returns (h : Over s src) (src' : Source) :
    Over (s.setRunning (.source src') none) src := by
  by_cases hsrc : src = src'
  · refine ⟨h.1, fun c hc => ?_⟩
    rw [hsrc, setRunning_self] at hc
    cases hc
  · exact over_setRunning h hsrc none

theorem Lone.onWorkqueue (hs : Lone page s) {c : Call k} (hc : s.running (.source src) = some c) :
    ∃ f, OnWorkqueue f ∧ src = f.source := by
  by_contra hno
  push Not at hno
  have hnone := hs.calls (.source src) fun f hf h => hno f hf (Caller.source.inj h)
  rw [hnone] at hc
  cases hc

/-- The function behind the last call of a chain returns. -/
theorem Lone.returns (hs : Lone page s) (hc : s.running (.source src) = some (.done false)) :
    Lone page (s.setRunning (.source src) none) := by
  have hcalls : ∀ who, OffWorkqueue who → (s.setRunning (.source src) none).running who = none := by
    obtain ⟨f, hf, rfl⟩ := hs.onWorkqueue hc
    exact calls_setRunning hs.calls hf none
  refine ⟨hs.signal, hcalls, hs.files, hs.completes, ?_⟩
  rcases hs.current with ⟨hover, haway⟩ | ⟨r, hcurrent, haway⟩
  · exact .inl ⟨fun src' => over_returns (hover src') src, haway⟩
  · refine .inr ⟨r, ?_, haway⟩
    show Current page _ r (s.readers r)
    cases hr : s.readers r with
    | unopened | closed =>
        rw [hr] at hcurrent
        exact hcurrent.elim
    | returned f =>
        rw [hr] at hcurrent
        exact fun src' => over_returns (hcurrent src') src
    | showing f st =>
        rw [hr] at hcurrent
        obtain ⟨hf, hat⟩ := hcurrent
        refine ⟨hf, ?_⟩
        have hbegins (h : Begins page s r) : Begins page (s.setRunning (.source src) none) r :=
          ⟨fun src' => over_returns (h.1 src') src, h.2⟩
        cases st with
        | len => exact hbegins hat
        | m => exact ⟨hbegins hat.1, hat.2⟩
        | jiffies | delay | prepareToWait => exact ⟨hbegins hat.1, hat.2⟩
        | queueWork woken =>
            cases woken with
            | true => exact hat.elim
            | false => exact ⟨hbegins hat.1, hat.2⟩
        | schedule woken =>
            obtain ⟨hm, hothers, hown⟩ := hat
            refine ⟨hm, fun src' hsrc' => over_returns (hothers src' hsrc') src, ?_⟩
            cases woken with
            | true => exact ⟨over_returns hown.1 src, hown.2⟩
            | false =>
                rw [if_neg (by decide)] at hown ⊢
                by_cases hsrc : f.source = src
                · -- The call before the one that is queued now.
                  subst hsrc
                  rw [hc] at hown
                  rw [setRunning_self]
                  show Chain page _ r f (s.pending f.source) none
                  cases hpending : s.pending f.source with
                  | false =>
                      rw [hpending] at hown
                      exact hown.elim
                  | true =>
                      rw [hpending] at hown
                      exact hown
                · rw [setRunning_other s none (by simpa using hsrc)]
                  exact hown
        | taskletSchedule | timerSetup | jiqPrint | addTimer | waitEvent | delTimerSync =>
            exact hat.elim

theorem Lone.call (hs : Lone page s) {c : Call k} {p : State k × Call k}
    (hc : s.running (.source src) = some c) (hp : jiqPrint page x s c = some p) :
    Lone page (p.1.setRunning (.source src) (some p.2)) := by
  have hbusy : ¬Over s src := fun h => by
    rw [h.2 c hc] at hp
    cases hp
  obtain ⟨r, f, hr, rfl, hsleeps⟩ := hs.busy hbusy
  have hchain := hsleeps.2.2
  rw [if_neg (by decide), hc] at hchain
  have hpending : s.pending f.source = false := by
    cases h : s.pending f.source with
    | false => rfl
    | true =>
        rw [h] at hchain
        cases c with
        | done ret =>
            cases hp
        | load | wake | print | store => exact hchain.elim
  rw [hpending] at hchain
  cases c with
  | load =>
      cases hp
      refine hs.goesOn hr hsleeps hpending rfl rfl rfl rfl rfl (fun _ _ => rfl) ?_
      split_ifs with hlimit
      · exact ⟨hlimit, hchain⟩
      · exact ⟨rfl, hsleeps.1, hlimit, hchain⟩
  | wake =>
      cases hp
      exact hs.wakes hr hsleeps hpending (hchain.2.stop x hchain.1)
  | print len m y =>
      obtain ⟨rfl, rfl, hlimit, hcalled⟩ := hchain
      cases hp
      refine hs.goesOn hr hsleeps hpending rfl rfl rfl rfl rfl
        (fun u hu => Function.update_of_ne hu _ _) ?_
      have hprinted := hcalled.print y hlimit
      simp only [Chain, Function.update_self]
      exact hprinted
  | store len j =>
      cases hp
      exact hs.goesOn hr hsleeps hpending rfl rfl rfl rfl rfl (fun _ _ => rfl) hchain
  | done ret => cases hp

theorem Lone.finish (hs : Lone page s) {ret : Bool} (hc : s.running (.source src) = some (.done ret)) :
    Lone page (finish (s.setRunning (.source src) none) src ret) := by
  obtain ⟨f, hf, rfl⟩ := hs.onWorkqueue hc
  cases ret with
  | false =>
      rcases hf with rfl | rfl
      · exact hs.returns hc
      · exact hs.returns hc
  | true =>
      have hbusy : ¬Over s f.source := fun h => by
        have hdone := h.2 _ hc
        cases hdone
      obtain ⟨r, f', hr, hsrc, hsleeps⟩ := hs.busy hbusy
      have hf' := (hs.showing hr).1
      have hchain := hsleeps.2.2
      rw [if_neg (by decide), hsrc, hc] at hchain
      have hcalled : Called page f' s.data (s.files r) := by
        cases hpending : s.pending f.source with
        | false =>
            rw [hpending] at hchain
            exact hchain
        | true =>
            rw [hpending] at hchain
            exact hchain.elim
      have hlone := hs.requeues hr hsleeps hcalled
      rw [hsrc] at hlone
      rcases hf with rfl | rfl
      · exact hlone
      · exact hlone

theorem Lone.next (hs : Lone page s) {a : Label k} (hok : Alone s a)
    (h : next page delay s a = some t) : Lone page t := by
  cases a with
  | start r f =>
      obtain ⟨hr, _, rfl⟩ := start_cases h
      exact hs.start hok.1 hok.2 hr
  | reader r x =>
      obtain ⟨f, st, hr, hshow⟩ := reader_cases h
      exact hs.showNext hr hshow
  | signal r => exact hok.elim
  | close r =>
      obtain ⟨f, hr, rfl⟩ := close_cases h
      exact hs.close hr
  | fire src =>
      obtain ⟨hpending, hnone, rfl⟩ := fire_cases h
      exact hs.fire hpending hnone
  | call who x =>
      rcases call_cases h with ⟨src, ret, rfl, hc, rfl⟩ | ⟨c, p, hc, hp, rfl⟩
      · exact hs.finish hc
      · cases who with
        | source src => exact hs.call hc hp
        | reader r =>
            have hnone := hs.calls (.reader r) fun f _ h => by cases h
            rw [hnone] at hc
            cases hc
  | cleanup =>
      obtain ⟨_, ht⟩ := Option.ite_none_right_eq_some.mp h
      cases ht
      exact ⟨hs.signal, hs.calls, hs.files, hs.completes, hs.current⟩

theorem lone (h : (system k page delay).ReachableWhen Alone s) : Lone page s := by
  apply h.invariant (I := Lone page)
  · intro s hs
    rw [show s = loaded k page from hs]
    exact lone_loaded k page
  · intro s a t _ hs hok hn
    exact hs.next hok hn

theorem Lone.not_ahead (hs : Lone page s) (hover : ∀ src, Over s src) {who : Caller} {c : Call k}
    (hc : s.running who = some c) : c = .done false := by
  cases who with
  | source src => exact (hover src).2 c hc
  | reader r =>
      rw [hs.calls (.reader r) fun f _ h => by cases h] at hc
      cases hc

/-- Where everything is over nobody is going to print. -/
theorem Lone.quiet (hs : Lone page s) (hover : ∀ src, Over s src) :
    ¬Outstanding s ∧ ∀ r, ¬Prints s r := by
  constructor
  · rintro (⟨src, hsrc⟩ | ⟨who, c, hc, hahead⟩)
    · rw [(hover src).1] at hsrc
      cases hsrc
    · rw [hs.not_ahead hover hc] at hahead
      exact not_ahead_done who hahead
  · rintro r ⟨who, len, x, hc⟩
    cases hs.not_ahead hover hc

theorem Lone.over (hs : Lone page s) (hk : Counted s.readers s.inside s.unloaded)
    (hempty : s.inside = ∅) : ∀ src, Over s src := by
  rcases hs.current with ⟨hover, _⟩ | ⟨r, hcurrent, _⟩
  · exact hover
  · cases hr : s.readers r with
    | unopened | closed =>
        rw [hr] at hcurrent
        exact hcurrent.elim
    | returned f =>
        rw [hr] at hcurrent
        exact hcurrent
    | showing f st =>
        have hmem := (hk.inside r).mpr ⟨f, st, hr⟩
        rw [hempty] at hmem
        exact absurd hmem (Finset.notMem_empty r)

/-- One reader at a time is in time. -/
theorem Lone.inTime (hs : Lone page s) (hk : Counted s.readers s.inside s.unloaded) {a : Label k}
    (hok : Alone s a) : InTime s a := by
  cases a with
  | reader r x =>
      intro f st hr
      obtain ⟨_, hat, _⟩ := hs.showing hr
      cases st with
      | queueWork woken =>
          cases woken with
          | true => exact hat.elim
          | false =>
              refine ⟨fun _ u hu hclosed => ?_, fun h => h.elim⟩
              rw [hat.2.2] at hu
              cases hu
              rw [hr] at hclosed
              cases hclosed
      | len | m | jiffies | delay | prepareToWait | schedule =>
          exact ⟨fun h => h.elim, fun h => h.elim⟩
      | taskletSchedule | timerSetup | jiqPrint | addTimer | waitEvent | delTimerSync =>
          exact hat.elim
  | close r =>
      intro f hr
      obtain ⟨houtstanding, hprints⟩ := hs.quiet (hs.returned hr).1
      exact ⟨fun _ => houtstanding, hprints r⟩
  | cleanup =>
      intro hempty src
      exact ⟨(hs.over hk hempty src).1, hok src⟩
  | start | signal | fire | call => trivial

/-- Readers of the two files of the workqueue that come one at a time and get no
signal are safe, and each one has its whole output when it returns: the file is
that of calls of `jiq_print` one after the other, with no more to come. -/
theorem alone_along (k : LongSize) (page : PageSize) (delay : ℤ) {as : List (Label k)}
    (h : (system k page delay).Meets Alone (loaded k page) as) :
    (system k page delay).Along (fun s => Safe s ∧ Completes page s) (loaded k page) as := by
  apply System.ReachableWhen.along (.start rfl) _ h
  intro s hs
  refine ⟨?_, (lone hs).completes⟩
  apply hs.invariant (I := Safe)
  · intro s hs
    rw [show s = loaded k page from hs]
    exact safe_loaded k page
  · intro s a t hr hs hok hn
    exact hs.next (counted hr) ((lone hr).inTime (counted hr) hok) hn

/-! ## Two readers in turn -/

theorem showNext_other (h : showNext delay s r x f st = some t) {u : ℕ} (hu : u ≠ r) :
    t.readers u = s.readers u := by
  cases st with
  | len | m | jiffies | delay | prepareToWait | queueWork | taskletSchedule | timerSetup | addTimer =>
      cases h
      exact Function.update_of_ne hu _ _
  | schedule woken =>
      rw [(schedule_cases h).2]
      exact Function.update_of_ne hu _ _
  | jiqPrint =>
      obtain ⟨_, _, rfl⟩ := jiqPrint_cases h
      exact Function.update_of_ne hu _ _
  | waitEvent =>
      rcases (waitEvent_cases h).2 with rfl | rfl
      · exact Function.update_of_ne hu _ _
      · exact Function.update_of_ne hu _ _
  | delTimerSync =>
      rw [(delTimerSync_cases h).2]
      exact Function.update_of_ne hu _ _

theorem wakeUp_unopened (h : s.readers r = .unopened) : s.wakeUp.readers r = .unopened := by
  show (s.readers r).wake = _
  rw [h]
  rfl

/-- Nobody opens a file for somebody else. -/
theorem next_unopened {a : Label k} (h : next page delay s a = some t)
    (hr : s.readers r = .unopened) (ha : ∀ f, a ≠ .start r f) : t.readers r = .unopened := by
  have hne {u : ℕ} (hu : s.readers u ≠ .unopened) : r ≠ u := fun h => hu (h ▸ hr)
  cases a with
  | start u f =>
      obtain ⟨_, _, rfl⟩ := start_cases h
      exact (Function.update_of_ne (fun h => ha f (by rw [h])) _ _).trans hr
  | reader u x =>
      obtain ⟨f, st, hu, hshow⟩ := reader_cases h
      exact (showNext_other hshow (hne (by simp [hu]))).trans hr
  | signal u =>
      cases h
      exact hr
  | close u =>
      obtain ⟨f, hu, rfl⟩ := close_cases h
      exact (Function.update_of_ne (hne (by simp [hu])) _ _).trans hr
  | fire src =>
      obtain ⟨_, _, rfl⟩ := fire_cases h
      exact hr
  | call who x =>
      rcases call_cases h with ⟨src, ret, _, _, rfl⟩ | ⟨c, p, _, hp, rfl⟩
      · unfold JiqReaders.finish
        split
        · exact wakeUp_unopened (s := s.setRunning who none) hr
        · exact hr
        · exact hr
      · show p.1.readers r = _
        unfold JiqReaders.jiqPrint at hp
        split at hp
        all_goals cases hp
        · exact hr
        · exact wakeUp_unopened hr
        · exact hr
        · exact hr
  | cleanup =>
      obtain ⟨_, ht⟩ := Option.ite_none_right_eq_some.mp h
      cases ht
      exact hr

/-- `Alone` where only the readers below `n` have come. -/
def aloneBelow (n : ℕ) (s : State k) : Label k → Bool
  | .start r f =>
      decide (r < n) && decide (f = .jiqwq ∨ f = .jiqwqdelay) &&
        (List.range n).all fun u => decide (s.readers u = .unopened ∨ s.readers u = .closed)
  | .signal _ => false
  | .cleanup => [Source.work, .delayedWork, .timer, .tasklet].all fun src =>
      (s.running (.source src)).isNone
  | _ => true

theorem alone_of_below {n : ℕ} {a : Label k} (hs : ∀ u, n ≤ u → s.readers u = .unopened)
    (h : aloneBelow n s a = true) : Alone s a := by
  cases a with
  | start r f =>
      simp only [aloneBelow, Bool.and_eq_true, decide_eq_true_eq, List.all_eq_true,
        List.mem_range] at h
      refine ⟨h.1.2, fun u => ?_⟩
      rcases Nat.lt_or_ge u n with hu | hu
      · exact h.2 u hu
      · exact .inl (hs u hu)
  | signal r => cases h
  | cleanup =>
      intro src
      simp only [aloneBelow, List.all_eq_true] at h
      exact Option.isNone_iff_eq_none.mp (h src (by cases src <;> simp))
  | reader | close | fire | call => trivial

/-- A reader whose work prints twelve lines, comes to the limit and wakes it. -/
def twelveLines (r : ℕ) (f : File) : List (Label .w64) :=
  .start r f :: List.replicate 6 (.reader r firstCall) ++
    (List.replicate 12
      (.fire f.source :: List.replicate 4 (.call (.source f.source) firstCall))).flatten ++
    .fire f.source :: List.replicate 3 (.call (.source f.source) firstCall) ++
    [.reader r firstCall, .close r]

/-- One reader after the other, and the end of the module. -/
def inTurn : List (Label .w64) :=
  twelveLines 0 .jiqwq ++ twelveLines 1 .jiqwqdelay ++ [.cleanup]

theorem alone_along_inTurn :
    (system .w64 firstPage 1).Along (fun s => Safe s ∧ Completes firstPage s)
      (loaded .w64 firstPage) inTurn ∧
    ((system .w64 firstPage 1).run (loaded .w64 firstPage) inTurn).map
      (fun t => (t.readers 0, t.readers 1, t.unloaded)) = some (.closed, .closed, true) := by
  refine ⟨alone_along _ _ _ (System.meets_of_passes (fun _ _ => alone_of_below (n := 2)) ?_
    (fun _ _ => rfl) (by decide +kernel)), by decide +kernel⟩
  intro s a ha t hs hn u hu
  refine next_unopened hn (hs u hu) fun f hf => ?_
  subst hf
  simp [inTurn, twelveLines] at ha
  omega

end Steps

end LinuxDeviceDrivers.JiqReaders
