import LinuxDeviceDrivers.Jiq
import Mathlib.Data.Finset.Insert

/-!
# The readers of the just-in-queue module

Any number of readers of the four files, the work, the delayed work, the timer
and the tasklet that call `jiq_print` for them, and the removal of the module,
in any order of their steps. All share one `jiq_data`: a reader that comes
second takes `jiq_data.m` and `jiq_data.len` away from the first one, and what
the first one has queued goes on in the second one's file.

A reader that a signal wakes leaves the queue as it is, and its file can be
closed before the queue is empty. Nor does the end of the module look at the
queue.
-/
namespace LinuxDeviceDrivers.JiqReaders
open ChardrvsIoctl (LongSize)
open Jiq TransitionSystem

inductive File where
  | jiqwq
  | jiqwqdelay
  | jitimer
  | jiqtasklet
deriving DecidableEq, Repr

/-- What calls `jiq_print` behind the back of the readers. -/
inductive Source where
  | work
  | delayedWork
  | timer
  | tasklet
deriving DecidableEq, Repr

def File.source : File → Source
  | .jiqwq => .work
  | .jiqwqdelay => .delayedWork
  | .jitimer => .timer
  | .jiqtasklet => .tasklet

/-- Who is in `jiq_print`. A reader of `/proc/jitimer` calls it once itself. -/
inductive Caller where
  | source (src : Source)
  | reader (r : ℕ)
deriving DecidableEq, Repr

/-- The next statement of a show function: the assignments to `jiq_data`, then
those of its file. `woken` is what a wake-up has made of a reader on `jiq_wait`. -/
inductive Stage where
  | len
  | m
  | jiffies
  | delay
  | prepareToWait
  | queueWork (woken : Bool)
  | schedule (woken : Bool)
  | taskletSchedule
  | timerSetup
  | jiqPrint
  | addTimer
  | waitEvent
  | delTimerSync
deriving DecidableEq, Repr

inductive Reader where
  | unopened
  | showing (f : File) (st : Stage)
  | returned (f : File)
  | closed
deriving DecidableEq, Repr

section Types
variable (k : LongSize)

/-- The place in `jiq_print`: before it reads `jiq_data`, at the wake-up, before
it prints, and before it writes `jiq_data`. `m` is the file that it has read. -/
inductive Call where
  | load
  | wake
  | print (len : BitVec 32) (m : Option ℕ) (x : Surroundings k)
  | store (len : BitVec 32) (j : BitVec (8 * k.bytes))
  | done (ret : Bool)

/-- `inside`: the readers in a show function. `timerLost`: `timer_setup` or
`add_timer` has been called on a pending timer. -/
structure State where
  readers : ℕ → Reader
  inside : Finset ℕ
  signal : ℕ → Bool
  data : ClientData k
  m : Option ℕ
  files : ℕ → SeqFile
  pending : Source → Bool
  running : Caller → Option (Call k)
  timerLost : Bool
  unloaded : Bool

/-- One step: a reader begins, goes on, gets a signal or closes its file; a
source is called; a call of `jiq_print` goes on; the module is removed. -/
inductive Label where
  | start (r : ℕ) (f : File)
  | reader (r : ℕ) (x : Surroundings k)
  | signal (r : ℕ)
  | close (r : ℕ)
  | fire (src : Source)
  | call (who : Caller) (x : Surroundings k)
  | cleanup

end Types

section Code
variable {k : LongSize}

/-- `wake_up_interruptible(&jiq_wait)`; `wait_event_interruptible(jiq_wait, 0)`
goes back to sleep after it. -/
def Reader.wake : Reader → Reader
  | .showing f (.queueWork _) => .showing f (.queueWork true)
  | .showing f (.schedule _) => .showing f (.schedule true)
  | rd => rd

def State.wakeUp (s : State k) : State k := { s with readers := fun r => (s.readers r).wake }

def State.queue (s : State k) (src : Source) : State k :=
  { s with pending := Function.update s.pending src true }

def State.dequeue (s : State k) (src : Source) : State k :=
  { s with pending := Function.update s.pending src false }

def State.setRunning (s : State k) (who : Caller) (c : Option (Call k)) : State k :=
  { s with running := Function.update s.running who c }

def State.goto (s : State k) (r : ℕ) (f : File) (st : Stage) : State k :=
  { s with readers := Function.update s.readers r (.showing f st) }

def State.leave (s : State k) (r : ℕ) (f : File) : State k :=
  { s with readers := Function.update s.readers r (.returned f), inside := s.inside.erase r }

/-- One step of `jiq_print`; with no file it crashes. -/
def jiqPrint (page : PageSize) (x : Surroundings k) (s : State k) : Call k → Option (State k × Call k)
  | .load =>
      some (s, if overLimit (k := k) page s.data.len then .wake else .print s.data.len s.m x)
  | .wake => some (s.wakeUp, .done false)
  | .print len (some r) x =>
      let p := putHeader { s.data with len := len } (s.files r)
      let m := p.2.append (line x s.data.jiffies)
      some ({ s with files := Function.update s.files r m }, .store (p.1 + .ofNat 32 m.count) x.jiffies)
  | .print _ none _ => none
  | .store len j =>
      some ({ s with data := { s.data with len := s.data.len + len, jiffies := j } }, .done true)
  | .done _ => none

/-- The rest of `jiq_print_wq`, `jiq_print_wq_delayed`, `jiq_print_tasklet` and
`jiq_timedout`. -/
def finish (s : State k) : Source → Bool → State k
  | .timer, _ => s.wakeUp
  | _, false => s
  | src, true => s.queue src

/-- The statements of the four show functions. -/
def showNext (delay : ℤ) (s : State k) (r : ℕ) (x : Surroundings k) (f : File) :
    Stage → Option (State k)
  | .len => some ({ s with data := { s.data with len := 0 } }.goto r f .m)
  | .m => some ({ s with m := some r }.goto r f .jiffies)
  | .jiffies =>
      some ({ s with data := { s.data with jiffies := x.jiffies } }.goto r f
        (match f with
          | .jiqwq | .jiqwqdelay => .delay
          | .jitimer => .timerSetup
          | .jiqtasklet => .taskletSchedule))
  | .delay =>
      some ({ s with data := { s.data with delay := if f = File.jiqwq then 0 else delay } }.goto r f
        .prepareToWait)
  | .prepareToWait => some (s.goto r f (.queueWork false))
  | .queueWork woken => some ((s.queue f.source).goto r f (.schedule woken))
  | .schedule woken => if woken = true ∨ s.signal r = true then some (s.leave r f) else none
  | .taskletSchedule => some ((s.queue f.source).goto r f .waitEvent)
  | .timerSetup =>
      some ((({ s with timerLost := s.timerLost || s.pending .timer }.dequeue .timer).setRunning
        (.reader r) (some .load)).goto r f .jiqPrint)
  | .jiqPrint =>
      match s.running (.reader r) with
      | some (.done _) => some ((s.setRunning (.reader r) none).goto r f .addTimer)
      | _ => none
  | .addTimer =>
      some (({ s with timerLost := s.timerLost || s.pending .timer }.queue .timer).goto r f .waitEvent)
  | .waitEvent =>
      if s.signal r = true then some (if f = .jitimer then s.goto r f .delTimerSync else s.leave r f)
      else none
  | .delTimerSync =>
      match s.running (.source .timer) with
      | none => some ((s.dequeue .timer).leave r f)
      | some _ => none

def next (page : PageSize) (delay : ℤ) (s : State k) : Label k → Option (State k)
  | .start r f =>
      if s.readers r = .unopened ∧ s.unloaded = false then
        some ({ s with inside := insert r s.inside }.goto r f .len)
      else none
  | .reader r x =>
      match s.readers r with
      | .showing f st => showNext delay s r x f st
      | _ => none
  | .signal r => some { s with signal := Function.update s.signal r true }
  | .close r =>
      match s.readers r with
      | .returned _ => some { s with readers := Function.update s.readers r .closed }
      | _ => none
  | .fire src =>
      match s.pending src, s.running (.source src) with
      | true, none =>
          some ((s.dequeue src).setRunning (.source src) (some .load))
      | _, _ => none
  | .call who x =>
      match s.running who with
      | none => none
      | some (.done ret) =>
          match who with
          | .source src => some (finish (s.setRunning who none) src ret)
          | .reader _ => none
      | some c => (jiqPrint page x s c).map fun p => p.1.setRunning who (some p.2)
  | .cleanup => if s.inside = ∅ then some { s with unloaded := true } else none

/-- Behind `jiq_init`: nobody has come yet. -/
def loaded (k : LongSize) (page : PageSize) : State k where
  readers _ := .unopened
  inside := ∅
  signal _ := false
  data := ⟨0, 0, 0⟩
  m := none
  files _ := ⟨page.bytes, 0, []⟩
  pending _ := false
  running _ := none
  timerLost := false
  unloaded := false

def system (k : LongSize) (page : PageSize) (delay : ℤ) : System (State k) (Label k) where
  start s := s = loaded k page
  next := next page delay

end Code

/-! ## Files that are still printed to -/

section Statement
variable {k : LongSize}

/-- The call of `jiq_print` reads `jiq_data` or is queued once more. -/
def Ahead : Caller → Call k → Prop
  | _, .load => True
  | _, .wake | _, .done false => False
  | .source .timer, _ | .reader _, _ => False
  | .source _, _ => True

/-- Somebody is going to read `jiq_data`. -/
def Outstanding (s : State k) : Prop :=
  (∃ src, s.pending src = true) ∨ ∃ who c, s.running who = some c ∧ Ahead who c

/-- A call is going to print to the file of `r`. -/
def Prints (s : State k) (r : ℕ) : Prop :=
  ∃ who len x, s.running who = some (.print len (some r) x)

/-- `jiq_data.m` is not closed. -/
def LiveFile (s : State k) : Prop := ∀ r, s.m = some r → s.readers r ≠ .closed

/-- No work, timer or tasklet is queued or runs. -/
def Idle (s : State k) : Prop :=
  ∀ src, s.pending src = false ∧ s.running (.source src) = none

/-- Nobody prints to a closed file or is going to, the list of timers is whole,
and nothing of the module is called once it is gone. -/
structure Safe (s : State k) : Prop where
  file : Outstanding s → LiveFile s
  prints : ∀ r, Prints s r → s.readers r ≠ .closed
  timer : s.timerLost = false
  code : s.unloaded = true → Idle s

/-- A statement after which `jiq_print` is called or queued. -/
def Stage.queues : Stage → Prop
  | .queueWork _ | .taskletSchedule | .timerSetup | .addTimer => True
  | _ => False

def Stage.setsTimer : Stage → Prop
  | .timerSetup | .addTimer => True
  | _ => False

/-- A reader queues while `jiq_data.m` is open, and sets the timer up while it is
not pending; a file is closed when nobody prints to it and nobody is going to;
and the module is removed when nothing is queued. -/
def InTime (s : State k) : Label k → Prop
  | .reader r _ => ∀ f st, s.readers r = .showing f st →
      (st.queues → LiveFile s) ∧ (st.setsTimer → s.pending .timer = false)
  | .close r => ∀ f, s.readers r = .returned f →
      (s.m = some r → ¬Outstanding s) ∧ ¬Prints s r
  | .cleanup => s.inside = ∅ → Idle s
  | _ => True

/-- The readers in a show function are counted, and none is left behind the end
of the module. -/
structure Counted (readers : ℕ → Reader) (rs : Finset ℕ) (gone : Bool) : Prop where
  inside : ∀ r, r ∈ rs ↔ ∃ f st, readers r = .showing f st
  unloaded : gone = true → rs = ∅

end Statement

section Steps
variable {k : LongSize} {page : PageSize} {delay : ℤ} {s t : State k} {r : ℕ} {f : File} {st : Stage}
  {x : Surroundings k} {who : Caller} {c c' : Call k} {src : Source}

theorem Counted.loaded (hk : Counted s.readers s.inside s.unloaded) (hr : s.readers r = .showing f st) :
    s.unloaded = false := by
  by_contra hne
  have hempty := hk.unloaded (by simpa using hne)
  have hmem := (hk.inside r).mpr ⟨f, st, hr⟩
  rw [hempty] at hmem
  exact absurd hmem (Finset.notMem_empty r)

theorem Counted.goto (hk : Counted s.readers s.inside s.unloaded) (hr : s.readers r = .showing f st)
    (st' : Stage) :
    Counted (s.goto r f st').readers s.inside s.unloaded where
  inside u := by
    rw [hk.inside u]
    by_cases hu : u = r
    · subst hu
      simp [State.goto, hr]
    · simp [State.goto, hu]
  unloaded := hk.unloaded

theorem Counted.leave (hk : Counted s.readers s.inside s.unloaded) (hr : s.readers r = .showing f st) :
    Counted (s.leave r f).readers (s.leave r f).inside s.unloaded where
  inside u := by
    show u ∈ s.inside.erase r ↔ _
    rw [Finset.mem_erase, hk.inside u]
    by_cases hu : u = r
    · subst hu
      simp [State.leave]
    · simp [State.leave, hu]
  unloaded hun := by
    rw [hk.loaded hr] at hun
    cases hun

theorem wake_showing {rd : Reader} :
    (∃ f st, rd.wake = .showing f st) ↔ ∃ f st, rd = .showing f st := by
  cases rd with
  | showing f st => cases st <;> simp [Reader.wake]
  | unopened | returned | closed => simp [Reader.wake]

theorem Counted.wakeUp (hk : Counted s.readers s.inside s.unloaded) :
    Counted s.wakeUp.readers s.inside s.unloaded where
  inside u := (hk.inside u).trans wake_showing.symm
  unloaded := hk.unloaded

/-! What the statements do that wait for something. -/

theorem schedule_cases {woken : Bool} (h : showNext delay s r x f (.schedule woken) = some t) :
    (woken = true ∨ s.signal r = true) ∧ t = s.leave r f := by
  obtain ⟨hwoken, ht⟩ := Option.ite_none_right_eq_some.mp h
  exact ⟨hwoken, (Option.some.inj ht).symm⟩

theorem jiqPrint_cases (h : showNext delay s r x f .jiqPrint = some t) :
    ∃ ret, s.running (.reader r) = some (.done ret) ∧
      t = (s.setRunning (.reader r) none).goto r f .addTimer := by
  simp only [showNext] at h
  split at h
  · rename_i ret hret
    exact ⟨ret, hret, (Option.some.inj h).symm⟩
  · cases h

theorem waitEvent_cases (h : showNext delay s r x f .waitEvent = some t) :
    s.signal r = true ∧ (t = s.goto r f .delTimerSync ∨ t = s.leave r f) := by
  obtain ⟨hsignal, ht⟩ := Option.ite_none_right_eq_some.mp h
  refine ⟨hsignal, ?_⟩
  rw [← Option.some.inj ht]
  split_ifs
  · exact .inl rfl
  · exact .inr rfl

theorem delTimerSync_cases (h : showNext delay s r x f .delTimerSync = some t) :
    s.running (.source .timer) = none ∧
      t = (s.dequeue .timer).leave r f := by
  simp only [showNext] at h
  split at h
  · rename_i hnone
    exact ⟨hnone, (Option.some.inj h).symm⟩
  · cases h

theorem Counted.showNext (hk : Counted s.readers s.inside s.unloaded)
    (hr : s.readers r = .showing f st) (h : showNext delay s r x f st = some t) :
    Counted t.readers t.inside t.unloaded := by
  cases st with
  | len | m | jiffies | delay | prepareToWait | queueWork | taskletSchedule | timerSetup | addTimer =>
      cases h
      exact hk.goto hr _
  | schedule woken =>
      rw [(schedule_cases h).2]
      exact hk.leave hr
  | jiqPrint =>
      obtain ⟨_, _, rfl⟩ := jiqPrint_cases h
      exact hk.goto hr _
  | waitEvent =>
      rcases (waitEvent_cases h).2 with rfl | rfl
      · exact hk.goto hr _
      · exact hk.leave hr
  | delTimerSync =>
      rw [(delTimerSync_cases h).2]
      exact hk.leave hr

theorem Counted.jiqPrint {p : State k × Call k} (hk : Counted s.readers s.inside s.unloaded)
    (h : jiqPrint page x s c = some p) : Counted p.1.readers p.1.inside p.1.unloaded := by
  unfold JiqReaders.jiqPrint at h
  split at h
  all_goals cases h
  · exact hk
  · exact hk.wakeUp
  · exact hk
  · exact hk

theorem Counted.finish (hk : Counted s.readers s.inside s.unloaded) (src : Source) (ret : Bool) :
    Counted (finish s src ret).readers (finish s src ret).inside (finish s src ret).unloaded := by
  unfold JiqReaders.finish
  split
  · exact hk.wakeUp
  · exact hk
  · exact hk

/-! The labels, each with its condition. -/

theorem start_cases (h : next page delay s (.start r f) = some t) :
    s.readers r = .unopened ∧ s.unloaded = false ∧
      t = { s with inside := insert r s.inside }.goto r f .len := by
  obtain ⟨⟨hr, hloaded⟩, ht⟩ := Option.ite_none_right_eq_some.mp h
  exact ⟨hr, hloaded, (Option.some.inj ht).symm⟩

theorem reader_cases (h : next page delay s (.reader r x) = some t) :
    ∃ f st, s.readers r = .showing f st ∧ showNext delay s r x f st = some t := by
  simp only [next] at h
  split at h
  · exact ⟨_, _, by assumption, h⟩
  · cases h

theorem close_cases (h : next page delay s (.close r) = some t) :
    ∃ f, s.readers r = .returned f ∧
      t = { s with readers := Function.update s.readers r .closed } := by
  simp only [next] at h
  split at h
  · exact ⟨_, by assumption, (Option.some.inj h).symm⟩
  · cases h

theorem fire_cases (h : next page delay s (.fire src) = some t) :
    s.pending src = true ∧ s.running (.source src) = none ∧
      t = (s.dequeue src).setRunning (.source src) (some .load) := by
  simp only [next] at h
  split at h
  · exact ⟨by assumption, by assumption, (Option.some.inj h).symm⟩
  · cases h

theorem call_cases (h : next page delay s (.call who x) = some t) :
    (∃ src ret, who = .source src ∧ s.running who = some (.done ret) ∧
        t = finish (s.setRunning who none) src ret) ∨
      ∃ c p, s.running who = some c ∧ jiqPrint page x s c = some p ∧
        t = p.1.setRunning who (some p.2) := by
  simp only [next] at h
  split at h
  · cases h
  · split at h
    · exact .inl ⟨_, _, rfl, by assumption, (Option.some.inj h).symm⟩
    · cases h
  · obtain ⟨p, hp, ht⟩ := Option.map_eq_some_iff.mp h
    exact .inr ⟨_, p, by assumption, hp, ht.symm⟩

theorem Counted.next {a : Label k} (hk : Counted s.readers s.inside s.unloaded)
    (h : next page delay s a = some t) : Counted t.readers t.inside t.unloaded := by
  cases a with
  | start r f =>
      obtain ⟨hr, hloaded, rfl⟩ := start_cases h
      refine ⟨fun u => ?_, fun hun => ?_⟩
      · show u ∈ insert r s.inside ↔ _
        rw [Finset.mem_insert, hk.inside u]
        by_cases hu : u = r
        · subst hu
          simp [State.goto]
        · simp [State.goto, hu]
      · rw [show s.unloaded = true from hun] at hloaded
        cases hloaded
  | reader r x =>
      obtain ⟨f, st, hr, hshow⟩ := reader_cases h
      exact hk.showNext hr hshow
  | signal r =>
      cases h
      exact hk
  | close r =>
      obtain ⟨f, hr, rfl⟩ := close_cases h
      refine ⟨fun u => ?_, hk.unloaded⟩
      rw [hk.inside u]
      by_cases hu : u = r
      · subst hu
        simp [hr]
      · simp [hu]
  | fire src =>
      obtain ⟨_, _, rfl⟩ := fire_cases h
      exact hk
  | call who x =>
      rcases call_cases h with ⟨src, ret, _, _, rfl⟩ | ⟨c, p, _, hp, rfl⟩
      · exact Counted.finish (s := s.setRunning who none) hk src ret
      · exact hk.jiqPrint hp
  | cleanup =>
      obtain ⟨hempty, ht⟩ := Option.ite_none_right_eq_some.mp h
      cases ht
      exact ⟨hk.inside, fun _ => hempty⟩

theorem counted {ok : State k → Label k → Prop} (h : (system k page delay).ReachableWhen ok s) :
    Counted s.readers s.inside s.unloaded := by
  apply h.invariant (I := fun s => Counted s.readers s.inside s.unloaded)
  · intro s hs
    rw [show s = loaded k page from hs]
    exact ⟨fun r => by simp [loaded], fun h => by cases h⟩
  · intro s a t _ hk _ hn
    exact hk.next hn

/-! ## Safe steps -/

/-- A step that neither moves `jiq_data.m` nor closes a file, and prints or
queues only where that was to be expected. -/
structure Tame (s t : State k) : Prop where
  m : t.m = s.m
  closed : ∀ r, t.readers r = .closed → s.readers r = .closed
  outstanding : Outstanding t → Outstanding s
  prints : ∀ r, Prints t r → Prints s r ∨ s.m = some r ∧ Outstanding s
  timer : t.timerLost = s.timerLost
  unloaded : t.unloaded = s.unloaded
  idle : Idle s → Idle t

theorem Tame.trans {u : State k} (h : Tame s t) (h' : Tame t u) : Tame s u where
  m := h'.m.trans h.m
  closed r hr := h.closed r (h'.closed r hr)
  outstanding ho := h.outstanding (h'.outstanding ho)
  prints r hr := by
    rcases h'.prints r hr with hp | ⟨hm, ho⟩
    · exact h.prints r hp
    · exact .inr ⟨h.m ▸ hm, h.outstanding ho⟩
  timer := h'.timer.trans h.timer
  unloaded := h'.unloaded.trans h.unloaded
  idle hi := h'.idle (h.idle hi)

theorem Tame.safe (h : Tame s t) (hs : Safe s) : Safe t where
  file ho r hm hr := hs.file (h.outstanding ho) r (h.m ▸ hm) (h.closed r hr)
  prints r hp hr := by
    rcases h.prints r hp with hp | ⟨hm, ho⟩
    · exact hs.prints r hp (h.closed r hr)
    · exact hs.file ho r hm (h.closed r hr)
  timer := h.timer.trans hs.timer
  code hun := h.idle (hs.code (h.unloaded ▸ hun))

/-- A step of the readers that leaves the calls of `jiq_print` alone. -/
theorem Tame.readers (hm : t.m = s.m) (hpending : t.pending = s.pending)
    (hrunning : t.running = s.running) (htimer : t.timerLost = s.timerLost)
    (hun : t.unloaded = s.unloaded) (hclosed : ∀ r, t.readers r = .closed → s.readers r = .closed) :
    Tame s t where
  m := hm
  closed := hclosed
  outstanding ho := by rwa [Outstanding, hpending, hrunning] at ho
  prints r hp := .inl (by rwa [Prints, hrunning] at hp)
  timer := htimer
  unloaded := hun
  idle hi := by rwa [Idle, hpending, hrunning]

theorem closed_update {rd : Reader} (hrd : rd ≠ .closed) (u : ℕ)
    (h : Function.update s.readers r rd u = .closed) : s.readers u = .closed := by
  by_cases hu : u = r
  · rw [hu, Function.update_self] at h
    exact absurd h hrd
  · rwa [Function.update_of_ne hu] at h

theorem tame_goto (s : State k) (data : ClientData k) (files : ℕ → SeqFile) (rs : Finset ℕ) (r : ℕ)
    (f : File) (st : Stage) :
    Tame s ({ s with data := data, files := files, inside := rs }.goto r f st) :=
  .readers rfl rfl rfl rfl rfl (closed_update fun h => by cases h)

theorem tame_leave (s : State k) (r : ℕ) (f : File) : Tame s (s.leave r f) :=
  .readers rfl rfl rfl rfl rfl (closed_update fun h => by cases h)

theorem tame_wakeUp (s : State k) : Tame s s.wakeUp := by
  refine .readers rfl rfl rfl rfl rfl fun r hr => ?_
  have hwake : (s.readers r).wake = .closed := hr
  cases hrd : s.readers r with
  | showing f st =>
      rw [hrd] at hwake
      cases st <;> cases hwake
  | closed => rfl
  | unopened | returned =>
      rw [hrd] at hwake
      cases hwake

@[simp] theorem setRunning_self (s : State k) (who : Caller) (c : Option (Call k)) :
    (s.setRunning who c).running who = c := Function.update_self _ _ _

theorem setRunning_other (s : State k) (c : Option (Call k)) {w : Caller} (h : w ≠ who) :
    (s.setRunning who c).running w = s.running w := Function.update_of_ne h _ _

@[simp] theorem ahead_load (who : Caller) : Ahead who (.load : Call k) := by
  cases who <;> trivial

@[simp] theorem not_ahead_done (who : Caller) : ¬Ahead who (.done false : Call k) := by
  cases who <;> exact not_false

/-! A call that has found room is queued again or not, wherever it stands. -/

theorem ahead_print {len : BitVec 32} {m : Option ℕ} (who : Caller) :
    Ahead who (.print len m x : Call k) ↔ Ahead who (.done true : Call k) := by
  cases who with
  | source src => cases src <;> exact Iff.rfl
  | reader r => exact Iff.rfl

theorem ahead_store {len : BitVec 32} {j : BitVec (8 * k.bytes)} (who : Caller) :
    Ahead who (.store len j : Call k) ↔ Ahead who (.done true : Call k) := by
  cases who with
  | source src => cases src <;> exact Iff.rfl
  | reader r => exact Iff.rfl

/-- A call of `jiq_print` goes on or returns. -/
theorem tame_setRunning {o : Option (Call k)} (hc : s.running who = some c)
    (hahead : ∀ c', o = some c' → Ahead who c' → Ahead who c)
    (hprints : ∀ len r x, o = some (.print len (some r) x) → s.m = some r ∧ Outstanding s) :
    Tame s (s.setRunning who o) where
  m := rfl
  closed _ hr := hr
  outstanding ho := by
    rcases ho with hsrc | ⟨w, d, hd, hw⟩
    · exact .inl hsrc
    · by_cases hwho : w = who
      · subst hwho
        rw [setRunning_self] at hd
        exact .inr ⟨w, c, hc, hahead d hd hw⟩
      · rw [setRunning_other s o hwho] at hd
        exact .inr ⟨w, d, hd, hw⟩
  prints r hp := by
    obtain ⟨w, len, x, hd⟩ := hp
    by_cases hwho : w = who
    · subst hwho
      rw [setRunning_self] at hd
      exact .inr (hprints len r x hd)
    · rw [setRunning_other s o hwho] at hd
      exact .inl ⟨w, len, x, hd⟩
  timer := rfl
  unloaded := rfl
  idle hi src := by
    refine ⟨(hi src).1, ?_⟩
    by_cases hwho : Caller.source src = who
    · rw [← hwho, (hi src).2] at hc
      cases hc
    · rw [setRunning_other s o hwho]
      exact (hi src).2

theorem tame_returns (hc : s.running who = some c) : Tame s (s.setRunning who none) :=
  tame_setRunning hc (fun _ h => by cases h) (fun _ _ _ h => by cases h)

theorem jiqPrint_frame {p : State k × Call k} (h : jiqPrint page x s c = some p) :
    Tame s p.1 ∧ p.1.running = s.running := by
  unfold jiqPrint at h
  split at h
  all_goals cases h
  · exact ⟨.readers rfl rfl rfl rfl rfl fun _ hr => hr, rfl⟩
  · exact ⟨tame_wakeUp s, rfl⟩
  · exact ⟨.readers rfl rfl rfl rfl rfl fun _ hr => hr, rfl⟩
  · exact ⟨.readers rfl rfl rfl rfl rfl fun _ hr => hr, rfl⟩

theorem jiqPrint_ahead {p : State k × Call k} (h : jiqPrint page x s c = some p)
    (hahead : Ahead who p.2) : Ahead who c := by
  unfold jiqPrint at h
  split at h
  all_goals cases h
  · exact ahead_load who
  · exact absurd hahead (not_ahead_done who)
  · exact (ahead_print who).mpr ((ahead_store who).mp hahead)
  · exact (ahead_store who).mpr hahead

/-- A call takes the file from `jiq_data.m`. -/
theorem jiqPrint_prints {p : State k × Call k} {len : BitVec 32} {y : Surroundings k}
    (h : jiqPrint page x s c = some p) (hp : p.2 = .print len (some r) y) :
    c = .load ∧ s.m = some r := by
  unfold jiqPrint at h
  split at h
  all_goals cases h
  · simp only at hp
    split_ifs at hp
    injection hp with _ hm _
    exact ⟨rfl, hm⟩
  all_goals cases hp

theorem tame_jiqPrint {p : State k × Call k} (hc : s.running who = some c)
    (h : jiqPrint page x s c = some p) : Tame s (p.1.setRunning who (some p.2)) := by
  obtain ⟨htame, hrunning⟩ := jiqPrint_frame h
  have hc' : p.1.running who = some c := by rw [hrunning, hc]
  refine htame.trans (tame_setRunning hc' (fun d hd hw => ?_) fun len r y hd => ?_)
  · cases hd
    exact jiqPrint_ahead h hw
  · obtain ⟨hload, hm⟩ := jiqPrint_prints h (Option.some.inj hd)
    exact ⟨htame.m.trans hm, .inr ⟨who, c, hc', hload ▸ ahead_load who⟩⟩

theorem tame_finish {ret : Bool} (hc : s.running (.source src) = some (.done ret)) :
    Tame s (finish (s.setRunning (.source src) none) src ret) := by
  have hreturns := tame_returns hc
  have hidle : ¬Idle s := fun hi => by
    rw [(hi src).2] at hc
    cases hc
  have hqueue (hahead : Ahead (.source src) (.done ret : Call k)) :
      Tame s ((s.setRunning (.source src) none).queue src) :=
    ⟨rfl, fun _ hr => hr, fun _ => .inr ⟨_, _, hc, hahead⟩, hreturns.prints, rfl, rfl,
      fun hi => absurd hi hidle⟩
  cases src with
  | timer => exact hreturns.trans (tame_wakeUp _)
  | work | delayedWork | tasklet =>
      cases ret with
      | false => exact hreturns
      | true => exact hqueue trivial

@[simp] theorem queue_self (s : State k) (src : Source) : (s.queue src).pending src = true :=
  Function.update_self _ _ _

@[simp] theorem dequeue_self (s : State k) (src : Source) : (s.dequeue src).pending src = false :=
  Function.update_self _ _ _

theorem dequeue_other (s : State k) {src' : Source} (h : src' ≠ src) :
    (s.dequeue src).pending src' = s.pending src' := Function.update_of_ne h _ _

/-- What is queued no more is not outstanding. -/
theorem tame_dequeue (s : State k) (src : Source) : Tame s (s.dequeue src) where
  m := rfl
  closed _ hr := hr
  outstanding ho := by
    rcases ho with ⟨src', hsrc⟩ | hrun
    · by_cases heq : src' = src
      · rw [heq, dequeue_self] at hsrc
        cases hsrc
      · rw [dequeue_other s heq] at hsrc
        exact .inl ⟨src', hsrc⟩
    · exact .inr hrun
  prints _ hp := .inl hp
  timer := rfl
  unloaded := rfl
  idle hi src' := by
    refine ⟨?_, (hi src').2⟩
    by_cases heq : src' = src
    · rw [heq, dequeue_self]
    · rw [dequeue_other s heq]
      exact (hi src').1

theorem prints_load (hp : Prints (s.setRunning who (some .load)) r) : Prints s r := by
  obtain ⟨w, len, x, hd⟩ := hp
  by_cases hwho : w = who
  · rw [hwho, setRunning_self] at hd
    cases hd
  · rw [setRunning_other s _ hwho] at hd
    exact ⟨w, len, x, hd⟩

theorem tame_fire (hpending : s.pending src = true) :
    Tame s ((s.dequeue src).setRunning (.source src) (some .load)) where
  m := rfl
  closed _ hr := hr
  outstanding _ := .inl ⟨src, hpending⟩
  prints r hp := .inl (prints_load (s := s.dequeue src) hp)
  timer := rfl
  unloaded := rfl
  idle hi := by
    rw [(hi src).1] at hpending
    cases hpending

/-- Something is queued for a file that is open. -/
theorem Safe.queue (hs : Safe s) (hlive : LiveFile s) (hloaded : s.unloaded = false) (src : Source) :
    Safe (s.queue src) where
  file _ := hlive
  prints := hs.prints
  timer := hs.timer
  code hun := by
    rw [show s.unloaded = true from hun] at hloaded
    cases hloaded

/-- A reader calls `jiq_print` for a file that is open. -/
theorem Safe.calls (hs : Safe s) (hlive : LiveFile s) (hloaded : s.unloaded = false) (r : ℕ) :
    Safe (s.setRunning (.reader r) (some .load)) where
  file _ := hlive
  prints u hp := hs.prints u (prints_load hp)
  timer := hs.timer
  code hun := by
    rw [show s.unloaded = true from hun] at hloaded
    cases hloaded

theorem Safe.timer_idle (hs : Safe s) (htimer : s.pending .timer = false) :
    Safe { s with timerLost := s.timerLost || s.pending .timer } :=
  ⟨hs.file, hs.prints, by rw [hs.timer, htimer]; rfl, hs.code⟩

theorem Safe.showNext (hs : Safe s) (hloaded : s.unloaded = false)
    (hlive : st.queues → LiveFile s) (htimer : st.setsTimer → s.pending .timer = false)
    (h : showNext delay s r x f st = some t) : Safe t := by
  cases st with
  | len | jiffies | delay | prepareToWait =>
      cases h
      exact (tame_goto s _ _ _ r f _).safe hs
  | m =>
      cases h
      have hopen : ∀ u, (s.goto r f .jiffies).readers u = .closed → s.readers u = .closed :=
        (tame_goto s s.data s.files s.inside r f .jiffies).closed
      refine ⟨fun _ u hu hclosed => ?_, fun u hp hclosed => hs.prints u hp (hopen u hclosed),
        hs.timer, hs.code⟩
      cases hu
      exact absurd (hclosed.symm.trans (Function.update_self _ _ _)) (by simp)
  | queueWork | taskletSchedule =>
      cases h
      exact (tame_goto _ s.data s.files s.inside r f _).safe (hs.queue (hlive trivial) hloaded _)
  | schedule woken =>
      rw [(schedule_cases h).2]
      exact (tame_leave s r f).safe hs
  | timerSetup =>
      cases h
      have hset := (tame_dequeue _ .timer).safe (hs.timer_idle (htimer trivial))
      exact (tame_goto _ s.data s.files s.inside r f _).safe (hset.calls (hlive trivial) hloaded r)
  | jiqPrint =>
      obtain ⟨ret, hret, rfl⟩ := jiqPrint_cases h
      exact ((tame_returns hret).trans (tame_goto _ s.data s.files s.inside r f _)).safe hs
  | addTimer =>
      cases h
      have hset := (hs.timer_idle (htimer trivial)).queue (hlive trivial) hloaded .timer
      exact (tame_goto _ s.data s.files s.inside r f _).safe hset
  | waitEvent =>
      rcases (waitEvent_cases h).2 with rfl | rfl
      · exact (tame_goto s s.data s.files s.inside r f _).safe hs
      · exact (tame_leave s r f).safe hs
  | delTimerSync =>
      rw [(delTimerSync_cases h).2]
      exact ((tame_dequeue s .timer).trans (tame_leave _ r f)).safe hs

theorem Safe.next {a : Label k} (hs : Safe s) (hk : Counted s.readers s.inside s.unloaded)
    (hok : InTime s a) (h : next page delay s a = some t) : Safe t := by
  cases a with
  | start r f =>
      obtain ⟨_, _, rfl⟩ := start_cases h
      exact (tame_goto s s.data s.files _ r f _).safe hs
  | reader r x =>
      obtain ⟨f, st, hr, hshow⟩ := reader_cases h
      obtain ⟨hlive, htimer⟩ := hok f st hr
      exact hs.showNext (hk.loaded hr) hlive htimer hshow
  | signal r =>
      cases h
      exact ⟨hs.file, hs.prints, hs.timer, hs.code⟩
  | close r =>
      obtain ⟨f, hr, rfl⟩ := close_cases h
      obtain ⟨hfile, hprints⟩ := hok f hr
      refine ⟨fun ho u hu hclosed => ?_, fun u hp hclosed => ?_, hs.timer, hs.code⟩
      · by_cases hur : u = r
        · exact hfile (hur ▸ hu) ho
        · exact hs.file ho u hu ((Function.update_of_ne hur _ _).symm.trans hclosed)
      · by_cases hur : u = r
        · exact hprints (hur ▸ hp)
        · exact hs.prints u hp ((Function.update_of_ne hur _ _).symm.trans hclosed)
  | fire src =>
      obtain ⟨hpending, _, rfl⟩ := fire_cases h
      exact (tame_fire hpending).safe hs
  | call who x =>
      rcases call_cases h with ⟨src, ret, rfl, hc, rfl⟩ | ⟨c, p, hc, hp, rfl⟩
      · exact (tame_finish hc).safe hs
      · exact (tame_jiqPrint hc hp).safe hs
  | cleanup =>
      obtain ⟨hempty, ht⟩ := Option.ite_none_right_eq_some.mp h
      cases ht
      exact ⟨hs.file, hs.prints, hs.timer, fun _ => hok hempty⟩

theorem safe_loaded (k : LongSize) (page : PageSize) : Safe (loaded k page) where
  file _ r hm := by cases hm
  prints r hp := by
    obtain ⟨_, _, _, h⟩ := hp
    cases h
  timer := rfl
  code h := by cases h

/-! ## Unsafe steps -/

theorem not_safe_of_outstanding (ht : Outstanding t) {u : ℕ} (hm : t.m = some u)
    (hu : t.readers u = .closed) : ¬Safe t :=
  fun hs => hs.file ht u hm hu

/-- A reader queues something for a file that is closed. -/
theorem unsafe_queues (hr : s.readers r = .showing f st) (hqueues : st.queues) (hlive : ¬LiveFile s) :
    ∃ t, showNext delay s r x f st = some t ∧ ¬Safe t := by
  unfold LiveFile at hlive
  push Not at hlive
  obtain ⟨u, hm, hu⟩ := hlive
  have hne : u ≠ r := fun h => by
    rw [h, hr] at hu
    cases hu
  have hclosed (st' : Stage) : (s.goto r f st').readers u = .closed :=
    (Function.update_of_ne hne _ _).trans hu
  cases st with
  | queueWork | taskletSchedule =>
      exact ⟨_, rfl, not_safe_of_outstanding (.inl ⟨f.source, queue_self s _⟩) hm (hclosed _)⟩
  | addTimer =>
      refine ⟨_, rfl, not_safe_of_outstanding (.inl ⟨.timer, ?_⟩) hm (hclosed _)⟩
      exact queue_self { s with timerLost := s.timerLost || s.pending .timer } .timer
  | timerSetup =>
      refine ⟨_, rfl, not_safe_of_outstanding (.inr ⟨.reader r, .load, ?_, trivial⟩) hm (hclosed _)⟩
      exact setRunning_self _ _ _
  | len | m | jiffies | delay | prepareToWait | schedule | jiqPrint | waitEvent | delTimerSync =>
      exact hqueues.elim

theorem unsafe_setsTimer (hsets : st.setsTimer) (htimer : s.pending .timer = true) :
    ∃ t, showNext delay s r x f st = some t ∧ ¬Safe t := by
  have hlost : (s.timerLost || s.pending .timer) ≠ false := by
    rw [htimer, Bool.or_true]
    decide
  cases st with
  | timerSetup | addTimer => exact ⟨_, rfl, fun hs => hlost hs.timer⟩
  | len | m | jiffies | delay | prepareToWait | queueWork | schedule | taskletSchedule | jiqPrint
  | waitEvent | delTimerSync => exact hsets.elim

theorem unsafe_step {a : Label k} (hno : ¬InTime s a) :
    ∃ t, next page delay s a = some t ∧ ¬Safe t := by
  cases a with
  | reader r x =>
      unfold InTime at hno
      push Not at hno
      obtain ⟨f, st, hr, hno⟩ := hno
      have hnext : next page delay s (.reader r x) = showNext delay s r x f st := by
        simp only [next, hr]
      rw [hnext]
      by_cases hlive : st.queues → LiveFile s
      · obtain ⟨hsets, htimer⟩ := hno hlive
        exact unsafe_setsTimer hsets (by simpa using htimer)
      · obtain ⟨hqueues, hlive⟩ := Classical.not_imp.mp hlive
        exact unsafe_queues hr hqueues hlive
  | close r =>
      unfold InTime at hno
      push Not at hno
      obtain ⟨f, hr, hno⟩ := hno
      have hnext : next page delay s (.close r) =
          some { s with readers := Function.update s.readers r .closed } := by
        simp only [next, hr]
      have hclosed : Function.update s.readers r .closed r = .closed := Function.update_self _ _ _
      refine ⟨_, hnext, fun hs => ?_⟩
      have hfile : s.m = some r → ¬Outstanding s := fun hm ho => hs.file ho r hm hclosed
      exact hs.prints r (hno hfile) hclosed
  | cleanup =>
      obtain ⟨hempty, hidle⟩ := Classical.not_imp.mp hno
      exact ⟨_, if_pos hempty, fun hs => hidle (hs.code rfl)⟩
  | start | signal | fire | call => exact absurd trivial hno

/-- Whatever the readers, the queues and the end of the module do, nobody prints
to a closed file or is going to, no pending timer is set up and nothing is called
behind the end, in exactly the runs in which each reader queues and closes in
time and the module is removed with nothing queued. -/
theorem safe_iff_queuesInTime (k : LongSize) (page : PageSize) (delay : ℤ) (as : List (Label k)) :
    (system k page delay).Along Safe (loaded k page) as ↔
      (system k page delay).Meets InTime (loaded k page) as := by
  apply System.along_iff_meets
  · intro s hs
    refine hs.invariant (fun s hs => ?_) fun s a t hr hs hok hn => hs.next (counted hr) hok hn
    rw [show s = loaded k page from hs]
    exact safe_loaded k page
  · intro s a _ hno
    exact unsafe_step hno
  · exact .start rfl

end Steps

end LinuxDeviceDrivers.JiqReaders
