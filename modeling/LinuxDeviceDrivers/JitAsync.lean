import LinuxDeviceDrivers.Jit
import LinuxDeviceDrivers.Jiq
import LinuxDeviceDrivers.KernelPrimitives
import LinuxDeviceDrivers.TransitionSystem

/-!
# The just-in-time module: timer and tasklets

One reader of `/proc/jitimer`, `jitasklet` or `jitasklethi` and the callback it
has set up, which run at the same time. Every call of the callback prints a line
and sets up the next one; the last one wakes the reader, which then frees the
data the two share.

The reader looks at `loops` and not at the callback. It can see the 0 that the
callback has just written, and free the data with the wait queue in it that the
callback is still going to use. With a signal pending it leaves without freeing
anything, and the callback goes on.
-/
namespace LinuxDeviceDrivers.JitAsync
open ChardrvsIoctl (LongSize)
open CStrings CyclicClock Jit KernelPrimitives TransitionSystem
open Jiq (SeqFile)

def JIT_ASYNC_LOOPS : ℤ := 5

/-- What stands behind a file: `jit_timer_show` with `tdelay`, or
`jit_tasklet_show` with the `hi` of its entry. -/
inductive Source where
  | timer (tdelay : BitVec 32)
  | tasklet (hi : Bool)
deriving DecidableEq, Repr

section Types
variable (k : LongSize)

/-- What a line reports. -/
structure Surroundings where
  jiffies : BitVec (longBits k)
  inInterrupt : Bool
  pid : BitVec 32
  cpu : BitVec 32
  comm : CString
  comm_length : comm.bytes.length ≤ 15
deriving DecidableEq

/-- `struct jit_data`, with the `expires` of its timer. -/
structure JitData where
  expires : BitVec (longBits k)
  hi : Bool
  prevjiffies : BitVec (longBits k)
  loops : ℤ
deriving DecidableEq

/-- The reader's place: the two tests of `wait_event_interruptible`, before and
after it has queued itself, and the way out of it. -/
inductive Reader where
  | entry
  | check
  | prepare
  | test
  | asleep
  | tail
  | returned (ret : ℤ)
deriving DecidableEq, Repr

/-- The callback's place. A wake-up takes the lock of the wait queue, and gives
it back when it has taken the reader off the queue. -/
inductive Callback where
  | idle
  | decrement (j : BitVec (longBits k))
  | rearm (j : BitVec (longBits k))
  | wake
  | unlock
deriving DecidableEq

/-- `waiting`: the reader is on `data->wait`. `released`: the file is closed. -/
structure State where
  reader : Reader
  callback : Callback k
  pending : Bool
  data : JitData k
  freed : Bool
  waiting : Bool
  signal : Bool
  m : SeqFile
  released : Bool

/-- One step: the reader begins (with what `kmalloc` gives it) or goes on, it
gets a signal, its file is closed; the callback is called or goes on. -/
inductive Label where
  | start (x : Surroundings k) (data : Option (JitData k))
  | read
  | signal
  | release
  | fire (x : Surroundings k)
  | callback

end Types

section Code
variable {k : LongSize}

def header : List UInt8 := ascii "   time   delta  inirq    pid   cpu command\n"

/-- `"%9li  %3li     %i    %6i   %i   %s\n"` -/
def line (x : Surroundings k) (delta : BitVec (longBits k)) : List UInt8 :=
  padLeft 9 (decimalInt x.jiffies.toInt) ++ ascii "  " ++
    padLeft 3 (decimalInt delta.toInt) ++ ascii "     " ++
      decimalInt (if x.inInterrupt then 1 else 0) ++ ascii "    " ++
        padLeft 6 (decimalInt x.pid.toInt) ++ ascii "   " ++
          decimalInt x.cpu.toInt ++ ascii "   " ++ x.comm.bytes ++ ascii "\n"

/-- `seq_read` throws away what a failing show function has printed. -/
def SeqFile.discard (m : SeqFile) : SeqFile := { m with count := 0, text := [] }

/-- `single_release` frees the buffer. -/
def SeqFile.gone : SeqFile := ⟨0, 0, []⟩

/-- What both show functions do with the memory they got. -/
def beginShow (x : Surroundings k) (data : JitData k) (s : State k) : State k :=
  { s with
    reader := .check
    pending := true
    data := { data with prevjiffies := x.jiffies, loops := JIT_ASYNC_LOOPS }
    m := (s.m.append header).append (line x 0) }

def jitTimerShow (tdelay : BitVec 32) (x : Surroundings k) (data : JitData k) (s : State k) : State k :=
  beginShow x { data with expires := x.jiffies + ticks k tdelay } s

def jitTaskletShow (hi : Bool) (x : Surroundings k) (data : JitData k) (s : State k) : State k :=
  beginShow x { data with hi := hi } s

def Source.show : Source → Surroundings k → JitData k → State k → State k
  | .timer tdelay => jitTimerShow tdelay
  | .tasklet hi => jitTaskletShow hi

/-- What the callbacks do with more loops ahead. -/
def Source.rearm : Source → BitVec (longBits k) → JitData k → JitData k
  | .timer tdelay, j, data => { data with expires := data.expires + ticks k tdelay, prevjiffies := j }
  | .tasklet _, j, data => { data with prevjiffies := j }

/-- A timer is not called before `jiffies` has come to its `expires`. -/
def Source.due : Source → Surroundings k → JitData k → Prop
  | .timer _, x, data => ¬timeBefore x.jiffies data.expires
  | .tasklet _, _, _ => True

instance (src : Source) (x : Surroundings k) (data : JitData k) : Decidable (src.due x data) :=
  match src with
  | .timer _ => inferInstanceAs (Decidable (¬_))
  | .tasklet _ => inferInstanceAs (Decidable True)

/-- The show function comes back with an error. -/
def fail (ret : ℤ) (s : State k) : State k :=
  { s with reader := .returned ret, m := SeqFile.discard s.m }

/-- The reader's own step: `wait_event_interruptible(data->wait, !data->loops)`,
the test for signals, and `kfree`. A sleeper may go on at any time. -/
def readerStep (s : State k) : Option (State k) :=
  match s.reader with
  | .check => some { s with reader := if s.data.loops = 0 then .tail else .prepare }
  | .prepare =>
      some (if s.signal then { s with reader := .tail, waiting := false }
        else { s with reader := .test, waiting := true })
  | .test =>
      some (if s.data.loops = 0 then { s with reader := .tail, waiting := false }
        else { s with reader := .asleep })
  | .asleep => some { s with reader := .prepare }
  | .tail =>
      some (if s.signal then fail (-ERESTARTSYS) s
        else { s with reader := .returned 0, freed := true })
  | .entry => none
  | .returned _ => none

/-- `jit_timer_fn` and `jit_tasklet_fn` behind their line. -/
def callbackStep (src : Source) (s : State k) : Option (State k) :=
  match s.callback with
  | .decrement j =>
      let loops := s.data.loops - 1
      some { s with
        data := { s.data with loops := loops }
        callback := if loops ≠ 0 then .rearm j else .wake }
  | .rearm j => some { s with data := src.rearm j s.data, pending := true, callback := .idle }
  | .wake => some { s with waiting := false, callback := .unlock }
  | .unlock => some { s with callback := .idle }
  | .idle => none

/-- The first line of a call of the callback. -/
def fire (x : Surroundings k) (s : State k) : State k :=
  { s with
    pending := false
    callback := .decrement x.jiffies
    m := s.m.append (line x (x.jiffies - s.data.prevjiffies)) }

def next (src : Source) (s : State k) : Label k → Option (State k)
  | .start x data =>
      if s.reader = .entry then
        some (match data with
          | none => fail (-ENOMEM) s
          | some data => src.show x data s)
      else none
  | .read => readerStep s
  | .signal => some { s with signal := true }
  | .release =>
      match s.reader with
      | .returned _ => some { s with released := true, m := SeqFile.gone }
      | _ => none
  | .fire x =>
      if s.pending = true ∧ s.callback = .idle ∧ src.due x s.data then some (fire x s) else none
  | .callback => callbackStep src s

/-- A reader whose file has just been opened, perhaps with a signal on its way. -/
structure Opened (s : State k) : Prop where
  reader : s.reader = .entry
  callback : s.callback = .idle
  pending : s.pending = false
  freed : s.freed = false
  waiting : s.waiting = false
  released : s.released = false
  size : 4096 ≤ s.m.size
  count : s.m.count = 0
  text : s.m.text = []

def system (k : LongSize) (src : Source) : System (State k) (Label k) where
  start := Opened
  next := next src

end Code

/-! ## Memory that is still in use -/

section Memory
variable {k : LongSize}

/-- The show function has come back, with 0 or an error. -/
def Back (s : State k) : Prop := ∃ ret, s.reader = .returned ret

/-- Another call of the callback is set up or going to be. -/
def Outstanding (s : State k) : Prop :=
  s.pending = true ∨
    match s.callback with
    | .decrement _ => s.data.loops ≠ 1
    | .rearm _ => True
    | _ => False

/-- Nobody uses the data any more once they are freed, or the file once it is
closed. -/
structure Safe (s : State k) : Prop where
  data : s.freed = true → s.callback = .idle ∧ s.pending = false
  file : s.released = true → ¬Outstanding s

/-- The reader frees the data while no callback runs, and the file is closed
when no callback is to come. -/
def InTime (s : State k) : Label k → Prop
  | .read => s.reader = .tail → s.signal = false → s.callback = .idle
  | .release => Back s → ¬Outstanding s
  | _ => True

/-- What `loops` says of the callback. -/
structure Counts (s : State k) : Prop where
  pending : s.pending = true → 0 < s.data.loops ∧ s.callback = .idle
  decrement : ∀ j, s.callback = .decrement j → 0 < s.data.loops
  rearm : ∀ j, s.callback = .rearm j → 0 < s.data.loops
  last : s.callback = .wake ∨ s.callback = .unlock → s.data.loops = 0

/-- What holds of a reader in every state. -/
structure Kept (s : State k) : Prop where
  entry : s.reader = .entry → s.callback = .idle ∧ s.pending = false
  counts : Counts s
  tail : s.reader = .tail → s.signal = false → s.data.loops = 0
  freed : s.freed = true → s.reader = .returned 0 ∧ s.data.loops = 0
  released : s.released = true → Back s

end Memory

section Steps
variable {k : LongSize} {src : Source} {s t : State k}

theorem Opened.kept (h : Opened s) : Kept s where
  entry _ := ⟨h.callback, h.pending⟩
  counts :=
    { pending := fun hp => by rw [h.pending] at hp; cases hp
      decrement := fun j hj => by rw [h.callback] at hj; cases hj
      rearm := fun j hj => by rw [h.callback] at hj; cases hj
      last := fun hl => by
        rw [h.callback] at hl
        rcases hl with hl | hl
        · cases hl
        · cases hl }
  tail ht := by rw [h.reader] at ht; cases ht
  freed hf := by rw [h.freed] at hf; cases hf
  released hr := by rw [h.released] at hr; cases hr

/-- The data as a show function leaves them for the callback. -/
structure SetUp (src : Source) (x : Surroundings k) (d : JitData k) : Prop where
  loops : d.loops = JIT_ASYNC_LOOPS
  prevjiffies : d.prevjiffies = x.jiffies
  expires : ∀ tdelay, src = .timer tdelay → d.expires = x.jiffies + ticks k tdelay

theorem show_eq (src : Source) (x : Surroundings k) (data : JitData k) (s : State k) :
    ∃ d, SetUp src x d ∧ src.show x data s =
      { s with
        reader := .check
        pending := true
        data := d
        m := (s.m.append header).append (line x 0) } := by
  cases src with
  | timer tdelay => exact ⟨_, ⟨rfl, rfl, fun n hn => by cases hn; rfl⟩, rfl⟩
  | tasklet hi => exact ⟨_, ⟨rfl, rfl, fun n hn => by cases hn⟩, rfl⟩

/-- What the reader's own steps leave alone. -/
structure Frame (s t : State k) : Prop where
  callback : t.callback = s.callback
  pending : t.pending = s.pending
  data : t.data = s.data
  signal : t.signal = s.signal
  released : t.released = s.released

theorem frame (r : Reader) (w f : Bool) (m : SeqFile) :
    Frame s { s with reader := r, waiting := w, freed := f, m := m } := ⟨rfl, rfl, rfl, rfl, rfl⟩

/-- The reader goes to the end with no signal only when it has seen a `loops` of
0, and it frees the data in its last step. -/
structure Reads (s t : State k) : Prop extends Frame s t where
  inside : s.reader ≠ .entry ∧ ¬Back s
  m : Back t ∨ t.m = s.m
  entry : t.reader ≠ .entry
  tail : t.reader = .tail → s.signal = false → s.data.loops = 0
  freed : t.freed = s.freed ∨ s.reader = .tail ∧ s.signal = false ∧ t.reader = .returned 0
  ended : t.reader = .returned 0 → t.freed = true
  asleep : t.reader = .asleep → s.data.loops ≠ 0

/-- A place in `wait_event_interruptible` or behind it. -/
theorem inside {r : Reader} (hr : s.reader = r) (he : r ≠ .entry) (hret : ∀ ret, r ≠ .returned ret) :
    s.reader ≠ .entry ∧ ¬Back s :=
  ⟨hr ▸ he, fun ⟨ret, h⟩ => hret ret (hr.symm.trans h)⟩

theorem reads (h : readerStep s = some t) : Reads s t := by
  unfold readerStep at h
  split at h
  · -- The first test.
    cases h
    rename_i hr
    by_cases hloops : s.data.loops = 0
    · exact ⟨frame .., inside hr nofun nofun, .inr rfl, by simp [hloops], fun _ _ => hloops, .inl rfl,
        by simp [hloops], by simp [hloops]⟩
    · exact ⟨frame .., inside hr nofun nofun, .inr rfl, by simp [hloops], by simp [hloops], .inl rfl,
        by simp [hloops], fun _ => hloops⟩
  · rename_i hr
    split_ifs at h with hsig
    · cases h
      exact ⟨frame .., inside hr nofun nofun, .inr rfl, nofun, by simp [hsig], .inl rfl, nofun, nofun⟩
    · cases h
      exact ⟨frame .., inside hr nofun nofun, .inr rfl, nofun, nofun, .inl rfl, nofun, nofun⟩
  · -- The second test.
    rename_i hr
    split_ifs at h with hloops
    · cases h
      exact ⟨frame .., inside hr nofun nofun, .inr rfl, nofun, fun _ _ => hloops, .inl rfl, nofun, nofun⟩
    · cases h
      exact ⟨frame .., inside hr nofun nofun, .inr rfl, nofun, nofun, .inl rfl, nofun, fun _ => hloops⟩
  · rename_i hr
    cases h
    exact ⟨frame .., inside hr nofun nofun, .inr rfl, nofun, nofun, .inl rfl, nofun, nofun⟩
  · rename_i hr
    split_ifs at h with hsig
    · cases h
      exact ⟨frame .., inside hr nofun nofun, .inl ⟨_, rfl⟩, nofun, nofun, .inl rfl, nofun, nofun⟩
    · cases h
      exact ⟨frame .., inside hr nofun nofun, .inr rfl, nofun, nofun,
        .inr ⟨hr, by simpa using hsig, rfl⟩, fun _ => rfl, nofun⟩
  · cases h
  · cases h

/-- The callback's own steps touch nothing of the reader's but its place in the
wait queue. -/
inductive Calls (src : Source) (s : State k) : State k → Prop
  | again {j} : s.callback = .decrement j → s.data.loops ≠ 1 →
      Calls src s { s with data := { s.data with loops := s.data.loops - 1 }, callback := .rearm j }
  | last {j} : s.callback = .decrement j → s.data.loops = 1 →
      Calls src s { s with data := { s.data with loops := 0 }, callback := .wake }
  | rearm {j} : s.callback = .rearm j →
      Calls src s { s with data := src.rearm j s.data, pending := true, callback := .idle }
  | wake : s.callback = .wake → Calls src s { s with waiting := false, callback := .unlock }
  | unlock : s.callback = .unlock → Calls src s { s with callback := .idle }

theorem calls (h : callbackStep src s = some t) : Calls src s t := by
  unfold callbackStep at h
  split at h
  · rename_i j hc
    by_cases hlast : s.data.loops = 1
    · rw [hlast] at h
      cases h
      exact .last hc hlast
    · have hloops : s.data.loops - 1 ≠ 0 := by omega
      simp only [hloops, ne_eq, not_false_eq_true, if_true, Option.some.injEq] at h
      exact h ▸ .again hc hlast
  · rename_i j hc
    cases h
    exact .rearm hc
  · rename_i hc
    cases h
    exact .wake hc
  · rename_i hc
    cases h
    exact .unlock hc
  · cases h

@[simp] theorem rearm_loops (src : Source) (j : BitVec (longBits k)) (data : JitData k) :
    (src.rearm j data).loops = data.loops := by
  cases src with
  | timer tdelay => rfl
  | tasklet hi => rfl

theorem Counts.congr (hs : Counts s) (hcallback : t.callback = s.callback)
    (hpending : t.pending = s.pending) (hdata : t.data = s.data) : Counts t := by
  constructor
  · rw [hpending, hcallback, hdata]
    exact hs.pending
  · rw [hcallback, hdata]
    exact hs.decrement
  · rw [hcallback, hdata]
    exact hs.rearm
  · rw [hcallback, hdata]
    exact hs.last

theorem Kept.reads (hs : Kept s) (h : Reads s t) : Kept t := by
  constructor
  · exact fun he => absurd he h.entry
  · exact hs.counts.congr h.callback h.pending h.data
  · rw [h.signal, h.data]
    exact h.tail
  · intro hf
    rcases h.freed with hsame | ⟨htail, hsig, hret⟩
    · exact absurd ⟨0, (hs.freed (hsame ▸ hf)).1⟩ h.inside.2
    · rw [h.data]
      exact ⟨hret, hs.tail htail hsig⟩
  · intro hr
    exact absurd (hs.released (h.released ▸ hr)) h.inside.2

/-- With a callback running or due the data are not freed, and the reader is not
at the end without a signal. -/
theorem Kept.running (hs : Kept s) (hloops : 0 < s.data.loops) :
    s.freed = false ∧ (s.reader = .tail → s.signal = true) := by
  constructor
  · cases hf : s.freed with
    | false => rfl
    | true => exact absurd (hs.freed hf).2 (by omega)
  · intro htail
    cases hsig : s.signal with
    | true => rfl
    | false => exact absurd (hs.tail htail hsig) (by omega)

theorem Counts.calls (hs : Counts s) (h : Calls src s t) : Counts t := by
  cases h with
  | @again j hc hmore =>
      have hloops := hs.decrement j hc
      constructor
      · intro hp
        rw [(hs.pending hp).2] at hc
        cases hc
      · exact nofun
      · intro i hi
        show 0 < s.data.loops - 1
        omega
      · exact fun hl => hl.elim nofun nofun
  | @last j hc hlast =>
      constructor
      · intro hp
        rw [(hs.pending hp).2] at hc
        cases hc
      · exact nofun
      · exact nofun
      · exact fun _ => rfl
  | @rearm j hc =>
      constructor
      · intro _
        exact ⟨by rw [rearm_loops]; exact hs.rearm j hc, rfl⟩
      · exact nofun
      · exact nofun
      · exact fun hl => hl.elim nofun nofun
  | wake hc =>
      constructor
      · intro hp
        rw [(hs.pending hp).2] at hc
        cases hc
      · exact nofun
      · exact nofun
      · exact fun _ => hs.last (.inl hc)
  | unlock hc =>
      constructor
      · intro hp
        rw [(hs.pending hp).2] at hc
        cases hc
      · exact nofun
      · exact nofun
      · exact fun hl => hl.elim nofun nofun

/-- What the callback's steps leave alone. They lower `loops` only while it is
positive. -/
structure Calls.Frame (s t : State k) : Prop where
  running : s.callback ≠ .idle
  reader : t.reader = s.reader
  signal : t.signal = s.signal
  freed : t.freed = s.freed
  released : t.released = s.released
  m : t.m = s.m
  loops : 0 < s.data.loops ∨ t.data.loops = s.data.loops

theorem Calls.frame (hs : Counts s) (h : Calls src s t) : Calls.Frame s t := by
  cases h with
  | @again j hc => exact ⟨by simp [hc], rfl, rfl, rfl, rfl, rfl, .inl (hs.decrement j hc)⟩
  | @last j hc => exact ⟨by simp [hc], rfl, rfl, rfl, rfl, rfl, .inl (hs.decrement j hc)⟩
  | @rearm j hc => exact ⟨by simp [hc], rfl, rfl, rfl, rfl, rfl, .inl (hs.rearm j hc)⟩
  | wake hc => exact ⟨by simp [hc], rfl, rfl, rfl, rfl, rfl, .inr rfl⟩
  | unlock hc => exact ⟨by simp [hc], rfl, rfl, rfl, rfl, rfl, .inr rfl⟩

theorem Kept.calls (hs : Kept s) (h : Calls src s t) : Kept t := by
  have hframe := h.frame hs.counts
  constructor
  · intro he
    exact absurd (hs.entry (hframe.reader ▸ he)).1 hframe.running
  · exact hs.counts.calls h
  · intro htail hsig
    rw [hframe.reader] at htail
    rw [hframe.signal] at hsig
    rcases hframe.loops with hpos | hsame
    · rw [(hs.running hpos).2 htail] at hsig
      cases hsig
    · rw [hsame]
      exact hs.tail htail hsig
  · intro hf
    rw [hframe.freed] at hf
    rw [hframe.reader]
    rcases hframe.loops with hpos | hsame
    · rw [(hs.running hpos).1] at hf
      cases hf
    · rw [hsame]
      exact hs.freed hf
  · intro hr
    obtain ⟨ret, hret⟩ := hs.released (hframe.released ▸ hr)
    exact ⟨ret, hframe.reader.trans hret⟩

theorem Kept.fire (hs : Kept s) (hp : s.pending = true) (x : Surroundings k) :
    Kept (fire x s) := by
  have hloops := (hs.counts.pending hp).1
  constructor
  · intro he
    rw [(hs.entry he).2] at hp
    cases hp
  · exact ⟨nofun, fun _ _ => hloops, nofun, fun hl => hl.elim nofun nofun⟩
  · exact hs.tail
  · exact hs.freed
  · exact hs.released

theorem Kept.start (hs : Kept s) (he : s.reader = .entry) (x : Surroundings k) (data : JitData k) :
    Kept (src.show x data s) := by
  obtain ⟨d, hd, hshow⟩ := show_eq src x data s
  rw [hshow]
  constructor
  · exact nofun
  · refine ⟨fun _ => ⟨?_, (hs.entry he).1⟩, ?_, ?_, ?_⟩
    · rw [hd.loops]
      decide
    · intro j hj
      rw [(hs.entry he).1] at hj
      cases hj
    · intro j hj
      rw [(hs.entry he).1] at hj
      cases hj
    · rw [(hs.entry he).1]
      exact fun hl => hl.elim nofun nofun
  · exact nofun
  · intro hf
    have hret := (hs.freed hf).1
    rw [he] at hret
    cases hret
  · intro hr
    obtain ⟨ret, hret⟩ := hs.released hr
    rw [he] at hret
    cases hret

/-- What one step can be. -/
inductive Moves (src : Source) (s : State k) : Label k → State k → Prop
  | noMemory (x) : s.reader = .entry → Moves src s (.start x none) (fail (-ENOMEM) s)
  | start (x data) : s.reader = .entry → Moves src s (.start x (some data)) (src.show x data s)
  | read {u} : Reads s u → Moves src s .read u
  | signal : Moves src s .signal { s with signal := true }
  | release : Back s → Moves src s .release { s with released := true, m := SeqFile.gone }
  | fire {x} : s.pending = true → s.callback = .idle → src.due x s.data →
      Moves src s (.fire x) (fire x s)
  | callback {u} : Calls src s u → Moves src s .callback u

theorem moves {a : Label k} (h : next src s a = some t) : Moves src s a t := by
  cases a with
  | start x data =>
      simp only [next] at h
      split_ifs at h with he
      cases data with
      | none =>
          cases h
          exact .noMemory x he
      | some data =>
          cases h
          exact .start x data he
  | read => exact .read (reads h)
  | signal =>
      cases h
      exact .signal
  | release =>
      simp only [next] at h
      split at h
      · rename_i ret hr
        cases h
        exact .release ⟨ret, hr⟩
      · cases h
  | fire x =>
      simp only [next] at h
      split_ifs at h with hf
      cases h
      exact .fire hf.1 hf.2.1 hf.2.2
  | callback => exact .callback (calls h)

theorem Kept.moves {a : Label k} (hs : Kept s) (h : Moves src s a t) : Kept t := by
  cases h with
  | noMemory x he =>
      refine ⟨nofun, hs.counts.congr rfl rfl rfl, nofun, fun hf => ?_, fun _ => ⟨_, rfl⟩⟩
      have hret := (hs.freed hf).1
      rw [he] at hret
      cases hret
  | start x data he => exact hs.start he x data
  | read h => exact hs.reads h
  | signal => exact ⟨hs.entry, hs.counts.congr rfl rfl rfl, fun _ => nofun, hs.freed, hs.released⟩
  | release hr =>
      exact ⟨hs.entry, hs.counts.congr rfl rfl rfl, hs.tail, hs.freed, fun _ => hr⟩
  | fire hp => exact hs.fire hp _
  | callback h => exact hs.calls h

end Steps

section Safety
variable {k : LongSize} {src : Source} {s t : State k}

theorem Outstanding.congr (h : Outstanding t) (hcallback : t.callback = s.callback)
    (hpending : t.pending = s.pending) (hdata : t.data = s.data) : Outstanding s := by
  unfold Outstanding at h ⊢
  rwa [hcallback, hpending, hdata] at h

theorem Calls.outstanding (h : Calls src s t) (ht : Outstanding t) : Outstanding s := by
  cases h with
  | again hc hmore =>
      right
      rw [hc]
      exact hmore
  | last hc =>
      left
      exact ht.resolve_right id
  | rearm hc =>
      right
      rw [hc]
      trivial
  | wake hc =>
      left
      exact ht.resolve_right id
  | unlock hc =>
      left
      exact ht.resolve_right id

theorem Safe.moves {a : Label k} (hs : Safe s) (hk : Kept s) (hok : InTime s a)
    (h : Moves src s a t) : Safe t := by
  cases h with
  | noMemory x he => exact ⟨hs.data, fun hr ho => hs.file hr (ho.congr rfl rfl rfl)⟩
  | start x data he =>
      obtain ⟨d, _, hshow⟩ := show_eq src x data s
      rw [hshow]
      constructor
      · intro hf
        have hret := (hk.freed hf).1
        rw [he] at hret
        cases hret
      · intro hr
        obtain ⟨ret, hret⟩ := hk.released hr
        rw [he] at hret
        cases hret
  | read h =>
      constructor
      · intro hf
        rw [h.callback, h.pending]
        rcases h.freed with hsame | ⟨htail, hsig, _⟩
        · exact hs.data (hsame ▸ hf)
        · -- The data are freed in this step.
          refine ⟨hok htail hsig, ?_⟩
          by_contra hp
          have hloops := (hk.counts.pending (by simpa using hp)).1
          have hzero := hk.tail htail hsig
          omega
      · intro hr ho
        exact hs.file (h.released ▸ hr) (ho.congr h.callback h.pending h.data)
  | signal => exact ⟨hs.data, fun hr ho => hs.file hr (ho.congr rfl rfl rfl)⟩
  | release hr => exact ⟨hs.data, fun _ ho => hok hr (ho.congr rfl rfl rfl)⟩
  | fire hp =>
      constructor
      · intro hf
        rw [(hs.data hf).2] at hp
        cases hp
      · exact fun hr => absurd (.inl hp) (hs.file hr)
  | callback h =>
      have hframe := h.frame hk.counts
      constructor
      · intro hf
        exact absurd (hs.data (hframe.freed ▸ hf)).1 hframe.running
      · intro hr ho
        exact hs.file (hframe.released ▸ hr) (h.outstanding ho)

theorem Opened.safe (h : Opened s) : Safe s where
  data hf := by
    rw [h.freed] at hf
    cases hf
  file hr := by
    rw [h.released] at hr
    cases hr

/-- A step that does not come in time leaves something in use. -/
theorem unsafe_step {a : Label k} (hok : ¬InTime s a) :
    ∃ t, next src s a = some t ∧ ¬Safe t := by
  cases a with
  | read =>
      simp only [InTime, not_forall] at hok
      obtain ⟨htail, hsig, hrun⟩ := hok
      refine ⟨{ s with reader := .returned 0, freed := true }, ?_, fun h => hrun (h.data rfl).1⟩
      rw [next, readerStep, htail, hsig]
      rfl
  | release =>
      simp only [InTime, not_forall, not_not] at hok
      obtain ⟨⟨ret, hret⟩, ho⟩ := hok
      refine ⟨{ s with released := true, m := SeqFile.gone }, ?_,
        fun h => h.file rfl (ho.congr rfl rfl rfl)⟩
      rw [next, hret]
  | start x data => exact absurd trivial hok
  | signal => exact absurd trivial hok
  | fire x => exact absurd trivial hok
  | callback => exact absurd trivial hok

/-- A page of 4 KiB for the output of a new reader. -/
def opened : State .w64 :=
  ⟨.entry, .idle, false, ⟨0, false, 0, 0⟩, false, false, false, ⟨4096, 0, []⟩, false⟩

theorem opened_opened : Opened opened := ⟨rfl, rfl, rfl, rfl, rfl, rfl, by decide, rfl, rfl⟩

def surroundings : Surroundings .w64 := ⟨250, true, 7, 1, ⟨ascii "cat", by decide⟩, by decide⟩

end Safety

/-! ## What is printed, and when -/

section Output
variable {k : LongSize}

/-- The lines of the calls, each with the time since the line before it. -/
def callbackLines : BitVec (longBits k) → List (Surroundings k) → List UInt8
  | _, [] => []
  | j, x :: xs => line x (x.jiffies - j) ++ callbackLines x.jiffies xs

def output (x : Surroundings k) (xs : List (Surroundings k)) : List UInt8 :=
  header ++ line x 0 ++ callbackLines x.jiffies xs

/-- `jiffies` in the last line. -/
def lastJiffies : BitVec (longBits k) → List (Surroundings k) → BitVec (longBits k)
  | j, [] => j
  | _, x :: xs => lastJiffies x.jiffies xs

/-- The calls of the callback in a run. -/
def fires : List (Label k) → List (Surroundings k)
  | [] => []
  | .fire x :: as => x :: fires as
  | _ :: as => fires as

theorem callbackLines_concat (j : BitVec (longBits k)) (xs : List (Surroundings k))
    (x : Surroundings k) :
    callbackLines j (xs ++ [x]) = callbackLines j xs ++ line x (x.jiffies - lastJiffies j xs) := by
  induction xs generalizing j with
  | nil => simp [callbackLines, lastJiffies]
  | cons y xs ih => simp [callbackLines, lastJiffies, ih]

theorem lastJiffies_concat (j : BitVec (longBits k)) (xs : List (Surroundings k))
    (x : Surroundings k) : lastJiffies j (xs ++ [x]) = x.jiffies := by
  induction xs generalizing j with
  | nil => rfl
  | cons y xs ih => exact ih y.jiffies

theorem fires_append (as bs : List (Label k)) : fires (as ++ bs) = fires as ++ fires bs := by
  induction as with
  | nil => rfl
  | cons a as ih =>
      cases a with
      | fire x => simp [fires, ih]
      | start x data => exact ih
      | read => exact ih
      | signal => exact ih
      | release => exact ih
      | callback => exact ih

theorem header_length : header.length = 44 := by decide

/-- No line is longer than 96 characters. -/
theorem line_length_le (x : Surroundings k) (delta : BitVec (longBits k)) :
    (line x delta).length ≤ 96 := by
  have htime := Jiq.long_width x.jiffies
  have hdelta := Jiq.long_width delta
  have hpid := Jiq.int_width x.pid
  have hcpu := Jiq.int_width x.cpu
  have hcomm := x.comm_length
  have hinirq : (decimalInt (if x.inInterrupt then 1 else 0)).length = 1 := by
    split_ifs
    · decide
    · decide
  have hblanks : (ascii "  ").length = 2 ∧ (ascii "     ").length = 5 ∧
      (ascii "    ").length = 4 ∧ (ascii "   ").length = 3 ∧ (ascii "\n").length = 1 := by decide
  obtain ⟨h2, h5, h4, h3, hnl⟩ := hblanks
  simp only [line, List.length_append, length_padLeft, h2, h5, h4, h3, hnl, hinirq]
  omega

theorem output_length_le (x : Surroundings k) (xs : List (Surroundings k)) :
    (output x xs).length ≤ 140 + 96 * xs.length := by
  have hlines : ∀ j, (callbackLines j xs).length ≤ 96 * xs.length := by
    induction xs with
    | nil => exact fun j => Nat.le_refl _
    | cons y xs ih =>
        intro j
        have hline := line_length_le y (y.jiffies - j)
        have hrest := ih y.jiffies
        simp only [callbackLines, List.length_append, List.length_cons]
        omega
  have hfirst := line_length_le x 0
  have hrest := hlines x.jiffies
  simp only [output, List.length_append, header_length]
  omega

/-- The call of the callback that is running has printed its line, but has not
counted it yet. -/
def uncounted : Callback k → ℤ
  | .decrement _ => 1
  | _ => 0

/-- The `jiffies` that a running call keeps for the next line. -/
def Keeping (c : Callback k) (j : BitVec (longBits k)) : Prop := c = .decrement j ∨ c = .rearm j

/-- The file holds these bytes, and none is lost. -/
structure Holds (m : SeqFile) (bytes : List UInt8) : Prop where
  text : m.text = bytes
  count : m.count = bytes.length
  size : 4096 ≤ m.size

/-- A reader that has begun at `x`, and whose callback has been called at `xs`. -/
structure Printed (src : Source) (x : Surroundings k) (xs : List (Surroundings k)) (t : State k) :
    Prop where
  begun : t.reader ≠ .entry
  m : ¬Back t → Holds t.m (output x xs)
  loops : t.data.loops + xs.length = JIT_ASYNC_LOOPS + uncounted t.callback
  nonneg : 0 ≤ t.data.loops
  keeps : ∀ j, Keeping t.callback j → j = lastJiffies x.jiffies xs
  prevjiffies : t.pending = true → t.data.prevjiffies = lastJiffies x.jiffies xs
  pendingExpires : ∀ tdelay, src = .timer tdelay → t.pending = true →
    t.data.expires = x.jiffies + .ofNat _ (xs.length + 1) * ticks k tdelay
  runningExpires : ∀ tdelay, src = .timer tdelay → ∀ j, Keeping t.callback j →
    t.data.expires = x.jiffies + .ofNat _ xs.length * ticks k tdelay
  due : ∀ tdelay, src = .timer tdelay → ∀ i y, xs[i]? = some y →
    ¬timeBefore y.jiffies (x.jiffies + .ofNat _ (i + 1) * ticks k tdelay)
  ended : t.reader = .returned 0 → t.freed = true
  woken : t.reader = .asleep → t.data.loops ≠ 0 ∨ t.waiting = false ∨ t.callback = .wake

end Output

section Printing
variable {k : LongSize} {src : Source} {x : Surroundings k} {xs : List (Surroundings k)}
  {s t : State k}

theorem output_concat (x : Surroundings k) (xs : List (Surroundings k)) (y : Surroundings k) :
    output x (xs ++ [y]) = output x xs ++ line y (y.jiffies - lastJiffies x.jiffies xs) := by
  rw [output, output, callbackLines_concat]
  simp only [List.append_assoc]

theorem Holds.append {m : SeqFile} {bytes : List UInt8} (h : Holds m bytes) {more : List UInt8}
    (hroom : bytes.length + more.length < 4096) : Holds (m.append more) (bytes ++ more) := by
  have hsize := h.size
  rw [Jiq.SeqFile.append_of_room (by rw [h.count]; omega)]
  exact ⟨by rw [h.text], by rw [h.count, List.length_append], hsize⟩

theorem ofNat_succ_mul {w : ℕ} (n : ℕ) (d : BitVec w) :
    .ofNat w (n + 1) * d = .ofNat w n * d + d := by
  rw [BitVec.ofNat_add, BitVec.add_mul, BitVec.one_mul]

theorem Opened.printed (hs : Opened s) (x : Surroundings k) (data : JitData k) :
    Printed src x [] (src.show x data s) := by
  obtain ⟨d, hd, hshow⟩ := show_eq src x data s
  have hline := line_length_le x 0
  have hheader := header_length
  have hempty : Holds s.m [] := ⟨hs.text, hs.count, hs.size⟩
  have hfirst : Holds (s.m.append header) header := hempty.append (by simp only [List.length_nil]; omega)
  have hm : Holds ((s.m.append header).append (line x 0)) (header ++ line x 0) :=
    hfirst.append (by omega)
  rw [hshow]
  have hidle := hs.callback
  constructor
  · exact nofun
  · intro _
    rw [output, callbackLines, List.append_nil]
    exact hm
  · show d.loops + 0 = _
    rw [hd.loops, hidle]
    rfl
  · show 0 ≤ d.loops
    rw [hd.loops]
    decide
  · intro j hj
    rw [hidle] at hj
    exact hj.elim nofun nofun
  · exact fun _ => hd.prevjiffies
  · intro tdelay hsrc _
    show d.expires = _
    rw [hd.expires tdelay hsrc, List.length_nil, ofNat_succ_mul]
    simp
  · intro tdelay _ j hj
    rw [hidle] at hj
    exact hj.elim nofun nofun
  · exact fun tdelay _ i y hy => by cases hy
  · exact nofun
  · exact nofun

theorem Printed.fire (hs : Printed src x xs s) (hc : Counts s) (hp : s.pending = true)
    {y : Surroundings k} (hdue : src.due y s.data) : Printed src x (xs ++ [y]) (fire y s) := by
  obtain ⟨hloops, hidle⟩ := hc.pending hp
  have hcount := hs.loops
  rw [hidle] at hcount
  have hfew : xs.length ≤ 4 := by
    simp only [JIT_ASYNC_LOOPS, uncounted] at hcount
    omega
  have hm : ¬Back s → Holds (s.m.append (line y (y.jiffies - s.data.prevjiffies)))
      (output x (xs ++ [y])) := by
    intro hb
    rw [hs.prevjiffies hp, output_concat]
    have hold := output_length_le x xs
    have hline := line_length_le y (y.jiffies - lastJiffies x.jiffies xs)
    exact (hs.m hb).append (by omega)
  have hlast : ∀ j, Keeping (Callback.decrement y.jiffies) j → j = y.jiffies := by
    intro j hj
    rcases hj with hj | hj
    · cases hj
      rfl
    · cases hj
  constructor
  · exact hs.begun
  · exact hm
  · show s.data.loops + (xs ++ [y]).length = JIT_ASYNC_LOOPS + 1
    simp only [uncounted] at hcount
    rw [List.length_append, List.length_singleton]
    omega
  · exact hs.nonneg
  · intro j hj
    rw [lastJiffies_concat]
    exact hlast j hj
  · exact nofun
  · exact fun tdelay hsrc => nofun
  · intro tdelay hsrc j hj
    rw [List.length_append]
    exact hs.pendingExpires tdelay hsrc hp
  · intro tdelay hsrc i z hz
    rcases Nat.lt_or_ge i xs.length with hi | hi
    · rw [List.getElem?_append_left hi] at hz
      exact hs.due tdelay hsrc i z hz
    · rw [List.getElem?_append_right hi] at hz
      obtain ⟨hi, rfl⟩ : i = xs.length ∧ z = y := by
        cases hn : i - xs.length with
        | zero =>
            rw [hn] at hz
            exact ⟨by omega, by simpa using hz.symm⟩
        | succ n =>
            rw [hn] at hz
            cases hz
      rw [hi, ← hs.pendingExpires tdelay hsrc hp]
      rw [hsrc] at hdue
      exact hdue
  · exact hs.ended
  · intro hasleep
    exact .inl (by show s.data.loops ≠ 0; omega)

theorem Printed.callback (hs : Printed src x xs s) (hc : Counts s) (h : Calls src s t) :
    Printed src x xs t := by
  have hcount := hs.loops
  cases h with
  | @again j hj hmore =>
      rw [hj] at hcount
      exact { hs with
        loops := by
          show s.data.loops - 1 + xs.length = JIT_ASYNC_LOOPS + 0
          simp only [uncounted] at hcount
          omega
        nonneg := by
          show 0 ≤ s.data.loops - 1
          have hpos := hc.decrement j hj
          omega
        keeps := fun i hi => hs.keeps i (.inl (by rcases hi with hi | hi <;> cases hi; exact hj))
        runningExpires := fun tdelay hsrc i _ => hs.runningExpires tdelay hsrc j (.inl hj)
        woken := fun _ => .inl (by show s.data.loops - 1 ≠ 0; omega) }
  | @last j hj hlast =>
      rw [hj, hlast] at hcount
      exact { hs with
        loops := by
          show 0 + (xs.length : ℤ) = JIT_ASYNC_LOOPS + 0
          simp only [uncounted] at hcount
          omega
        nonneg := Int.le_refl 0
        keeps := fun i hi => hi.elim nofun nofun
        runningExpires := fun tdelay hsrc i hi => hi.elim nofun nofun
        woken := fun _ => .inr (.inr rfl) }
  | @rearm j hj =>
      have hkeep := hs.keeps j (.inr hj)
      rw [hj] at hcount
      exact { hs with
        loops := by
          show (src.rearm j s.data).loops + _ = _
          rw [rearm_loops]
          exact hcount
        nonneg := by
          show 0 ≤ (src.rearm j s.data).loops
          rw [rearm_loops]
          exact hs.nonneg
        keeps := fun i hi => hi.elim nofun nofun
        prevjiffies := fun _ => by cases src <;> exact hkeep
        pendingExpires := fun tdelay hsrc _ => by
          rw [ofNat_succ_mul, ← BitVec.add_assoc, ← hs.runningExpires tdelay hsrc j (.inr hj), hsrc]
          rfl
        runningExpires := fun tdelay hsrc i hi => hi.elim nofun nofun
        woken := fun _ => .inl (by
          show (src.rearm j s.data).loops ≠ 0
          rw [rearm_loops]
          have hpos := hc.rearm j hj
          omega) }
  | wake hw =>
      rw [hw] at hcount
      exact { hs with
        loops := hcount
        keeps := fun i hi => hi.elim nofun nofun
        runningExpires := fun tdelay hsrc i hi => hi.elim nofun nofun
        woken := fun _ => .inr (.inl rfl) }
  | unlock hu =>
      rw [hu] at hcount
      exact { hs with
        loops := hcount
        keeps := fun i hi => hi.elim nofun nofun
        runningExpires := fun tdelay hsrc i hi => hi.elim nofun nofun
        woken := fun ha => by
          rcases hs.woken ha with hloops | hwait | hwake
          · exact .inl hloops
          · exact .inr (.inl hwait)
          · rw [hu] at hwake
            cases hwake }

theorem Printed.read (hs : Printed src x xs s) (h : Reads s t) : Printed src x xs t := by
  constructor
  · exact h.entry
  · intro hb
    rw [h.m.resolve_left hb]
    exact hs.m h.inside.2
  · rw [h.data, h.callback]
    exact hs.loops
  · rw [h.data]
    exact hs.nonneg
  · rw [h.callback]
    exact hs.keeps
  · rw [h.pending, h.data]
    exact hs.prevjiffies
  · rw [h.pending, h.data]
    exact hs.pendingExpires
  · rw [h.callback, h.data]
    exact hs.runningExpires
  · exact hs.due
  · exact h.ended
  · intro hasleep
    rw [h.data]
    exact .inl (h.asleep hasleep)

theorem Printed.moves {a : Label k} (hs : Printed src x xs s) (hc : Counts s)
    (h : Moves src s a t) : Printed src x (xs ++ fires [a]) t := by
  cases h with
  | noMemory y he => exact absurd he hs.begun
  | start y data he => exact absurd he hs.begun
  | fire hp hidle hdue => exact hs.fire hc hp hdue
  | read h =>
      rw [show fires [Label.read (k := k)] = [] from rfl, List.append_nil]
      exact hs.read h
  | callback h =>
      rw [show fires [Label.callback (k := k)] = [] from rfl, List.append_nil]
      exact hs.callback hc h
  | signal =>
      rw [show fires [Label.signal (k := k)] = [] from rfl, List.append_nil]
      exact { hs with }
  | release hr =>
      rw [show fires [Label.release (k := k)] = [] from rfl, List.append_nil]
      exact { hs with m := fun hb => absurd hr hb }

theorem Printed.run (hs : Printed src x xs s) (hk : Kept s) {as : List (Label k)}
    (hrun : (system k src).run s as = some t) : Printed src x (xs ++ fires as) t ∧ Kept t := by
  induction as generalizing s xs with
  | nil =>
      rw [System.run_nil, Option.some.injEq] at hrun
      rw [← hrun, show fires ([] : List (Label k)) = [] from rfl, List.append_nil]
      exact ⟨hs, hk⟩
  | cons a as ih =>
      obtain ⟨u, hu, hrest⟩ := Option.bind_eq_some_iff.mp hrun
      have hmove := JitAsync.moves hu
      rw [← List.singleton_append, fires_append, ← List.append_assoc]
      exact ih (hs.moves hk.counts hmove) (hk.moves hmove) hrest

/-- What the reader's file and its data look like in the course of a call that
has begun at `x`, after calls of the callback at `xs`. The file is the reader's
output until the show function comes back. -/
structure Shows (src : Source) (x : Surroundings k) (xs : List (Surroundings k)) (t : State k) :
    Prop where
  text : ¬Back t → t.m.text = output x xs
  whole : t.reader = .tail → t.signal = false → xs.length = 5
  atMost : xs.length ≤ 5
  onTime : ∀ tdelay, src = .timer tdelay → ∀ i y, xs[i]? = some y →
    ¬timeBefore y.jiffies (x.jiffies + .ofNat _ (i + 1) * ticks k tdelay)
  ended : t.reader = .returned 0 → xs.length = 5 ∧ t.freed = true
  interrupted : t.reader = .returned (-ERESTARTSYS) → t.freed = false
  woken : t.reader = .asleep → t.data.loops = 0 → t.callback ≠ .wake → t.waiting = false

/-- Calls of the callback and `loops` make five. -/
theorem Printed.length_le (hs : Printed src x xs t) (hk : Kept t) :
    xs.length ≤ 5 ∧ (t.data.loops = 0 → xs.length = 5) := by
  have hcount := hs.loops
  have hnonneg := hs.nonneg
  rw [JIT_ASYNC_LOOPS] at hcount
  by_cases hc : ∃ j, t.callback = .decrement j
  · obtain ⟨j, hj⟩ := hc
    have hpos := hk.counts.decrement j hj
    rw [hj, uncounted] at hcount
    omega
  · have hzero : uncounted t.callback = 0 := by
      unfold uncounted
      split
      · rename_i j hj
        exact absurd ⟨j, hj⟩ hc
      · rfl
    rw [hzero] at hcount
    omega

theorem Printed.shows (hs : Printed src x xs t) (hk : Kept t) : Shows src x xs t where
  text hb := (hs.m hb).text
  whole htail hsig := (hs.length_le hk).2 (hk.tail htail hsig)
  atMost := (hs.length_le hk).1
  onTime := hs.due
  ended hret := by
    have hfreed := hs.ended hret
    exact ⟨(hs.length_le hk).2 (hk.freed hfreed).2, hfreed⟩
  interrupted hret := by
    by_contra hf
    have h := (hk.freed (by simpa using hf)).1
    rw [hret] at h
    cases h
  woken hasleep hloops hwake := by
    rcases hs.woken hasleep with h | h | h
    · exact absurd hloops h
    · exact h
    · exact absurd h hwake

/-- Whatever the order of the steps, until it comes back the reader's file holds
the header, its line and one line for each call of the callback so far, at most
five and five when it frees the data; no call of a timer comes before its turn,
however late the ones before it were. -/
theorem shows_run (hs : Opened s) (data : JitData k) {as : List (Label k)}
    (hrun : (system k src).run s (.start x (some data) :: as) = some t) :
    Shows src x (fires as) t := by
  have hn : (system k src).next s (.start x (some data)) = some (src.show x data s) :=
    if_pos hs.reader
  rw [System.run_cons, hn] at hrun
  obtain ⟨hend, hkept⟩ := (hs.printed x data).run (hs.kept.start hs.reader x data) hrun
  exact hend.shows hkept

/-- A call of the timer at some ticks after the reader's line. -/
def later (n : BitVec (longBits .w64)) : Surroundings .w64 :=
  { surroundings with jiffies := surroundings.jiffies + n }

/-- The reader sleeps through five calls of a timer of 10 ticks, the third of
them late, and comes back. -/
def fiveCalls : List (Label .w64) :=
  [.read, .read, .read] ++
    ([10, 20, 34, 40].map fun n => [.fire (later n), .callback, .callback]).flatten ++
      [.fire (later 50), .callback, .callback, .callback, .read, .read, .read, .read]

theorem shows_run_fiveCalls : ∃ t,
    (system .w64 (.timer 10)).run opened (.start surroundings (some ⟨0, false, 0, 0⟩) :: fiveCalls) =
      some t ∧ t.reader = .returned 0 ∧
        Shows (.timer 10) surroundings ([10, 20, 34, 40, 50].map later) t :=
  ⟨_, rfl, rfl, @shows_run _ _ _ _ _ opened_opened ⟨0, false, 0, 0⟩ fiveCalls rfl⟩

end Printing

end LinuxDeviceDrivers.JitAsync
