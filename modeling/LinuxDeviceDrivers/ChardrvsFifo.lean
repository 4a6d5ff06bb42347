import LinuxDeviceDrivers.KernelPrimitives
import LinuxDeviceDrivers.ThreadProgram

/-!
# The FIFO of the chardrvs driver: read, write and poll

Every call of `chardrvs_write_fifo`, `chardrvs_read_fifo` and `chardrvs_poll`
is a thread of its own with a number of its own, so a run may overlap any
number of calls in any order. One step of a call is one access to the shared
device: taking or dropping a mutex, reading `dev->avail`, sampling the kfifo,
advancing one of its indices, loading the free space, storing it.

The tail that both transfers share (`mutex_lock(&dev->lock); dev->avail =
kfifo_avail(&dev->myfifo); mutex_unlock(&dev->lock);` and the return) is the
control point `refresh`. Sleeping follows the kernel: a sleeper evaluates its
condition, parks if it is false, and evaluates it again after each wake-up.
Bytes, sizes and errors are kept exactly; printing is left out. Lengths are
natural numbers: the kernel caps the count of a read or write below `2 ^ 31`, so
its conversions to `unsigned int` cut nothing.
-/
namespace LinuxDeviceDrivers.ChardrvsFifo
open KernelPrimitives TransitionSystem ThreadProgram

inductive Mutex where
  | rFLock | wFLock | lock
  deriving DecidableEq, Repr

/-- The fields of `struct chardrvs_priv_dev` that read, write and poll use. A
mutex is the number of the call that owns it. -/
structure ChardrvsPrivDev where
  myfifo : Kfifo
  avail : ℕ
  owner : Mutex → Option ℕ

/-- `setup_chardrvs`: the cached free space starts as the module parameter,
the kfifo rounds it up to a power of two. -/
def setupChardrvs (fsize : BitVec 32) (mem : Bool) : Except ℤ ChardrvsPrivDev :=
  match kfifoAlloc fsize mem with
  | .error e => .error e
  | .ok fifo => .ok { myfifo := fifo, avail := fsize.toNat, owner := fun _ => none }

/-- The device with its history: whether `avail` was ever refreshed, the calls
in the order in which they took each mutex, and the bytes each call has moved.
The driver's steps do not see the history. -/
structure Shared extends ChardrvsPrivDev where
  refreshed : Bool := false
  order : Mutex → List ℕ := fun _ => []
  moved : ℕ → List UInt8 := fun _ => []

/-- The two calls that move bytes. -/
inductive Call where
  | write (buf : WriteBuf)
  | read (buf : ReadBuf)
  deriving DecidableEq, Repr

inductive WritePc where
  | lock | wait | parked | fromUser
  | publish (x : Transfer)
  | unlock (x : Transfer)
  deriving DecidableEq, Repr

inductive ReadPc where
  | lock | toUser
  | consume (x : Transfer)
  | wakeUp (x : Transfer)
  | unlock (x : Transfer)
  deriving DecidableEq, Repr

inductive RefreshPc where
  | lock | load
  | store (avail : ℕ)
  | unlock
  deriving DecidableEq, Repr

inductive PollPc where
  | lock | pollWait | unlock | check | parked
  deriving DecidableEq, Repr

/-- `queued` and `triggered` are the entry of a poller on the wait queue: a
wake-up after `poll_wait` makes it poll again instead of sleeping. A poller that
is `interrupted` polls once more before it gives up. -/
inductive Pc where
  | unstarted
  | write (buf : WriteBuf) (p : WritePc)
  | read (buf : ReadBuf) (p : ReadPc)
  | refresh (call : Call) (x : Transfer) (p : RefreshPc)
  | poll (queued triggered interrupted : Bool) (p : PollPc)
  | done (call : Call) (ret : ℤ)
  | pollDone (mask : ℤ)
  deriving DecidableEq, Repr

/-- What the scheduler picks for a thread: enter the driver, run on, or take a signal. -/
inductive Choice where
  | call (c : Call)
  | callPoll
  | run
  | signal
  deriving DecidableEq, Repr

inductive Effect where
  | skip
  | acquire (m : Mutex)
  | release (m : Mutex)
  | publish (bytes : List UInt8)
  | consume (bytes : List UInt8)
  | store (avail : ℕ)
  | wakeUp
  deriving DecidableEq, Repr

def POLLOUT : ℤ := 4

def chardrvsWriteFifo (dev : ChardrvsPrivDev) (buf : WriteBuf) : WritePc → Option (Effect × Pc)
  | .lock =>
      if dev.owner .wFLock = none then some (.acquire .wFLock, .write buf .wait) else none
  | .wait =>
      if buf.count ≤ dev.avail then some (.skip, .write buf .fromUser)
      else some (.skip, .write buf .parked)
  | .parked => none
  | .fromUser => some (.skip, .write buf (.publish (dev.myfifo.fromUser buf)))
  | .publish x => some (.publish x.bytes, .write buf (.unlock x))
  | .unlock x => some (.release .wFLock, .refresh (.write buf) x .lock)

def chardrvsReadFifo (dev : ChardrvsPrivDev) (buf : ReadBuf) : ReadPc → Option (Effect × Pc)
  | .lock =>
      if dev.owner .rFLock = none then some (.acquire .rFLock, .read buf .toUser) else none
  | .toUser => some (.skip, .read buf (.consume (dev.myfifo.toUser buf)))
  | .consume x => some (.consume x.bytes, .read buf (.wakeUp x))
  | .wakeUp x => some (.wakeUp, .read buf (.unlock x))
  | .unlock x => some (.release .rFLock, .refresh (.read buf) x .lock)

/-- The common end of both transfers. -/
def refreshAvail (dev : ChardrvsPrivDev) (call : Call) (x : Transfer) :
    RefreshPc → Option (Effect × Pc)
  | .lock => if dev.owner .lock = none then some (.acquire .lock, .refresh call x .load) else none
  | .load => some (.skip, .refresh call x (.store dev.myfifo.avail))
  | .store v => some (.store v, .refresh call x .unlock)
  | .unlock => some (.release .lock, .done call x.result)

/-- `chardrvs_poll` inside the loop of the poll system call. -/
def chardrvsPoll (dev : ChardrvsPrivDev) (queued triggered interrupted : Bool) :
    PollPc → Option (Effect × Pc)
  | .lock =>
      if dev.owner .lock = none then
        some (.acquire .lock, .poll queued triggered interrupted .pollWait)
      else none
  | .pollWait => some (.skip, .poll true triggered interrupted .unlock)
  | .unlock => some (.release .lock, .poll queued triggered interrupted .check)
  | .check =>
      if dev.avail ≠ 0 then some (.skip, .pollDone POLLOUT)
      else if interrupted then some (.skip, .pollDone (-EINTR))
      else if triggered then some (.skip, .poll queued false false .lock)
      else some (.skip, .poll queued false false .parked)
  | .parked => none

/-- The interruptible points. A signal ends `wait_event_interruptible`, which
tests its condition once more: if that is false still, the write returns with
`w_f_lock` held. -/
def signalled (dev : ChardrvsPrivDev) : Pc → Option Pc
  | .write buf .lock => some (.done (.write buf) (-ERESTARTSYS))
  | .write buf .parked =>
      if buf.count ≤ dev.avail then some (.write buf .fromUser)
      else some (.done (.write buf) (-ERESTARTSYS))
  | .read buf .lock => some (.done (.read buf) (-ERESTARTSYS))
  | .poll queued _ _ .parked => some (.poll queued false true .lock)
  | _ => none

def Call.enter : Call → Pc
  | .write buf => .write buf .lock
  | .read buf => .read buf .lock

def move (dev : ChardrvsPrivDev) : Choice → Pc → Option (Effect × Pc)
  | .call c, .unstarted => some (.skip, c.enter)
  | .callPoll, .unstarted => some (.skip, .poll false false false .lock)
  | .run, .write buf p => chardrvsWriteFifo dev buf p
  | .run, .read buf p => chardrvsReadFifo dev buf p
  | .run, .refresh call x p => refreshAvail dev call x p
  | .run, .poll queued triggered interrupted p => chardrvsPoll dev queued triggered interrupted p
  | .signal, p => (signalled dev p).map fun p' => (.skip, p')
  | _, _ => none

def effect (c : ℕ) : Effect → Shared → Shared
  | .skip, s => s
  | .acquire m, s =>
      { s with
        owner := Function.update s.owner m (some c)
        order := Function.update s.order m (s.order m ++ [c]) }
  | .release m, s => { s with owner := Function.update s.owner m none }
  | .publish bytes, s =>
      { s with
        myfifo := s.myfifo.publish bytes
        moved := Function.update s.moved c bytes }
  | .consume bytes, s =>
      { s with
        myfifo := s.myfifo.consume bytes.length
        moved := Function.update s.moved c bytes }
  | .store v, s => { s with avail := v, refreshed := true }
  | .wakeUp, s => s

/-- `wake_up_interruptible(&dev->wq_f)` as a sleeper or a queued poller sees it. -/
def Pc.woken : Pc → Pc
  | .write buf .parked => .write buf .wait
  | .poll true _ interrupted .parked => .poll true false interrupted .lock
  | .poll true _ interrupted p => .poll true true interrupted p
  | p => p

def others : Effect → Pc → Pc
  | .wakeUp, p => p.woken
  | _, p => p

/-- Only a wake-up acts on the other calls. -/
theorem others_of_woken {I : Pc → Prop} {p : Pc} (e : Effect) (h : I p) (hwoken : I p.woken) :
    I (others e p) := by
  cases e with
  | wakeUp => exact hwoken
  | _ => exact h

def program : Program Shared Choice Effect Pc where
  move s := move s.toChardrvsPrivDev
  effect := effect
  others := others

@[simp] theorem program_move (s : Shared) : program.move s = move s.toChardrvsPrivDev := rfl
@[simp] theorem program_effect : program.effect = effect := rfl
@[simp] theorem program_others : program.others = others := rfl

abbrev State := Config Shared Pc

/-- The device right after `setup_chardrvs`, with no call made yet. -/
def initial (dev : ChardrvsPrivDev) : State := ⟨{ toChardrvsPrivDev := dev }, fun _ => .unstarted⟩

/-- The driver after a `setup_chardrvs` that succeeded with this `fsize`. -/
def system (fsize : BitVec 32) : System State (ℕ × Choice) :=
  program.system fun s => ∃ dev, setupChardrvs fsize true = .ok dev ∧ s = initial dev

/-- Every move of a call, with the condition under which it is taken. -/
inductive Edge (dev : ChardrvsPrivDev) : Choice → Pc → Effect → Pc → Prop
  | enter (c : Call) : Edge dev (.call c) .unstarted .skip c.enter
  | enterPoll : Edge dev .callPoll .unstarted .skip (.poll false false false .lock)
  | writeLock (buf : WriteBuf) : dev.owner .wFLock = none →
      Edge dev .run (.write buf .lock) (.acquire .wFLock) (.write buf .wait)
  | writePass (buf : WriteBuf) : buf.count ≤ dev.avail →
      Edge dev .run (.write buf .wait) .skip (.write buf .fromUser)
  | writePark (buf : WriteBuf) : dev.avail < buf.count →
      Edge dev .run (.write buf .wait) .skip (.write buf .parked)
  | fromUser (buf : WriteBuf) :
      Edge dev .run (.write buf .fromUser) .skip (.write buf (.publish (dev.myfifo.fromUser buf)))
  | publish (buf : WriteBuf) (x : Transfer) :
      Edge dev .run (.write buf (.publish x)) (.publish x.bytes) (.write buf (.unlock x))
  | writeUnlock (buf : WriteBuf) (x : Transfer) :
      Edge dev .run (.write buf (.unlock x)) (.release .wFLock) (.refresh (.write buf) x .lock)
  | readLock (buf : ReadBuf) : dev.owner .rFLock = none →
      Edge dev .run (.read buf .lock) (.acquire .rFLock) (.read buf .toUser)
  | toUser (buf : ReadBuf) :
      Edge dev .run (.read buf .toUser) .skip (.read buf (.consume (dev.myfifo.toUser buf)))
  | consume (buf : ReadBuf) (x : Transfer) :
      Edge dev .run (.read buf (.consume x)) (.consume x.bytes) (.read buf (.wakeUp x))
  | wakeUp (buf : ReadBuf) (x : Transfer) :
      Edge dev .run (.read buf (.wakeUp x)) .wakeUp (.read buf (.unlock x))
  | readUnlock (buf : ReadBuf) (x : Transfer) :
      Edge dev .run (.read buf (.unlock x)) (.release .rFLock) (.refresh (.read buf) x .lock)
  | refreshLock (c : Call) (x : Transfer) : dev.owner .lock = none →
      Edge dev .run (.refresh c x .lock) (.acquire .lock) (.refresh c x .load)
  | load (c : Call) (x : Transfer) :
      Edge dev .run (.refresh c x .load) .skip (.refresh c x (.store dev.myfifo.avail))
  | store (c : Call) (x : Transfer) (v : ℕ) :
      Edge dev .run (.refresh c x (.store v)) (.store v) (.refresh c x .unlock)
  | refreshUnlock (c : Call) (x : Transfer) :
      Edge dev .run (.refresh c x .unlock) (.release .lock) (.done c x.result)
  | pollLock (q g i : Bool) : dev.owner .lock = none →
      Edge dev .run (.poll q g i .lock) (.acquire .lock) (.poll q g i .pollWait)
  | pollWait (q g i : Bool) : Edge dev .run (.poll q g i .pollWait) .skip (.poll true g i .unlock)
  | pollUnlock (q g i : Bool) :
      Edge dev .run (.poll q g i .unlock) (.release .lock) (.poll q g i .check)
  | pollReady (q g i : Bool) : dev.avail ≠ 0 →
      Edge dev .run (.poll q g i .check) .skip (.pollDone POLLOUT)
  | pollInterrupted (q g : Bool) : dev.avail = 0 →
      Edge dev .run (.poll q g true .check) .skip (.pollDone (-EINTR))
  | pollAgain (q : Bool) : dev.avail = 0 →
      Edge dev .run (.poll q true false .check) .skip (.poll q false false .lock)
  | pollPark (q : Bool) : dev.avail = 0 →
      Edge dev .run (.poll q false false .check) .skip (.poll q false false .parked)
  | signalWriteLock (buf : WriteBuf) :
      Edge dev .signal (.write buf .lock) .skip (.done (.write buf) (-ERESTARTSYS))
  | signalPass (buf : WriteBuf) : buf.count ≤ dev.avail →
      Edge dev .signal (.write buf .parked) .skip (.write buf .fromUser)
  | signalWait (buf : WriteBuf) : dev.avail < buf.count →
      Edge dev .signal (.write buf .parked) .skip (.done (.write buf) (-ERESTARTSYS))
  | signalReadLock (buf : ReadBuf) :
      Edge dev .signal (.read buf .lock) .skip (.done (.read buf) (-ERESTARTSYS))
  | signalPoll (q g i : Bool) :
      Edge dev .signal (.poll q g i .parked) .skip (.poll q false true .lock)

section Inversion
variable {dev : ChardrvsPrivDev} {e : Effect} {p' : Pc}

theorem edge_of_write {buf : WriteBuf} {p : WritePc}
    (h : chardrvsWriteFifo dev buf p = some (e, p')) : Edge dev .run (.write buf p) e p' := by
  cases p with
  | lock =>
      simp only [chardrvsWriteFifo] at h
      split_ifs at h with ho
      cases h
      exact .writeLock buf ho
  | wait =>
      simp only [chardrvsWriteFifo] at h
      split_ifs at h with ha <;> cases h
      · exact .writePass buf ha
      · exact .writePark buf (Nat.lt_of_not_le ha)
  | parked => cases h
  | fromUser => cases h; exact .fromUser buf
  | publish x => cases h; exact .publish buf x
  | unlock x => cases h; exact .writeUnlock buf x

theorem edge_of_read {buf : ReadBuf} {p : ReadPc}
    (h : chardrvsReadFifo dev buf p = some (e, p')) : Edge dev .run (.read buf p) e p' := by
  cases p with
  | lock =>
      simp only [chardrvsReadFifo] at h
      split_ifs at h with ho
      cases h
      exact .readLock buf ho
  | toUser => cases h; exact .toUser buf
  | consume x => cases h; exact .consume buf x
  | wakeUp x => cases h; exact .wakeUp buf x
  | unlock x => cases h; exact .readUnlock buf x

theorem edge_of_refresh {c : Call} {x : Transfer} {p : RefreshPc}
    (h : refreshAvail dev c x p = some (e, p')) : Edge dev .run (.refresh c x p) e p' := by
  cases p with
  | lock =>
      simp only [refreshAvail] at h
      split_ifs at h with ho
      cases h
      exact .refreshLock c x ho
  | load => cases h; exact .load c x
  | store v => cases h; exact .store c x v
  | unlock => cases h; exact .refreshUnlock c x

theorem edge_of_poll {q g i : Bool} {p : PollPc}
    (h : chardrvsPoll dev q g i p = some (e, p')) : Edge dev .run (.poll q g i p) e p' := by
  cases p with
  | lock =>
      simp only [chardrvsPoll] at h
      split_ifs at h with ho
      cases h
      exact .pollLock q g i ho
  | pollWait => cases h; exact .pollWait q g i
  | unlock => cases h; exact .pollUnlock q g i
  | check =>
      simp only [chardrvsPoll] at h
      split_ifs at h with ha hi hg
      · cases h
        exact .pollReady q g i ha
      · cases h
        rw [hi]
        exact .pollInterrupted q g (not_ne_iff.mp ha)
      · cases h
        rw [hg, Bool.eq_false_iff.mpr hi]
        exact .pollAgain q (not_ne_iff.mp ha)
      · cases h
        rw [Bool.eq_false_iff.mpr hg, Bool.eq_false_iff.mpr hi]
        exact .pollPark q (not_ne_iff.mp ha)
  | parked => cases h

theorem edge_of_signal {p : Pc}
    (h : (signalled dev p).map (fun p' => (Effect.skip, p')) = some (e, p')) :
    Edge dev .signal p e p' := by
  obtain ⟨r, hr, he⟩ := Option.map_eq_some_iff.mp h
  cases he
  unfold signalled at hr
  split at hr
  · cases hr
    exact .signalWriteLock _
  · split_ifs at hr with ha
    · cases hr
      exact .signalPass _ ha
    · cases hr
      exact .signalWait _ (Nat.lt_of_not_le ha)
  · cases hr
    exact .signalReadLock _
  · cases hr
    exact .signalPoll _ _ _
  · cases hr

theorem edge_of_move {k : Choice} {p : Pc} (h : move dev k p = some (e, p')) :
    Edge dev k p e p' := by
  unfold move at h
  split at h
  · cases h; exact .enter _
  · cases h; exact .enterPoll
  · exact edge_of_write h
  · exact edge_of_read h
  · exact edge_of_refresh h
  · exact edge_of_poll h
  · exact edge_of_signal h
  · cases h

theorem edge_of_step {s t : State} {c : ℕ} {k : Choice} {e : Effect} (h : program.Step s c k e t) :
    Edge s.shared.toChardrvsPrivDev k (s.pc c) e (t.pc c) :=
  edge_of_move h.move

end Inversion

theorem setupChardrvs_ok {fsize : BitVec 32} {mem : Bool} {dev : ChardrvsPrivDev}
    (h : setupChardrvs fsize mem = .ok dev) :
    dev.myfifo.data = [] ∧ dev.avail ≤ dev.myfifo.size ∧ 2 ≤ dev.myfifo.size ∧
      dev.owner = fun _ => none := by
  unfold setupChardrvs at h
  split at h
  · cases h
  · rename_i fifo hf
    cases h
    obtain ⟨hd, hle, h2, _⟩ := kfifoAlloc_ok hf
    exact ⟨hd, hle, h2, rfl⟩

/-- `DEFAULT_FIFO_SIZE` -/
def defaultFsize : BitVec 32 := 16

/-- The device that `setup_chardrvs` leaves for the default module parameter. -/
def defaultDev : ChardrvsPrivDev := ⟨⟨16, []⟩, 16, fun _ => none⟩

theorem start_default : (system defaultFsize).start (initial defaultDev) := ⟨defaultDev, rfl, rfl⟩

/-- The next `n` steps of call `c`, for writing schedules. -/
def steps (c n : ℕ) : List (ℕ × Choice) := List.replicate n (c, .run)

end LinuxDeviceDrivers.ChardrvsFifo
