import LinuxDeviceDrivers.FifoFileOps
import LinuxDeviceDrivers.McdevdrvsInit

/-!
# File operations of mcdevdrvs while it is initialised

Thread 0 is `mcdevdrvs_init`. From the moment `cdev_add` has returned for a
minor until `cdev_del`, any number of processes may open it, and read and write
through their handles, also when the kfifos are not allocated yet. Nothing in
the driver passes a mutex to `mutex_init`, so every read and write locks an
unprepared one.
-/
namespace LinuxDeviceDrivers.McdevdrvsFiles
open KernelPrimitives TransitionSystem ThreadProgram FifoFileOps
open McdevdrvsInit (InitPc Held mcdevdrvsInit)

/-- What the driver holds, the zeroed `devcs`, the mutexes that were passed to
`mutex_init`, and the `private_data` of each file, unset while it is opened. -/
structure Shared where
  held : Held
  devcs : ℕ → FifoDevc
  inited : ℕ → Mutex → Bool
  files : ℕ → Option (Option ℕ)

inductive Pc where
  | init (p : InitPc)
  | unstarted
  | opening (f : ℕ) (iCdev : Cdev)
  | opened (f : ℕ)
  | op (d f : ℕ) (call : Call) (st : Stage)
  | returned (d f : ℕ) (call : Call) (out : Outcome)
deriving DecidableEq, Repr

inductive Choice where
  | kernel (res : Option Errno)
  | openInode (f d : ℕ)
  | call (f : ℕ) (call : Call)
  | run
  | signal
deriving DecidableEq, Repr

inductive Effect where
  | skip
  | init (e : McdevdrvsInit.Effect)
  | newFile (f : ℕ)
  | setPrivate (f d : ℕ)
  | op (d : ℕ) (a : Action)
deriving DecidableEq, Repr

def driverOpenFifo (f : ℕ) (iCdev : Cdev) : Effect × Pc :=
  (.setPrivate f (containerOf iCdev), .opened f)

def driverWriteFifo : FifoDevc → WriteBuf → Stage → Option (Action × (Stage ⊕ Outcome)) :=
  writeFifo

def driverReadFifo : FifoDevc → ReadBuf → Stage → Option (Action × (Stage ⊕ Outcome)) :=
  readFifo

/-- A step of a read or write on a handle whose `private_data` is minor `d`. -/
def fileOp (s : Shared) (d f : ℕ) (call : Call) (st : Stage) : Option (Effect × Pc) :=
  let step := match call with
    | .write buf => driverWriteFifo (s.devcs d) buf st
    | .read buf => driverReadFifo (s.devcs d) buf st
  step.map fun
    | (a, .inl st) => (.op d a, .op d f call st)
    | (a, .inr out) => (.op d a, .returned d f call out)

section Driver
variable (n : ℕ) (fsize : BitVec 32)

def initStep (res : Option Errno) : InitPc → Option (Effect × Pc)
  | .returned _ => none
  | p => some (.init (mcdevdrvsInit n fsize res p).1, .init (mcdevdrvsInit n fsize res p).2)

def move (s : Shared) : Choice → Pc → Option (Effect × Pc)
  | .kernel res, .init p => initStep n fsize res p
  | .openInode f d, .unstarted =>
      if s.files f = none ∧ .cdev d ∈ s.held.ledger.held then some (.newFile f, .opening f ⟨d⟩)
      else none
  | .run, .opening f iCdev => some (driverOpenFifo f iCdev)
  | .call f call, .unstarted =>
      match s.files f with
      | some (some d) => some (.skip, .op d f call .lock)
      | _ => none
  | .run, .op d f call st => fileOp s d f call st
  | .signal, .op d f call .lock => some (.skip, .returned d f call .interrupted)
  | _, _ => none

/-- `kfifo_alloc` and `kfifo_free` on the kfifo of a minor. -/
def setFifo (devcs : ℕ → FifoDevc) (d : ℕ) (f : Kfifo) : ℕ → FifoDevc :=
  Function.update devcs d { devcs d with myfifo := f }

def effect (c : ℕ) : Effect → Shared → Shared
  | .skip, s => s
  | .init e, s =>
      { s with
        held := McdevdrvsInit.effect n e s.held
        devcs := match e with
          | .allocFifo i f => setFifo s.devcs i f
          | .freeFifo i => setFifo s.devcs i ⟨1, []⟩
          | _ => s.devcs }
  | .newFile f, s => { s with files := Function.update s.files f (some none) }
  | .setPrivate f d, s => { s with files := Function.update s.files f (some (some d)) }
  | .op d a, s => { s with devcs := Function.update s.devcs d (a.apply c (s.devcs d)) }

def program : Program Shared Choice Effect Pc where
  move := move n fsize
  effect := effect n
  others _ p := p

abbrev State := Config Shared Pc

/-- `prv_drv` is a zeroed global, so the mask of every kfifo is zero. -/
def initial : State where
  shared := ⟨⟨.empty, false⟩, fun _ => ⟨⟨1, []⟩, fun _ => none⟩, fun _ _ => false, fun _ => none⟩
  pc c := if c = 0 then .init .allocChrdevRegion else .unstarted

def system : System State (ℕ × Choice) := (program n fsize).system fun s => s = initial

/-- A read or write locks only a mutex that was passed to `mutex_init`, and uses
only a kfifo that is allocated. -/
def Prepared (s : State) (a : ℕ × Choice) : Prop :=
  ∀ t, (system n fsize).next s a = some t → ∀ d f call st, s.pc a.1 = .op d f call st →
    (st = .lock → s.shared.inited d (mutexOf call) = true) ∧
      (st.usesFifo = true → .kfifo d ∈ s.shared.held.ledger.held)

/-- No read or write calls `mutex_lock_interruptible`. -/
def LocksNothing (s : State) (a : ℕ × Choice) : Prop :=
  ∀ t, (system n fsize).next s a = some t → ∀ d f call, s.pc a.1 ≠ .op d f call .lock

end Driver

section Runs
variable {n : ℕ} {fsize : BitVec 32} {s t : State} {c : ℕ} {k : Choice} {e : Effect}

/-- A call begins at its mutex, and gets further only by a step of its own. -/
theorem op_of_move {s : Shared} {p : Pc} {d f : ℕ} {call : Call} {st : Stage}
    (h : move n fsize s k p = some (e, .op d f call st)) :
    st = .lock ∨ ∃ d f call st, p = .op d f call st := by
  unfold move at h
  split at h
  · rename_i res p
    cases p <;> cases h
  · split_ifs at h
    cases h
  · cases h
  · split at h
    · cases h
      exact .inl rfl
    · cases h
  · exact .inr ⟨_, _, _, _, rfl⟩
  · cases h
  · cases h

/-- No step of the driver is a `mutex_init`. -/
theorem effect_inited (s : Shared) : (effect n c e s).inited = s.inited := by
  cases e <;> rfl

def NoneInited (s : State) : Prop := ∀ d m, s.shared.inited d m = false

/-- Every read or write in progress is still in front of its mutex. -/
def Waiting (s : State) : Prop := ∀ u d f call st, s.pc u = .op d f call st → st = .lock

theorem noneInited {ok : State → ℕ × Choice → Prop} (h : (system n fsize).ReachableWhen ok s) :
    NoneInited s := by
  refine Program.invariant ?_ ?_ h
  · rintro s rfl d m
    rfl
  · intro s c k e t _ hs _ he d m
    rw [he.shared]
    show (effect n c e s.shared).inited d m = false
    rw [effect_inited]
    exact hs d m

theorem Waiting.step (h : Waiting s) (hok : LocksNothing n fsize s (c, k))
    (hn : (system n fsize).next s (c, k) = some t) (he : (program n fsize).Step s c k e t) :
    Waiting t := by
  intro u d f call st hp
  by_cases hu : u = c
  · subst hu
    rcases op_of_move (hp ▸ he.move) with hst | ⟨d', f', call', st', hp'⟩
    · exact hst
    · obtain rfl := h u d' f' call' st' hp'
      exact absurd hp' (hok t hn d' f' call')
  · rw [he.others u hu] at hp
    exact h u d f call st hp

theorem waiting (h : (system n fsize).ReachableWhen (LocksNothing n fsize) s) : Waiting s := by
  refine h.invariant ?_ ?_
  · rintro s rfl u d f call st hp
    by_cases hu : u = 0
    · simp [initial, hu] at hp
    · simp [initial, hu] at hp
  · intro s a t _ hs hok hn
    obtain ⟨e, he⟩ := Program.step_of_next hn
    exact hs.step hok hn he

/-- The reads and writes of a run find their mutex and their kfifo prepared
exactly if none of them calls `mutex_lock_interruptible`. -/
theorem prepared_iff_locksNothing (n : ℕ) (fsize : BitVec 32) (as : List (ℕ × Choice)) :
    (system n fsize).Meets (Prepared n fsize) initial as ↔
      (system n fsize).Meets (LocksNothing n fsize) initial as := by
  have hs : (system n fsize).ReachableWhen (LocksNothing n fsize) initial := .start rfl
  refine (hs.meets_iff (fun s a hr => ?_) as).symm
  constructor
  · intro hok t hn d f call st hp
    obtain rfl := waiting hr a.1 d f call st hp
    exact absurd hp (hok t hn d f call)
  · intro hok t hn d f call hp
    have hinit := (hok t hn d f call .lock hp).1 rfl
    exact absurd (hinit.symm.trans (noneInited hr d (mutexOf call))) nofun

end Runs

/-- After the successful initialisation of one minor, a process opens it and reads. -/
def readAfterInit : List (ℕ × Choice) :=
  List.replicate 5 (0, .kernel none) ++
    [(1, .openInode 0 0), (1, .run), (2, .call 0 (.read ⟨1, 1⟩))]

theorem not_prepared_readAfterInit :
    ¬∀ n fsize as, (system n fsize).Meets (Prepared n fsize) initial as := by
  intro h
  have hlast := (h 1 16 (readAfterInit ++ [(2, .run)])).of_append rfl
  have hinit := (hlast.1 _ rfl 0 0 _ _ rfl).1 rfl
  exact absurd hinit (by decide)

end LinuxDeviceDrivers.McdevdrvsFiles
