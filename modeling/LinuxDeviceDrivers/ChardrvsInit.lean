import LinuxDeviceDrivers.ChardrvsFifo
import LinuxDeviceDrivers.ChardrvsUsers

/-!
# Initialisation of the chardrvs driver against early opens

`chardrvs_init` runs step by step, with every kernel call free to succeed or to
fail; from `cdev_add` on, any number of processes may open the device and read,
write or poll it, until `cdev_del`. The only gate is `usrs_cnt`, which is zero
until `setup_chardrvs` sets it. That happens before the wait queue, the kfifo
and `dev->avail` are set up, and the gate stays open while a failing init takes
everything down again.

Thread 0 is `chardrvs_init`. Every other thread is a file handle, which is
opened and released as in `ChardrvsUsers` and runs its calls as in
`ChardrvsFifo`, one at a time.
-/
namespace LinuxDeviceDrivers.ChardrvsInit
open KernelPrimitives TransitionSystem ThreadProgram
open ChardrvsFifo (Mutex ChardrvsPrivDev setupChardrvs)
open ChardrvsUsers (UserCount)

def DEFAULT_NR_USERS : BitVec 32 := 2

/-- What `chardrvs_init` acquires and, when it fails, gives back. -/
inductive Resource where
  | memory | region | newClass | device | cdev | kfifo | procFile | dbgDir | dbgFile
deriving DecidableEq, Repr

/-- What `setup_chardrvs` makes usable. -/
inductive Part where
  | mutex (m : Mutex)
  | waitQueue | kfifo | avail
deriving DecidableEq, Repr

/-- The device structure, zeroed by `memset`, with what is acquired and what is
set up so far. -/
structure Shared where
  fsize : BitVec 32
  held : List Resource := []
  ready : List Part := []
  users : UserCount := ⟨0, 0⟩
  fifo : ChardrvsFifo.Shared := { myfifo := ⟨0, []⟩, avail := 0, owner := fun _ => none }

/-- The next thing `chardrvs_init` does; the `err` points are its labels. The
files in debugfs may be missing from here on, but not the one below a directory
that is missing itself. -/
inductive InitPc where
  | kmalloc | allocChrdevRegion | classCreate | deviceCreate | cdevAdd
  | mutexInit (m : Mutex)
  | usrsCnt | initWaitqueueHead | kfifoAlloc | avail
  | procCreate | debugfsCreateDir
  | debugfsCreateFile (dbgDir : Bool)
  | errDbgDir (ret : ℤ)
  | errProcfs (ret : ℤ)
  | errSetupChardrvs (ret : ℤ)
  | errUnregisterCdev (ret : ℤ)
  | errDestructDevice (ret : ℤ)
  | errDestructClass (ret : ℤ)
  | errUnregisterChrdev (ret : ℤ)
  | errFreeDev (ret : ℤ)
  | done (dbgDir dbgFile : Bool)
  | failed (ret : ℤ)

inductive Pc where
  | init (p : InitPc)
  | file (p : ChardrvsUsers.Pc)
  | io (p : ChardrvsFifo.Pc)

/-- How a kernel call ends. -/
inductive Outcome where
  | ok
  | err (e : Errno)
deriving DecidableEq, Repr

inductive Choice where
  | kernel (r : Outcome)
  | file (k : ChardrvsUsers.Choice)
  | enter
  | io (k : ChardrvsFifo.Choice)
  | leave

inductive Effect where
  | skip
  | acquire (r : Resource)
  | release (r : Resource)
  | mutexInit (m : Mutex)
  | usrsCnt
  | initWaitqueueHead
  | kfifoAlloc (f : Kfifo)
  | avail
  | users (e : ChardrvsUsers.Effect)
  | io (e : ChardrvsFifo.Effect)

/-- A kernel call that acquires `res`, or fails and jumps to a label. -/
def orGoto (r : Outcome) (res : Resource) (next : InitPc) (label : ℤ → InitPc) : Effect × InitPc :=
  match r with
  | .ok => (.acquire res, next)
  | .err e => (.skip, label e.val)

/-- A call to debugfs, which reports its failures by an error pointer. The tests
for `NULL` behind it let that through, so nothing jumps to `err_dbg_dir` or
`err_procfs`. -/
def orGoOn (r : Outcome) (res : Resource) (next : Bool → InitPc) : Effect × InitPc :=
  match r with
  | .ok => (.acquire res, next true)
  | .err _ => (.skip, next false)

def chardrvsInit (fsize : BitVec 32) (r : Outcome) : InitPc → Option (Effect × InitPc)
  | .kmalloc => some (orGoto r .memory .allocChrdevRegion fun _ => .failed (-ENOMEM))
  | .allocChrdevRegion => some (orGoto r .region .classCreate .errFreeDev)
  | .classCreate => some (orGoto r .newClass .deviceCreate .errUnregisterChrdev)
  | .deviceCreate => some (orGoto r .device .cdevAdd .errDestructClass)
  | .cdevAdd => some (orGoto r .cdev (.mutexInit .lock) .errDestructDevice)
  | .mutexInit .lock => some (.mutexInit .lock, .mutexInit .rFLock)
  | .mutexInit .rFLock => some (.mutexInit .rFLock, .mutexInit .wFLock)
  | .mutexInit .wFLock => some (.mutexInit .wFLock, .usrsCnt)
  | .usrsCnt => some (.usrsCnt, .initWaitqueueHead)
  | .initWaitqueueHead => some (.initWaitqueueHead, .kfifoAlloc)
  | .kfifoAlloc =>
      match KernelPrimitives.kfifoAlloc fsize (r = .ok) with
      | .ok f => some (.kfifoAlloc f, .avail)
      | .error e => some (.skip, .errUnregisterCdev e)
  | .avail => some (.avail, .procCreate)
  | .procCreate =>
      some (orGoto r .procFile .debugfsCreateDir fun _ => .errSetupChardrvs (-ENOMEM))
  | .debugfsCreateDir => some (orGoOn r .dbgDir .debugfsCreateFile)
  | .debugfsCreateFile true => some (orGoOn r .dbgFile (.done true))
  | .debugfsCreateFile false => some (.skip, .done false false)
  | .errDbgDir ret => some (.release .dbgDir, .errProcfs ret)
  | .errProcfs ret => some (.release .procFile, .errSetupChardrvs ret)
  | .errSetupChardrvs ret => some (.release .kfifo, .errUnregisterCdev ret)
  | .errUnregisterCdev ret => some (.release .cdev, .errDestructDevice ret)
  | .errDestructDevice ret => some (.release .device, .errDestructClass ret)
  | .errDestructClass ret => some (.release .newClass, .errUnregisterChrdev ret)
  | .errUnregisterChrdev ret => some (.release .region, .errFreeDev ret)
  | .errFreeDev ret => some (.release .memory, .failed ret)
  | .done _ _ | .failed _ => none

/-- A device can be opened between `cdev_add` and `cdev_del`. -/
def move (dev : Shared) : Choice → Pc → Option (Effect × Pc)
  | .kernel r, .init p => (chardrvsInit dev.fsize r p).map fun x => (x.1, .init x.2)
  | .file k, .file p =>
      if p = .unstarted ∧ .cdev ∉ dev.held then none
      else (ChardrvsUsers.move dev.users k p).map fun x => (.users x.1, .file x.2)
  | .enter, .file .opened => some (.skip, .io .unstarted)
  | .io k, .io p =>
      (ChardrvsFifo.move dev.fifo.toChardrvsPrivDev k p).map fun x => (.io x.1, .io x.2)
  | .leave, .io (.done _ _) => some (.skip, .file .opened)
  | .leave, .io (.pollDone _) => some (.skip, .file .opened)
  | _, _ => none

def effect (c : ℕ) : Effect → Shared → Shared
  | .skip, dev => dev
  | .acquire r, dev => { dev with held := dev.held ++ [r] }
  | .release r, dev =>
      { dev with
        held := dev.held.erase r
        ready := if r = .kfifo then dev.ready.erase .kfifo else dev.ready }
  | .mutexInit m, dev =>
      { dev with
        ready := dev.ready ++ [.mutex m]
        fifo := { dev.fifo with owner := Function.update dev.fifo.owner m none } }
  | .usrsCnt, dev => { dev with users := { dev.users with usrsCnt := DEFAULT_NR_USERS } }
  | .initWaitqueueHead, dev => { dev with ready := dev.ready ++ [.waitQueue] }
  | .kfifoAlloc f, dev =>
      { dev with
        held := dev.held ++ [.kfifo]
        ready := dev.ready ++ [.kfifo]
        fifo := { dev.fifo with myfifo := f } }
  | .avail, dev =>
      { dev with
        ready := dev.ready ++ [.avail]
        fifo := { dev.fifo with avail := dev.fsize.toNat } }
  | .users e, dev => { dev with users := ChardrvsUsers.effect e dev.users }
  | .io e, dev => { dev with fifo := ChardrvsFifo.effect c e dev.fifo }

def others : Effect → Pc → Pc
  | .io e, .io p => .io (ChardrvsFifo.others e p)
  | _, p => p

def program : Program Shared Choice Effect Pc where
  move := move
  effect := effect
  others := others

abbrev State := Config Shared Pc

/-- The module is being loaded, and no handle exists. -/
def initial (fsize : BitVec 32) : State :=
  ⟨{ fsize := fsize }, fun c => if c = 0 then .init .kmalloc else .file .unstarted⟩

def system (fsize : BitVec 32) : System State (ℕ × Choice) :=
  program.system fun s => s = initial fsize

/-- The steps of `setup_chardrvs` leave the device that `ChardrvsFifo` starts from. -/
theorem setUp_fifo {dev : Shared} {d : ChardrvsPrivDev}
    (h : setupChardrvs dev.fsize true = .ok d) :
    ∃ dev', program.solo 0 (.kernel .ok) 7 (dev, .init (.mutexInit .lock)) =
        some (dev', .init .procCreate) ∧ dev'.fifo.toChardrvsPrivDev = d := by
  unfold setupChardrvs at h
  split at h
  · cases h
  · rename_i f hf
    cases h
    refine ⟨effect 0 .avail (effect 0 (.kfifoAlloc f) (effect 0 .initWaitqueueHead
      (effect 0 .usrsCnt (effect 0 (.mutexInit .wFLock) (effect 0 (.mutexInit .rFLock)
        (effect 0 (.mutexInit .lock) dev)))))), ?_, ?_⟩
    · have halloc : move (effect 0 .initWaitqueueHead (effect 0 .usrsCnt
          (effect 0 (.mutexInit .wFLock) (effect 0 (.mutexInit .rFLock)
            (effect 0 (.mutexInit .lock) dev))))) (.kernel .ok) (.init .kfifoAlloc) =
            some (.kfifoAlloc f, .init .avail) := by
        simp only [move, chardrvsInit, effect, decide_true, hf, Option.map_some]
      exact Program.solo_succ rfl (Program.solo_succ rfl (Program.solo_succ rfl
        (Program.solo_succ rfl (Program.solo_succ rfl (Program.solo_succ halloc
          (Program.solo_succ rfl rfl))))))
    · have howner : Function.update (Function.update (Function.update dev.fifo.owner .lock none)
          .rFLock none) .wFLock none = fun _ => none := by
        funext m
        cases m <;> simp [Function.update]
      simp only [effect, howner]

/-- What is held at each point of `chardrvs_init`. A label is reached from the
failing call before it and from the label before it, with the same resources. -/
def heldAt : InitPc → List Resource
  | .kmalloc | .failed _ => []
  | .allocChrdevRegion | .errFreeDev _ => [.memory]
  | .classCreate | .errUnregisterChrdev _ => [.memory, .region]
  | .deviceCreate | .errDestructClass _ => [.memory, .region, .newClass]
  | .cdevAdd | .errDestructDevice _ => [.memory, .region, .newClass, .device]
  | .mutexInit _ | .usrsCnt | .initWaitqueueHead | .kfifoAlloc | .errUnregisterCdev _ =>
      [.memory, .region, .newClass, .device, .cdev]
  | .avail | .procCreate | .errSetupChardrvs _ =>
      [.memory, .region, .newClass, .device, .cdev, .kfifo]
  | .debugfsCreateDir | .errProcfs _ =>
      [.memory, .region, .newClass, .device, .cdev, .kfifo, .procFile]
  | .debugfsCreateFile dbgDir =>
      [.memory, .region, .newClass, .device, .cdev, .kfifo, .procFile] ++
        if dbgDir then [.dbgDir] else []
  | .errDbgDir _ => [.memory, .region, .newClass, .device, .cdev, .kfifo, .procFile, .dbgDir]
  | .done dbgDir dbgFile =>
      [.memory, .region, .newClass, .device, .cdev, .kfifo, .procFile] ++
        (if dbgDir then [.dbgDir] else []) ++ if dbgFile then [.dbgFile] else []

/-- What is set up on the way to a successful return. -/
def readyAt : InitPc → Option (List Part)
  | .kmalloc | .allocChrdevRegion | .classCreate | .deviceCreate | .cdevAdd | .mutexInit .lock =>
      some []
  | .mutexInit .rFLock => some [.mutex .lock]
  | .mutexInit .wFLock => some [.mutex .lock, .mutex .rFLock]
  | .usrsCnt | .initWaitqueueHead => some [.mutex .lock, .mutex .rFLock, .mutex .wFLock]
  | .kfifoAlloc => some [.mutex .lock, .mutex .rFLock, .mutex .wFLock, .waitQueue]
  | .avail => some [.mutex .lock, .mutex .rFLock, .mutex .wFLock, .waitQueue, .kfifo]
  | .procCreate | .debugfsCreateDir | .debugfsCreateFile _ | .done _ _ =>
      some [.mutex .lock, .mutex .rFLock, .mutex .wFLock, .waitQueue, .kfifo, .avail]
  | _ => none

/-- The bookkeeping of `chardrvs_init` agrees with its control point. -/
structure Describes (p : InitPc) (dev : Shared) : Prop where
  held : dev.held = heldAt p
  ready : ∀ parts, readyAt p = some parts → dev.ready = parts

/-- A kernel call that can fail: nothing is lost before its label undoes it. -/
theorem describes_orGoto {c : ℕ} {dev : Shared} {r : Outcome} {res : Resource} {e : Effect}
    {p p' next : InitPc} {label : ℤ → InitPc} (h : Describes p dev)
    (hm : some (orGoto r res next label) = some (e, p')) (hheld : heldAt next = heldAt p ++ [res])
    (hready : readyAt next = readyAt p) (hlabel : ∀ e, heldAt (label e) = heldAt p)
    (hlost : ∀ e, readyAt (label e) = none) : Describes p' (effect c e dev) := by
  cases r with
  | ok =>
      cases hm
      refine ⟨?_, fun parts hp => h.ready parts (hready ▸ hp)⟩
      show dev.held ++ [res] = heldAt p'
      rw [h.held, hheld]
  | err e =>
      cases hm
      refine ⟨h.held.trans (hlabel e.val).symm, fun parts hp => ?_⟩
      rw [hlost] at hp
      cases hp

theorem describes_orGoOn {c : ℕ} {dev : Shared} {r : Outcome} {res : Resource} {e : Effect}
    {p p' : InitPc} {next : Bool → InitPc} (h : Describes p dev)
    (hm : some (orGoOn r res next) = some (e, p')) (hok : heldAt (next true) = heldAt p ++ [res])
    (herr : heldAt (next false) = heldAt p) (hready : ∀ b, readyAt (next b) = readyAt p) :
    Describes p' (effect c e dev) := by
  cases r with
  | ok =>
      cases hm
      refine ⟨?_, fun parts hp => h.ready parts (hready true ▸ hp)⟩
      show dev.held ++ [res] = heldAt (next true)
      rw [h.held, hok]
  | err _ =>
      cases hm
      exact ⟨h.held.trans herr.symm, fun parts hp => h.ready parts (hready false ▸ hp)⟩

/-- A label gives back the resource that was acquired last. -/
theorem describes_release {c : ℕ} {dev : Shared} {res : Resource} {e : Effect} {p p' next : InitPc}
    (h : Describes p dev) (hm : some (Effect.release res, next) = some (e, p'))
    (hheld : heldAt next = (heldAt p).erase res) (hlost : readyAt next = none) :
    Describes p' (effect c e dev) := by
  cases hm
  refine ⟨?_, fun parts hp => ?_⟩
  · show dev.held.erase res = heldAt p'
    rw [h.held, hheld]
  · rw [hlost] at hp
    cases hp

/-- A step of `setup_chardrvs` that cannot fail. -/
theorem Describes.setUp {dev dev' : Shared} {p p' : InitPc} {part : Part} {parts : List Part}
    (h : Describes p dev) (hheld : heldAt p' = heldAt p) (hparts : readyAt p = some parts)
    (hparts' : readyAt p' = some (parts ++ [part])) (hd : dev'.held = dev.held)
    (hr : dev'.ready = dev.ready ++ [part]) : Describes p' dev' := by
  refine ⟨by rw [hd, h.held, hheld], fun ps hps => ?_⟩
  rw [hparts', Option.some.injEq] at hps
  rw [hr, h.ready parts hparts, hps]

/-- Each step of `chardrvs_init` keeps its bookkeeping. -/
theorem Describes.step {c : ℕ} {dev : Shared} {r : Outcome} {p p' : InitPc} {e : Effect}
    (h : Describes p dev) (hm : chardrvsInit dev.fsize r p = some (e, p')) :
    Describes p' (effect c e dev) := by
  cases p with
  | kmalloc | allocChrdevRegion | classCreate | deviceCreate | cdevAdd | procCreate =>
      exact describes_orGoto h hm rfl rfl (fun _ => rfl) (fun _ => rfl)
  | debugfsCreateDir => exact describes_orGoOn h hm rfl rfl fun _ => rfl
  | debugfsCreateFile dbgDir =>
      cases dbgDir with
      | true => exact describes_orGoOn h hm rfl rfl fun _ => rfl
      | false => cases hm; exact ⟨h.held, h.ready⟩
  | errDbgDir _ | errProcfs _ | errSetupChardrvs _ | errUnregisterCdev _ | errDestructDevice _
  | errDestructClass _ | errUnregisterChrdev _ | errFreeDev _ =>
      exact describes_release h hm rfl rfl
  | mutexInit m => cases m <;> cases hm <;> exact h.setUp rfl rfl rfl rfl rfl
  | initWaitqueueHead | avail => cases hm; exact h.setUp rfl rfl rfl rfl rfl
  | usrsCnt => cases hm; exact ⟨h.held, h.ready⟩
  | kfifoAlloc =>
      simp only [chardrvsInit] at hm
      split at hm <;> cases hm
      · exact ⟨congrArg (· ++ [Resource.kfifo]) h.held, fun parts hp => by
          rw [← Option.some.inj hp]
          exact congrArg (· ++ [Part.kfifo]) (h.ready _ rfl)⟩
      · exact ⟨h.held, nofun⟩
  | done _ _ | failed _ => cases hm

/-- `setup_chardrvs` has succeeded and nothing has failed since. -/
def setUp : InitPc → Bool
  | .procCreate | .debugfsCreateDir | .debugfsCreateFile _ | .done _ _ => true
  | _ => false

/-- Behind `setup_chardrvs` only `proc_create` makes `chardrvs_init` fail. -/
theorem setUp_step {fsize : BitVec 32} {r : Outcome} {q q' : InitPc} {e : Effect}
    (h : chardrvsInit fsize r q = some (e, q')) (hq : setUp q = true)
    (hr : r = .ok ∨ q ≠ .procCreate) : setUp q' = true := by
  cases q with
  | procCreate =>
      obtain rfl := hr.resolve_right fun hne => hne rfl
      cases h
      rfl
  | debugfsCreateDir => cases r <;> cases h <;> rfl
  | debugfsCreateFile dbgDir =>
      cases dbgDir with
      | true => cases r <;> cases h <;> rfl
      | false => cases h; rfl
  | done _ _ => cases h
  | _ => cases hq

def isInit : Pc → Bool
  | .init _ => true
  | _ => false

/-- The handle has passed the test of `chardrvs_open` and is not released yet. -/
def live : Pc → Bool
  | .file .openInc | .file .opened | .file .releaseDec | .io _ => true
  | _ => false

/-- The handle was opened successfully and is not released yet. -/
def isOpen : Pc → Bool
  | .file .opened | .file .releaseDec | .io _ => true
  | _ => false

theorem live_of_isOpen {p : Pc} (h : isOpen p = true) : live p = true := by
  unfold isOpen at h
  split at h <;> first | rfl | cases h

/-- An effect of a handle: it leaves the bookkeeping of `chardrvs_init` alone. -/
inductive Quiet : Effect → Prop
  | skip : Quiet .skip
  | users (e : ChardrvsUsers.Effect) : Quiet (.users e)
  | io (e : ChardrvsFifo.Effect) : Quiet (.io e)

theorem Describes.quiet {c : ℕ} {dev : Shared} {p : InitPc} {e : Effect} (h : Describes p dev)
    (he : Quiet e) : Describes p (effect c e dev) := by
  cases he <;> exact ⟨h.held, h.ready⟩

/-- The moves of `chardrvs_init`, the move that admits a handle, and the rest. -/
inductive Moves (dev : Shared) (k : Choice) (p : Pc) (e : Effect) (p' : Pc) : Prop
  | init (r : Outcome) (q q' : InitPc) : k = .kernel r → p = .init q → p' = .init q' →
      chardrvsInit dev.fsize r q = some (e, q') → Moves dev k p e p'
  | accept : k = .file .openFile → p = .file .unstarted → dev.users.refCntr < dev.users.usrsCnt →
      Quiet e → isInit p' = false → Moves dev k p e p'
  | other : Quiet e → isInit p = false → isInit p' = false → (live p' = true → live p = true) →
      Moves dev k p e p'

theorem moves_of_file {dev : Shared} {k : ChardrvsUsers.Choice} {q q' : ChardrvsUsers.Pc}
    {e : ChardrvsUsers.Effect} (h : ChardrvsUsers.Edge dev.users k q e q') :
    Moves dev (.file k) (.file q) (.users e) (.file q') := by
  cases h with
  | accept hlt => exact .accept rfl rfl hlt (.users _) rfl
  | refuse _ => exact .other (.users _) rfl rfl nofun
  | releaseZero _ | dec => exact .other (.users _) rfl rfl nofun
  | inc | setUsrs _ | release _ => exact .other (.users _) rfl rfl fun _ => rfl

theorem moves_of_move {dev : Shared} {k : Choice} {p p' : Pc} {e : Effect}
    (h : move dev k p = some (e, p')) : Moves dev k p e p' := by
  cases k with
  | kernel r =>
      cases p with
      | init q =>
          obtain ⟨x, hx, he⟩ := Option.map_eq_some_iff.mp h
          cases he
          exact .init r q x.2 rfl rfl rfl hx
      | file _ | io _ => cases h
  | file k =>
      cases p with
      | file q =>
          simp only [move] at h
          split_ifs at h with hclosed
          obtain ⟨x, hx, he⟩ := Option.map_eq_some_iff.mp h
          cases he
          exact moves_of_file (ChardrvsUsers.edge_of_move hx)
      | init _ | io _ => cases h
  | enter =>
      cases p with
      | file q =>
          cases q with
          | opened => cases h; exact .other .skip rfl rfl fun _ => rfl
          | _ => cases h
      | init _ | io _ => cases h
  | io k =>
      cases p with
      | io q =>
          obtain ⟨x, _, he⟩ := Option.map_eq_some_iff.mp h
          cases he
          exact .other (.io _) rfl rfl fun _ => rfl
      | init _ | file _ => cases h
  | leave =>
      cases p with
      | io q =>
          cases q with
          | done _ _ | pollDone _ => cases h; exact .other .skip rfl rfl fun _ => rfl
          | _ => cases h
      | init _ | file _ => cases h

theorem others_init (e : Effect) (q : InitPc) : others e (.init q) = .init q := by
  cases e <;> rfl

theorem isInit_others (e : Effect) (p : Pc) : isInit (others e p) = isInit p := by
  cases e with
  | io e => cases p <;> rfl
  | _ => rfl

theorem live_others (e : Effect) (p : Pc) : live (others e p) = live p := by
  cases e with
  | io e => cases p <;> rfl
  | _ => rfl

/-- Thread 0 runs `chardrvs_init` alone, with the bookkeeping of its control point. -/
structure Bookkept (s : State) (q : InitPc) : Prop where
  init : s.pc 0 = .init q
  alone : ∀ c, c ≠ 0 → isInit (s.pc c) = false
  describes : Describes q s.shared

/-- No open passes its test outside the time between the end of
`setup_chardrvs` and a failure of `chardrvs_init`, and `proc_create` does not
fail while a handle is live. -/
structure Guarded (s : State) (a : ℕ × Choice) : Prop where
  opens : a.2 = .file .openFile → s.pc a.1 = .file .unstarted →
    s.shared.users.refCntr < s.shared.users.usrsCnt →
      ∃ q, s.pc 0 = .init q ∧ setUp q = true
  failures : ∀ e, a.2 = .kernel (.err e) → s.pc a.1 = .init .procCreate →
    ∀ c, live (s.pc c) = false

/-- A live handle needs the device to be set up. -/
def Covered (q : InitPc) (p : Pc) : Prop := live p = true → setUp q = true

theorem Covered.others {q : InitPc} {p : Pc} (e : Effect) (h : Covered q p) :
    Covered q (others e p) := fun hl => h ((live_others e p).symm.trans hl)

section Step
variable {s t : State} {q q₁ q' : InitPc} {c : ℕ} {k : Choice} {e : Effect}

theorem alone_other (h : Bookkept s q) (he : program.Step s c k e t)
    (ht : c ≠ 0 → isInit (t.pc c) = false) {u : ℕ} (hu : u ≠ 0) : isInit (t.pc u) = false := by
  by_cases huc : u = c
  · subst huc
    exact ht hu
  · rw [he.others u huc]
    exact (isInit_others e _).trans (h.alone u hu)

/-- A handle moves: `chardrvs_init` stays where it is. -/
theorem Bookkept.handle (h : Bookkept s q) (he : program.Step s c k e t) (hquiet : Quiet e)
    (hs : isInit (s.pc c) = false) (ht : isInit (t.pc c) = false) : Bookkept t q := by
  have hc : 0 ≠ c := by
    rintro rfl
    rw [h.init] at hs
    cases hs
  refine ⟨?_, fun u => alone_other h he fun _ => ht, ?_⟩
  · rw [he.others 0 hc, h.init]
    exact others_init e q
  · rw [he.shared]
    exact h.describes.quiet hquiet

/-- `chardrvs_init` moves. -/
theorem Bookkept.kernel {r : Outcome} (h : Bookkept s q) (he : program.Step s c k e t)
    (hp : s.pc c = .init q₁) (hp' : t.pc c = .init q')
    (hm : chardrvsInit s.shared.fsize r q₁ = some (e, q')) : q₁ = q ∧ Bookkept t q' := by
  obtain rfl : c = 0 := by
    by_contra hc
    have := h.alone c hc
    rw [hp] at this
    cases this
  obtain rfl : q₁ = q := Pc.init.inj (hp.symm.trans h.init)
  refine ⟨rfl, hp', fun u => alone_other h he fun hc => absurd rfl hc, ?_⟩
  rw [he.shared]
  exact h.describes.step hm

theorem Bookkept.step (h : Bookkept s q) (he : program.Step s c k e t) :
    ∃ q', Bookkept t q' := by
  cases moves_of_move he.move with
  | init r q₁ q' _ hp hp' hm => exact ⟨q', (h.kernel he hp hp' hm).2⟩
  | accept _ hp _ hquiet hp' => exact ⟨q, h.handle he hquiet (by rw [hp]; rfl) hp'⟩
  | other hquiet hp hp' _ => exact ⟨q, h.handle he hquiet hp hp'⟩

/-- With the guard, handles are live only while the device is set up. -/
theorem Bookkept.covered (h : Bookkept s q) (hlive : ∀ u, Covered q (s.pc u))
    (hok : Guarded s (c, k)) (he : program.Step s c k e t) :
    ∃ q', Bookkept t q' ∧ ∀ u, Covered q' (t.pc u) := by
  cases moves_of_move he.move with
  | init r q₁ q' hk hp hp' hm =>
      obtain ⟨rfl, ht⟩ := h.kernel he hp hp' hm
      refine ⟨q', ht, he.forall_threads (I := fun _ => Covered q₁) (J := fun _ => Covered q') hlive
        ?_ fun u _ hl hu => ?_⟩
      · rw [hp']
        exact nofun
      · have hlu : live (s.pc u) = true := (live_others e _).symm.trans hu
        refine setUp_step hm (hl hlu) ?_
        cases r with
        | ok => exact .inl rfl
        | err e' =>
            refine .inr fun hproc => ?_
            have hdead := hok.failures e' hk (hproc ▸ hp) u
            rw [hlu] at hdead
            cases hdead
  | accept hk hp hlt hquiet hp' =>
      obtain ⟨q₁, hq₁, hset⟩ := hok.opens hk hp hlt
      obtain rfl : q₁ = q := Pc.init.inj (hq₁.symm.trans h.init)
      exact ⟨q₁, h.handle he hquiet (by rw [hp]; rfl) hp',
        he.forall_pc hlive (fun _ => hset) fun _ hu => hu.others e⟩
  | other hquiet hp hp' hlast =>
      exact ⟨q, h.handle he hquiet hp hp',
        he.forall_pc hlive (fun hl => hlive c (hlast hl)) fun _ hu => hu.others e⟩

end Step

/-- Every part that `setup_chardrvs` sets up can be used. -/
def Ready (dev : Shared) : Prop := ∀ x : Part, x ∈ dev.ready

/-- A handle that is open finds the device set up, and no handle outlives the
device. -/
structure PublishedAfterInit (s : State) : Prop where
  ready : ∀ c, isOpen (s.pc c) = true → Ready s.shared
  survives : .memory ∉ s.shared.held → ∀ c, isOpen (s.pc c) = false

section Runs
variable {fsize : BitVec 32} {s : State}

def Accounted (s : State) : Prop := ∃ q, Bookkept s q

theorem bookkept_initial (fsize : BitVec 32) : Bookkept (initial fsize) .kmalloc := by
  refine ⟨rfl, fun c hc => ?_, rfl, fun parts hp => Option.some.inj hp⟩
  simp [initial, hc, isInit]

theorem accounted {ok : State → ℕ × Choice → Prop} (h : (system fsize).ReachableWhen ok s) :
    Accounted s := by
  refine Program.invariant ?_ ?_ h
  · rintro s rfl
    exact ⟨_, bookkept_initial fsize⟩
  · rintro s c k e t _ ⟨q, hq⟩ _ he
    exact hq.step he

/-- `chardrvs_init` keeps everything it acquired when it succeeds, with or
without its files in debugfs, and nothing when it fails. -/
theorem held_of_returned (h : (system fsize).Reachable s) :
    (∀ dbgDir dbgFile, s.pc 0 = .init (.done dbgDir dbgFile) →
        s.shared.held = heldAt (.done dbgDir dbgFile)) ∧
      ∀ ret, s.pc 0 = .init (.failed ret) → s.shared.held = [] := by
  obtain ⟨q, hq⟩ := accounted h
  have hat : ∀ q', s.pc 0 = .init q' → s.shared.held = heldAt q' := fun q' hq' => by
    rw [hq.describes.held, Pc.init.inj (hq.init.symm.trans hq')]
  exact ⟨fun dbgDir dbgFile => hat (.done dbgDir dbgFile), fun ret => hat (.failed ret)⟩

def LiveCovered (s : State) : Prop := ∃ q, Bookkept s q ∧ ∀ c, Covered q (s.pc c)

theorem liveCovered (h : (system fsize).ReachableWhen Guarded s) : LiveCovered s := by
  refine Program.invariant ?_ ?_ h
  · rintro s rfl
    refine ⟨_, bookkept_initial fsize, fun c hl => ?_⟩
    by_cases hc : c = 0 <;> simp [initial, hc, live] at hl
  · rintro s c k e t _ ⟨q, hq, hlive⟩ hok he
    exact hq.covered hlive hok he

theorem publishedAfterInit_of_guarded (h : (system fsize).ReachableWhen Guarded s) :
    PublishedAfterInit s := by
  obtain ⟨q, hq, hlive⟩ := liveCovered h
  have hset : ∀ c, isOpen (s.pc c) = true → setUp q = true := fun c hc =>
    hlive c (live_of_isOpen hc)
  refine ⟨fun c hc x => ?_, fun hfreed c => ?_⟩
  · have hq' := hset c hc
    rw [hq.describes.ready _ (show readyAt q = some _ by cases q <;> cases hq' <;> rfl)]
    cases x with
    | mutex m => cases m <;> decide
    | _ => decide
  · rw [Bool.eq_false_iff]
    intro hc
    have hq' := hset c hc
    apply hfreed
    rw [hq.describes.held]
    cases q with
    | procCreate | debugfsCreateDir => decide
    | debugfsCreateFile dbgDir => cases dbgDir <;> decide
    | done dbgDir dbgFile => cases dbgDir <;> cases dbgFile <;> decide
    | _ => cases hq'

end Runs

/-- The first `n` steps of a `chardrvs_init` in which no kernel call fails. -/
def initSteps (n : ℕ) : List (ℕ × Choice) := List.replicate n (0, .kernel .ok)

/-- An open that passes its test comes when the device is set up, and
`proc_create` fails only with nobody below `N` who has passed. -/
def guardedBelow (N : ℕ) (s : State) (a : ℕ × Choice) : Bool :=
  match a.2, s.pc a.1 with
  | .file .openFile, .file .unstarted =>
      decide (s.shared.users.usrsCnt ≤ s.shared.users.refCntr) ||
        match s.pc 0 with
        | .init q => setUp q
        | _ => false
  | .kernel (.err _), .init .procCreate => (List.range N).all fun c => !live (s.pc c)
  | _, _ => true

theorem guarded_of_below {N : ℕ} {s : State} {a : ℕ × Choice}
    (hrest : ∀ u, N ≤ u → s.pc u = .file .unstarted) (h : guardedBelow N s a = true) :
    Guarded s a where
  opens hopen hp hlt := by
    simp only [guardedBelow, hopen, hp, Bool.or_eq_true, decide_eq_true_eq] at h
    have hset := h.resolve_left (BitVec.not_le.mpr hlt)
    split at hset
    · exact ⟨_, ‹_›, hset⟩
    · cases hset
  failures e hfail hp := by
    simp only [guardedBelow, hfail, hp] at h
    refine Program.forall_of_below hrest (Q := fun p => live p = false) rfl fun c hc => ?_
    simpa using List.all_eq_true.mp h c (List.mem_range.mpr hc)

/-- An open before `usrs_cnt` is set is refused. Another one comes before
`proc_create` and stays, though debugfs is not there. -/
def openBeforeProcCreate : List (ℕ × Choice) :=
  initSteps 6 ++ [(1, .file .openFile)] ++ initSteps 6 ++ [(2, .file .openFile), (2, .file .run)] ++
    initSteps 1 ++ [(0, .kernel (.err ⟨-19, by decide⟩)), (0, .kernel .ok), (2, .enter)]

theorem publishedAfterInit_openBeforeProcCreate :
    ∃ s, (system ChardrvsFifo.defaultFsize).run (initial ChardrvsFifo.defaultFsize)
      openBeforeProcCreate = some s ∧ s.pc 0 = .init (.done false false) ∧
        s.pc 1 = .file (.failed (-EMFILE)) ∧ s.pc 2 = .io .unstarted ∧ PublishedAfterInit s := by
  have hmeets : (system ChardrvsFifo.defaultFsize).Meets Guarded
      (initial ChardrvsFifo.defaultFsize) openBeforeProcCreate := by
    have hrest : ∀ u, 3 ≤ u → (initial ChardrvsFifo.defaultFsize).pc u = .file .unstarted :=
      fun u hu => if_neg (show ¬u = 0 by omega)
    exact Program.meets_of_passes (fun e => by cases e <;> rfl) (fun _ _ => guarded_of_below) hrest
      (by decide) rfl
  exact ⟨_, rfl, rfl, rfl, rfl,
    publishedAfterInit_of_guarded (System.ReachableWhen.run (.start rfl) hmeets rfl)⟩

/-- A process opens the device right after `usrs_cnt` is set; then `kfifo_alloc`
fails, and the device is freed with the handle open. -/
def openDuringSetup : List (ℕ × Choice) :=
  initSteps 9 ++ [(1, .file .openFile), (1, .file .run)] ++ initSteps 1 ++
    [(0, .kernel (.err ⟨-12, by decide⟩))] ++ initSteps 5

theorem not_publishedAfterInit_reachable :
    ¬∀ (fsize : BitVec 32) (s : State), (system fsize).Reachable s → PublishedAfterInit s := by
  intro h
  obtain ⟨s, hrun, hp, hheld⟩ : ∃ s,
      (system ChardrvsFifo.defaultFsize).run (initial ChardrvsFifo.defaultFsize) openDuringSetup =
        some s ∧ s.pc 1 = .file .opened ∧ s.shared.held = [] := ⟨_, rfl, rfl, rfl⟩
  have hd := (h _ s (System.Reachable.run (.start rfl) hrun)).survives (by rw [hheld]; nofun) 1
  rw [hp] at hd
  cases hd

end LinuxDeviceDrivers.ChardrvsInit
