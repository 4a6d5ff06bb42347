import LinuxDeviceDrivers.FifoFileOps
import LinuxDeviceDrivers.LockTurns
import LinuxDeviceDrivers.PltdrvProbe

/-!
# File operations of pltdrv_attr_dt against pltdrv_remove

Any number of bound devices, handles and calls, step by step, together with the
removal of the devices. An open finds the `cdev` of its inode as long as
`cdev_del` has not run, and the handle keeps the `fifo_prvt_devc` around it; a
handle is closed when no call on it is in progress. `pltdrv_remove` frees the
kfifo and deletes the `cdev`, and the driver core frees the `fifo_prvt_devc`
after it has returned, whatever handles are still open.
-/
namespace LinuxDeviceDrivers.PltdrvFiles
open KernelPrimitives TransitionSystem ThreadProgram FifoFileOps LockTurns

/-- A `struct file`: the `i_cdev` of its inode, its `private_data` once the open
has set it, and the number of calls in progress on it. -/
structure File where
  iCdev : Cdev
  privateData : Option ℕ
  refs : ℕ
  closed : Bool
deriving DecidableEq, Repr

/-- Which parts of a device are still there. -/
structure Life where
  bound : Bool
  cdev : Bool
  fifo : Bool
  devc : Bool
deriving DecidableEq, Repr

/-- `turns` lists the calls that have taken a mutex of a device, in this order;
`copied` is what a call has put into the kfifo or taken out. -/
structure Shared where
  devcs : ℕ → FifoDevc
  life : ℕ → Life
  files : ℕ → Option File
  turns : ℕ → Mutex → List ℕ
  copied : ℕ → Option (List UInt8)

/-- The steps of `pltdrv_remove` and what the driver core does after it. -/
inductive RemoveStage where
  | sysfsRemoveGroup
  | kfifoFree
  | cdevDel
  | deviceDestroy
  | devmFree
  | finished
deriving DecidableEq, Repr

inductive Pc where
  | unstarted
  | opening (f : ℕ) (iCdev : Cdev)
  | opened (f : ℕ)
  | closed (f : ℕ)
  | op (d f : ℕ) (call : Call) (st : Stage)
  | exit (d f : ℕ) (call : Call) (out : Outcome)
  | returned (d f : ℕ) (call : Call) (out : Outcome)
  | remove (d : ℕ) (st : RemoveStage)
deriving DecidableEq, Repr

inductive Choice where
  | openInode (f d : ℕ)
  | close
  | call (f : ℕ) (call : Call)
  | remove (d : ℕ)
  | run
  | signal
deriving DecidableEq, Repr

inductive Effect where
  | skip
  | newFile (f : ℕ) (iCdev : Cdev)
  | setPrivate (f d : ℕ)
  | closeFile (f : ℕ)
  | fget (f : ℕ)
  | fput (f : ℕ)
  | op (d : ℕ) (a : Action)
  | unbind (d : ℕ)
  | kfifoFree (d : ℕ)
  | cdevDel (d : ℕ)
  | devmFree (d : ℕ)
deriving DecidableEq, Repr

def pltdrvOpenFifo (f : ℕ) (iCdev : Cdev) : Effect × Pc :=
  (.setPrivate f (containerOf iCdev), .opened f)

def pltdrvWriteFifo : FifoDevc → WriteBuf → Stage → Option (Action × (Stage ⊕ Outcome)) :=
  writeFifo

def pltdrvReadFifo : FifoDevc → ReadBuf → Stage → Option (Action × (Stage ⊕ Outcome)) :=
  readFifo

/-- A step of a read or write on a handle whose `private_data` is `d`. -/
def fileOp (s : Shared) (d f : ℕ) (call : Call) (st : Stage) : Option (Effect × Pc) :=
  let step := match call with
    | .write buf => pltdrvWriteFifo (s.devcs d) buf st
    | .read buf => pltdrvReadFifo (s.devcs d) buf st
  step.map fun
    | (a, .inl st) => (.op d a, .op d f call st)
    | (a, .inr out) => (.op d a, .exit d f call out)

def pltdrvRemove (d : ℕ) : RemoveStage → Option (Effect × Pc)
  | .sysfsRemoveGroup => some (.skip, .remove d .kfifoFree)
  | .kfifoFree => some (.kfifoFree d, .remove d .cdevDel)
  | .cdevDel => some (.cdevDel d, .remove d .deviceDestroy)
  | .deviceDestroy => some (.skip, .remove d .devmFree)
  | .devmFree => some (.devmFree d, .remove d .finished)
  | .finished => none

def move (s : Shared) : Choice → Pc → Option (Effect × Pc)
  | .openInode f d, .unstarted =>
      if s.files f = none ∧ (s.life d).cdev then some (.newFile f ⟨d⟩, .opening f ⟨d⟩) else none
  | .run, .opening f iCdev => some (pltdrvOpenFifo f iCdev)
  | .close, .opened f =>
      match s.files f with
      | some file => if file.refs = 0 then some (.closeFile f, .closed f) else none
      | none => none
  | .call f call, .unstarted =>
      match s.files f with
      | some ⟨_, some d, _, false⟩ => some (.fget f, .op d f call .lock)
      | _ => none
  | .run, .op d f call st => fileOp s d f call st
  | .signal, .op d f call .lock => some (.skip, .exit d f call .interrupted)
  | .run, .exit d f call out => some (.fput f, .returned d f call out)
  | .remove d, .unstarted =>
      if (s.life d).bound then some (.unbind d, .remove d .sysfsRemoveGroup) else none
  | .run, .remove d st => pltdrvRemove d st
  | _, _ => none

namespace Shared

def setFile (s : Shared) (f : ℕ) (g : File → File) : Shared :=
  { s with files := Function.update s.files f ((s.files f).map g) }

def setLife (s : Shared) (d : ℕ) (g : Life → Life) : Shared :=
  { s with life := Function.update s.life d (g (s.life d)) }

def setDevc (s : Shared) (d : ℕ) (dev : FifoDevc) : Shared :=
  { s with devcs := Function.update s.devcs d dev }

/-- What the history keeps of an action of call `c` on device `d`. -/
def record (s : Shared) (c d : ℕ) : Action → Shared
  | .acquire m => { s with
      turns := Function.update s.turns d (Function.update (s.turns d) m (s.turns d m ++ [c])) }
  | .publish bytes | .consume bytes => { s with copied := Function.update s.copied c (some bytes) }
  | _ => s

end Shared

def effect (c : ℕ) : Effect → Shared → Shared
  | .skip, s => s
  | .newFile f iCdev, s =>
      { s with files := Function.update s.files f (some ⟨iCdev, none, 0, false⟩) }
  | .setPrivate f d, s => s.setFile f fun file => { file with privateData := some d }
  | .closeFile f, s => s.setFile f fun file => { file with closed := true }
  | .fget f, s => s.setFile f fun file => { file with refs := file.refs + 1 }
  | .fput f, s => s.setFile f fun file => { file with refs := file.refs - 1 }
  | .op d a, s => (s.setDevc d (a.apply c (s.devcs d))).record c d a
  | .unbind d, s => s.setLife d fun l => { l with bound := false }
  | .kfifoFree d, s =>
      (s.setDevc d { s.devcs d with myfifo := ⟨1, []⟩ }).setLife d fun l => { l with fifo := false }
  | .cdevDel d, s => s.setLife d fun l => { l with cdev := false }
  | .devmFree d, s => s.setLife d fun l => { l with devc := false }

def program : Program Shared Choice Effect Pc where
  move := move
  effect := effect
  others _ p := p

@[simp] theorem program_effect (c : ℕ) (e : Effect) (s : Shared) :
    program.effect c e s = effect c e s := rfl

@[simp] theorem program_others (e : Effect) (p : Pc) : program.others e p = p := rfl

abbrev State := Config Shared Pc

/-- All devices are bound and set up, and no handle is open. -/
def initial (devcs : ℕ → PltdrvProbe.FifoPrvtDevc) : State where
  shared :=
    { devcs := fun d => ⟨(devcs d).myfifo, fun _ => none⟩
      life := fun _ => ⟨true, true, true, true⟩
      files := fun _ => none
      turns := fun _ _ => []
      copied := fun _ => none }
  pc _ := .unstarted

/-- The kfifo of each device is the one that `setup_pltdrv_dev` has allocated. -/
def SetUp (devcs : ℕ → PltdrvProbe.FifoPrvtDevc) : Prop :=
  ∀ d, ∃ dev mem, PltdrvProbe.setupPltdrvDev dev mem = .ok (devcs d)

def system : System State (ℕ × Choice) :=
  program.system fun s => ∃ devcs, SetUp devcs ∧ s = initial devcs

/-- Every move, with the condition under which it is taken. -/
inductive Edge (s : Shared) : Choice → Pc → Effect → Pc → Prop
  | openInode (f d : ℕ) : s.files f = none → (s.life d).cdev = true →
      Edge s (.openInode f d) .unstarted (.newFile f ⟨d⟩) (.opening f ⟨d⟩)
  | openFifo (f : ℕ) (iCdev : Cdev) :
      Edge s .run (.opening f iCdev) (.setPrivate f (containerOf iCdev)) (.opened f)
  | close (f : ℕ) (file : File) : s.files f = some file → file.refs = 0 →
      Edge s .close (.opened f) (.closeFile f) (.closed f)
  | enter (f d : ℕ) (file : File) (call : Call) : s.files f = some file →
      file.privateData = some d →
      Edge s (.call f call) .unstarted (.fget f) (.op d f call .lock)
  | op (d f : ℕ) (call : Call) (st st' : Stage) (a : Action) :
      FifoFileOps.Edge (s.devcs d) call st a (.inl st') →
      Edge s .run (.op d f call st) (.op d a) (.op d f call st')
  | leave (d f : ℕ) (call : Call) (st : Stage) (a : Action) (out : Outcome) :
      FifoFileOps.Edge (s.devcs d) call st a (.inr out) →
      Edge s .run (.op d f call st) (.op d a) (.exit d f call out)
  | signal (d f : ℕ) (call : Call) :
      Edge s .signal (.op d f call .lock) .skip (.exit d f call .interrupted)
  | exit (d f : ℕ) (call : Call) (out : Outcome) :
      Edge s .run (.exit d f call out) (.fput f) (.returned d f call out)
  | unbind (d : ℕ) : (s.life d).bound = true →
      Edge s (.remove d) .unstarted (.unbind d) (.remove d .sysfsRemoveGroup)
  | sysfsRemoveGroup (d : ℕ) :
      Edge s .run (.remove d .sysfsRemoveGroup) .skip (.remove d .kfifoFree)
  | kfifoFree (d : ℕ) :
      Edge s .run (.remove d .kfifoFree) (.kfifoFree d) (.remove d .cdevDel)
  | cdevDel (d : ℕ) :
      Edge s .run (.remove d .cdevDel) (.cdevDel d) (.remove d .deviceDestroy)
  | deviceDestroy (d : ℕ) :
      Edge s .run (.remove d .deviceDestroy) .skip (.remove d .devmFree)
  | devmFree (d : ℕ) :
      Edge s .run (.remove d .devmFree) (.devmFree d) (.remove d .finished)

section Inversion
variable {s : Shared} {e : Effect} {p' : Pc}

theorem edge_of_fileOp {d f : ℕ} {call : Call} {st : Stage}
    (h : fileOp s d f call st = some (e, p')) : Edge s .run (.op d f call st) e p' := by
  obtain ⟨⟨a, n⟩, hstep, hn⟩ := Option.map_eq_some_iff.mp h
  have hedge : FifoFileOps.Edge (s.devcs d) call st a n := by
    cases call with
    | write buf => exact edge_of_write hstep
    | read buf => exact edge_of_read hstep
  cases n with
  | inl st' => cases hn; exact .op d f call st st' a hedge
  | inr out => cases hn; exact .leave d f call st a out hedge

theorem edge_of_remove {d : ℕ} {st : RemoveStage} (h : pltdrvRemove d st = some (e, p')) :
    Edge s .run (.remove d st) e p' := by
  cases st <;> cases h
  · exact .sysfsRemoveGroup d
  · exact .kfifoFree d
  · exact .cdevDel d
  · exact .deviceDestroy d
  · exact .devmFree d

theorem edge_of_move {k : Choice} {p : Pc} (h : move s k p = some (e, p')) : Edge s k p e p' := by
  unfold move at h
  split at h
  · split_ifs at h with hc
    cases h
    exact .openInode _ _ hc.1 hc.2
  · cases h; exact .openFifo _ _
  · split at h
    · split_ifs at h with hc
      cases h
      exact .close _ _ ‹_› hc
    · cases h
  · split at h
    · cases h
      exact .enter _ _ _ _ ‹_› rfl
    · cases h
  · exact edge_of_fileOp h
  · cases h; exact .signal _ _ _
  · cases h; exact .exit _ _ _ _
  · split_ifs at h with hc
    cases h
    exact .unbind _ hc
  · exact edge_of_remove h
  · cases h

theorem edge_of_step {s t : State} {c : ℕ} {k : Choice} {e : Effect} (h : program.Step s c k e t) :
    Edge s.shared k (s.pc c) e (t.pc c) :=
  edge_of_move h.move

end Inversion

section Life
variable {c d d' : ℕ} {e : Effect} (s : Shared) (g : Life → Life) (a : Action)

@[simp] theorem setLife_self : (s.setLife d g).life d = g (s.life d) := Function.update_self _ _ _

theorem setLife_of_ne (h : d ≠ d') : (s.setLife d' g).life d = s.life d :=
  Function.update_of_ne h _ _

@[simp] theorem record_life : (s.record c d a).life = s.life := by
  cases a <;> rfl

theorem effect_devc (h : e ≠ .devmFree d) :
    ((effect c e s).life d).devc = (s.life d).devc := by
  cases e with
  | op => simp [effect, Shared.setDevc]
  | unbind d' | kfifoFree d' | cdevDel d' =>
      by_cases hd : d = d'
      · subst hd
        simp [effect, Shared.setDevc]
      · simp [effect, setLife_of_ne _ _ hd, Shared.setDevc]
  | devmFree d' =>
      have hd : d ≠ d' := fun hd => h (hd ▸ rfl)
      simp [effect, setLife_of_ne _ _ hd]
  | _ => rfl

theorem effect_fifo (h : e ≠ .kfifoFree d) :
    ((effect c e s).life d).fifo = (s.life d).fifo := by
  cases e with
  | op => simp [effect, Shared.setDevc]
  | unbind d' | devmFree d' | cdevDel d' =>
      by_cases hd : d = d'
      · subst hd
        simp [effect]
      · simp [effect, setLife_of_ne _ _ hd]
  | kfifoFree d' =>
      have hd : d ≠ d' := fun hd => h (hd ▸ rfl)
      simp [effect, setLife_of_ne _ _ hd, Shared.setDevc]
  | _ => rfl

/-- A `cdev` is never added again. -/
theorem effect_cdev (h : ((effect c e s).life d).cdev = true) : (s.life d).cdev = true := by
  cases e with
  | op => simpa [effect, Shared.setDevc] using h
  | unbind d' | devmFree d' | kfifoFree d' =>
      by_cases hd : d = d'
      · subst hd
        simpa [effect, Shared.setDevc] using h
      · simpa [effect, setLife_of_ne _ _ hd, Shared.setDevc] using h
  | cdevDel d' =>
      by_cases hd : d = d'
      · subst hd
        simp [effect] at h
      · simpa [effect, setLife_of_ne _ _ hd] using h
  | _ => exact h

end Life

/-- The `fifo_prvt_devc` that the next step of a call in progress touches. -/
def devcAhead : Pc → Option ℕ
  | .opening _ iCdev => some (containerOf iCdev)
  | .op d _ _ _ => some d
  | _ => none

/-- The kfifo that the next step of a call touches. -/
def fifoAhead : Pc → Option ℕ
  | .op d _ _ st => if st.usesFifo then some d else none
  | _ => none

/-- What a step of an open, a read or a write touches is still there: also the
`fifo_prvt_devc` with the `cdev` that a new open finds. -/
def Live (s : State) (a : ℕ × Choice) : Prop :=
  ∀ t, program.next s a = some t →
    (∀ f d, a.2 = .openInode f d → (s.shared.life d).devc = true) ∧
    (∀ d, devcAhead (s.pc a.1) = some d → (s.shared.life d).devc = true) ∧
    ∀ d, fifoAhead (s.pc a.1) = some d → (s.shared.life d).fifo = true

/-- No read or write has its copy ahead of it when the kfifo is freed and none
takes its mutex later; no call is in progress when the `fifo_prvt_devc` is freed
and no read or write begins later. -/
structure Guarded (s : State) (a : ℕ × Choice) : Prop where
  enter : ∀ f call file d, a.2 = .call f call → s.shared.files f = some file →
    file.privateData = some d → (s.shared.life d).devc = true
  lock : ∀ d f call, a.2 = .run → s.pc a.1 = .op d f call .lock →
    (s.shared.devcs d).owner (mutexOf call) = none → (s.shared.life d).fifo = true
  kfifoFree : ∀ d, s.pc a.1 = .remove d .kfifoFree → ∀ u, fifoAhead (s.pc u) ≠ some d
  devmFree : ∀ d, s.pc a.1 = .remove d .devmFree → ∀ u, devcAhead (s.pc u) ≠ some d

/-- What the calls in progress still have to touch is there. -/
structure Alive (s : State) : Prop where
  devc : ∀ u d, devcAhead (s.pc u) = some d → (s.shared.life d).devc = true
  fifo : ∀ u d, fifoAhead (s.pc u) = some d → (s.shared.life d).fifo = true

/-- The `cdev` is deleted before the `fifo_prvt_devc` around it is freed. -/
structure Unpublished (s : State) : Prop where
  devc : ∀ d, (s.shared.life d).cdev = true → (s.shared.life d).devc = true
  deleted : ∀ u d st, s.pc u = .remove d st → st = .deviceDestroy ∨ st = .devmFree →
    (s.shared.life d).cdev = false

section Ahead
variable {s : Shared} {k : Choice} {p p' : Pc} {e : Effect} {d : ℕ}

theorem devcAhead_edge (h : Edge s k p e p') (hd : devcAhead p' = some d) :
    devcAhead p = some d ∨ (s.life d).cdev = true ∨
      ∃ f call file, k = .call f call ∧ s.files f = some file ∧ file.privateData = some d := by
  cases h with
  | openInode f d' _ hcdev => cases hd; exact .inr (.inl hcdev)
  | enter f d' file call hfile hdata => cases hd; exact .inr (.inr ⟨f, call, file, rfl, hfile, hdata⟩)
  | op => exact .inl hd
  | _ => cases hd

theorem fifoAhead_edge (h : Edge s k p e p') (hd : fifoAhead p' = some d) :
    fifoAhead p = some d ∨ k = .run ∧ ∃ f call, p = .op d f call .lock ∧
      (s.devcs d).owner (mutexOf call) = none := by
  cases h with
  | op d' f call st st' a hop =>
      cases hop with
      | lock _ ho => cases hd; exact .inr ⟨rfl, f, call, rfl, ho⟩
      | fromUser | toUser => exact .inl hd
      | publish | consume => cases hd
  | _ => cases hd

theorem edge_devmFree (h : Edge s k p (.devmFree d) p') :
    p = .remove d .devmFree ∧ p' = .remove d .finished := by
  generalize he : Effect.devmFree d = e at h
  cases h <;> cases he
  exact ⟨rfl, rfl⟩

theorem edge_kfifoFree (h : Edge s k p (.kfifoFree d) p') :
    p = .remove d .kfifoFree ∧ p' = .remove d .cdevDel := by
  generalize he : Effect.kfifoFree d = e at h
  cases h <;> cases he
  exact ⟨rfl, rfl⟩

theorem edge_unpublished {st : RemoveStage} (h : Edge s k p e (.remove d st))
    (hst : st = .deviceDestroy ∨ st = .devmFree) :
    e = .cdevDel d ∨ p = .remove d .deviceDestroy := by
  cases h with
  | cdevDel => exact .inl rfl
  | deviceDestroy => exact .inr rfl
  | unbind | sysfsRemoveGroup | kfifoFree | devmFree => simp at hst

end Ahead

section Steps
variable {s t : State} {c : ℕ} {k : Choice} {e : Effect}

theorem Alive.step (h : Alive s) (hu : Unpublished s) (hok : Guarded s (c, k))
    (he : program.Step s c k e t) : Alive t where
  devc u d hd := by
    have hedge := edge_of_step he
    rw [he.shared, program_effect]
    by_cases hfree : e = .devmFree d
    · subst hfree
      obtain ⟨hp, hp'⟩ := edge_devmFree hedge
      by_cases huc : u = c
      · rw [huc, hp'] at hd
        cases hd
      · rw [he.others u huc] at hd
        exact absurd hd (hok.devmFree d hp u)
    · rw [effect_devc s.shared hfree]
      by_cases huc : u = c
      · subst huc
        rcases devcAhead_edge hedge hd with hd' | hcdev | ⟨f, call, file, hk, hfile, hdata⟩
        · exact h.devc u d hd'
        · exact hu.devc d hcdev
        · exact hok.enter f call file d hk hfile hdata
      · rw [he.others u huc] at hd
        exact h.devc u d hd
  fifo u d hd := by
    have hedge := edge_of_step he
    rw [he.shared, program_effect]
    by_cases hfree : e = .kfifoFree d
    · subst hfree
      obtain ⟨hp, hp'⟩ := edge_kfifoFree hedge
      by_cases huc : u = c
      · rw [huc, hp'] at hd
        cases hd
      · rw [he.others u huc] at hd
        exact absurd hd (hok.kfifoFree d hp u)
    · rw [effect_fifo s.shared hfree]
      by_cases huc : u = c
      · subst huc
        rcases fifoAhead_edge hedge hd with hd' | ⟨hk, f, call, hp, ho⟩
        · exact h.fifo u d hd'
        · exact hok.lock d f call hk hp ho
      · rw [he.others u huc] at hd
        exact h.fifo u d hd

theorem Unpublished.step (h : Unpublished s) (he : program.Step s c k e t) : Unpublished t where
  devc d hd := by
    rw [he.shared, program_effect] at hd ⊢
    have hcdev := effect_cdev s.shared hd
    by_cases hfree : e = .devmFree d
    · subst hfree
      have hdead := h.deleted c d _ (edge_devmFree (edge_of_step he)).1 (.inr rfl)
      exact absurd (hcdev.symm.trans hdead) nofun
    · rw [effect_devc s.shared hfree]
      exact h.devc d hcdev
  deleted u d st hp hst := by
    have hkeep : (s.shared.life d).cdev = false → (t.shared.life d).cdev = false := by
      intro hdead
      rw [he.shared, program_effect, Bool.eq_false_iff]
      exact fun hd => absurd ((effect_cdev s.shared hd).symm.trans hdead) nofun
    by_cases huc : u = c
    · subst huc
      rcases edge_unpublished (hp ▸ edge_of_step he) hst with rfl | hs
      · rw [he.shared, program_effect]
        simp [effect]
      · exact hkeep (h.deleted u d _ hs (.inl rfl))
    · rw [he.others u huc] at hp
      exact hkeep (h.deleted u d st hp hst)

end Steps

section Runs
variable {s : State} {ok : State → ℕ × Choice → Prop}

theorem unpublished (h : system.ReachableWhen ok s) : Unpublished s := by
  refine Program.invariant ?_ ?_ h
  · rintro s ⟨devcs, _, rfl⟩
    exact ⟨fun _ _ => rfl, nofun⟩
  · intro s c k e t _ hs _ he
    exact hs.step he

theorem alive (h : system.ReachableWhen Guarded s) : Alive s := by
  refine Program.invariant ?_ ?_ h
  · rintro s ⟨devcs, _, rfl⟩
    exact ⟨nofun, nofun⟩
  · intro s c k e t hr hs hok he
    exact hs.step (unpublished hr) hok he

theorem live_of_alive (h : Alive s) (hu : Unpublished s) (a : ℕ × Choice) : Live s a := by
  intro t ht
  refine ⟨fun f d hk => ?_, h.devc a.1, h.fifo a.1⟩
  obtain ⟨e, he⟩ := Program.step_of_next ht
  have hedge := edge_of_step he
  rw [hk] at hedge
  generalize s.pc a.1 = p, t.pc a.1 = p' at hedge
  cases hedge with
  | openInode _ _ _ hcdev => exact hu.devc d hcdev

/-- In a run that keeps the removal apart from the calls, no open, read or write
touches freed memory. -/
theorem live_of_guarded {devcs : ℕ → PltdrvProbe.FifoPrvtDevc} (hdevcs : SetUp devcs)
    {as : List (ℕ × Choice)} (hok : system.Meets Guarded (initial devcs) as) :
    system.Meets Live (initial devcs) as := by
  have hs : system.ReachableWhen Guarded (initial devcs) := .start ⟨devcs, hdevcs, rfl⟩
  exact hs.meets (fun _ a hr _ => live_of_alive (alive hr) (unpublished hr) a) hok

/-- The test of `Guarded` for the threads below `N`. -/
def guardedBelow (N : ℕ) (s : State) (a : ℕ × Choice) : Bool :=
  (match a.2 with
    | .call f _ => (s.shared.files f).all fun file =>
        file.privateData.all fun d => (s.shared.life d).devc
    | _ => true) &&
  match s.pc a.1 with
  | .op d _ _ .lock => (s.shared.life d).fifo
  | .remove d .kfifoFree => (List.range N).all fun u => fifoAhead (s.pc u) ≠ some d
  | .remove d .devmFree => (List.range N).all fun u => devcAhead (s.pc u) ≠ some d
  | _ => true

theorem guarded_of_below {N : ℕ} {a : ℕ × Choice} (hN : ∀ u, N ≤ u → s.pc u = .unstarted)
    (h : guardedBelow N s a = true) : Guarded s a := by
  obtain ⟨henter, hstep⟩ := Bool.and_eq_true_iff.mp h
  refine ⟨fun f call file d hk hfile hdata => ?_, fun d f call _ hp _ => ?_, fun d hp u hu => ?_,
    fun d hp u hu => ?_⟩
  · simpa [hk, hfile, hdata] using henter
  · simpa [hp] using hstep
  all_goals
    simp only [hp, List.all_eq_true, List.mem_range, decide_eq_true_eq] at hstep
  · exact Program.forall_of_below hN (Q := fun p => fifoAhead p ≠ some d) nofun hstep u hu
  · exact Program.forall_of_below hN (Q := fun p => devcAhead p ≠ some d) nofun hstep u hu

end Runs

def defaultDevc : PltdrvProbe.FifoPrvtDevc := ⟨⟨16, []⟩, ⟨0, 16⟩, 0⟩

theorem setUp_default : SetUp fun _ => defaultDevc := fun _ =>
  ⟨⟨⟨0, []⟩, ⟨0, 16⟩, 0⟩, true, rfl⟩

def steps (c n : ℕ) : List (ℕ × Choice) := List.replicate n (c, .run)

/-- The device is removed to the end after the write on its handle has returned. -/
def writeThenRemove : List (ℕ × Choice) :=
  [(0, .openInode 0 0), (0, .run), (1, .call 0 (.write ⟨[7], 1⟩))] ++ steps 1 5 ++
    (2, .remove 0) :: steps 2 5

theorem live_of_guarded_writeThenRemove :
    system.Meets Live (initial fun _ => defaultDevc) writeThenRemove ∧
      ∃ s, system.run (initial fun _ => defaultDevc) writeThenRemove = some s ∧
        s.pc 1 = .returned 0 0 (.write ⟨[7], 1⟩) (.value 1) ∧ s.pc 2 = .remove 0 .finished ∧
        s.shared.life 0 = ⟨false, false, false, false⟩ := by
  refine ⟨live_of_guarded setUp_default ?_, _, rfl, rfl, rfl, rfl⟩
  exact Program.meets_of_passes (N := 3) (fun _ => rfl) (fun _ _ => guarded_of_below)
    (fun _ _ => rfl) (by decide) (by decide)

/-- The kfifo is freed while a write holds `w_f_lock`, before it copies. -/
def removeDuringWrite : List (ℕ × Choice) :=
  [(0, .openInode 0 0), (0, .run), (1, .call 0 (.write ⟨[7], 1⟩)), (1, .run)] ++
    (2, .remove 0) :: steps 2 2

theorem not_live_removeDuringWrite :
    ¬∀ devcs, SetUp devcs → ∀ as, system.Meets Live (initial devcs) as := by
  intro h
  have hlast := (h _ setUp_default (removeDuringWrite ++ [(1, .run)])).of_append rfl
  have hlive := (hlast.1 _ rfl).2.2 0 rfl
  exact absurd hlive (by decide)

end LinuxDeviceDrivers.PltdrvFiles