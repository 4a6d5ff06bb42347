import LinuxDeviceDrivers.FifoFileOps
import LinuxDeviceDrivers.ThreadCount

/-!
# The kernelnewbies module and its users

Thread 0 loads and unloads the module, any number of times; the others open the
device, read and write through their handles and close them. An open finds the
`cdev` and takes the reference that `.owner` asks for, unless the module is
going. `rmmod` is refused while a handle is open, but a failed load does not ask.

`kernelnewbies_init` adds the `cdev` before it allocates the kfifo. A handle that
is opened in between can be used on a kfifo that is not there, and if it never
comes, the module goes away under its handles. Nothing else can happen to them.
-/
namespace LinuxDeviceDrivers.KernelnewbiesFiles
open KernelPrimitives TransitionSystem ThreadProgram ThreadCount FifoFileOps

/-! ## Loading and unloading -/

inductive InitPc where
  | allocChrdevRegion
  | classCreate
  | deviceCreate
  | cdevAdd
  | kfifoAlloc
  | errAllocFifo (ret : ℤ)
  | errAddDevice (ret : ℤ)
  | errDeviceCreate (ret : ℤ)
  | errClassCreate (ret : ℤ)
  | returned (ret : ℤ)
deriving DecidableEq, Repr

inductive ExitPc where
  | cdevDel
  | deviceDestroy
  | classDestroy
  | unregisterChrdevRegion
  | kfifoFree
  | returned
deriving DecidableEq, Repr

/-- What a step of the two functions does to the data of the module. -/
inductive Change where
  | none
  | load
  | cdevAdd
  | cdevDel
  | kfifoAlloc (f : Kfifo)
  | kfifoFree
deriving DecidableEq, Repr

/-- A call that fails as the kernel says, or does its work. -/
def orGoto (res : Option Errno) (e : Change) (next : InitPc) (label : ℤ → InitPc) :
    Change × InitPc :=
  match res with
  | none => (e, next)
  | some err => (.none, label err.val)

/-- The error of `cdev_add` is in `rc`, and `ret` is still 0. -/
def kernelnewbiesInit (fsize : BitVec 32) (res : Option Errno) : InitPc → Change × InitPc
  | .allocChrdevRegion => orGoto res .none .classCreate .returned
  | .classCreate => orGoto res .none .deviceCreate .errClassCreate
  | .deviceCreate => orGoto res .none .cdevAdd .errDeviceCreate
  | .cdevAdd => orGoto res .cdevAdd .kfifoAlloc fun _ => .errAddDevice 0
  | .kfifoAlloc =>
      match KernelPrimitives.kfifoAlloc fsize res.isNone with
      | .ok f => (.kfifoAlloc f, .returned 0)
      | .error ret => (.none, .errAllocFifo ret)
  | .errAllocFifo ret => (.cdevDel, .errAddDevice ret)
  | .errAddDevice ret => (.none, .errDeviceCreate ret)
  | .errDeviceCreate ret => (.none, .errClassCreate ret)
  | .errClassCreate ret => (.none, .returned ret)
  | .returned ret => (.none, .returned ret)

def kernelnewbiesExit : ExitPc → Change × ExitPc
  | .cdevDel => (.cdevDel, .deviceDestroy)
  | .deviceDestroy => (.none, .classDestroy)
  | .classDestroy => (.none, .unregisterChrdevRegion)
  | .unregisterChrdevRegion => (.none, .kfifoFree)
  | .kfifoFree => (.kfifoFree, .returned)
  | .returned => (.none, .returned)

/-- The state of the module for the loader, with the step its function is at. -/
inductive Life where
  | unloaded
  | coming (fsize : BitVec 32) (p : InitPc)
  | live
  | going (p : ExitPc)
deriving DecidableEq, Repr

/-- A module whose init function returns a negative value is freed. -/
def loaderStep (res : Option Errno) : Life → Option (Change × Life)
  | .coming fsize p =>
      match p with
      | .returned ret => some (.none, if ret < 0 then .unloaded else .live)
      | p => some ((kernelnewbiesInit fsize res p).1, .coming fsize (kernelnewbiesInit fsize res p).2)
  | .going p =>
      match p with
      | .returned => some (.none, .unloaded)
      | p => some ((kernelnewbiesExit p).1, .going (kernelnewbiesExit p).2)
  | .unloaded | .live => none

/-- `try_module_get` succeeds. -/
def Life.gettable : Life → Bool
  | .coming _ _ | .live => true
  | .unloaded | .going _ => false

/-! ## Users -/

/-- A `struct file`: whether its open has returned, the number of calls in
progress on it, and whether it is closed. -/
structure File where
  opened : Bool
  refs : ℕ
  closed : Bool
deriving DecidableEq, Repr

/-- `refs` is the reference count of the module. `wild` tells that a call has
used the kfifo while none was allocated. -/
structure Shared where
  life : Life
  refs : ℕ
  cdev : Bool
  allocated : Bool
  dev : FifoDevc
  files : ℕ → Option File
  wild : Bool

inductive Pc where
  | loader
  | idle
  | opening (f : ℕ)
  | opened (f : ℕ)
  | releasing (f : ℕ)
  | closed (f : ℕ)
  | op (f : ℕ) (call : Call) (st : Stage)
  | leaving (f : ℕ) (call : Call) (out : Outcome)
  | returned (f : ℕ) (call : Call) (out : Outcome)
deriving DecidableEq, Repr

inductive Choice where
  | insmod (fsize : BitVec 32)
  | kernel (res : Option Errno)
  | rmmod
  | openInode (f : ℕ)
  | close
  | call (f : ℕ) (call : Call)
  | run
  | signal
deriving DecidableEq, Repr

inductive Effect where
  | skip
  | loader (e : Change) (l : Life)
  | newFile (f : ℕ)
  | setOpened (f : ℕ)
  | closeFile (f : ℕ)
  | modulePut
  | fget (f : ℕ)
  | fput (f : ℕ)
  | op (st : Stage) (a : Action)
deriving DecidableEq, Repr

def driverOpenFifo (f : ℕ) : Effect × Pc := (.setOpened f, .opened f)

def driverReleaseFifo (f : ℕ) : Effect × Pc := (.modulePut, .closed f)

/-- The two mutexes are `read_access` and `write_access`. -/
def driverWriteFifo : FifoDevc → WriteBuf → Stage → Option (Action × (Stage ⊕ Outcome)) :=
  writeFifo

def driverReadFifo : FifoDevc → ReadBuf → Stage → Option (Action × (Stage ⊕ Outcome)) :=
  readFifo

def fileOp (s : Shared) (f : ℕ) (call : Call) (st : Stage) : Option (Effect × Pc) :=
  let step := match call with
    | .write buf => driverWriteFifo s.dev buf st
    | .read buf => driverReadFifo s.dev buf st
  step.map fun
    | (a, .inl st') => (.op st a, .op f call st')
    | (a, .inr out) => (.op st a, .leaving f call out)

/-- The last reference to the handle is put, and the release is called. -/
def closeFile (s : Shared) (f : ℕ) : Option (Effect × Pc) :=
  match s.files f with
  | some file => if file.refs = 0 then some (.closeFile f, .releasing f) else none
  | none => none

def callFile (s : Shared) (f : ℕ) (call : Call) : Option (Effect × Pc) :=
  match s.files f with
  | some ⟨true, _, false⟩ => some (.fget f, .op f call .lock)
  | _ => none

def move (s : Shared) : Choice → Pc → Option (Effect × Pc)
  | .insmod fsize, .loader =>
      if s.life = .unloaded then some (.loader .load (.coming fsize .allocChrdevRegion), .loader)
      else none
  | .kernel res, .loader => (loaderStep res s.life).map fun m => (.loader m.1 m.2, .loader)
  | .rmmod, .loader =>
      if s.life = .live ∧ s.refs = 0 then some (.loader .none (.going .cdevDel), .loader) else none
  | .openInode f, .idle =>
      if s.files f = none ∧ s.cdev ∧ s.life.gettable then some (.newFile f, .opening f) else none
  | .run, .opening f => some (driverOpenFifo f)
  | .close, .opened f => closeFile s f
  | .run, .releasing f => some (driverReleaseFifo f)
  | .call f call, .idle => callFile s f call
  | .run, .op f call st => fileOp s f call st
  | .signal, .op f call .lock => some (.skip, .leaving f call .interrupted)
  | .run, .leaving f call out => some (.fput f, .returned f call out)
  | _, _ => none

namespace Shared

def setFile (s : Shared) (f : ℕ) (g : File → File) : Shared :=
  { s with files := Function.update s.files f ((s.files f).map g) }

/-- The static data of a module that is loaded are new: `myfifo` is zero, and
`DEFINE_MUTEX` makes the mutexes. -/
def change (s : Shared) : Change → Shared
  | .none => s
  | .load => { s with cdev := false, allocated := false, dev := ⟨⟨1, []⟩, fun _ => Option.none⟩ }
  | .cdevAdd => { s with cdev := true }
  | .cdevDel => { s with cdev := false }
  | .kfifoAlloc f => { s with allocated := true, dev := { s.dev with myfifo := f } }
  | .kfifoFree => { s with allocated := false, dev := { s.dev with myfifo := ⟨1, []⟩ } }

end Shared

def effect (c : ℕ) : Effect → Shared → Shared
  | .skip, s => s
  | .loader e l, s => { s.change e with life := l }
  | .newFile f, s =>
      { s with files := Function.update s.files f (some ⟨false, 0, false⟩), refs := s.refs + 1 }
  | .setOpened f, s => s.setFile f fun file => { file with opened := true }
  | .closeFile f, s => s.setFile f fun file => { file with closed := true }
  | .modulePut, s => { s with refs := s.refs - 1 }
  | .fget f, s => s.setFile f fun file => { file with refs := file.refs + 1 }
  | .fput f, s => s.setFile f fun file => { file with refs := file.refs - 1 }
  | .op st a, s =>
      { s with dev := a.apply c s.dev, wild := s.wild || (st.usesFifo && !s.allocated) }

def program : Program Shared Choice Effect Pc where
  move := move
  effect := effect
  others _ p := p

@[simp] theorem program_effect (c : ℕ) (e : Effect) (s : Shared) :
    program.effect c e s = effect c e s := rfl

theorem others_id (Q : Pc → Prop) : ∀ e p, Q (program.others e p) ↔ Q p := fun _ _ => Iff.rfl

abbrev State := Config Shared Pc

def initial : State where
  shared := ⟨.unloaded, 0, false, false, ⟨⟨1, []⟩, fun _ => none⟩, fun _ => none, false⟩
  pc c := if c = 0 then .loader else .idle

def system : System State (ℕ × Choice) := program.system fun s => s = initial

/-! ## Statement -/

/-- The thread has opened a handle or is about to, or releases it. -/
def HoldsModule : Pc → Prop
  | .opening _ | .opened _ | .releasing _ => True
  | _ => False

/-- A read or write is in progress on the handle. -/
def CallOn (f : ℕ) : Pc → Prop
  | .op g _ _ | .leaving g _ _ => g = f
  | _ => False

/-- The thread is in the code of the module, or going to be. -/
def Uses (p : Pc) : Prop := HoldsModule p ∨ ∃ f, CallOn f p

/-- Nobody has used a kfifo that was not there, and the module is loaded as long
as somebody uses it. -/
structure Sound (s : State) : Prop where
  tame : s.shared.wild = false
  loaded : ∀ c, Uses (s.pc c) → s.shared.life ≠ .unloaded

/-- No read or write copies while `kernelnewbies_init` has not come to its end
with success, and none of its errors comes to the loader while the module is
used. -/
structure Timed (s : State) (a : ℕ × Choice) : Prop where
  copies : a.2 = .run → ∀ f call, s.pc a.1 = .op f call .copy →
    ∀ fsize p, s.shared.life = .coming fsize p → p = .returned 0
  aborts : (∃ res, a.2 = .kernel res) → s.pc a.1 = .loader →
    ∀ fsize ret, s.shared.life = .coming fsize (.returned ret) → ret < 0 → ∀ c, ¬Uses (s.pc c)

/-- Every move, with the condition under which it is taken. -/
inductive Edge (s : Shared) : Choice → Pc → Effect → Pc → Prop
  | insmod (fsize : BitVec 32) : s.life = .unloaded →
      Edge s (.insmod fsize) .loader (.loader .load (.coming fsize .allocChrdevRegion)) .loader
  | kernel (res : Option Errno) (e : Change) (l : Life) : loaderStep res s.life = some (e, l) →
      Edge s (.kernel res) .loader (.loader e l) .loader
  | rmmod : s.life = .live → s.refs = 0 →
      Edge s .rmmod .loader (.loader .none (.going .cdevDel)) .loader
  | openInode (f : ℕ) : s.files f = none → s.cdev = true → s.life.gettable = true →
      Edge s (.openInode f) .idle (.newFile f) (.opening f)
  | openFifo (f : ℕ) : Edge s .run (.opening f) (.setOpened f) (.opened f)
  | close (f : ℕ) (file : File) : s.files f = some file → file.refs = 0 →
      Edge s .close (.opened f) (.closeFile f) (.releasing f)
  | release (f : ℕ) : Edge s .run (.releasing f) .modulePut (.closed f)
  | enter (f : ℕ) (file : File) (call : Call) : s.files f = some file → file.closed = false →
      Edge s (.call f call) .idle (.fget f) (.op f call .lock)
  | op (f : ℕ) (call : Call) (st st' : Stage) (a : Action) :
      FifoFileOps.Edge s.dev call st a (.inl st') →
      Edge s .run (.op f call st) (.op st a) (.op f call st')
  | leave (f : ℕ) (call : Call) (st : Stage) (a : Action) (out : Outcome) :
      FifoFileOps.Edge s.dev call st a (.inr out) →
      Edge s .run (.op f call st) (.op st a) (.leaving f call out)
  | signal (f : ℕ) (call : Call) :
      Edge s .signal (.op f call .lock) .skip (.leaving f call .interrupted)
  | put (f : ℕ) (call : Call) (out : Outcome) :
      Edge s .run (.leaving f call out) (.fput f) (.returned f call out)

section Inversion
variable {s : Shared} {e : Effect} {p' : Pc}

theorem edge_of_fileOp {f : ℕ} {call : Call} {st : Stage}
    (h : fileOp s f call st = some (e, p')) : Edge s .run (.op f call st) e p' := by
  unfold fileOp at h
  obtain ⟨⟨a, n⟩, hstep, hnext⟩ := Option.map_eq_some_iff.mp h
  have hedge : FifoFileOps.Edge s.dev call st a n := by
    cases call with
    | write buf => exact edge_of_write hstep
    | read buf => exact edge_of_read hstep
  cases n with
  | inl st' =>
      cases hnext
      exact .op f call st st' a hedge
  | inr out =>
      cases hnext
      exact .leave f call st a out hedge

theorem edge_of_closeFile {f : ℕ} (h : closeFile s f = some (e, p')) :
    Edge s .close (.opened f) e p' := by
  unfold closeFile at h
  split at h
  · rename_i file hfile
    obtain ⟨hrefs, hnext⟩ := Option.ite_none_right_eq_some.mp h
    cases hnext
    exact .close f file hfile hrefs
  · cases h

theorem edge_of_callFile {f : ℕ} {call : Call} (h : callFile s f call = some (e, p')) :
    Edge s (.call f call) .idle e p' := by
  unfold callFile at h
  split at h
  · rename_i refs hfile
    cases h
    exact .enter f ⟨true, refs, false⟩ call hfile rfl
  · cases h

theorem edge_of_move {k : Choice} {p : Pc} (h : move s k p = some (e, p')) : Edge s k p e p' := by
  cases k with
  | insmod fsize =>
      cases p with
      | loader =>
          obtain ⟨hlife, hnext⟩ := Option.ite_none_right_eq_some.mp h
          cases hnext
          exact .insmod fsize hlife
      | _ => cases h
  | kernel res =>
      cases p with
      | loader =>
          obtain ⟨⟨e, l⟩, hstep, hnext⟩ := Option.map_eq_some_iff.mp h
          cases hnext
          exact .kernel res e l hstep
      | _ => cases h
  | rmmod =>
      cases p with
      | loader =>
          obtain ⟨hidle, hnext⟩ := Option.ite_none_right_eq_some.mp h
          cases hnext
          exact .rmmod hidle.1 hidle.2
      | _ => cases h
  | openInode f =>
      cases p with
      | idle =>
          obtain ⟨hopen, hnext⟩ := Option.ite_none_right_eq_some.mp h
          cases hnext
          exact .openInode f hopen.1 hopen.2.1 hopen.2.2
      | _ => cases h
  | close =>
      cases p with
      | opened f => exact edge_of_closeFile h
      | _ => cases h
  | call f call =>
      cases p with
      | idle => exact edge_of_callFile h
      | _ => cases h
  | run =>
      cases p with
      | opening f => cases h; exact .openFifo f
      | releasing f => cases h; exact .release f
      | op f call st => exact edge_of_fileOp h
      | leaving f call out => cases h; exact .put f call out
      | _ => cases h
  | signal =>
      cases p with
      | op f call st =>
          cases st with
          | lock => cases h; exact .signal f call
          | _ => cases h
      | _ => cases h

theorem edge_of_step {s t : State} {c : ℕ} {k : Choice} {e : Effect} (h : program.Step s c k e t) :
    Edge s.shared k (s.pc c) e (t.pc c) :=
  edge_of_move h.move

end Inversion

/-! ## The books of the handles -/

/-- The handle is open, or about to be. -/
def Owns (f : ℕ) : Pc → Prop
  | .opening g | .opened g => g = f
  | _ => False

def callsOn : Option File → ℕ
  | some file => file.refs
  | none => 0

/-- The reference count of the module and those of the handles are the numbers
of threads that they stand for, and only a handle that is not closed is used. -/
structure Books (s : State) : Prop where
  refs : Counted HoldsModule s s.shared.refs
  calls : ∀ f, Counted (CallOn f) s (callsOn (s.shared.files f))
  owner : ∀ f file, s.shared.files f = some file → file.closed = false → ∃ c, Owns f (s.pc c)
  quiet : ∀ f file, s.shared.files f = some file → file.closed = true → file.refs = 0

theorem Owns.holdsModule {f : ℕ} {p : Pc} (h : Owns f p) : HoldsModule p := by
  cases p with
  | opening g | opened g => trivial
  | _ => cases h

@[simp] theorem change_files (s : Shared) (e : Change) : (s.change e).files = s.files := by
  cases e <;> rfl

@[simp] theorem change_refs (s : Shared) (e : Change) : (s.change e).refs = s.refs := by
  cases e <;> rfl

@[simp] theorem setFile_same (s : Shared) (f : ℕ) (g : File → File) :
    (s.setFile f g).files f = (s.files f).map g := by
  simp [Shared.setFile]

@[simp] theorem setFile_other (s : Shared) {f h : ℕ} (g : File → File) (hne : h ≠ f) :
    (s.setFile f g).files h = s.files h := by
  simp [Shared.setFile, hne]

theorem callsOn_setFile (s : Shared) (f : ℕ) {g : File → File} (hg : ∀ file, (g file).refs = file.refs)
    (h : ℕ) : callsOn ((s.setFile f g).files h) = callsOn (s.files h) := by
  by_cases hne : h = f
  · subst hne
    rw [setFile_same]
    cases s.files h with
    | none => rfl
    | some file => exact hg file
  · rw [setFile_other s g hne]

section Handles
variable {s t : State} {c : ℕ} {k : Choice} {e : Effect}

theorem Books.refs_ne_zero (h : Books s) (hc : Uses (s.pc c)) : s.shared.refs ≠ 0 := by
  have hholds : ∀ u, HoldsModule (s.pc u) → s.shared.refs ≠ 0 := by
    intro u hu hzero
    have hrefs := h.refs
    rw [hzero] at hrefs
    exact hrefs.nobody u hu
  rcases hc with hc | ⟨f, hf⟩
  · exact hholds c hc
  · have hcalls := h.calls f
    cases hfile : s.shared.files f with
    | none =>
        rw [hfile] at hcalls
        exact absurd hf (hcalls.nobody c)
    | some file =>
        rw [hfile] at hcalls
        cases hclosed : file.closed with
        | true =>
            rw [callsOn, h.quiet f file hfile hclosed] at hcalls
            exact absurd hf (hcalls.nobody c)
        | false =>
            obtain ⟨u, hu⟩ := h.owner f file hfile hclosed
            exact hholds u hu.holdsModule

theorem Books.nobody (h : Books s) (hzero : s.shared.refs = 0) (c : ℕ) : ¬Uses (s.pc c) :=
  fun hc => h.refs_ne_zero hc hzero

theorem Books.refs_eq_zero (h : Books s) (hnone : ∀ c, ¬Uses (s.pc c)) : s.shared.refs = 0 :=
  h.refs.unique (counted_zero fun c hc => hnone c (.inl hc))

theorem Books.refs_step (hb : Books s) (h : program.Step s c k e t) :
    Counted HoldsModule t t.shared.refs := by
  have hedge := edge_of_step h
  rw [h.shared, program_effect]
  have stay := hb.refs.stay (others_id HoldsModule) h
  have enter := hb.refs.enter (others_id HoldsModule) h
  have leave := hb.refs.leave (others_id HoldsModule) h
  generalize s.pc c = p at hedge stay enter leave
  generalize t.pc c = p' at hedge stay enter leave
  cases hedge with
  | insmod | kernel =>
      rw [effect, change_refs]
      exact stay Iff.rfl
  | rmmod => exact stay Iff.rfl
  | openInode => exact enter id trivial
  | openFifo | close => exact stay Iff.rfl
  | release =>
      obtain ⟨n, hn, ht⟩ := leave trivial id
      rw [effect, hn]
      exact ht
  | enter | op | leave | signal | put => exact stay Iff.rfl

theorem Books.calls_step (hb : Books s) (h : program.Step s c k e t) (g : ℕ) :
    Counted (CallOn g) t (callsOn (t.shared.files g)) := by
  have hedge := edge_of_step h
  rw [h.shared, program_effect]
  have stay := (hb.calls g).stay (others_id (CallOn g)) h
  have enter := (hb.calls g).enter (others_id (CallOn g)) h
  have leave := (hb.calls g).leave (others_id (CallOn g)) h
  generalize s.pc c = p at hedge stay enter leave
  generalize t.pc c = p' at hedge stay enter leave
  cases hedge with
  | insmod | kernel =>
      rw [effect, change_files]
      exact stay Iff.rfl
  | rmmod => exact stay Iff.rfl
  | openInode f hnone =>
      have hsame : callsOn ((effect c (.newFile f) s.shared).files g) = callsOn (s.shared.files g) := by
        by_cases hne : g = f
        · subst hne
          simp [effect, hnone, callsOn]
        · simp [effect, hne]
      rw [hsame]
      exact stay Iff.rfl
  | openFifo f =>
      have hsame := callsOn_setFile s.shared f (g := fun x => { x with opened := true })
        (fun _ => rfl) g
      rw [effect, hsame]
      exact stay Iff.rfl
  | close f =>
      have hsame := callsOn_setFile s.shared f (g := fun x => { x with closed := true })
        (fun _ => rfl) g
      rw [effect, hsame]
      exact stay Iff.rfl
  | release => exact stay Iff.rfl
  | enter f file call hfile =>
      by_cases hne : g = f
      · subst hne
        rw [effect, setFile_same, hfile]
        rw [hfile] at enter
        exact enter id rfl
      · rw [effect, setFile_other _ _ hne]
        exact stay (iff_of_false (fun hg => hne hg.symm) id)
  | op | leave | signal => exact stay Iff.rfl
  | put f call out =>
      by_cases hne : g = f
      · subst hne
        obtain ⟨n, hn, ht⟩ := leave rfl id
        cases hfile : s.shared.files g with
        | none =>
            rw [hfile] at hn
            cases hn
        | some file =>
            rw [hfile] at hn
            rw [effect, setFile_same, hfile]
            show Counted (CallOn g) t (file.refs - 1)
            rw [show file.refs = n + 1 from hn]
            exact ht
      · rw [effect, setFile_other _ _ hne]
        exact stay (iff_of_false id fun hg => hne hg.symm)

theorem of_setFile {s : Shared} {f g : ℕ} {upd : File → File} {file : File}
    (h : (s.setFile f upd).files g = some file) :
    ∃ old, s.files g = some old ∧ (g = f ∧ file = upd old ∨ g ≠ f ∧ file = old) := by
  by_cases hne : g = f
  · subst hne
    rw [setFile_same] at h
    obtain ⟨old, hold, hupd⟩ := Option.map_eq_some_iff.mp h
    exact ⟨old, hold, .inl ⟨rfl, hupd.symm⟩⟩
  · rw [setFile_other s upd hne] at h
    exact ⟨file, h, .inr ⟨hne, rfl⟩⟩

theorem of_newFile {s : Shared} {f g : ℕ} {file : File}
    (h : (effect c (.newFile f) s).files g = some file) :
    g = f ∧ file = ⟨false, 0, false⟩ ∨ g ≠ f ∧ s.files g = some file := by
  by_cases hne : g = f
  · subst hne
    simp only [effect, Function.update_self, Option.some.injEq] at h
    exact .inl ⟨rfl, h.symm⟩
  · simp only [effect, Function.update_of_ne hne] at h
    exact .inr ⟨hne, h⟩

theorem Books.quiet_step (hb : Books s) (h : program.Step s c k e t) (g : ℕ) (file : File)
    (hfile : t.shared.files g = some file) (hclosed : file.closed = true) : file.refs = 0 := by
  have hedge := edge_of_step h
  rw [h.shared, program_effect] at hfile
  generalize s.pc c = p at hedge
  generalize t.pc c = p' at hedge
  cases hedge with
  | insmod | kernel =>
      rw [effect, change_files] at hfile
      exact hb.quiet g file hfile hclosed
  | rmmod | release | op | leave | signal => exact hb.quiet g file hfile hclosed
  | openInode f =>
      rcases of_newFile hfile with ⟨_, rfl⟩ | ⟨_, hold⟩
      · rfl
      · exact hb.quiet g file hold hclosed
  | openFifo f =>
      obtain ⟨old, hold, ⟨_, rfl⟩ | ⟨_, rfl⟩⟩ := of_setFile hfile
      · exact hb.quiet g old hold hclosed
      · exact hb.quiet g file hold hclosed
  | close f file' hfile' hrefs =>
      obtain ⟨old, hold, ⟨rfl, rfl⟩ | ⟨_, rfl⟩⟩ := of_setFile hfile
      · obtain rfl : file' = old := Option.some.inj (hfile'.symm.trans hold)
        exact hrefs
      · exact hb.quiet g file hold hclosed
  | enter f file' call hfile' hopen =>
      obtain ⟨old, hold, ⟨rfl, rfl⟩ | ⟨_, rfl⟩⟩ := of_setFile hfile
      · obtain rfl : file' = old := Option.some.inj (hfile'.symm.trans hold)
        exact absurd (hopen.symm.trans hclosed) (by decide)
      · exact hb.quiet g file hold hclosed
  | put f =>
      obtain ⟨old, hold, ⟨_, rfl⟩ | ⟨_, rfl⟩⟩ := of_setFile hfile
      · show old.refs - 1 = 0
        rw [hb.quiet g old hold hclosed]
      · exact hb.quiet g file hold hclosed

theorem owner_kept (h : program.Step s c k e t) {g : ℕ} (hs : ∃ u, Owns g (s.pc u))
    (hc : Owns g (s.pc c) → Owns g (t.pc c)) : ∃ u, Owns g (t.pc u) := by
  obtain ⟨u, hu⟩ := hs
  by_cases huc : u = c
  · exact ⟨c, hc (huc ▸ hu)⟩
  · exact ⟨u, (at_other (others_id (Owns g)) h huc).mpr hu⟩

theorem Books.owner_step (hb : Books s) (h : program.Step s c k e t) (g : ℕ) (file : File)
    (hfile : t.shared.files g = some file) (hopen : file.closed = false) :
    ∃ u, Owns g (t.pc u) := by
  have hedge := edge_of_step h
  have kept := owner_kept (g := g) h
  have mine : Owns g (t.pc c) → ∃ u, Owns g (t.pc u) := fun hc => ⟨c, hc⟩
  rw [h.shared, program_effect] at hfile
  generalize s.pc c = p at hedge kept
  generalize t.pc c = p' at hedge kept mine
  cases hedge with
  | insmod | kernel =>
      rw [effect, change_files] at hfile
      exact kept (hb.owner g file hfile hopen) id
  | rmmod | release | op | leave | signal => exact kept (hb.owner g file hfile hopen) False.elim
  | openInode f =>
      rcases of_newFile hfile with ⟨rfl, _⟩ | ⟨_, hold⟩
      · exact mine rfl
      · exact kept (hb.owner g file hold hopen) False.elim
  | openFifo f =>
      obtain ⟨old, hold, ⟨_, rfl⟩ | ⟨_, rfl⟩⟩ := of_setFile hfile
      · exact kept (hb.owner g old hold hopen) id
      · exact kept (hb.owner g file hold hopen) id
  | close f =>
      obtain ⟨old, hold, ⟨_, rfl⟩ | ⟨hne, rfl⟩⟩ := of_setFile hfile
      · cases hopen
      · exact kept (hb.owner g file hold hopen) fun hg => hne hg.symm
  | enter f | put f =>
      obtain ⟨old, hold, ⟨_, rfl⟩ | ⟨_, rfl⟩⟩ := of_setFile hfile
      · exact kept (hb.owner g old hold hopen) False.elim
      · exact kept (hb.owner g file hold hopen) False.elim

theorem Books.step (hb : Books s) (h : program.Step s c k e t) : Books t :=
  ⟨hb.refs_step h, hb.calls_step h, hb.owner_step h, hb.quiet_step h⟩

theorem books_initial : Books initial where
  refs := counted_zero fun c => by
    simp only [initial]
    split_ifs <;> exact id
  calls f := counted_zero fun c => by
    simp only [initial]
    split_ifs <;> exact id
  owner _ _ h := nomatch h
  quiet _ _ h := nomatch h

end Handles

/-! ## The kfifo under its users -/

/-- The `cdev` is gone and there is no kfifo. A load that reports success
nevertheless has failed before the `cdev` was there for anybody to open. -/
def Undone (s : Shared) (ret : ℤ) : Prop :=
  s.cdev = false ∧ s.allocated = false ∧ (ret < 0 ∨ ret = 0 ∧ s.refs = 0)

def InitOk (s : Shared) : InitPc → Prop
  | .allocChrdevRegion | .classCreate | .deviceCreate | .cdevAdd =>
      s.cdev = false ∧ s.allocated = false ∧ s.refs = 0
  | .kfifoAlloc => s.allocated = false
  | .errAllocFifo ret => s.allocated = false ∧ ret < 0
  | .errAddDevice ret | .errDeviceCreate ret | .errClassCreate ret => Undone s ret
  | .returned ret => ret = 0 ∧ s.allocated = true ∨ Undone s ret

def LifeOk (s : Shared) : Life → Prop
  | .coming _ p => InitOk s p
  | .live => s.allocated = true ∨ s.cdev = false ∧ s.refs = 0
  | .unloaded | .going _ => s.refs = 0

section Loading
variable {s : Shared} {res : Option Errno} {fsize : BitVec 32} {p : InitPc}

theorem kfifoAlloc_error {mem : Bool} {ret : ℤ} (h : KernelPrimitives.kfifoAlloc fsize mem = .error ret) :
    ret < 0 := by
  simp only [KernelPrimitives.kfifoAlloc] at h
  split_ifs at h
  · cases h
    decide
  · cases h
    decide

theorem orGoto_initOk {e : Change} {next : InitPc} {label : ℤ → InitPc}
    (hok : InitOk (s.change e) next) (hfail : ∀ ret < 0, InitOk s (label ret)) :
    InitOk (s.change (orGoto res e next label).1) (orGoto res e next label).2 := by
  cases res with
  | none => exact hok
  | some err => exact hfail err.val err.neg

theorem initOk_step (h : InitOk s p) :
    InitOk (s.change (kernelnewbiesInit fsize res p).1) (kernelnewbiesInit fsize res p).2 := by
  cases p with
  | allocChrdevRegion => exact orGoto_initOk h fun ret hret => .inr ⟨h.1, h.2.1, .inl hret⟩
  | classCreate => exact orGoto_initOk h fun ret hret => ⟨h.1, h.2.1, .inl hret⟩
  | deviceCreate => exact orGoto_initOk h fun ret hret => ⟨h.1, h.2.1, .inl hret⟩
  | cdevAdd => exact orGoto_initOk h.2.1 fun _ _ => ⟨h.1, h.2.1, .inr ⟨rfl, h.2.2⟩⟩
  | kfifoAlloc =>
      cases halloc : KernelPrimitives.kfifoAlloc fsize res.isNone with
      | ok f =>
          simp only [kernelnewbiesInit, halloc]
          exact .inl ⟨rfl, rfl⟩
      | error ret =>
          simp only [kernelnewbiesInit, halloc]
          exact ⟨h, kfifoAlloc_error halloc⟩
  | errAllocFifo ret => exact ⟨rfl, h.1, .inl h.2⟩
  | errAddDevice ret => exact h
  | errDeviceCreate ret => exact h
  | errClassCreate ret => exact .inr h
  | returned ret => exact h

/-- What the loader can do while the init or the exit function runs. -/
theorem loaderStep_cases {life l : Life} {e : Change} (h : loaderStep res life = some (e, l)) :
    (∃ fsize p, life = .coming fsize p ∧ e = (kernelnewbiesInit fsize res p).1 ∧
      l = .coming fsize (kernelnewbiesInit fsize res p).2) ∨
    (∃ fsize ret, life = .coming fsize (.returned ret) ∧ e = .none ∧
      l = if ret < 0 then .unloaded else .live) ∨
    ∃ p, life = .going p ∧ (l = .unloaded ∨ ∃ p', l = .going p') := by
  cases life with
  | unloaded | live => cases h
  | coming fsize p =>
      cases p with
      | returned ret =>
          cases h
          exact .inr (.inl ⟨fsize, ret, rfl, rfl, rfl⟩)
      | _ =>
          cases h
          exact .inl ⟨fsize, _, rfl, rfl, rfl⟩
  | going p =>
      cases p with
      | returned =>
          cases h
          exact .inr (.inr ⟨_, rfl, .inl rfl⟩)
      | _ =>
          cases h
          exact .inr (.inr ⟨_, rfl, .inr ⟨_, rfl⟩⟩)

/-- Nothing in `kernelnewbies_init` takes the kfifo away again. -/
theorem init_keeps_kfifo (h : s.allocated = true) :
    (s.change (kernelnewbiesInit fsize res p).1).allocated = true := by
  cases p with
  | allocChrdevRegion | classCreate | deviceCreate | cdevAdd => cases res <;> exact h
  | kfifoAlloc =>
      cases halloc : KernelPrimitives.kfifoAlloc fsize res.isNone with
      | ok f => simp only [kernelnewbiesInit, halloc, Shared.change]
      | error ret =>
          simp only [kernelnewbiesInit, halloc]
          exact h
  | _ => exact h

theorem LifeOk.mono {s' : Shared} {l : Life} (h : LifeOk s l) (hcdev : s'.cdev = s.cdev)
    (hkfifo : s'.allocated = s.allocated) (hrefs : s.refs = 0 → s'.refs = 0) : LifeOk s' l := by
  have hundone : ∀ {ret}, Undone s ret → Undone s' ret := fun hu =>
    ⟨hcdev.trans hu.1, hkfifo.trans hu.2.1, hu.2.2.imp_right fun hr => ⟨hr.1, hrefs hr.2⟩⟩
  cases l with
  | unloaded | going => exact hrefs h
  | live => exact h.imp hkfifo.trans fun hc => ⟨hcdev.trans hc.1, hrefs hc.2⟩
  | coming fsize p =>
      cases p with
      | allocChrdevRegion | classCreate | deviceCreate | cdevAdd =>
          exact ⟨hcdev.trans h.1, hkfifo.trans h.2.1, hrefs h.2.2⟩
      | kfifoAlloc => exact hkfifo.trans h
      | errAllocFifo ret => exact ⟨hkfifo.trans h.1, h.2⟩
      | errAddDevice | errDeviceCreate | errClassCreate => exact hundone h
      | returned ret => exact h.imp (fun ha => ⟨ha.1, hkfifo.trans ha.2⟩) hundone

/-- A step of the loader that does not free a module in use. -/
theorem LifeOk.loader {e : Change} {l : Life} (h : LifeOk s s.life)
    (hstep : loaderStep res s.life = some (e, l))
    (habort : ∀ fsize ret, s.life = .coming fsize (.returned ret) → ret < 0 → s.refs = 0) :
    LifeOk (s.change e) l := by
  rcases loaderStep_cases hstep with ⟨fsize, p, hl, rfl, rfl⟩ | ⟨fsize, ret, hl, rfl, rfl⟩ | ⟨p, hl, hnext⟩
  · rw [hl] at h
    exact initOk_step h
  · rw [hl] at h
    split_ifs with hret
    · exact habort fsize ret hl hret
    · rcases h with ⟨_, halloc⟩ | ⟨hcdev, _, hneg | hzero⟩
      · exact .inl halloc
      · exact absurd hneg hret
      · exact .inr ⟨hcdev, hzero.2⟩
  · rw [hl] at h
    rcases hnext with rfl | ⟨p', rfl⟩
    · exact (change_refs s e).trans h
    · exact (change_refs s e).trans h

/-- An open comes when the `cdev` is there. -/
theorem LifeOk.newFile (h : LifeOk s s.life) (hcdev : s.cdev = true) (hget : s.life.gettable = true)
    (c f : ℕ) : LifeOk (effect c (.newFile f) s) s.life := by
  have hundone : ∀ {ret}, ¬Undone s ret := fun hu => absurd (hcdev.symm.trans hu.1) (by decide)
  cases hl : s.life with
  | unloaded | going =>
      rw [hl] at hget
      cases hget
  | live =>
      rw [hl] at h
      rcases h with halloc | ⟨hnone, _⟩
      · exact .inl halloc
      · exact absurd (hcdev.symm.trans hnone) (by decide)
  | coming fsize p =>
      rw [hl] at h
      cases p with
      | allocChrdevRegion | classCreate | deviceCreate | cdevAdd =>
          exact absurd (hcdev.symm.trans h.1) (by decide)
      | kfifoAlloc | errAllocFifo => exact h
      | errAddDevice | errDeviceCreate | errClassCreate => exact absurd h hundone
      | returned ret => exact h.imp_right fun hu => absurd hu hundone

/-- A used module whose init function has done its work has a kfifo. -/
theorem LifeOk.allocated (h : LifeOk s s.life) (hrefs : s.refs ≠ 0)
    (hinit : ∀ fsize p, s.life = .coming fsize p → p = .returned 0) : s.allocated = true := by
  cases hl : s.life with
  | unloaded | going =>
      rw [hl] at h
      exact absurd h hrefs
  | live =>
      rw [hl] at h
      exact h.resolve_right fun hc => hrefs hc.2
  | coming fsize p =>
      rw [hl, hinit fsize p hl] at h
      rcases h with ⟨_, halloc⟩ | ⟨_, _, hneg | hzero⟩
      · exact halloc
      · exact absurd hneg (by decide)
      · exact absurd hzero.2 hrefs

/-- Before that there is none. -/
theorem LifeOk.not_allocated (h : LifeOk s s.life) (hl : s.life = .coming fsize p)
    (hp : p ≠ .returned 0) : s.allocated = false := by
  rw [hl] at h
  cases p with
  | allocChrdevRegion | classCreate | deviceCreate | cdevAdd => exact h.2.1
  | kfifoAlloc => exact h
  | errAllocFifo ret => exact h.1
  | errAddDevice | errDeviceCreate | errClassCreate => exact h.2.1
  | returned ret =>
      rcases h with ⟨rfl, _⟩ | hu
      · exact absurd rfl hp
      · exact hu.2.1

end Loading

/-- What holds while every step is timed: whoever is going to move the index of
the kfifo has seen one that is there. -/
structure Inv (s : State) : Prop where
  books : Books s
  life : LifeOk s.shared s.shared.life
  sampled : ∀ c f call x, s.pc c = .op f call (.commit x) → s.shared.allocated = true
  tame : s.shared.wild = false

section Steps
variable {s t : State} {c : ℕ} {k : Choice} {e : Effect}

theorem LifeOk.step (h : LifeOk s.shared s.shared.life) (hb : Books s) (ht : Timed s (c, k))
    (hstep : program.Step s c k e t) : LifeOk t.shared t.shared.life := by
  have hedge := edge_of_step hstep
  rw [hstep.shared, program_effect]
  generalize hp : s.pc c = p at hedge
  generalize t.pc c = p' at hedge
  cases hedge with
  | insmod fsize hlife =>
      rw [hlife] at h
      exact ⟨rfl, rfl, h⟩
  | kernel res e l hloader =>
      have habort : ∀ fsize ret, s.shared.life = .coming fsize (.returned ret) → ret < 0 →
          s.shared.refs = 0 := fun fsize ret hl hret =>
        hb.refs_eq_zero (ht.aborts ⟨res, rfl⟩ hp fsize ret hl hret)
      exact (h.loader hloader habort).mono rfl rfl id
  | rmmod _ hrefs => exact hrefs
  | openInode f _ hcdev hget => exact h.newFile hcdev hget c f
  | release =>
      refine h.mono rfl rfl fun hzero => ?_
      show s.shared.refs - 1 = 0
      rw [hzero]
  | openFifo | close | enter | op | leave | signal | put => exact h.mono rfl rfl id

/-- The kfifo stays as long as the module is used. -/
theorem Inv.kfifo_stays (h : Inv s) (hstep : program.Step s c k e t) (hrefs : s.shared.refs ≠ 0)
    (halloc : s.shared.allocated = true) : t.shared.allocated = true := by
  have hedge := edge_of_step hstep
  have hlife := h.life
  rw [hstep.shared, program_effect]
  generalize s.pc c = p at hedge
  generalize t.pc c = p' at hedge
  cases hedge with
  | insmod fsize hl =>
      rw [hl] at hlife
      exact absurd hlife hrefs
  | kernel res e l hloader =>
      rcases loaderStep_cases hloader with ⟨fsize, p, hl, rfl, _⟩ | ⟨fsize, ret, hl, rfl, _⟩ | ⟨p, hl, _⟩
      · exact init_keeps_kfifo halloc
      · exact halloc
      · rw [hl] at hlife
        exact absurd hlife hrefs
  | rmmod | openInode | openFifo | close | release | enter | op | leave | signal | put =>
      exact halloc

/-- A timed use of the kfifo finds it. -/
theorem Inv.kfifo_there (h : Inv s) (ht : Timed s (c, .run)) {f : ℕ} {call : Call} {st : Stage}
    (hp : s.pc c = .op f call st) (hst : st.usesFifo = true) : s.shared.allocated = true := by
  have hrefs := h.books.refs_ne_zero (c := c) (.inr ⟨f, by rw [hp]; rfl⟩)
  cases st with
  | copy => exact h.life.allocated hrefs (ht.copies rfl f call hp)
  | commit x => exact h.sampled c f call x hp
  | lock | unlock => cases hst

theorem Inv.sampled_step (h : Inv s) (ht : Timed s (c, k)) (hstep : program.Step s c k e t) (u f : ℕ)
    (call : Call) (x : Transfer) (hu : t.pc u = .op f call (.commit x)) :
    t.shared.allocated = true := by
  by_cases huc : u = c
  · subst huc
    have hedge := edge_of_step hstep
    rw [hu] at hedge
    rw [hstep.shared, program_effect]
    generalize hp : s.pc u = p at hedge
    cases hedge with
    | op _ _ st _ a hop =>
        have hcopy : st.usesFifo = true := by cases hop <;> rfl
        exact h.kfifo_there ht hp hcopy
  · have hold : s.pc u = .op f call (.commit x) := (hstep.others u huc).symm.trans hu
    have hrefs := h.books.refs_ne_zero (c := u) (.inr ⟨f, by rw [hold]; rfl⟩)
    exact h.kfifo_stays hstep hrefs (h.sampled u f call x hold)

theorem Inv.tame_step (h : Inv s) (ht : Timed s (c, k)) (hstep : program.Step s c k e t) :
    t.shared.wild = false := by
  have hedge := edge_of_step hstep
  rw [hstep.shared, program_effect]
  generalize hp : s.pc c = p at hedge
  generalize t.pc c = p' at hedge
  have hop : ∀ f call st a, s.pc c = .op f call st → k = .run →
      (effect c (.op st a) s.shared).wild = false := by
    rintro f call st a hpc rfl
    show (s.shared.wild || (st.usesFifo && !s.shared.allocated)) = false
    rw [h.tame, Bool.false_or]
    cases hst : st.usesFifo with
    | false => rfl
    | true =>
        rw [h.kfifo_there ht hpc hst]
        rfl
  cases hedge with
  | insmod => exact h.tame
  | kernel res e l =>
      show (s.shared.change e).wild = false
      cases e <;> exact h.tame
  | op f call st st' a => exact hop f call st a hp rfl
  | leave f call st a => exact hop f call st a hp rfl
  | rmmod | openInode | openFifo | close | release | enter | signal | put => exact h.tame

theorem Inv.step (h : Inv s) (ht : Timed s (c, k)) (hstep : program.Step s c k e t) : Inv t :=
  ⟨h.books.step hstep, h.life.step h.books ht hstep, h.sampled_step ht hstep, h.tame_step ht hstep⟩

theorem Inv.sound (h : Inv s) : Sound s where
  tame := h.tame
  loaded c hc hlife := by
    have hrefs := h.life
    rw [hlife] at hrefs
    exact h.books.refs_ne_zero hc hrefs

end Steps

theorem inv_initial : Inv initial where
  books := books_initial
  life := rfl
  sampled c _ _ _ hc := by
    simp only [initial] at hc
    split_ifs at hc
  tame := rfl

theorem inv_reachable {s : State} (h : system.ReachableWhen Timed s) : Inv s := by
  refine Program.invariant (fun s hs => hs ▸ inv_initial) ?_ h
  intro s c k e t _ hs ht hstep
  exact hs.step ht hstep

/-- A copy before the kfifo is there. -/
theorem untimed_copy {s : State} (h : Inv s) {c f : ℕ} {call : Call} {fsize : BitVec 32} {p : InitPc}
    (hpc : s.pc c = .op f call .copy) (hl : s.shared.life = .coming fsize p)
    (hp : p ≠ .returned 0) : ∃ t, system.next s (c, .run) = some t ∧ ¬Sound t := by
  have hnone := h.life.not_allocated hl hp
  have hmove : ∃ a p', program.move s.shared .run (s.pc c) = some (.op .copy a, p') := by
    rw [hpc]
    cases call with
    | write buf => exact ⟨_, _, rfl⟩
    | read buf => exact ⟨_, _, rfl⟩
  obtain ⟨a, p', hmove⟩ := hmove
  refine ⟨_, Program.next_of_move hmove, fun hsound => ?_⟩
  have hwild : (s.shared.wild || (true && !s.shared.allocated)) = false := hsound.tame
  rw [hnone] at hwild
  simp at hwild

/-- The loader frees the module of a failed load, whoever uses it. -/
theorem untimed_abort {s : State} {c u : ℕ} {res : Option Errno} {fsize : BitVec 32} {ret : ℤ}
    (hpc : s.pc c = .loader) (hl : s.shared.life = .coming fsize (.returned ret)) (hret : ret < 0)
    (hu : Uses (s.pc u)) : ∃ t, system.next s (c, .kernel res) = some t ∧ ¬Sound t := by
  have hmove : program.move s.shared (.kernel res) (s.pc c) =
      some (.loader .none .unloaded, .loader) := by
    rw [hpc]
    show (loaderStep res s.shared.life).map _ = _
    rw [hl]
    simp only [loaderStep, Option.map_some, if_pos hret]
  refine ⟨_, Program.next_of_move hmove, fun hsound => ?_⟩
  have hne : u ≠ c := by
    rintro rfl
    rw [hpc] at hu
    rcases hu with hu | ⟨_, hu⟩
    · exact hu
    · exact hu
  refine hsound.loaded u ?_ rfl
  show Uses (Function.update s.pc c .loader u)
  rw [Function.update_of_ne hne]
  exact hu

/-- In the runs that keep to the time of `kernelnewbies_init`, and in no others,
every read and write finds the kfifo and the module stays under its users. -/
theorem along_iff_timed (as : List (ℕ × Choice)) :
    system.Along Sound initial as ↔ system.Meets Timed initial as := by
  refine System.along_iff_meets (fun s hs => (inv_reachable hs).sound) ?_ (.start rfl) as
  rintro s ⟨c, k⟩ hs hnot
  have hinv := inv_reachable hs
  by_contra hsound
  refine hnot ⟨?_, ?_⟩
  · rintro rfl f call hpc fsize p hl
    by_contra hp
    exact hsound (untimed_copy hinv hpc hl hp)
  · rintro ⟨res, rfl⟩ hpc fsize ret hl hret u hu
    exact hsound (untimed_abort hpc hl hret hu)

/-! ## Users that wait for the end of the load -/

/-- The device is opened by those who have seen `insmod` return. -/
def OpensLive (s : State) (a : ℕ × Choice) : Prop :=
  ∀ f, a.2 = .openInode f → s.shared.life = .live

/-- Nobody has the module while it loads. -/
def Unseen (s : Shared) : Prop := ∀ fsize p, s.life = .coming fsize p → s.refs = 0

section OpensLive
variable {s t : State} {c : ℕ} {k : Choice} {e : Effect}

theorem timed_of_unseen (hb : Books s) (hunseen : Unseen s.shared) (a : ℕ × Choice) : Timed s a where
  copies _ f call hpc fsize p hl :=
    absurd (hunseen fsize p hl) (hb.refs_ne_zero (c := a.1) (.inr ⟨f, by rw [hpc]; rfl⟩))
  aborts _ _ fsize ret hl _ := hb.nobody (hunseen fsize (.returned ret) hl)

theorem Unseen.step (hunseen : Unseen s.shared) (h : Inv s) (hok : OpensLive s (c, k))
    (hstep : program.Step s c k e t) : Unseen t.shared := by
  have hedge := edge_of_step hstep
  rw [hstep.shared, program_effect]
  generalize s.pc c = p at hedge
  generalize t.pc c = p' at hedge
  cases hedge with
  | insmod _ hl =>
      intro _ _ _
      have hrefs := h.life
      rw [hl] at hrefs
      exact hrefs
  | kernel res e l hloader =>
      intro fsize p hl
      obtain rfl : l = .coming fsize p := hl
      rcases loaderStep_cases hloader with ⟨fsize', p', hs, _⟩ | ⟨_, ret, _, _, hend⟩ | ⟨_, _, hend⟩
      · exact (change_refs s.shared e).trans (hunseen fsize' p' hs)
      · split_ifs at hend
      · simp at hend
  | rmmod =>
      intro _ _ hl
      cases hl
  | openInode f =>
      intro _ _ hl
      have hlive := hok f rfl
      cases hlive.symm.trans hl
  | release =>
      intro fsize p hl
      show s.shared.refs - 1 = 0
      rw [hunseen fsize p hl]
  | openFifo | close | enter | op | leave | signal | put => exact hunseen

/-- Whoever opens the device only when the module is live finds the kfifo, and
the module under it until it closes. -/
theorem sound_of_opensLive (as : List (ℕ × Choice)) (h : system.Meets OpensLive initial as) :
    system.Along Sound initial as := by
  have hreach : ∀ s, system.ReachableWhen OpensLive s → Inv s ∧ Unseen s.shared := by
    intro s hs
    refine Program.invariant (I := fun s => Inv s ∧ Unseen s.shared) ?_ ?_ hs
    · rintro s rfl
      exact ⟨inv_initial, nofun⟩
    rintro s c k e t _ ⟨hinv, hunseen⟩ hok hstep
    exact ⟨hinv.step (timed_of_unseen hinv.books hunseen (c, k)) hstep, hunseen.step hinv hok hstep⟩
  exact (System.ReachableWhen.start rfl).along (fun s hs => (hreach s hs).1.sound) h

end OpensLive
end LinuxDeviceDrivers.KernelnewbiesFiles
