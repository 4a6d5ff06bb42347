import LinuxDeviceDrivers.KernelPrimitives
import LinuxDeviceDrivers.ThreadProgram
import Mathlib.Tactic.Common

/-!
# Reading and writing a FIFO device

The write and read calls of pltdrv_attr_dt and of mcdevdrvs are the same code
over a `struct` with a kfifo and two mutexes. A call waits for its mutex, copies
(which samples the kfifo), lets the kfifo index catch up, and unlocks. A write
reports `count` whatever found room.
-/
namespace LinuxDeviceDrivers.FifoFileOps
open KernelPrimitives

inductive Mutex where
  | rFLock
  | wFLock
deriving DecidableEq, Repr

inductive Call where
  | write (buf : WriteBuf)
  | read (buf : ReadBuf)
deriving DecidableEq, Repr

def mutexOf : Call → Mutex
  | .write _ => .wFLock
  | .read _ => .rFLock

/-- The user buffer of the call can be accessed to its end. -/
def Call.Accessible : Call → Prop
  | .write buf => buf.count ≤ buf.accessible
  | .read buf => buf.count ≤ buf.accessible

structure FifoDevc where
  myfifo : Kfifo
  owner : Mutex → Option ℕ

/-- The `new_cdevice` inside the `struct` of a device. -/
structure Cdev where
  devc : ℕ
deriving DecidableEq, Repr

/-- The `container_of` of the open calls, from `inode->i_cdev`. -/
def containerOf (iCdev : Cdev) : ℕ := iCdev.devc

/-- What is left of a call, and what its copy has moved. -/
inductive Stage where
  | lock
  | copy
  | commit (x : Transfer)
  | unlock (x : Transfer)
deriving DecidableEq, Repr

inductive Action where
  | skip
  | acquire (m : Mutex)
  | publish (bytes : List UInt8)
  | consume (bytes : List UInt8)
  | release (m : Mutex)
deriving DecidableEq, Repr

/-- A call that was interrupted while it waited for the mutex returns `-ERESTARTSYS`. -/
inductive Outcome where
  | interrupted
  | value (ret : ℤ)
deriving DecidableEq, Repr

def Outcome.ret : Outcome → ℤ
  | .interrupted => -ERESTARTSYS
  | .value ret => ret

/-- The body of `pltdrv_write_fifo` and `driver_write_fifo`. -/
def writeFifo (dev : FifoDevc) (buf : WriteBuf) : Stage → Option (Action × (Stage ⊕ Outcome))
  | .lock => if dev.owner .wFLock = none then some (.acquire .wFLock, .inl .copy) else none
  | .copy => some (.skip, .inl (.commit (dev.myfifo.fromUser buf)))
  | .commit x => some (.publish x.bytes, .inl (.unlock x))
  | .unlock x => some (.release .wFLock, .inr (.value (if x.ret ≠ 0 then x.ret else buf.count)))

/-- The body of `pltdrv_read_fifo` and `driver_read_fifo`. -/
def readFifo (dev : FifoDevc) (buf : ReadBuf) : Stage → Option (Action × (Stage ⊕ Outcome))
  | .lock => if dev.owner .rFLock = none then some (.acquire .rFLock, .inl .copy) else none
  | .copy => some (.skip, .inl (.commit (dev.myfifo.toUser buf)))
  | .commit x => some (.consume x.bytes, .inl (.unlock x))
  | .unlock x =>
      some (.release .rFLock, .inr (.value (if x.ret ≠ 0 then x.ret else x.bytes.length)))

def Action.apply (c : ℕ) : Action → FifoDevc → FifoDevc
  | .skip, dev => dev
  | .acquire m, dev => { dev with owner := Function.update dev.owner m (some c) }
  | .publish bytes, dev => { dev with myfifo := dev.myfifo.publish bytes }
  | .consume bytes, dev => { dev with myfifo := dev.myfifo.consume bytes.length }
  | .release m, dev => { dev with owner := Function.update dev.owner m none }

/-- The steps of a call, with the condition under which each is taken. -/
inductive Edge (dev : FifoDevc) : Call → Stage → Action → Stage ⊕ Outcome → Prop
  | lock (call : Call) : dev.owner (mutexOf call) = none →
      Edge dev call .lock (.acquire (mutexOf call)) (.inl .copy)
  | fromUser (buf : WriteBuf) :
      Edge dev (.write buf) .copy .skip (.inl (.commit (dev.myfifo.fromUser buf)))
  | toUser (buf : ReadBuf) :
      Edge dev (.read buf) .copy .skip (.inl (.commit (dev.myfifo.toUser buf)))
  | publish (buf : WriteBuf) (x : Transfer) :
      Edge dev (.write buf) (.commit x) (.publish x.bytes) (.inl (.unlock x))
  | consume (buf : ReadBuf) (x : Transfer) :
      Edge dev (.read buf) (.commit x) (.consume x.bytes) (.inl (.unlock x))
  | written (buf : WriteBuf) (x : Transfer) :
      Edge dev (.write buf) (.unlock x) (.release .wFLock)
        (.inr (.value (if x.ret ≠ 0 then x.ret else buf.count)))
  | taken (buf : ReadBuf) (x : Transfer) :
      Edge dev (.read buf) (.unlock x) (.release .rFLock)
        (.inr (.value (if x.ret ≠ 0 then x.ret else x.bytes.length)))

section Inversion
variable {dev : FifoDevc} {st : Stage} {a : Action} {n : Stage ⊕ Outcome}

theorem edge_of_write {buf : WriteBuf} (h : writeFifo dev buf st = some (a, n)) :
    Edge dev (.write buf) st a n := by
  cases st with
  | lock =>
      simp only [writeFifo] at h
      split_ifs at h with ho
      cases h
      exact .lock (.write buf) ho
  | copy => cases h; exact .fromUser buf
  | commit x => cases h; exact .publish buf x
  | unlock x => cases h; exact .written buf x

theorem edge_of_read {buf : ReadBuf} (h : readFifo dev buf st = some (a, n)) :
    Edge dev (.read buf) st a n := by
  cases st with
  | lock =>
      simp only [readFifo] at h
      split_ifs at h with ho
      cases h
      exact .lock (.read buf) ho
  | copy => cases h; exact .toUser buf
  | commit x => cases h; exact .consume buf x
  | unlock x => cases h; exact .taken buf x

end Inversion

def Stage.inside : Stage → Bool
  | .lock => false
  | _ => true

def Stage.usesFifo : Stage → Bool
  | .copy | .commit _ => true
  | _ => false

/-- A write into a buffer that can be accessed takes what finds room. -/
theorem fromUser_accessible {f : Kfifo} {buf : WriteBuf} (h : buf.count ≤ buf.accessible) :
    f.fromUser buf = ⟨buf.bytes.take (min buf.count f.avail), 0⟩ := by
  refine copyUser_all (Nat.le_trans ?_ h)
  rw [List.length_take]
  exact Nat.le_trans (Nat.min_le_left _ _) (Nat.min_le_left _ _)

theorem toUser_accessible {f : Kfifo} {buf : ReadBuf} (h : buf.count ≤ buf.accessible) :
    f.toUser buf = ⟨f.data.take (min buf.count f.data.length), 0⟩ := by
  refine copyUser_all (Nat.le_trans ?_ h)
  rw [List.length_take]
  exact Nat.le_trans (Nat.min_le_left _ _) (Nat.min_le_left _ _)

end LinuxDeviceDrivers.FifoFileOps
