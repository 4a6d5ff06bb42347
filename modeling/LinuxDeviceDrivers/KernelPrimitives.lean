import LinuxDeviceDrivers.CStrings
import Mathlib.Algebra.Group.Nat.Defs
import Mathlib.Data.List.Basic
import Mathlib.Data.Int.Notation
import Mathlib.Data.Int.Order.Basic

/-!
# Kernel services the drivers call

The drivers store their bytes in a `kfifo` and move them to and from user
buffers. None of that code is part of the repository, so this module states the
documented behaviour the drivers rely on and nothing else.

A user buffer is described by its bytes and by how many of them, counted from
the front, can be accessed: a copy stops at the first byte that faults. The two
transfers of a kfifo are cut where they meet other calls. `fromUser` and
`toUser` sample the indices and copy; `publish` and `consume` then advance `in`
or `out`. Two overlapping producers, or two overlapping consumers, would
therefore see the same indices: keeping them apart is the driver's duty.

The last part is the name that the driver core gives to a device.
-/
namespace LinuxDeviceDrivers.KernelPrimitives
open CStrings

def EINTR : ℤ := 4
/-- `EIO` -/
def eio : ℤ := 5
def ENOMEM : ℤ := 12
def EFAULT : ℤ := 14
def ENODEV : ℤ := 19
def EEXIST : ℤ := 17
def EINVAL : ℤ := 22
def EMFILE : ℤ := 24
def EOPNOTSUPP : ℤ := 95
def ERESTARTSYS : ℤ := 512

theorem neg_ENOMEM : -ENOMEM < 0 := by decide

theorem neg_eio : -eio < 0 := by decide

/-- The return value of a kernel call that failed. -/
structure Errno where
  val : ℤ
  neg : val < 0
deriving DecidableEq, Repr

structure WriteBuf where
  bytes : List UInt8
  accessible : ℕ
deriving DecidableEq, Repr

def WriteBuf.count (b : WriteBuf) : ℕ := b.bytes.length

structure ReadBuf where
  count : ℕ
  accessible : ℕ
deriving DecidableEq, Repr

/-- What a copy has moved and the error code it reports. -/
structure Transfer where
  bytes : List UInt8
  ret : ℤ
deriving DecidableEq, Repr

/-- `copy_from_user` and `copy_to_user`: the bytes before the first fault. -/
def copyUser (accessible : ℕ) (bytes : List UInt8) : Transfer where
  bytes := bytes.take accessible
  ret := if accessible < bytes.length then -EFAULT else 0

theorem copyUser_length_le (n : ℕ) (bs : List UInt8) :
    (copyUser n bs).bytes.length ≤ bs.length := by
  simp only [copyUser, List.length_take]
  omega

theorem copyUser_all {n : ℕ} {bs : List UInt8} (h : bs.length ≤ n) :
    copyUser n bs = ⟨bs, 0⟩ := by
  simp only [copyUser, List.take_of_length_le h, if_neg (Nat.not_lt.mpr h)]

/-- The two return statements of a transfer: `if (ret) return ret; return copied;`. -/
def Transfer.result (x : Transfer) : ℤ := if x.ret = 0 then x.bytes.length else x.ret

/-- `struct kfifo` as its size (`mask + 1`) and the bytes between `out` and `in`. -/
structure Kfifo where
  size : ℕ
  data : List UInt8
deriving DecidableEq, Repr

namespace Kfifo

/-- `kfifo_avail` -/
def avail (f : Kfifo) : ℕ := f.size - f.data.length

def fromUser (f : Kfifo) (b : WriteBuf) : Transfer :=
  copyUser b.accessible (b.bytes.take (min b.count f.avail))

def toUser (f : Kfifo) (b : ReadBuf) : Transfer :=
  copyUser b.accessible (f.data.take (min b.count f.data.length))

def publish (f : Kfifo) (bytes : List UInt8) : Kfifo := { f with data := f.data ++ bytes }

def consume (f : Kfifo) (n : ℕ) : Kfifo := { f with data := f.data.drop n }

@[simp] theorem consume_size (f : Kfifo) (n : ℕ) : (f.consume n).size = f.size := rfl
@[simp] theorem publish_data (f : Kfifo) (bs : List UInt8) :
    (f.publish bs).data = f.data ++ bs := rfl
@[simp] theorem consume_data (f : Kfifo) (n : ℕ) : (f.consume n).data = f.data.drop n := rfl

theorem avail_le_size (f : Kfifo) : f.avail ≤ f.size := Nat.sub_le _ _

theorem avail_consume_ge (f : Kfifo) (n : ℕ) : f.avail ≤ (f.consume n).avail := by
  simp only [avail, consume_size, consume_data, List.length_drop]
  omega

theorem fromUser_length_le (f : Kfifo) (b : WriteBuf) :
    (f.fromUser b).bytes.length ≤ f.avail := by
  have h := copyUser_length_le b.accessible (b.bytes.take (min b.count f.avail))
  rw [List.length_take] at h
  exact Nat.le_trans h (by omega)

theorem fromUser_prefix (f : Kfifo) (b : WriteBuf) :
    (f.fromUser b).bytes = b.bytes.take (f.fromUser b).bytes.length := by
  simp only [fromUser, copyUser, List.take_take, List.length_take, WriteBuf.count]
  congr 1
  omega

theorem toUser_prefix (f : Kfifo) (b : ReadBuf) :
    (f.toUser b).bytes = f.data.take (f.toUser b).bytes.length := by
  simp only [toUser, copyUser, List.take_take, List.length_take]
  congr 1
  omega

/-- A buffer that fits the free space is taken whole, unless it faults. -/
theorem fromUser_whole {f : Kfifo} {b : WriteBuf} (hfit : b.count ≤ f.avail) :
    (f.fromUser b).ret < 0 ∨ f.fromUser b = ⟨b.bytes, 0⟩ := by
  rw [fromUser, Nat.min_eq_left hfit, WriteBuf.count, List.take_length]
  by_cases hacc : b.bytes.length ≤ b.accessible
  · exact .inr (copyUser_all hacc)
  · left
    simp only [copyUser, if_pos (Nat.lt_of_not_le hacc)]
    decide

/-- A large enough buffer that does not fault takes everything. -/
theorem toUser_whole {f : Kfifo} {b : ReadBuf} (hcount : f.data.length ≤ b.count)
    (hacc : f.data.length ≤ b.accessible) : f.toUser b = ⟨f.data, 0⟩ := by
  rw [toUser, Nat.min_eq_right hcount, List.take_length]
  exact copyUser_all hacc

end Kfifo

def flsLong (n : ℕ) : ℕ := if n = 0 then 0 else n.log2 + 1

/-- `1UL << fls_long(n - 1)` -/
def roundupPowOfTwo (n : ℕ) : ℕ := 2 ^ flsLong (n - 1)

theorem le_roundupPowOfTwo (n : ℕ) : n ≤ roundupPowOfTwo n := by
  unfold roundupPowOfTwo flsLong
  split_ifs with h
  · omega
  · have := Nat.lt_log2_self (n := n - 1)
    omega

/-- `kfifo_alloc`: the rounded size is an `unsigned int` again, and the memory
allocation succeeds or fails as `mem` says. -/
def kfifoAlloc (size : BitVec 32) (mem : Bool) : Except ℤ Kfifo :=
  let rounded := roundupPowOfTwo size.toNat % 2 ^ 32
  if rounded < 2 then .error (-EINVAL)
  else if mem then .ok ⟨rounded, []⟩
  else .error (-ENOMEM)

theorem kfifoAlloc_ok {size : BitVec 32} {mem : Bool} {f : Kfifo}
    (h : kfifoAlloc size mem = .ok f) :
    f.data = [] ∧ size.toNat ≤ f.size ∧ 2 ≤ f.size ∧ f.size < 2 ^ 32 := by
  simp only [kfifoAlloc] at h
  split_ifs at h with hsmall hmem
  cases h
  refine ⟨rfl, ?_, Nat.le_of_not_lt hsmall, Nat.mod_lt _ (by decide)⟩
  -- only the size `2 ^ 32` is cut by the conversion, and it is cut to zero
  have hlog : flsLong (size.toNat - 1) ≤ 32 := by
    unfold flsLong
    split_ifs with h0
    · omega
    · have hlt : size.toNat - 1 < 2 ^ 32 := by have := size.isLt; omega
      have := (Nat.log2_lt h0).mpr hlt
      omega
  have hne : flsLong (size.toNat - 1) ≠ 32 := by
    intro he
    apply hsmall
    rw [roundupPowOfTwo, he]
    decide
  have hpow : roundupPowOfTwo size.toNat < 2 ^ 32 :=
    Nat.pow_lt_pow_right (by decide) (by omega)
  show size.toNat ≤ roundupPowOfTwo size.toNat % 2 ^ 32
  rw [Nat.mod_eq_of_lt hpow]
  exact le_roundupPowOfTwo _

/-- What `kobject_set_name_vargs` does to a formatted name: sysfs takes a name for
one directory, so every slash becomes an exclamation mark. -/
def strreplaceSlash (c : UInt8) : UInt8 := if c = byte '/' then byte '!' else c

def kobjectSetName (s : CString) : CString where
  bytes := s.bytes.map strreplaceSlash
  noNul h := by
    obtain ⟨c, hc, hzero⟩ := List.mem_map.mp h
    by_cases hslash : c = byte '/'
    · rw [hslash] at hzero
      exact absurd hzero (by decide)
    · rw [strreplaceSlash, if_neg hslash] at hzero
      exact s.noNul (hzero ▸ hc)

theorem strreplaceSlash_of_ne {c : UInt8} (h : c ≠ byte '/') : strreplaceSlash c = c := if_neg h

theorem map_strreplaceSlash_eq_self_iff {s : List UInt8} :
    s.map strreplaceSlash = s ↔ byte '/' ∉ s := by
  have hpointwise := List.map_inj_left (f := strreplaceSlash) (g := id) (l := s)
  rw [List.map_id] at hpointwise
  rw [hpointwise]
  constructor
  · intro h hmem
    exact absurd (h _ hmem) (by decide)
  · intro h c hc
    exact strreplaceSlash_of_ne (ne_of_mem_of_not_mem hc h)

end LinuxDeviceDrivers.KernelPrimitives
