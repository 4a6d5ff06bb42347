import LinuxDeviceDrivers.ChardrvsUsers
import LinuxDeviceDrivers.FlatMemory

/-!
# The ioctl of the chardrvs driver

`chardrvs_ioctl` moves the user limit and the free space of the FIFO through a
pointer that the caller chooses. It uses `__get_user` and `__put_user` on
`unsigned long` objects, so what it touches depends on the kernel: the width of
`unsigned long`, the byte order and the end of the user addresses. All of them
are parameters here.

The memory is the whole address space as the kernel sees it, with the
addresses that can be read and written. An access that faults moves nothing; a
failed `__get_user` stores 0 in its target. Printing is left out.
-/
namespace LinuxDeviceDrivers.ChardrvsIoctl
open KernelPrimitives FlatMemory

def EPERM : ℤ := 1
def ENOTTY : ℤ := 25

/-- The width of `unsigned long` and of a pointer. -/
inductive LongSize where
  | w32 | w64
deriving DecidableEq, Repr

def LongSize.bytes : LongSize → ℕ
  | .w32 => 4
  | .w64 => 8

/-- `userEnd` is the first address behind the user range. -/
structure Kernel where
  long : LongSize
  order : ByteOrder
  userEnd : ℕ
deriving DecidableEq, Repr

def Kernel.longBits (k : Kernel) : ℕ := 8 * k.long.bytes

/-- The address space; what runs past its top faults. -/
structure Memory (k : Kernel) where
  byte : ℕ → UInt8
  readable : ℕ → Bool
  writable : ℕ → Bool
  top : ∀ a, readable a ∨ writable a → a < 2 ^ k.longBits

namespace Memory
variable {k : Kernel}

def Readable (m : Memory k) (a n : ℕ) : Prop := ∀ i < n, m.readable (a + i)

def Writable (m : Memory k) (a n : ℕ) : Prop := ∀ i < n, m.writable (a + i)

instance (m : Memory k) (a n : ℕ) : Decidable (m.Readable a n) :=
  inferInstanceAs (Decidable (∀ i < n, m.readable (a + i)))

instance (m : Memory k) (a n : ℕ) : Decidable (m.Writable a n) :=
  inferInstanceAs (Decidable (∀ i < n, m.writable (a + i)))

end Memory

/-- The fields of `struct chardrvs_priv_dev` that the ioctl must not lose. -/
structure ChardrvsPrivDev where
  myfifo : Kfifo
  usrsCnt : BitVec 32
  avail : BitVec 32
  refCntr : BitVec 32
deriving DecidableEq, Repr

/-- The part of the device that limits the users. -/
def ChardrvsPrivDev.users (dev : ChardrvsPrivDev) : ChardrvsUsers.UserCount :=
  ⟨dev.refCntr, dev.usrsCnt⟩

/-- `_IOC(dir, type, nr, size)` -/
def ioc (dir type nr size : BitVec 32) : BitVec 32 :=
  dir <<< 30 ||| type <<< 8 ||| nr <<< 0 ||| size <<< 16

def iocType (cmd : BitVec 32) : BitVec 32 := cmd >>> 8 &&& 0xff

def iocNr (cmd : BitVec 32) : BitVec 32 := cmd >>> 0 &&& 0xff

/-- `_IOW` and `_IOR` of an `int *` -/
def iow (k : Kernel) (type nr : BitVec 32) : BitVec 32 := ioc 1 type nr (.ofNat 32 k.long.bytes)
def ior (k : Kernel) (type nr : BitVec 32) : BitVec 32 := ioc 2 type nr (.ofNat 32 k.long.bytes)

/-- `'c'` -/
def CHARDRVS_IOC_MAGIC : BitVec 32 := 0x63
def CHARDRVS_IOC_MAX_NR : BitVec 32 := 3
def CHARDRVS_IOCSETNRUSERS (k : Kernel) : BitVec 32 := iow k CHARDRVS_IOC_MAGIC 1
def CHARDRVS_IOCGETNRUSERS (k : Kernel) : BitVec 32 := ior k CHARDRVS_IOC_MAGIC 2
def CHARDRVS_IOCQUERYAVAILSIZE (k : Kernel) : BitVec 32 := ior k CHARDRVS_IOC_MAGIC 3

/-- What `__get_user` on an `unsigned long` leaves: its return value, its target
and the addresses it has read. -/
structure GetUser (k : Kernel) where
  ret : ℤ
  val : BitVec k.longBits
  touched : List ℕ

def getUser {k : Kernel} (m : Memory k) (arg : BitVec k.longBits) : GetUser k :=
  if m.Readable arg.toNat k.long.bytes then
    ⟨0, .ofNat k.longBits (loadNum k.order m.byte arg.toNat k.long.bytes),
      List.range' arg.toNat k.long.bytes⟩
  else ⟨-EFAULT, 0, []⟩

/-- What `__put_user` on an `unsigned long` leaves. -/
structure PutUser (k : Kernel) where
  ret : ℤ
  mem : Memory k
  touched : List ℕ

def putUser {k : Kernel} (x : BitVec k.longBits) (m : Memory k) (arg : BitVec k.longBits) :
    PutUser k :=
  if m.Writable arg.toNat k.long.bytes then
    ⟨0, { m with byte := storeNum k.order m.byte arg.toNat k.long.bytes x.toNat },
      List.range' arg.toNat k.long.bytes⟩
  else ⟨-EFAULT, m, []⟩

/-- A call as it returns, with the addresses that it has read or written
through `arg`. -/
structure Return (k : Kernel) where
  ret : ℤ
  dev : ChardrvsPrivDev
  mem : Memory k
  touched : List ℕ

def chardrvsIoctl {k : Kernel} (dev : ChardrvsPrivDev) (m : Memory k) (capable : Bool)
    (cmd : BitVec 32) (arg : BitVec k.longBits) : Return k :=
  if iocType cmd ≠ CHARDRVS_IOC_MAGIC then ⟨-ENOTTY, dev, m, []⟩
  else if CHARDRVS_IOC_MAX_NR < iocNr cmd then ⟨-ENOTTY, dev, m, []⟩
  else if cmd = CHARDRVS_IOCSETNRUSERS k then
    if !capable then ⟨-EPERM, dev, m, []⟩
    else
      -- the target of the fetch is the field itself, cut to its 32 bits
      let x := getUser m arg
      ⟨x.ret, { dev with usrsCnt := x.val.setWidth 32 }, m, x.touched⟩
  else if cmd = CHARDRVS_IOCGETNRUSERS k then
    if !capable then ⟨-EPERM, dev, m, []⟩
    else
      let x := putUser (dev.usrsCnt.setWidth k.longBits) m arg
      ⟨x.ret, dev, x.mem, x.touched⟩
  else if cmd = CHARDRVS_IOCQUERYAVAILSIZE k then
    let x := putUser (dev.avail.setWidth k.longBits) m arg
    ⟨x.ret, dev, x.mem, x.touched⟩
  else ⟨-ENOTTY, dev, m, []⟩

/-- The command is known and the caller may use it. -/
def Admitted (k : Kernel) (capable : Bool) (cmd : BitVec 32) : Prop :=
  capable ∧ (cmd = CHARDRVS_IOCSETNRUSERS k ∨ cmd = CHARDRVS_IOCGETNRUSERS k) ∨
    cmd = CHARDRVS_IOCQUERYAVAILSIZE k

/-- What a call does: it refuses the command, or it makes the one access of the command. -/
inductive Outcome {k : Kernel} (dev : ChardrvsPrivDev) (m : Memory k) (capable : Bool)
    (cmd : BitVec 32) (arg : BitVec k.longBits) : Return k → Prop
  | refused (e : ℤ) : ¬Admitted k capable cmd → e ≠ 0 → Outcome dev m capable cmd arg ⟨e, dev, m, []⟩
  | setNrUsers : capable → cmd = CHARDRVS_IOCSETNRUSERS k →
      Outcome dev m capable cmd arg ⟨(getUser m arg).ret,
        { dev with usrsCnt := (getUser m arg).val.setWidth 32 }, m, (getUser m arg).touched⟩
  | put (x : BitVec 32) : Admitted k capable cmd → cmd ≠ CHARDRVS_IOCSETNRUSERS k →
      cmd = CHARDRVS_IOCGETNRUSERS k ∧ x = dev.usrsCnt ∨
        cmd = CHARDRVS_IOCQUERYAVAILSIZE k ∧ x = dev.avail →
      Outcome dev m capable cmd arg ⟨(putUser (x.setWidth k.longBits) m arg).ret, dev,
        (putUser (x.setWidth k.longBits) m arg).mem,
        (putUser (x.setWidth k.longBits) m arg).touched⟩

theorem commands_ne (k : Kernel) :
    CHARDRVS_IOCSETNRUSERS k ≠ CHARDRVS_IOCGETNRUSERS k ∧
      CHARDRVS_IOCSETNRUSERS k ≠ CHARDRVS_IOCQUERYAVAILSIZE k ∧
        CHARDRVS_IOCGETNRUSERS k ≠ CHARDRVS_IOCQUERYAVAILSIZE k := by
  simp only [CHARDRVS_IOCSETNRUSERS, CHARDRVS_IOCGETNRUSERS, CHARDRVS_IOCQUERYAVAILSIZE, iow, ior]
  generalize k.long = long
  cases long with
  | w32 => decide
  | w64 => decide

/-- The command passes the tests of magic and number. -/
def Numbered (cmd : BitVec 32) : Prop :=
  iocType cmd = CHARDRVS_IOC_MAGIC ∧ ¬CHARDRVS_IOC_MAX_NR < iocNr cmd

instance (cmd : BitVec 32) : Decidable (Numbered cmd) := inferInstanceAs (Decidable (_ ∧ _))

theorem commands_numbered (k : Kernel) :
    Numbered (CHARDRVS_IOCSETNRUSERS k) ∧ Numbered (CHARDRVS_IOCGETNRUSERS k) ∧
      Numbered (CHARDRVS_IOCQUERYAVAILSIZE k) := by
  simp only [CHARDRVS_IOCSETNRUSERS, CHARDRVS_IOCGETNRUSERS, CHARDRVS_IOCQUERYAVAILSIZE, iow, ior]
  generalize k.long = long
  cases long with
  | w32 => decide
  | w64 => decide

section Calls
variable {k : Kernel} {dev : ChardrvsPrivDev} {m : Memory k} {capable : Bool} {cmd : BitVec 32}
  {arg : BitVec k.longBits} {r : Return k}

theorem Admitted.numbered (h : Admitted k capable cmd) : Numbered cmd := by
  obtain ⟨hset, hget, hquery⟩ := commands_numbered k
  rcases h with ⟨-, rfl | rfl⟩ | rfl
  · exact hset
  · exact hget
  · exact hquery

theorem ioctl_outcome (dev : ChardrvsPrivDev) (m : Memory k) (capable : Bool) (cmd : BitVec 32)
    (arg : BitVec k.longBits) :
    Outcome dev m capable cmd arg (chardrvsIoctl dev m capable cmd arg) := by
  obtain ⟨-, hsq, hgq⟩ := commands_ne k
  unfold chardrvsIoctl
  split_ifs with htype hnr hset hcap hget hcap hquery
  · exact .refused _ (fun h => htype h.numbered.1) (by decide)
  · exact .refused _ (fun h => h.numbered.2 hnr) (by decide)
  · refine .refused _ ?_ (by decide)
    rintro (⟨hc, -⟩ | rfl)
    · rw [hc] at hcap
      cases hcap
    · exact hsq hset.symm
  · exact .setNrUsers (by simpa using hcap) hset
  · refine .refused _ ?_ (by decide)
    rintro (⟨hc, -⟩ | rfl)
    · rw [hc] at hcap
      cases hcap
    · exact hgq hget.symm
  · exact .put _ (.inl ⟨by simpa using hcap, .inr hget⟩) hset (.inl ⟨hget, rfl⟩)
  · exact .put _ (.inr hquery) hset (.inr ⟨hquery, rfl⟩)
  · refine .refused _ ?_ (by decide)
    rintro (⟨-, rfl | rfl⟩ | rfl)
    · exact hset rfl
    · exact hget rfl
    · exact hquery rfl

theorem neg_EFAULT : -EFAULT ≠ 0 := by decide

theorem getUser_ok (h : m.Readable arg.toNat k.long.bytes) :
    getUser m arg = ⟨0, .ofNat k.longBits (loadNum k.order m.byte arg.toNat k.long.bytes),
      List.range' arg.toNat k.long.bytes⟩ := if_pos h

theorem getUser_fault (h : ¬m.Readable arg.toNat k.long.bytes) :
    getUser m arg = ⟨-EFAULT, 0, []⟩ := if_neg h

theorem putUser_ok {x : BitVec k.longBits} (h : m.Writable arg.toNat k.long.bytes) :
    putUser x m arg = ⟨0, { m with byte := storeNum k.order m.byte arg.toNat k.long.bytes x.toNat },
      List.range' arg.toNat k.long.bytes⟩ := if_pos h

theorem getUser_ret : (getUser m arg).ret = 0 ↔ m.Readable arg.toNat k.long.bytes := by
  unfold getUser
  split_ifs with h
  · exact iff_of_true rfl h
  · exact iff_of_false neg_EFAULT h

theorem putUser_ret {x : BitVec k.longBits} :
    (putUser x m arg).ret = 0 ↔ m.Writable arg.toNat k.long.bytes := by
  unfold putUser
  split_ifs with h
  · exact iff_of_true rfl h
  · exact iff_of_false neg_EFAULT h

theorem putUser_fault {x : BitVec k.longBits} (h : ¬m.Writable arg.toNat k.long.bytes) :
    putUser x m arg = ⟨-EFAULT, m, []⟩ := if_neg h

/-- What a fetch that faults does to the device. -/
theorem zeroed_eq_iff {n : ℕ} :
    { dev with usrsCnt := (0 : BitVec n).setWidth 32 } = dev ↔ dev.usrsCnt = 0 := by
  have h0 : (0 : BitVec n).setWidth 32 = 0 := BitVec.setWidth_zero _ _
  rw [h0]
  constructor
  · intro h
    rw [← h]
  · intro h
    rw [← h]

/-- For the user limit a call is a move of its open file, or nothing. -/
theorem ioctl_users (dev : ChardrvsPrivDev) (m : Memory k) (capable : Bool) (cmd : BitVec 32)
    (arg : BitVec k.longBits) :
    (chardrvsIoctl dev m capable cmd arg).dev.users = dev.users ∨
      ∃ nr e, ChardrvsUsers.move dev.users (.setNrUsers nr) .opened = some (e, .opened) ∧
        (chardrvsIoctl dev m capable cmd arg).dev.users = ChardrvsUsers.effect e dev.users := by
  have hout := ioctl_outcome dev m capable cmd arg
  generalize chardrvsIoctl dev m capable cmd arg = r at hout
  cases hout with
  | refused _ _ _ => exact .inl rfl
  | setNrUsers _ _ => exact .inr ⟨_, _, rfl, rfl⟩
  | put _ _ _ _ => exact .inl rfl

end Calls

/-- A call that fails leaves the device as it was. -/
def AtomicOnError {k : Kernel} (dev : ChardrvsPrivDev) (m : Memory k) (capable : Bool)
    (cmd : BitVec 32) (arg : BitVec k.longBits) : Prop :=
  (chardrvsIoctl dev m capable cmd arg).ret ≠ 0 → (chardrvsIoctl dev m capable cmd arg).dev = dev

/-- A call is atomic except when it sets a limit that is not zero from a pointer that faults. -/
theorem ioctl_atomicOnError_iff (k : Kernel) (dev : ChardrvsPrivDev) (m : Memory k)
    (capable : Bool) (cmd : BitVec 32) (arg : BitVec k.longBits) :
    AtomicOnError dev m capable cmd arg ↔
      ¬(capable ∧ cmd = CHARDRVS_IOCSETNRUSERS k ∧ ¬m.Readable arg.toNat k.long.bytes ∧
        dev.usrsCnt ≠ 0) := by
  unfold AtomicOnError
  have hout := ioctl_outcome dev m capable cmd arg
  generalize chardrvsIoctl dev m capable cmd arg = r at hout
  cases hout with
  | refused e hnot he =>
      refine iff_of_true (fun _ => rfl) ?_
      rintro ⟨hcap, hset, -⟩
      exact hnot (.inl ⟨hcap, .inl hset⟩)
  | put x hadm hset hx => exact iff_of_true (fun _ => rfl) fun h => hset h.2.1
  | setNrUsers hcap hset =>
      by_cases hr : m.Readable arg.toNat k.long.bytes
      · refine iff_of_true ?_ fun h => h.2.2.1 hr
        rw [getUser_ok hr]
        exact fun h => absurd rfl h
      · rw [getUser_fault hr]
        constructor
        · intro h hbad
          exact hbad.2.2.2 (zeroed_eq_iff.mp (h neg_EFAULT))
        · intro h _
          by_contra hne
          exact h ⟨hcap, hset, hr, fun h0 => hne (zeroed_eq_iff.mpr h0)⟩

/-- `setup_chardrvs` with the default parameter, one handle open. -/
def exampleDev : ChardrvsPrivDev := ⟨⟨16, []⟩, 2, 16, 1⟩

/-- A 64-bit little-endian kernel with the user range of 47 address bits. -/
def kernel64 : Kernel := ⟨.w64, .little, 2 ^ 47 - 4096⟩

/-- No address can be accessed. -/
def unmapped : Memory kernel64 := ⟨fun _ => 0, fun _ => false, fun _ => false, by simp⟩

/-- Setting the limit from an unmapped pointer fails and leaves the limit 0. -/
theorem ioctl_not_atomicOnError :
    ¬∀ (k : Kernel) (dev : ChardrvsPrivDev) (m : Memory k) (capable : Bool) (cmd : BitVec 32)
      (arg : BitVec k.longBits), AtomicOnError dev m capable cmd arg := by
  intro h
  have hzero := h kernel64 exampleDev unmapped true (CHARDRVS_IOCSETNRUSERS kernel64) 0 (by decide)
  exact absurd (congrArg ChardrvsPrivDev.usrsCnt hzero) (by decide)

/-- The range that an access through `arg` covers is part of the user range. -/
def InUserRange (k : Kernel) (arg : BitVec k.longBits) : Prop :=
  arg.toNat + k.long.bytes ≤ k.userEnd

instance (k : Kernel) (arg : BitVec k.longBits) : Decidable (InUserRange k arg) :=
  inferInstanceAs (Decidable (_ ≤ _))

/-- A call touches user addresses only; an admitted one with another pointer
fails with `-EFAULT` and changes nothing, and so does a refused one with its own error. -/
structure StaysInUserSpace {k : Kernel} (dev : ChardrvsPrivDev) (m : Memory k) (capable : Bool)
    (cmd : BitVec 32) (arg : BitVec k.longBits) (r : Return k) : Prop where
  touched : ∀ a ∈ r.touched, a < k.userEnd
  refused : ¬Admitted k capable cmd → r.ret ≠ 0 ∧ r.mem = m ∧ r.dev = dev
  outside : Admitted k capable cmd → ¬InUserRange k arg →
    r.ret = -EFAULT ∧ r.mem = m ∧ r.dev = dev

/-- The access of the command faults without a trace. -/
def FaultsUnnoticed {k : Kernel} (dev : ChardrvsPrivDev) (m : Memory k) (cmd : BitVec 32)
    (arg : BitVec k.longBits) : Prop :=
  if cmd = CHARDRVS_IOCSETNRUSERS k then ¬m.Readable arg.toNat k.long.bytes ∧ dev.usrsCnt = 0
  else ¬m.Writable arg.toNat k.long.bytes

section UserSpace
variable {k : Kernel} {dev : ChardrvsPrivDev} {m : Memory k} {capable : Bool} {cmd : BitVec 32}
  {arg : BitVec k.longBits}

theorem long_pos (k : Kernel) : 0 < k.long.bytes := by
  cases k.long with
  | w32 => decide
  | w64 => decide

/-- The addresses of an access are user addresses exactly if its range is in the user range. -/
theorem range_lt_iff :
    (∀ a ∈ List.range' arg.toNat k.long.bytes, a < k.userEnd) ↔ InUserRange k arg := by
  have hpos := long_pos k
  constructor
  · intro h
    have hlast := h (arg.toNat + (k.long.bytes - 1)) (by rw [List.mem_range'_1]; omega)
    unfold InUserRange
    omega
  · intro h a ha
    have hlt := (List.mem_range'_1.mp ha).2
    exact Nat.lt_of_lt_of_le hlt h

/-- A call that makes its access stays in user space if the range does. -/
theorem stays_access_iff (hadm : Admitted k capable cmd) {r : Return k}
    (ht : r.touched = List.range' arg.toNat k.long.bytes) :
    StaysInUserSpace dev m capable cmd arg r ↔ InUserRange k arg := by
  constructor
  · intro h
    have htouched := h.touched
    rw [ht] at htouched
    exact range_lt_iff.mp htouched
  · intro hin
    constructor
    · rw [ht]
      exact range_lt_iff.mpr hin
    · intro hnot
      exact absurd hadm hnot
    · intro _ hout
      exact absurd hin hout

/-- A call whose access faults stays in user space if the fault leaves the device alone. -/
theorem stays_fault_iff (hadm : Admitted k capable cmd) {dev' : ChardrvsPrivDev} :
    StaysInUserSpace dev m capable cmd arg ⟨-EFAULT, dev', m, []⟩ ↔
      InUserRange k arg ∨ dev' = dev := by
  constructor
  · intro h
    by_cases hin : InUserRange k arg
    · exact .inl hin
    · exact .inr (h.outside hadm hin).2.2
  · intro h
    constructor
    · exact List.forall_mem_nil _
    · intro hnot
      exact absurd hadm hnot
    · intro _ hout
      exact ⟨rfl, rfl, h.resolve_left hout⟩

/-- A call stays in user space exactly if it is refused, or its range is in the
user range, or it faults anyway and has nothing to lose. -/
theorem ioctl_staysInUserSpace_iff (k : Kernel) (dev : ChardrvsPrivDev) (m : Memory k)
    (capable : Bool) (cmd : BitVec 32) (arg : BitVec k.longBits) :
    StaysInUserSpace dev m capable cmd arg (chardrvsIoctl dev m capable cmd arg) ↔
      (Admitted k capable cmd → InUserRange k arg ∨ FaultsUnnoticed dev m cmd arg) := by
  have hout := ioctl_outcome dev m capable cmd arg
  generalize chardrvsIoctl dev m capable cmd arg = r at hout
  cases hout with
  | refused e hnot he =>
      apply iff_of_true
      · exact ⟨List.forall_mem_nil _, fun _ => ⟨he, rfl, rfl⟩, fun h => absurd h hnot⟩
      · exact fun h => absurd h hnot
  | setNrUsers hcap hset =>
      have hadm : Admitted k capable cmd := .inl ⟨hcap, .inl hset⟩
      rw [forall_prop_of_true hadm, FaultsUnnoticed, if_pos hset]
      by_cases hr : m.Readable arg.toNat k.long.bytes
      · rw [getUser_ok hr, stays_access_iff hadm rfl]
        exact (or_iff_left fun h => h.1 hr).symm
      · rw [getUser_fault hr, stays_fault_iff hadm, zeroed_eq_iff, and_iff_right hr]
  | put x hadm hset hx =>
      rw [forall_prop_of_true hadm, FaultsUnnoticed, if_neg hset]
      by_cases hw : m.Writable arg.toNat k.long.bytes
      · rw [putUser_ok hw, stays_access_iff hadm rfl]
        exact (or_iff_left fun h => h hw).symm
      · rw [putUser_fault hw, stays_fault_iff hadm]
        exact iff_of_true (.inr rfl) (.inr hw)

end UserSpace

/-- The first address of the direct map of a 64-bit kernel. -/
def directMap : ℕ := 0xffff888000000000

theorem lt_of_mapped {a lo hi n : ℕ} (hn : hi ≤ n)
    (h : decide (lo ≤ a ∧ a < hi) = true ∨ decide (lo ≤ a ∧ a < hi) = true) : a < n := by
  have hmapped := of_decide_eq_true (h.elim id id)
  exact Nat.lt_of_lt_of_le hmapped.2 hn

/-- Eight bytes of kernel memory. -/
def kernelMemory : Memory kernel64 where
  byte _ := 0xff
  readable a := directMap ≤ a ∧ a < directMap + 8
  writable a := directMap ≤ a ∧ a < directMap + 8
  top _ h := lt_of_mapped (by decide) h

/-- A caller without any privilege writes the free space over kernel memory. -/
theorem ioctl_not_staysInUserSpace :
    ¬∀ (k : Kernel) (dev : ChardrvsPrivDev) (m : Memory k) (capable : Bool) (cmd : BitVec 32)
      (arg : BitVec k.longBits),
      StaysInUserSpace dev m capable cmd arg (chardrvsIoctl dev m capable cmd arg) := by
  intro h
  have hstays := h kernel64 exampleDev kernelMemory false (CHARDRVS_IOCQUERYAVAILSIZE kernel64)
    (.ofNat kernel64.longBits directMap)
  exact absurd (hstays.touched directMap (by decide)) (by decide)

/-- `sizeof(int)` -/
def intBytes : ℕ := 4

/-- The memory outside the `int` at `a` is as before. -/
def KeepsOutside {k : Kernel} (m m' : Memory k) (a : ℕ) : Prop :=
  ∀ i, ¬(a ≤ i ∧ i < a + intBytes) → m'.byte i = m.byte i

/-- The limit is set from the `int` at `p` and read back into the `int` at `q`. -/
def setThenGet {k : Kernel} (dev : ChardrvsPrivDev) (m : Memory k) (p q : BitVec k.longBits) :
    Return k :=
  let s := chardrvsIoctl dev m true (CHARDRVS_IOCSETNRUSERS k) p
  chardrvsIoctl s.dev s.mem true (CHARDRVS_IOCGETNRUSERS k) q

/-- Both calls succeed, the value arrives, and nothing but the `int` at `q` changes. -/
structure RoundTrip {k : Kernel} (dev : ChardrvsPrivDev) (m : Memory k) (p q : BitVec k.longBits)
    (v : BitVec 32) : Prop where
  set : (chardrvsIoctl dev m true (CHARDRVS_IOCSETNRUSERS k) p).ret = 0
  get : (setThenGet dev m p q).ret = 0
  value : loadNum k.order (setThenGet dev m p q).mem.byte q.toNat intBytes = v.toNat
  frameAfterSet : KeepsOutside m (setThenGet dev m p q).mem q.toNat
  frame : ∀ capable cmd, cmd = CHARDRVS_IOCGETNRUSERS k ∨ cmd = CHARDRVS_IOCQUERYAVAILSIZE k →
    KeepsOutside m (chardrvsIoctl dev m capable cmd q).mem q.toNat

section Accesses
variable {k : Kernel} {dev : ChardrvsPrivDev} {m : Memory k} {p q : BitVec k.longBits}
  {x v : BitVec 32} {a : ℕ}

theorem ioctl_set (dev : ChardrvsPrivDev) (m : Memory k) (p : BitVec k.longBits) :
    chardrvsIoctl dev m true (CHARDRVS_IOCSETNRUSERS k) p = ⟨(getUser m p).ret,
      { dev with usrsCnt := (getUser m p).val.setWidth 32 }, m, (getUser m p).touched⟩ := by
  obtain ⟨⟨htype, hnr⟩, -, -⟩ := commands_numbered k
  rw [chardrvsIoctl, if_neg (not_not.mpr htype), if_neg hnr, if_pos rfl]
  rfl

theorem ioctl_get (dev : ChardrvsPrivDev) (m : Memory k) (q : BitVec k.longBits) :
    chardrvsIoctl dev m true (CHARDRVS_IOCGETNRUSERS k) q =
      ⟨(putUser (dev.usrsCnt.setWidth k.longBits) m q).ret, dev,
        (putUser (dev.usrsCnt.setWidth k.longBits) m q).mem,
        (putUser (dev.usrsCnt.setWidth k.longBits) m q).touched⟩ := by
  obtain ⟨-, ⟨htype, hnr⟩, -⟩ := commands_numbered k
  rw [chardrvsIoctl, if_neg (not_not.mpr htype), if_neg hnr, if_neg (commands_ne k).1.symm,
    if_pos rfl]
  rfl

theorem ioctl_query (dev : ChardrvsPrivDev) (m : Memory k) (capable : Bool)
    (q : BitVec k.longBits) :
    (chardrvsIoctl dev m capable (CHARDRVS_IOCQUERYAVAILSIZE k) q).mem =
      (putUser (dev.avail.setWidth k.longBits) m q).mem := by
  obtain ⟨-, -, htype, hnr⟩ := commands_numbered k
  obtain ⟨-, hsq, hgq⟩ := commands_ne k
  rw [chardrvsIoctl, if_neg (not_not.mpr htype), if_neg hnr, if_neg hsq.symm, if_neg hgq.symm,
    if_pos rfl]

/-- The frame of the two reading commands is that of their stores. -/
theorem frame_iff :
    (∀ capable cmd, cmd = CHARDRVS_IOCGETNRUSERS k ∨ cmd = CHARDRVS_IOCQUERYAVAILSIZE k →
      KeepsOutside m (chardrvsIoctl dev m capable cmd q).mem q.toNat) ↔
      ∀ x, x = dev.usrsCnt ∨ x = dev.avail →
        KeepsOutside m (putUser (x.setWidth k.longBits) m q).mem q.toNat := by
  constructor
  · rintro h x (rfl | rfl)
    · have hget := h true _ (.inl rfl)
      rwa [ioctl_get] at hget
    · have hquery := h true _ (.inr rfl)
      rwa [ioctl_query] at hquery
  · intro h capable cmd hcmd
    have hout := ioctl_outcome dev m capable cmd q
    generalize chardrvsIoctl dev m capable cmd q = r at hout
    cases hout with
    | refused _ _ _ => exact fun _ _ => rfl
    | setNrUsers _ hset =>
        obtain ⟨hsg, hsq, -⟩ := commands_ne k
        rcases hcmd with rfl | rfl
        · exact absurd hset.symm hsg
        · exact absurd hset.symm hsq
    | put x _ _ hx => exact h x (hx.imp And.right And.right)

theorem span_add {f : ℕ → Bool} {i j : ℕ} :
    (∀ n < i + j, f (a + n)) ↔ (∀ n < i, f (a + n)) ∧ ∀ n < j, f (a + i + n) := by
  constructor
  · intro h
    refine ⟨fun n hn => h n (by omega), fun n hn => ?_⟩
    rw [Nat.add_assoc]
    exact h (i + n) (by omega)
  · rintro ⟨hlo, hhi⟩ n hn
    by_cases hlt : n < i
    · exact hlo n hlt
    · obtain ⟨r, rfl⟩ := Nat.exists_eq_add_of_le (Nat.le_of_not_lt hlt)
      rw [← Nat.add_assoc]
      exact hhi r (by omega)

/-- The `unsigned long` at a valid `int` is accessible if the bytes behind the `int` are. -/
theorem readable_long (hk : k.long = .w64) (h : m.Readable a intBytes) :
    m.Readable a k.long.bytes ↔ m.Readable (a + intBytes) intBytes := by
  rw [hk]
  exact (span_add (i := intBytes) (j := intBytes)).trans (and_iff_right h)

theorem writable_long (hk : k.long = .w64) (h : m.Writable a intBytes) :
    m.Writable a k.long.bytes ↔ m.Writable (a + intBytes) intBytes := by
  rw [hk]
  exact (span_add (i := intBytes) (j := intBytes)).trans (and_iff_right h)

theorem toNat_setWidth_long (k : Kernel) (x : BitVec 32) :
    (x.setWidth k.longBits).toNat = x.toNat := by
  have hlt := x.isLt
  rw [BitVec.toNat_setWidth]
  refine Nat.mod_eq_of_lt (Nat.lt_of_lt_of_le hlt (Nat.pow_le_pow_right (by decide) ?_))
  unfold Kernel.longBits
  cases k.long with
  | w32 => decide
  | w64 => decide

/-- What a fetch from a valid `int` leaves in the field. -/
def fetched (m : Memory k) (p : ℕ) : ℕ :=
  match k.long with
  | .w32 => loadNum k.order m.byte p intBytes
  | .w64 =>
      if m.Readable (p + intBytes) intBytes then
        loadNum k.order m.byte (k.order.lowHalf p intBytes) intBytes
      else 0

theorem getUser_fetched (hp : m.Readable p.toNat intBytes) :
    ((getUser m p).val.setWidth 32).toNat = fetched m p.toNat := by
  have hbits : 2 ^ k.longBits = 256 ^ k.long.bytes := by
    rw [Kernel.longBits, Nat.pow_mul]
  have hlt := loadNum_lt k.order m.byte p.toNat k.long.bytes
  by_cases hr : m.Readable p.toNat k.long.bytes
  · rw [getUser_ok hr, BitVec.toNat_setWidth, BitVec.toNat_ofNat, hbits, Nat.mod_eq_of_lt hlt]
    unfold fetched
    cases hk : k.long with
    | w32 =>
        rw [hk] at hlt
        exact Nat.mod_eq_of_lt hlt
    | w64 =>
        rw [if_pos ((readable_long hk hp).mp hr)]
        exact loadNum_mod k.order m.byte p.toNat intBytes
  · have hzero : ((0 : BitVec k.longBits).setWidth 32).toNat = 0 :=
      congrArg BitVec.toNat (BitVec.setWidth_zero _ _)
    rw [getUser_fault hr, hzero]
    unfold fetched
    cases hk : k.long with
    | w32 =>
        rw [hk] at hr
        exact absurd hp hr
    | w64 =>
        exact (if_neg fun h => hr ((readable_long hk hp).mpr h)).symm

/-- The memory behind a store through a valid `int`. -/
theorem putUser_byte (hq : m.Writable q.toNat intBytes) :
    (putUser (x.setWidth k.longBits) m q).mem.byte =
      match k.long with
      | .w32 => storeNum k.order m.byte q.toNat intBytes x.toNat
      | .w64 =>
          if m.Writable (q.toNat + intBytes) intBytes then
            storeNum k.order (storeNum k.order m.byte q.toNat intBytes (k.order.halves x.toNat).1)
              (q.toNat + intBytes) intBytes (k.order.halves x.toNat).2
          else m.byte := by
  by_cases hw : m.Writable q.toNat k.long.bytes
  · rw [putUser_ok hw, toNat_setWidth_long]
    cases hk : k.long with
    | w32 => rfl
    | w64 =>
        rw [if_pos ((writable_long hk hq).mp hw)]
        exact storeNum_halves (n := intBytes) x.isLt
  · rw [putUser_fault hw]
    cases hk : k.long with
    | w32 =>
        rw [hk] at hw
        exact absurd hq hw
    | w64 => rw [if_neg fun h => hw ((writable_long hk hq).mpr h)]

/-- The four bytes behind the `int` at `q` are already those that a store of `x`
through an `unsigned long` leaves there. -/
def BehindFits (m : Memory k) (q : ℕ) (x : BitVec 32) : Prop :=
  k.long = .w64 → m.Writable (q + intBytes) intBytes →
    loadNum k.order m.byte (q + intBytes) intBytes = (k.order.halves x.toNat).2

theorem keepsOutside_put_iff (hq : m.Writable q.toNat intBytes) :
    KeepsOutside m (putUser (x.setWidth k.longBits) m q).mem q.toNat ↔ BehindFits m q.toNat x := by
  obtain ⟨h1, h2⟩ := halves_lt (n := intBytes) k.order x.isLt
  unfold KeepsOutside BehindFits
  rw [putUser_byte hq]
  cases hk : k.long with
  | w32 => exact iff_of_true (fun i hi => storeNum_frame x.isLt (by omega)) (by simp)
  | w64 =>
      by_cases hw : m.Writable (q.toNat + intBytes) intBytes
      · simp only [forall_true_left, hw, if_true]
        constructor
        · intro h
          have hload := load_congr (a := q.toNat + intBytes) (n := intBytes) fun i hlo hhi =>
            h i (by omega)
          rw [loadNum, ← hload]
          exact loadNum_storeNum_self h2
        · intro h i hi
          have hsame : loadNum k.order (storeNum k.order m.byte q.toNat intBytes
              (k.order.halves x.toNat).1) (q.toNat + intBytes) intBytes =
              (k.order.halves x.toNat).2 := by
            rw [← h, loadNum, loadNum]
            congr 1
            exact load_congr fun j hlo _ => storeNum_frame h1 (.inr hlo)
          rw [← hsame, storeNum_loadNum]
          exact storeNum_frame h1 (by omega)
      · simp only [hw, if_false]
        exact iff_of_true (fun _ _ => trivial) (by simp)

/-- What the `int` at `q` is after a store of `x` through an `unsigned long`. -/
def storedInt (m : Memory k) (q : ℕ) (x : BitVec 32) : ℕ :=
  match k.long with
  | .w32 => x.toNat
  | .w64 =>
      if m.Writable (q + intBytes) intBytes then (k.order.halves x.toNat).1
      else loadNum k.order m.byte q intBytes

theorem loadNum_put (hq : m.Writable q.toNat intBytes) :
    loadNum k.order (putUser (x.setWidth k.longBits) m q).mem.byte q.toNat intBytes =
      storedInt m q.toNat x := by
  obtain ⟨h1, h2⟩ := halves_lt (n := intBytes) k.order x.isLt
  rw [putUser_byte hq]
  unfold storedInt
  cases hk : k.long with
  | w32 => exact loadNum_storeNum_self x.isLt
  | w64 =>
      by_cases hw : m.Writable (q.toNat + intBytes) intBytes
      · simp only [if_pos hw]
        rw [loadNum, load_congr fun i _ hhi => storeNum_frame h2 (.inl hhi)]
        exact loadNum_storeNum_self h1
      · simp only [if_neg hw]

end Accesses

/-- What makes the round trip work on a 64-bit kernel: the bytes behind the two
`int`s are accessible, and they are what the halves of the `long`s need. -/
def Coincidence {k : Kernel} (dev : ChardrvsPrivDev) (m : Memory k) (p q : ℕ) (v : BitVec 32) :
    Prop :=
  let behind := loadNum k.order m.byte (q + intBytes) intBytes
  m.Readable (p + intBytes) intBytes ∧ m.Writable (q + intBytes) intBytes ∧
    match k.order with
    | .little => behind = 0
    | .big => v = 0 ∧ behind = dev.usrsCnt.toNat ∧ behind = dev.avail.toNat ∧
        behind = loadNum .big m.byte (p + intBytes) intBytes

section Values
variable {k : Kernel} {dev : ChardrvsPrivDev} {m : Memory k} {p q : BitVec k.longBits}
  {v : BitVec 32}

/-- The round trip in terms of the limit that is set on the way. -/
theorem roundTrip_iff_fits (hq : m.Writable q.toNat intBytes) :
    RoundTrip dev m p q v ↔
      m.Readable p.toNat k.long.bytes ∧ m.Writable q.toNat k.long.bytes ∧
      storedInt m q.toNat ((getUser m p).val.setWidth 32) = v.toNat ∧
        BehindFits m q.toNat ((getUser m p).val.setWidth 32) ∧
          BehindFits m q.toNat dev.usrsCnt ∧ BehindFits m q.toNat dev.avail := by
  have hset : (chardrvsIoctl dev m true (CHARDRVS_IOCSETNRUSERS k) p).ret = (getUser m p).ret := by
    rw [ioctl_set]
  have hget : (setThenGet dev m p q).ret =
      (putUser (((getUser m p).val.setWidth 32).setWidth k.longBits) m q).ret := by
    simp only [setThenGet, ioctl_set, ioctl_get]
  have hmem : (setThenGet dev m p q).mem =
      (putUser (((getUser m p).val.setWidth 32).setWidth k.longBits) m q).mem := by
    simp only [setThenGet, ioctl_set, ioctl_get]
  rw [← getUser_ret, ← putUser_ret (x := ((getUser m p).val.setWidth 32).setWidth k.longBits),
    ← hset, ← hget, ← loadNum_put hq, ← keepsOutside_put_iff hq, ← keepsOutside_put_iff hq,
    ← keepsOutside_put_iff hq, ← hmem]
  constructor
  · intro h
    have hframe := frame_iff.mp h.frame
    exact ⟨h.set, h.get, h.value, h.frameAfterSet, hframe _ (.inl rfl), hframe _ (.inr rfl)⟩
  · rintro ⟨hset, hget, hvalue, hafter, husrs, havail⟩
    refine ⟨hset, hget, hvalue, hafter, frame_iff.mpr ?_⟩
    rintro x (rfl | rfl)
    · exact husrs
    · exact havail

/-- A limit set from one valid `int` is read back into another, and the reading
commands keep to it, exactly where `unsigned long` is as wide as an `int` and
where the bytes behind the `int`s hide the difference. -/
theorem roundTrip_iff (k : Kernel) (dev : ChardrvsPrivDev) (m : Memory k)
    (p q : BitVec k.longBits) (v : BitVec 32) (hp : m.Readable p.toNat intBytes)
    (hq : m.Writable q.toNat intBytes)
    (hv : loadNum k.order m.byte p.toNat intBytes = v.toNat) :
    RoundTrip dev m p q v ↔ k.long = .w32 ∨ Coincidence dev m p.toNat q.toNat v := by
  have hcount := getUser_fetched hp
  rw [roundTrip_iff_fits hq]
  unfold storedInt BehindFits Coincidence
  rw [hcount]
  unfold fetched
  cases hk : k.long with
  | w32 =>
      rw [hk] at *
      exact iff_of_true ⟨hp, hq, hv, nofun, nofun, nofun⟩ (.inl rfl)
  | w64 =>
      have h64 : LongSize.w64 ≠ .w32 := nofun
      rw [← hk, readable_long hk hp, writable_long hk hq]
      simp only [hk, h64, false_or, forall_true_left]
      refine and_congr_right fun hr => and_congr_right fun hw => ?_
      simp only [hr, hw, if_true, forall_true_left]
      cases hord : k.order with
      | little =>
          rw [hord] at hv
          simp only [ByteOrder.halves, ByteOrder.lowHalf, hv, true_and]
          exact ⟨fun h => h.1, fun h => ⟨h, h, h⟩⟩
      | big =>
          simp only [ByteOrder.halves, ByteOrder.lowHalf]
          refine and_congr ⟨fun h => BitVec.eq_of_toNat_eq h.symm, fun h => by rw [h]; rfl⟩ ?_
          exact ⟨fun h => ⟨h.2.1, h.2.2, h.1⟩, fun h => ⟨h.2.2, h.1, h.2.1⟩⟩

end Values

/-- An `int` that a program may pass. -/
structure IntObject {k : Kernel} (m : Memory k) (a : BitVec k.longBits) : Prop where
  user : a.toNat + intBytes ≤ k.userEnd
  aligned : intBytes ∣ a.toNat
  readable : m.Readable a.toNat intBytes
  writable : m.Writable a.toNat intBytes

/-- One page of a program with these bytes. -/
def page (k : Kernel) (byte : ℕ → UInt8) : Memory k where
  byte := byte
  readable a := 4096 ≤ a ∧ a < 8192
  writable a := 4096 ≤ a ∧ a < 8192
  top _ h := by
    refine lt_of_mapped ?_ h
    unfold Kernel.longBits
    cases k.long with
    | w32 => decide
    | w64 => decide

/-- A page of zeros behind an `int` that is 2 on a little-endian kernel. -/
def twoAtStart : Memory kernel64 := page kernel64 fun a => if a = 4096 then 2 else 0

theorem roundTrip_iff_twoAtStart :
    RoundTrip exampleDev twoAtStart (.ofNat 64 4096) (.ofNat 64 4200) 2 :=
  (roundTrip_iff kernel64 exampleDev twoAtStart (.ofNat 64 4096) (.ofNat 64 4200) 2
    (by decide) (by decide) (by decide)).mpr (.inr ⟨by decide, by decide, rfl⟩)

/-- On a 64-bit kernel the variable behind the `int` is lost. -/
theorem not_roundTrip :
    ¬∀ (k : Kernel) (dev : ChardrvsPrivDev) (m : Memory k) (p q : BitVec k.longBits)
      (v : BitVec 32), IntObject m p → IntObject m q →
      loadNum k.order m.byte p.toNat intBytes = v.toNat → RoundTrip dev m p q v := by
  intro h
  have hint : IntObject (page kernel64 fun _ => 1) (.ofNat kernel64.longBits 4096) :=
    ⟨by decide, by decide, by decide, by decide⟩
  have hframe := (h kernel64 exampleDev (page kernel64 fun _ => 1) _ _ 0x01010101 hint hint
    (by decide)).frame false (CHARDRVS_IOCQUERYAVAILSIZE kernel64) (.inr rfl) 4100 (by decide)
  exact absurd hframe (by decide)

end LinuxDeviceDrivers.ChardrvsIoctl
