import LinuxDeviceDrivers.ChardrvsIoctl
import LinuxDeviceDrivers.CStrings
import LinuxDeviceDrivers.TransitionSystem

/-!
# The just-in-queue module

One reader of `/proc/jiqwq`, `jiqwqdelay` or `jiqtasklet`: its show function has
reset `jiq_data` and queued the first `jiq_print`, and every call that prints
queues the next one. What a call finds in its surroundings (the time, the
process, the cpu) is given with the call.

`jiq_print` stops when `data->len` is over `LIMIT`. What it adds to `data->len`
is not what it has printed but `m->count`, the length of the whole output, and
in the first call the header once more. So `data->len` runs ahead of the output:
the page is never full, and printing ends long before the output reaches `LIMIT`.
-/
namespace LinuxDeviceDrivers.Jiq
open ChardrvsIoctl (LongSize)
open CStrings TransitionSystem

/-- The kernel's `PAGE_SIZE`: at most the largest power of two that an `int` can
hold. -/
structure PageSize where
  bytes : ℕ
  min : 4096 ≤ bytes
  max : bytes ≤ 2 ^ 30

def PageSize.LIMIT (page : PageSize) : ℕ := page.bytes - 128

theorem PageSize.LIMIT_add (page : PageSize) : page.LIMIT + 128 = page.bytes :=
  Nat.sub_add_cancel (Nat.le_trans (by decide) page.min)

/-- `struct seq_file`: the size of its buffer, the bytes in use, and what the
buffer holds. -/
structure SeqFile where
  size : ℕ
  count : ℕ
  text : List UInt8
deriving DecidableEq, Repr

/-- `seq_puts` and `seq_printf` of a text; without room for it and a terminator
the buffer counts as full. -/
def SeqFile.append (m : SeqFile) (s : List UInt8) : SeqFile :=
  if m.count + s.length < m.size then { m with count := m.count + s.length, text := m.text ++ s }
  else { m with count := m.size }

theorem SeqFile.append_of_room {m : SeqFile} {s : List UInt8} (h : m.count + s.length < m.size) :
    m.append s = ⟨m.size, m.count + s.length, m.text ++ s⟩ := if_pos h

/-- A queued call of `jiq_print`. -/
inductive Item where
  | work
  | delayedWork (delay : ℤ)
  | tasklet
deriving DecidableEq, Repr

section Kernel
variable (k : LongSize)

/-- The fields of `struct clientdata` that the queued calls use. -/
structure ClientData where
  len : BitVec 32
  jiffies : BitVec (8 * k.bytes)
  delay : ℤ

/-- What a call finds: `jiffies`, `preempt_count()`, `current->pid`,
`smp_processor_id()` and `current->comm`. -/
structure Surroundings where
  jiffies : BitVec (8 * k.bytes)
  preemptCount : BitVec 32
  pid : BitVec 32
  cpu : BitVec 32
  comm : CString
  comm_length : comm.bytes.length ≤ 15

end Kernel

section Print
variable {k : LongSize}

def header : List UInt8 := ascii "    time  delta preempt   pid cpu command\n"

/-- `"%9li  %4li     %3i %5i %3i %s\n"` -/
def line (x : Surroundings k) (last : BitVec (8 * k.bytes)) : List UInt8 :=
  padLeft 9 (decimalInt x.jiffies.toInt) ++ ascii "  " ++
    padLeft 4 (decimalInt (x.jiffies - last).toInt) ++ ascii "     " ++
      padLeft 3 (decimalInt x.preemptCount.toInt) ++ ascii " " ++
        padLeft 5 (decimalInt x.pid.toInt) ++ ascii " " ++
          padLeft 3 (decimalInt x.cpu.toInt) ++ ascii " " ++ x.comm.bytes ++ ascii "\n"

/-- `len > LIMIT`, where the `int` is converted to `unsigned long`. -/
def overLimit (page : PageSize) (len : BitVec 32) : Prop :=
  page.LIMIT < (len.signExtend (8 * k.bytes)).toNat

instance (page : PageSize) (len : BitVec 32) : Decidable (overLimit (k := k) page len) :=
  inferInstanceAs (Decidable (_ < _))

/-- The branch on the first call: the local `len` and the file behind it. -/
def putHeader (data : ClientData k) (m : SeqFile) : BitVec 32 × SeqFile :=
  if data.len = 0 then (.ofNat 32 (m.append header).count, m.append header) else (0, m)

def jiqPrint (page : PageSize) (x : Surroundings k) (data : ClientData k) (m : SeqFile) :
    ℤ × ClientData k × SeqFile :=
  if overLimit (k := k) page data.len then (0, data, m)
  else
    let r := putHeader data m
    let m := r.2.append (line x data.jiffies)
    let len := r.1 + .ofNat 32 m.count
    (1, { data with len := data.len + len, jiffies := x.jiffies }, m)

end Print

/-- The reader's data, its file, the queued call, and whether the reader has been
woken up. -/
structure State (k : LongSize) where
  data : ClientData k
  m : SeqFile
  queued : Option Item
  woken : Bool

section System
variable {k : LongSize}

/-- A call of `jiq_print` that queues `item` if it returns non-zero. -/
def printAndQueue (item : Item) (page : PageSize) (s : State k) (x : Surroundings k) : State k :=
  let r := jiqPrint page x s.data s.m
  ⟨r.2.1, r.2.2, if r.1 = 0 then none else some item, s.woken || r.1 == 0⟩

def jiqPrintWq : PageSize → State k → Surroundings k → State k := printAndQueue .work

def jiqPrintWqDelayed (page : PageSize) (s : State k) : Surroundings k → State k :=
  printAndQueue (.delayedWork s.data.delay) page s

def jiqPrintTasklet : PageSize → State k → Surroundings k → State k := printAndQueue .tasklet

/-- The queued call runs. -/
def runQueued (page : PageSize) (s : State k) (x : Surroundings k) : Option (State k) :=
  s.queued.map fun
    | .work => jiqPrintWq page s x
    | .delayedWork _ => jiqPrintWqDelayed page s x
    | .tasklet => jiqPrintTasklet page s x

/-- What the show functions leave, on a fresh file. -/
structure Shown (page : PageSize) (s : State k) : Prop where
  len : s.data.len = 0
  size : s.m.size = page.bytes
  count : s.m.count = 0
  text : s.m.text = []
  queued : s.queued.isSome
  woken : s.woken = false

def system (k : LongSize) (page : PageSize) : System (State k) (Surroundings k) where
  start := Shown page
  next := runQueued page

end System

/-! ## One call -/

section Widths
variable {k : LongSize}

theorem natAbs_toInt_le {w : ℕ} (x : BitVec w) : x.toInt.natAbs ≤ 2 ^ (w - 1) := by
  have hlow := BitVec.le_toInt x
  have hhigh := BitVec.toInt_lt (x := x)
  have hcast : ((2 ^ (w - 1) : ℕ) : ℤ) = 2 ^ (w - 1) := Nat.cast_pow 2 (w - 1)
  omega

theorem int_width (x : BitVec 32) : (decimalInt x.toInt).length ≤ 11 :=
  length_decimalInt_le (by decide) (Nat.lt_of_le_of_lt (natAbs_toInt_le x) (by decide))

theorem long_width (x : BitVec (8 * k.bytes)) : (decimalInt x.toInt).length ≤ 20 := by
  have habs := natAbs_toInt_le x
  apply length_decimalInt_le (by decide)
  cases k with
  | w32 => exact Nat.lt_of_le_of_lt habs (by decide)
  | w64 => exact Nat.lt_of_le_of_lt habs (by decide)

theorem header_length : header.length = 42 := by decide

/-- A line has between 35 and 99 characters. -/
theorem line_length (x : Surroundings k) (last : BitVec (8 * k.bytes)) :
    35 ≤ (line x last).length ∧ (line x last).length ≤ 99 := by
  have htime := long_width x.jiffies
  have hdelta := long_width (x.jiffies - last)
  have hpreempt := int_width x.preemptCount
  have hpid := int_width x.pid
  have hcpu := int_width x.cpu
  have hcomm := x.comm_length
  have hblanks : (ascii "  ").length = 2 ∧ (ascii "     ").length = 5 ∧ (ascii " ").length = 1 ∧
      (ascii "\n").length = 1 := by decide
  obtain ⟨h2, h5, h1, hnl⟩ := hblanks
  simp only [line, List.length_append, length_padLeft, h2, h5, h1, hnl]
  omega

end Widths

section Calls
variable {k : LongSize} {page : PageSize} {data : ClientData k} {m : SeqFile}

/-- Between two calls: `data->len` is ahead of the output, after some lines by a
factor of two, so that the output takes little more than half of the page. -/
structure Kept (page : PageSize) (data : ClientData k) (m : SeqFile) : Prop where
  size : m.size = page.bytes
  text : m.text.length = m.count
  fresh : data.len = 0 → m.count = 0
  count_le : m.count ≤ data.len.toNat
  twice : 2 * m.count ≤ data.len.toNat + 99
  half : 2 * m.count ≤ page.LIMIT + 297
  len_le : data.len.toNat ≤ page.LIMIT + page.bytes

/-- What a call prints before its line. -/
def headerText (data : ClientData k) : List UInt8 := if data.len = 0 then header else []

theorem headerText_length_le (data : ClientData k) : (headerText data).length ≤ 42 := by
  unfold headerText
  split_ifs
  · exact Nat.le_of_eq header_length
  · exact Nat.zero_le 42

/-- `data->len` is never negative as an `int`. -/
theorem Kept.len_lt (h : Kept page data m) : data.len.toNat < 2 ^ 31 := by
  have hlen := h.len_le
  have hlimit := page.LIMIT_add
  have hmax := page.max
  omega

theorem Kept.toInt_len (h : Kept page data m) : data.len.toInt = data.len.toNat := by
  have hlen := h.len_lt
  apply BitVec.toInt_eq_toNat_of_lt
  omega

theorem Kept.overLimit_iff (h : Kept page data m) :
    overLimit (k := k) page data.len ↔ page.LIMIT < data.len.toNat := by
  have hlen := h.len_lt
  have hmsb : data.len.msb = false := BitVec.msb_eq_false_iff_two_mul_lt.mpr (by omega)
  have hbits : 2 ^ 32 ≤ 2 ^ (8 * k.bytes) := by
    cases k with
    | w32 => decide
    | w64 => decide
  unfold overLimit
  rw [BitVec.signExtend_eq_setWidth_of_msb_false hmsb, BitVec.toNat_setWidth,
    Nat.mod_eq_of_lt (Nat.lt_of_lt_of_le data.len.isLt hbits)]

theorem Kept.len_le_LIMIT (h : Kept page data m) (hlimit : ¬overLimit (k := k) page data.len) :
    data.len.toNat ≤ page.LIMIT := by
  rw [h.overLimit_iff] at hlimit
  exact Nat.le_of_not_lt hlimit

/-- The header is printed first or not at all. -/
theorem Kept.header_first (h : Kept page data m) :
    (m.count = 0 ∧ data.len.toNat = 0) ∨ (headerText data).length = 0 := by
  by_cases hfirst : data.len = 0
  · left
    exact ⟨h.fresh hfirst, by rw [hfirst]; rfl⟩
  · right
    rw [headerText, if_neg hfirst]
    rfl

theorem jiqPrint_stop (x : Surroundings k) (h : overLimit (k := k) page data.len) :
    jiqPrint page x data m = (0, data, m) := if_pos h

theorem Kept.putHeader_eq (h : Kept page data m) :
    putHeader data m = (.ofNat 32 (headerText data).length,
      ⟨m.size, m.count + (headerText data).length, m.text ++ headerText data⟩) := by
  by_cases hfirst : data.len = 0
  · have hroom : m.count + header.length < m.size := by
      rw [h.fresh hfirst, h.size, header_length]
      have hpage := page.min
      omega
    rw [putHeader, headerText, if_pos hfirst, if_pos hfirst, SeqFile.append_of_room hroom,
      h.fresh hfirst, Nat.zero_add]
  · rw [putHeader, headerText, if_neg hfirst, if_neg hfirst, List.append_nil]
    rfl

theorem toNat_add_ofNat {a : BitVec 32} {b c : ℕ} (h : a.toNat + (b + c) < 2 ^ 32) :
    (a + (.ofNat 32 b + .ofNat 32 c)).toNat = a.toNat + b + c := by
  simp only [BitVec.toNat_add, BitVec.toNat_ofNat]
  omega

/-- A call that prints: what it adds to the output and to `data->len`. -/
structure Prints (data : ClientData k) (m : SeqFile) (data' : ClientData k) (m' : SeqFile) :
    Prop where
  size : m'.size = m.size
  line : ∃ n, 35 ≤ n ∧ n ≤ 99 ∧ m'.count = m.count + (headerText data).length + n
  text : m'.text.length + m.count = m.text.length + m'.count
  len : data'.len.toNat = data.len.toNat + (headerText data).length + m'.count

theorem Kept.prints (h : Kept page data m) (x : Surroundings k)
    (hlimit : ¬overLimit (k := k) page data.len) :
    ∃ data' m', jiqPrint page x data m = (1, data', m') ∧ Prints data m data' m' := by
  have hle := h.len_le_LIMIT hlimit
  obtain ⟨hmin, hmax⟩ := line_length x data.jiffies
  have hheader := headerText_length_le data
  have hfirst := h.header_first
  have hcount := h.count_le
  have hpage := page.LIMIT_add
  have hpmin := page.min
  have hpmax := page.max
  have hroom : m.count + (headerText data).length + (line x data.jiffies).length < m.size := by
    rw [h.size]
    omega
  have hprint : jiqPrint page x data m =
      (1, { data with
        len := data.len + (.ofNat 32 (headerText data).length +
          .ofNat 32 (m.count + (headerText data).length + (line x data.jiffies).length))
        jiffies := x.jiffies },
      ⟨m.size, m.count + (headerText data).length + (line x data.jiffies).length,
        m.text ++ headerText data ++ line x data.jiffies⟩) := by
    rw [jiqPrint, if_neg hlimit, h.putHeader_eq]
    dsimp only
    rw [SeqFile.append_of_room (m := ⟨m.size, m.count + (headerText data).length,
      m.text ++ headerText data⟩) hroom]
  generalize line x data.jiffies = l at *
  refine ⟨_, _, hprint, rfl, ⟨l.length, hmin, hmax, rfl⟩, ?_, ?_⟩
  · simp only [List.length_append]
    omega
  · apply toNat_add_ofNat
    omega

/-- A call that prints keeps the invariant, and `data->len` grows. -/
theorem Prints.kept {data' : ClientData k} {m' : SeqFile} (h : Prints data m data' m')
    (hk : Kept page data m) (hlimit : ¬overLimit (k := k) page data.len) :
    Kept page data' m' ∧ data.len.toNat < data'.len.toNat := by
  have hle := hk.len_le_LIMIT hlimit
  obtain ⟨n, hmin, hmax, hcount⟩ := h.line
  have hlen := h.len
  have htext := h.text
  have hold := hk.text
  have hheader := headerText_length_le data
  have hcle := hk.count_le
  have htwice := hk.twice
  have hfirst := hk.header_first
  have hpage := page.LIMIT_add
  have hpmin := page.min
  refine ⟨⟨h.size.trans hk.size, by omega, ?_, by omega, by omega, by omega, by omega⟩, by omega⟩
  intro hzero
  rw [hzero] at hlen
  have hnil : (0 : BitVec 32).toNat = 0 := rfl
  omega

end Calls

/-! ## Runs -/

section Runs
variable {k : LongSize} {page : PageSize} {s t : State k} {x : Surroundings k}

theorem runQueued_eq (h : runQueued page s x = some t) :
    ∃ item, printAndQueue item page s x = t := by
  obtain ⟨item, _, ht⟩ := Option.map_eq_some_iff.mp h
  cases item with
  | work => exact ⟨_, ht⟩
  | delayedWork delay => exact ⟨_, ht⟩
  | tasklet => exact ⟨_, ht⟩

/-- A queued call either prints and queues the next one or wakes the reader. -/
theorem runQueued_cases (hs : Kept page s.data s.m) (h : runQueued page s x = some t) :
    (overLimit (k := k) page s.data.len ∧ t = ⟨s.data, s.m, none, true⟩) ∨
      (¬overLimit (k := k) page s.data.len ∧ Prints s.data s.m t.data t.m ∧ t.queued.isSome) := by
  obtain ⟨item, rfl⟩ := runQueued_eq h
  by_cases hlimit : overLimit (k := k) page s.data.len
  · left
    refine ⟨hlimit, ?_⟩
    rw [printAndQueue, jiqPrint_stop x hlimit]
    simp
  · right
    obtain ⟨data', m', heq, hprints⟩ := hs.prints x hlimit
    rw [printAndQueue, heq]
    exact ⟨hlimit, hprints, rfl⟩

/-- The invariant of a run: with no call queued the reader has been woken up. -/
structure Running (page : PageSize) (s : State k) : Prop where
  kept : Kept page s.data s.m
  woken : s.queued = none → s.woken = true

theorem Shown.running (h : Shown page s) : Running page s where
  kept := by
    have hlen : s.data.len.toNat = 0 := by rw [h.len]; rfl
    exact ⟨h.size, by rw [h.text, h.count]; rfl, fun _ => h.count, by rw [h.count]; omega,
      by rw [h.count]; omega, by rw [h.count]; omega, by omega⟩
  woken hnone := by
    have hqueued := h.queued
    rw [hnone] at hqueued
    cases hqueued

theorem Running.next (hs : Running page s) (h : runQueued page s x = some t) :
    Running page t := by
  rcases runQueued_cases hs.kept h with ⟨_, rfl⟩ | ⟨hlimit, hprints, hqueued⟩
  · exact ⟨hs.kept, fun _ => rfl⟩
  · refine ⟨(hprints.kept hs.kept hlimit).1, fun hnone => ?_⟩
    rw [hnone] at hqueued
    cases hqueued

theorem running_of_reachable (h : (system k page).Reachable s) : Running page s := by
  apply System.ReachableWhen.invariant (fun _ => Shown.running) _ h
  intro s x t _ hs _ hn
  exact hs.next hn

/-- The output of a reader stays far below `LIMIT`. -/
theorem output_le (h : (system k page).Reachable s) :
    2 * s.m.text.length ≤ page.LIMIT + 297 := by
  have hkept := (running_of_reachable h).kept
  rw [hkept.text]
  exact hkept.half

theorem grows (hs : Running page s) (hn : runQueued page s x = some t)
    (hprinted : t.queued.isSome) : s.data.len.toNat < t.data.len.toNat := by
  rcases runQueued_cases hs.kept hn with ⟨_, rfl⟩ | ⟨hlimit, hprints, _⟩
  · cases hprinted
  · exact (hprints.kept hs.kept hlimit).2

/-- How many calls may still come. -/
def rank (page : PageSize) (s : State k) : ℕ :=
  if s.queued = none then 0 else page.LIMIT + page.bytes + 1 - s.data.len.toNat

theorem rank_next (hs : Running page s) (hn : runQueued page s x = some t) :
    rank page t < rank page s := by
  have hlen := hs.kept.len_le
  have hqueued : s.queued ≠ none := by
    intro hnone
    rw [runQueued, hnone] at hn
    cases hn
  unfold rank
  rw [if_neg hqueued]
  split_ifs with hnone
  · omega
  · have hgrows := grows hs hn (Option.isSome_iff_ne_none.mpr hnone)
    omega

/-- Until the reader has been woken up there is a next call. -/
theorem Running.progress (hs : Running page s) (hgoes : ¬(s.queued = none ∧ s.woken = true))
    (x : Surroundings k) :
    ∃ t, (system k page).next s x = some t ∧ Running page t ∧ rank page t < rank page s := by
  have hqueued : s.queued ≠ none := fun hnone => hgoes ⟨hnone, hs.woken hnone⟩
  obtain ⟨item, hitem⟩ := Option.ne_none_iff_exists'.mp hqueued
  have hnext : ∃ t, runQueued page s x = some t := by
    rw [runQueued, hitem]
    exact ⟨_, rfl⟩
  obtain ⟨t, hn⟩ := hnext
  exact ⟨t, hn, hs.next hn, rank_next hs hn⟩

theorem rank_le (page : PageSize) (s : State k) : rank page s ≤ 2 * page.bytes := by
  have hpage := page.LIMIT_add
  unfold rank
  split_ifs
  · exact Nat.zero_le _
  · omega

/-- What a reader's run does, whatever its calls find. -/
structure StaysInPage (k : LongSize) (page : PageSize) : Prop where
  count_lt : ∀ s, (system k page).Reachable s → s.m.count < page.bytes
  count_le : ∀ s, (system k page).Reachable s → (s.m.count : ℤ) ≤ s.data.len.toInt
  grows : ∀ s x t, (system k page).Reachable s → (system k page).next s x = some t →
    t.queued.isSome → s.data.len.toInt < t.data.len.toInt
  stops : ∀ s, Shown page s → ∀ xs : ℕ → Surroundings k,
    ∃ n ≤ 2 * page.bytes, ∃ t, (system k page).run s ((List.range n).map xs) = some t ∧
      t.queued = none ∧ t.woken = true

theorem staysInPage (k : LongSize) (page : PageSize) : StaysInPage k page where
  count_lt s hs := by
    have hhalf := (running_of_reachable hs).kept.half
    have hpage := page.LIMIT_add
    have hmin := page.min
    omega
  count_le s hs := by
    have hkept := (running_of_reachable hs).kept
    rw [hkept.toInt_len]
    exact Int.ofNat_le.mpr hkept.count_le
  grows s x t hs hn hprinted := by
    have hrunning := running_of_reachable hs
    rw [hrunning.kept.toInt_len, (hrunning.next hn).kept.toInt_len]
    exact Int.ofNat_lt.mpr (grows hrunning hn hprinted)
  stops s hs xs := by
    obtain ⟨n, hn, t, hrun, hstop⟩ := System.stops (rank page)
      (fun s x hrunning hgoes => Running.progress (s := s) hrunning hgoes x) hs.running xs
    exact ⟨n, hn.trans (rank_le page s), t, hrun, hstop⟩

end Runs

/-! ## The length in `data->len` -/

section Accounting
variable {k : LongSize} {page : PageSize} {s t : State k} {x : Surroundings k}

/-- `data->len` is the length of the output, and the next call is the last one if
and only if the output is longer than `LIMIT`. -/
structure AccountsExactly (page : PageSize) (s : State k) : Prop where
  len : s.data.len.toInt = s.m.text.length
  stops : ∀ x t, runQueued page s x = some t → (t.queued = none ↔ page.LIMIT < s.m.text.length)

theorem Shown.next (hs : Shown page s) (x : Surroundings k) :
    ∃ t, runQueued page s x = some t := by
  obtain ⟨item, hitem⟩ := Option.isSome_iff_exists.mp hs.queued
  rw [runQueued, hitem]
  exact ⟨_, rfl⟩

theorem Shown.prints (hs : Shown page s) (hn : runQueued page s x = some t) :
    Prints s.data s.m t.data t.m ∧ t.queued.isSome := by
  rcases runQueued_cases hs.running.kept hn with ⟨hlimit, _⟩ | ⟨_, hprints⟩
  · rw [hs.running.kept.overLimit_iff, hs.len] at hlimit
    exact absurd hlimit (Nat.not_lt_zero _)
  · exact hprints

/-- The reader finds `data->len` right as long as nothing has been printed. The
first call adds the header twice. -/
theorem accountsExactly_iff (hs : Shown page s) (xs : List (Surroundings k)) :
    (system k page).Along (AccountsExactly page) s xs ↔ xs = [] := by
  cases xs with
  | nil =>
      refine iff_of_true ⟨by rw [hs.len, hs.text]; rfl, fun x t hn => ?_⟩ rfl
      have hqueued := (hs.prints hn).2
      rw [hs.text]
      constructor
      · intro hnone
        rw [hnone] at hqueued
        cases hqueued
      · intro hlt
        exact absurd hlt (Nat.not_lt_zero _)
  | cons x xs =>
      apply iff_of_false _ (List.cons_ne_nil x xs)
      intro h
      obtain ⟨t, hn⟩ := hs.next x
      have hlen := (h.2 t hn).head.len
      have hprints := (hs.prints hn).1
      have hkept := (hs.running.next hn).kept
      have hadded := hprints.len
      have hheader : (headerText s.data).length = 42 := by
        rw [headerText, if_pos hs.len]
        exact header_length
      rw [hkept.toInt_len, hkept.text] at hlen
      omega

/-- The reader of `/proc/jiqwq` on a machine with 64-bit words and pages of 4 KiB. -/
def firstReader : State .w64 :=
  ⟨⟨0, 0, 0⟩, ⟨4096, 0, []⟩, some .work, false⟩

def firstPage : PageSize := ⟨4096, by decide, by decide⟩

/-- What its first call finds, 250 ticks later. -/
def firstCall : Surroundings .w64 :=
  ⟨250, 0, 7, 1, ⟨ascii "kworker/1:0", by decide⟩, by decide⟩

theorem shown_firstReader : Shown firstPage firstReader := ⟨rfl, rfl, rfl, rfl, rfl, rfl⟩

theorem accountsExactly_firstReader :
    (system .w64 firstPage).Along (AccountsExactly firstPage) firstReader [firstCall] ↔
      [firstCall] = [] :=
  accountsExactly_iff shown_firstReader [firstCall]

/-- After its first call the reader counts 130 characters, of which 88 exist. -/
theorem not_accountsExactly :
    ¬(system .w64 firstPage).Along (AccountsExactly firstPage) firstReader [firstCall] := by
  intro h
  have hlen := (h.2 _ rfl).head.len
  exact absurd hlen (by decide)

end Accounting

end LinuxDeviceDrivers.Jiq
