import LinuxDeviceDrivers.FlatMemory
import Mathlib.Data.Int.Notation
import Mathlib.Data.List.Induction

/-!
# Requests of the RAM disk

`request_handle` copies a request segment by segment between the buffers of the
block layer and the disk, with a position that runs through 64-bit arithmetic
and a clamp at the end of the disk. A `memcpy` that would leave one of its
buffers has no value here, so a request that is served has stayed inside.

The disk refines a flat memory: a write of any segments is one store of their
concatenation, a read is one load cut to the lengths of its segments.
-/
namespace LinuxDeviceDrivers.RamdiskRequest
open FlatMemory

def KERN_SECTOR_SIZE : ℕ := 512
def NR_SECTORS : ℕ := 2048
def MEDIA_SECTOR_SIZE : ℕ := 512
def SECTOR_SHIFT : ℕ := 9

def diskSize : ℕ := NR_SECTORS * MEDIA_SECTOR_SIZE

/-- The capacity, in sectors, that `set_capacity` announces. -/
def capacity : ℕ := NR_SECTORS * (MEDIA_SECTOR_SIZE / KERN_SECTOR_SIZE)

/-- `dev->data` -/
abbrev Disk := Area UInt8 diskSize

/-- `kzalloc(NR_SECTORS * MEDIA_SECTOR_SIZE, GFP_KERNEL)` -/
def kzalloc : Disk := area (fun _ => 0) 0 diskSize

/-- A segment: `bv_len` and the bytes it stands for. -/
structure BioVec where
  len : BitVec 32
  buf : Area UInt8 len.toNat

inductive Dir where
  | read | write
deriving DecidableEq, Repr

structure Request where
  sector : BitVec 64
  dir : Dir
  segs : List BioVec

inductive BlkStatus where
  | ok | ioerr
deriving DecidableEq, Repr

/-- How a request ends: its status and what is in its segments then. -/
structure Reply where
  status : BlkStatus
  segs : List BioVec

/-- `if ((pos + b_len) > dev_size) b_len = (unsigned long)(dev_size - pos);`, where the
`unsigned long` makes the comparison an unsigned one. -/
def clampLen (pos bLen : BitVec 64) : BitVec 64 :=
  if BitVec.ofNat 64 diskSize < pos + bLen then BitVec.ofNat 64 diskSize - pos else bLen

/-- One turn of the loop: the disk, the segment and the position after it. -/
def handleSegment (dir : Dir) (data : Disk) (pos : BitVec 64) (bvec : BioVec) :
    Option (Disk × BioVec × BitVec 64) :=
  let bLen := clampLen pos (bvec.len.setWidth 64)
  match dir with
  | .write =>
      (memcpy data pos.toNat bvec.buf 0 bLen.toNat).map fun data => (data, bvec, pos + bLen)
  | .read =>
      (memcpy bvec.buf 0 data pos.toNat bLen.toNat).map fun buf =>
        (data, { bvec with buf := buf }, pos + bLen)

def rqForEachSegment (dir : Dir) : Disk → BitVec 64 → List BioVec → Option (Disk × List BioVec)
  | data, _, [] => some (data, [])
  | data, pos, bvec :: segs =>
      (handleSegment dir data pos bvec).bind fun x =>
        (rqForEachSegment dir x.1 x.2.2 segs).map fun y => (y.1, x.2.1 :: y.2)

/-- The disk, the segments and the return value, which is always 0. -/
def requestHandle (data : Disk) (rq : Request) : Option (Disk × List BioVec × ℤ) :=
  (rqForEachSegment rq.dir data (rq.sector <<< SECTOR_SHIFT) rq.segs).map fun x => (x.1, x.2, 0)

def ramdiskBlkdevQueueRq (data : Disk) (rq : Request) : Option (Disk × Reply) :=
  (requestHandle data rq).map fun x => (x.1, ⟨if x.2.2 ≠ 0 then .ioerr else .ok, x.2.1⟩)

/-- The block layer hands over one request after the other. -/
def serve : Disk → List Request → Option (Disk × List Reply)
  | data, [] => some (data, [])
  | data, rq :: rqs =>
      (ramdiskBlkdevQueueRq data rq).bind fun x =>
        (serve x.1 rqs).map fun y => (y.1, x.2 :: y.2)

def BioVec.bytes (b : BioVec) : List UInt8 := b.buf.vals

def segBytes (segs : List BioVec) : List UInt8 := segs.flatMap BioVec.bytes

namespace Request

def start (rq : Request) : ℕ := rq.sector.toNat * KERN_SECTOR_SIZE

def bytes (rq : Request) : List UInt8 := segBytes rq.segs

/-- The request lies inside the announced capacity. -/
def InCapacity (rq : Request) : Prop :=
  rq.start + rq.bytes.length ≤ capacity * KERN_SECTOR_SIZE

instance (rq : Request) : Decidable rq.InCapacity := inferInstanceAs (Decidable (_ ≤ _))

/-- The request writes this byte of the disk. -/
def covers (rq : Request) (i : ℕ) : Bool :=
  rq.dir = .write ∧ rq.start ≤ i ∧ i < rq.start + rq.bytes.length

end Request

/-- The byte that the most recent write to `i` left there, zero without one. -/
def mostRecent (rqs : List Request) (i : ℕ) : UInt8 :=
  match rqs.reverse.find? (·.covers i) with
  | some rq => rq.bytes.getD (i - rq.start) 0
  | none => 0

/-- What a request does to the flat memory, and what it answers. -/
def flatStep (m : ℕ → UInt8) (rq : Request) : ℕ → UInt8 :=
  match rq.dir with
  | .write => store m rq.start rq.bytes
  | .read => m

def flatAnswer (m : ℕ → UInt8) (rq : Request) : List UInt8 :=
  match rq.dir with
  | .write => rq.bytes
  | .read => load m rq.start rq.bytes.length

/-- A request leaves every byte alone that it does not write. -/
theorem flatStep_of_not_covers {m : ℕ → UInt8} {rq : Request} {i : ℕ}
    (h : rq.covers i = false) : flatStep m rq i = m i := by
  simp only [Request.covers, decide_eq_false_iff_not, not_and, Nat.not_lt] at h
  unfold flatStep
  cases hdir : rq.dir with
  | read => rfl
  | write =>
      by_cases hlo : rq.start ≤ i
      · exact store_of_le (h hdir hlo)
      · exact store_of_lt _ (Nat.lt_of_not_le hlo)

theorem mostRecent_append (rqs : List Request) (rq : Request) :
    mostRecent (rqs ++ [rq]) = flatStep (mostRecent rqs) rq := by
  funext i
  unfold mostRecent
  rw [List.reverse_append, List.reverse_singleton, List.singleton_append, List.find?_cons]
  cases hc : rq.covers i with
  | true =>
      simp only [Request.covers, decide_eq_true_eq] at hc
      obtain ⟨hdir, hlo, hhi⟩ := hc
      simp only [flatStep, hdir, store, if_pos hlo]
      rw [List.getD_eq_getElem?_getD, List.getElem?_eq_getElem (by omega)]
      rfl
  | false =>
      show mostRecent rqs i = flatStep (mostRecent rqs) rq i
      exact (flatStep_of_not_covers hc).symm

theorem mostRecent_eq_foldl (rqs : List Request) :
    mostRecent rqs = rqs.foldl flatStep fun _ => 0 := by
  induction rqs using List.reverseRecOn with
  | nil => rfl
  | append_singleton rqs rq ih => rw [mostRecent_append, ih, List.foldl_append]; rfl

theorem BioVec.bytes_length (b : BioVec) : b.bytes.length = b.len.toNat := b.buf.length_eq

@[simp] theorem segBytes_cons (b : BioVec) (segs : List BioVec) :
    segBytes (b :: segs) = b.bytes ++ segBytes segs := List.flatMap_cons

section Segments
variable {m : ℕ → UInt8} {pos : BitVec 64} {b : BioVec} {segs : List BioVec}

/-- Inside the disk the clamp does nothing. -/
theorem clampLen_of_le {bLen : BitVec 64} (h : pos.toNat + bLen.toNat ≤ diskSize) :
    clampLen pos bLen = bLen := by
  have hsize : diskSize = 1048576 := rfl
  refine if_neg ?_
  rw [BitVec.lt_def, BitVec.toNat_add, BitVec.toNat_ofNat]
  omega

theorem toNat_pos_add (h : pos.toNat + b.len.toNat ≤ diskSize) :
    (pos + b.len.setWidth 64).toNat = pos.toNat + b.bytes.length := by
  have hsize : diskSize = 1048576 := rfl
  rw [BitVec.toNat_add, BitVec.toNat_setWidth, b.bytes_length]
  omega

theorem clampLen_toNat (h : pos.toNat + b.len.toNat ≤ diskSize) :
    clampLen pos (b.len.setWidth 64) = b.len.setWidth 64 ∧
      (b.len.setWidth 64).toNat = b.len.toNat := by
  have hlen : (b.len.setWidth 64).toNat = b.len.toNat := by
    rw [BitVec.toNat_setWidth]
    exact Nat.mod_eq_of_lt (by have := b.len.isLt; omega)
  exact ⟨clampLen_of_le (by rwa [hlen]), hlen⟩

theorem handleSegment_write (h : pos.toNat + b.len.toNat ≤ diskSize) :
    handleSegment .write (area m 0 diskSize) pos b =
      some (area (store m pos.toNat b.bytes) 0 diskSize, b, pos + b.len.setWidth 64) := by
  obtain ⟨hclamp, hlen⟩ := clampLen_toNat h
  simp only [handleSegment, hclamp, hlen]
  rw [memcpy_store h]
  rfl

theorem handleSegment_read (h : pos.toNat + b.len.toNat ≤ diskSize) :
    handleSegment .read (area m 0 diskSize) pos b =
      some (area m 0 diskSize, { b with buf := area m pos.toNat b.len.toNat },
        pos + b.len.setWidth 64) := by
  obtain ⟨hclamp, hlen⟩ := clampLen_toNat h
  simp only [handleSegment, hclamp, hlen]
  rw [memcpy_load h]
  rfl

/-- The segments of a write are one store. -/
theorem rqForEachSegment_write (h : pos.toNat + (segBytes segs).length ≤ diskSize) :
    rqForEachSegment .write (area m 0 diskSize) pos segs =
      some (area (store m pos.toNat (segBytes segs)) 0 diskSize, segs) := by
  induction segs generalizing m pos with
  | nil =>
      show some (area m 0 diskSize, []) = some (area (store m pos.toNat []) 0 diskSize, [])
      rw [store_nil]
  | cons b segs ih =>
      rw [segBytes_cons, List.length_append] at h
      have hb : pos.toNat + b.len.toNat ≤ diskSize := by
        rw [← b.bytes_length]
        omega
      have hpos := toNat_pos_add hb
      have hfit : (pos + b.len.setWidth 64).toNat + (segBytes segs).length ≤ diskSize := by omega
      rw [rqForEachSegment, handleSegment_write hb, Option.bind_some, ih hfit, hpos,
        store_append, segBytes_cons]
      rfl

/-- The segments of a read are one load, cut to their lengths. -/
theorem rqForEachSegment_read (h : pos.toNat + (segBytes segs).length ≤ diskSize) :
    ∃ segs', rqForEachSegment .read (area m 0 diskSize) pos segs =
        some (area m 0 diskSize, segs') ∧ segs'.map BioVec.len = segs.map BioVec.len ∧
      segBytes segs' = load m pos.toNat (segBytes segs).length := by
  induction segs generalizing pos with
  | nil => exact ⟨[], rfl, rfl, rfl⟩
  | cons b segs ih =>
      rw [segBytes_cons, List.length_append] at h
      have hb : pos.toNat + b.len.toNat ≤ diskSize := by
        rw [← b.bytes_length]
        omega
      have hpos := toNat_pos_add hb
      have hfit : (pos + b.len.setWidth 64).toNat + (segBytes segs).length ≤ diskSize := by omega
      obtain ⟨segs', hrest, hlens, hbytes⟩ := ih hfit
      refine ⟨{ b with buf := area m pos.toNat b.len.toNat } :: segs', ?_, ?_, ?_⟩
      · rw [rqForEachSegment, handleSegment_read hb, Option.bind_some, hrest]
        rfl
      · rw [List.map_cons, List.map_cons, hlens]
      · rw [segBytes_cons, segBytes_cons, hbytes, hpos, List.length_append, load_append,
          b.bytes_length]
        rfl

end Segments

/-- A reply that answers a request on this memory. -/
structure Answers (m : ℕ → UInt8) (rq : Request) (reply : Reply) : Prop where
  status : reply.status = .ok
  cut : reply.segs.map BioVec.len = rq.segs.map BioVec.len
  bytes : segBytes reply.segs = flatAnswer m rq

section Requests
variable {m : ℕ → UInt8} {rq rq' : Request} {rqs rqs' : List Request} {replies : List Reply}

theorem toNat_start (h : rq.InCapacity) : (rq.sector <<< SECTOR_SHIFT).toNat = rq.start := by
  have hcap : rq.start + rq.bytes.length ≤ 1048576 := h
  have hstart : rq.start = rq.sector.toNat * 512 := rfl
  rw [BitVec.toNat_shiftLeft, Nat.shiftLeft_eq, show 2 ^ SECTOR_SHIFT = 512 from rfl, hstart]
  exact Nat.mod_eq_of_lt (by omega)

/-- One request on a disk that shows a memory. -/
theorem queueRq_flat (h : rq.InCapacity) :
    ∃ reply, ramdiskBlkdevQueueRq (area m 0 diskSize) rq =
        some (area (flatStep m rq) 0 diskSize, reply) ∧ Answers m rq reply := by
  have hpos := toNat_start h
  have hfit : (rq.sector <<< SECTOR_SHIFT).toNat + (segBytes rq.segs).length ≤ diskSize := by
    rw [hpos]
    exact h
  cases hdir : rq.dir with
  | write =>
      refine ⟨⟨.ok, rq.segs⟩, ?_, rfl, rfl, ?_⟩
      · simp only [ramdiskBlkdevQueueRq, requestHandle, hdir, rqForEachSegment_write hfit, hpos,
          Option.map_some, flatStep, Request.bytes]
        rfl
      · simp only [flatAnswer, hdir, Request.bytes]
  | read =>
      obtain ⟨segs', hrun, hlens, hbytes⟩ := rqForEachSegment_read (m := m) hfit
      refine ⟨⟨.ok, segs'⟩, ?_, rfl, hlens, ?_⟩
      · simp only [ramdiskBlkdevQueueRq, requestHandle, hdir, hrun, Option.map_some, flatStep]
        rfl
      · simp only [flatAnswer, hdir, Request.bytes, hbytes, hpos]

/-- The replies to a list of requests, each on the memory that the ones before it left. -/
inductive Answered : (ℕ → UInt8) → List Request → List Reply → Prop
  | nil (m : ℕ → UInt8) : Answered m [] []
  | cons {m : ℕ → UInt8} {rq : Request} {rqs : List Request} {reply : Reply}
      {replies : List Reply} : Answers m rq reply → Answered (flatStep m rq) rqs replies →
      Answered m (rq :: rqs) (reply :: replies)

theorem serve_flat (h : ∀ rq ∈ rqs, rq.InCapacity) :
    ∃ replies, serve (area m 0 diskSize) rqs = some (area (rqs.foldl flatStep m) 0 diskSize, replies) ∧
      Answered m rqs replies := by
  induction rqs generalizing m with
  | nil => exact ⟨[], rfl, .nil m⟩
  | cons rq rqs ih =>
      obtain ⟨reply, hrq, hanswer⟩ := queueRq_flat (m := m) (h rq List.mem_cons_self)
      obtain ⟨replies, hrqs, hrest⟩ := ih (m := flatStep m rq)
        fun rq' hrq' => h rq' (List.mem_cons_of_mem rq hrq')
      refine ⟨reply :: replies, ?_, .cons hanswer hrest⟩
      rw [serve, hrq, Option.bind_some, hrqs]
      rfl

theorem Answered.get (h : Answered m rqs replies) {n : ℕ} (hn : rqs[n]? = some rq) :
    ∃ reply, replies[n]? = some reply ∧ Answers ((rqs.take n).foldl flatStep m) rq reply := by
  induction h generalizing n with
  | nil => cases hn
  | @cons m rq₀ rqs reply replies h₀ _ ih =>
      cases n with
      | zero =>
          cases hn
          exact ⟨reply, rfl, h₀⟩
      | succ n => exact ih hn

theorem Answered.length (h : Answered m rqs replies) : replies.length = rqs.length := by
  induction h with
  | nil => rfl
  | cons _ _ ih => rw [List.length_cons, List.length_cons, ih]

end Requests

/-- Two requests for the same range: only the cut into segments differs, and
what a read finds in its buffers before. -/
structure SameRange (rq rq' : Request) : Prop where
  sector : rq.sector = rq'.sector
  dir : rq.dir = rq'.dir
  length : rq.bytes.length = rq'.bytes.length
  written : rq.dir = .write → rq.bytes = rq'.bytes

section Ranges
variable {m : ℕ → UInt8} {rq rq' : Request} {rqs rqs' : List Request}
  {replies replies' : List Reply}

theorem SameRange.start (h : SameRange rq rq') : rq.start = rq'.start := by
  rw [Request.start, h.sector]
  rfl

theorem SameRange.inCapacity (h : SameRange rq rq') (hrq : rq.InCapacity) : rq'.InCapacity := by
  unfold Request.InCapacity at hrq ⊢
  rwa [← h.start, ← h.length]

theorem SameRange.flatStep (h : SameRange rq rq') :
    RamdiskRequest.flatStep m rq = RamdiskRequest.flatStep m rq' := by
  unfold RamdiskRequest.flatStep
  rw [← h.dir, ← h.start]
  cases hdir : rq.dir with
  | read => rfl
  | write => simp only [h.written hdir]

theorem SameRange.flatAnswer (h : SameRange rq rq') :
    RamdiskRequest.flatAnswer m rq = RamdiskRequest.flatAnswer m rq' := by
  unfold RamdiskRequest.flatAnswer
  rw [← h.dir, ← h.start, ← h.length]
  cases hdir : rq.dir with
  | read => rfl
  | write => exact h.written hdir

theorem inCapacity_of_sameRange (h : List.Forall₂ SameRange rqs rqs')
    (hrqs : ∀ rq ∈ rqs, rq.InCapacity) : ∀ rq ∈ rqs', rq.InCapacity := by
  induction h with
  | nil => exact hrqs
  | cons h₀ _ ih =>
      intro rq hrq
      rcases List.mem_cons.mp hrq with rfl | hrq
      · exact h₀.inCapacity (hrqs _ List.mem_cons_self)
      · exact ih (fun rq' h' => hrqs rq' (List.mem_cons_of_mem _ h')) rq hrq

theorem foldl_of_sameRange (h : List.Forall₂ SameRange rqs rqs') :
    rqs.foldl RamdiskRequest.flatStep m = rqs'.foldl RamdiskRequest.flatStep m := by
  induction h generalizing m with
  | nil => rfl
  | cons h₀ _ ih => rw [List.foldl_cons, List.foldl_cons, h₀.flatStep, ih]

def Reply.bytes (r : Reply) : List UInt8 := segBytes r.segs

theorem bytes_of_sameRange (h : List.Forall₂ SameRange rqs rqs') (hr : Answered m rqs replies)
    (hr' : Answered m rqs' replies') : replies'.map Reply.bytes = replies.map Reply.bytes := by
  induction h generalizing m replies replies' with
  | nil =>
      cases hr
      cases hr'
      rfl
  | cons h₀ _ ih =>
      cases hr with
      | cons ha hrest =>
          cases hr' with
          | cons ha' hrest' =>
              rw [List.map_cons, List.map_cons, ih hrest (h₀.flatStep ▸ hrest'), Reply.bytes,
                ha'.bytes, ← h₀.flatAnswer, ← ha.bytes]
              rfl

end Ranges

/-- The disk and the replies of a sequence of requests, as the flat byte array
has them: the disk shows the most recent writes, every request succeeds, a read
fills its segments, in order, with the most recent writes before it, a write
gets its segments back, and no request touches a byte that it does not write. -/
structure FlatSemantics (rqs : List Request) (disk : Disk) (replies : List Reply) : Prop where
  contents : ∀ i < diskSize, disk.vals[i]? = some (mostRecent rqs i)
  count : replies.length = rqs.length
  answers : ∀ n rq, rqs[n]? = some rq →
    ∃ reply, replies[n]? = some reply ∧ Answers (mostRecent (rqs.take n)) rq reply
  frame : ∀ pre rq post, rqs = pre ++ rq :: post →
    ∃ before served after reply, serve kzalloc pre = some (before, served) ∧
      ramdiskBlkdevQueueRq before rq = some (after, reply) ∧
        ∀ i, rq.covers i = false → after.vals[i]? = before.vals[i]?

theorem area_getElem? (m : ℕ → UInt8) {i : ℕ} (h : i < diskSize) :
    (area m 0 diskSize).vals[i]? = some (m i) := by
  rw [area_vals, load_getElem?, if_pos h, Nat.zero_add]

theorem serve_frame {pre : List Request} {rq : Request} (hpre : ∀ rq ∈ pre, rq.InCapacity)
    (hrq : rq.InCapacity) :
    ∃ before served after reply, serve kzalloc pre = some (before, served) ∧
      ramdiskBlkdevQueueRq before rq = some (after, reply) ∧
        ∀ i, rq.covers i = false → after.vals[i]? = before.vals[i]? := by
  obtain ⟨served, hserve, _⟩ := serve_flat (m := fun _ => 0) hpre
  obtain ⟨reply, hqueue, _⟩ := queueRq_flat (m := pre.foldl flatStep fun _ => 0) hrq
  refine ⟨_, served, _, reply, hserve, hqueue, fun i hi => ?_⟩
  rw [area_vals, area_vals, load_getElem?, load_getElem?, Nat.zero_add, flatStep_of_not_covers hi]

/-- For every sequence of requests inside the capacity the disk behaves as a
flat byte array, and the same requests cut into other segments leave the same
disk and give the same bytes. -/
theorem serve_refines_flat (rqs : List Request) (h : ∀ rq ∈ rqs, rq.InCapacity) :
    ∃ disk replies, serve kzalloc rqs = some (disk, replies) ∧ FlatSemantics rqs disk replies ∧
      ∀ rqs', List.Forall₂ SameRange rqs rqs' →
        ∃ replies', serve kzalloc rqs' = some (disk, replies') ∧
          replies'.map Reply.bytes = replies.map Reply.bytes := by
  obtain ⟨replies, hserve, hanswered⟩ := serve_flat (m := fun _ => 0) h
  refine ⟨_, replies, hserve, ⟨fun i hi => ?_, hanswered.length, fun n rq hn => ?_, ?_⟩, ?_⟩
  · rw [area_getElem? _ hi, mostRecent_eq_foldl]
  · rw [mostRecent_eq_foldl]
    exact hanswered.get hn
  · rintro pre rq post rfl
    exact serve_frame (fun rq' h' => h rq' (List.mem_append_left _ h'))
      (h rq (List.mem_append_right _ List.mem_cons_self))
  · intro rqs' hsame
    obtain ⟨replies', hserve', hanswered'⟩ :=
      serve_flat (m := fun _ => 0) (inCapacity_of_sameRange hsame h)
    refine ⟨replies', ?_, bytes_of_sameRange hsame hanswered hanswered'⟩
    rw [foldl_of_sameRange hsame]
    exact hserve'

/-- A write of two segments at the second sector, and a read that is cut elsewhere. -/
def writeThenRead : List Request :=
  [⟨1, .write, [⟨2, ⟨[10, 20], rfl⟩⟩, ⟨1, ⟨[30], rfl⟩⟩]⟩,
    ⟨1, .read, [⟨1, ⟨[0], rfl⟩⟩, ⟨2, ⟨[0, 0], rfl⟩⟩]⟩]

theorem serve_refines_flat_writeThenRead :
    ∃ disk replies, serve kzalloc writeThenRead = some (disk, replies) ∧
      FlatSemantics writeThenRead disk replies ∧
        ∀ rqs', List.Forall₂ SameRange writeThenRead rqs' →
          ∃ replies', serve kzalloc rqs' = some (disk, replies') ∧
            replies'.map Reply.bytes = replies.map Reply.bytes :=
  serve_refines_flat writeThenRead (by decide)

example : mostRecent writeThenRead 513 = 20 := by decide

end LinuxDeviceDrivers.RamdiskRequest
