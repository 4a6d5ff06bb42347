import LinuxDeviceDrivers.RamdiskRequest

/-!
# The bounds of the RAM disk

`request_handle` clamps each segment at the end of the disk. The clamp is right
as long as the position is on the disk or at its end: then no copy leaves the
disk, and the position stays there. A position beyond the end makes the first
copy leave the disk, whatever its length.

A clamped segment is copied in part only, and nothing reports it: the request
ends with `BLK_STS_OK` all the same.
-/
namespace LinuxDeviceDrivers.RamdiskBounds
open FlatMemory RamdiskRequest

/-- One `memcpy`: its position on the disk, the length of the segment and the
length that is copied. -/
structure Copy where
  pos : BitVec 64
  asked : BitVec 64
  len : BitVec 64

def copies : BitVec 64 → List BioVec → List Copy
  | _, [] => []
  | pos, bvec :: segs =>
      let asked := bvec.len.setWidth 64
      let len := clampLen pos asked
      ⟨pos, asked, len⟩ :: copies (pos + len) segs

def startPos (rq : Request) : BitVec 64 := rq.sector <<< SECTOR_SHIFT

def requestCopies (rq : Request) : List Copy := copies (startPos rq) rq.segs

section Clamp
variable {data : Disk} {dir : Dir} {pos l : BitVec 64} {b : BioVec} {segs : List BioVec}
  {x : Copy}

theorem toNat_diskSize : (BitVec.ofNat 64 diskSize).toNat = diskSize := rfl

/-- On the disk the clamp cuts at the end. -/
theorem clampLen_eq_min (h : pos.toNat ≤ diskSize) (hl : l.toNat < 2 ^ 32) :
    (clampLen pos l).toNat = min l.toNat (diskSize - pos.toNat) := by
  have hsize : diskSize = 1048576 := rfl
  have hadd : (pos + l).toNat = pos.toNat + l.toNat := by
    rw [BitVec.toNat_add]
    omega
  unfold clampLen
  split_ifs with hcut
  · rw [BitVec.lt_def, hadd, toNat_diskSize] at hcut
    rw [BitVec.toNat_sub, toNat_diskSize]
    omega
  · rw [BitVec.lt_def, hadd, toNat_diskSize] at hcut
    omega

/-- Beyond the end something is always copied: the clamp underflows, or it is
passed by because the sum wraps around. -/
theorem clampLen_beyond (h : diskSize < pos.toNat) (l : BitVec 64) : 0 < (clampLen pos l).toNat := by
  have hsize : diskSize = 1048576 := rfl
  have hpos := pos.isLt
  unfold clampLen
  split_ifs with hcut
  · rw [BitVec.toNat_sub, toNat_diskSize]
    omega
  · rw [BitVec.lt_def, toNat_diskSize, BitVec.toNat_add] at hcut
    omega

theorem asked_lt (b : BioVec) : (b.len.setWidth 64).toNat = b.len.toNat ∧ b.len.toNat < 2 ^ 32 := by
  have hlt := b.len.isLt
  refine ⟨?_, hlt⟩
  rw [BitVec.toNat_setWidth]
  exact Nat.mod_eq_of_lt (by omega)

structure Copy.Clamped (x : Copy) : Prop where
  start : x.pos.toNat ≤ diskSize
  len : x.len.toNat = min x.asked.toNat (diskSize - x.pos.toNat)
  stop : (x.pos + x.len).toNat = x.pos.toNat + x.len.toNat

theorem Copy.Clamped.stop_le (h : x.Clamped) : (x.pos + x.len).toNat ≤ diskSize := by
  have hstart := h.start
  have hlen := h.len
  rw [h.stop]
  omega

theorem clamped_of_le (h : pos.toNat ≤ diskSize) (b : BioVec) :
    Copy.Clamped ⟨pos, b.len.setWidth 64, clampLen pos (b.len.setWidth 64)⟩ := by
  have hsize : diskSize = 1048576 := rfl
  obtain ⟨hasked, hlt⟩ := asked_lt b
  have hlen := clampLen_eq_min h (l := b.len.setWidth 64) (by omega)
  refine ⟨h, hlen, ?_⟩
  show (pos + clampLen pos (b.len.setWidth 64)).toNat =
    pos.toNat + (clampLen pos (b.len.setWidth 64)).toNat
  rw [BitVec.toNat_add]
  omega

/-- The invariant of the loop: the position is on the disk or at its end. -/
theorem copies_clamped (h : pos.toNat ≤ diskSize) : ∀ x ∈ copies pos segs, x.Clamped := by
  induction segs generalizing pos with
  | nil => exact List.forall_mem_nil _
  | cons b segs ih =>
      have hb := clamped_of_le h b
      intro x hx
      rcases List.mem_cons.mp hx with rfl | hx
      · exact hb
      · exact ih hb.stop_le x hx

/-- The copy leaves neither the disk nor the segment. -/
def Copy.Fits (x : Copy) : Prop :=
  x.pos.toNat + x.len.toNat ≤ diskSize ∧ x.len.toNat ≤ x.asked.toNat

theorem Copy.Clamped.fits (h : x.Clamped) : x.Fits := by
  have hstart := h.start
  have hlen := h.len
  constructor <;> omega

theorem handleSegment_isSome :
    (handleSegment dir data pos b).isSome ↔
      Copy.Fits ⟨pos, b.len.setWidth 64, clampLen pos (b.len.setWidth 64)⟩ := by
  obtain ⟨hasked, -⟩ := asked_lt b
  unfold Copy.Fits
  cases dir with
  | write =>
      rw [handleSegment, Option.isSome_map, memcpy_isSome, Nat.zero_add, hasked]
  | read =>
      rw [handleSegment, Option.isSome_map, memcpy_isSome, Nat.zero_add, hasked]
      exact and_comm

theorem handleSegment_pos {y : Disk × BioVec × BitVec 64}
    (h : handleSegment dir data pos b = some y) :
    y.2.2 = pos + clampLen pos (b.len.setWidth 64) := by
  cases dir with
  | write =>
      obtain ⟨_, _, rfl⟩ := Option.map_eq_some_iff.mp h
      rfl
  | read =>
      obtain ⟨_, _, rfl⟩ := Option.map_eq_some_iff.mp h
      rfl

theorem rqForEachSegment_isSome :
    (rqForEachSegment dir data pos segs).isSome ↔ ∀ x ∈ copies pos segs, x.Fits := by
  induction segs generalizing data pos with
  | nil => exact iff_of_true rfl (List.forall_mem_nil _)
  | cons b segs ih =>
      rw [rqForEachSegment, copies, List.forall_mem_cons, ← handleSegment_isSome]
      cases hb : handleSegment dir data pos b with
      | none => exact iff_of_false (by simp) fun h => absurd h.1 (by simp)
      | some y =>
          rw [Option.bind_some, Option.isSome_map, ih, handleSegment_pos hb]
          exact (and_iff_right rfl).symm

end Clamp

/-- The model serves a request exactly if it has nothing to copy or starts on
the disk or at its end. -/
theorem requestHandle_isSome_iff (data : Disk) (rq : Request) :
    (requestHandle data rq).isSome ↔ rq.segs = [] ∨ (startPos rq).toNat ≤ diskSize := by
  rw [requestHandle, Option.isSome_map, rqForEachSegment_isSome]
  constructor
  · intro h
    cases hsegs : rq.segs with
    | nil => exact .inl rfl
    | cons b segs =>
        rw [hsegs] at h
        have hfits := (h _ List.mem_cons_self).1
        exact .inr (Nat.le_trans (Nat.le_add_right _ _) hfits)
  · rintro (hsegs | hstart)
    · rw [hsegs]
      exact List.forall_mem_nil _
    · exact fun x hx => (copies_clamped hstart x hx).fits

structure StaysInside (rq : Request) : Prop where
  touched : ∀ x ∈ requestCopies rq, ∀ i, x.pos.toNat ≤ i → i < x.pos.toNat + x.len.toNat →
    i < diskSize
  noUnderflow : ∀ x ∈ requestCopies rq, BitVec.ofNat 64 diskSize < x.pos + x.asked →
    x.pos.toNat ≤ diskSize
  position : ∀ x ∈ requestCopies rq, x.pos.toNat ≤ diskSize ∧ (x.pos + x.len).toNat ≤ diskSize

theorem staysInside_iff_start (rq : Request) :
    StaysInside rq ↔ rq.segs = [] ∨ (startPos rq).toNat ≤ diskSize := by
  constructor
  · intro h
    cases hsegs : rq.segs with
    | nil => exact .inl rfl
    | cons b segs =>
        right
        have hfirst : ⟨startPos rq, b.len.setWidth 64, clampLen (startPos rq) (b.len.setWidth 64)⟩ ∈
            requestCopies rq := by
          rw [requestCopies, hsegs, copies]
          exact List.mem_cons_self
        by_contra hbeyond
        have hpos := clampLen_beyond (Nat.lt_of_not_le hbeyond) (b.len.setWidth 64)
        have hlt := h.touched _ hfirst (startPos rq).toNat (Nat.le_refl _)
          (Nat.lt_add_of_pos_right hpos)
        exact hbeyond (Nat.le_of_lt hlt)
  · rintro (hsegs | hstart)
    · have hnil : requestCopies rq = [] := by rw [requestCopies, hsegs, copies]
      constructor <;> rw [hnil] <;> exact List.forall_mem_nil _
    · have hclamped : ∀ x ∈ requestCopies rq, x.Clamped := copies_clamped hstart
      refine ⟨fun x hx i _ hi => ?_, fun x hx _ => (hclamped x hx).start, fun x hx => ?_⟩
      · have hle := (hclamped x hx).stop_le
        rw [(hclamped x hx).stop] at hle
        omega
      · exact ⟨(hclamped x hx).start, (hclamped x hx).stop_le⟩

/-- A request stays inside the disk exactly if it has nothing to copy or starts
on the disk or at its end, with the start that 64 bits can hold, and these are the
requests that `request_handle` serves. -/
theorem staysInside_iff (data : Disk) (rq : Request) :
    (StaysInside rq ↔ rq.segs = [] ∨ (startPos rq).toNat ≤ diskSize) ∧
      ((requestHandle data rq).isSome ↔ StaysInside rq) :=
  ⟨staysInside_iff_start rq, (requestHandle_isSome_iff data rq).trans (staysInside_iff_start rq).symm⟩

/-- A read of one byte one sector behind the end of the disk. -/
def readBeyond : Request := ⟨2049, .read, [⟨1, area (fun _ => 0) 0 1⟩]⟩

theorem not_staysInside : ¬∀ rq, StaysInside rq := by
  intro h
  have hmem : ⟨startPos readBeyond, 1, clampLen (startPos readBeyond) 1⟩ ∈ requestCopies readBeyond :=
    List.mem_cons_self
  have htouched := (h readBeyond).touched _ hmem (startPos readBeyond).toNat (Nat.le_refl _)
    (by decide)
  exact absurd htouched (by decide)

/-- Every byte of every segment has been copied: after a write the disk holds the
bytes of the segments, after a read the segments hold those of the disk. -/
def Transferred (data : Disk) (rq : Request) (disk : Disk) (reply : Reply) : Prop :=
  match rq.dir with
  | .write => (disk.vals.drop rq.start).take rq.bytes.length = rq.bytes
  | .read => reply.segs.map BioVec.len = rq.segs.map BioVec.len ∧
      segBytes reply.segs = (data.vals.drop rq.start).take rq.bytes.length

def CompleteOnSuccess (data : Disk) (rq : Request) : Prop :=
  ∀ disk reply, ramdiskBlkdevQueueRq data rq = some (disk, reply) → reply.status = .ok →
    Transferred data rq disk reply

section Status
variable {data : Disk} {rq : Request}

theorem startPos_toNat (h : rq.start < diskSize) : (startPos rq).toNat = rq.start := by
  have hsize : diskSize = 1048576 := rfl
  have hstart : rq.start = rq.sector.toNat * 512 := rfl
  rw [startPos, BitVec.toNat_shiftLeft, Nat.shiftLeft_eq, show 2 ^ SECTOR_SHIFT = 512 from rfl,
    hstart]
  exact Nat.mod_eq_of_lt (by omega)

/-- A request that starts on the disk always ends, and always with `BLK_STS_OK`. -/
theorem queueRq_ok (data : Disk) (h : rq.start < diskSize) :
    ∃ disk reply, ramdiskBlkdevQueueRq data rq = some (disk, reply) ∧ reply.status = .ok := by
  have hstart : (startPos rq).toNat ≤ diskSize := by
    rw [startPos_toNat h]
    exact Nat.le_of_lt h
  obtain ⟨x, hx⟩ := Option.isSome_iff_exists.mp
    ((requestHandle_isSome_iff data rq).mpr (.inr hstart))
  obtain ⟨y, -, rfl⟩ := Option.map_eq_some_iff.mp hx
  exact ⟨y.1, ⟨.ok, y.2⟩, by rw [ramdiskBlkdevQueueRq, hx]; rfl, rfl⟩

theorem transferred_of_inCapacity (h : rq.InCapacity) :
    ∃ disk reply, ramdiskBlkdevQueueRq data rq = some (disk, reply) ∧
      Transferred data rq disk reply := by
  have hfit : rq.start + rq.bytes.length ≤ diskSize := h
  obtain ⟨reply, hrq, hanswers⟩ := queueRq_flat (m := fun i => data.vals.getD i 0) h
  rw [area_getD] at hrq
  refine ⟨_, reply, hrq, ?_⟩
  have hbytes := hanswers.bytes
  have hdata : load (fun i => data.vals.getD i 0) 0 diskSize = data.vals := by
    rw [← area_vals, area_getD]
  unfold Transferred flatAnswer at *
  cases hdir : rq.dir with
  | write =>
      simp only [flatStep, hdir, area_vals]
      rw [load_part hfit, load_store_self]
  | read =>
      simp only [hdir] at hbytes
      have hcopied := congrArg (fun vals => (vals.drop rq.start).take rq.bytes.length) hdata
      exact ⟨hanswers.cut, hbytes.trans ((load_part hfit).symm.trans hcopied)⟩

theorem segBytes_length (segs : List BioVec) :
    (segBytes segs).length = ((segs.map BioVec.len).map BitVec.toNat).sum := by
  rw [segBytes, List.length_flatMap, List.map_map]
  congr 1
  exact List.map_congr_left fun b _ => b.bytes_length

theorem inCapacity_iff_sum :
    rq.InCapacity ↔ rq.start + ((rq.segs.map BioVec.len).map BitVec.toNat).sum ≤ diskSize := by
  rw [← segBytes_length]
  rfl

/-- Beyond the capacity the disk has no bytes for the rest of the segments. -/
theorem inCapacity_of_transferred {disk : Disk} {reply : Reply}
    (h : Transferred data rq disk reply) (hstart : rq.start < diskSize) : rq.InCapacity := by
  show rq.start + rq.bytes.length ≤ diskSize
  have hdisk := disk.length_eq
  have hdata := data.length_eq
  unfold Transferred at h
  cases hdir : rq.dir with
  | write =>
      simp only [hdir] at h
      have hlen := congrArg List.length h
      rw [List.length_take, List.length_drop] at hlen
      omega
  | read =>
      simp only [hdir] at h
      have hlen := congrArg List.length h.2
      rw [segBytes_length, h.1, ← segBytes_length, List.length_take, List.length_drop] at hlen
      change rq.bytes.length = _ at hlen
      omega

/-- Success means a complete transfer exactly for the requests inside the capacity. -/
theorem completeOnSuccess_iff (data : Disk) (rq : Request) (h : rq.start < diskSize) :
    CompleteOnSuccess data rq ↔ rq.InCapacity := by
  constructor
  · intro hcomplete
    obtain ⟨disk, reply, hrq, hok⟩ := queueRq_ok data h
    exact inCapacity_of_transferred (hcomplete disk reply hrq hok) h
  · intro hcap disk reply hrq _
    obtain ⟨disk', reply', hrq', htransferred⟩ : ∃ disk reply,
        ramdiskBlkdevQueueRq data rq = some (disk, reply) ∧ Transferred data rq disk reply :=
      transferred_of_inCapacity hcap
    rw [hrq] at hrq'
    cases hrq'
    exact htransferred

end Status

/-- A write of two segments that ends with the last byte of the disk. -/
def writeToEnd : Request :=
  ⟨2047, .write, [⟨500, area (fun _ => 7) 0 500⟩, ⟨12, area (fun _ => 8) 0 12⟩]⟩

theorem completeOnSuccess_iff_writeToEnd : CompleteOnSuccess kzalloc writeToEnd :=
  (completeOnSuccess_iff kzalloc writeToEnd (by decide)).mpr (inCapacity_iff_sum.mpr (by decide))

/-- A read of one sector and one byte from the last sector on. -/
def readAcrossEnd : Request := ⟨2047, .read, [⟨513, area (fun _ => 0) 0 513⟩]⟩

/-- The last byte of the segment is not read, and the request succeeds. -/
theorem not_completeOnSuccess :
    ¬∀ (data : Disk) (rq : Request), rq.start < diskSize → CompleteOnSuccess data rq := by
  intro h
  have hstart : readAcrossEnd.start < diskSize := by decide
  obtain ⟨disk, reply, hrq, hok⟩ := queueRq_ok kzalloc hstart
  have hcap := inCapacity_of_transferred (h kzalloc readAcrossEnd hstart disk reply hrq hok) hstart
  exact absurd (inCapacity_iff_sum.mp hcap) (by decide)

end LinuxDeviceDrivers.RamdiskBounds
