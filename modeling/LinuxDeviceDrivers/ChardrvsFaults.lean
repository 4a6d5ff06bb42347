import LinuxDeviceDrivers.ChardrvsStream

/-!
# Faulting buffers of the chardrvs FIFO

A copy between the kfifo and a user buffer stops at the first byte that faults.
The kfifo still advances its index by what was copied before the fault, and the
call returns `-EFAULT`: its caller cannot tell how much of the stream has gone.

A copy is torn if it faults after some bytes. A call that returns an error has
left the kfifo alone exactly if its copy was not torn, in every run.
-/
namespace LinuxDeviceDrivers.ChardrvsFaults
open KernelPrimitives TransitionSystem ThreadProgram ChardrvsFifo ChardrvsStream

/-- A copy across the end of the ring: `l` bytes up to the end, the rest from
its start on, which is not tried after a fault. -/
def copyUserRing (l accessible : ℕ) (bytes : List UInt8) : Transfer :=
  let x := copyUser accessible (bytes.take l)
  if x.ret ≠ 0 then x
  else
    let y := copyUser (accessible - l) (bytes.drop l)
    ⟨x.bytes ++ y.bytes, y.ret⟩

theorem copyUserRing_eq (l accessible : ℕ) (bytes : List UInt8) :
    copyUserRing l accessible bytes = copyUser accessible bytes := by
  by_cases hfault : accessible < (bytes.take l).length
  · have hlen := List.length_take_le' l bytes
    have htake := List.length_take_le l bytes
    simp only [copyUserRing, copyUser, if_pos hfault]
    rw [if_pos (by decide), List.take_take, Nat.min_eq_left (by omega), if_pos (by omega)]
  · have hcopy : copyUser accessible (bytes.take l) = ⟨bytes.take l, 0⟩ :=
      copyUser_all (Nat.le_of_not_lt hfault)
    have hring : copyUserRing l accessible bytes =
        ⟨bytes.take l ++ (copyUser (accessible - l) (bytes.drop l)).bytes,
          (copyUser (accessible - l) (bytes.drop l)).ret⟩ := by
      rw [copyUserRing, hcopy]
      rfl
    rw [List.length_take] at hfault
    rw [hring]
    simp only [copyUser, List.length_drop]
    by_cases hl : l ≤ bytes.length
    · have hsplit : bytes.take accessible = bytes.take l ++ (bytes.drop l).take (accessible - l) := by
        rw [← List.take_add, Nat.add_sub_cancel' (by omega)]
      rw [hsplit]
      congr 1
      exact if_congr (by omega) rfl rfl
    · rw [List.drop_eq_nil_of_le (by omega), List.take_nil, List.append_nil,
        List.take_of_length_le (by omega), List.take_of_length_le (by omega),
        if_neg (by omega), if_neg (by omega)]

/-- The copy has moved bytes and reports a fault. -/
def Torn (x : Transfer) : Prop := x.ret ≠ 0 ∧ x.bytes ≠ []

/-- The first byte of the buffer faults, or none of the `n` bytes to copy does. -/
def CleanCopy (accessible n : ℕ) : Prop := accessible = 0 ∨ n ≤ accessible

instance (accessible n : ℕ) : Decidable (CleanCopy accessible n) :=
  inferInstanceAs (Decidable (_ ∨ _))

theorem torn_copyUser {n : ℕ} {bs : List UInt8} :
    Torn (copyUser n bs) ↔ ¬CleanCopy n bs.length := by
  unfold Torn CleanCopy copyUser
  by_cases hfault : n < bs.length
  · have hne : bs ≠ [] := List.ne_nil_of_length_pos (by omega)
    simp only [if_pos hfault, ne_eq, List.take_eq_nil_iff, hne, or_false]
    exact ⟨fun h => by omega, fun h => ⟨by decide, by omega⟩⟩
  · simp only [if_neg hfault, ne_eq, not_true_eq_false, false_and]
    exact iff_of_false id fun h => h (.inr (Nat.le_of_not_lt hfault))

/-- If the call is about to copy, the copy will not be torn. -/
def CopiesClean (dev : ChardrvsPrivDev) : Pc → Prop
  | .write buf .fromUser => CleanCopy buf.accessible (min buf.count dev.myfifo.avail)
  | .read buf .toUser => CleanCopy buf.accessible (min buf.count dev.myfifo.data.length)
  | _ => True

def TornAt (moved : List UInt8) : Pc → Prop
  | .write _ (.publish x) | .write _ (.unlock x) => Torn x
  | .read _ (.consume x) | .read _ (.wakeUp x) | .read _ (.unlock x) => Torn x
  | .refresh _ x _ => Torn x
  | .done _ ret => ret < 0 ∧ moved ≠ []
  | _ => False

theorem torn_fromUser (f : Kfifo) (buf : WriteBuf) :
    Torn (f.fromUser buf) ↔ ¬CleanCopy buf.accessible (min buf.count f.avail) := by
  have hlen : (buf.bytes.take (min buf.count f.avail)).length = min buf.count f.avail := by
    rw [List.length_take]
    exact Nat.min_eq_left (Nat.min_le_left _ _)
  rw [Kfifo.fromUser, torn_copyUser, hlen]

theorem torn_toUser (f : Kfifo) (buf : ReadBuf) :
    Torn (f.toUser buf) ↔ ¬CleanCopy buf.accessible (min buf.count f.data.length) := by
  have hlen : (f.data.take (min buf.count f.data.length)).length = min buf.count f.data.length := by
    rw [List.length_take]
    exact Nat.min_eq_left (Nat.min_le_right _ _)
  rw [Kfifo.toUser, torn_copyUser, hlen]

/-- A call that returns an error returns the fault of its copy. -/
theorem fits_result_neg {c : Call} {x : Transfer} (h : Fits c x) : x.result < 0 ↔ x.ret ≠ 0 := by
  have hret : x.ret = 0 ∨ x.ret = -EFAULT := by cases c <;> exact h.2
  unfold Transfer.result
  rcases hret with hr | hr
  · rw [if_pos hr, hr]
    exact iff_of_false (by omega) (by decide)
  · rw [hr, if_neg (by decide)]
    exact iff_of_true (by decide) (by decide)

theorem tornAt_edge {dev : ChardrvsPrivDev} {k : Choice} {p p' : Pc} {e : Effect}
    (h : Edge dev k p e p') {m : List UInt8} (hm : Progress m p) :
    TornAt (Effect.moved e m) p' ↔ TornAt m p ∨ ¬CopiesClean dev p := by
  cases h with
  | enter c => cases c <;> simp [TornAt, CopiesClean, Call.enter]
  | fromUser buf =>
      simp only [TornAt, CopiesClean, false_or]
      exact torn_fromUser dev.myfifo buf
  | toUser buf =>
      simp only [TornAt, CopiesClean, false_or]
      exact torn_toUser dev.myfifo buf
  | refreshUnlock c x =>
      obtain ⟨hmoved, hfits⟩ := hm
      simp only [TornAt, CopiesClean, not_true_eq_false, or_false, Effect.moved, hmoved]
      exact and_congr_left fun _ => fits_result_neg hfits
  | signalWriteLock | signalWait | signalReadLock =>
      have hnil : m = [] := hm
      simp [TornAt, CopiesClean, Effect.moved, hnil]
  | _ => simp [TornAt, CopiesClean]

theorem tornAt_others {m : List UInt8} (e : Effect) (p : Pc) :
    TornAt m (others e p) ↔ TornAt m p := by
  refine others_of_woken (I := fun q => TornAt m q ↔ TornAt m p) e Iff.rfl ?_
  unfold Pc.woken
  split <;> exact Iff.rfl

def ClearOfFaults (c : ℕ) (s : State) (a : ℕ × Choice) : Prop :=
  a.1 = c → CopiesClean s.shared.toChardrvsPrivDev (s.pc c)

/-- The returned call has moved nothing if it returned an error. -/
def FailedLeavesFifo (s : State) (c : ℕ) : Prop :=
  ∀ call ret, s.pc c = .done call ret → ret < 0 → s.shared.moved c = []

section Runs
variable {fsize : BitVec 32} {s t : State} {c : ℕ}

def TornCall (c : ℕ) (s : State) : Prop := TornAt (s.shared.moved c) (s.pc c)

theorem tornCall_step {a : ℕ × Choice} (h : (system fsize).Reachable s)
    (hn : (system fsize).next s a = some t) :
    TornCall c t ↔ TornCall c s ∨ ¬ClearOfFaults c s a := by
  obtain ⟨e, he⟩ := Program.step_of_next hn
  unfold TornCall ClearOfFaults
  by_cases hc : a.1 = c
  · rw [he.shared, program_effect, hc, effect_moved_self, forall_prop_of_true rfl]
    rw [hc] at he
    exact tornAt_edge (edge_of_step he) (accounted h c)
  · rw [he.others c (Ne.symm hc), he.shared, program_others, program_effect,
      effect_moved_other (Ne.symm hc), tornAt_others]
    exact (or_iff_left fun h' => h' fun h'' => absurd h'' hc).symm

/-- A call that has returned leaves the kfifo alone when it fails, exactly if its
copy was clean. -/
theorem failedLeavesFifo_iff (fsize : BitVec 32) {s₀ t : State} {as : List (ℕ × Choice)} {c : ℕ}
    {call : Call} {ret : ℤ} (hs : (system fsize).start s₀)
    (hrun : (system fsize).run s₀ as = some t) (hdone : t.pc c = .done call ret) :
    FailedLeavesFifo t c ↔ (system fsize).Meets (ClearOfFaults c) s₀ as := by
  have hr : (system fsize).Reachable s₀ := .start hs
  have hfresh : ¬TornCall c s₀ := by
    obtain ⟨dev, _, rfl⟩ := hs
    exact id
  have hflag := hr.flag_iff (D := TornCall c) (fun s a t hs hn => tornCall_step hs hn) hrun
  rw [and_iff_right hfresh] at hflag
  rw [← hflag]
  unfold FailedLeavesFifo TornCall
  rw [hdone]
  constructor
  · rintro h ⟨hneg, hmoved⟩
    exact hmoved (h call ret rfl hneg)
  · intro h call' ret' hp hneg
    cases hp
    by_contra hmoved
    exact h ⟨hneg, hmoved⟩

end Runs

/-- A write of three bytes of which the first `n` can be read. -/
def faultingWrite (n : ℕ) : List (ℕ × Choice) :=
  [(0, .call (.write ⟨[1, 2, 3], n⟩))] ++ steps 0 9

theorem failedLeavesFifo_iff_faultingWrite :
    ∃ t, (system defaultFsize).run (initial defaultDev) (faultingWrite 0) = some t ∧
      t.pc 0 = .done (.write ⟨[1, 2, 3], 0⟩) (-EFAULT) ∧
        (FailedLeavesFifo t 0 ↔
          (system defaultFsize).Meets (ClearOfFaults 0) (initial defaultDev) (faultingWrite 0)) :=
  ⟨_, rfl, rfl, failedLeavesFifo_iff defaultFsize start_default
    (show (system defaultFsize).run _ (faultingWrite 0) = _ from rfl) rfl⟩

/-- The write returns `-EFAULT` and its first byte is in the kfifo. -/
theorem not_failedLeavesFifo :
    ¬∀ (fsize : BitVec 32) (s₀ t : State) (as : List (ℕ × Choice)) (c : ℕ),
      (system fsize).start s₀ → (system fsize).run s₀ as = some t → FailedLeavesFifo t c := by
  intro h
  obtain ⟨t, hrun, hp, hmoved, _⟩ : ∃ t,
      (system defaultFsize).run (initial defaultDev) (faultingWrite 1) = some t ∧
        t.pc 0 = .done (.write ⟨[1, 2, 3], 1⟩) (-EFAULT) ∧ t.shared.moved 0 = [1] ∧
          t.shared.myfifo.data = [1] :=
    ⟨_, rfl, rfl, rfl, rfl⟩
  have hnil := h _ _ t _ 0 start_default hrun _ _ hp (by decide)
  rw [hmoved] at hnil
  cases hnil

end LinuxDeviceDrivers.ChardrvsFaults
