import LinuxDeviceDrivers.ChardrvsLocks
import LinuxDeviceDrivers.OrderedStream
import Mathlib.Data.List.Nodup

/-!
# What a run of chardrvs does to the bytes

Two facts about every run. First, what a single call has moved at each of its
control points, up to its return value. Second, the kfifo refines the abstract
stream of `OrderedStream`: in the order of `w_f_lock` the writers push, in the
order of `r_f_lock` the readers pop. The second fact needs that two writers, or
two readers, never overlap in the kfifo, which the two mutexes ensure.
-/
namespace LinuxDeviceDrivers.ChardrvsStream
open KernelPrimitives TransitionSystem ThreadProgram ChardrvsFifo ChardrvsLocks OrderedStream

/-- A transfer that the kfifo can report to this call. -/
def Fits : Call → Transfer → Prop
  | .write buf, x => x.bytes <+: buf.bytes ∧ (x.ret = 0 ∨ x.ret = -EFAULT)
  | .read buf, x => x.bytes.length ≤ buf.count ∧ (x.ret = 0 ∨ x.ret = -EFAULT)

theorem copyUser_ret (n : ℕ) (bs : List UInt8) :
    (copyUser n bs).ret = 0 ∨ (copyUser n bs).ret = -EFAULT := by
  simp only [copyUser]
  split_ifs
  · exact .inr rfl
  · exact .inl rfl

theorem fits_fromUser (f : Kfifo) (buf : WriteBuf) : Fits (.write buf) (f.fromUser buf) :=
  ⟨f.fromUser_prefix buf ▸ List.take_prefix _ _, copyUser_ret _ _⟩

theorem fits_toUser (f : Kfifo) (buf : ReadBuf) : Fits (.read buf) (f.toUser buf) := by
  refine ⟨?_, copyUser_ret _ _⟩
  have h := copyUser_length_le buf.accessible (f.data.take (min buf.count f.data.length))
  rw [List.length_take] at h
  exact Nat.le_trans h (by omega)

theorem Fits.result_cases {c : Call} {x : Transfer} (h : Fits c x) :
    x.result = x.bytes.length ∨ x.result = -EFAULT := by
  have hret : x.ret = 0 ∨ x.ret = -EFAULT := by cases c <;> exact h.2
  unfold Transfer.result
  rcases hret with hr | hr
  · exact .inl (if_pos hr)
  · right
    rw [hr]
    rfl

/-- The bytes a call has moved so far, at each of its control points. -/
def Progress (moved : List UInt8) : Pc → Prop
  | .unstarted | .poll _ _ _ _ | .pollDone _ => moved = []
  | .write buf p =>
      match p with
      | .lock | .wait | .parked | .fromUser => moved = []
      | .publish x => moved = [] ∧ Fits (.write buf) x
      | .unlock x => moved = x.bytes ∧ Fits (.write buf) x
  | .read buf p =>
      match p with
      | .lock | .toUser => moved = []
      | .consume x => moved = [] ∧ Fits (.read buf) x
      | .wakeUp x | .unlock x => moved = x.bytes ∧ Fits (.read buf) x
  | .refresh call x _ => moved = x.bytes ∧ Fits call x
  | .done call ret =>
      (ret = -ERESTARTSYS ∧ moved = []) ∨
        ∃ x : Transfer, ret = x.result ∧ moved = x.bytes ∧ Fits call x

/-- The bytes a call has moved after one of its own moves. -/
def Effect.moved : Effect → List UInt8 → List UInt8
  | .publish bytes, _ | .consume bytes, _ => bytes
  | _, m => m

theorem effect_moved_self (c : ℕ) (e : Effect) (s : Shared) :
    (effect c e s).moved c = Effect.moved e (s.moved c) := by
  cases e <;> first | rfl | exact Function.update_self _ _ _

theorem effect_moved_other {c u : ℕ} (hu : u ≠ c) (e : Effect) (s : Shared) :
    (effect c e s).moved u = s.moved u := by
  cases e <;> first | rfl | exact Function.update_of_ne hu _ _

theorem Progress.edge {dev : ChardrvsPrivDev} {k : Choice} {p p' : Pc} {e : Effect}
    (h : Edge dev k p e p') {m : List UInt8} (hm : Progress m p) :
    Progress (Effect.moved e m) p' := by
  cases h with
  | enter c => cases c <;> exact hm
  | fromUser buf => exact ⟨hm, fits_fromUser _ buf⟩
  | toUser buf => exact ⟨hm, fits_toUser _ buf⟩
  | publish buf x => exact ⟨rfl, hm.2⟩
  | consume buf x => exact ⟨rfl, hm.2⟩
  | refreshUnlock c x => exact .inr ⟨x, rfl, hm.1, hm.2⟩
  | signalWriteLock | signalWait | signalReadLock => exact .inl ⟨rfl, hm⟩
  | _ => exact hm

theorem Progress.others {m : List UInt8} {p : Pc} (e : Effect) (h : Progress m p) :
    Progress m (others e p) := by
  refine others_of_woken e h ?_
  unfold Pc.woken
  split <;> exact h

/-- Every call is where its bytes say it is. -/
def Accounted (s : State) : Prop := ∀ c, Progress (s.shared.moved c) (s.pc c)

section Runs
variable {fsize : BitVec 32} {ok : State → ℕ × Choice → Prop} {s t : State}

theorem accounted (h : (system fsize).ReachableWhen ok s) : Accounted s := by
  refine Program.invariant ?_ ?_ h
  · rintro s ⟨dev, _, rfl⟩ c
    exact rfl
  · intro s c k e t _ hs _ he
    refine he.forall_threads hs ?_ ?_
    · rw [he.shared, program_effect, effect_moved_self]
      exact (hs c).edge (edge_of_step he)
    · intro u hu hp
      rw [he.shared, program_effect, effect_moved_other hu]
      exact hp.others e

end Runs

/-- The calls that have had their turn in `w_f_lock` or `r_f_lock`, and the
calls that gave up waiting for it. -/
def took : Mutex → Pc → Bool
  | .wFLock, .write _ .lock => false
  | .wFLock, .write _ _ => true
  | .wFLock, .refresh (.write _) _ _ => true
  | .wFLock, .done (.write _) _ => true
  | .rFLock, .read _ .lock => false
  | .rFLock, .read _ _ => true
  | .rFLock, .refresh (.read _) _ _ => true
  | .rFLock, .done (.read _) _ => true
  | _, _ => false

inductive Turn (m : Mutex) (p : Pc) (e : Effect) (p' : Pc) : Prop
  | begins : e = .acquire m → took m p = false → took m p' = true → Turn m p e p'
  | keeps : e ≠ .acquire m → took m p' = took m p → Turn m p e p'
  | gives (c : Call) : e ≠ .acquire m → took m p = false → p' = .done c (-ERESTARTSYS) →
      Turn m p e p'

theorem turn_of_edge {dev : ChardrvsPrivDev} {k : Choice} {p p' : Pc} {e : Effect}
    (h : Edge dev k p e p') {m : Mutex} (hm : m ≠ .lock) : Turn m p e p' := by
  cases m with
  | lock => exact absurd rfl hm
  | wFLock =>
      cases h with
      | writeLock => exact .begins rfl rfl rfl
      | signalWriteLock buf => exact .gives (.write buf) nofun rfl rfl
      | enter c | refreshLock c _ _ | load c _ | store c _ _ | refreshUnlock c _ =>
          cases c <;> exact .keeps nofun rfl
      | _ => exact .keeps nofun rfl
  | rFLock =>
      cases h with
      | readLock => exact .begins rfl rfl rfl
      | signalReadLock buf => exact .gives (.read buf) nofun rfl rfl
      | enter c | refreshLock c _ _ | load c _ | store c _ _ | refreshUnlock c _ =>
          cases c <;> exact .keeps nofun rfl
      | _ => exact .keeps nofun rfl

theorem took_others (e : Effect) (m : Mutex) (p : Pc) : took m (others e p) = took m p := by
  refine others_of_woken (I := fun q => took m q = took m p) e rfl ?_
  unfold Pc.woken
  split <;> cases m <;> rfl

theorem effect_order_of_ne (c : ℕ) {e : Effect} (s : Shared) {m : Mutex} (h : e ≠ .acquire m) :
    (effect c e s).order m = s.order m := by
  cases e with
  | acquire m' => exact Function.update_of_ne (fun he : m = m' => h (by rw [he])) _ _
  | _ => rfl

theorem effect_order_acquire (c : ℕ) (s : Shared) (m : Mutex) :
    (effect c (.acquire m) s).order m = s.order m ++ [c] :=
  Function.update_self _ _ _

/-- The list of turns of one mutex: each call at most once, and the call inside
the mutex comes last. -/
structure Turns (m : Mutex) (s : State) : Prop where
  took : ∀ c ∈ s.shared.order m, took m (s.pc c) = true
  counted : ∀ c, ChardrvsStream.took m (s.pc c) = true →
    c ∈ s.shared.order m ∨ ∃ call, s.pc c = .done call (-ERESTARTSYS)
  nodup : (s.shared.order m).Nodup
  last : ∀ c, holds m (s.pc c) = true → ∃ pre, s.shared.order m = pre ++ [c]

theorem Turns.last_new {m : Mutex} {s : State} (h : Turns m s) {c : ℕ}
    (hc : holds m (s.pc c) = true) : ∃ pre, s.shared.order m = pre ++ [c] ∧ c ∉ pre := by
  obtain ⟨pre, horder⟩ := h.last c hc
  have hn := h.nodup
  rw [horder, List.nodup_append] at hn
  exact ⟨pre, horder, fun hm => hn.2.2 c hm c (List.mem_singleton_self c) rfl⟩

theorem not_edge_done {dev : ChardrvsPrivDev} {k : Choice} {c : Call} {r : ℤ} {e : Effect}
    {p' : Pc} : ¬Edge dev k (.done c r) e p' := nofun

section TurnStep
variable {s t : State} {m : Mutex} {c : ℕ} {k : Choice} {e : Effect}

/-- A call that is not the one moving keeps its place in the list. -/
theorem Turns.counted_other (h : Turns m s) (he : program.Step s c k e t) {d : ℕ} (hd : d ≠ c)
    (ht : ChardrvsStream.took m (t.pc d) = true) :
    d ∈ s.shared.order m ∨ ∃ call, t.pc d = .done call (-ERESTARTSYS) := by
  rw [he.others d hd, program_others] at ht ⊢
  rw [took_others] at ht
  refine (h.counted d ht).imp id ?_
  rintro ⟨call, hp⟩
  exact ⟨call, by rw [hp, others_done]⟩

theorem Turns.step_acquire (hm : m ≠ .lock) (hx : (mutex m).Exclusive s) (h : Turns m s)
    (he : program.Step s c k (.acquire m) t) : Turns m t := by
  have horder : t.shared.order m = s.shared.order m ++ [c] := by
    rw [he.shared, program_effect, effect_order_acquire]
  obtain ⟨hbefore, hafter⟩ : ChardrvsStream.took m (s.pc c) = false ∧
      ChardrvsStream.took m (t.pc c) = true := by
    cases turn_of_edge (edge_of_step he) hm with
    | begins _ hb ha => exact ⟨hb, ha⟩
    | keeps hne _ | gives _ hne _ _ => exact absurd rfl hne
  have hnew : c ∉ s.shared.order m := fun hc => by simp [h.took c hc] at hbefore
  refine ⟨?_, ?_, ?_, ?_⟩
  · intro d hd
    by_cases hdc : d = c
    · exact hdc ▸ hafter
    · rw [he.others d hdc, program_others, took_others]
      rw [horder, List.mem_append, List.mem_singleton] at hd
      exact h.took d (hd.resolve_right hdc)
  · intro d hd
    rw [horder]
    by_cases hdc : d = c
    · exact .inl (by simp [hdc])
    · exact (h.counted_other he hdc hd).imp (List.mem_append_left _) id
  · rw [horder]
    exact List.nodup_append.mpr ⟨h.nodup, List.nodup_singleton c, by
      rintro d hd _ hc rfl
      exact hnew (List.mem_singleton.mp hc ▸ hd)⟩
  · intro d hd
    by_cases hdc : d = c
    · exact ⟨_, hdc ▸ horder⟩
    · -- the mutex was free, so nobody else is inside
      have hin := hx d ((Lock.holds_other (L := mutex m) he hdc).mp hd)
      cases mutexUse (edge_of_step he) m with
      | none hne _ _ => exact absurd rfl hne
      | acquire _ ho _ _ => exact absurd (hin.symm.trans ho) nofun
      | release hr _ _ | leak hr _ _ _ _ _ => cases hr

theorem Turns.step (hm : m ≠ .lock) (hx : (mutex m).Exclusive s) (h : Turns m s)
    (he : program.Step s c k e t) : Turns m t := by
  by_cases hacq : e = .acquire m
  · subst hacq
    exact h.step_acquire hm hx he
  have horder : t.shared.order m = s.shared.order m := by
    rw [he.shared, program_effect, effect_order_of_ne c s.shared hacq]
  refine ⟨?_, ?_, ?_, ?_⟩
  · intro d hd
    rw [horder] at hd
    by_cases hdc : d = c
    · subst hdc
      cases turn_of_edge (edge_of_step he) hm with
      | begins hb _ _ => exact absurd hb hacq
      | keeps _ hk => exact hk.trans (h.took d hd)
      | gives _ _ hb _ => simp [h.took d hd] at hb
    · rw [he.others d hdc, program_others, took_others]
      exact h.took d hd
  · intro d hd
    rw [horder]
    by_cases hdc : d = c
    · subst hdc
      cases turn_of_edge (edge_of_step he) hm with
      | begins hb _ _ => exact absurd hb hacq
      | keeps _ hk =>
          rcases h.counted d (hk.symm.trans hd) with hc | ⟨call, hp⟩
          · exact .inl hc
          · exact absurd (hp ▸ edge_of_step he) not_edge_done
      | gives call _ _ hp => exact .inr ⟨call, hp⟩
    · exact h.counted_other he hdc hd
  · rw [horder]
    exact h.nodup
  · intro d hd
    rw [horder]
    by_cases hdc : d = c
    · subst hdc
      cases mutexUse (edge_of_step he) m with
      | none _ _ hh => exact h.last d (hh.symm.trans hd)
      | acquire hb _ _ _ => exact absurd hb hacq
      | release _ _ hf | leak _ _ _ _ _ hf => simp [hf] at hd
    · exact h.last d ((Lock.holds_other (L := mutex m) he hdc).mp hd)

end TurnStep

theorem turns {fsize : BitVec 32} {ok : State → ℕ × Choice → Prop} {s : State}
    (h : (system fsize).ReachableWhen ok s) {m : Mutex} (hm : m ≠ .lock) : Turns m s := by
  refine Program.invariant ?_ ?_ h
  · rintro s ⟨dev, _, rfl⟩
    refine ⟨nofun, fun c hc => ?_, List.nodup_nil, fun c hc => ?_⟩
    · cases m <;> cases hc
    · cases m <;> cases hc
  · intro s c k e t hr hs _ he
    exact hs.step hm (exclusive hr m) he

/-- What a reader has copied out and not yet removed is still at the front. -/
def CopiedOut (data : List UInt8) : Pc → Prop
  | .read _ (.consume x) => x.bytes <+: data
  | _ => True

theorem copiedOut_outside {p : Pc} (data : List UInt8) (h : holds .rFLock p = false) :
    CopiedOut data p := by
  unfold CopiedOut
  split
  · cases h
  · trivial

theorem CopiedOut.woken {data : List UInt8} {p : Pc} (h : CopiedOut data p) (e : Effect) :
    CopiedOut data (others e p) := by
  refine others_of_woken e h ?_
  unfold Pc.woken
  split <;> trivial

/-- The reader that samples the kfifo sees its front; no other move of a call
ends with bytes copied and not removed. -/
theorem copiedOut_edge {dev : ChardrvsPrivDev} {k : Choice} {p p' : Pc} {e : Effect}
    (h : Edge dev k p e p') {data : List UInt8} (hskip : e = .skip → data = dev.myfifo.data) :
    CopiedOut data p' := by
  cases h with
  | toUser buf =>
      rw [hskip rfl]
      show (dev.myfifo.toUser buf).bytes <+: dev.myfifo.data
      rw [Kfifo.toUser_prefix]
      exact List.take_prefix _ _
  | enter c => cases c <;> trivial
  | _ => trivial

theorem edge_consume {dev : ChardrvsPrivDev} {k : Choice} {p p' : Pc} {bs : List UInt8}
    (h : Edge dev k p (.consume bs) p') :
    ∃ buf x, p = .read buf (.consume x) ∧ bs = x.bytes := by
  generalize he : Effect.consume bs = e at h
  cases h <;> cases he
  exact ⟨_, _, rfl, rfl⟩

theorem edge_publish {dev : ChardrvsPrivDev} {k : Choice} {p p' : Pc} {bs : List UInt8}
    (h : Edge dev k p (.publish bs) p') :
    ∃ buf x, p = .write buf (.publish x) ∧ bs = x.bytes := by
  generalize he : Effect.publish bs = e at h
  cases h <;> cases he
  exact ⟨_, _, rfl, rfl⟩

theorem edge_store {dev : ChardrvsPrivDev} {k : Choice} {p p' : Pc} {v : ℕ}
    (h : Edge dev k p (.store v) p') :
    k = .run ∧ ∃ call x, p = .refresh call x (.store v) ∧ p' = .refresh call x .unlock := by
  generalize he : Effect.store v = e at h
  cases h <;> cases he
  exact ⟨rfl, _, _, rfl, rfl⟩

theorem edge_acquire {dev : ChardrvsPrivDev} {k : Choice} {p p' : Pc} {m : Mutex} (hm : m ≠ .lock)
    (h : Edge dev k p (.acquire m) p') :
    (∃ buf, p = .write buf .lock) ∨ ∃ buf, p = .read buf .lock := by
  generalize he : Effect.acquire m = e at h
  cases h <;> cases he
  · exact .inl ⟨_, rfl⟩
  · exact .inr ⟨_, rfl⟩
  · exact absurd rfl hm
  · exact absurd rfl hm

def FrontCopied (s : State) : Prop := ∀ c, CopiedOut s.shared.myfifo.data (s.pc c)

theorem FrontCopied.step {s t : State} {c : ℕ} {k : Choice} {e : Effect}
    (hx : (mutex .rFLock).Exclusive s) (h : FrontCopied s) (he : program.Step s c k e t) :
    FrontCopied t := by
  have hedge := edge_of_step he
  refine he.forall_threads h ?_ ?_
  · refine copiedOut_edge hedge fun hskip => ?_
    rw [he.shared, hskip]
    rfl
  · intro u hu hp
    rw [program_others, he.shared, program_effect]
    refine CopiedOut.woken ?_ e
    cases e with
    | publish bs =>
        show CopiedOut (s.shared.myfifo.data ++ bs) (s.pc u)
        unfold CopiedOut at hp ⊢
        split
        · rename_i hpc
          rw [hpc] at hp
          exact hp.trans (List.prefix_append _ _)
        · trivial
    | consume bs =>
        obtain ⟨buf, x, hc, _⟩ := edge_consume hedge
        apply copiedOut_outside
        rw [Bool.eq_false_iff]
        exact fun hin => hu (hx.unique hin (by simp [mutex, hc, holds]))
    | _ => exact hp

/-- The stream that the kfifo and the turns of the two mutexes describe. -/
def stream (s : State) : Stream UInt8 where
  sent := (s.shared.order .wFLock).flatMap s.shared.moved
  received := (s.shared.order .rFLock).flatMap s.shared.moved
  queue := s.shared.myfifo.data

section Refinement
variable {s t : State} {c : ℕ} {k : Choice}

/-- Taking a mutex opens a turn in which nothing has moved yet. -/
theorem stream_acquire {m : Mutex} (ha : Accounted s) (he : program.Step s c k (.acquire m) t) :
    stream t = stream s := by
  have hempty : m ≠ .lock → s.shared.moved c = [] := fun hm => by
    have h := ha c
    rcases edge_acquire hm (edge_of_step he) with ⟨buf, hp⟩ | ⟨buf, hp⟩
    · rw [hp] at h
      exact h
    · rw [hp] at h
      exact h
  have hflat : ∀ m' : Mutex, m' ≠ .lock →
      (t.shared.order m').flatMap t.shared.moved = (s.shared.order m').flatMap s.shared.moved := by
    intro m' hm'
    have hmoved : t.shared.moved = s.shared.moved := by rw [he.shared]; rfl
    rw [hmoved]
    by_cases hmm : m' = m
    · subst hmm
      rw [he.shared, program_effect, effect_order_acquire, flatMap_turn (hempty hm')]
    · rw [he.shared, program_effect,
        effect_order_of_ne c s.shared fun h => hmm (Effect.acquire.inj h).symm]
  have hdata : t.shared.myfifo = s.shared.myfifo := by rw [he.shared]; rfl
  simp only [stream, hflat _ (show Mutex.wFLock ≠ .lock from nofun),
    hflat _ (show Mutex.rFLock ≠ .lock from nofun), hdata]

theorem stream_publish {bs : List UInt8} (ha : Accounted s) (hw : Turns .wFLock s)
    (hr : Turns .rFLock s) (he : program.Step s c k (.publish bs) t) :
    Stream.Step (stream s) (stream t) := by
  obtain ⟨buf, x, hp, hbs⟩ := edge_publish (edge_of_step he)
  have hempty : s.shared.moved c = [] := by
    have h := ha c
    rw [hp] at h
    exact h.1
  obtain ⟨pre, horder, hpre⟩ := hw.last_new (by rw [hp]; rfl)
  have hread : c ∉ s.shared.order .rFLock := fun hc => by
    have h := hr.took c hc
    rw [hp] at h
    cases h
  have ht : stream t = ⟨(stream s).sent ++ bs, (stream s).received, (stream s).queue ++ bs⟩ := by
    simp only [stream, he.shared, program_effect, effect, Kfifo.publish_data]
    rw [flatMap_update_last horder hpre hempty, flatMap_update_of_notMem hread]
  rw [ht]
  exact .push bs

theorem stream_consume {bs : List UInt8} (ha : Accounted s) (hw : Turns .wFLock s)
    (hr : Turns .rFLock s) (hf : FrontCopied s) (he : program.Step s c k (.consume bs) t) :
    Stream.Step (stream s) (stream t) := by
  obtain ⟨buf, x, hp, rfl⟩ := edge_consume (edge_of_step he)
  have hempty : s.shared.moved c = [] := by
    have h := ha c
    rw [hp] at h
    exact h.1
  obtain ⟨pre, horder, hpre⟩ := hr.last_new (by rw [hp]; rfl)
  have hwrite : c ∉ s.shared.order .wFLock := fun hc => by
    have h := hw.took c hc
    rw [hp] at h
    cases h
  obtain ⟨rest, hrest⟩ : x.bytes <+: s.shared.myfifo.data := by
    have h := hf c
    rw [hp] at h
    exact h
  have ht : stream t = ⟨(stream s).sent, (stream s).received ++ x.bytes, rest⟩ := by
    simp only [stream, he.shared, program_effect, effect, Kfifo.consume_data]
    rw [flatMap_update_last horder hpre hempty, flatMap_update_of_notMem hwrite, ← hrest,
      List.drop_left]
  rw [ht]
  exact .pop x.bytes rest hrest.symm

/-- One step of any call is a push, a pop or no change of the abstract stream. -/
theorem stream_step {e : Effect} (ha : Accounted s) (hw : Turns .wFLock s) (hr : Turns .rFLock s)
    (hf : FrontCopied s) (he : program.Step s c k e t) : Stream.Step (stream s) (stream t) := by
  cases e with
  | acquire m => exact stream_acquire ha he ▸ .stay
  | publish bs => exact stream_publish ha hw hr he
  | consume bs => exact stream_consume ha hw hr hf he
  | skip | release _ | store _ | wakeUp =>
      have ht : stream t = stream s := by simp only [stream, he.shared, program_effect, effect]
      exact ht ▸ .stay

end Refinement

section Integrity
variable {fsize : BitVec 32} {ok : State → ℕ × Choice → Prop} {s : State}

theorem frontCopied (h : (system fsize).ReachableWhen ok s) : FrontCopied s := by
  refine Program.invariant ?_ ?_ h
  · rintro s ⟨dev, _, rfl⟩ c
    trivial
  · intro s c k e t hr hs _ he
    exact hs.step (exclusive hr .rFLock) he

def Intact (s : State) : Prop := (stream s).Intact

theorem stream_intact (h : (system fsize).ReachableWhen ok s) : Intact s := by
  refine Program.invariant ?_ ?_ h
  · rintro s ⟨dev, hd, rfl⟩
    exact (setupChardrvs_ok hd).1
  · intro s c k e t hr hs _ he
    exact Stream.Intact.step hs
      (stream_step (accounted hr) (turns hr nofun) (turns hr nofun) (frontCopied hr) he)

/-- The mutex that orders the calls of this kind. -/
def turnOf : Call → Mutex
  | .write _ => .wFLock
  | .read _ => .rFLock

/-- The readers' bytes in the order of `r_f_lock`, followed by what the kfifo
still holds, are the writers' bytes in the order of `w_f_lock`. Each call is
counted at most once, a call that returned a length is counted and has moved
that many bytes (a writer the front of its buffer), and an interrupted call has
moved nothing. -/
structure StreamIntegrity (s : State) : Prop where
  stream : (s.shared.order .rFLock).flatMap s.shared.moved ++ s.shared.myfifo.data =
    (s.shared.order .wFLock).flatMap s.shared.moved
  once : (s.shared.order .wFLock).Nodup ∧ (s.shared.order .rFLock).Nodup
  counted : ∀ c call ret, s.pc c = .done call ret → 0 ≤ ret → c ∈ s.shared.order (turnOf call)
  length : ∀ c call ret, s.pc c = .done call ret → 0 ≤ ret → (s.shared.moved c).length = ret
  front : ∀ c buf ret, s.pc c = .done (.write buf) ret → 0 ≤ ret →
    s.shared.moved c = buf.bytes.take ret.toNat
  interrupted : ∀ c call, s.pc c = .done call (-ERESTARTSYS) → s.shared.moved c = []

/-- A call that returned: interrupted before it moved anything, or with the
result of one transfer. -/
theorem done_cases (h : (system fsize).ReachableWhen ok s) {c : ℕ} {call : Call} {ret : ℤ}
    (hp : s.pc c = .done call ret) :
    (ret = -ERESTARTSYS ∧ s.shared.moved c = []) ∨
      ((ret = (s.shared.moved c).length ∨ ret = -EFAULT) ∧
        ∀ buf, call = .write buf → s.shared.moved c <+: buf.bytes) := by
  have hprog := accounted h c
  rw [hp] at hprog
  rcases hprog with hint | ⟨x, hret, hmoved, hfits⟩
  · exact .inl hint
  · right
    rw [hret, hmoved]
    refine ⟨hfits.result_cases, ?_⟩
    rintro buf rfl
    exact hfits.1

theorem streamIntegrity_reachable (h : (system fsize).Reachable s) : StreamIntegrity s := by
  have hlen : ∀ c call ret, s.pc c = .done call ret → 0 ≤ ret → (s.shared.moved c).length = ret := by
    intro c call ret hp hret
    rcases done_cases h hp with ⟨he, _⟩ | ⟨he | he, _⟩
    · exact absurd (he ▸ hret) (by decide)
    · exact he.symm
    · exact absurd (he ▸ hret) (by decide)
  refine ⟨stream_intact h, ⟨(turns (m := .wFLock) h nofun).nodup,
    (turns (m := .rFLock) h nofun).nodup⟩, ?_, hlen, ?_, ?_⟩
  · intro c call ret hp hret
    have hm : turnOf call ≠ .lock := by cases call <;> nofun
    have hcounted := (turns h hm).counted c (by rw [hp]; cases call <;> rfl)
    rcases hcounted with hc | ⟨call', hp'⟩
    · exact hc
    · rw [hp] at hp'
      cases hp'
      exact absurd hret (by decide)
  · intro c buf ret hp hret
    have hpre : s.shared.moved c <+: buf.bytes := by
      rcases done_cases h hp with ⟨he, _⟩ | ⟨_, hfront⟩
      · exact absurd (he ▸ hret) (by decide)
      · exact hfront buf rfl
    rw [← hlen c _ ret hp hret, Int.toNat_natCast]
    exact List.prefix_iff_eq_take.mp hpre
  · intro c call hp
    rcases done_cases h hp with ⟨_, he⟩ | ⟨he | he, _⟩
    · exact he
    · have : (0 : ℤ) ≤ (s.shared.moved c).length := Int.natCast_nonneg _
      rw [← he] at this
      exact absurd this (by decide)
    · exact absurd he (by decide)

end Integrity

/-- A reader copies out while the writer before it has not returned yet. -/
def overlappingTransfers : List (ℕ × Choice) :=
  [(0, .call (.write ⟨[1, 2, 3], 3⟩))] ++ steps 0 4 ++ [(1, .call (.read ⟨2, 2⟩))] ++ steps 1 3 ++
    steps 0 5 ++ steps 1 6

theorem streamIntegrity_overlappingTransfers :
    ∃ s, (system defaultFsize).run (initial defaultDev) overlappingTransfers = some s ∧
      s.pc 1 = .done (.read ⟨2, 2⟩) 2 ∧ s.shared.myfifo.data = [3] ∧ StreamIntegrity s :=
  ⟨_, rfl, rfl, rfl,
    streamIntegrity_reachable (System.Reachable.run (.start start_default)
      (show (system defaultFsize).run _ overlappingTransfers = _ from rfl))⟩

end LinuxDeviceDrivers.ChardrvsStream
