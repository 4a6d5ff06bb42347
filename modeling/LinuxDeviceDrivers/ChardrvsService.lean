import LinuxDeviceDrivers.ChardrvsAvail

/-!
# When a waiting writer of chardrvs can be served

A writer sleeps in `wait_event_interruptible` until `dev->avail >= count`, with
`w_f_lock` held. The copy `dev->avail` never exceeds the size of the kfifo, so
a larger `count` waits for something that no read can bring about. Any other
writer can be served from every reachable state, and the schedule is explicit:
let the calls inside `lock` and `r_f_lock` leave, let one new read take all
bytes, then run the writer.
-/
namespace LinuxDeviceDrivers.ChardrvsService
open KernelPrimitives TransitionSystem ThreadProgram ChardrvsFifo ChardrvsLocks ChardrvsStream
  ChardrvsAvail

/-- What may happen while a writer waits to be served: calls run on and reads
are started, but no signal arrives. -/
def readsOnly : Choice → Bool
  | .call (.read _) => true
  | .run => true
  | _ => false

/-- The call waits for `dev->avail >= count`, awake or parked. -/
def Waiting (buf : WriteBuf) (p : Pc) : Prop :=
  p = .write buf .wait ∨ p = .write buf .parked

theorem Waiting.others {buf : WriteBuf} (e : Effect) (p : Pc) (h : Waiting buf p) :
    Waiting buf (others e p) := by
  refine others_of_woken e h ?_
  rcases h with rfl | rfl <;> exact .inl rfl

theorem Waiting.woken {buf : WriteBuf} {p : Pc} (h : Waiting buf p) :
    p.woken = .write buf .wait := by
  rcases h with rfl | rfl <;> rfl

theorem Waiting.not_holds {buf : WriteBuf} {p : Pc} (h : Waiting buf p) {m : Mutex}
    (hm : m ≠ .wFLock) : holds m p = false := by
  cases m with
  | wFLock => exact absurd rfl hm
  | rFLock | lock => rcases h with rfl | rfl <;> rfl

/-- The call can be brought to its return by reads and without signals. -/
def Servable (fsize : BitVec 32) (s : State) (c : ℕ) (buf : WriteBuf) : Prop :=
  ∃ as t ret, (∀ a ∈ as, readsOnly a.2 = true) ∧ (system fsize).run s as = some t ∧
    t.pc c = .done (.write buf) ret

theorem effect_size (c : ℕ) (e : Effect) (s : Shared) :
    (effect c e s).myfifo.size = s.myfifo.size := by
  cases e <;> rfl

/-- A value that is about to be stored in `dev->avail`. -/
def Pending (size : ℕ) : Pc → Prop
  | .refresh _ _ (.store v) => v ≤ size
  | _ => True

theorem pending_edge {dev : ChardrvsPrivDev} {k : Choice} {p p' : Pc} {e : Effect}
    (h : Edge dev k p e p') : Pending dev.myfifo.size p' := by
  cases h with
  | enter c => cases c <;> trivial
  | load c x => exact dev.myfifo.avail_le_size
  | _ => trivial

theorem Pending.others {size : ℕ} {p : Pc} (e : Effect) (h : Pending size p) :
    Pending size (others e p) := by
  refine others_of_woken e h ?_
  unfold Pc.woken
  split <;> trivial

/-- Neither the copy of the free space nor its next value exceeds the kfifo. -/
structure Capped (s : State) : Prop where
  copy : s.shared.avail ≤ s.shared.myfifo.size
  pending : ∀ c, Pending s.shared.myfifo.size (s.pc c)

theorem Capped.step {s t : State} {c : ℕ} {k : Choice} {e : Effect} (h : Capped s)
    (he : program.Step s c k e t) : Capped t := by
  have hsize : t.shared.myfifo.size = s.shared.myfifo.size := by
    rw [he.shared]
    exact effect_size c e s.shared
  refine ⟨?_, ?_⟩
  · rw [hsize]
    cases e with
    | store v =>
        obtain ⟨_, call, x, hp, _⟩ := edge_store (edge_of_step he)
        have hv := h.pending c
        rw [hp] at hv
        rw [he.shared]
        exact hv
    | skip | acquire _ | release _ | publish _ | consume _ | wakeUp =>
        rw [he.shared]
        exact h.copy
  · rw [hsize]
    exact he.forall_threads h.pending (pending_edge (edge_of_step he)) fun u _ hu => hu.others e

section Invariants
variable {fsize : BitVec 32} {ok : State → ℕ × Choice → Prop} {s t : State}

theorem capped (h : (system fsize).ReachableWhen ok s) : Capped s := by
  refine Program.invariant ?_ ?_ h
  · rintro s ⟨dev, hd, rfl⟩
    exact ⟨(setupChardrvs_ok hd).2.1, fun _ => trivial⟩
  · intro s c k e t _ hs _ he
    exact hs.step he

def LeavesIdsFree (s : State) : Prop := ∃ N, ∀ u, N ≤ u → s.pc u = .unstarted

/-- A run starts only finitely many calls. -/
theorem leavesIdsFree (h : (system fsize).ReachableWhen ok s) : LeavesIdsFree s := by
  refine Program.invariant ?_ ?_ h
  · rintro s ⟨dev, _, rfl⟩
    exact ⟨0, fun _ _ => rfl⟩
  · intro s c k e t _ hs _ he
    exact he.unstarted (fun e => by cases e <;> rfl) hs

/-- A writer that asks for more than the kfifo can hold keeps waiting. -/
structure Starving (c : ℕ) (buf : WriteBuf) (s : State) : Prop where
  waiting : Waiting buf (s.pc c)
  large : s.shared.myfifo.size < buf.count
  capped : Capped s

theorem Starving.step {c : ℕ} {buf : WriteBuf} {a : ℕ × Choice} (h : Starving c buf s)
    (hok : readsOnly a.2 = true) (hn : (system fsize).next s a = some t) : Starving c buf t := by
  obtain ⟨e, he⟩ := Program.step_of_next hn
  refine ⟨?_, ?_, h.capped.step he⟩
  · by_cases hc : c = a.1
    · -- the writer itself: its condition is false, and no signal may reach it
      have hedge := edge_of_step he
      have hw := h.waiting
      have hle := h.capped.copy
      have hlarge := h.large
      rw [← hc] at hedge
      generalize t.pc c = p' at hedge ⊢
      generalize a.2 = k at hedge hok
      rcases hw with hp | hp
      · rw [hp] at hedge
        cases hedge with
        | writePass _ ha => exact absurd ha (by omega)
        | writePark => exact .inr rfl
      · rw [hp] at hedge
        cases hedge with
        | signalPass | signalWait => cases hok
    · rw [he.others c hc]
      exact h.waiting.others e _
  · rw [he.shared, program_effect, effect_size]
    exact h.large

theorem not_servable_of_large {c : ℕ} {buf : WriteBuf} (h : Starving c buf s) :
    ¬Servable fsize s c buf := by
  rintro ⟨as, t, ret, hreads, hrun, hp⟩
  have hmeets : (system fsize).Meets (fun _ a => readsOnly a.2 = true) s as :=
    System.meets_of_forall (fun a ha _ => hreads a ha) s
  have ht := System.run_preserves (fun _ _ _ hs hok hn => Starving.step hs hok hn) hmeets hrun h
  rcases ht.waiting with hw | hw <;> cases hp.symm.trans hw

end Invariants

/-- How many moves a call needs until it gives its mutex back. -/
def rank : Pc → ℕ
  | .read _ .toUser => 4
  | .read _ (.consume _) => 3
  | .read _ (.wakeUp _) => 2
  | .read _ (.unlock _) => 1
  | .refresh _ _ .load => 3
  | .refresh _ _ (.store _) => 2
  | .refresh _ _ .unlock => 1
  | .poll _ _ _ .pollWait => 2
  | .poll _ _ _ .unlock => 1
  | _ => 0

/-- Inside `r_f_lock` and `lock` a call can always move on, and it takes no
further mutex before it leaves. -/
theorem inside_moves (dev : ChardrvsPrivDev) {m : Mutex} (hm : m ≠ .wFLock) {p : Pc}
    (h : holds m p = true) :
    ∃ e p', move dev .run p = some (e, p') ∧ (∀ m', e ≠ .acquire m') ∧
      (e = .release m ∨ holds m p' = true ∧ rank p' < rank p) := by
  unfold holds at h
  split at h
  · cases h
  · exact absurd rfl hm
  · cases h
  · rename_i r hr
    cases r with
    | lock => exact absurd rfl hr
    | toUser => exact ⟨_, _, rfl, nofun, .inr ⟨rfl, by simp [rank]⟩⟩
    | consume => exact ⟨_, _, rfl, nofun, .inr ⟨rfl, by simp [rank]⟩⟩
    | wakeUp => exact ⟨_, _, rfl, nofun, .inr ⟨rfl, by simp [rank]⟩⟩
    | unlock => exact ⟨_, _, rfl, nofun, .inl rfl⟩
  · cases h
  · rename_i r hr
    cases r with
    | lock => exact absurd rfl hr
    | load => exact ⟨_, _, rfl, nofun, .inr ⟨rfl, by simp [rank]⟩⟩
    | store => exact ⟨_, _, rfl, nofun, .inr ⟨rfl, by simp [rank]⟩⟩
    | unlock => exact ⟨_, _, rfl, nofun, .inl rfl⟩
  · exact ⟨_, _, rfl, nofun, .inr ⟨rfl, by simp [rank]⟩⟩
  · exact ⟨_, _, rfl, nofun, .inl rfl⟩
  · cases h

theorem effect_owner_none (c : ℕ) {e : Effect} (he : ∀ m', e ≠ .acquire m') (s : Shared)
    {m : Mutex} (h : s.owner m = none) : (effect c e s).owner m = none := by
  cases e with
  | acquire m' => exact absurd rfl (he m')
  | release m' =>
      show Function.update s.owner m' none m = none
      rw [Function.update_apply]
      split_ifs
      · rfl
      · exact h
  | _ => exact h

/-- Reads and running calls lead from one state to the other. -/
def Serves (fsize : BitVec 32) (s t : State) : Prop :=
  ∃ as, (∀ a ∈ as, readsOnly a.2 = true) ∧ (system fsize).run s as = some t

section Schedule
variable {fsize : BitVec 32} {s t u : State} {c : ℕ} {buf : WriteBuf}

theorem Serves.refl (s : State) : Serves fsize s s := ⟨[], nofun, rfl⟩

theorem Serves.trans (h : Serves fsize s t) (k : Serves fsize t u) : Serves fsize s u := by
  obtain ⟨as, has, hrun⟩ := h
  obtain ⟨bs, hbs, hrun'⟩ := k
  refine ⟨as ++ bs, fun a ha => ?_, System.run_trans _ hrun hrun'⟩
  exact (List.mem_append.mp ha).elim (has a) (hbs a)

theorem Serves.reachable (h : Serves fsize s t) (hs : (system fsize).Reachable s) :
    (system fsize).Reachable t := by
  obtain ⟨as, _, hrun⟩ := h
  exact hs.run hrun

theorem Serves.size (h : Serves fsize s t) : t.shared.myfifo.size = s.shared.myfifo.size := by
  obtain ⟨as, _, hrun⟩ := h
  refine System.run_preserves (I := fun u => u.shared.myfifo.size = s.shared.myfifo.size)
    (fun v a w hv _ hn => ?_) (System.meets_true s as) hrun rfl
  obtain ⟨e, he⟩ := Program.step_of_next hn
  rw [he.shared, program_effect, effect_size]
  exact hv

/-- One move of one call. -/
theorem Serves.move (fsize : BitVec 32) {d : ℕ} {k : Choice} {e : Effect} {p : Pc} (hk : readsOnly k = true)
    (hm : ChardrvsFifo.move s.shared.toChardrvsPrivDev k (s.pc d) = some (e, p)) :
    ∃ t, Serves fsize s t ∧ t.shared = effect d e s.shared ∧ t.pc d = p ∧
      ∀ u, u ≠ d → t.pc u = others e (s.pc u) := by
  refine ⟨⟨effect d e s.shared, Function.update (fun u => others e (s.pc u)) d p⟩,
    ⟨[(d, k)], ?_, ?_⟩, rfl, by simp only [Function.update_self], fun u hu => by
      simp only [Function.update_of_ne hu]⟩
  · rintro a (_ | ⟨_, ⟨⟩⟩)
    exact hk
  · rw [System.run_cons]
    exact Option.bind_eq_some_iff.mpr ⟨_, Program.next_of_move (P := program) hm, rfl⟩

/-- Several moves of one call. -/
theorem Serves.solo (fsize : BitVec 32) {d n : ℕ} {x : Shared} {p : Pc}
    (h : program.solo d .run n (s.shared, s.pc d) = some (x, p)) :
    ∃ t, Serves fsize s t ∧ t.shared = x ∧ t.pc d = p ∧
      ∀ Q : Pc → Prop, (∀ e p, Q p → Q (others e p)) → ∀ u, u ≠ d → Q (s.pc u) → Q (t.pc u) := by
  obtain ⟨t, hrun, ht⟩ := Program.run_of_solo (system fsize).start h
  exact ⟨t, ⟨_, fun a ha => (List.eq_of_mem_replicate ha) ▸ rfl, hrun⟩, ht⟩

/-- The call inside the mutex leaves it, and `c` goes on waiting. -/
theorem frees_of_holds {m : Mutex} (hm : m ≠ .wFLock) {d n : ℕ} (hn : rank (s.pc d) = n)
    (hw : Waiting buf (s.pc c)) (hd : holds m (s.pc d) = true) :
    ∃ t, Serves fsize s t ∧ Waiting buf (t.pc c) ∧ t.shared.owner m = none ∧
      ∀ m', s.shared.owner m' = none → t.shared.owner m' = none := by
  induction n using Nat.strongRecOn generalizing s with
  | _ n ih =>
      have hcd : c ≠ d := by
        rintro rfl
        simp [hw.not_holds hm] at hd
      obtain ⟨e, p', hmove, hacq, hend⟩ := inside_moves s.shared.toChardrvsPrivDev hm hd
      obtain ⟨t, hst, hshared, hpd, hothers⟩ := Serves.move fsize (k := .run) rfl hmove
      have hwt : Waiting buf (t.pc c) := hothers c hcd ▸ hw.others e _
      have hfree : ∀ m', s.shared.owner m' = none → t.shared.owner m' = none := fun m' hm' =>
        hshared ▸ effect_owner_none d hacq s.shared hm'
      rcases hend with rfl | ⟨hin, hlt⟩
      · refine ⟨t, hst, hwt, ?_, hfree⟩
        rw [hshared]
        exact effect_release_owner d m s.shared
      · obtain ⟨u, htu, hwu, hnone, hfree'⟩ :=
          ih (rank (t.pc d)) (hn ▸ hpd ▸ hlt) rfl hwt (hpd ▸ hin)
        exact ⟨u, hst.trans htu, hwu, hnone, fun m' hm' => hfree' m' (hfree m' hm')⟩

theorem frees (h : (system fsize).Reachable s) {m : Mutex} (hm : m ≠ .wFLock)
    (hw : Waiting buf (s.pc c)) :
    ∃ t, Serves fsize s t ∧ Waiting buf (t.pc c) ∧ t.shared.owner m = none ∧
      ∀ m', s.shared.owner m' = none → t.shared.owner m' = none := by
  cases ho : s.shared.owner m with
  | none => exact ⟨s, .refl s, hw, ho, fun _ h => h⟩
  | some d => exact frees_of_holds hm rfl hw (tight_of_ne h hm d ho)

/-- The tail of a transfer, alone on a free `lock`. -/
theorem solo_refresh (d : ℕ) (call : Call) (x : Transfer) {y : Shared} (hl : y.owner .lock = none) :
    ∃ z, program.solo d .run 4 (y, .refresh call x .lock) = some (z, .done call x.result) ∧
      z.avail = y.myfifo.avail ∧ z.owner .lock = none := by
  refine ⟨effect d (.release .lock) (effect d (.store y.myfifo.avail)
    (effect d (.acquire .lock) y)), ?_, rfl, effect_release_owner d .lock _⟩
  simp only [Program.solo, program_move, ChardrvsFifo.move, refreshAvail, if_pos hl]
  rfl

/-- A read with room for everything, up to its wake-up, alone on a free `r_f_lock`. -/
theorem solo_drain (d : ℕ) {y : Shared} (hr : y.owner .rFLock = none)
    (hle : y.myfifo.data.length ≤ y.myfifo.size) :
    ∃ z, program.solo d .run 3 (y, .read ⟨y.myfifo.size, y.myfifo.size⟩ .lock) =
        some (z, .read ⟨y.myfifo.size, y.myfifo.size⟩ (.wakeUp ⟨y.myfifo.data, 0⟩)) ∧
      z.myfifo.avail = y.myfifo.size ∧ z.owner .lock = y.owner .lock := by
  refine ⟨effect d (.consume y.myfifo.data) (effect d (.acquire .rFLock) y), ?_, ?_, ?_⟩
  · have hall := Kfifo.toUser_whole (f := y.myfifo) (b := ⟨y.myfifo.size, y.myfifo.size⟩) hle hle
    simp only [Program.solo, program_move, ChardrvsFifo.move, chardrvsReadFifo, if_pos hr]
    show some (effect d (.consume (y.myfifo.toUser _).bytes) _, Pc.read _ (.wakeUp (y.myfifo.toUser _))) = _
    rw [hall]
    rfl
  · show y.myfifo.size - (y.myfifo.data.drop y.myfifo.data.length).length = y.myfifo.size
    rw [List.drop_length]
    rfl
  · exact effect_owner d (.acquire .rFLock) y .lock (by simp) (by simp)

/-- A writer that finds its condition true, alone on a free `lock`. -/
theorem solo_write (d : ℕ) {y : Shared} {buf : WriteBuf} (hfit : buf.count ≤ y.avail)
    (hl : y.owner .lock = none) :
    ∃ z ret, program.solo d .run 8 (y, .write buf .wait) = some (z, .done (.write buf) ret) := by
  obtain ⟨z, hz, _⟩ := solo_refresh d (.write buf) (y.myfifo.fromUser buf)
    (y := effect d (.release .wFLock) (effect d (.publish (y.myfifo.fromUser buf).bytes) y))
    ((effect_owner d (.release .wFLock) _ .lock nofun nofun).trans hl)
  refine ⟨z, (y.myfifo.fromUser buf).result, ?_⟩
  rw [Program.solo]
  simp only [program_move, ChardrvsFifo.move, chardrvsWriteFifo, if_pos hfit]
  exact hz

/-- One new read empties the kfifo, wakes the writer and refreshes the copy. -/
theorem drains (h : (system fsize).Reachable s) (hw : Waiting buf (s.pc c))
    (hr : s.shared.owner .rFLock = none) (hl : s.shared.owner .lock = none) :
    ∃ t, Serves fsize s t ∧ t.pc c = .write buf .wait ∧
      t.shared.avail = s.shared.myfifo.size ∧ t.shared.owner .lock = none := by
  obtain ⟨d, hd⟩ := leavesIdsFree h
  replace hd := hd d (Nat.le_refl d)
  have hcd : c ≠ d := by
    rintro rfl
    rcases hw with hw | hw <;> cases hw.symm.trans hd
  obtain ⟨t₁, h₁, hs₁, hp₁, ho₁⟩ := Serves.move fsize (s := s) (d := d)
    (k := .call (.read ⟨s.shared.myfifo.size, s.shared.myfifo.size⟩)) rfl (by rw [hd]; rfl)
  have hw₁ : Waiting buf (t₁.pc c) := ho₁ c hcd ▸ hw
  obtain ⟨y, hy, hempty, hly⟩ := solo_drain d (y := s.shared) hr (bounded h).stored
  obtain ⟨t₂, h₂, hs₂, hp₂, ho₂⟩ := Serves.solo fsize (s := t₁) (d := d)
    (by rw [hs₁, hp₁]; exact hy)
  have hw₂ : Waiting buf (t₂.pc c) := ho₂ _ (fun e p => Waiting.others e p) c hcd hw₁
  obtain ⟨t₃, h₃, hs₃, hp₃, ho₃⟩ := Serves.move fsize (s := t₂) (d := d) (k := .run) rfl
    (by rw [hp₂]; rfl)
  -- the wake-up reaches the writer whether it is parked or awake
  have hc₃ : t₃.pc c = .write buf .wait := (ho₃ c hcd).trans hw₂.woken
  obtain ⟨z, hz, havail, hlz⟩ := solo_refresh d
    (.read ⟨s.shared.myfifo.size, s.shared.myfifo.size⟩) ⟨s.shared.myfifo.data, 0⟩
    (y := effect d (.release .rFLock) t₃.shared)
    ((effect_owner d (.release .rFLock) _ .lock nofun nofun).trans
      (hs₃ ▸ hs₂ ▸ hly.trans hl))
  obtain ⟨t₄, h₄, hs₄, _, ho₄⟩ := Serves.solo fsize (s := t₃) (d := d) (n := 5)
    (by rw [hp₃]; exact hz)
  refine ⟨t₄, ((h₁.trans h₂).trans h₃).trans h₄, ?_, ?_, hs₄ ▸ hlz⟩
  · refine ho₄ (fun p => p = .write buf .wait) (fun e p hp => ?_) c hcd hc₃
    rw [hp]
    cases e <;> rfl
  · rw [hs₄, havail]
    show t₃.shared.myfifo.avail = s.shared.myfifo.size
    rw [hs₃, hs₂]
    exact hempty

theorem servable_of_fits (h : (system fsize).Reachable s) (hw : Waiting buf (s.pc c))
    (hfit : buf.count ≤ s.shared.myfifo.size) : Servable fsize s c buf := by
  obtain ⟨t₁, h₁, hw₁, hl₁, _⟩ := frees h (m := .lock) nofun hw
  obtain ⟨t₂, h₂, hw₂, hr₂, hfree₂⟩ := frees (h₁.reachable h) (m := .rFLock) nofun hw₁
  have hst := h₁.trans h₂
  obtain ⟨t₃, h₃, hp₃, havail, hl₃⟩ := drains (hst.reachable h) hw₂ hr₂ (hfree₂ .lock hl₁)
  have hroom : buf.count ≤ t₃.shared.avail := by
    rw [havail, hst.size]
    exact hfit
  obtain ⟨z, ret, hz⟩ := solo_write c hroom hl₃
  obtain ⟨t₄, h₄, _, hp₄, _⟩ := Serves.solo fsize (s := t₃) (d := c)
    (by rw [hp₃]; exact hz)
  obtain ⟨as, hreads, hrun⟩ := (hst.trans h₃).trans h₄
  exact ⟨as, t₄, ret, hreads, hrun, hp₄⟩

/-- A waiting writer can be served by reads exactly when it asks for no more
than the kfifo can hold. -/
theorem servable_iff_fits (h : (system fsize).Reachable s) (hw : Waiting buf (s.pc c)) :
    Servable fsize s c buf ↔ buf.count ≤ s.shared.myfifo.size := by
  refine ⟨fun hserv => ?_, servable_of_fits h hw⟩
  by_contra hlarge
  exact not_servable_of_large ⟨hw, Nat.lt_of_not_le hlarge, capped h⟩ hserv

end Schedule

/-- A writer that asks for one byte more than the kfifo holds. -/
def oversizedWrite : List (ℕ × Choice) :=
  [(0, .call (.write ⟨List.replicate 17 1, 17⟩))] ++ steps 0 2

/-- A writer that finds the kfifo full of the bytes of another write. -/
def fullFifo : List (ℕ × Choice) :=
  [(0, .call (.write ⟨List.replicate 16 1, 16⟩))] ++ steps 0 9 ++
    [(1, .call (.write ⟨[2, 3], 2⟩))] ++ steps 1 2

theorem servable_iff_fits_fullFifo :
    ∃ s, (system defaultFsize).run (initial defaultDev) fullFifo = some s ∧
      s.pc 1 = .write ⟨[2, 3], 2⟩ .parked ∧
        (Servable defaultFsize s 1 ⟨[2, 3], 2⟩ ↔ 2 ≤ s.shared.myfifo.size) :=
  ⟨_, rfl, rfl, servable_iff_fits (System.Reachable.run (.start start_default)
    (show (system defaultFsize).run _ fullFifo = _ from rfl)) (.inr rfl)⟩

theorem not_servable_reachable :
    ¬∀ (fsize : BitVec 32) (s : State) (c : ℕ) (buf : WriteBuf), (system fsize).Reachable s →
      Waiting buf (s.pc c) → Servable fsize s c buf := by
  intro h
  obtain ⟨s, hrun, hp, hsize⟩ : ∃ s,
      (system defaultFsize).run (initial defaultDev) oversizedWrite = some s ∧
        s.pc 0 = .write ⟨List.replicate 17 1, 17⟩ .parked ∧ s.shared.myfifo.size = 16 :=
    ⟨_, rfl, rfl, rfl⟩
  have hr : (system defaultFsize).Reachable s := System.Reachable.run (.start start_default) hrun
  refine not_servable_of_large ⟨.inr hp, ?_, capped hr⟩ (h _ s 0 _ hr (.inr hp))
  rw [hsize]
  decide

/-- The call enters the driver and runs to its end without a pause, and all its
bytes are in the kfifo if they can be read. -/
def WritesAtOnce (fsize : BitVec 32) (dev : ChardrvsPrivDev) (c : ℕ) (buf : WriteBuf) : Prop :=
  ∃ t ret, (system fsize).run (initial dev) ((c, .call (.write buf)) :: steps c 9) = some t ∧
    t.pc c = .done (.write buf) ret ∧
      (buf.count ≤ buf.accessible → ret = buf.count ∧ t.shared.myfifo.data = buf.bytes)

section FirstWrite
variable {fsize : BitVec 32} {mem : Bool} {dev : ChardrvsPrivDev} {c : ℕ} {buf : WriteBuf}

theorem setupChardrvs_avail (h : setupChardrvs fsize mem = .ok dev) : dev.avail = fsize.toNat := by
  unfold setupChardrvs at h
  split at h
  · cases h
  · cases h
    rfl

/-- A write alone on free mutexes that finds its condition true. -/
theorem solo_whole_write (d : ℕ) (buf : WriteBuf) {y : Shared} (hw : y.owner .wFLock = none)
    (hl : y.owner .lock = none) (hfit : buf.count ≤ y.avail) :
    ∃ z, program.solo d .run 9 (y, .write buf .lock) =
        some (z, .done (.write buf) (y.myfifo.fromUser buf).result) ∧
      z.myfifo = y.myfifo.publish (y.myfifo.fromUser buf).bytes := by
  have hlock : (effect d (.release .wFLock) (effect d (.publish (y.myfifo.fromUser buf).bytes)
      (effect d (.acquire .wFLock) y))).owner .lock = none :=
    (effect_owner d (.release .wFLock) _ .lock nofun nofun).trans
      ((effect_owner d (.acquire .wFLock) y .lock (by simp) nofun).trans hl)
  refine ⟨effect d (.release .lock) (effect d (.store
    (y.myfifo.publish (y.myfifo.fromUser buf).bytes).avail) (effect d (.acquire .lock)
    (effect d (.release .wFLock) (effect d (.publish (y.myfifo.fromUser buf).bytes)
      (effect d (.acquire .wFLock) y))))), ?_, rfl⟩
  refine Program.solo_succ (if_pos hw) (Program.solo_succ (if_pos hfit) ?_)
  refine Program.solo_succ rfl (Program.solo_succ rfl (Program.solo_succ rfl ?_))
  exact Program.solo_succ (if_pos hlock) rfl

theorem writesAtOnce_of_le (h : setupChardrvs fsize mem = .ok dev)
    (hroom : buf.count ≤ dev.myfifo.avail) (hfit : buf.count ≤ fsize.toNat) :
    WritesAtOnce fsize dev c buf := by
  obtain ⟨hdata, -, -, howner⟩ := setupChardrvs_ok h
  obtain ⟨z, hz, hfifo⟩ := solo_whole_write c buf (y := { toChardrvsPrivDev := dev })
    (by rw [howner]) (by rw [howner]) (by rw [setupChardrvs_avail h]; exact hfit)
  have henter := Program.next_of_move (P := program) (s := initial dev) (c := c)
    (k := .call (.write buf)) (e := .skip) (p := .write buf .lock) rfl
  obtain ⟨t, hrun, hshared, hpc, -⟩ := Program.run_of_solo (P := program) (system fsize).start
    (s := ⟨{ toChardrvsPrivDev := dev }, Function.update (fun _ => .unstarted) c (.write buf .lock)⟩)
    (c := c) (by simpa only [Function.update_self] using hz)
  refine ⟨t, _, ?_, hpc, fun hacc => ?_⟩
  · rw [System.run_cons]
    exact Option.bind_eq_some_iff.mpr ⟨_, henter, hrun⟩
  · have hcopy : dev.myfifo.fromUser buf = ⟨buf.bytes, 0⟩ := by
      rw [Kfifo.fromUser, Nat.min_eq_left hroom, WriteBuf.count, List.take_length]
      exact copyUser_all hacc
    rw [hshared, hfifo, hcopy, Kfifo.publish_data, hdata]
    exact ⟨rfl, rfl⟩

/-- A write that finds its condition false sleeps. -/
theorem parks_of_lt (h : setupChardrvs fsize mem = .ok dev) (hlarge : fsize.toNat < buf.count) :
    (system fsize).run (initial dev) ((c, .call (.write buf)) :: steps c 9) = none := by
  obtain ⟨-, -, -, howner⟩ := setupChardrvs_ok h
  have hlt : ¬buf.count ≤ dev.avail := by
    rw [setupChardrvs_avail h]
    exact Nat.not_le.mpr hlarge
  have hlock : program.move { toChardrvsPrivDev := dev } .run (.write buf .lock) =
      some (.acquire .wFLock, .write buf .wait) := if_pos (by rw [howner])
  have hpark : program.move (program.effect c (.acquire .wFLock) { toChardrvsPrivDev := dev }) .run
      (.write buf .wait) = some (.skip, .write buf .parked) := if_neg hlt
  have hsolo : program.solo c .run 9 ({ toChardrvsPrivDev := dev }, .write buf .lock) = none :=
    Program.solo_succ hlock (Program.solo_succ hpark rfl)
  have hstuck := Program.run_of_solo_none (P := program) (system fsize).start (c := c) (k := .run)
    (n := 9) (s := ⟨{ toChardrvsPrivDev := dev },
      Function.update (fun _ => .unstarted) c (.write buf .lock)⟩)
    (by simpa only [Function.update_self] using hsolo)
  have henter := Program.next_of_move (P := program) (s := initial dev) (c := c)
    (k := .call (.write buf)) (e := .skip) (p := .write buf .lock) rfl
  rw [System.run_cons]
  refine Option.bind_eq_none_iff.mpr fun t ht => ?_
  obtain rfl : _ = t := Option.some.inj (henter.symm.trans ht)
  exact hstuck

/-- Right after `setup_chardrvs` a write that fits the empty kfifo is done at
once exactly if it also fits the module parameter. -/
theorem writesAtOnce_iff (fsize : BitVec 32) (mem : Bool) (dev : ChardrvsPrivDev) (c : ℕ)
    (buf : WriteBuf) (h : setupChardrvs fsize mem = .ok dev)
    (hroom : buf.count ≤ dev.myfifo.avail) :
    WritesAtOnce fsize dev c buf ↔ buf.count ≤ fsize.toNat := by
  refine ⟨fun hwrite => ?_, writesAtOnce_of_le h hroom⟩
  by_contra hlarge
  obtain ⟨t, ret, hrun, -⟩ := hwrite
  rw [parks_of_lt h (Nat.lt_of_not_le hlarge)] at hrun
  cases hrun

end FirstWrite

theorem writesAtOnce_iff_default :
    setupChardrvs defaultFsize true = .ok defaultDev ∧
      (WritesAtOnce defaultFsize defaultDev 0 ⟨[1, 2], 2⟩ ↔ 2 ≤ defaultFsize.toNat) :=
  ⟨rfl, writesAtOnce_iff defaultFsize true defaultDev 0 ⟨[1, 2], 2⟩ rfl (by decide)⟩

/-- With `fsize = 3` the kfifo has room for four bytes, and a write of four bytes sleeps. -/
theorem not_writesAtOnce :
    ¬∀ (fsize : BitVec 32) (mem : Bool) (dev : ChardrvsPrivDev) (c : ℕ) (buf : WriteBuf),
      setupChardrvs fsize mem = .ok dev → buf.count ≤ dev.myfifo.avail →
        WritesAtOnce fsize dev c buf := by
  intro h
  have hdev : setupChardrvs 3 true = .ok ⟨⟨4, []⟩, 3, fun _ => none⟩ := rfl
  obtain ⟨t, ret, hrun, -⟩ := h 3 true _ 0 ⟨[1, 2, 3, 4], 4⟩ hdev (by decide)
  rw [parks_of_lt hdev (by decide)] at hrun
  cases hrun

end LinuxDeviceDrivers.ChardrvsService
