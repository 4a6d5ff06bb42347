import LinuxDeviceDrivers.Gpiopulse

/-!
# Keeping the pulse alive

`enablepulse_store` arms the timer if the `long` it has parsed is not zero, the
callback arms it again if the `int` in the device data is not zero. The two
agree as long as a value that is not zero keeps a bit among its low 32; a
multiple of 2 ^ 32 starts a pulse that its first callback lets die.

The value in force is a history variable. A `store` that accepts its text takes
effect at its write of the flag, so of two overlapping calls the later one is
the one that writes later.
-/
namespace LinuxDeviceDrivers.Gpiopulse
open KernelPrimitives TransitionSystem ThreadProgram ThreadCount

section Statement
variable {bits : ℕ}

def lastAccepted (last : ℤ) : Pc bits → ℤ
  | .enablepulseStore _ (.assign v) => v.toInt
  | _ => last

variable (bits) in
/-- The device with the last accepted value, at first that of the device tree. -/
def watched : System (State bits × ℤ) (ℕ × Choice bits) :=
  (system bits).withHistory (fun s => s.shared.pltDataPrv.enablepulse.toInt)
    fun s a last => lastAccepted last (s.pc a.1)

def Idle (s : State bits) : Prop := ∀ u, cbkOf (s.pc u) = none ∧ storeOf (s.pc u) = none

def KeptAlive (x : State bits × ℤ) : Prop := Idle x.1 → x.2 ≠ 0 → x.1.shared.timer.isSome

/-- The device stays bound, and no value is written that only its truncation to
an `int` makes zero. -/
structure Untruncated (x : State bits × ℤ) (a : ℕ × Choice bits) : Prop where
  bound : a.2 ≠ .remove
  value : ∀ count v, x.1.pc a.1 = .enablepulseStore count (.assign v) → v ≠ 0 →
    v.setWidth 32 ≠ 0

end Statement

/-- The thread arms the timer at its next step, or will do so if it finds the
flag set. -/
def rearms {bits : ℕ} : Pc bits → Prop
  | .cbk st => st ≠ .finish
  | .enablepulseStore _ (.test v) => v ≠ 0
  | .enablepulseStore _ .loadPulsetime => True
  | .enablepulseStore _ (.modTimer _) => True
  | _ => False

section Edges
variable {bits : ℕ} {s : Shared} {k : Choice bits} {e : Effect} {p p' : Pc bits} {c : ℕ}

theorem not_rearms_of_idle (hcbk : cbkOf p = none) (hstore : storeOf p = none) : ¬rearms p := by
  cases p with
  | cbk => cases hcbk
  | enablepulseStore => cases hstore
  | _ => exact fun h => h

theorem unremoved_edge (h : Edge s k p e p') (hk : k ≠ .remove) (hp : ∀ st, p ≠ .remove st)
    (st : RemoveStage) : p' ≠ .remove st := by
  cases h with
  | unbind => exact absurd rfl hk
  | delTimer | removeFile | drain | returned => exact absurd rfl (hp _)
  | _ => nofun

/-- While the flag is set, a step arms the timer, leaves its thread on the way
to arming it, or was not part of what keeps the pulse alive. -/
theorem pulse_edge (h : Edge s k p e p') (hp : ∀ st, p ≠ .remove st)
    (hflag : (effect c e s).pltDataPrv.enablepulse ≠ 0) :
    (effect c e s).timer.isSome ∨ rearms p' ∨
      (effect c e s).timer = s.timer ∧ s.pltDataPrv.enablepulse ≠ 0 ∧ ¬rearms p := by
  cases h with
  | modTimer | storeModTimer => exact .inl rfl
  | expire | getValue | setValue | enabled | loadPulsetime =>
      exact .inr (.inl (by simp [rearms]))
  | storeLoad => exact .inr (.inl trivial)
  | storeNonzero => exact .inr (.inl trivial)
  | assignEnable count v =>
      refine .inr (.inl fun hv => hflag ?_)
      rw [hv]
      exact BitVec.setWidth_zero 32 bits
  | disabled hzero => exact absurd hzero hflag
  | delTimer => exact absurd rfl (hp _)
  | finish | storeZero => exact .inr (.inr ⟨rfl, hflag, fun h => h rfl⟩)
  | _ => exact .inr (.inr ⟨rfl, hflag, fun h => h⟩)

theorem flag_edge (h : Edge s k p e p') {last : ℤ}
    (hok : ∀ count v, p = .enablepulseStore count (.assign v) → v ≠ 0 → v.setWidth 32 ≠ 0)
    (hset : last ≠ 0 → s.pltDataPrv.enablepulse ≠ 0) (hne : lastAccepted last p ≠ 0) :
    (effect c e s).pltDataPrv.enablepulse ≠ 0 := by
  cases h with
  | assignEnable count v =>
      have hv : v ≠ 0 := by
        rintro rfl
        exact hne BitVec.toInt_zero
      exact hok count v rfl hv
  | _ => exact hset hne

end Edges

/-- What keeps the pulse alive: the flag follows the value in force, and while
it is set the timer is pending or some thread is on the way to arming it. -/
structure Alive {bits : ℕ} (x : State bits × ℤ) : Prop where
  unremoved : ∀ u st, x.1.pc u ≠ .remove st
  flag : x.2 ≠ 0 → x.1.shared.pltDataPrv.enablepulse ≠ 0
  pulse : x.1.shared.pltDataPrv.enablepulse ≠ 0 → x.1.shared.timer.isSome ∨ ∃ u, rearms (x.1.pc u)

section Runs
variable {bits : ℕ} {x y : State bits × ℤ} {c : ℕ} {k : Choice bits} {e : Effect}

theorem Alive.step (h : Alive x) (hok : Untruncated x (c, k))
    (he : (program bits).Step x.1 c k e y.1) (hlast : y.2 = lastAccepted x.2 (x.1.pc c)) :
    Alive y := by
  have hedge := edge_of_step he
  have hshared : y.1.shared = effect c e x.1.shared := he.shared
  refine ⟨?_, ?_, ?_⟩
  · exact he.forall_pc (Q := fun p => ∀ st, p ≠ .remove st) h.unremoved
      (unremoved_edge hedge hok.bound (h.unremoved c)) (fun _ hp => hp)
  · rw [hshared, hlast]
    exact flag_edge hedge hok.value h.flag
  · intro hflag
    rw [hshared] at hflag ⊢
    rcases pulse_edge hedge (h.unremoved c) hflag with ht | hp' | ⟨ht, hset, hp⟩
    · exact .inl ht
    · exact .inr ⟨c, hp'⟩
    · rw [ht]
      rcases h.pulse hset with hpending | ⟨u, hu⟩
      · exact .inl hpending
      · have hne : u ≠ c := by
          rintro rfl
          exact hp hu
        exact .inr ⟨u, by rw [he.others u hne]; exact hu⟩

theorem alive (h : (watched bits).ReachableWhen Untruncated x) : Alive x := by
  refine h.invariant ?_ ?_
  · rintro ⟨s, last⟩ ⟨⟨dt, hs⟩, hlast⟩
    obtain rfl : s = probed bits dt := hs
    obtain rfl : last = dt.enablepulse.toInt := hlast
    refine ⟨nofun, fun hne hzero => hne ?_, fun _ => .inl rfl⟩
    obtain hzero : dt.enablepulse = 0 := hzero
    show dt.enablepulse.toInt = 0
    rw [hzero]
    exact BitVec.toInt_zero
  · intro x a y _ hx hok hn
    obtain ⟨hstep, hlast⟩ := System.withHistory_next.mp hn
    obtain ⟨e, he⟩ := Program.step_of_next hstep
    exact hx.step hok he hlast

/-- For every width of `long` and every interleaving, an enabled device that is
idle has its timer pending, if no written value is zero only as an `int`. -/
theorem keptAlive_of_untruncated (h : (watched bits).ReachableWhen Untruncated x) :
    KeptAlive x := by
  intro hidle hne
  have halive := alive h
  rcases halive.pulse (halive.flag hne) with ht | ⟨u, hu⟩
  · exact ht
  · exact absurd hu (not_rearms_of_idle (hidle u).1 (hidle u).2)

end Runs

def storeThenPulse {bits : ℕ} (v : BitVec bits) (n : ℕ) : List (ℕ × Choice bits) :=
  (0, .enablepulseStore 11 (.ok v)) :: steps 0 6 ++ (1, .expire) :: steps 1 n

theorem bound_storeThenPulse {bits : ℕ} (v : BitVec bits) (n : ℕ) :
    ∀ a ∈ storeThenPulse v n, a.2 ≠ .remove := by
  simp only [storeThenPulse, steps, List.mem_cons, List.mem_append, List.mem_replicate]
  rintro a ((rfl | ⟨-, rfl⟩) | rfl | ⟨-, rfl⟩) <;> simp

def keepsBits {bits : ℕ} (x : State bits × ℤ) (a : ℕ × Choice bits) : Bool :=
  (match a.2 with
    | .remove => false
    | _ => true) &&
  match x.1.pc a.1 with
  | .enablepulseStore _ (.assign v) => v = 0 || v.setWidth 32 ≠ 0
  | _ => true

theorem untruncated_of_keepsBits {bits : ℕ} {x : State bits × ℤ} {a : ℕ × Choice bits}
    (h : keepsBits x a = true) : Untruncated x a := by
  obtain ⟨hbound, hvalue⟩ := Bool.and_eq_true_iff.mp h
  refine ⟨fun hk => ?_, fun count v hp hv => ?_⟩
  · rw [hk] at hbound
    cases hbound
  · simp only [hp, Bool.or_eq_true, decide_eq_true_eq] at hvalue
    exact hvalue.resolve_left hv

theorem idle_of_counts {bits : ℕ} {s : State bits} (h : (system bits).Reachable s)
    (hr : s.shared.running = none) (ha : ∀ a, s.shared.active a = 0) : Idle s := by
  intro u
  constructor
  · by_contra hu
    have howner : s.shared.running = some u :=
      callback_exclusive h u (Option.isSome_iff_ne_none.mpr hu)
    exact absurd (hr.symm.trans howner) nofun
  · by_contra hu
    obtain ⟨a, hstore⟩ := Option.ne_none_iff_exists'.mp hu
    have hcount := activeCounted h a
    rw [ha a] at hcount
    exact hcount.nobody u hstore

/-- 2 ^ 32 + 1 is one as an `int`. -/
theorem keptAlive_of_untruncated_long :
    ∃ x, (watched 64).run (probed 64 ⟨0, 500⟩, 0) (storeThenPulse 4294967297 6) = some x ∧
      x.2 = 4294967297 ∧ Idle x.1 ∧ x.1.shared.timer = some 500 ∧ KeptAlive x := by
  obtain ⟨x, hrun, hlast, htimer, hidle, hactive⟩ : ∃ x,
      (watched 64).run (probed 64 ⟨0, 500⟩, 0) (storeThenPulse 4294967297 6) = some x ∧
        x.2 = 4294967297 ∧ x.1.shared.timer = some 500 ∧ x.1.shared.running = none ∧
          ∀ a, x.1.shared.active a = 0 :=
    ⟨_, rfl, rfl, rfl, rfl, fun a => by cases a <;> rfl⟩
  have hok : (watched 64).Meets Untruncated (probed 64 ⟨0, 500⟩, 0) (storeThenPulse 4294967297 6) :=
    System.meets_of_passes (I := fun _ => True) (fun _ _ _ => untruncated_of_keepsBits)
      (fun _ _ _ _ _ _ => trivial) trivial (by decide)
  have hx : (watched 64).ReachableWhen Untruncated x := .run (.start ⟨⟨_, rfl⟩, rfl⟩) hok hrun
  exact ⟨x, hrun, hlast, idle_of_counts (hx.forget fun _ _ _ => trivial) hidle hactive, htimer,
    keptAlive_of_untruncated hx⟩

/-- 2 ^ 32 is a `long` that is not zero, and the `int` zero. -/
theorem not_keptAlive_pow :
    ¬∀ (bits : ℕ) (x : State bits × ℤ),
      (watched bits).ReachableWhen (fun _ a => a.2 ≠ .remove) x → KeptAlive x := by
  intro h
  obtain ⟨x, hrun, hlast, htimer, hidle, hactive⟩ : ∃ x,
      (watched 64).run (probed 64 ⟨0, 500⟩, 0) (storeThenPulse 4294967296 4) = some x ∧
        x.2 = 4294967296 ∧ x.1.shared.timer = none ∧ x.1.shared.running = none ∧
          ∀ a, x.1.shared.active a = 0 :=
    ⟨_, rfl, rfl, rfl, rfl, fun a => by cases a <;> rfl⟩
  have hx : (watched 64).ReachableWhen (fun _ a => a.2 ≠ .remove) x :=
    .run (.start ⟨⟨_, rfl⟩, rfl⟩)
      (System.meets_of_forall (fun a ha _ => bound_storeThenPulse _ 4 a ha) _) hrun
  have hpending : x.1.shared.timer.isSome :=
    h 64 x hx (idle_of_counts (hx.forget fun _ _ _ => trivial) hidle hactive) (by omega)
  rw [htimer] at hpending
  cases hpending

end LinuxDeviceDrivers.Gpiopulse
