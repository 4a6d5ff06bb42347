import LinuxDeviceDrivers.ChardrvsAvail

/-!
# Sleepers of the chardrvs driver

A reader calls `wake_up_interruptible` right after it has taken bytes out of
the kfifo, but `dev->avail`, on which writers and pollers wait, changes only at
the very end of the call. A sleeper that is woken in between finds the old
value and parks again, and nobody wakes it when the new value is stored.

What holds of every run is that the wake-up covers a store that comes before
it: as long as each store either leaves the sleepers' conditions false or comes
while some reader is still to wake them, nobody sleeps on a true condition once
the calls under way have refreshed.
-/
namespace LinuxDeviceDrivers.ChardrvsWakeup
open KernelPrimitives TransitionSystem ThreadProgram ChardrvsFifo ChardrvsStream ChardrvsAvail

/-- A call that is parked on `wq_f` waits for something that is false. -/
def Asleep (avail : ℕ) : Pc → Prop
  | .write buf .parked => avail < buf.count
  | .poll _ _ _ .parked => avail = 0
  | _ => True

/-- A read that has changed the kfifo and has not called `wake_up_interruptible`. -/
def waking : Pc → Bool
  | .read _ (.wakeUp _) => true
  | _ => false

/-- No call is between its kfifo operation and its store to `dev->avail`. -/
def Settled (s : State) : Prop :=
  ∀ c, unloaded (s.pc c) = none ∧ loaded (s.pc c) = none

/-- A store to `dev->avail` makes no parked call's condition true, unless a
reader is still to wake the queue. -/
def StoresCovered (s : State) (a : ℕ × Choice) : Prop :=
  ∀ call x v, a.2 = .run → s.pc a.1 = .refresh call x (.store v) →
    (∃ r, waking (s.pc r) = true) ∨ ∀ c, Asleep v (s.pc c)

/-- A poller that has been through `poll_wait` is on the queue. -/
def OnQueue : Pc → Prop
  | .poll q _ _ .unlock | .poll q _ _ .check | .poll q _ _ .parked => q = true
  | _ => True

theorem onQueue_edge {dev : ChardrvsPrivDev} {k : Choice} {p p' : Pc} {e : Effect}
    (h : Edge dev k p e p') (hp : OnQueue p) : OnQueue p' := by
  cases h with
  | enter c => cases c <;> trivial
  | pollWait => exact rfl
  | pollUnlock | pollPark => exact hp
  | _ => trivial

theorem OnQueue.others {p : Pc} (e : Effect) (h : OnQueue p) : OnQueue (others e p) := by
  refine others_of_woken e h ?_
  unfold Pc.woken
  split
  · trivial
  · trivial
  · rename_i r _
    cases r <;> trivial
  · exact h

/-- A wake-up leaves nobody parked. -/
theorem asleep_woken {p : Pc} (h : OnQueue p) (avail : ℕ) : Asleep avail p.woken := by
  unfold Pc.woken
  split
  · trivial
  · trivial
  · rename_i r hr
    cases r with
    | parked => exact absurd rfl hr
    | _ => trivial
  · rename_i hwrite hpoll _
    unfold Asleep
    split
    · exact absurd rfl (hwrite _)
    · cases (show _ = true from h)
      exact absurd rfl (hpoll _ _)
    · trivial

theorem waking_others (e : Effect) (p : Pc) : waking (others e p) = waking p := by
  refine others_of_woken (I := fun q => waking q = waking p) e rfl ?_
  unfold Pc.woken
  split <;> rfl

/-- Some reader is still to wake the queue, or nobody sleeps on a true condition. -/
def Watched (s : State) : Prop :=
  (∃ r, waking (s.pc r) = true) ∨ ∀ c, Asleep s.shared.avail (s.pc c)

/-- A move that touches neither `dev->avail` nor the queue parks its call only
on a false condition. -/
theorem asleep_edge {dev : ChardrvsPrivDev} {k : Choice} {p p' : Pc} {e : Effect}
    (h : Edge dev k p e p') : Asleep dev.avail p' := by
  cases h with
  | enter c => cases c <;> trivial
  | writePark buf ha => exact ha
  | pollPark q ha => exact ha
  | _ => trivial

theorem waking_edge {dev : ChardrvsPrivDev} {k : Choice} {p p' : Pc} {e : Effect}
    (h : Edge dev k p e p') (hp : waking p = true) : e = .wakeUp := by
  cases h <;> first | rfl | cases hp

section Step
variable {s t : State} {c : ℕ} {k : Choice} {e : Effect}

theorem Watched.wakeUp (hq : ∀ u, OnQueue (s.pc u)) (he : program.Step s c k .wakeUp t) :
    Watched t := by
  right
  refine he.forall_threads hq ?_ fun u _ hu => asleep_woken hu _
  rw [he.shared]
  exact asleep_edge (edge_of_step he)

theorem waking_kept (he : program.Step s c k e t) (hne : e ≠ .wakeUp)
    (h : ∃ r, waking (s.pc r) = true) : ∃ r, waking (t.pc r) = true := by
  obtain ⟨r, hr⟩ := h
  have hrc : r ≠ c := by
    rintro rfl
    exact hne (waking_edge (edge_of_step he) hr)
  exact ⟨r, by rw [he.others r hrc, program_others, waking_others, hr]⟩

/-- A store keeps the watch exactly by its condition. -/
theorem Watched.store {v : ℕ} (hok : StoresCovered s (c, k)) (he : program.Step s c k (.store v) t) :
    Watched t := by
  obtain ⟨hk, call, x, hp, hp'⟩ := edge_store (edge_of_step he)
  refine (hok call x v hk hp).imp (waking_kept he nofun) fun hasleep => ?_
  rw [he.shared]
  refine he.forall_threads hasleep ?_ fun u _ hu => hu
  rw [hp']
  trivial

theorem Watched.step (hq : ∀ u, OnQueue (s.pc u)) (h : Watched s) (hok : StoresCovered s (c, k))
    (he : program.Step s c k e t) : Watched t := by
  cases e with
  | wakeUp => exact .wakeUp hq he
  | store v => exact .store hok he
  | skip | acquire _ | release _ | publish _ | consume _ =>
      refine h.imp (waking_kept he nofun) fun hasleep => ?_
      have havail : t.shared.avail = s.shared.avail := by
        rw [he.shared]
        rfl
      rw [havail]
      exact he.forall_threads hasleep (asleep_edge (edge_of_step he)) fun u _ hu => hu

end Step

section Runs
variable {fsize : BitVec 32} {ok : State → ℕ × Choice → Prop} {s : State}

def AllOnQueue (s : State) : Prop := ∀ c, OnQueue (s.pc c)

theorem allOnQueue (h : (system fsize).ReachableWhen ok s) : AllOnQueue s := by
  refine Program.invariant ?_ ?_ h
  · rintro s ⟨dev, _, rfl⟩ c
    trivial
  · intro s c k e t _ hs _ he
    exact he.forall_threads hs (onQueue_edge (edge_of_step he) (hs c)) fun u _ hu => hu.others e

theorem watched (h : (system fsize).ReachableWhen StoresCovered s) : Watched s := by
  refine Program.invariant ?_ ?_ h
  · rintro s ⟨dev, _, rfl⟩
    exact .inr fun _ => trivial
  · intro s c k e t hr hs hok he
    exact hs.step (allOnQueue hr) hok he

end Runs

instance (avail : ℕ) (p : Pc) : Decidable (Asleep avail p) := by
  unfold Asleep
  split <;> infer_instance

end LinuxDeviceDrivers.ChardrvsWakeup
