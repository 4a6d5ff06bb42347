import LinuxDeviceDrivers.KernelPrimitives
import LinuxDeviceDrivers.ThreadCount

/-!
# The user limit of the chardrvs driver

`chardrvs_open` reads `ref_cntr`, compares it with `usrs_cnt` and increments it
in a separate atomic operation; `chardrvs_release` reads it and decrements it.
Every file handle is a thread: it is opened, may set `usrs_cnt` through the
ioctl, and is released once.

An open that has passed the test and has not incremented the counter yet is
invisible to every other open. The limit is kept in the runs in which each open
that passes would also have passed with these opens counted.
-/
namespace LinuxDeviceDrivers.ChardrvsUsers
open KernelPrimitives TransitionSystem ThreadProgram ThreadCount

/-- The fields of `struct chardrvs_priv_dev` that limit the users. -/
structure UserCount where
  refCntr : BitVec 32
  usrsCnt : BitVec 32
deriving DecidableEq, Repr

inductive Pc where
  | unstarted | openInc | opened | releaseDec | closed
  | failed (ret : ℤ)
deriving DecidableEq, Repr

inductive Choice where
  | openFile | run | release
  | setNrUsers (nr : BitVec 32)
deriving DecidableEq, Repr

inductive Effect where
  | skip | inc | dec
  | setUsrs (nr : BitVec 32)
deriving DecidableEq, Repr

/-- The test of `chardrvs_open`: an `int` compared with an `unsigned int`. -/
def chardrvsOpen (dev : UserCount) : Pc :=
  if dev.usrsCnt ≤ dev.refCntr then .failed (-EMFILE) else .openInc

/-- The test of `chardrvs_release`, a comparison of `int`. -/
def chardrvsRelease (dev : UserCount) : Pc :=
  if 0 < dev.refCntr.toInt then .releaseDec else .closed

def move (dev : UserCount) : Choice → Pc → Option (Effect × Pc)
  | .openFile, .unstarted => some (.skip, chardrvsOpen dev)
  | .run, .openInc => some (.inc, .opened)
  | .setNrUsers nr, .opened => some (.setUsrs nr, .opened)
  | .release, .opened => some (.skip, chardrvsRelease dev)
  | .run, .releaseDec => some (.dec, .closed)
  | _, _ => none

def effect : Effect → UserCount → UserCount
  | .skip, dev => dev
  | .inc, dev => { dev with refCntr := dev.refCntr + 1 }
  | .dec, dev => { dev with refCntr := dev.refCntr - 1 }
  | .setUsrs nr, dev => { dev with usrsCnt := nr }

def program : Program UserCount Choice Effect Pc where
  move := move
  effect _ := effect
  others _ p := p

abbrev State := Config UserCount Pc

/-- Any number of handles on a device with user limit `k`, none open yet. -/
def initial (k : BitVec 32) : State := ⟨⟨0, k⟩, fun _ => .unstarted⟩

def system (k : BitVec 32) : System State (ℕ × Choice) := program.system fun s => s = initial k

inductive Edge (dev : UserCount) : Choice → Pc → Effect → Pc → Prop
  | refuse : dev.usrsCnt ≤ dev.refCntr → Edge dev .openFile .unstarted .skip (.failed (-EMFILE))
  | accept : dev.refCntr < dev.usrsCnt → Edge dev .openFile .unstarted .skip .openInc
  | inc : Edge dev .run .openInc .inc .opened
  | setUsrs (nr : BitVec 32) : Edge dev (.setNrUsers nr) .opened (.setUsrs nr) .opened
  | release : 0 < dev.refCntr.toInt → Edge dev .release .opened .skip .releaseDec
  | releaseZero : dev.refCntr.toInt ≤ 0 → Edge dev .release .opened .skip .closed
  | dec : Edge dev .run .releaseDec .dec .closed

theorem edge_of_open (dev : UserCount) : Edge dev .openFile .unstarted .skip (chardrvsOpen dev) := by
  unfold chardrvsOpen
  split_ifs with hlim
  · exact .refuse hlim
  · exact .accept (BitVec.not_le.mp hlim)

theorem edge_of_release (dev : UserCount) : Edge dev .release .opened .skip (chardrvsRelease dev) := by
  unfold chardrvsRelease
  split_ifs with hpos
  · exact .release hpos
  · exact .releaseZero (Int.not_lt.mp hpos)

theorem edge_of_move {dev : UserCount} {k : Choice} {p p' : Pc} {e : Effect}
    (h : move dev k p = some (e, p')) : Edge dev k p e p' := by
  cases k with
  | openFile =>
      cases p with
      | unstarted =>
          obtain ⟨he, hp⟩ := Prod.mk.inj (Option.some.inj h)
          rw [← he, ← hp]
          exact edge_of_open dev
      | _ => cases h
  | run =>
      cases p with
      | openInc => cases h; exact .inc
      | releaseDec => cases h; exact .dec
      | _ => cases h
  | release =>
      cases p with
      | opened =>
          obtain ⟨he, hp⟩ := Prod.mk.inj (Option.some.inj h)
          rw [← he, ← hp]
          exact edge_of_release dev
      | _ => cases h
  | setNrUsers nr =>
      cases p with
      | opened => cases h; exact .setUsrs nr
      | _ => cases h

theorem edge_of_step {s t : State} {c : ℕ} {k : Choice} {e : Effect} (h : program.Step s c k e t) :
    Edge s.shared k (s.pc c) e (t.pc c) :=
  edge_of_move h.move

/-- An open between its test and its increment. -/
def inFlight (p : Pc) : Prop := p = .openInc

/-- A handle that `ref_cntr` counts: its open has incremented it and its release
has not decremented it. -/
def holding (p : Pc) : Prop := p = .opened ∨ p = .releaseDec

/-- Nobody changes `usrs_cnt`. -/
def Fixed (a : ℕ × Choice) : Prop := ∀ nr, a.2 ≠ .setNrUsers nr

/-- An open that passes the test would pass it with the opens counted that have
passed before and are still to increment the counter. -/
def OpensCounted (s : State) (a : ℕ × Choice) : Prop :=
  a.2 = .openFile → s.pc a.1 = .unstarted → s.shared.refCntr < s.shared.usrsCnt →
    ∀ n, Counted inFlight s n → s.shared.refCntr.toNat + n < s.shared.usrsCnt.toNat

/-- The handles and the opens under way fit the limit, and the counter does not
lose a handle. -/
def Admission (k : BitVec 32) (s : State) : Prop :=
  s.shared.usrsCnt = k ∧ ∃ i h, Counted inFlight s i ∧ Counted holding s h ∧
    s.shared.refCntr.toNat + i ≤ k.toNat ∧ h ≤ s.shared.refCntr.toNat

section Runs
variable {k : BitVec 32} {s t : State}

theorem others_id (Q : Pc → Prop) (e : Effect) (p : Pc) : Q (program.others e p) ↔ Q p := Iff.rfl

theorem inc_toNat {b : BitVec 32} (h : b.toNat + 1 < 2 ^ 32) : (b + 1).toNat = b.toNat + 1 := by
  rw [BitVec.toNat_add]
  exact Nat.mod_eq_of_lt h

theorem dec_toNat {b : BitVec 32} (h : 0 < b.toNat) : (b - 1).toNat = b.toNat - 1 := by
  have hb := b.isLt
  have hone : (1 : BitVec 32).toNat = 1 := by decide
  rw [BitVec.toNat_sub, hone]
  omega

theorem Admission.step {c : ℕ} {x : Choice} {e : Effect} (hs : Admission k s) (hf : Fixed (c, x))
    (hok : OpensCounted s (c, x)) (he : program.Step s c x e t) : Admission k t := by
  obtain ⟨hk, i, n, hi, hn, hlim, hcount⟩ := hs
  have hshared : t.shared = effect e s.shared := he.shared
  have hedge := edge_of_step he
  generalize hp : s.pc c = p at hedge
  generalize hp' : t.pc c = p' at hedge
  cases hedge with
  | refuse =>
      refine ⟨hshared ▸ hk, i, n, hi.stay (others_id _) he ?_, hn.stay (others_id _) he ?_,
        hshared ▸ hlim, hshared ▸ hcount⟩ <;> simp [hp, hp', inFlight, holding]
  | accept hlt =>
      have hroom := hok rfl hp hlt i hi
      refine ⟨hshared ▸ hk, i + 1, n, hi.enter (others_id _) he ?_ ?_,
        hn.stay (others_id _) he ?_, ?_, hshared ▸ hcount⟩
      · simp [hp, inFlight]
      · simp [hp', inFlight]
      · simp [hp, hp', holding]
      · rw [hshared, ← hk]
        exact hroom
  | inc =>
      obtain ⟨m, rfl, hm⟩ := hi.leave (others_id _) he hp (by simp [hp', inFlight])
      have hmax := k.isLt
      have hadd := inc_toNat (b := s.shared.refCntr) (by omega)
      refine ⟨hshared ▸ hk, m, n + 1, hm, hn.enter (others_id _) he ?_ ?_, ?_, ?_⟩
      · simp [hp, holding]
      · simp [hp', holding]
      · rw [hshared]
        show (s.shared.refCntr + 1).toNat + m ≤ k.toNat
        omega
      · rw [hshared]
        show n + 1 ≤ (s.shared.refCntr + 1).toNat
        omega
  | setUsrs nr => exact absurd rfl (hf nr)
  | release =>
      refine ⟨hshared ▸ hk, i, n, hi.stay (others_id _) he ?_, hn.stay (others_id _) he ?_,
        hshared ▸ hlim, hshared ▸ hcount⟩ <;> simp [hp, hp', inFlight, holding]
  | releaseZero =>
      obtain ⟨m, rfl, hm⟩ := hn.leave (others_id _) he (.inl hp) (by simp [hp', holding])
      refine ⟨hshared ▸ hk, i, m, hi.stay (others_id _) he ?_, hm, hshared ▸ hlim, ?_⟩
      · simp [hp, hp', inFlight]
      · rw [hshared]
        exact Nat.le_trans (Nat.le_succ m) hcount
  | dec =>
      obtain ⟨m, rfl, hm⟩ := hn.leave (others_id _) he (.inr hp) (by simp [hp', holding])
      have hsub := dec_toNat (b := s.shared.refCntr) (by omega)
      refine ⟨hshared ▸ hk, i, m, hi.stay (others_id _) he ?_, hm, ?_, ?_⟩
      · simp [hp, hp', inFlight]
      · rw [hshared]
        show (s.shared.refCntr - 1).toNat + i ≤ k.toNat
        omega
      · rw [hshared]
        show m ≤ (s.shared.refCntr - 1).toNat
        omega

theorem admission (h : (system k).ReachableWhen (fun s a => Fixed a ∧ OpensCounted s a) s) :
    Admission k s := by
  refine Program.invariant ?_ ?_ h
  · rintro s rfl
    exact ⟨rfl, 0, 0, counted_zero nofun, counted_zero nofun, Nat.zero_le _, Nat.zero_le _⟩
  · intro s c k e t _ hs hok he
    exact hs.step hok.1 hok.2 he

/-- With a fixed limit and every admission counted, no more handles are open at
the same time than the limit allows. -/
theorem opened_le_limit (h : (system k).ReachableWhen (fun s a => Fixed a ∧ OpensCounted s a) s) :
    {c | s.pc c = .opened}.encard ≤ k.toNat := by
  obtain ⟨_, i, n, _, hn, hlim, hcount⟩ := admission h
  have hle := hn.encard_le (R := fun p => p = .opened) fun p hp => .inl hp
  refine hle.trans ?_
  exact_mod_cast (show n ≤ k.toNat by omega)

end Runs

instance : DecidablePred inFlight := fun _ => inferInstanceAs (Decidable (_ = _))

/-- No ioctl sets the limit, and an open finds room with the handles below `N`
counted that are under way. -/
def admitsBelow (N : ℕ) (s : State) (a : ℕ × Choice) : Bool :=
  match a.2 with
  | .setNrUsers _ => false
  | .openFile =>
      decide (s.shared.usrsCnt ≤ s.shared.refCntr ∨
        s.shared.refCntr.toNat + ((Finset.range N).filter fun c => inFlight (s.pc c)).card <
          s.shared.usrsCnt.toNat)
  | _ => true

theorem opensCounted_of_below {N : ℕ} {s : State} {a : ℕ × Choice}
    (hrest : ∀ u, N ≤ u → s.pc u = .unstarted) (h : admitsBelow N s a = true) :
    Fixed a ∧ OpensCounted s a := by
  have hbelow : Counted inFlight s ((Finset.range N).filter fun c => inFlight (s.pc c)).card :=
    counted_below fun c hc => by
      rw [hrest c hc]
      exact nofun
  refine ⟨fun nr hset => ?_, fun hopen _ hlt n hn => ?_⟩
  · rw [admitsBelow, hset] at h
    cases h
  · rw [hn.unique hbelow]
    simp only [admitsBelow, hopen, decide_eq_true_eq] at h
    exact h.resolve_left (BitVec.not_le.mpr hlt)

/-- Two opens overlap and fill the limit of two. A third one is refused, one
handle is released while a fourth open is refused, and a fifth open gets in. -/
def overlappingOpens : List (ℕ × Choice) :=
  [(0, .openFile), (1, .openFile), (1, .run), (0, .run), (2, .openFile), (0, .release),
    (3, .openFile), (0, .run), (4, .openFile), (4, .run)]

theorem opened_le_limit_overlappingOpens :
    ∃ s, (system 2).run (initial 2) overlappingOpens = some s ∧ s.pc 0 = .closed ∧
      s.pc 1 = .opened ∧ s.pc 2 = .failed (-EMFILE) ∧ s.pc 4 = .opened ∧
        {c | s.pc c = .opened}.encard ≤ (2 : BitVec 32).toNat := by
  have hmeets : (system 2).Meets (fun s a => Fixed a ∧ OpensCounted s a) (initial 2)
      overlappingOpens :=
    Program.meets_of_passes (N := 5) (fun _ => rfl) (fun _ _ => opensCounted_of_below)
      (fun _ _ => rfl) (by decide) rfl
  exact ⟨_, rfl, rfl, rfl, rfl, rfl,
    opened_le_limit (System.ReachableWhen.run (.start rfl) hmeets rfl)⟩

/-- Two processes open the device and both test before either increments. -/
def racingOpens : List (ℕ × Choice) := [(0, .openFile), (1, .openFile), (0, .run), (1, .run)]

theorem not_opened_le_limit :
    ¬∀ (k : BitVec 32) (s : State), (system k).ReachableWhen (fun _ a => Fixed a) s →
      {c | s.pc c = .opened}.encard ≤ k.toNat := by
  intro h
  obtain ⟨s, hrun, h₀, h₁⟩ : ∃ s, (system 1).run (initial 1) racingOpens = some s ∧
      s.pc 0 = .opened ∧ s.pc 1 = .opened := ⟨_, rfl, rfl, rfl⟩
  have hfixed : (system 1).Meets (fun _ a => Fixed a) (initial 1) racingOpens := by
    refine System.meets_of_forall (fun a ha _ nr hnr => ?_) _
    simp only [racingOpens, List.mem_cons, List.not_mem_nil, or_false] at ha
    rcases ha with rfl | rfl | rfl | rfl <;> cases hnr
  have hle := h 1 s (System.ReachableWhen.run (.start rfl) hfixed hrun)
  have htwo : ({0, 1} : Set ℕ).encard ≤ {c | s.pc c = .opened}.encard := by
    refine Set.encard_le_encard ?_
    rintro c (rfl | rfl)
    · exact h₀
    · exact h₁
  rw [Set.encard_pair (by decide)] at htwo
  exact absurd (htwo.trans hle) (by decide)

end LinuxDeviceDrivers.ChardrvsUsers
