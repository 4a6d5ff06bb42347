import LinuxDeviceDrivers.ChardrvsUsers
import Mathlib.Algebra.Group.Nat.Defs

/-!
# The reference counter of the chardrvs driver

Whatever the user limit is and however it changes, `ref_cntr` counts the handles
between the increment of their open and the decrement of their release: the
tests of `chardrvs_open` and `chardrvs_release` only decide who gets to the
atomic updates. The counter is an `int`, so it can count 2 ^ 31 - 1 handles.
-/
namespace LinuxDeviceDrivers.ChardrvsUsers
open TransitionSystem ThreadProgram ThreadCount

/-- The counter is the number of handles that hold a reference, and the test of
`chardrvs_release` succeeds for every handle that is open. -/
structure RefCounted (s : State) : Prop where
  counted : ∃ n : ℕ, Counted holding s n ∧ s.shared.refCntr.toInt = n
  tested : ∀ c, s.pc c = .opened → 0 < s.shared.refCntr.toInt

/-- An increment leaves fewer than 2 ^ 31 handles counted. -/
def FewHandles (s : State) (a : ℕ × Choice) : Prop :=
  a.2 = .run → s.pc a.1 = .openInc → ∀ n, Counted holding s n → n + 1 < 2 ^ 31

section Counter
variable {b : BitVec 32} {n : ℕ}

theorem toInt_inc (hb : b.toInt = n) (hn : n + 1 < 2 ^ 31) : (b + 1).toInt = (n + 1 : ℕ) := by
  have hone : (1 : BitVec 32).toInt = 1 := by decide
  rw [BitVec.toInt_add, hb, hone, ← Int.natCast_succ]
  exact Int.bmod_eq_of_le_mul_two (by omega) (by omega)

theorem toInt_dec (hb : b.toInt = (n + 1 : ℕ)) : (b - 1).toInt = n := by
  have hlt := b.toInt_lt
  have hone : (1 : BitVec 32).toInt = 1 := by decide
  rw [BitVec.toInt_sub, hb, hone, Int.natCast_succ, Int.add_sub_cancel]
  exact Int.bmod_eq_of_le_mul_two (by omega) (by omega)

/-- The increment after the last one that fits wraps to the least `int`. -/
theorem toInt_wrap (hb : b.toInt = n) (hn : 2 ^ 31 ≤ n + 1) : (b + 1).toInt < 0 := by
  have hlt := b.toInt_lt
  have hmax : b = 0x7FFFFFFF#32 := by
    refine BitVec.eq_of_toInt_eq ?_
    rw [hb]
    show (n : ℤ) = 2147483647
    omega
  rw [hmax]
  decide

end Counter

section Runs
variable {k : BitVec 32} {s t : State} {c : ℕ} {x : Choice} {e : Effect}

theorem refCounted_of_counted {n : ℕ} (hn : Counted holding s n)
    (hcnt : s.shared.refCntr.toInt = n) : RefCounted s where
  counted := ⟨n, hn, hcnt⟩
  tested c hc := by
    rw [hcnt]
    cases n with
    | zero => exact absurd (.inl hc) (hn.nobody c)
    | succ n => omega

theorem RefCounted.step (hs : RefCounted s) (hok : FewHandles s (c, x))
    (he : program.Step s c x e t) : RefCounted t := by
  obtain ⟨n, hn, hcnt⟩ := hs.counted
  have hshared : t.shared = effect e s.shared := he.shared
  have hedge := edge_of_step he
  generalize hp : s.pc c = p at hedge
  generalize hp' : t.pc c = p' at hedge
  cases hedge with
  | refuse | accept | setUsrs | release =>
      refine refCounted_of_counted (hn.stay (others_id _) he ?_) (hshared ▸ hcnt)
      simp [hp, hp', holding]
  | inc =>
      have hadd := toInt_inc hcnt (hok rfl hp n hn)
      refine refCounted_of_counted (hn.enter (others_id _) he ?_ ?_) (hshared ▸ hadd)
      · simp [hp, holding]
      · simp [hp', holding]
  | releaseZero hzero => exact absurd (hs.tested c hp) (Int.not_lt.mpr hzero)
  | dec =>
      obtain ⟨m, rfl, hm⟩ := hn.leave (others_id _) he (.inr hp) (by simp [hp', holding])
      exact refCounted_of_counted hm (hshared ▸ toInt_dec hcnt)

theorem refCounted (h : (system k).ReachableWhen FewHandles s) : RefCounted s := by
  refine Program.invariant ?_ ?_ h
  · rintro s rfl
    exact refCounted_of_counted (counted_zero nofun) rfl
  · intro s c x e t _ hs hok he
    exact hs.step hok he

/-- An increment beyond that makes the counter negative. -/
theorem not_refCounted_of_many (hs : RefCounted s) {a : ℕ × Choice} (hok : ¬FewHandles s a) :
    ∃ t, (system k).next s a = some t ∧ ¬RefCounted t := by
  obtain ⟨c, x⟩ := a
  simp only [FewHandles, not_forall, Nat.not_lt] at hok
  obtain ⟨rfl, hp, n, hn, hmany⟩ := hok
  obtain ⟨m, hm, hcnt⟩ := hs.counted
  obtain rfl := hn.unique hm
  have hmove : program.move s.shared .run (s.pc c) = some (.inc, .opened) := by
    rw [show s.pc c = .openInc from hp]
    rfl
  refine ⟨_, Program.next_of_move hmove, fun ht => ?_⟩
  have hpos := ht.tested c (by simp only [Function.update_self])
  have hneg := toInt_wrap hcnt hmany
  exact absurd hpos (Int.not_lt.mpr (Int.le_of_lt hneg))

/-- Along any interleaving and under any user limits, the counter is exact as
long as, and only as long as, fewer than 2 ^ 31 handles are counted. -/
theorem along_refCounted_iff (k : BitVec 32) (as : List (ℕ × Choice)) :
    (system k).Along RefCounted (initial k) as ↔ (system k).Meets FewHandles (initial k) as :=
  System.along_iff_meets (fun _ => refCounted)
    (fun _ _ hs hok => not_refCounted_of_many (refCounted hs) hok) (.start rfl) as

theorem open_alone (hp : s.pc c = .unstarted) (hlim : ¬s.shared.usrsCnt ≤ s.shared.refCntr) :
    ∃ t, (system k).run s [(c, .openFile), (c, .run)] = some t ∧
      t.shared = effect .inc s.shared ∧ t.pc = Function.update s.pc c .opened := by
  have hopen : chardrvsOpen s.shared = .openInc := if_neg hlim
  have haccept : program.move s.shared .openFile (s.pc c) = some (.skip, .openInc) := by
    rw [hp, ← hopen]
    rfl
  refine ⟨⟨effect .inc s.shared, Function.update s.pc c .opened⟩, ?_, rfl, rfl⟩
  have htested := Program.next_of_move haccept
  rw [System.run_cons, show (system k).next s (c, .openFile) = _ from htested, Option.bind_some,
    System.run_cons]
  refine Option.bind_eq_some_iff.mpr ⟨_, Program.next_of_move (P := program) (e := .inc)
    (p := .opened) ?_, ?_⟩
  · simp only [Function.update_self]
    rfl
  · simp only [System.run_nil, program, Function.update_idem]
    rfl

end Runs

/-- The handles below `n` have been opened one after the other. -/
structure OpenedBelow (n : ℕ) (s : State) : Prop where
  usrs : s.shared.usrsCnt = 0xFFFFFFFF#32
  count : s.shared.refCntr = BitVec.ofNat 32 n
  pc : ∀ c, s.pc c = if c < n then .opened else .unstarted

/-- The largest user limit admits 2 ^ 31 handles. -/
theorem openedBelow_reachable {n : ℕ} (hn : n ≤ 2 ^ 31) :
    ∃ s, (system 0xFFFFFFFF#32).Reachable s ∧ OpenedBelow n s := by
  induction n with
  | zero => exact ⟨_, .start rfl, rfl, rfl, fun c => by simp [initial]⟩
  | succ n ih =>
      obtain ⟨s, hs, hopen⟩ := ih (by omega)
      have hlim : ¬s.shared.usrsCnt ≤ s.shared.refCntr := by
        rw [hopen.usrs, hopen.count, BitVec.le_def, BitVec.toNat_ofNat, BitVec.toNat_ofNat]
        omega
      obtain ⟨t, hrun, hshared, hpc⟩ := open_alone (k := 0xFFFFFFFF#32) (c := n)
        (by rw [hopen.pc, if_neg (Nat.lt_irrefl n)]) hlim
      refine ⟨t, System.Reachable.run hs hrun, ?_, ?_, fun c => ?_⟩
      · rw [hshared]
        exact hopen.usrs
      · rw [hshared]
        show s.shared.refCntr + 1 = _
        rw [hopen.count, BitVec.ofNat_add]
        rfl
      · rw [hpc, Function.update_apply, hopen.pc]
        split_ifs <;> first | rfl | omega

/-- 2 ^ 31 handles make the counter negative. -/
theorem not_refCounted : ¬∀ (k : BitVec 32) (s : State), (system k).Reachable s → RefCounted s := by
  intro h
  obtain ⟨s, hs, hopen⟩ := openedBelow_reachable (Nat.le_refl (2 ^ 31))
  have hpos := (h _ s hs).tested 0 (by rw [hopen.pc]; simp)
  rw [hopen.count] at hpos
  exact absurd hpos (by decide)

end LinuxDeviceDrivers.ChardrvsUsers
