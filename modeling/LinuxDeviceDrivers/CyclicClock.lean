import Mathlib.Algebra.Ring.Int.Defs
import Mathlib.Data.Nat.Cast.Basic
import Mathlib.Tactic.Common

/-!
# Clocks that wrap around

A clock counts its ticks in a word of `w` bits. Two readings are compared by the
sign of their difference, which is right as long as the ticks they stand for are
less than half of the range apart.

A loop that reads the clock until it has reached a deadline therefore stops at
the first reading from the deadline on, wherever in the range the deadline lies,
if no two readings in a row are half of the range apart.
-/
namespace LinuxDeviceDrivers.CyclicClock

/-- What the clock shows at tick `t`. -/
def stamp (w : ℕ) (t : ℤ) : BitVec w := .ofInt w t

/-- `time_before(a, b)` -/
def timeBefore {w : ℕ} (a b : BitVec w) : Prop := (a - b).toInt < 0

instance {w : ℕ} (a b : BitVec w) : Decidable (timeBefore a b) := inferInstanceAs (Decidable (_ < _))

/-- `while (time_before(jiffies, deadline))`: the readings behind the one that
ends the loop. -/
def waitUntil {w : ℕ} (deadline : BitVec w) : List (BitVec w) → Option (List (BitVec w))
  | [] => none
  | j :: js => if timeBefore j deadline then waitUntil deadline js else some js

/-- Readings at ticks that do not go back, each less than half of the range
behind the one before it. -/
def Sampled (w : ℕ) : ℤ → List ℤ → Prop
  | _, [] => True
  | t, u :: us => t ≤ u ∧ u - t < 2 ^ (w - 1) ∧ Sampled w u us

section Stamps
variable {w : ℕ} {a b t u d : ℤ}

theorem stamp_add (a b : ℤ) : stamp w (a + b) = stamp w a + stamp w b := BitVec.ofInt_add a b

theorem stamp_sub (a b : ℤ) : stamp w (a - b) = stamp w a - stamp w b := by
  rw [Int.sub_eq_add_neg, stamp_add, BitVec.sub_eq_add_neg, stamp, stamp, stamp, BitVec.ofInt_neg]

/-- One turn of the range shows the same. -/
theorem stamp_turn (t : ℤ) : stamp w (t + 2 ^ w) = stamp w t := by
  apply BitVec.eq_of_toInt_eq
  have hcast : (2 : ℤ) ^ w = ((2 ^ w : ℕ) : ℤ) := (Nat.cast_pow 2 w).symm
  rw [stamp, stamp, BitVec.toInt_ofInt, BitVec.toInt_ofInt, hcast, Int.add_bmod_right]

theorem toInt_stamp (hw : 0 < w) (hlow : -2 ^ (w - 1) ≤ t) (hhigh : t < 2 ^ (w - 1)) :
    (stamp w t).toInt = t := by
  have hcast : ((2 ^ w : ℕ) : ℤ) = 2 * 2 ^ (w - 1) := by
    rw [Nat.cast_pow, ← pow_succ', Nat.sub_add_cancel hw]
    rfl
  rw [stamp, BitVec.toInt_ofInt]
  apply Int.bmod_eq_of_le
  · omega
  · omega

theorem timeBefore_stamp_iff (hw : 0 < w) (hlow : -2 ^ (w - 1) ≤ a - b)
    (hhigh : a - b < 2 ^ (w - 1)) : timeBefore (stamp w a) (stamp w b) ↔ a < b := by
  rw [timeBefore, ← stamp_sub, toInt_stamp hw hlow hhigh]
  exact ⟨Int.lt_of_sub_neg, Int.sub_neg_of_lt⟩

end Stamps

section Waiting
variable {w : ℕ} {t d : ℤ} {us : List ℤ}

/-- The loop stops at the first reading from the deadline on. -/
theorem waitUntil_stamps (hw : 0 < w) (hus : Sampled w t us) (hlow : t ≤ d)
    (hhigh : d - t ≤ 2 ^ (w - 1)) :
    waitUntil (stamp w d) (us.map (stamp w)) =
      (us.dropWhile (· < d)).tail?.map (List.map (stamp w)) := by
  induction us generalizing t with
  | nil => rfl
  | cons u us ih =>
      obtain ⟨hle, hgap, hrest⟩ := hus
      have hbefore : timeBefore (stamp w u) (stamp w d) ↔ u < d :=
        timeBefore_stamp_iff hw (by omega) (by omega)
      rw [List.map_cons, waitUntil, List.dropWhile_cons]
      by_cases hu : u < d
      · rw [if_pos (hbefore.mpr hu), ih hrest (by omega) (by omega)]
        simp only [hu, decide_true, if_true]
      · rw [if_neg (fun h => hu (hbefore.mp h))]
        simp only [hu, decide_false, Bool.false_eq_true, if_false]
        rfl

end Waiting

end LinuxDeviceDrivers.CyclicClock
