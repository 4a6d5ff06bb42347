import LinuxDeviceDrivers.ChardrvsIoctl
import LinuxDeviceDrivers.CStrings
import LinuxDeviceDrivers.CyclicClock

/-!
# The just-in-time module: delays

`jit_fn_show` waits for `delay` ticks and prints `jiffies` before and after. Two
of its four files read `jiffies` until the deadline has come; in the other two
the kernel puts the reader to sleep.

`jiffies` may wrap around while the loop runs. The loop ends at the first
reading from the deadline on, unless a negative `delay` has put the deadline so
far back that the first reading takes it for one of the next turn.
-/
namespace LinuxDeviceDrivers.Jit
open ChardrvsIoctl (LongSize)
open CStrings CyclicClock

inductive JitFiles where
  | busy | sched | queue | schedto
deriving DecidableEq, Repr

abbrev longBits (k : LongSize) : ℕ := 8 * k.bytes

def ticks (k : LongSize) (n : BitVec 32) : BitVec (longBits k) := n.signExtend (longBits k)

section Show
variable {k : LongSize}

def delayLine (j0 j1 : BitVec (longBits k)) : List UInt8 :=
  padLeft 9 (decimalInt j0.toInt) ++ ascii " " ++ padLeft 9 (decimalInt j1.toInt) ++ ascii "\n"

/-- The output for the values that the reads of `jiffies` give in turn; there is
none as long as the call has not ended. -/
def jitFnShow (delay : BitVec 32) (data : JitFiles) : List (BitVec (longBits k)) → Option (List UInt8)
  | [] => none
  | j0 :: reads =>
      let j1 := j0 + ticks k delay
      let rest := match data with
        | .busy => waitUntil j1 reads
        | .sched => waitUntil j1 reads
        -- The kernel decides when the call goes on.
        | .queue => some reads
        | .schedto => some reads
      rest.bind fun reads => reads.head?.map (delayLine j0)

end Show

section Deadline
variable (k : LongSize)

/-- The tick from which on the loop ends, when its first reading is at `u`. -/
def deadline (delay t0 u : ℤ) : ℤ :=
  if u - (t0 + delay) < 2 ^ (longBits k - 1) then t0 + delay else t0 + delay + 2 ^ longBits k

theorem longBits_pos : 0 < longBits k := by
  cases k with
  | w32 => decide
  | w64 => decide

theorem half_longBits : (2 : ℤ) ^ 31 ≤ 2 ^ (longBits k - 1) ∧
    (2 : ℤ) ^ longBits k = 2 * 2 ^ (longBits k - 1) := by
  cases k with
  | w32 => decide
  | w64 => decide

theorem stamp_ticks (t : ℤ) (n : BitVec 32) :
    stamp (longBits k) t + ticks k n = stamp (longBits k) (t + n.toInt) := (stamp_add t n.toInt).symm

variable {k} {delay t0 u : ℤ} {us : List ℤ}

theorem waitUntil_deadline (hlow : -2 ^ 31 ≤ delay) (hhigh : delay < 2 ^ 31)
    (hus : Sampled (longBits k) t0 (u :: us)) :
    waitUntil (stamp (longBits k) (t0 + delay)) ((u :: us).map (stamp (longBits k))) =
      ((u :: us).dropWhile (· < deadline k delay t0 u)).tail?.map
        (List.map (stamp (longBits k))) := by
  have hw := longBits_pos k
  obtain ⟨hhalf, hdouble⟩ := half_longBits k
  unfold deadline
  by_cases hahead : 0 ≤ delay
  · obtain ⟨hle, hgap, _⟩ := hus
    rw [if_pos (by omega)]
    exact waitUntil_stamps hw ⟨hle, hgap, by assumption⟩ (by omega) (by omega)
  obtain ⟨hle, hgap, hrest⟩ := hus
  split_ifs with hnear
  · -- The deadline is behind and is seen there.
    have hpast : ¬timeBefore (stamp (longBits k) u) (stamp (longBits k) (t0 + delay)) := by
      rw [timeBefore_stamp_iff hw (by omega) hnear]
      omega
    have hdrop : ¬u < t0 + delay := by omega
    rw [List.map_cons, waitUntil, if_neg hpast, List.dropWhile_cons]
    simp only [hdrop, decide_false, Bool.false_eq_true, if_false]
    rfl
  · -- The deadline is taken for the one a turn later.
    have hturn := waitUntil_stamps (d := t0 + delay + 2 ^ longBits k) hw
      (show Sampled (longBits k) u (u :: us) from ⟨Int.le_refl u, by omega, hrest⟩) (by omega) (by omega)
    rw [stamp_turn] at hturn
    exact hturn

end Deadline

section Waits
variable {k : LongSize} {t0 u : ℤ} {us : List ℤ}

/-- The busy files print the tick of the first reading of `jiffies` and that of
the reading behind the first one from the deadline on. -/
theorem jitFnShow_waits (delay : BitVec 32) {data : JitFiles} (hdata : data = .busy ∨ data = .sched)
    (hus : Sampled (longBits k) t0 (u :: us)) :
    jitFnShow delay data ((t0 :: u :: us).map (stamp (longBits k))) =
      (((u :: us).dropWhile (· < deadline k delay.toInt t0 u)).tail.head?).map fun t1 =>
        delayLine (stamp (longBits k) t0) (stamp (longBits k) t1) := by
  have hlow := BitVec.le_toInt delay
  have hhigh := BitVec.toInt_lt (x := delay)
  have hwait := waitUntil_deadline hlow hhigh hus
  generalize (u :: us).dropWhile (· < deadline k delay.toInt t0 u) = rest at hwait
  have hloop : jitFnShow delay data ((t0 :: u :: us).map (stamp (longBits k))) =
      (waitUntil (stamp (longBits k) (t0 + delay.toInt)) ((u :: us).map (stamp (longBits k)))).bind
        fun reads => reads.head?.map (delayLine (stamp (longBits k) t0)) := by
    rw [← stamp_ticks]
    rcases hdata with rfl | rfl
    · rfl
    · rfl
  rw [hloop, hwait]
  cases rest with
  | nil => rfl
  | cons t rest =>
      cases rest with
      | nil => rfl
      | cons t1 rest => rfl

/-- `jiffies` wraps around 100 ticks after the call has begun, and the deadline
is 150 ticks behind that. -/
theorem jitFnShow_wraps :
    jitFnShow (k := .w32) 250 .busy
        (([-100, -100, 20, 149, 151, 153] : List ℤ).map (stamp (longBits .w32))) =
      some (ascii "     -100       153\n") := by
  have hsampled : Sampled (longBits .w32) (-100) [-100, 20, 149, 151, 153] := by
    simp [Sampled, longBits, LongSize.bytes]
  exact (jitFnShow_waits 250 (.inl rfl) hsampled).trans (by decide)

end Waits

end LinuxDeviceDrivers.Jit
