import Mathlib.Data.List.Basic
import Mathlib.Logic.Function.Basic

/-!
# Streams through a queue

The abstract side of a byte channel: a queue together with everything that was
ever put in and taken out. A concrete channel refines it when each of its steps
is a push at the back, a pop from the front or no change, and then nothing is
lost, duplicated or reordered.

The second part recovers such a history from a concurrent program that knows
only, for each party, what this party moved, and the order in which the parties
took their turns: the history is the concatenation in that order.
-/
namespace LinuxDeviceDrivers.OrderedStream

structure Stream (α : Type*) where
  sent : List α
  received : List α
  queue : List α

namespace Stream
variable {α : Type*}

inductive Step (q : Stream α) : Stream α → Prop
  | stay : Step q q
  | push (xs : List α) : Step q ⟨q.sent ++ xs, q.received, q.queue ++ xs⟩
  | pop (xs rest : List α) : q.queue = xs ++ rest → Step q ⟨q.sent, q.received ++ xs, rest⟩

/-- What came out, followed by what is still inside, is what went in. -/
def Intact (q : Stream α) : Prop := q.received ++ q.queue = q.sent

theorem Intact.step {q r : Stream α} (h : q.Intact) (hs : Step q r) : r.Intact := by
  cases hs with
  | stay => exact h
  | push xs =>
      show q.received ++ (q.queue ++ xs) = q.sent ++ xs
      rw [← List.append_assoc, h]
  | pop xs rest hq =>
      show q.received ++ xs ++ rest = q.sent
      rw [List.append_assoc, ← hq]
      exact h

end Stream

section Turns
variable {ι α : Type*} [DecidableEq ι] {order : List ι} {moved : ι → List α} {c : ι}

/-- A party that had no turn does not count. -/
theorem flatMap_update_of_notMem (hc : c ∉ order) (xs : List α) :
    order.flatMap (Function.update moved c xs) = order.flatMap moved := by
  induction order with
  | nil => rfl
  | cons d order ih =>
      have hd : d ≠ c := fun he => hc (he ▸ List.mem_cons_self)
      rw [List.flatMap_cons, List.flatMap_cons, Function.update_of_ne hd,
        ih fun hm => hc (List.mem_cons_of_mem d hm)]

/-- The party whose turn is the last one moves `xs`. -/
theorem flatMap_update_last {pre : List ι} (horder : order = pre ++ [c]) (hc : c ∉ pre)
    (hempty : moved c = []) (xs : List α) :
    order.flatMap (Function.update moved c xs) = order.flatMap moved ++ xs := by
  subst horder
  rw [List.flatMap_append, List.flatMap_append, flatMap_update_of_notMem hc]
  simp only [List.flatMap_singleton, Function.update_self, hempty, List.append_nil]

omit [DecidableEq ι] in
/-- A new turn of a party that has moved nothing yet. -/
theorem flatMap_turn (hempty : moved c = []) :
    (order ++ [c]).flatMap moved = order.flatMap moved := by
  rw [List.flatMap_append, List.flatMap_singleton, hempty, List.append_nil]

end Turns
end LinuxDeviceDrivers.OrderedStream
