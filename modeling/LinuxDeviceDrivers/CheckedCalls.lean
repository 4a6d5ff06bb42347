import Mathlib.Data.List.Basic

/-!
# Calls made until a check rejects one

A function that makes one call after another and leaves at the first result its
check rejects. A check can reject less than it should: a call that has failed
and is not rejected is one that the function does not notice.
-/
namespace LinuxDeviceDrivers.CheckedCalls
variable {ε : Type*}

structure Stage (ε : Type*) where
  event : ε
  rejected : Bool

/-- Whether every call was accepted, and the calls that were made. -/
def attempt : List (Stage ε) → Bool × List ε
  | [] => (true, [])
  | st :: rest =>
      if st.rejected then (false, [st.event])
      else ((attempt rest).1, st.event :: (attempt rest).2)

/-- After a call that has failed no other is made. -/
def FailsLast (failed : ε → Prop) : List ε → Prop
  | [] => True
  | e :: rest => (failed e → rest = []) ∧ FailsLast failed rest

/-- No call that is reached fails unnoticed. -/
def Noticed (failed : ε → Prop) : List (Stage ε) → Prop
  | [] => True
  | st :: rest => st.rejected = false → ¬failed st.event ∧ Noticed failed rest

section Attempts
variable {failed : ε → Prop} {st : Stage ε} {l l' : List (Stage ε)} {as bs : List ε}

theorem attempt_rejected (h : st.rejected = true) : attempt (st :: l) = (false, [st.event]) := by
  rw [attempt, if_pos h]

theorem attempt_accepted (h : st.rejected = false) :
    attempt (st :: l) = ((attempt l).1, st.event :: (attempt l).2) := by
  rw [attempt, if_neg (Bool.eq_false_iff.mp h)]

/-- What follows is attempted only if everything before was accepted. -/
theorem attempt_append (l l' : List (Stage ε)) :
    attempt (l ++ l') =
      if (attempt l).1 then ((attempt l').1, (attempt l).2 ++ (attempt l').2) else attempt l := by
  induction l with
  | nil => rfl
  | cons st l ih =>
      rw [List.cons_append]
      cases hst : st.rejected with
      | true => rw [attempt_rejected hst, attempt_rejected hst]; rfl
      | false =>
          rw [attempt_accepted hst, attempt_accepted hst, ih]
          by_cases hl : (attempt l).1 = true
          · simp only [hl, if_true, List.cons_append]
          · simp only [hl, Bool.false_eq_true, if_false]

theorem attempt_all_iff : (attempt l).1 = true ↔ ∀ st ∈ l, st.rejected = false := by
  induction l with
  | nil => simp [attempt]
  | cons st l ih =>
      cases hst : st.rejected with
      | true => simp [attempt_rejected hst, hst]
      | false => simp [attempt_accepted hst, hst, ih]

theorem attempt_eq_nil (h : (attempt l).2 = []) : l = [] := by
  cases l with
  | nil => rfl
  | cons st l =>
      cases hst : st.rejected with
      | true => rw [attempt_rejected hst] at h; cases h
      | false => rw [attempt_accepted hst] at h; cases h

theorem attempt_mem {e : ε} (he : e ∈ (attempt l).2) : ∃ st ∈ l, st.event = e := by
  induction l with
  | nil => cases he
  | cons st l ih =>
      cases hst : st.rejected with
      | true =>
          rw [attempt_rejected hst] at he
          exact ⟨st, List.mem_cons_self, (List.mem_singleton.mp he).symm⟩
      | false =>
          rw [attempt_accepted hst] at he
          rcases List.mem_cons.mp he with rfl | he
          · exact ⟨st, List.mem_cons_self, rfl⟩
          · obtain ⟨x, hx, rfl⟩ := ih he
            exact ⟨x, List.mem_cons_of_mem st hx, rfl⟩

/-- If every failure is noticed, the attempt as a whole reports it. -/
theorem attempt_reports (h : Noticed failed l) {e : ε} (he : e ∈ (attempt l).2) (hf : failed e) :
    (attempt l).1 = false := by
  induction l with
  | nil => cases he
  | cons st l ih =>
      cases hst : st.rejected with
      | true => rw [attempt_rejected hst]
      | false =>
          obtain ⟨hok, hrest⟩ := h hst
          rw [attempt_accepted hst] at he ⊢
          rcases List.mem_cons.mp he with rfl | he
          · exact absurd hf hok
          · exact ih hrest he

/-- Failures end the attempt exactly when they are noticed, if the last check is
one that notices them. -/
theorem failsLast_attempt_iff (hlast : ∀ st ∈ l.getLast?, failed st.event → st.rejected = true) :
    FailsLast failed (attempt l).2 ↔ Noticed failed l := by
  induction l with
  | nil => exact Iff.rfl
  | cons st l ih =>
      cases hst : st.rejected with
      | true =>
          rw [attempt_rejected hst]
          exact ⟨fun _ h => absurd (hst.symm.trans h) nofun, fun _ => ⟨fun _ => rfl, trivial⟩⟩
      | false =>
          rw [attempt_accepted hst, Noticed, FailsLast]
          cases l with
          | nil =>
              have hok : ¬failed st.event := fun hf =>
                absurd ((hlast st rfl hf).symm.trans hst) nofun
              exact ⟨fun _ _ => ⟨hok, trivial⟩, fun _ => ⟨fun _ => rfl, trivial⟩⟩
          | cons st' l =>
              rw [ih fun x hx => hlast x (by rwa [List.getLast?_cons_cons])]
              constructor
              · rintro ⟨hend, hrest⟩ -
                exact ⟨fun hf => absurd (attempt_eq_nil (hend hf)) (List.cons_ne_nil _ _), hrest⟩
              · intro h
                exact ⟨fun hf => absurd hf (h hst).1, (h hst).2⟩

theorem FailsLast.left (h : FailsLast failed (as ++ bs)) : FailsLast failed as := by
  induction as with
  | nil => trivial
  | cons a as ih =>
      exact ⟨fun hf => (List.append_eq_nil_iff.mp (h.1 hf)).1, ih h.2⟩

/-- Calls that do not fail may be followed by calls whose failures come last. -/
theorem failsLast_append (has : ∀ a ∈ as, ¬failed a) (hbs : FailsLast failed bs) :
    FailsLast failed (as ++ bs) := by
  induction as with
  | nil => exact hbs
  | cons a as ih =>
      exact ⟨fun hf => absurd hf (has a List.mem_cons_self),
        ih fun x hx => has x (List.mem_cons_of_mem a hx)⟩

theorem failsLast_of_none (has : ∀ a ∈ as, ¬failed a) : FailsLast failed as := by
  rw [← List.append_nil as]
  exact failsLast_append has trivial

end Attempts
end LinuxDeviceDrivers.CheckedCalls
