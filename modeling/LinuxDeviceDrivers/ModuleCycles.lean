import LinuxDeviceDrivers.ResourceLedger
import LinuxDeviceDrivers.TransitionSystem

/-!
# Loading and unloading a module

A setup function makes one call after another. A call acquires what it is for or
fails, and the function then returns behind a label that releases what it holds,
or does not look at the result and goes on. A call that fails may leave something
behind. What remains of a module is known from its ledger: everything while it is
loaded, nothing while it is not.

A module counts as loaded unless its setup returns a negative value. So the
books are right through any order of loads and unloads in exactly the runs whose
loads are all-or-nothing, and a function of stages with the right labels is that
when every failure it comes to leaves nothing behind and is reported with a
negative value.
-/
namespace LinuxDeviceDrivers.ModuleCycles
open ResourceLedger TransitionSystem

/-- What a setup function does about a call that has failed. -/
inductive OnError (ρ : Type*) where
  | ignore
  | goto (ret : ℤ) (label : List ρ)

/-- A call of a setup function: what it acquires, what of this stays when it
fails, and whether it has failed. -/
structure Stage (ρ : Type*) where
  acquires : List ρ
  leaves : List ρ
  failed : Bool
  onError : OnError ρ

section Code
variable {ρ : Type*} [DecidableEq ρ]

def acquireAll (l : Ledger ρ) (rs : List ρ) : Ledger ρ := rs.foldl Ledger.acquire l

def releaseAll (l : Ledger ρ) (rs : List ρ) : Ledger ρ := rs.foldl Ledger.release l

def setup : List (Stage ρ) → Ledger ρ → ℤ × Ledger ρ
  | [], l => (0, l)
  | st :: rest, l =>
      if st.failed then
        match st.onError with
        | .ignore => setup rest (acquireAll l st.leaves)
        | .goto ret label => (ret, releaseAll (acquireAll l st.leaves) label)
      else setup rest (acquireAll l st.acquires)

/-- The init function, for the outcomes of its calls, and the exit function. -/
structure Module (ε ρ : Type*) where
  init : ε → Ledger ρ → ℤ × Ledger ρ
  exit : Ledger ρ → Ledger ρ

/-- A module whose init function consists of stages. The exit function may look
at what is there. -/
def staged {ε : Type*} (init : ε → List (Stage ρ)) (exit : Ledger ρ → List ρ) : Module ε ρ where
  init env l := setup (init env) l
  exit l := releaseAll l (exit l)

inductive Event (ε : Type*) where
  | insmod (env : ε)
  | rmmod

structure State (ρ : Type*) where
  ledger : Ledger ρ
  loaded : Bool

variable {ε : Type*} (M : Module ε ρ)

def next (s : State ρ) : Event ε → Option (State ρ)
  | .insmod env =>
      if s.loaded then none
      else
        let r := M.init env s.ledger
        some ⟨r.2, decide (0 ≤ r.1)⟩
  | .rmmod => if s.loaded then some ⟨M.exit s.ledger, false⟩ else none

def system : System (State ρ) (Event ε) where
  start s := s = ⟨.empty, false⟩
  next := next M

end Code

section Statement
variable {ρ : Type*} {ε : Type*} (M : Module ε ρ) (full : Multiset ρ)

/-- A loaded module holds `full`, any other nothing. -/
def Balanced (s : State ρ) : Prop := s.ledger.Holds (if s.loaded then full else 0)

/-- What an init function has returned fits what is held. -/
def Fits (r : ℤ × Ledger ρ) : Prop := r.2.Holds (if 0 ≤ r.1 then full else 0)

/-- A load starts with nothing and ends all-or-nothing. -/
def FitsLoad (s : State ρ) : Event ε → Prop
  | .insmod env => s.loaded = false → Fits full (M.init env .empty)
  | .rmmod => True

/-- A failure that is reached leaves nothing behind and makes the function return
a negative value. -/
def Reported : List (Stage ρ) → Prop
  | [] => True
  | st :: rest =>
      if st.failed then
        match st.onError with
        | .ignore => False
        | .goto ret _ => ret < 0 ∧ st.leaves = []
      else Reported rest

/-- Whatever jumps to a label has left nothing behind. -/
def Tidy (stages : List (Stage ρ)) : Prop :=
  ∀ st ∈ stages, ∀ ret label, st.onError = .goto ret label → st.leaves = []

/-- Every label releases what the calls before it have acquired, and the calls
together acquire `full`. A call that fails leaves less than it acquires, and
nothing behind a failure that was passed over. -/
def Labelled : Multiset ρ → List (Stage ρ) → Prop
  | m, [] => m = full
  | m, st :: rest =>
      st.leaves.length < st.acquires.length ∧
        (∀ ret label, st.onError = .goto ret label → (label : Multiset ρ) = m) ∧
        (st.failed = true → st.onError = .ignore → Tidy rest) ∧ Labelled (m + st.acquires) rest

end Statement

section Ledgers
variable {ρ : Type*} [DecidableEq ρ] {l : Ledger ρ} {m : Multiset ρ}

omit [DecidableEq ρ] in
theorem holds_acquireAll (h : l.Holds m) (rs : List ρ) : (acquireAll l rs).Holds (m + rs) := by
  induction rs generalizing l m with
  | nil =>
      rw [Multiset.coe_nil, add_zero]
      exact h
  | cons r rs ih =>
      have hrest := ih (h.acquire r)
      rw [Multiset.cons_add, ← Multiset.add_cons, Multiset.cons_coe] at hrest
      exact hrest

theorem holds_releaseAll_add (rs : List ρ) (h : l.Holds (rs + m)) : (releaseAll l rs).Holds m := by
  induction rs generalizing l with
  | nil =>
      rw [Multiset.coe_nil, zero_add] at h
      exact h
  | cons r rs ih =>
      rw [← Multiset.cons_coe, Multiset.cons_add] at h
      exact ih h.release

theorem holds_releaseAll (rs : List ρ) (h : l.Holds rs) : (releaseAll l rs).Holds 0 :=
  holds_releaseAll_add rs (by rw [add_zero]; exact h)

theorem releaseAll_strays (rs : List ρ) (h : l.strays ≠ 0) : (releaseAll l rs).strays ≠ 0 := by
  induction rs generalizing l with
  | nil => exact h
  | cons r rs ih => exact ih (Ledger.strays_release h r)

/-- Who releases more than he holds releases something he does not hold. -/
theorem strays_of_card_lt (rs : List ρ) (h : l.held.card < rs.length) :
    (releaseAll l rs).strays ≠ 0 := by
  induction rs generalizing l with
  | nil => exact absurd h (Nat.not_lt_zero _)
  | cons r rs ih =>
      by_cases hr : r ∈ l.held
      · apply ih
        have hcard := Multiset.card_erase_of_mem hr
        have hpos : 0 < l.held.card := Multiset.card_pos_iff_exists_mem.mpr ⟨r, hr⟩
        rw [Ledger.release, if_pos hr, hcard, Nat.pred_eq_sub_one]
        rw [List.length_cons] at h
        omega
      · exact releaseAll_strays rs (Ledger.strays_of_notMem hr)

omit [DecidableEq ρ] in
theorem card_acquireAll (l : Ledger ρ) (rs : List ρ) :
    (acquireAll l rs).held.card = l.held.card + rs.length := by
  induction rs generalizing l with
  | nil => rfl
  | cons r rs ih =>
      show (acquireAll (l.acquire r) rs).held.card = _
      rw [ih, Ledger.acquire, Multiset.card_cons, List.length_cons]
      omega

end Ledgers

section Setup
variable {ρ ε : Type*} [DecidableEq ρ] {full m : Multiset ρ} {st : Stage ρ} {rest stages : List (Stage ρ)}
  {l : Ledger ρ}

theorem setup_ok (h : st.failed = false) :
    setup (st :: rest) l = setup rest (acquireAll l st.acquires) := by
  rw [setup, h]
  rfl

theorem setup_ignore (h : st.failed = true) (he : st.onError = .ignore) :
    setup (st :: rest) l = setup rest (acquireAll l st.leaves) := by
  rw [setup, if_pos h, he]

theorem setup_goto {ret : ℤ} {label : List ρ} (h : st.failed = true)
    (he : st.onError = .goto ret label) :
    setup (st :: rest) l = (ret, releaseAll (acquireAll l st.leaves) label) := by
  rw [setup, if_pos h, he]

omit [DecidableEq ρ] in
theorem Labelled.card_le (h : Labelled full m stages) : m.card ≤ full.card := by
  induction stages generalizing m with
  | nil => exact Nat.le_of_eq (congrArg Multiset.card h)
  | cons st rest ih =>
      have hrest := ih h.2.2.2
      rw [Multiset.card_add] at hrest
      omega

/-- A failure that was passed over is never made up for. -/
theorem not_fits_of_card_lt (hl : Labelled full m stages) (ht : Tidy stages)
    (hcard : l.held.card < m.card) : ¬Fits full (setup stages l) := by
  induction stages generalizing l m with
  | nil =>
      intro h
      have hheld : l.held = full := congrArg Ledger.held h
      rw [hheld, show m = full from hl] at hcard
      exact Nat.lt_irrefl _ hcard
  | cons st rest ih =>
      obtain ⟨hleaves, hlabel, _, hrest⟩ := hl
      have htidy : Tidy rest := fun st' hst' => ht st' (List.mem_cons_of_mem st hst')
      cases hfailed : st.failed with
      | false =>
          rw [setup_ok hfailed]
          apply ih hrest htidy
          rw [card_acquireAll, Multiset.card_add, Multiset.coe_card]
          omega
      | true =>
          cases he : st.onError with
          | ignore =>
              rw [setup_ignore hfailed he]
              apply ih hrest htidy
              rw [card_acquireAll, Multiset.card_add, Multiset.coe_card]
              omega
          | goto ret label =>
              rw [setup_goto hfailed he, ht st List.mem_cons_self ret label he]
              intro h
              rw [← hlabel ret label he, Multiset.coe_card] at hcard
              exact strays_of_card_lt label hcard h.strays

/-- The setup is all-or-nothing exactly when every failure is reported. -/
theorem fits_iff_reported (hl : Labelled full m stages) (h : l.Holds m) :
    Fits full (setup stages l) ↔ Reported stages := by
  induction stages generalizing l m with
  | nil =>
      refine iff_of_true ?_ trivial
      rw [show m = full from hl] at h
      exact h
  | cons st rest ih =>
      obtain ⟨hleaves, hlabel, htidy, hrest⟩ := hl
      have hcard : st.leaves.length < full.card := by
        have hle := hrest.card_le
        rw [Multiset.card_add, Multiset.coe_card] at hle
        omega
      cases hfailed : st.failed with
      | false =>
          rw [setup_ok hfailed, Reported, if_neg (by simp [hfailed])]
          exact ih hrest (holds_acquireAll h st.acquires)
      | true =>
          cases he : st.onError with
          | ignore =>
              rw [setup_ignore hfailed he, Reported, if_pos hfailed, he]
              apply iff_of_false _ id
              apply not_fits_of_card_lt hrest (htidy hfailed he)
              rw [card_acquireAll, show l.held = m from congrArg Ledger.held h, Multiset.card_add,
                Multiset.coe_card]
              omega
          | goto ret label =>
              rw [setup_goto hfailed he, Reported, if_pos hfailed, he]
              -- what the failed call has left is all that the label does not release
              have hreleased : (releaseAll (acquireAll l st.leaves) label).Holds st.leaves := by
                apply holds_releaseAll_add
                rw [hlabel ret label he]
                exact holds_acquireAll h st.leaves
              by_cases hret : ret < 0
              · rw [Fits, if_neg (Int.not_le.mpr hret), hreleased]
                simp [Ledger.Holds, hret]
              · -- the function says that it has succeeded and holds too little
                refine iff_of_false ?_ fun hr => hret hr.1
                rw [Fits, if_pos (Int.not_lt.mp hret), hreleased]
                intro hfull
                have hheld : (st.leaves : Multiset ρ) = full := congrArg Ledger.held hfull
                rw [← hheld, Multiset.coe_card] at hcard
                exact Nat.lt_irrefl _ hcard

end Setup

section Cycles
variable {ρ ε : Type*} {M : Module ε ρ} {full : Multiset ρ} {s t : State ρ}

theorem Balanced.rmmod (hexit : ∀ l, l.Holds full → (M.exit l).Holds 0) (h : Balanced full s)
    (hloaded : s.loaded = true) : Balanced full ⟨M.exit s.ledger, false⟩ := by
  rw [Balanced, hloaded] at h
  exact hexit _ h

theorem balanced_load_iff (h : Balanced full s) (hloaded : s.loaded = false) (env : ε) :
    Balanced full ⟨(M.init env s.ledger).2, decide (0 ≤ (M.init env s.ledger).1)⟩ ↔
      Fits full (M.init env .empty) := by
  have hempty : s.ledger = .empty := by
    rw [Balanced, hloaded] at h
    exact h
  rw [hempty, Balanced, Fits]
  simp only [decide_eq_true_eq]

theorem balanced_of_reachable (hexit : ∀ l, l.Holds full → (M.exit l).Holds 0)
    (h : (system M).ReachableWhen (FitsLoad M full) s) : Balanced full s := by
  apply h.invariant
  · intro s hs
    rw [hs]
    exact Ledger.holds_empty
  · intro s a t _ hs hok hn
    cases a with
    | insmod env =>
        simp only [system, next] at hn
        split_ifs at hn with hloaded
        cases hn
        have hfalse : s.loaded = false := by simpa using hloaded
        exact (balanced_load_iff hs hfalse env).mpr (hok hfalse)
    | rmmod =>
        simp only [system, next] at hn
        split_ifs at hn with hloaded
        cases hn
        exact hs.rmmod hexit hloaded

/-- The books are right after every load and unload in exactly the runs whose
loads are all-or-nothing. -/
theorem balanced_iff_fits (hexit : ∀ l, l.Holds full → (M.exit l).Holds 0) (evs : List (Event ε)) :
    (system M).Along (Balanced full) ⟨.empty, false⟩ evs ↔
      (system M).Meets (FitsLoad M full) ⟨.empty, false⟩ evs := by
  refine System.along_iff_meets (fun s => balanced_of_reachable hexit) ?_ (.start rfl) evs
  intro s a hs hok
  cases a with
  | insmod env =>
      simp only [FitsLoad, not_forall] at hok
      obtain ⟨hloaded, hok⟩ := hok
      refine ⟨_, if_neg (by simp [hloaded]), fun h => hok ?_⟩
      exact (balanced_load_iff (balanced_of_reachable hexit hs) hloaded env).mp h
  | rmmod => exact absurd trivial hok

end Cycles

end LinuxDeviceDrivers.ModuleCycles
