import LinuxDeviceDrivers.CStrings
import LinuxDeviceDrivers.KernelPrimitives
import Mathlib.Algebra.Ring.Int.Defs

/-!
# Numbers in texts

The kernel's `kstrto` family in base 10: a sign, digits, a newline if there is
one, and then the end of the string. A number that does not fit is out of range,
whatever stands behind 64 bits of digits; any other text is invalid.

A text is accepted exactly if it is that of a numeral whose value fits, and the
texts that the `printf` family makes of numbers are such texts.
-/
namespace LinuxDeviceDrivers.Kstrto
open CStrings KernelPrimitives

def ERANGE : ℤ := 34

theorem neg_ERANGE : -ERANGE < 0 := by decide

theorem neg_EINVAL : -EINVAL < 0 := by decide

def isDigit (c : UInt8) : Bool := byte '0' ≤ c && c ≤ byte '9'

/-- The number that digits stand for, behind the one that was read before them. -/
def digitsFrom (n : ℕ) (ds : List UInt8) : ℕ :=
  ds.foldl (fun n c => 10 * n + (c.toNat - (byte '0').toNat)) n

abbrev digitsValue (ds : List UInt8) : ℕ := digitsFrom 0 ds

/-- `_kstrtoull` in base 10. -/
def digitsOnly (s : List UInt8) : Except Errno ℕ :=
  let ds := s.takeWhile isDigit
  let rest := s.dropWhile isDigit
  if 2 ^ 64 ≤ digitsValue ds then .error ⟨-ERANGE, neg_ERANGE⟩
  else if ds = [] then .error ⟨-EINVAL, neg_EINVAL⟩
  else if rest = [] ∨ rest = [byte '\n'] then .ok (digitsValue ds)
  else .error ⟨-EINVAL, neg_EINVAL⟩

/-- The numbers of a signed type of `w` bits. -/
def InRange (w : ℕ) (z : ℤ) : Prop := -2 ^ (w - 1) ≤ z ∧ z < 2 ^ (w - 1)

instance (w : ℕ) (z : ℤ) : Decidable (InRange w z) := inferInstanceAs (Decidable (_ ∧ _))

/-- A number that the type must hold. -/
def checkRange (w : ℕ) (z : ℤ) : Except Errno ℤ :=
  if InRange w z then .ok z else .error ⟨-ERANGE, neg_ERANGE⟩

/-- `kstrtol` in base 10 for a `long` of `w` bits. -/
def kstrtol (w : ℕ) (s : List UInt8) : Except Errno ℤ :=
  match s with
  | [] => (digitsOnly []).bind fun n => checkRange w n
  | c :: s' =>
      if c = byte '-' then (digitsOnly s').bind fun n => checkRange w (-n)
      else if c = byte '+' then (digitsOnly s').bind fun n => checkRange w n
      else (digitsOnly s).bind fun n => checkRange w n

/-! ## Numerals -/

/-- A text that the family takes for a number. -/
structure Numeral where
  sign : Option Bool
  digits : List UInt8
  newline : Bool
  ne_nil : digits ≠ []
  all_digits : ∀ c ∈ digits, isDigit c = true

namespace Numeral

def signText : Option Bool → List UInt8
  | none => []
  | some true => [byte '-']
  | some false => [byte '+']

def newlineText (newline : Bool) : List UInt8 := if newline then [byte '\n'] else []

def text (l : Numeral) : List UInt8 := signText l.sign ++ (l.digits ++ newlineText l.newline)

def value (l : Numeral) : ℤ :=
  if l.sign = some true then -(digitsValue l.digits : ℤ) else digitsValue l.digits

end Numeral

section Parse
variable {w n : ℕ} {z : ℤ} {s ds : List UInt8} {nl : Bool} {c : UInt8} {e : Errno}

theorem newlineText_cases (nl : Bool) :
    Numeral.newlineText nl = [] ∨ Numeral.newlineText nl = [byte '\n'] := by
  cases nl with
  | false => exact .inl rfl
  | true => exact .inr rfl

/-- The digits end where the digits of a numeral do. -/
theorem span_digits (h : ∀ c ∈ ds, isDigit c = true) (nl : Bool) :
    (ds ++ Numeral.newlineText nl).takeWhile isDigit = ds ∧
      (ds ++ Numeral.newlineText nl).dropWhile isDigit = Numeral.newlineText nl := by
  have hend : isDigit (byte '\n') = false := by decide
  rw [List.takeWhile_append_of_pos h, List.dropWhile_append_of_pos h]
  rcases newlineText_cases nl with hnl | hnl
  · rw [hnl]
    exact ⟨List.append_nil ds, rfl⟩
  · rw [hnl, List.takeWhile_cons, List.dropWhile_cons, hend]
    exact ⟨List.append_nil ds, rfl⟩

theorem digitsOnly_numeral (hne : ds ≠ []) (h : ∀ c ∈ ds, isDigit c = true)
    (hfits : digitsValue ds < 2 ^ 64) (nl : Bool) :
    digitsOnly (ds ++ Numeral.newlineText nl) = .ok (digitsValue ds) := by
  obtain ⟨htake, hdrop⟩ := span_digits h nl
  simp only [digitsOnly, htake, hdrop]
  rw [if_neg (Nat.not_le_of_lt hfits), if_neg hne, if_pos (newlineText_cases nl)]

theorem numeral_of_digitsOnly (h : digitsOnly s = .ok n) :
    ∃ ds nl, ds ≠ [] ∧ (∀ c ∈ ds, isDigit c = true) ∧ s = ds ++ Numeral.newlineText nl ∧
      n = digitsValue ds := by
  simp only [digitsOnly] at h
  split_ifs at h with hbig hnil hrest
  have hall : ∀ c ∈ s.takeWhile isDigit, isDigit c = true := List.all_eq_true.mp List.all_takeWhile
  have hsplit := List.takeWhile_append_dropWhile (p := isDigit) (l := s)
  have hn := (Except.ok.inj h).symm
  rcases hrest with hrest | hrest
  · refine ⟨_, false, hnil, hall, ?_, hn⟩
    conv_lhs => rw [← hsplit, hrest]
    rfl
  · refine ⟨_, true, hnil, hall, ?_, hn⟩
    conv_lhs => rw [← hsplit, hrest]
    rfl

theorem checkRange_eq_ok_iff {y : ℤ} : checkRange w y = .ok z ↔ InRange w z ∧ y = z := by
  unfold checkRange
  split_ifs with h
  · constructor
    · intro heq
      cases heq
      exact ⟨h, rfl⟩
    · rintro ⟨_, rfl⟩
      rfl
  · constructor
    · intro heq
      cases heq
    · rintro ⟨hz, rfl⟩
      exact absurd hz h

theorem bind_eq_ok_iff {x : Except Errno ℕ} {f : ℕ → Except Errno ℤ} :
    x.bind f = .ok z ↔ ∃ n, x = .ok n ∧ f n = .ok z := by
  cases x with
  | error e => simp [Except.bind]
  | ok n => simp [Except.bind]

theorem sign_of_isDigit (h : isDigit c = true) : c ≠ byte '-' ∧ c ≠ byte '+' := by
  constructor
  · rintro rfl
    exact absurd h (by decide)
  · rintro rfl
    exact absurd h (by decide)

/-- A number in range has a value of at most 64 bits. -/
theorem fits_of_inRange (hw : w ≤ 64) (hz : InRange w z) (hn : z = n ∨ z = -(n : ℤ)) : n < 2 ^ 64 := by
  have hpow : (2 : ℤ) ^ (w - 1) ≤ 2 ^ 63 := by
    exact_mod_cast Nat.pow_le_pow_right (by decide) (by omega)
  obtain ⟨hlow, hhigh⟩ := hz
  rcases hn with rfl | rfl
  · omega
  · omega

theorem kstrtol_numeral (hw : w ≤ 64) (l : Numeral) (hz : InRange w l.value) :
    kstrtol w l.text = .ok l.value := by
  have hfits : digitsValue l.digits < 2 ^ 64 := by
    apply fits_of_inRange hw hz
    unfold Numeral.value
    split_ifs
    · exact .inr rfl
    · exact .inl rfl
  have hdigits := digitsOnly_numeral l.ne_nil l.all_digits hfits l.newline
  have hrange := checkRange_eq_ok_iff.mpr ⟨hz, rfl⟩
  obtain ⟨sign, ds, nl, hne, hall⟩ := l
  cases sign with
  | none =>
      obtain ⟨c, cs, rfl⟩ := List.exists_cons_of_ne_nil hne
      obtain ⟨hminus, hplus⟩ := sign_of_isDigit (hall c List.mem_cons_self)
      show (if c = byte '-' then _ else if c = byte '+' then _ else _) = _
      rw [if_neg hminus, if_neg hplus]
      show (digitsOnly (c :: cs ++ Numeral.newlineText nl)).bind _ = _
      rw [hdigits]
      exact hrange
  | some negative =>
      cases negative with
      | true =>
          show (digitsOnly (ds ++ Numeral.newlineText nl)).bind _ = _
          rw [hdigits]
          exact hrange
      | false =>
          show (digitsOnly (ds ++ Numeral.newlineText nl)).bind _ = _
          rw [hdigits]
          exact hrange

theorem numeral_of_kstrtol (h : kstrtol w s = .ok z) :
    ∃ l : Numeral, l.text = s ∧ l.value = z := by
  unfold kstrtol at h
  split at h
  · obtain ⟨n, hn, _⟩ := bind_eq_ok_iff.mp h
    cases hn
  · split_ifs at h with hminus hplus
    · obtain ⟨n, hn, hrange⟩ := bind_eq_ok_iff.mp h
      obtain ⟨ds, nl, hne, hall, rfl, rfl⟩ := numeral_of_digitsOnly hn
      refine ⟨⟨some true, ds, nl, hne, hall⟩, ?_, (checkRange_eq_ok_iff.mp hrange).2⟩
      rw [hminus]
      rfl
    · obtain ⟨n, hn, hrange⟩ := bind_eq_ok_iff.mp h
      obtain ⟨ds, nl, hne, hall, rfl, rfl⟩ := numeral_of_digitsOnly hn
      refine ⟨⟨some false, ds, nl, hne, hall⟩, ?_, (checkRange_eq_ok_iff.mp hrange).2⟩
      rw [hplus]
      rfl
    · obtain ⟨n, hn, hrange⟩ := bind_eq_ok_iff.mp h
      obtain ⟨ds, nl, hne, hall, hs, rfl⟩ := numeral_of_digitsOnly hn
      exact ⟨⟨none, ds, nl, hne, hall⟩, hs.symm, (checkRange_eq_ok_iff.mp hrange).2⟩

theorem inRange_of_kstrtol (h : kstrtol w s = .ok z) : InRange w z := by
  unfold kstrtol at h
  split at h
  · obtain ⟨n, _, hrange⟩ := bind_eq_ok_iff.mp h
    exact (checkRange_eq_ok_iff.mp hrange).1
  · split_ifs at h
    all_goals
      obtain ⟨n, _, hrange⟩ := bind_eq_ok_iff.mp h
      exact (checkRange_eq_ok_iff.mp hrange).1

/-- A text is accepted exactly if it is a numeral with a value in range. -/
theorem kstrtol_eq_ok_iff (hw : w ≤ 64) :
    kstrtol w s = .ok z ↔ InRange w z ∧ ∃ l : Numeral, l.text = s ∧ l.value = z := by
  constructor
  · intro h
    exact ⟨inRange_of_kstrtol h, numeral_of_kstrtol h⟩
  · rintro ⟨hz, l, rfl, rfl⟩
    exact kstrtol_numeral hw l hz

/-- A text that does not begin with a sign or a digit is invalid. -/
theorem kstrtol_invalid (hdigit : isDigit c = false) (hminus : c ≠ byte '-') (hplus : c ≠ byte '+') :
    kstrtol w (c :: s) = .error ⟨-EINVAL, neg_EINVAL⟩ := by
  have hnone : (c :: s).takeWhile isDigit = [] := by rw [List.takeWhile_cons, hdigit]; rfl
  have herror : digitsOnly (c :: s) = .error ⟨-EINVAL, neg_EINVAL⟩ := by
    simp only [digitsOnly, hnone]
    rfl
  rw [kstrtol, if_neg hminus, if_neg hplus, herror]
  rfl

theorem checkRange_error (h : checkRange w z = .error e) : e.val = -ERANGE := by
  unfold checkRange at h
  split_ifs at h
  cases h
  rfl

theorem digitsOnly_error (h : digitsOnly s = .error e) : e.val = -EINVAL ∨ e.val = -ERANGE := by
  simp only [digitsOnly] at h
  split_ifs at h
  · cases h
    exact .inr rfl
  · cases h
    exact .inl rfl
  · cases h
    exact .inl rfl

theorem bind_checkRange_error {f : ℕ → ℤ}
    (h : ((digitsOnly s).bind fun n => checkRange w (f n)) = .error e) :
    e.val = -EINVAL ∨ e.val = -ERANGE := by
  cases hs : digitsOnly s with
  | error e' =>
      rw [hs] at h
      cases h
      exact digitsOnly_error hs
  | ok n =>
      rw [hs] at h
      exact .inr (checkRange_error h)

theorem kstrtol_error (h : kstrtol w s = .error e) : e.val = -EINVAL ∨ e.val = -ERANGE := by
  unfold kstrtol at h
  split at h
  · exact bind_checkRange_error h
  · split_ifs at h
    all_goals exact bind_checkRange_error h

open Classical in
/-- The number that a text says, if a type of `w` bits holds it. -/
noncomputable def numberOf (w : ℕ) (s : List UInt8) : Option ℤ :=
  if h : ∃ l : Numeral, l.text = s ∧ InRange w l.value then some h.choose.value else none

theorem numberOf_eq_some_iff (hw : w ≤ 64) : numberOf w s = some z ↔ kstrtol w s = .ok z := by
  unfold numberOf
  split_ifs with h
  · obtain ⟨hs, hz⟩ := h.choose_spec
    have hok := kstrtol_numeral hw h.choose hz
    rw [hs] at hok
    rw [hok, Option.some.injEq, Except.ok.injEq]
  · constructor
    · intro hnone
      cases hnone
    · intro hok
      obtain ⟨hz, l, hs, rfl⟩ := (kstrtol_eq_ok_iff hw).mp hok
      exact absurd ⟨l, hs, hz⟩ h

theorem numberOf_numeral (hw : w ≤ 64) (l : Numeral) (hz : InRange w l.value) :
    numberOf w l.text = some l.value :=
  (numberOf_eq_some_iff hw).mpr (kstrtol_numeral hw l hz)

end Parse

/-! ## Printed numbers -/

section Printed
variable {w n : ℕ} {z : ℤ}

theorem isDigit_of_mem_decimal {c : UInt8} (h : c ∈ decimal n) : isDigit c = true := by
  obtain ⟨hlow, hhigh⟩ := mem_decimal h
  have hzero : byte '0' ≤ c := hlow
  have hnine : c ≤ byte '9' := hhigh
  simp [isDigit, hzero, hnine]

theorem decimal_ne_nil (n : ℕ) : decimal n ≠ [] := by
  intro h
  have hnil : Nat.toDigits 10 n = [] := List.map_eq_nil_iff.mp h
  exact Nat.toDigits_ne_nil hnil

theorem digitsFrom_map {ds : List Char} (h : ∀ c ∈ ds, c.isDigit) (n : ℕ) :
    digitsFrom n (ds.map byte) = Nat.ofDigitChars 10 ds n := by
  induction ds generalizing n with
  | nil => simp [digitsFrom]
  | cons c ds ih =>
      have hbounds := digit_bounds (h c List.mem_cons_self)
      have hbyte := byte_toNat (d := c) (by omega)
      have hrest := ih (fun d hd => h d (List.mem_cons_of_mem c hd)) (10 * n + (c.toNat - 48))
      rw [Nat.ofDigitChars_cons, ← show c.toNat - 48 = c.toNat - '0'.toNat from rfl, ← hrest]
      show digitsFrom (10 * n + ((byte c).toNat - 48)) (ds.map byte) = _
      rw [hbyte]

theorem digitsValue_decimal (n : ℕ) : digitsValue (decimal n) = n := by
  have hall : ∀ c ∈ Nat.toDigits 10 n, c.isDigit := fun c hc =>
    Nat.isDigit_of_mem_toDigits (by decide) (by decide) hc
  exact (digitsFrom_map hall 0).trans Nat.ofDigitChars_ten_toDigits

/-- The numeral of a printed number. -/
def printed (z : ℤ) (newline : Bool) : Numeral where
  sign := if z < 0 then some true else none
  digits := decimal z.natAbs
  newline := newline
  ne_nil := decimal_ne_nil _
  all_digits _ := isDigit_of_mem_decimal

theorem printed_text (z : ℤ) (newline : Bool) :
    (printed z newline).text = decimalInt z ++ Numeral.newlineText newline := by
  unfold decimalInt
  by_cases hz : z < 0
  · simp [printed, Numeral.text, Numeral.signText, hz]
  · simp [printed, Numeral.text, Numeral.signText, hz]

theorem printed_value (z : ℤ) (newline : Bool) : (printed z newline).value = z := by
  unfold Numeral.value printed
  rw [digitsValue_decimal]
  by_cases hz : z < 0
  · rw [if_pos (if_pos hz), Int.ofNat_natAbs_of_nonpos (Int.le_of_lt hz), Int.neg_neg]
  · rw [if_neg (by simp [hz]), Int.natAbs_of_nonneg (Int.not_lt.mp hz)]

theorem decimalInt_inj {y : ℤ} : decimalInt y = decimalInt z ↔ y = z := by
  constructor
  · intro h
    unfold decimalInt at h
    split_ifs at h with hy hz hz
    · have habs := decimal_inj.mp (List.cons.inj h).2
      omega
    · exact absurd (h ▸ List.mem_cons_self) (dash_notMem_decimal z.natAbs)
    · exact absurd (h ▸ List.mem_cons_self) (dash_notMem_decimal y.natAbs)
    · have habs := decimal_inj.mp h
      omega
  · rintro rfl
    rfl

/-- The numbers that a type of `w` bits can give back. -/
theorem toInt_ofInt_eq_iff (hw : 0 < w) : (BitVec.ofInt w z).toInt = z ↔ InRange w z := by
  constructor
  · intro h
    rw [← h]
    exact ⟨BitVec.le_toInt _, BitVec.toInt_lt⟩
  · rintro ⟨hlow, hhigh⟩
    exact BitVec.toInt_ofInt_eq_self hw hlow hhigh

/-- A printed number is read back if it is in range, with or without a newline. -/
theorem kstrtol_decimalInt (hw : w ≤ 64) (hz : InRange w z) (newline : Bool) :
    kstrtol w (decimalInt z ++ Numeral.newlineText newline) = .ok z := by
  have h := kstrtol_numeral hw (printed z newline) (by rwa [printed_value])
  rwa [printed_text, printed_value] at h

end Printed

end LinuxDeviceDrivers.Kstrto
