import Mathlib.Algebra.Group.Nat.Defs
import Mathlib.Data.List.Infix
import Mathlib.Data.Nat.Notation
import Mathlib.Data.Int.Notation

/-!
# C strings and printed numbers

Strings as the bytes before their terminator, `strncmp`, and what the `printf`
family makes of a decimal conversion, of a field width, and of a string that
is taken as a format without any arguments.

The printed numbers are those of `Nat.toDigits`. A decimal number has no dash,
so the last dash of a text ends what stands before a printed number.
-/
namespace LinuxDeviceDrivers.CStrings

/-- The code of an ASCII character. -/
def byte (c : Char) : UInt8 := c.toNat.toUInt8

def ascii (s : String) : List UInt8 := s.toList.map byte

def utf8 (s : String) : List UInt8 := s.toByteArray.data.toList

/-- The bytes of a C string before its terminator. -/
structure CString where
  bytes : List UInt8
  noNul : 0 ∉ bytes
deriving DecidableEq, Repr

/-- `strncmp`, for two strings without their terminators. -/
def strncmp : List UInt8 → List UInt8 → ℕ → ℤ
  | _, _, 0 => 0
  | s, t, n + 1 =>
      if s.headD 0 ≠ t.headD 0 then if s.headD 0 < t.headD 0 then -1 else 1
      else if s.headD 0 = 0 then 0
      else strncmp s.tail t.tail n

/-- `%i` of a number that is not negative. -/
def decimal (n : ℕ) : List UInt8 := (Nat.toDigits 10 n).map byte

/-- `%i` -/
def decimalInt (z : ℤ) : List UInt8 := if z < 0 then byte '-' :: decimal z.natAbs else decimal z.natAbs

/-- A field of at least `w` characters, filled up on the left. -/
def padLeft (w : ℕ) (s : List UInt8) : List UInt8 := List.replicate (w - s.length) (byte ' ') ++ s

/-- The text of a format for which no arguments are passed; there is none if the
format asks for one. -/
def formatNoArgs : List UInt8 → Option (List UInt8)
  | [] => some []
  | c :: s =>
      if c ≠ byte '%' then (formatNoArgs s).map (c :: ·)
      else match s with
        | [] => none
        | d :: s => if d = byte '%' then (formatNoArgs s).map (d :: ·) else none

section Compare
variable {s t : List UInt8}

theorem strncmp_ne_zero {n : ℕ} (h : s.headD 0 ≠ t.headD 0) : strncmp s t (n + 1) ≠ 0 := by
  rw [strncmp, if_pos h]
  split_ifs
  · decide
  · decide

theorem strncmp_cons {c : UInt8} {n : ℕ} (hc : c ≠ 0) :
    strncmp (c :: s) (c :: t) (n + 1) = strncmp s t n := by
  rw [strncmp, List.headD_cons, List.headD_cons, if_neg (not_not.mpr rfl), if_neg hc]
  rfl

theorem strncmp_eq_zero_iff {n : ℕ} (hs : 0 ∉ s) (ht : 0 ∉ t) :
    strncmp s t n = 0 ↔ s.take n = t.take n := by
  induction n generalizing s t with
  | zero => simp [strncmp]
  | succ n ih =>
      cases s with
      | nil =>
          cases t with
          | nil => simp [strncmp]
          | cons d t =>
              have hd : 0 ≠ d := List.ne_of_not_mem_cons ht
              exact iff_of_false (strncmp_ne_zero hd) (by simp)
      | cons c s =>
          have hc : 0 ≠ c := List.ne_of_not_mem_cons hs
          cases t with
          | nil => exact iff_of_false (strncmp_ne_zero hc.symm) (by simp)
          | cons d t =>
              by_cases hcd : c = d
              · subst hcd
                rw [strncmp_cons hc.symm, ih (List.not_mem_of_not_mem_cons hs)
                  (List.not_mem_of_not_mem_cons ht)]
                simp
              · exact iff_of_false (strncmp_ne_zero hcd) (by simp [hcd])

/-- A comparison of as many bytes as one of the strings has looks for a prefix. -/
theorem strncmp_length_eq_zero_iff (hs : 0 ∉ s) (ht : 0 ∉ t) :
    strncmp s t t.length = 0 ↔ t <+: s := by
  rw [strncmp_eq_zero_iff hs ht, List.take_length, List.prefix_iff_eq_take]
  exact eq_comm

end Compare

section Decimal
variable {m n : ℕ} {z : ℤ}

theorem digit_bounds {d : Char} (h : d.isDigit) : 48 ≤ d.toNat ∧ d.toNat ≤ 57 := by
  simp only [Char.isDigit, Bool.and_eq_true, decide_eq_true_eq] at h
  exact ⟨h.1, h.2⟩

theorem byte_toNat {d : Char} (h : d.toNat < 256) : (byte d).toNat = d.toNat := by
  exact Nat.mod_eq_of_lt h

theorem mem_decimal {c : UInt8} (h : c ∈ decimal n) : 48 ≤ c.toNat ∧ c.toNat ≤ 57 := by
  obtain ⟨d, hd, rfl⟩ := List.mem_map.mp h
  have hdigit := digit_bounds (Nat.isDigit_of_mem_toDigits (by decide) (by decide) hd)
  rw [byte_toNat (by omega)]
  exact hdigit

theorem dash_notMem_decimal (n : ℕ) : byte '-' ∉ decimal n := by
  intro h
  have hlow := (mem_decimal h).1
  exact absurd hlow (by decide)

theorem nul_notMem_decimal (n : ℕ) : 0 ∉ decimal n := by
  intro h
  have hlow := (mem_decimal h).1
  exact absurd hlow (by decide)

/-- The number that was printed can be read back from its digits. -/
theorem decimal_inj : decimal m = decimal n ↔ m = n := by
  have hback (k : ℕ) : (decimal k).map (fun c => Char.ofNat c.toNat) = Nat.toDigits 10 k := by
    unfold decimal
    rw [List.map_map]
    refine (List.map_congr_left fun d hd => ?_).trans (List.map_id _)
    have hdigit := digit_bounds (Nat.isDigit_of_mem_toDigits (by decide) (by decide) hd)
    show Char.ofNat (byte d).toNat = d
    rw [byte_toNat (by omega)]
    exact Char.ofNat_toNat d
  constructor
  · intro h
    have hdigits : Nat.toDigits 10 m = Nat.toDigits 10 n := by
      rw [← hback m, ← hback n, h]
    have hvalue := congrArg (fun ds => Nat.ofDigitChars 10 ds 0) hdigits
    simpa only [Nat.ofDigitChars_ten_toDigits] using hvalue
  · intro h
    rw [h]

theorem length_decimal_le_iff {k : ℕ} (hk : 0 < k) : (decimal n).length ≤ k ↔ n < 10 ^ k := by
  rw [decimal, List.length_map]
  exact Nat.length_toDigits_le_iff (by decide) hk

theorem length_decimalInt_le {k : ℕ} (hk : 0 < k) (hz : z.natAbs < 10 ^ k) :
    (decimalInt z).length ≤ k + 1 := by
  have hlen := (length_decimal_le_iff hk).mpr hz
  unfold decimalInt
  split_ifs
  · exact Nat.succ_le_succ hlen
  · exact Nat.le_succ_of_le hlen

theorem nul_notMem_decimalInt (z : ℤ) : 0 ∉ decimalInt z := by
  unfold decimalInt
  split_ifs
  · rw [List.mem_cons, not_or]
    exact ⟨by decide, nul_notMem_decimal _⟩
  · exact nul_notMem_decimal _

/-- A text is cut in one way only at the last occurrence of a byte. -/
theorem append_cons_inj_last {s t x y : List UInt8} {a : UInt8} (hx : a ∉ x) (hy : a ∉ y) :
    s ++ a :: x = t ++ a :: y ↔ s = t ∧ x = y := by
  constructor
  · intro h
    rcases List.append_eq_append_iff.mp h with ⟨c, rfl, hc⟩ | ⟨c, rfl, hc⟩
    · cases c with
      | nil => exact ⟨(List.append_nil s).symm, (List.cons.inj hc).2⟩
      | cons d c =>
          have hmem : a ∈ x := by
            rw [(List.cons.inj hc).2]
            exact List.mem_append_right c List.mem_cons_self
          exact absurd hmem hx
    · cases c with
      | nil => exact ⟨List.append_nil t, (List.cons.inj hc).2.symm⟩
      | cons d c =>
          have hmem : a ∈ y := by
            rw [(List.cons.inj hc).2]
            exact List.mem_append_right c List.mem_cons_self
          exact absurd hmem hy
  · rintro ⟨rfl, rfl⟩
    rfl

theorem append_dash_decimal_inj {s t : List UInt8} :
    s ++ byte '-' :: decimal m = t ++ byte '-' :: decimal n ↔ s = t ∧ m = n := by
  rw [append_cons_inj_last (dash_notMem_decimal m) (dash_notMem_decimal n), decimal_inj]

end Decimal

theorem length_padLeft (w : ℕ) (s : List UInt8) : (padLeft w s).length = max w s.length := by
  rw [padLeft, List.length_append, List.length_replicate]
  omega

section Format
variable {s t : List UInt8}

theorem formatNoArgs_cons {c : UInt8} (hc : c ≠ byte '%') :
    formatNoArgs (c :: s) = (formatNoArgs s).map (c :: ·) := by
  rw [formatNoArgs.eq_def]
  exact if_pos hc

theorem formatNoArgs_of_notMem (h : byte '%' ∉ s) : formatNoArgs s = some s := by
  induction s with
  | nil => rfl
  | cons c s ih =>
      have hc : c ≠ byte '%' := (List.ne_of_not_mem_cons h).symm
      rw [formatNoArgs_cons hc, ih (List.not_mem_of_not_mem_cons h)]
      rfl

/-- Every conversion in a format that has a text takes more room than it prints. -/
theorem formatNoArgs_length (h : formatNoArgs s = some t) :
    t.length ≤ s.length ∧ (byte '%' ∈ s → t.length < s.length) := by
  induction s using formatNoArgs.induct generalizing t with
  | case1 =>
      cases h
      simp
  | case2 c s hc ih =>
      rw [formatNoArgs_cons hc] at h
      obtain ⟨u, hu, rfl⟩ := Option.map_eq_some_iff.mp h
      obtain ⟨hle, hlt⟩ := ih hu
      constructor
      · exact Nat.succ_le_succ hle
      · intro hmem
        have hs := (List.mem_cons.mp hmem).resolve_left hc.symm
        exact Nat.succ_lt_succ (hlt hs)
  | case3 c hc =>
      simp [formatNoArgs, not_not.mp hc] at h
  | case4 c hc s ih =>
      simp only [formatNoArgs, if_neg hc, if_true] at h
      obtain ⟨u, hu, rfl⟩ := Option.map_eq_some_iff.mp h
      have hle := (ih hu).1
      simp only [List.length_cons]
      omega
  | case5 c hc d s hd =>
      simp [formatNoArgs, not_not.mp hc, hd] at h

end Format

end LinuxDeviceDrivers.CStrings
