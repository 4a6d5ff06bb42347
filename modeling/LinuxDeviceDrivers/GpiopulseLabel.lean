import LinuxDeviceDrivers.ChardrvsIoctl
import LinuxDeviceDrivers.CStrings
import LinuxDeviceDrivers.GpiopulseProbe

/-!
# The label of pltdrv_gpiopulse

`parse_dt_arg_dev` copies the label of the device tree to `char label[16]`, which
lies right before `desc`, and the probe passes that field on as the format of
the device name. Nothing looks at the label before.

A label that is too long runs over into `desc`, one with a conversion is taken
for a format, and of one with a slash the driver core makes another name.
-/
namespace LinuxDeviceDrivers.GpiopulseLabel
open ChardrvsIoctl (Kernel LongSize intBytes)
open CStrings FlatMemory KernelPrimitives

/-! ## The probe -/

/-- `struct pltdata_gpiopulse` at address `p`: where its fields lie. -/
def enablepulseAt (p : ℕ) : ℕ := p

def pulsetimeAt (p : ℕ) : ℕ := p + 4

def labelAt (p : ℕ) : ℕ := p + 8

def descAt (p : ℕ) : ℕ := p + 24

/-- `sizeof(label)` -/
def labelSize : ℕ := 16

abbrev Bytes := ℕ → UInt8

def strcpy (m : Bytes) (dst : ℕ) (src : CString) : Bytes := store m dst (src.bytes ++ [0])

section Probe
variable (k : Kernel)

/-- What the other calls of the probe return. `pltData` is the address of
`plt_data_prv`, and there is none if `devm_kzalloc` has had no memory; `label`
says that the label could be read, `desc` is the result of `gpio_to_desc`. -/
structure Calls where
  pltData : Option ℕ
  ofNode : Bool
  gpioRequest : Bool
  desc : BitVec k.longBits
  label : Bool
  enablepulse : Option (BitVec 32)
  pulsetime : Option (BitVec 32)
  deviceCreate : Except Errno Unit
  directionOutput : Except Errno Unit

end Probe

variable {k : Kernel}

/-- `none` is the crash on the null pointer. -/
def parseDtArgDev (c : Calls k) (label : CString) (m : Bytes) : Option (Except ℤ Bytes) :=
  if !c.ofNode then some (.error (-EINVAL))
  else if !c.gpioRequest then some (.error (-ENOMEM))
  else match c.pltData with
    | none => none
    | some p =>
        let m := storeNum k.order m (descAt p) k.long.bytes c.desc.toNat
        if !c.label then some (.error (-EINVAL))
        else
          let m := strcpy m (labelAt p) label
          match c.enablepulse with
          | none => some (.error (-EINVAL))
          | some enablepulse =>
              let m := storeNum k.order m (enablepulseAt p) intBytes enablepulse.toNat
              match c.pulsetime with
              | none => some (.error (-EINVAL))
              | some pulsetime =>
                  some (.ok (storeNum k.order m (pulsetimeAt p) intBytes pulsetime.toNat))

/-- The string at `label`, as far as there are addresses. -/
def labelText (k : Kernel) (p : ℕ) (m : Bytes) : List UInt8 :=
  loadUntil 0 m (labelAt p) (2 ^ k.longBits)

/-- The name of the device, if the format needs no arguments. -/
def deviceName (k : Kernel) (p : ℕ) (m : Bytes) : Option (List UInt8) :=
  (formatNoArgs (labelText k p m)).map fun s => s.map strreplaceSlash

inductive Outcome where
  | crashed
  | error (ret : ℤ)
  | probed (m : Bytes) (name : Option (List UInt8))

def pltdrvGpiopulseProbe (c : Calls k) (label : CString) (m : Bytes) : Outcome :=
  match parseDtArgDev c label m with
  | none => .crashed
  | some (.error ret) => .error ret
  | some (.ok m) =>
      match c.deviceCreate with
      | .error err => .error err.val
      | .ok () =>
          match c.directionOutput with
          | .error err => .error err.val
          | .ok () => .probed m (deviceName k (c.pltData.getD 0) m)

def showText (s : List UInt8) : List UInt8 := ascii "sysfs show : device label " ++ s ++ ascii "\n"

def labelShow (k : Kernel) (p : ℕ) (m : Bytes) : List UInt8 := showText (labelText k p m)

/-! ## Labels that come out as they went in -/

/-- The label as it should be after a probe. -/
structure Stored (c : Calls k) (label : CString) (p : ℕ) (m : Bytes)
    (name : Option (List UInt8)) : Prop where
  field : label.bytes ++ [0] <+: load m (labelAt p) labelSize
  desc : loadNum k.order m (descAt p) k.long.bytes = c.desc.toNat
  name : name = some label.bytes
  shown : labelShow k p m = showText label.bytes

/-- The probe returns an error or stores the label. -/
def Handles (c : Calls k) (label : CString) (m : Bytes) : Prop :=
  match pltdrvGpiopulseProbe c label m with
  | .crashed => False
  | .error ret => ret < 0
  | .probed m name => ∃ p, c.pltData = some p ∧ Stored c label p m name

/-- Some other call ends the probe with an error. -/
def Rejects (c : Calls k) : Prop :=
  c.ofNode = false ∨ c.gpioRequest = false ∨
    c.pltData ≠ none ∧ (c.label = false ∨ c.enablepulse = none ∨ c.pulsetime = none ∨
      c.deviceCreate ≠ .ok () ∨ c.directionOutput ≠ .ok ())

/-- A label that fits its field, is no format and can be the name of a device. -/
structure Plain (label : CString) : Prop where
  length : label.bytes.length < labelSize
  percent : byte '%' ∉ label.bytes
  slash : byte '/' ∉ label.bytes

section Label
variable {c : Calls k} {label : CString} {p : ℕ} {m m' : Bytes}

/-- The memory after the probe, from the label on: the last store there is that of
the label. -/
def Filled (c : Calls k) (label : CString) (p : ℕ) (m m' : Bytes) : Prop :=
  ∀ i, labelAt p ≤ i →
    m' i = strcpy (storeNum k.order m (descAt p) k.long.bytes c.desc.toNat) (labelAt p) label i

theorem filled (enablepulse pulsetime : BitVec 32) :
    Filled c label p m
      (storeNum k.order
        (storeNum k.order
          (strcpy (storeNum k.order m (descAt p) k.long.bytes c.desc.toNat) (labelAt p) label)
          (enablepulseAt p) intBytes enablepulse.toNat)
        (pulsetimeAt p) intBytes pulsetime.toNat) := by
  intro i hi
  have hlabel : p + 8 ≤ i := hi
  rw [storeNum_frame pulsetime.isLt, storeNum_frame enablepulse.isLt]
  · right
    show p + 4 ≤ i
    omega
  · right
    show p + 4 + 4 ≤ i
    omega

/-- What becomes of the probe, read off its calls. -/
theorem probe_cases (c : Calls k) (label : CString) (m : Bytes) :
    (Rejects c ∧ ∃ ret < 0, pltdrvGpiopulseProbe c label m = .error ret) ∨
      (¬Rejects c ∧ c.pltData = none ∧ pltdrvGpiopulseProbe c label m = .crashed) ∨
      (¬Rejects c ∧ ∃ p m', c.pltData = some p ∧ Filled c label p m m' ∧
        pltdrvGpiopulseProbe c label m = .probed m' (deviceName k p m')) := by
  obtain ⟨pltData, ofNode, gpioRequest, desc, hasLabel, enablepulse, pulsetime, create, output⟩ := c
  cases ofNode with
  | false => exact .inl ⟨.inl rfl, _, by decide, rfl⟩
  | true =>
  cases gpioRequest with
  | false => exact .inl ⟨.inr (.inl rfl), _, by decide, rfl⟩
  | true =>
  cases pltData with
  | none => exact .inr (.inl ⟨by simp [Rejects], rfl, rfl⟩)
  | some p =>
  cases hasLabel with
  | false => exact .inl ⟨by simp [Rejects], _, by decide, rfl⟩
  | true =>
  cases enablepulse with
  | none => exact .inl ⟨by simp [Rejects], _, by decide, rfl⟩
  | some enablepulse =>
  cases pulsetime with
  | none => exact .inl ⟨by simp [Rejects], _, by decide, rfl⟩
  | some pulsetime =>
  cases create with
  | error err => exact .inl ⟨by simp [Rejects], _, err.neg, rfl⟩
  | ok created =>
  cases output with
  | error err => exact .inl ⟨by simp [Rejects], _, err.neg, rfl⟩
  | ok set =>
      exact .inr (.inr ⟨by simp [Rejects], p, _, rfl, filled enablepulse pulsetime, rfl⟩)

/-- What `parse_dt_arg_dev` gets in a probe whose label fits. -/
def dtArgs (c : Calls k) (label : GpiopulseProbe.Label) : GpiopulseProbe.DtArgs where
  ofNode := c.ofNode
  gpioRequest := c.gpioRequest
  label := if c.label then some label else none
  enablepulse := c.enablepulse
  pulsetime := c.pulsetime

/-- The results are those of the probe with the label as a value. -/
theorem parseDtArgDev_agrees (c : Calls k) (label : CString) (m : Bytes)
    (fitting : GpiopulseProbe.Label) :
    (parseDtArgDev c label m).map (Except.map fun _ => ()) =
      (GpiopulseProbe.parseDtArgDev c.pltData.isSome (dtArgs c fitting)).map
        (Except.map fun _ => ()) := by
  obtain ⟨pltData, ofNode, gpioRequest, desc, hasLabel, enablepulse, pulsetime, create, output⟩ := c
  cases ofNode with
  | false => rfl
  | true =>
  cases gpioRequest with
  | false => rfl
  | true =>
  cases pltData with
  | none => rfl
  | some p =>
  cases hasLabel with
  | false => rfl
  | true =>
  cases enablepulse with
  | none => rfl
  | some enablepulse =>
  cases pulsetime with
  | none => rfl
  | some pulsetime => rfl

theorem load_filled (h : Filled c label p m m') (n : ℕ) :
    load m' (labelAt p) n =
      load (strcpy (storeNum k.order m (descAt p) k.long.bytes c.desc.toNat) (labelAt p) label)
        (labelAt p) n :=
  load_congr fun i hi _ => h i hi

theorem field_iff (h : Filled c label p m m') :
    label.bytes ++ [0] <+: load m' (labelAt p) labelSize ↔ label.bytes.length < labelSize := by
  rw [load_filled h, strcpy, prefix_load_store_iff, List.length_append]
  exact Nat.succ_le_iff

theorem labelText_filled (h : Filled c label p m m') (hlen : label.bytes.length < labelSize) :
    labelText k p m' = label.bytes := by
  have hfit : labelSize ≤ 2 ^ k.longBits := by
    cases hlong : k.long with
    | w32 =>
        rw [Kernel.longBits, hlong]
        decide
    | w64 =>
        rw [Kernel.longBits, hlong]
        decide
  rw [labelText, loadUntil_congr h]
  exact loadUntil_store label.noNul (Nat.lt_of_lt_of_le hlen hfit)

theorem desc_filled (h : Filled c label p m m') (hlen : label.bytes.length < labelSize) :
    loadNum k.order m' (descAt p) k.long.bytes = c.desc.toNat := by
  have hbits : c.desc.toNat < 256 ^ k.long.bytes := by
    have hlt : c.desc.toNat < 2 ^ (8 * k.long.bytes) := c.desc.isLt
    rwa [Nat.pow_mul] at hlt
  have hframe : load m' (descAt p) k.long.bytes =
      load (storeNum k.order m (descAt p) k.long.bytes c.desc.toNat) (descAt p) k.long.bytes := by
    apply load_congr
    intro i hi _
    have hdesc : p + 24 ≤ i := hi
    have hsize : label.bytes.length < 16 := hlen
    rw [h i (show p + 8 ≤ i by omega), strcpy]
    apply store_of_le
    rw [List.length_append]
    show p + 8 + (label.bytes.length + 1) ≤ i
    omega
  rw [loadNum, hframe]
  exact loadNum_storeNum_self hbits

/-- The name is the label if and only if nothing in it has a meaning of its own. -/
theorem deviceName_filled_iff (h : Filled c label p m m')
    (hlen : label.bytes.length < labelSize) :
    deviceName k p m' = some label.bytes ↔
      byte '%' ∉ label.bytes ∧ byte '/' ∉ label.bytes := by
  rw [deviceName, labelText_filled h hlen]
  constructor
  · intro hname
    obtain ⟨s, hs, hmap⟩ := Option.map_eq_some_iff.mp hname
    have hlength : s.length = label.bytes.length := by
      rw [← hmap, List.length_map]
    have hpercent : byte '%' ∉ label.bytes := by
      intro hmem
      exact absurd hlength (Nat.ne_of_lt ((formatNoArgs_length hs).2 hmem))
    rw [formatNoArgs_of_notMem hpercent, Option.some.injEq] at hs
    subst hs
    exact ⟨hpercent, map_strreplaceSlash_eq_self_iff.mp hmap⟩
  · rintro ⟨hpercent, hslash⟩
    rw [formatNoArgs_of_notMem hpercent, Option.map_some, map_strreplaceSlash_eq_self_iff.mpr hslash]

theorem stored_iff_plain (h : Filled c label p m m') :
    Stored c label p m' (deviceName k p m') ↔ Plain label := by
  constructor
  · intro hstored
    have hlen := (field_iff h).mp hstored.field
    obtain ⟨hpercent, hslash⟩ := (deviceName_filled_iff h hlen).mp hstored.name
    exact ⟨hlen, hpercent, hslash⟩
  · intro hplain
    exact ⟨(field_iff h).mpr hplain.length, desc_filled h hplain.length,
      (deviceName_filled_iff h hplain.length).mpr ⟨hplain.percent, hplain.slash⟩,
      congrArg showText (labelText_filled h hplain.length)⟩

/-- For every label and all results of the other calls. -/
theorem handles_iff_plain (c : Calls k) (label : CString) (m : Bytes) :
    Handles c label m ↔ Rejects c ∨ (c.pltData ≠ none ∧ Plain label) := by
  rcases probe_cases c label m with ⟨hrejects, ret, hret, hprobe⟩ | ⟨hgoes, hnull, hprobe⟩ |
    ⟨hgoes, p, m', hdata, hfilled, hprobe⟩
  · rw [Handles, hprobe]
    exact iff_of_true hret (.inl hrejects)
  · rw [Handles, hprobe]
    exact iff_of_false (fun h => h) fun h => h.elim hgoes fun hdata => hdata.1 hnull
  · rw [Handles, hprobe]
    show (∃ q, c.pltData = some q ∧ Stored c label q m' (deviceName k p m')) ↔ _
    rw [or_iff_right hgoes, hdata, ← stored_iff_plain hfilled]
    constructor
    · rintro ⟨q, hq, hstored⟩
      obtain rfl : p = q := Option.some.inj hq
      exact ⟨Option.some_ne_none _, hstored⟩
    · rintro ⟨_, hstored⟩
      exact ⟨p, rfl, hstored⟩

end Label

/-- A probe on a machine with 64-bit words in which every call succeeds. -/
def goodCalls : Calls ⟨.w64, .little, 2 ^ 47⟩ where
  pltData := some 0x1060
  ofNode := true
  gpioRequest := true
  desc := 0x2078
  label := true
  enablepulse := some 1
  pulsetime := some 500
  deviceCreate := .ok ()
  directionOutput := .ok ()

/-- A label of 16 characters; its terminator is written to `desc`. -/
def longLabel : CString := ⟨ascii "gpiopulse-output", by decide⟩

theorem not_handles_longLabel :
    ¬∀ (k : Kernel) (c : Calls k) (label : CString) (m : Bytes), Handles c label m := by
  intro h
  obtain ⟨p, -, hstored⟩ := h _ goodCalls longLabel fun _ => 0
  have hlength := hstored.field.length_le
  rw [load_length] at hlength
  exact absurd hlength (by decide)

end LinuxDeviceDrivers.GpiopulseLabel
