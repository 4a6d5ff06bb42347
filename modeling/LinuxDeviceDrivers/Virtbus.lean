import LinuxDeviceDrivers.KernelPrimitives

/-!
# Names on the virtbus

`register_virtbus_device` names a device after its owner's name and id, and
`virtbus_match` compares this name with that of a driver, for as many characters
as the driver's name has. A driver is therefore offered every device whose name
begins with its own: the devices of its name, whatever their ids, and others.

The name does not tell a dash in front of the id from the sign of the id, nor,
as the driver core replaces slashes, a slash from an exclamation mark. Nothing
else is lost in it.
-/
namespace LinuxDeviceDrivers.Virtbus
open KernelPrimitives CStrings

/-- The fields of `struct virtbus_dev` that its owner fills in. -/
structure VirtbusDev where
  name : CString
  id : BitVec 32
deriving DecidableEq, Repr

def nameAndId (virtbusdev : VirtbusDev) : CString where
  bytes := virtbusdev.name.bytes ++ byte '-' :: decimalInt virtbusdev.id.toInt
  noNul h := by
    rcases List.mem_append.mp h with hname | hrest
    · exact virtbusdev.name.noNul hname
    · rcases List.mem_cons.mp hrest with hdash | hid
      · exact absurd hdash (by decide)
      · exact nul_notMem_decimalInt _ hid

/-- `dev_name` of the device, as `register_virtbus_device` sets it. -/
def registeredName (virtbusdev : VirtbusDev) : CString := kobjectSetName (nameAndId virtbusdev)

def virtbusMatch (devName driverName : CString) : Bool :=
  strncmp devName.bytes driverName.bytes driverName.bytes.length == 0

/-- A driver is offered the devices whose names begin with its own name. -/
theorem virtbusMatch_iff_prefix (virtbusdev : VirtbusDev) (driverName : CString) :
    virtbusMatch (registeredName virtbusdev) driverName = true ↔
      driverName.bytes <+: (registeredName virtbusdev).bytes := by
  rw [virtbusMatch, beq_iff_eq]
  exact strncmp_length_eq_zero_iff (registeredName virtbusdev).noNul driverName.noNul

def virtbusDev0 : VirtbusDev := ⟨⟨ascii "virtbus-fifo-dev", by decide⟩, 0⟩

/-- A driver with the name of another kind of device is offered this one. -/
theorem not_matchesExactly :
    ¬∀ (virtbusdev : VirtbusDev) (driverName : CString),
      virtbusMatch (registeredName virtbusdev) driverName = true →
        driverName = registeredName virtbusdev ∨ driverName = virtbusdev.name := by
  intro h
  have hshort := h virtbusDev0 ⟨ascii "virtbus-fifo", by decide⟩ (by decide)
  exact absurd hshort (by decide)

/-! ## Devices of one name -/

def storedName (virtbusdev : VirtbusDev) : List UInt8 := virtbusdev.name.bytes.map strreplaceSlash

/-- What stands in the name of the device before the digits of the id and their dash. -/
def stem (virtbusdev : VirtbusDev) : List UInt8 :=
  if virtbusdev.id.toInt < 0 then storedName virtbusdev ++ [byte '-'] else storedName virtbusdev

/-- The names differ at most in slashes and exclamation marks, and the ids not at all. -/
def Alike (v w : VirtbusDev) : Prop := storedName v = storedName w ∧ v.id = w.id

/-- The one device has a negative id, the other the same id without the sign and
a name with one more dash. -/
def Mirrored (v w : VirtbusDev) : Prop :=
  v.id.toInt < 0 ∧ w.id.toInt = -v.id.toInt ∧ storedName w = storedName v ++ [byte '-']

section Names
variable {v w : VirtbusDev}

theorem map_strreplaceSlash_decimal (n : ℕ) : (decimal n).map strreplaceSlash = decimal n := by
  rw [map_strreplaceSlash_eq_self_iff]
  intro h
  have hlow := (mem_decimal h).1
  exact absurd hlow (by decide)

theorem registeredName_bytes (v : VirtbusDev) :
    (registeredName v).bytes = stem v ++ byte '-' :: decimal v.id.toInt.natAbs := by
  have hdash : strreplaceSlash (byte '-') = byte '-' := by decide
  simp only [registeredName, kobjectSetName, nameAndId, decimalInt, List.map_append, List.map_cons,
    hdash, stem]
  split_ifs with hneg
  · rw [List.map_cons, hdash, map_strreplaceSlash_decimal, List.append_assoc]
    rfl
  · rw [map_strreplaceSlash_decimal]
    rfl

theorem registeredName_eq_iff_stem :
    registeredName v = registeredName w ↔ stem v = stem w ∧ v.id.toInt.natAbs = w.id.toInt.natAbs := by
  rw [← append_dash_decimal_inj, ← registeredName_bytes, ← registeredName_bytes]
  constructor
  · intro h
    rw [h]
  · intro h
    cases hv : registeredName v
    cases hw : registeredName w
    rw [hv, hw] at h
    cases h
    rfl

theorem not_mirrored_of_nonneg (h : ¬v.id.toInt < 0) : ¬Mirrored v w := fun hm => h hm.1

theorem not_mirrored_of_neg (h : w.id.toInt < 0) : ¬Mirrored v w := by
  intro hm
  have hv := hm.1
  have hw := hm.2.1
  omega

theorem mirrored_iff (hv : v.id.toInt < 0) (hw : ¬w.id.toInt < 0) :
    Mirrored v w ↔ storedName v ++ [byte '-'] = storedName w ∧
      v.id.toInt.natAbs = w.id.toInt.natAbs := by
  constructor
  · intro h
    have hid := h.2.1
    exact ⟨h.2.2.symm, by omega⟩
  · intro h
    have habs := h.2
    exact ⟨hv, by omega, h.1.symm⟩

theorem alike_iff (h : v.id.toInt < 0 ↔ w.id.toInt < 0) :
    Alike v w ↔ storedName v = storedName w ∧ v.id.toInt.natAbs = w.id.toInt.natAbs := by
  refine and_congr_right fun _ => ?_
  rw [← BitVec.toInt_inj]
  omega

theorem not_alike (hv : v.id.toInt < 0) (hw : ¬w.id.toInt < 0) : ¬Alike v w := by
  intro h
  rw [h.2] at hv
  exact hw hv

end Names

/-- Two devices get one name exactly if they are alike or mirrored. -/
theorem registeredName_eq_iff (v w : VirtbusDev) :
    registeredName v = registeredName w ↔ Alike v w ∨ Mirrored v w ∨ Mirrored w v := by
  rw [registeredName_eq_iff_stem]
  by_cases hv : v.id.toInt < 0
  · by_cases hw : w.id.toInt < 0
    · rw [stem, stem, if_pos hv, if_pos hw, List.append_cancel_right_eq,
        alike_iff (iff_of_true hv hw)]
      simp only [not_mirrored_of_neg hw, not_mirrored_of_neg hv, or_false]
    · rw [stem, stem, if_pos hv, if_neg hw, mirrored_iff hv hw]
      simp only [not_alike hv hw, not_mirrored_of_nonneg hw, or_false, false_or]
  · by_cases hw : w.id.toInt < 0
    · have hnot : ¬Alike v w := fun h => not_alike hw hv ⟨h.1.symm, h.2.symm⟩
      rw [stem, stem, if_neg hv, if_pos hw, mirrored_iff hw hv]
      simp only [hnot, not_mirrored_of_nonneg hv, false_or]
      exact and_congr eq_comm eq_comm
    · rw [stem, stem, if_neg hv, if_neg hw, alike_iff (iff_of_false hv hw)]
      simp only [not_mirrored_of_nonneg hv, not_mirrored_of_nonneg hw, or_false]

/-- The name `a-` with the id 1 and the name `a` with the id -1 give one device name,
and so do `a/b` and `a!b` with one id. -/
theorem not_registeredName_inj :
    (¬∀ v w : VirtbusDev, v ≠ w → registeredName v ≠ registeredName w) ∧
      ¬∀ v w : VirtbusDev, v ≠ w → ¬Mirrored v w → ¬Mirrored w v →
        registeredName v ≠ registeredName w := by
  constructor
  · intro h
    exact h ⟨⟨ascii "a-", by decide⟩, 1⟩ ⟨⟨ascii "a", by decide⟩, -1⟩ (by decide) (by decide)
  · intro h
    have hzero (v : VirtbusDev) (hv : v.id = 0) : ¬v.id.toInt < 0 := by
      rw [hv]
      decide
    exact h ⟨⟨ascii "a/b", by decide⟩, 0⟩ ⟨⟨ascii "a!b", by decide⟩, 0⟩ (by decide)
      (not_mirrored_of_nonneg (hzero _ rfl)) (not_mirrored_of_nonneg (hzero _ rfl)) (by decide)

end LinuxDeviceDrivers.Virtbus
