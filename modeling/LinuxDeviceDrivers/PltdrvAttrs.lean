import LinuxDeviceDrivers.ChardrvsIoctl
import LinuxDeviceDrivers.Kstrto
import LinuxDeviceDrivers.PltdrvProbe
import Mathlib.Data.List.TakeWhile

/-!
# The attributes of pltdrv_attr_dt

`show_fsize`, `show_fversion` and `store_fversion` on the devices that
`pltdrv_probe` has bound, between the probes and removes of any devices. The two
files of a device are there as long as its sysfs group is.

What the files tell is compared with the settings of the devices: the platform
data of the probe, and in place of their version the last number that was
written. The version is an `int`, but `store_fversion` takes every number that
a `long` holds.
-/
namespace LinuxDeviceDrivers.PltdrvAttrs
open ChardrvsIoctl (LongSize)
open CStrings KernelPrimitives Kstrto PltdrvProbe TransitionSystem

/-! ## The functions of the source -/

/-- What the C string functions see of a buffer that sysfs has terminated. -/
def cString (buf : List UInt8) : List UInt8 := buf.takeWhile (· != 0)

def fsizeText (z : ℤ) : List UInt8 :=
  ascii "sysfs show : device fifo size " ++ decimalInt z ++ ascii "\n"

def fversionText (z : ℤ) : List UInt8 :=
  ascii "sysfs show : device fifo version " ++ decimalInt z ++ ascii "\n"

section Functions
variable (k : LongSize) (d : ℕ)

/-- The text that is left in the buffer; its length is returned. There is none if
the device has no driver data. -/
def showFsize (s : State) : Option (List UInt8) :=
  (s.drvdata d).map fun devData => fsizeText devData.pltDataPrv.fsize.toInt

def showFversion (s : State) : Option (List UInt8) :=
  (s.drvdata d).map fun devData => fversionText devData.pltDataPrv.version.toInt

/-- The assignment to `plt_data_prv.version` keeps the low bits of the `long`. -/
def setVersion (devData : FifoPrvtDevc) (ver : ℤ) : FifoPrvtDevc :=
  { devData with pltDataPrv := { devData.pltDataPrv with version := BitVec.ofInt 32 ver } }

def storeFversion (buf : List UInt8) (s : State) : ℤ × State :=
  match kstrtol (8 * k.bytes) (cString buf) with
  | .error ret => (ret.val, s)
  | .ok ver =>
      match s.drvdata d with
      | none => (0, { s with oops := true })
      | some devData => (buf.length, s.setDrvdata d (some (setVersion devData ver)))

end Functions

inductive Access where
  | driver (a : Call)
  | store (d : ℕ) (buf : List UInt8)
deriving DecidableEq, Repr

/-- A write finds the file while the sysfs group is there. -/
def access (k : LongSize) (s : State) : Access → Option State
  | .driver a => call s a
  | .store d buf =>
      if .sysfsGroup d ∈ s.ledger.held then some (storeFversion k d buf s).2 else none

def system (k : LongSize) : System State Access where
  start := PltdrvProbe.system.start
  next := access k

/-! ## Settings -/

/-- What the user of a device has been told about it, as numbers. -/
structure Setting where
  version : ℤ
  fsize : ℤ
deriving DecidableEq, Repr

def Setting.ofData (p : PltdataFifo) : Setting := ⟨p.version.toInt, p.fsize.toInt⟩

/-- The values that a device comes with. -/
def comesWith (ofdev : PlatformDevice) (x : Results) : Option PltdataFifo :=
  if ofdev.compatible then
    x.version.bind fun version => x.fsize.map fun fsize => ⟨version, fsize⟩
  else ofdev.platdata

/-- A probe that succeeds gives a device its values, a number that is written
takes the place of its version, and a remove takes them away. -/
noncomputable def record (k : LongSize) (s : State) :
    Access → (ℕ → Option Setting) → ℕ → Option Setting
  | .driver (.probe d ofdev x), h =>
      if (pltdrvProbe d s ofdev x).1 = 0 then
        Function.update h d ((comesWith ofdev x).map Setting.ofData)
      else h
  | .driver (.remove d), h => Function.update h d none
  | .store d buf, h =>
      match numberOf (8 * k.bytes) (cString buf) with
      | none => h
      | some z => Function.update h d ((h d).map fun p => { p with version := z })

noncomputable def observed (k : LongSize) : System (State × (ℕ → Option Setting)) Access :=
  (system k).withHistory (fun _ _ => none) (record k)

/-- The driver data that stand for a setting. -/
structure Stands (v : FifoPrvtDevc) (p : Setting) : Prop where
  version : v.pltDataPrv.version = BitVec.ofInt 32 p.version
  fsize : v.pltDataPrv.fsize.toInt = p.fsize

/-- The files of a device are there while it has a setting. They show its size,
and its version if that is the value of an `int`; a write is accepted exactly if
it says a number that a `long` holds, and changes nothing otherwise. -/
structure Agrees (k : LongSize) (s : State) (h : ℕ → Option Setting) : Prop where
  files : ∀ d, .sysfsGroup d ∈ s.ledger.held ↔ ∃ p, h d = some p
  fsize : ∀ d p, h d = some p → showFsize d s = some (fsizeText p.fsize)
  fversion : ∀ d p, h d = some p →
    (showFversion d s = some (fversionText p.version) ↔ InRange 32 p.version)
  accepted : ∀ d p buf z, h d = some p → numberOf (8 * k.bytes) (cString buf) = some z →
    (storeFversion k d buf s).1 = buf.length
  refused : ∀ d buf, numberOf (8 * k.bytes) (cString buf) = none →
    storeFversion k d buf s = (-EINVAL, s) ∨ storeFversion k d buf s = (-ERANGE, s)
  noOops : s.oops = false

section Store
variable {k : LongSize} {d : ℕ} {s : State} {v : FifoPrvtDevc} {buf : List UInt8} {z : ℤ}

theorem longBits_le (k : LongSize) : 8 * k.bytes ≤ 64 := by
  cases k with
  | w32 => decide
  | w64 => decide

theorem storeFversion_number (hz : numberOf (8 * k.bytes) (cString buf) = some z)
    (hv : s.drvdata d = some v) :
    storeFversion k d buf s = ((buf.length : ℤ), s.setDrvdata d (some (setVersion v z))) := by
  have hok := (numberOf_eq_some_iff (longBits_le k)).mp hz
  simp only [storeFversion, hok, hv]

theorem storeFversion_refused (hz : numberOf (8 * k.bytes) (cString buf) = none) :
    storeFversion k d buf s = (-EINVAL, s) ∨ storeFversion k d buf s = (-ERANGE, s) := by
  unfold storeFversion
  cases hok : kstrtol (8 * k.bytes) (cString buf) with
  | ok ver =>
      rw [(numberOf_eq_some_iff (longBits_le k)).mpr hok] at hz
      cases hz
  | error ret =>
      rcases kstrtol_error hok with hret | hret
      · exact .inl (Prod.ext hret rfl)
      · exact .inr (Prod.ext hret rfl)

theorem cString_cons {c : UInt8} (hc : c ≠ 0) (s : List UInt8) :
    cString (c :: s) = c :: cString s := by
  have hnul : (c != 0) = true := bne_iff_ne.mpr hc
  unfold cString
  rw [List.takeWhile_cons, hnul]
  rfl

theorem fversionText_cons (z : ℤ) : fversionText z =
    byte 's' :: (ascii "ysfs show : device fifo version " ++ (decimalInt z ++ ascii "\n")) := by
  have hs : ascii "sysfs show : device fifo version " =
      byte 's' :: ascii "ysfs show : device fifo version " := by decide
  rw [fversionText, hs, List.append_assoc, List.cons_append]

/-- What a read has shown is refused when it is written back as it stands. -/
theorem storeFversion_shown (h : showFversion d s = some buf) :
    storeFversion k d buf s = (-EINVAL, s) := by
  obtain ⟨v, _, rfl⟩ := Option.map_eq_some_iff.mp h
  have hinvalid : kstrtol (8 * k.bytes) (cString (fversionText v.pltDataPrv.version.toInt)) =
      .error ⟨-EINVAL, neg_EINVAL⟩ := by
    rw [fversionText_cons, cString_cons (by decide)]
    apply kstrtol_invalid
    · decide
    · decide
    · decide
  simp only [storeFversion, hinvalid]

theorem cString_eq_self (h : 0 ∉ buf) : cString buf = buf := by
  apply List.takeWhile_eq_self_iff.mpr
  intro c hc
  apply bne_iff_ne.mpr
  rintro rfl
  exact h hc

theorem inRange_long (k : LongSize) (x : BitVec 32) : InRange (8 * k.bytes) x.toInt := by
  have hlow := BitVec.le_toInt x
  have hhigh := BitVec.toInt_lt (x := x)
  have hpow : (2 : ℤ) ^ 31 ≤ 2 ^ (8 * k.bytes - 1) := by
    cases k with
    | w32 => decide
    | w64 => decide
  constructor
  · omega
  · omega

/-- A number that is written as the `printf` family prints it. -/
theorem numberOf_decimalInt (hz : InRange (8 * k.bytes) z) (newline : Bool) :
    numberOf (8 * k.bytes) (cString (decimalInt z ++ Numeral.newlineText newline)) = some z := by
  have hnul : 0 ∉ decimalInt z ++ Numeral.newlineText newline := by
    rw [List.mem_append, not_or]
    refine ⟨nul_notMem_decimalInt z, ?_⟩
    cases newline with
    | false => decide
    | true => decide
  rw [cString_eq_self hnul, numberOf_eq_some_iff (longBits_le k)]
  exact kstrtol_decimalInt (longBits_le k) hz newline

/-- The number that a read has shown may be written back, and changes nothing. -/
theorem storeFversion_shown_number (hv : s.drvdata d = some v) (newline : Bool) :
    (storeFversion k d
      (decimalInt v.pltDataPrv.version.toInt ++ Numeral.newlineText newline) s).2 = s := by
  have hsame : setVersion v v.pltDataPrv.version.toInt = v := by simp [setVersion]
  rw [storeFversion_number (numberOf_decimalInt (inRange_long k _) newline) hv, hsame,
    State.setDrvdata, ← hv, Function.update_eq_self]

end Store

/-! ## Driver data -/

section Probe
variable {d : ℕ} {s : State} {ofdev : PlatformDevice} {x : Results} {devData : FifoPrvtDevc}

theorem drvdata_setDrvdata (s : State) (d : ℕ) (v : Option FifoPrvtDevc) :
    (s.setDrvdata d v).drvdata d = v := by
  unfold State.setDrvdata
  exact Function.update_self d v s.drvdata

theorem setupPltdrvDev_pltDataPrv {dev dev' : FifoPrvtDevc} {mem : Bool}
    (h : setupPltdrvDev dev mem = .ok dev') : dev'.pltDataPrv = dev.pltDataPrv := by
  unfold setupPltdrvDev at h
  split at h
  · cases h
  · cases h
    rfl

/-- Whether the probe comes to its end or not, it has left the platform data. -/
theorem registerDevice_pltDataPrv (d : ℕ) (devData : FifoPrvtDevc) (s : State) (x : Results) :
    ∃ v, (registerDevice d devData s x).2.drvdata d = some v ∧
      v.pltDataPrv = devData.pltDataPrv := by
  have hself : ∀ s : State, ∀ v, (s.setDrvdata d (some v)).drvdata d = some v := fun s v =>
    drvdata_setDrvdata s d (some v)
  unfold registerDevice
  dsimp only
  split_ifs
  · exact ⟨devData, hself s devData, rfl⟩
  cases x.deviceCreate with
  | some err => exact ⟨devData, hself s devData, rfl⟩
  | none =>
    cases x.cdevAdd with
    | some err => exact ⟨devData, hself s devData, rfl⟩
    | none =>
      cases hsetup : setupPltdrvDev devData x.fifoMem with
      | error ret => exact ⟨devData, hself s devData, rfl⟩
      | ok v =>
        have hdata := setupPltdrvDev_pltDataPrv hsetup
        cases x.sysfsCreateGroup with
        | some err => exact ⟨v, hself _ v, hdata⟩
        | none => exact ⟨v, hself _ v, hdata⟩

theorem comesWith_of_platformData {p : PltdataFifo} {dataId : BitVec 32}
    (h : platformData s ofdev x = .ok (some p, dataId)) : comesWith ofdev x = some p := by
  unfold platformData at h
  split_ifs at h with hdt
  · rw [comesWith, if_pos hdt]
    split at h
    · cases h
    · rename_i hparse
      cases h
      unfold parseDtArgDevcs at hparse
      split_ifs at hparse
      · cases hparse
      · split at hparse
        · cases hparse
        · rename_i version hversion
          split at hparse
          · cases hparse
          · rename_i fsize hfsize
            cases hparse
            rw [hversion, hfsize]
            rfl
  · rw [comesWith, if_neg hdt]
    exact (Prod.mk.inj (Except.ok.inj h)).1

/-- A probe that succeeds leaves the values that the device comes with. -/
theorem pltdrvProbe_pltDataPrv (d : ℕ) (h : Accepts s ofdev x devData) :
    ∃ v, (pltdrvProbe d s ofdev x).2.drvdata d = some v ∧ comesWith ofdev x = some v.pltDataPrv := by
  obtain ⟨p, dataId, hdata, rfl⟩ := h.data
  obtain ⟨v, hv, hp⟩ := registerDevice_pltDataPrv d ⟨⟨0, []⟩, p, s.bDevnr + dataId⟩ s x
  have hmem : ¬(!x.devMem) = true := by simp [h.mem]
  refine ⟨v, ?_, ?_⟩
  · unfold pltdrvProbe
    rw [hdata]
    dsimp only
    rw [if_neg hmem]
    exact hv
  · rw [hp]
    exact comesWith_of_platformData hdata

end Probe

/-! ## Runs -/

section Runs
variable {k : LongSize} {s t : State} {h : ℕ → Option Setting} {d : ℕ} {v : FifoPrvtDevc}
  {a : Access}

theorem sysfsGroup_iff (hb : Balanced s) (d : ℕ) : .sysfsGroup d ∈ s.ledger.held ↔ d ∈ s.bound := by
  have hheld : s.ledger.held = ∑ d ∈ s.bound, owned d (s.drvdata d) :=
    congrArg ResourceLedger.Ledger.held hb.held
  rw [hheld, Multiset.mem_sum]
  constructor
  · rintro ⟨e, he, hmem⟩
    obtain ⟨w, hw⟩ := (hb.drvdata e).mp he
    rw [hw, owned_some] at hmem
    have hde : d = e := by simpa using hmem
    exact hde ▸ he
  · intro hd
    obtain ⟨w, hw⟩ := (hb.drvdata d).mp hd
    refine ⟨d, hd, ?_⟩
    rw [hw, owned_some]
    exact Multiset.mem_cons_self _ _

/-- A new version changes nothing that the driver has been given. -/
theorem balanced_setVersion (hb : Balanced s) (hv : s.drvdata d = some v) (z : ℤ) :
    Balanced (s.setDrvdata d (some (setVersion v z))) where
  drvdata e := by
    rw [State.setDrvdata]
    by_cases he : e = d
    · rw [he]
      simp [(hb.drvdata d).mpr ⟨v, hv⟩]
    · simp [he, hb.drvdata]
  held := by
    have hsum : ∑ e ∈ s.bound, owned e (Function.update s.drvdata d (some (setVersion v z)) e) =
        ∑ e ∈ s.bound, owned e (s.drvdata e) := by
      apply Finset.sum_congr rfl
      intro e _
      by_cases he : e = d
      · rw [he, Function.update_self, hv]
        rfl
      · rw [Function.update_of_ne he]
    exact hsum.symm ▸ hb.held
  apart := by
    have hold : ∀ e w, Function.update s.drvdata d (some (setVersion v z)) e = some w →
        ∃ w', s.drvdata e = some w' ∧ w'.devnr = w.devnr := by
      intro e w hw
      by_cases he : e = d
      · rw [he, Function.update_self] at hw
        cases hw
        exact ⟨v, he ▸ hv, rfl⟩
      · rw [Function.update_of_ne he] at hw
        exact ⟨w, hw, rfl⟩
    intro e f w u hw hu hn
    obtain ⟨w', hw', hwn⟩ := hold e w hw
    obtain ⟨u', hu', hun⟩ := hold f u hu
    apply hb.apart e f w' u' hw' hu'
    rw [hwn, hun]
    exact hn
  count := hb.count
  noOops := hb.noOops

/-- The settings are those of the driver data. -/
structure Kept (s : State) (h : ℕ → Option Setting) : Prop where
  balanced : Balanced s
  stands : ∀ d, Option.Rel Stands (s.drvdata d) (h d)

theorem rel_update {f : ℕ → Option FifoPrvtDevc} {v : Option FifoPrvtDevc} {p : Option Setting}
    (hfh : ∀ e, Option.Rel Stands (f e) (h e)) (hvp : Option.Rel Stands v p) (d e : ℕ) :
    Option.Rel Stands (Function.update f d v e) (Function.update h d p e) := by
  by_cases he : e = d
  · rw [he, Function.update_self, Function.update_self]
    exact hvp
  · rw [Function.update_of_ne he, Function.update_of_ne he]
    exact hfh e

theorem stands_ofData (v : FifoPrvtDevc) : Stands v (Setting.ofData v.pltDataPrv) where
  version := (BitVec.ofInt_toInt).symm
  fsize := rfl

theorem stands_setVersion {p : Setting} (hp : Stands v p) (z : ℤ) :
    Stands (setVersion v z) { p with version := z } where
  version := rfl
  fsize := hp.fsize

theorem Kept.probe (hk : Kept s h) {ofdev : PlatformDevice} {x : Results}
    (ht : call s (.probe d ofdev x) = some t) :
    Kept t (record k s (.driver (.probe d ofdev x)) h) := by
  refine ⟨hk.balanced.step ht, ?_⟩
  simp only [call] at ht
  split_ifs at ht with hd hret
  · cases ht
    rw [record, if_pos hret]
    rcases pltdrvProbe_cases d s ofdev x with ⟨devData, v, hacc, _, hr⟩ | ⟨_, hneg, _⟩
    · obtain ⟨w, hw, hcomes⟩ := pltdrvProbe_pltDataPrv d hacc
      rw [hr] at hw
      have hwv : v = w := by simpa [probed] using hw
      rw [hr, hcomes, hwv]
      exact rel_update hk.stands (.some (stands_ofData w)) d
    · exact absurd hret hneg.ne
  · cases ht
    rw [record, if_neg hret]
    rcases pltdrvProbe_cases d s ofdev x with ⟨devData, v, _, _, hr⟩ | ⟨_, _, hundone⟩
    · rw [hr] at hret
      exact absurd rfl hret
    · rw [hundone, hk.balanced.setDrvdata_none hd]
      exact hk.stands

theorem Kept.remove (hk : Kept s h) (ht : call s (.remove d) = some t) :
    Kept t (record k s (.driver (.remove d)) h) := by
  refine ⟨hk.balanced.step ht, ?_⟩
  cases hk.balanced.called ht with
  | removed _ v hd hv => exact rel_update hk.stands .none d

theorem record_refused {buf : List UInt8} (hz : numberOf (8 * k.bytes) (cString buf) = none) :
    record k s (.store d buf) h = h := by
  simp only [record, hz]

theorem record_number {buf : List UInt8} {z : ℤ}
    (hz : numberOf (8 * k.bytes) (cString buf) = some z) :
    record k s (.store d buf) h =
      Function.update h d ((h d).map fun p => { p with version := z }) := by
  simp only [record, hz]

theorem Kept.store (hk : Kept s h) {buf : List UInt8} (hd : .sysfsGroup d ∈ s.ledger.held) :
    Kept (storeFversion k d buf s).2 (record k s (.store d buf) h) := by
  obtain ⟨v, hv⟩ := (hk.balanced.drvdata d).mp ((sysfsGroup_iff hk.balanced d).mp hd)
  have hstands := hk.stands d
  rw [hv] at hstands
  cases hz : numberOf (8 * k.bytes) (cString buf) with
  | none =>
      rw [record_refused hz]
      rcases storeFversion_refused (k := k) (d := d) (s := s) hz with hr | hr
      · rw [hr]
        exact hk
      · rw [hr]
        exact hk
  | some z =>
      rw [storeFversion_number hz hv, record_number hz]
      refine ⟨balanced_setVersion hk.balanced hv z, ?_⟩
      apply rel_update hk.stands
      cases hp : h d with
      | none => rw [hp] at hstands; cases hstands
      | some p =>
          rw [hp] at hstands
          cases hstands with
          | some hstands => exact .some (stands_setVersion hstands z)

theorem Kept.step (hk : Kept s h) (ht : access k s a = some t) : Kept t (record k s a h) := by
  cases a with
  | driver a =>
      cases a with
      | probe d ofdev x => exact hk.probe ht
      | remove d => exact hk.remove ht
  | store d buf =>
      simp only [access] at ht
      split_ifs at ht with hd
      cases ht
      exact hk.store hd

theorem kept_reachable {y : State × (ℕ → Option Setting)} (hy : (observed k).Reachable y) :
    Kept y.1 y.2 := by
  refine System.ReachableWhen.invariant (I := fun y => Kept y.1 y.2) ?_
    (fun y a y' _ hk _ hnext => ?_) hy
  · rintro y ⟨⟨bDevnr, hs⟩, hh⟩
    rw [hs, hh]
    exact ⟨balanced_initial bDevnr, fun d => .none⟩
  · obtain ⟨ht, hrecord⟩ := System.withHistory_next.mp hnext
    rw [hrecord]
    exact hk.step ht

theorem fversionText_inj {y z : ℤ} : fversionText y = fversionText z ↔ y = z := by
  rw [fversionText, fversionText, List.append_left_inj, List.append_right_inj, decimalInt_inj]

theorem Kept.stands_of_setting (hk : Kept s h) {p : Setting} (hp : h d = some p) :
    ∃ v, s.drvdata d = some v ∧ Stands v p := by
  have hstands := hk.stands d
  rw [hp] at hstands
  cases hv : s.drvdata d with
  | none => rw [hv] at hstands; cases hstands
  | some v =>
      rw [hv] at hstands
      cases hstands with
      | some hstands => exact ⟨v, rfl, hstands⟩

theorem Kept.setting_iff (hk : Kept s h) (d : ℕ) :
    .sysfsGroup d ∈ s.ledger.held ↔ ∃ p, h d = some p := by
  rw [sysfsGroup_iff hk.balanced, hk.balanced.drvdata]
  constructor
  · rintro ⟨v, hv⟩
    have hstands := hk.stands d
    rw [hv] at hstands
    cases hp : h d with
    | none => rw [hp] at hstands; cases hstands
    | some p => exact ⟨p, rfl⟩
  · rintro ⟨p, hp⟩
    obtain ⟨v, hv, _⟩ := hk.stands_of_setting hp
    exact ⟨v, hv⟩

theorem agrees_along {y : State × (ℕ → Option Setting)} (hy : (observed k).Reachable y) :
    Agrees k y.1 y.2 := by
  have hk := kept_reachable hy
  refine ⟨hk.setting_iff, ?_, ?_, ?_, fun d buf => storeFversion_refused, hk.balanced.noOops⟩
  · intro d p hp
    obtain ⟨v, hv, hstands⟩ := hk.stands_of_setting hp
    rw [showFsize, hv, Option.map_some, hstands.fsize]
  · intro d p hp
    obtain ⟨v, hv, hstands⟩ := hk.stands_of_setting hp
    rw [showFversion, hv, Option.map_some, Option.some.injEq, fversionText_inj, hstands.version]
    exact toInt_ofInt_eq_iff (by decide)
  · intro d p buf z hp hz
    obtain ⟨v, hv, _⟩ := hk.stands_of_setting hp
    rw [storeFversion_number hz hv]

def newDevice : PlatformDevice := ⟨false, false, some ⟨1, 16⟩, 1⟩

def newResults : Results := ⟨true, none, none, true, none, none, true, none⟩

/-- A number of more than 32 bits. -/
def wideVersion : List UInt8 := decimalInt 4294967303 ++ Numeral.newlineText true

theorem observed_next {g : ℕ → Option Setting} (ht : access k s a = some t)
    (hg : record k s a h = g) : (observed k).next (s, h) a = some (t, g) :=
  System.withHistory_next.mpr ⟨ht, hg.symm⟩

/-- The file shows the number without its high bits. -/
theorem agrees_along_wideVersion : ∃ s h,
    (observed .w64).run (initial 0x0f500000, fun _ => none)
      [.driver (.probe 0 newDevice newResults), .store 0 wideVersion] = some (s, h) ∧
      h 0 = some ⟨4294967303, 16⟩ ∧ showFversion 0 s = some (fversionText 7) ∧
      Agrees .w64 s h := by
  have hz : numberOf (8 * LongSize.w64.bytes) (cString wideVersion) = some 4294967303 :=
    numberOf_decimalInt (by decide) true
  obtain ⟨s, hs, hbound, hv⟩ : ∃ s, call (initial 0x0f500000)
      (.probe 0 newDevice newResults) = some s ∧ 0 ∈ s.bound ∧
        s.drvdata 0 = some ⟨⟨16, []⟩, ⟨1, 16⟩, 0x0f500001⟩ :=
    ⟨_, rfl, Finset.mem_insert_self _ _, rfl⟩
  have hheld : .sysfsGroup 0 ∈ s.ledger.held :=
    (sysfsGroup_iff ((balanced_initial _).step hs) 0).mpr hbound
  have hprobe : access .w64 (initial 0x0f500000) (.driver (.probe 0 newDevice newResults)) =
      some s := hs
  let t := s.setDrvdata 0 (some ⟨⟨16, []⟩, ⟨7, 16⟩, 0x0f500001⟩)
  have hstore : access .w64 s (.store 0 wideVersion) = some t := by
    rw [access, if_pos hheld, storeFversion_number hz hv]
    rfl
  let h := record .w64 (initial 0x0f500000) (.driver (.probe 0 newDevice newResults)) fun _ => none
  have hrun : (observed .w64).run (initial 0x0f500000, fun _ => none)
      [.driver (.probe 0 newDevice newResults), .store 0 wideVersion] =
        some (t, Function.update h 0 ((h 0).map fun p => { p with version := 4294967303 })) := by
    rw [System.run_cons, observed_next hprobe rfl, Option.bind_some, System.run_cons,
      observed_next hstore (record_number hz)]
    rfl
  exact ⟨_, _, hrun, rfl, rfl, agrees_along (System.Reachable.run (.start ⟨⟨_, rfl⟩, rfl⟩) hrun)⟩

end Runs

end LinuxDeviceDrivers.PltdrvAttrs
