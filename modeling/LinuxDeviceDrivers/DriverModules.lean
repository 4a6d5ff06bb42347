import LinuxDeviceDrivers.KernelPrimitives
import LinuxDeviceDrivers.ModuleCycles

/-!
# The init and exit functions of the modules

What the init functions acquire, in order, with what they do about each failure,
and what the exit functions give back. The drivers whose probe functions are
modelled on their own appear here with their module only.

Only `chardrvs_init` without its debug files checks every call, reports its error
and leaves nothing. The others pass over the result of a registration, or report
a failure with a value that is not negative: `kernelnewbies_init` jumps to its
label with the 0 of an earlier call, and `usb_ttl_init` turns the sign of the
error around. `virtbus_init` keeps the reference of a device that it could not
register.
-/
namespace LinuxDeviceDrivers.DriverModules
open KernelPrimitives ResourceLedger TransitionSystem ModuleCycles

/-- The entries that the two modules of timers and queues make in `/proc`. -/
inductive ProcFile where
  | currentime | jitbusy | jitsched | jitqueue | jitschedto
  | jitimer | jitasklet | jitasklethi
  | jiqwq | jiqwqdelay | jiqtasklet
deriving DecidableEq, Repr

inductive Resource where
  | memory | region | newClass | device | cdev | kfifo
  | procFile | dbgDir | dbgFile
  | platformDriver | usbDriver
  | bus | representedDev | representedRef
  | platformDevice (i : Fin 2)
  | platformRef (i : Fin 2)
  | virtbusDevice (i : Fin 2)
  | virtbusRef (i : Fin 2)
  | proc (f : ProcFile)
deriving DecidableEq, Repr

/-- How the call that acquires a resource ends. -/
abbrev Env := Resource → Option Errno

/-- A call whose error goes to a label. -/
def checked (env : Env) (r : Resource) (label : List Resource) (ret : ℤ → ℤ) : Stage Resource where
  acquires := [r]
  leaves := []
  failed := (env r).isSome
  onError := match env r with
    | none => .ignore
    | some e => .goto (ret e.val) label

/-- A call whose result is not looked at. -/
def unchecked (env : Env) (r : Resource) : Stage Resource where
  acquires := [r]
  leaves := []
  failed := (env r).isSome
  onError := .ignore

/-- The registration of a device takes a reference first, and keeps it when it
fails: only `put_device` gives it back. -/
def withRef (ref : Resource) (st : Stage Resource) : Stage Resource :=
  { st with acquires := ref :: st.acquires, leaves := [ref] }

/-- `if (ret) { .. goto label; }` -/
def orGoto (env : Env) (r : Resource) (label : List Resource) : Stage Resource :=
  checked env r label id

/-- `ret = -ENOMEM; goto label;` -/
def orNoMemory (env : Env) (r : Resource) (label : List Resource) : Stage Resource :=
  checked env r label fun _ => -ENOMEM

/-- At `cdev_add` the error is in `rc`, and `ret` is still 0. -/
def kernelnewbiesInit (env : Env) : List (Stage Resource) :=
  [orGoto env .region [],
    orGoto env .newClass [.region],
    orGoto env .device [.newClass, .region],
    checked env .cdev [.device, .newClass, .region] fun _ => 0,
    orGoto env .kfifo [.cdev, .device, .newClass, .region]]

def kernelnewbiesExit : List Resource := [.cdev, .device, .newClass, .region, .kfifo]

/-- The file below a directory that is an error pointer is not made. -/
def debugfsCreateFile (env : Env) : Stage Resource :=
  { unchecked env .dbgFile with failed := (env .dbgDir).isSome || (env .dbgFile).isSome }

/-- The part of `chardrvs_init` that `CHARDRVS_DBG` adds. The calls to debugfs
report a failure by an error pointer, which the tests for `NULL` let through. -/
def chardrvsDbg (env : Env) : List (Stage Resource) :=
  [orNoMemory env .procFile [.kfifo, .cdev, .device, .newClass, .region, .memory],
    unchecked env .dbgDir, debugfsCreateFile env]

def chardrvsInit (dbg : Bool) (env : Env) : List (Stage Resource) :=
  [orNoMemory env .memory [],
    orGoto env .region [.memory],
    orGoto env .newClass [.region, .memory],
    orGoto env .device [.newClass, .region, .memory],
    orGoto env .cdev [.device, .newClass, .region, .memory],
    orGoto env .kfifo [.cdev, .device, .newClass, .region, .memory]] ++
    if dbg then chardrvsDbg env else []

def chardrvsResources (dbg : Bool) : List Resource :=
  [.cdev, .device, .newClass, .region, .kfifo] ++
    (if dbg then [.procFile, .dbgDir, .dbgFile] else []) ++ [.memory]

/-- `debugfs_remove` takes a directory away with what is in it, and does nothing
with an error pointer. -/
def chardrvsClean (dbg : Bool) (l : Ledger Resource) : List Resource :=
  (chardrvsResources dbg).filter fun r => r ∉ [.dbgDir, .dbgFile] ∨ r ∈ l.held

/-- `pltdrv_init`, which is the same in `pltdrv`, `pltdrv_attr` and
`pltdrv_attr_dt`. -/
def pltdrvInit (env : Env) : List (Stage Resource) :=
  [orGoto env .region [], orGoto env .newClass [.region], unchecked env .platformDriver]

def pltdrvExit : List Resource := [.platformDriver, .newClass, .region]

def pltdrvGpiopulseInit (env : Env) : List (Stage Resource) :=
  [orGoto env .newClass [], unchecked env .platformDriver]

def pltdrvGpiopulseExit : List Resource := [.platformDriver, .newClass]

/-- `return -ret;` -/
def usbTtlInit (env : Env) : List (Stage Resource) := [checked env .usbDriver [] fun ret => -ret]

def usbTtlExit : List Resource := [.usbDriver]

/-- The label `unreg_bus` is without the `put_device` of the failed device. -/
def virtbusInit (env : Env) : List (Stage Resource) :=
  [orGoto env .bus [], withRef .representedRef (orGoto env .representedDev [.bus])]

def virtbusExit : List Resource := [.representedDev, .representedRef, .bus]

/-- `platform_add_devices` adds both devices, or takes the first one back. The
reference of the one that failed stays. -/
def platformAddDevices (env : Env) : Stage Resource where
  acquires := [.platformRef 0, .platformDevice 0, .platformRef 1, .platformDevice 1]
  leaves := if (env (.platformDevice 0)).isSome then [.platformRef 0] else [.platformRef 1]
  failed := (env (.platformDevice 0)).isSome || (env (.platformDevice 1)).isSome
  onError := .ignore

def pltdevsLoadInit (env : Env) : List (Stage Resource) := [platformAddDevices env]

def pltdevsLoadExit : List Resource :=
  [.platformDevice 0, .platformRef 0, .platformDevice 1, .platformRef 1]

def registerVirtbusDevice (env : Env) (i : Fin 2) : Stage Resource :=
  withRef (.virtbusRef i) (unchecked env (.virtbusDevice i))

def virtbusdevsLoadInit (env : Env) : List (Stage Resource) :=
  [registerVirtbusDevice env 0, registerVirtbusDevice env 1]

def virtbusdevsLoadExit : List Resource :=
  [.virtbusDevice 0, .virtbusRef 0, .virtbusDevice 1, .virtbusRef 1]

def procFiles (env : Env) (fs : List ProcFile) : List (Stage Resource) :=
  fs.map fun f => unchecked env (.proc f)

def jitFiles : List ProcFile :=
  [.currentime, .jitbusy, .jitsched, .jitqueue, .jitschedto, .jitimer, .jitasklet, .jitasklethi]

def jitInit (env : Env) : List (Stage Resource) := procFiles env jitFiles

def jitCleanup : List Resource := jitFiles.map .proc

def jiqFiles : List ProcFile := [.jiqwq, .jiqwqdelay, .jitimer, .jiqtasklet]

def jiqInit (env : Env) : List (Stage Resource) := procFiles env jiqFiles

def jiqCleanup : List Resource := jiqFiles.map .proc

/-- The modules, `chardrvs` with and without its debug files. -/
inductive Name where
  | kernelnewbies
  | chardrvs (dbg : Bool)
  | pltdrv | pltdrvAttr | pltdrvAttrDt
  | pltdrvGpiopulse
  | usbTtl
  | virtbus
  | pltdevsLoad | virtbusdevsLoad
  | jit | jiq
deriving DecidableEq, Repr

def Name.init : Name → Env → List (Stage Resource)
  | .kernelnewbies => kernelnewbiesInit
  | .chardrvs dbg => chardrvsInit dbg
  | .pltdrv => pltdrvInit
  | .pltdrvAttr => pltdrvInit
  | .pltdrvAttrDt => pltdrvInit
  | .pltdrvGpiopulse => pltdrvGpiopulseInit
  | .usbTtl => usbTtlInit
  | .virtbus => virtbusInit
  | .pltdevsLoad => pltdevsLoadInit
  | .virtbusdevsLoad => virtbusdevsLoadInit
  | .jit => jitInit
  | .jiq => jiqInit

/-- What a module holds when its init function has had all its calls succeed. -/
def Name.resources : Name → List Resource
  | .kernelnewbies => kernelnewbiesExit
  | .chardrvs dbg => chardrvsResources dbg
  | .pltdrv => pltdrvExit
  | .pltdrvAttr => pltdrvExit
  | .pltdrvAttrDt => pltdrvExit
  | .pltdrvGpiopulse => pltdrvGpiopulseExit
  | .usbTtl => usbTtlExit
  | .virtbus => virtbusExit
  | .pltdevsLoad => pltdevsLoadExit
  | .virtbusdevsLoad => virtbusdevsLoadExit
  | .jit => jitCleanup
  | .jiq => jiqCleanup

/-- Every exit function but one releases the same whatever is there. -/
def Name.exit (l : Ledger Resource) : Name → List Resource
  | .chardrvs dbg => chardrvsClean dbg l
  | n => n.resources

def Name.module (n : Name) : Module Env Resource := staged n.init fun l => n.exit l

section Labels
variable {env : Env} {r : Resource} {rs label : List Resource} {ret : ℤ → ℤ} {full m : Multiset Resource}
  {rest : List (Stage Resource)}

theorem labelled_nil (h : m = full) : Labelled full m ([] : List (Stage Resource)) := h

theorem tidy_nil : Tidy ([] : List (Stage Resource)) := nofun

theorem tidy_ignored {st : Stage Resource} (h : st.onError = .ignore) (hrest : Tidy rest) :
    Tidy (st :: rest) := by
  refine List.forall_mem_cons.mpr ⟨fun ret label he => ?_, hrest⟩
  rw [h] at he
  cases he

theorem not_ignored_checked (hfailed : (checked env r label ret).failed = true) :
    (checked env r label ret).onError ≠ .ignore := by
  obtain ⟨e, he⟩ := Option.isSome_iff_exists.mp hfailed
  rw [checked, he]
  exact nofun

theorem label_checked {m : Multiset Resource} (hlabel : (label : Multiset Resource) = m) (ret' : ℤ)
    (label' : List Resource) (h : (checked env r label ret).onError = .goto ret' label') :
    (label' : Multiset Resource) = m := by
  cases hr : env r with
  | none =>
      rw [checked, hr] at h
      cases h
  | some e =>
      rw [checked, hr] at h
      cases h
      exact hlabel

theorem labelled_checked (hlabel : (label : Multiset Resource) = m)
    (h : Labelled full (m + ([r] : List Resource)) rest) :
    Labelled full m (checked env r label ret :: rest) :=
  ⟨Nat.one_pos, label_checked hlabel, fun hfailed he => absurd he (not_ignored_checked hfailed), h⟩

theorem labelled_withRef_checked {ref : Resource} (hlabel : (label : Multiset Resource) = m)
    (h : Labelled full (m + ([ref, r] : List Resource)) rest) :
    Labelled full m (withRef ref (checked env r label ret) :: rest) :=
  ⟨Nat.one_lt_two, label_checked hlabel, fun hfailed he => absurd he (not_ignored_checked hfailed), h⟩

/-- A stage whose failure is passed over. -/
theorem labelled_ignored {st : Stage Resource} {rs : List Resource} (he : st.onError = .ignore)
    (hrs : st.acquires = rs) (hleaves : st.leaves.length < rs.length) (htidy : Tidy rest)
    (h : Labelled full (m + rs) rest) : Labelled full m (st :: rest) := by
  rw [← hrs] at hleaves h
  refine ⟨hleaves, fun ret label hgoto => ?_, fun _ _ => htidy, h⟩
  rw [he] at hgoto
  cases hgoto

theorem labelled_unchecked (htidy : Tidy rest) (h : Labelled full (m + ([r] : List Resource)) rest) :
    Labelled full m (unchecked env r :: rest) :=
  labelled_ignored rfl rfl Nat.one_pos htidy h

theorem reported_checked :
    Reported (checked env r label ret :: rest) ↔
      match env r with
      | none => Reported rest
      | some e => ret e.val < 0 := by
  rw [Reported, checked]
  cases env r with
  | none => exact Iff.rfl
  | some e => exact and_iff_left rfl

theorem reported_ignored {st : Stage Resource} (he : st.onError = .ignore) :
    Reported (st :: rest) ↔ st.failed = false ∧ Reported rest := by
  rw [Reported, he]
  cases st.failed with
  | false => simp
  | true => simp

theorem reported_unchecked : Reported (unchecked env r :: rest) ↔ env r = none ∧ Reported rest := by
  rw [reported_ignored rfl, unchecked, Option.isSome_eq_false_iff, Option.isNone_iff_eq_none]

/-- A failure that leaves a reference is never as good as none. -/
theorem reported_withRef_checked {ref : Resource} :
    Reported (withRef ref (checked env r label ret) :: rest) ↔ env r = none ∧ Reported rest := by
  rw [Reported, withRef, checked]
  cases env r with
  | none => simp
  | some e => simp

/-- An error that is returned as it is, or as `-ENOMEM`, is reported. -/
theorem reported_orGoto : Reported (orGoto env r label :: rest) ↔ (env r = none → Reported rest) := by
  rw [orGoto, reported_checked]
  cases hr : env r with
  | none => simp
  | some e => simp [e.neg]

theorem reported_orNoMemory :
    Reported (orNoMemory env r label :: rest) ↔ (env r = none → Reported rest) := by
  rw [orNoMemory, reported_checked]
  cases hr : env r with
  | none => simp
  | some e => exact iff_of_true neg_ENOMEM nofun

theorem tidy_procFiles (fs : List ProcFile) : Tidy (procFiles env fs) := by
  induction fs with
  | nil => exact tidy_nil
  | cons f fs ih => exact tidy_ignored rfl ih

theorem labelled_procFiles (fs : List ProcFile) (h : m + (fs.map Resource.proc : List Resource) = full) :
    Labelled full m (procFiles env fs) := by
  induction fs generalizing m with
  | nil => exact (add_zero m).symm.trans h
  | cons f fs ih =>
      apply labelled_unchecked (tidy_procFiles fs)
      apply ih
      rw [← h, List.map_cons, add_assoc, Multiset.coe_add, List.singleton_append]

theorem reported_procFiles (fs : List ProcFile) :
    Reported (procFiles env fs) ↔ ∀ f ∈ fs, env (.proc f) = none := by
  induction fs with
  | nil => simp [procFiles, Reported]
  | cons f fs ih =>
      rw [procFiles, List.map_cons, reported_unchecked, List.forall_mem_cons, ← ih]
      rfl

end Labels

/-- Every label gives back exactly what has been acquired when it is jumped to. -/
theorem labelled_init (n : Name) (env : Env) :
    Labelled (n.resources : Multiset Resource) 0 (n.init env) := by
  have hpltdrv : Labelled (pltdrvExit : Multiset Resource) 0 (pltdrvInit env) := by
    apply labelled_checked (by decide)
    apply labelled_checked (by decide)
    apply labelled_unchecked tidy_nil
    exact labelled_nil (by decide)
  cases n with
  | kernelnewbies =>
      apply labelled_checked (by decide)
      apply labelled_checked (by decide)
      apply labelled_checked (by decide)
      apply labelled_checked (by decide)
      apply labelled_checked (by decide)
      exact labelled_nil (by decide)
  | chardrvs dbg =>
      apply labelled_checked (by decide)
      apply labelled_checked (by decide)
      apply labelled_checked (by decide)
      apply labelled_checked (by decide)
      apply labelled_checked (by decide)
      apply labelled_checked (by decide)
      cases dbg with
      | false => exact labelled_nil (by decide)
      | true =>
          apply labelled_checked (by decide)
          apply labelled_unchecked (tidy_ignored rfl tidy_nil)
          have hacquires : (debugfsCreateFile env).acquires = [.dbgFile] := rfl
          apply labelled_ignored rfl hacquires Nat.one_pos tidy_nil
          exact labelled_nil (by decide)
  | pltdrv => exact hpltdrv
  | pltdrvAttr => exact hpltdrv
  | pltdrvAttrDt => exact hpltdrv
  | pltdrvGpiopulse =>
      apply labelled_checked (by decide)
      apply labelled_unchecked tidy_nil
      exact labelled_nil (by decide)
  | usbTtl =>
      apply labelled_checked (by decide)
      exact labelled_nil (by decide)
  | virtbus =>
      apply labelled_checked (by decide)
      apply labelled_withRef_checked (by decide)
      exact labelled_nil (by decide)
  | pltdevsLoad =>
      have hacquires : (platformAddDevices env).acquires =
          [.platformRef 0, .platformDevice 0, .platformRef 1, .platformDevice 1] := rfl
      refine labelled_ignored rfl hacquires ?_ tidy_nil (labelled_nil (by decide))
      simp only [platformAddDevices]
      split_ifs
      · decide
      · decide
  | virtbusdevsLoad =>
      have hacquires : ∀ i, (registerVirtbusDevice env i).acquires =
          [.virtbusRef i, .virtbusDevice i] := fun _ => rfl
      apply labelled_ignored rfl (hacquires 0) Nat.one_lt_two (tidy_ignored rfl tidy_nil)
      apply labelled_ignored rfl (hacquires 1) Nat.one_lt_two tidy_nil
      exact labelled_nil (by decide)
  | jit => exact labelled_procFiles jitFiles (zero_add _)
  | jiq => exact labelled_procFiles jiqFiles (zero_add _)

/-- What is there when the module is loaded is what its exit function releases. -/
theorem exit_eq (n : Name) {l : Ledger Resource} (h : l.Holds n.resources) :
    n.exit l = n.resources := by
  cases n with
  | chardrvs dbg =>
      have hheld : l.held = (chardrvsResources dbg : Multiset Resource) := congrArg Ledger.held h
      show chardrvsClean dbg l = chardrvsResources dbg
      rw [chardrvsClean, hheld, List.filter_eq_self]
      intro r hr
      rw [decide_eq_true_eq, Multiset.mem_coe]
      exact .inr hr
  | _ => rfl

/-- No failure of the module's calls is hidden, and none leaves anything. -/
def Noticed (env : Env) : Name → Prop
  | .kernelnewbies =>
      env .region = none → env .newClass = none → env .device = none → env .cdev = none
  | .chardrvs dbg =>
      dbg = true → env .memory = none → env .region = none → env .newClass = none →
        env .device = none → env .cdev = none → env .kfifo = none → env .procFile = none →
          env .dbgDir = none ∧ env .dbgFile = none
  | .pltdrv => env .region = none → env .newClass = none → env .platformDriver = none
  | .pltdrvAttr => env .region = none → env .newClass = none → env .platformDriver = none
  | .pltdrvAttrDt => env .region = none → env .newClass = none → env .platformDriver = none
  | .pltdrvGpiopulse => env .newClass = none → env .platformDriver = none
  | .usbTtl => env .usbDriver = none
  | .virtbus => env .bus = none → env .representedDev = none
  | .pltdevsLoad => env (.platformDevice 0) = none ∧ env (.platformDevice 1) = none
  | .virtbusdevsLoad => env (.virtbusDevice 0) = none ∧ env (.virtbusDevice 1) = none
  | .jit => ∀ f ∈ jitFiles, env (.proc f) = none
  | .jiq => ∀ f ∈ jiqFiles, env (.proc f) = none

theorem reported_iff_noticed (n : Name) (env : Env) :
    Reported (n.init env) ↔ Noticed env n := by
  have hend : Reported ([] : List (Stage Resource)) := trivial
  have hpltdrv : Reported (pltdrvInit env) ↔
      (env .region = none → env .newClass = none → env .platformDriver = none) := by
    rw [pltdrvInit, reported_orGoto, reported_orGoto, reported_unchecked, and_iff_left hend]
  cases n with
  | kernelnewbies =>
      show Reported (kernelnewbiesInit env) ↔ _
      rw [kernelnewbiesInit, reported_orGoto, reported_orGoto, reported_orGoto, reported_checked,
        reported_orGoto]
      simp only [Noticed, hend, implies_true]
      cases env .cdev with
      | none => simp
      | some e => simp
  | chardrvs dbg =>
      show Reported (chardrvsInit dbg env) ↔ _
      simp only [chardrvsInit, List.cons_append, List.nil_append]
      rw [reported_orNoMemory, reported_orGoto, reported_orGoto, reported_orGoto, reported_orGoto,
        reported_orGoto]
      cases dbg with
      | false => simp [Noticed, hend]
      | true =>
          have hdbg : Reported (chardrvsDbg env) ↔
              (env .procFile = none → env .dbgDir = none ∧ env .dbgFile = none) := by
            rw [chardrvsDbg, reported_orNoMemory, reported_unchecked, reported_ignored rfl]
            refine imp_congr_right fun _ => and_congr_right fun hdir => ?_
            simp [debugfsCreateFile, hdir, hend]
          rw [if_pos rfl, hdbg]
          exact ⟨fun h _ => h, fun h => h rfl⟩
  | pltdrv => exact hpltdrv
  | pltdrvAttr => exact hpltdrv
  | pltdrvAttrDt => exact hpltdrv
  | pltdrvGpiopulse =>
      show Reported (pltdrvGpiopulseInit env) ↔ _
      rw [pltdrvGpiopulseInit, reported_orGoto, reported_unchecked, and_iff_left hend]
      rfl
  | usbTtl =>
      show Reported (usbTtlInit env) ↔ _
      rw [usbTtlInit, reported_checked, Noticed]
      cases env .usbDriver with
      | none => simp [hend]
      | some e =>
          have hneg := e.neg
          refine iff_of_false ?_ nofun
          show ¬-e.val < 0
          omega
  | virtbus =>
      show Reported (virtbusInit env) ↔ _
      rw [virtbusInit, reported_orGoto, orGoto, reported_withRef_checked, and_iff_left hend]
      rfl
  | pltdevsLoad =>
      show Reported (pltdevsLoadInit env) ↔ _
      rw [pltdevsLoadInit, reported_ignored rfl, and_iff_left hend]
      simp [platformAddDevices, Noticed]
  | virtbusdevsLoad =>
      show Reported (virtbusdevsLoadInit env) ↔ _
      rw [virtbusdevsLoadInit, reported_ignored rfl, reported_ignored rfl, and_iff_left hend]
      simp [registerVirtbusDevice, withRef, unchecked, Noticed]
  | jit => exact reported_procFiles jitFiles
  | jiq => exact reported_procFiles jiqFiles

/-- A load in which no failure is hidden or leaves anything. -/
def NoticedLoad (n : Name) (s : State Resource) : Event Env → Prop
  | .insmod env => s.loaded = false → Noticed env n
  | .rmmod => True

/-- Through any order of loads and unloads, with any calls failing, a module
holds everything while it is loaded and nothing otherwise, and releases nothing
that it does not hold, exactly if its loads meet its condition. -/
theorem balanced_iff_noticed (n : Name) (evs : List (Event Env)) :
    (system n.module).Along (Balanced ↑n.resources) ⟨.empty, false⟩ evs ↔
      (system n.module).Meets (NoticedLoad n) ⟨.empty, false⟩ evs := by
  have hexit : ∀ l : Ledger Resource, l.Holds ↑n.resources → (n.module.exit l).Holds 0 := by
    intro l h
    show (releaseAll l (n.exit l)).Holds 0
    rw [exit_eq n h]
    exact holds_releaseAll n.resources h
  rw [balanced_iff_fits hexit evs]
  apply System.meets_congr
  intro s a
  cases a with
  | insmod env =>
      apply imp_congr_right
      intro _
      exact (fits_iff_reported (labelled_init n env) Ledger.holds_empty).trans
        (reported_iff_noticed n env)
  | rmmod => exact Iff.rfl

end LinuxDeviceDrivers.DriverModules
