import LinuxDeviceDrivers.GpiopulseProbe
import LinuxDeviceDrivers.PciDrvProbe

/-!
# Attributes that are published before their driver data

`pltdrv_gpiopulse_probe` and `pci_drv_probe` create their attributes first and
set the driver data afterwards. A handler is served in time exactly in the runs
in which no handler is as early as that; the timer of gpiopulse is never armed
too early, because only the driver data lead to it.
-/
namespace LinuxDeviceDrivers.SysfsPublication
open TransitionSystem ThreadProgram
variable {bits : ℕ}

/-- In a run of each of the two probes with its handlers, every handler finds its
driver data and the timer set up, exactly when no handler loads its driver data
before the probe has set them. -/
theorem servedInTime_iff_loadsAfterProbe (pin : Bool) (as : List (ℕ × GpiopulseProbe.Choice bits))
    (bs : List (ℕ × PciDrvProbe.Choice bits)) :
    ((GpiopulseProbe.system bits).Meets GpiopulseProbe.ServedInTime
          (GpiopulseProbe.unprobed bits pin) as ∧
        (PciDrvProbe.system bits).Meets PciDrvProbe.Served (PciDrvProbe.unprobed bits) bs) ↔
      (GpiopulseProbe.system bits).Meets GpiopulseProbe.LoadsAfterProbe
          (GpiopulseProbe.unprobed bits pin) as ∧
        (PciDrvProbe.system bits).Meets PciDrvProbe.LoadsAfterProbe
          (PciDrvProbe.unprobed bits) bs := by
  have hgpio : (GpiopulseProbe.system bits).ReachableWhen GpiopulseProbe.ServedInTime
      (GpiopulseProbe.unprobed bits pin) := .start ⟨pin, rfl⟩
  have hpci : (PciDrvProbe.system bits).ReachableWhen PciDrvProbe.Served
      (PciDrvProbe.unprobed bits) := .start rfl
  exact and_congr (hgpio.meets_iff (fun _ a h => GpiopulseProbe.servedInTime_iff h a) as)
    (hpci.meets_iff (fun _ a h => PciDrvProbe.served_iff h a) bs)

/-- The pulses are enabled while the probe sets the direction of the pin. -/
def enableEarly : List (ℕ × GpiopulseProbe.Choice 64) :=
  [(0, .probe), (0, .run), (0, .parse ⟨true, true, some ⟨"gpiopulse", by decide⟩, some 1, some 500⟩),
    (0, .run), (1, .call (.enablepulseStore 2 (.ok 1)))]

/-- A value is read as soon as the attribute group exists. -/
def readValueEarly : List (ℕ × PciDrvProbe.Choice 64) :=
  (0, .probe) :: List.replicate 10 (0, .run) ++ [(1, .call (.showVal .mmioval))]

theorem not_servedInTime_early :
    (¬∀ pin as, (GpiopulseProbe.system 64).Meets GpiopulseProbe.ServedInTime
        (GpiopulseProbe.unprobed 64 pin) as) ∧
      ¬∀ bs, (PciDrvProbe.system 64).Meets PciDrvProbe.Served (PciDrvProbe.unprobed 64) bs := by
  refine ⟨fun h => ?_, fun h => ?_⟩
  · obtain ⟨s, hrun, hpc, hnull⟩ : ∃ s, (GpiopulseProbe.system 64).run
        (GpiopulseProbe.unprobed 64 false) enableEarly = some s ∧
          s.pc 1 = .getDrvdata (.enablepulseStore 2 (.ok 1)) ∧ s.shared.deviceDrvdata = false :=
      ⟨_, rfl, rfl, rfl⟩
    have hstep : GpiopulseProbe.ServedInTime s (1, .run) :=
      ((h false (enableEarly ++ [(1, .run)])).of_append hrun).1
    exact absurd ((hstep.data _ hpc).symm.trans hnull) nofun
  · obtain ⟨s, hrun, hpc, hnull⟩ : ∃ s, (PciDrvProbe.system 64).run
        (PciDrvProbe.unprobed 64) readValueEarly = some s ∧
          s.pc 1 = .getDrvdata (.showVal .mmioval) ∧ s.shared.drvdata = none :=
      ⟨_, rfl, rfl, rfl⟩
    have hstep : PciDrvProbe.Served s (1, .run) :=
      ((h (readValueEarly ++ [(1, .run)])).of_append hrun).1
    exact hstep _ hpc hnull

end LinuxDeviceDrivers.SysfsPublication
