import LinuxDeviceDrivers.TransitionSystem
import LinuxDeviceDrivers.ThreadProgram
import LinuxDeviceDrivers.ThreadCount
import LinuxDeviceDrivers.KernelPrimitives
import LinuxDeviceDrivers.OrderedStream
import LinuxDeviceDrivers.FlatMemory
import LinuxDeviceDrivers.CheckedCalls
import LinuxDeviceDrivers.CStrings
import LinuxDeviceDrivers.DriverCore
import LinuxDeviceDrivers.ChardrvsFifo
import LinuxDeviceDrivers.ChardrvsLocks
import LinuxDeviceDrivers.ChardrvsStream
import LinuxDeviceDrivers.ChardrvsFaults
import LinuxDeviceDrivers.ChardrvsAvail
import LinuxDeviceDrivers.ChardrvsWakeup
import LinuxDeviceDrivers.ChardrvsService
import LinuxDeviceDrivers.ChardrvsUsers
import LinuxDeviceDrivers.ChardrvsRefCount
import LinuxDeviceDrivers.ChardrvsInit
import LinuxDeviceDrivers.ChardrvsIoctl
import LinuxDeviceDrivers.RamdiskRequest
import LinuxDeviceDrivers.RamdiskBounds
import LinuxDeviceDrivers.RamdiskLifecycle
import LinuxDeviceDrivers.Cp2102If
import LinuxDeviceDrivers.UsbTtlCp2102
import LinuxDeviceDrivers.Cp2102Session
import LinuxDeviceDrivers.Cp2102LineControl
import LinuxDeviceDrivers.Ds1307Rtc
import LinuxDeviceDrivers.Ds1307Devices
import LinuxDeviceDrivers.Ds1307Bus
import LinuxDeviceDrivers.Ds1307SetTime
import LinuxDeviceDrivers.PltdrvFiles
import LinuxDeviceDrivers.PltdrvStream
import LinuxDeviceDrivers.McdevdrvsInit
import LinuxDeviceDrivers.McdevdrvsFiles
import LinuxDeviceDrivers.GpiopulseRemove
import LinuxDeviceDrivers.GpiopulseDisable
import LinuxDeviceDrivers.GpiopulseEnable
import LinuxDeviceDrivers.GpiopulseProbe
import LinuxDeviceDrivers.GpiopulseBalance
import LinuxDeviceDrivers.GpiopulseLabel
import LinuxDeviceDrivers.VirtTty
import LinuxDeviceDrivers.VirtTtyTimer
import LinuxDeviceDrivers.VirtTtyTypestate
import LinuxDeviceDrivers.PciDevEmu
import LinuxDeviceDrivers.PciDrv
import LinuxDeviceDrivers.PciDrvProbe
import LinuxDeviceDrivers.PciDrvBalance
import LinuxDeviceDrivers.SysfsPublication
import LinuxDeviceDrivers.HostKvmSimple
import LinuxDeviceDrivers.HostKvmGuest
import LinuxDeviceDrivers.Virtbus
import LinuxDeviceDrivers.Jiq
import LinuxDeviceDrivers.CyclicClock
import LinuxDeviceDrivers.Jit
import LinuxDeviceDrivers.JitAsync
import LinuxDeviceDrivers.JiqReaders
import LinuxDeviceDrivers.JiqAlone
import LinuxDeviceDrivers.RealMode
import LinuxDeviceDrivers.HostKvmRun
import LinuxDeviceDrivers.ModuleCycles
import LinuxDeviceDrivers.DriverModules
import LinuxDeviceDrivers.McdevdrvsCycles
import LinuxDeviceDrivers.Kstrto
import LinuxDeviceDrivers.PltdrvAttrs
import LinuxDeviceDrivers.KernelnewbiesFiles
