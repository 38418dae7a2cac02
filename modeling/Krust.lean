import Krust.Boot.MountOrder
import Krust.Drivers.Ahci
import Krust.Drivers.DriveNames
import Krust.Drivers.Pci
import Krust.Drivers.Pty
import Krust.Drivers.Registry
import Krust.Fat.LongNames
import Krust.Fat.Faults
import Krust.Fat.ShortNames
import Krust.Initrd.RoundTrip
import Krust.Memfs.Append
import Krust.Memfs.Statfs
import Krust.Module.Unregister
import Krust.Process.CpuIntervals
import Krust.Process.CpuTime
import Krust.Process.Current
import Krust.Process.Exclusive
import Krust.Process.FailedExec
import Krust.Process.Lifecycle
import Krust.Process.RoundRobin
import Krust.Process.Scan
import Krust.Process.Break
import Krust.Syscall.Mmap
import Krust.Syscall.UserCopy
import Krust.Vfs.ActiveMounts
import Krust.Vfs.Guards
import Krust.Vfs.Seek
import Krust.Vfs.Symlinks
