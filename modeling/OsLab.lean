import OsLab.Scheduler.Partition
import OsLab.Semaphore.Sharing
import OsLab.Semaphore.Waiters
import OsLab.Files.OpenFiles
import OsLab.Memory.Images
import OsLab.Traps.Restoration
import OsLab.Scheduler.ForkSlots
import OsLab.Scheduler.Sleep
import OsLab.Scheduler.RoundRobin
import OsLab.Devices.Keyboard
import OsLab.Files.WellFormed
import OsLab.Files.Names
import OsLab.Files.Accounting
import OsLab.Files.NewFile
import OsLab.Files.Sequential
import OsLab.Files.Dangling
import OsLab.Files.BadDescriptors
import OsLab.Files.Bounds
import OsLab.Files.Offsets
import OsLab.Files.InodeCount
import OsLab.Files.Removal
import OsLab.Files.BadPaths
import OsLab.Memory.Loader
import OsLab.Memory.Pointers
import OsLab.Files.NewDirectory
import OsLab.Scheduler.Wakeup
import OsLab.Semaphore.Objects
import OsLab.Files.Listing
import OsLab.Files.History
import OsLab.Files.LongNames
import OsLab.Devices.Console
import OsLab.User.IOBuffers
import OsLab.User.FormatEnd
import OsLab.Kernel.Strings
import OsLab.User.DecText
import OsLab.User.Tokens
import OsLab.Files.Cutting
import OsLab.Devices.Ports
import OsLab.Lib.Programs
import OsLab.Lib.Sessions
import OsLab.User.Input
import OsLab.Devices.Transcript
import OsLab.Traps.Returns
import OsLab.Scheduler.Turns
import OsLab.Semaphore.Exclusion
import OsLab.Memory.Segments
import OsLab.Traps.Gates
import OsLab.Files.Store
import OsLab.Files.PowerCycles
