import EasyKernels.Linux.AccessChecks
import EasyKernels.Linux.BufferIdentity
import EasyKernels.Linux.DemandLoading
import EasyKernels.Linux.DescriptorTables
import EasyKernels.Linux.DirectoryRaces
import EasyKernels.Linux.EffectiveAddress
import EasyKernels.Linux.Fork
import EasyKernels.Linux.HardDiskRuns
import EasyKernels.Linux.InodeIdentity
import EasyKernels.Linux.LinkBytes
import EasyKernels.Linux.Mktime
import EasyKernels.Linux.Number
import EasyKernels.Linux.PipeFaults
import EasyKernels.Linux.RequestQueue
import EasyKernels.Linux.Scheduler
import EasyKernels.Linux.SelectPipe
import EasyKernels.Linux.SendingSignals
import EasyKernels.Linux.SetIds
import EasyKernels.Linux.Timers
import EasyKernels.Linux.TtyOverflow
import EasyKernels.Linux.TtyWriters
import EasyKernels.Xv6.CacheTransparency
import EasyKernels.Xv6.ConsoleInput
import EasyKernels.Xv6.DirectoryMaps
import EasyKernels.Xv6.ExitWait
import EasyKernels.Xv6.Grep
import EasyKernels.Xv6.IdeDriver
import EasyKernels.Xv6.InodeCache
import EasyKernels.Xv6.InodeSharing
import EasyKernels.Xv6.KilledFlag
import EasyKernels.Xv6.LinkCounts
import EasyKernels.Xv6.LogCapacity
import EasyKernels.Xv6.LogRecovery
import EasyKernels.Xv6.LostKills
import EasyKernels.Xv6.LostWakeups
import EasyKernels.Xv6.Memmove
import EasyKernels.Xv6.MkfsTheorem
import EasyKernels.Xv6.OpenFileAccounting
import EasyKernels.Xv6.PageOwnership
import EasyKernels.Xv6.Pids
import EasyKernels.Xv6.PipeOrder
import EasyKernels.Xv6.WriteSections
