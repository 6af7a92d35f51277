import OmegaOS.Theorems.SystemCalls
import OmegaOS.Theorems.QueueSequence
import OmegaOS.Theorems.RoundRobin
import OmegaOS.Theorems.Termination
import OmegaOS.Theorems.FrameOwnership
import OmegaOS.Theorems.ConcurrentFrames
import OmegaOS.Theorems.ProcessTree
import OmegaOS.Theorems.ListSequence
import OmegaOS.Theorems.Locks
import OmegaOS.Theorems.Console
import OmegaOS.Theorems.CoreTable
import OmegaOS.Theorems.DescriptorTable
import OmegaOS.Theorems.FileOffset
import OmegaOS.Theorems.BlockCount
import OmegaOS.Theorems.DirectoryEntries
import OmegaOS.Theorems.DirectoryWalks
import OmegaOS.Theorems.WriteIsolation
import OmegaOS.Theorems.WorkingDirectory
import OmegaOS.Theorems.OpenDirectory
import OmegaOS.Theorems.InodeTable
import OmegaOS.Theorems.SpaceConservation
import OmegaOS.Theorems.HeapDoubleFree
import OmegaOS.Theorems.PageFaults
import OmegaOS.Theorems.PagePermissions
import OmegaOS.Theorems.BootTables
import OmegaOS.Theorems.BusyWait
import OmegaOS.Theorems.MadtParse
import OmegaOS.Theorems.IrqRouting
import OmegaOS.Theorems.SectorAddresses
import OmegaOS.Theorems.Modifiers
import OmegaOS.Theorems.BootImage
import OmegaOS.Theorems.FailedProcess
