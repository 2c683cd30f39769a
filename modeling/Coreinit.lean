import Coreinit.Memory.BootReservations
import Coreinit.Boot.FreestandingMem
import Coreinit.Cluster.SliceRelease
import Coreinit.Cluster.SliceExclusion
import Coreinit.Cluster.SlicePrivacy
import Coreinit.Cluster.CoherentDispatch
import Coreinit.Cluster.DirectUse
import Coreinit.Cluster.ReservationLedger
import Coreinit.Cluster.StickyBinding
import Coreinit.Cluster.NodeDeparture
import Coreinit.Cluster.LossyWorkers
import Coreinit.Cluster.PriorityInheritance
import Coreinit.Cluster.BlockMarks
import Coreinit.Fdt.BlobBounds
import Coreinit.Fdt.CompatibleSearch
import Coreinit.Network.Correlation
import Coreinit.Boot.BumpAllocator
import Coreinit.Securinit.UserIpc
import Coreinit.Stage.CacheMaintenance
import Coreinit.Securinit.RingThree
import Coreinit.Memory.LowestFit
import Coreinit.Fdt.CompatibleEnumeration
import Coreinit.Cluster.OwnerMembers
import Coreinit.Cluster.CompletionRetention
import Coreinit.Cluster.WaitingJobs
import Coreinit.Fdt.CellInheritance
import Coreinit.Fdt.HostileBlobs
import Coreinit.Fdt.MemoryBanks
import Coreinit.Fdt.Status
import Coreinit.Network.Replies
import Coreinit.Network.VirtioReceive
import Coreinit.Paging.CowIsolation
import Coreinit.Paging.FailedAcquire
import Coreinit.Acpi.MadtRecords
import Coreinit.Acpi.X86
import Coreinit.Boot.WireDecoding
import Coreinit.Grub.Relocator
import Coreinit.Irq.Bindings
import Coreinit.Paging.IdentityMap
import Coreinit.Stage.EntryOrder
