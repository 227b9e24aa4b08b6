import MixUpOS.AK.BinarySearch
import MixUpOS.AK.BitmapRanges
import MixUpOS.AK.Calendar
import MixUpOS.AK.CircularBufferOffset
import MixUpOS.AK.HashTableRuns
import MixUpOS.AK.LEB128
import MixUpOS.AK.RedBlackTreeRuns
import MixUpOS.AK.SearchableCircularBufferRuns
import MixUpOS.AK.Time
import MixUpOS.Kernel.FileSystem.Ext2FS.Backups
import MixUpOS.Kernel.FileSystem.Ext2FS.Directory
import MixUpOS.Kernel.FileSystem.Ext2FS.Timestamps
import MixUpOS.Kernel.FileSystem.FATFS.SFNUtilities
import MixUpOS.Kernel.FileSystem.Flock
import MixUpOS.Kernel.FileSystem.Nofollow
import MixUpOS.Kernel.FileSystem.VeiledChanges
import MixUpOS.Kernel.Heap.HeapInvariant
import MixUpOS.Kernel.Memory.AddressSpaceAllocation
import MixUpOS.Kernel.Memory.AnonymousMemoryIsolation
import MixUpOS.Kernel.Memory.AnonymousMemorySharing
import MixUpOS.Kernel.Memory.MemoryManagerAccounting
import MixUpOS.Kernel.Memory.PhysicalZoneInvariant
import MixUpOS.Kernel.Net.TCPStates
import MixUpOS.Kernel.Syscalls.Mprotect
import MixUpOS.LibCompress.CodeLengths
import MixUpOS.LibCrypto.UnsignedBigInteger
