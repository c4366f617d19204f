import SimpleKernel.Verification.SpinLock.Interrupts
import SimpleKernel.Verification.Mutex.Wakeup
import SimpleKernel.Verification.Task.Runnable
import SimpleKernel.Verification.VirtualMemory.Release
import SimpleKernel.Verification.VirtualMemory.Ranges
import SimpleKernel.Verification.Task.AddressSpace
import SimpleKernel.Verification.Task.Orphans
import SimpleKernel.Verification.Task.ThreadGroups
import SimpleKernel.Verification.Virtio.Submission
import SimpleKernel.Verification.Virtio.Sync
import SimpleKernel.Verification.Filesystem.Accounting
import SimpleKernel.Verification.Filesystem.Contents
import SimpleKernel.Verification.Filesystem.Offsets
import SimpleKernel.Verification.Task.Statistics
import SimpleKernel.Verification.Task.Signals
import SimpleKernel.Verification.Task.Affinity
import SimpleKernel.Verification.Guard.Once
import SimpleKernel.Verification.Filesystem.FileDescriptors
import SimpleKernel.Verification.Virtio.Mixed
import SimpleKernel.Verification.Virtio.Misbehaviour
import SimpleKernel.Verification.Virtio.Kicks
import SimpleKernel.Verification.Virtio.Configuration
import SimpleKernel.Verification.Virtio.Sectors
import SimpleKernel.Verification.Vfs.Paths
import SimpleKernel.Verification.Vfs.Lifetimes
import SimpleKernel.Verification.FatFs.Chains
import SimpleKernel.Verification.FatFs.Handles
import SimpleKernel.Verification.Task.LockOrder
import SimpleKernel.Verification.Task.Newcomers
import SimpleKernel.Verification.Task.Balancing
import SimpleKernel.Verification.Task.Bystanders
import SimpleKernel.Verification.Task.RealTime
import SimpleKernel.Verification.Vfs.Failures
import SimpleKernel.Verification.Vfs.Removal
import SimpleKernel.Verification.Virtio.Layout
import SimpleKernel.Verification.Guard.AtExit
import SimpleKernel.Verification.Device.Bus
import SimpleKernel.Verification.Interrupt.Plic
import SimpleKernel.Verification.Libc.Memmove
