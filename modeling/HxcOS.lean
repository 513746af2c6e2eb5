import HxcOS.Lib.Memory
import HxcOS.Lib.Loop
import HxcOS.Lib.Chain
import HxcOS.Lib.Radix
import HxcOS.Lib.System
import HxcOS.Lib.Explore
import HxcOS.Lib.Least
import HxcOS.Lib.Sv39
import HxcOS.Lib.Ring
import HxcOS.Lib.Numeral
import HxcOS.Model.CString
import HxcOS.Model.String
import HxcOS.String.Copies
import HxcOS.String.Safestrcpy
import HxcOS.String.Atol
import HxcOS.String.Strings
import HxcOS.Model.Memlayout
import HxcOS.Model.Pmm
import HxcOS.Pmm.Pool
import HxcOS.Pmm.Stack
import HxcOS.Model.Vmm
import HxcOS.Vmm.Walk
import HxcOS.Vmm.Kernel
import HxcOS.Vmm.Ownership
import HxcOS.Vmm.Operations
import HxcOS.Vmm.Runs
import HxcOS.Vmm.Refinement
import HxcOS.Vmm.PageRoles
import HxcOS.Vmm.Sv39Walk
import HxcOS.Vmm.Exhaustion
import HxcOS.Vmm.Nodes
import HxcOS.Vmm.Sharing
import HxcOS.Vmm.Mappers
import HxcOS.Vmm.NodeCount
import HxcOS.Model.Mmio
import HxcOS.Model.Process
import HxcOS.Model.Plic
import HxcOS.Model.KernelPrint
import HxcOS.Kprint.Numbers
import HxcOS.Kprint.Printf
import HxcOS.Kprint.RoundTrip
import HxcOS.Virtio.Queue
import HxcOS.Virtio.FreeChain
import HxcOS.Virtio.Descriptors
import HxcOS.Virtio.DeviceWalk
import HxcOS.Virtio.Header
import HxcOS.Virtio.Init
import HxcOS.Virtio.FreeList
import HxcOS.Virtio.Lifetime
import HxcOS.Virtio.DiskFree
import HxcOS.Virtio.Rings
import HxcOS.Virtio.AvailRing
import HxcOS.Plic.Claims
import HxcOS.Process.Loader
import HxcOS.Process.Segments
import HxcOS.Process.Arithmetic
import HxcOS.Process.Processes
import HxcOS.Process.Spaces
import HxcOS.Process.View
import HxcOS.Process.Rejection
import HxcOS.Process.Frame
import HxcOS.Process.Mapping
import HxcOS.Process.MappedPages
import HxcOS.Process.Layout
