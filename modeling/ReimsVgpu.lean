import ReimsVgpu.Memory.Remaps
import ReimsVgpu.Memory.CopiesAgree
import ReimsVgpu.Tasks.ObjectLists
import ReimsVgpu.Tasks.ConnectionRuns
import ReimsVgpu.Collections.FirstFitRefinement
import ReimsVgpu.Fifo.ThreadOrder
import ReimsVgpu.Fifo.StampHistory
import ReimsVgpu.Fifo.HandlerReads
import ReimsVgpu.Device.Waits
import ReimsVgpu.Textures.PagingBounds
import ReimsVgpu.Remap.HoldRuns
import ReimsVgpu.Remap.GuestMappings
import ReimsVgpu.Gpu.IcbNumberRuns
import ReimsVgpu.Gpu.Placements
import ReimsVgpu.Gpu.AliasRuns
import ReimsVgpu.Remap.Interleavings
import ReimsVgpu.Gpu.MetalPoolRuns
import ReimsVgpu.Os.BackingHistory
import ReimsVgpu.Os.RemapRestores
import ReimsVgpu.Tasks.RemoteExec
import ReimsVgpu.IoSurface.LendingRuns
import ReimsVgpu.Gpu.WatchRuns
import ReimsVgpu.Predication.Refinement
import ReimsVgpu.Gpu.DetachedUses
import ReimsVgpu.Gpu.ExecutionRaces
import ReimsVgpu.Rt.SerialQueueRuns
import ReimsVgpu.Rt.CoalescingSignalRuns
import ReimsVgpu.Rt.HeldRuns
import ReimsVgpu.Display.GuestDisplayRuns
import ReimsVgpu.Display.PortRuns
import ReimsVgpu.Window.HandleEnds
import ReimsVgpu.Window.HandleChanges
import ReimsVgpu.Window.InputRuns
import ReimsVgpu.Swapchain.Retirement
import ReimsVgpu.Memory.TrackerEdits
import ReimsVgpu.Memory.TrackerHoles
import ReimsVgpu.Memory.TrackerSlots
import ReimsVgpu.Deserializer.FramersAgree
import ReimsVgpu.IoSurface.Walk
import ReimsVgpu.Gpu.IcbAnswers
import ReimsVgpu.Gpu.IcbSpanRuns
import ReimsVgpu.Gpu.Fill
import ReimsVgpu.Memory.ForwardCopy
import ReimsVgpu.Deserializer.WalkRuns
import ReimsVgpu.Device.SuspendResume
