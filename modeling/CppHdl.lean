import CppHdl.Graph.Optimize
import CppHdl.Graph.RoundTrip
import CppHdl.Graph.SideBySide
import CppHdl.Graph.Waveform
import CppHdl.Threads.EachTask
import CppHdl.Native.Equivalent
import CppHdl.Hls.Arena
import CppHdl.Words.ArrayRuns
import CppHdl.Basic.Buffer
import CppHdl.Basic.Fifo
import CppHdl.Hls.CachedMapRuns
import CppHdl.Cdc.Fifo2clk
import CppHdl.Cdc.Axi4Cdc
import CppHdl.Cdc.L1MemCdc
import CppHdl.Cache.L1Read
import CppHdl.Devices.PlicGateway
import CppHdl.Devices.EthGigStream
import CppHdl.Devices.EthGigReceive
import CppHdl.Cpu.ExecuteProgress
import CppHdl.Analog.FramingRun
import CppHdl.Cpu.TribeTestSnoops
import CppHdl.Cpu.ExecuteMemSplit
import CppHdl.Graph.SelectExactly
import CppHdl.Cpu.WritebackLoad
import CppHdl.Devices.EthGigPhy
import CppHdl.Devices.Ns16550a
import CppHdl.Devices.SdPio
import CppHdl.Bus.RegionSessions
import CppHdl.Bus.SharedSessions
import CppHdl.Synth.WordNodes
import CppHdl.Hls.StaticInteger
import CppHdl.Words.Increment
import CppHdl.Words.Shifts
import CppHdl.Native.PendingEvents
import CppHdl.Threads.Batch
import CppHdl.Native.Gather
import CppHdl.Graph.GuardedSpecialize
import CppHdl.Words.Predicates
import CppHdl.Words.SliceReaders
import CppHdl.Basic.RowMemory
import CppHdl.Hls.MemoryMap
import CppHdl.Hls.BlockRam
import CppHdl.Synth.ExternalRuns
import CppHdl.Kernels.FpRounding
import CppHdl.Kernels.Fp32Mac
import CppHdl.Devices.EthGigDelivery
