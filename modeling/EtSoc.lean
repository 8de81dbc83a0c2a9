import EtSoc.Library.Program
import EtSoc.Library.Bytes
import EtSoc.Library.Spans
import EtSoc.Model.Proto
import EtSoc.Model.World
import EtSoc.Model.State
import EtSoc.Model.Tags
import EtSoc.Model.Alloc
import EtSoc.Model.Dma
import EtSoc.Model.Launch
import EtSoc.Model.Elf
import EtSoc.Model.Load
import EtSoc.Model.Buffers
import EtSoc.Model.Session
import EtSoc.Verification.World.Moves
import EtSoc.Verification.World.Sound
import EtSoc.Verification.Tags.Log
import EtSoc.Verification.Tags.Invariant
import EtSoc.Verification.Tags.Steps
import EtSoc.Verification.Tags.Ready
import EtSoc.Verification.Tags.Push
import EtSoc.Verification.Tags.Collect
import EtSoc.Verification.World.Stride
import EtSoc.Verification.World.Steady
import EtSoc.Verification.World.Memory
import EtSoc.Verification.Dma.Nodes
import EtSoc.Verification.Dma.Push
import EtSoc.Verification.Dma.Await
import EtSoc.Verification.Dma.Chunk
import EtSoc.Verification.Dma.Transfer
import EtSoc.Verification.Dma.Upload
import EtSoc.Verification.Dma.Download
import EtSoc.Verification.Dma.Staging
import EtSoc.Verification.Dma.Memcpy
import EtSoc.Verification.Dma.Pinned
import EtSoc.Verification.Launch.Slots
import EtSoc.Verification.Launch.Launches
import EtSoc.Verification.Launch.Waits
import EtSoc.Verification.Session.Blind
import EtSoc.Verification.Session.Steadfast
import EtSoc.Verification.Session.Heap
import EtSoc.Verification.Session.Rests
import EtSoc.Verification.Session.Quiet
import EtSoc.Verification.Session.Transfers
import EtSoc.Verification.Session.Loads
import EtSoc.Verification.Session.PinnedCalls
import EtSoc.Verification.Session.Launching
import EtSoc.Verification.Session.Runs
import EtSoc.Verification.Session.Recycling
import EtSoc.Verification.Session.Deliveries
import EtSoc.Verification.Session.Images
import EtSoc.Verification.Session.Completions
import EtSoc.Verification.Elf.Parse
import EtSoc.Verification.Elf.Checked
import EtSoc.Model.Trace
import EtSoc.Verification.Trace.Walk
import EtSoc.Verification.Trace.Partitions
import EtSoc.Verification.Trace.Confined
import EtSoc.Verification.Trace.Encoding
import EtSoc.Verification.Trace.RoundTrip
import EtSoc.Library.ByteMemory
import EtSoc.Model.TraceWriter
import EtSoc.Verification.Trace.Writer
import EtSoc.Verification.Session.Allocations
import EtSoc.Model.Gemm
import EtSoc.Verification.Gemm.Operands
import EtSoc.Verification.Gemm.Tiles
import EtSoc.Verification.Gemm.Accesses
import EtSoc.Model.Wire
import EtSoc.Verification.Wire.Decoding
import EtSoc.Verification.Wire.Pushing
import EtSoc.Verification.Session.Offers
import EtSoc.Library.Decimal
import EtSoc.Model.Message
import EtSoc.Verification.Kernel.Messages
import EtSoc.Model.CacheOps
import EtSoc.Verification.Kernel.CacheLines
import EtSoc.Library.BalancedSplit
import EtSoc.Model.Reduce
import EtSoc.Verification.Kernel.Reduction
import EtSoc.Library.Strides
import EtSoc.Model.PsMath
import EtSoc.Verification.Kernel.Ranks
import EtSoc.Verification.Kernel.GridStride
import EtSoc.Library.Schedules
import EtSoc.Model.Spsc
import EtSoc.Verification.Kernel.Queue
import EtSoc.Verification.Kernel.QueueRuns
import EtSoc.Verification.Session.Deaf
import EtSoc.Verification.Session.Calm
import EtSoc.Library.GrowingPool
import EtSoc.Verification.Session.Pool
import EtSoc.Verification.Session.PoolRuns
import EtSoc.Verification.Session.SlotCount
import EtSoc.Verification.Session.Accounting
import EtSoc.Verification.Session.Overwrites
import EtSoc.Library.WriteBackCache
import EtSoc.Model.Channel
import EtSoc.Verification.Kernel.Channel
import EtSoc.Verification.Kernel.ChannelLayout
import EtSoc.Verification.Kernel.ChannelRuns
import EtSoc.Verification.Kernel.ChannelMemory
import EtSoc.Library.BitFields
import EtSoc.Model.Tensor
import EtSoc.Verification.Kernel.TensorWords
import EtSoc.Library.SharedMemory
import EtSoc.Model.Coprocessor
import EtSoc.Verification.Gemm.Instructions
import EtSoc.Library.InFlight
import EtSoc.Verification.Gemm.Product
import EtSoc.Verification.Gemm.ProductRuns
import EtSoc.Verification.Gemm.Termination
import EtSoc.Library.Scatter
import EtSoc.Verification.World.Serial
import EtSoc.Verification.Launch.Parked
import EtSoc.Verification.Session.Serial
import EtSoc.Verification.Session.SerialLaunch
import EtSoc.Verification.Session.Sequential
import EtSoc.Verification.Wire.Sending
import EtSoc.Verification.Session.Accepting
