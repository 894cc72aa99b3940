import NxTinygrad.Restarts
import NxTinygrad.Capture
import NxTinygrad.Nesting
import NxTinygrad.SymbolicStep
import NxTinygrad.ReplayRuns
import NxTinygrad.MainLoop
import NxTinygrad.CacheKey
import NxTinygrad.Custody
import NxTinygrad.Requests
import NxTinygrad.Immutable
import NxTinygrad.Lowered
import NxTinygrad.Accepted
import NxTinygrad.Computed
import NxTinygrad.Lib.Tally
import NxTinygrad.ReleaseOnce
import NxTinygrad.TracedBodies
import NxTinygrad.Fallback
import NxTinygrad.InputSlots
import NxTinygrad.Scatter
import NxTinygrad.TriangularSolve
import NxTinygrad.IntegerDivision
import NxTinygrad.Commands
import NxTinygrad.Drains
import NxTinygrad.Transfer
import NxTinygrad.Solved
import NxTinygrad.Packets
import NxTinygrad.Devices
import NxTinygrad.Bindings
import NxTinygrad.Gather
import NxTinygrad.Padding
import NxTinygrad.Contraction
import NxTinygrad.ComplexPairs
import NxTinygrad.Fourier
import NxTinygrad.ComplexOps
import NxTinygrad.Convolution
import NxTinygrad.WindowScatter
import NxTinygrad.ExecutableCache
import NxTinygrad.BitCounts
import NxTinygrad.ArgReduce
import NxTinygrad.Sharing
import NxTinygrad.PathsAgree
import NxTinygrad.Storage
import NxTinygrad.Closures
import NxTinygrad.Streaming
import NxTinygrad.Reducing
import NxTinygrad.WorkerIds
import NxTinygrad.Blocks
import NxTinygrad.Rows
import NxTinygrad.Programs
import NxTinygrad.Startup
import NxTinygrad.Elementary
import NxTinygrad.Parts
