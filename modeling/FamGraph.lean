import FamGraph.Foundation.TransitionSystem
import FamGraph.Foundation.TaskPool
import FamGraph.Foundation.Loop
import FamGraph.Foundation.Multigraph
import FamGraph.Foundation.LittleEndian
import FamGraph.Foundation.EventLoop
import FamGraph.Proofs.AbstractServer
import FamGraph.Proofs.FamServer
import FamGraph.Proofs.FileMapper
import FamGraph.Proofs.VertexTable
import FamGraph.Proofs.GaloisGr
import FamGraph.Proofs.CompareGr
import FamGraph.Proofs.MaxDegree
import FamGraph.Proofs.EdgeListToCsr
import FamGraph.Proofs.EdgeListToWCsr
import FamGraph.Proofs.SortedOption
import FamGraph.Proofs.Session
import FamGraph.Proofs.Edgemap
import FamGraph.Proofs.Bitmap
import FamGraph.Proofs.BitmapHistory
import FamGraph.Proofs.GraphKernel
import FamGraph.Proofs.Bfs
import FamGraph.Proofs.ConnectedComponents
import FamGraph.Proofs.UpdateAtomic
import FamGraph.Proofs.Kcore
import FamGraph.Proofs.Mis
import FamGraph.Proofs.PagerankDelta
import FamGraph.Foundation.BoundedSelection
import FamGraph.Proofs.PrintTop20
import FamGraph.Foundation.Memory
import FamGraph.Proofs.Packing
import FamGraph.Proofs.BatchDrivers
import FamGraph.Proofs.CacheSetup
import FamGraph.Foundation.Restream
import FamGraph.Proofs.SentinelProtocol
import FamGraph.Proofs.WindowGeometry
import FamGraph.Proofs.PackingArithmetic
import FamGraph.Proofs.GenericCtx
import FamGraph.Proofs.PackerCopies
import FamGraph.Foundation.SendQueue
import FamGraph.Foundation.GrowableVector
import FamGraph.Proofs.MakeWRs
import FamGraph.Proofs.PostAll
import FamGraph.Proofs.CoalesceIntervals
import FamGraph.Proofs.SendQueue
import FamGraph.Proofs.MisBookkeeping
import FamGraph.Proofs.MisTermination
import FamGraph.Foundation.NotifiedQueue
import FamGraph.Proofs.PollCq
import FamGraph.Foundation.Lockstep
import FamGraph.Proofs.ConnectionUtils
import FamGraph.Foundation.Program
import FamGraph.Proofs.SessionProgress
import FamGraph.Proofs.Pipeline
import FamGraph.Foundation.Components
import FamGraph.Proofs.ComponentSummary
import FamGraph.Foundation.DampedFlow
import FamGraph.Proofs.PagerankAccuracy
import FamGraph.Proofs.MisCardinality
import FamGraph.Proofs.EncodeWeighted
import FamGraph.Proofs.EdgeListText
import FamGraph.Proofs.KernelRelations
import FamGraph.Proofs.GaloisTools
import FamGraph.Foundation.LocalCounters
import FamGraph.Proofs.Stats
import FamGraph.Proofs.Transpose
import FamGraph.Proofs.CallHistory
import FamGraph.Proofs.PropagationCalls
import FamGraph.Proofs.MisPulls
import FamGraph.Proofs.ReadTraffic
