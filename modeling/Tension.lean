import Tension.Models.Batching.Capacity
import Tension.Models.Batching.Deadline
import Tension.Models.Bfc.Guarantees
import Tension.Models.Bfc.Termination
import Tension.Models.BlockCache.Transparency
import Tension.Models.Devices.DeviceNames
import Tension.Models.Executor.Dataflow
import Tension.Models.Executor.FrameWindow
import Tension.Models.Executor.Merge
import Tension.Models.FlatRep.Refinement
import Tension.Models.Graph.Structure
import Tension.Models.GraphCycles.Calls
import Tension.Models.HeapSimulator.Runs
import Tension.Models.Io.BufferedStream
import Tension.Models.Io.Corruption
import Tension.Models.Io.InputVarint
import Tension.Models.Io.Truncation
import Tension.Models.Queues.BarrierConservation
import Tension.Models.Queues.FifoQueueConservation
import Tension.Models.Random.Philox
import Tension.Models.Rendezvous.Delivery
import Tension.Models.Resources.Arithmetic
import Tension.Models.Resources.Comparison
import Tension.Models.SSTable.TableCursor
import Tension.Models.Serving.Admission
import Tension.Models.Serving.Events
import Tension.Models.Serving.LoadMutexes
import Tension.Models.Serving.Retrier
import Tension.Models.Serving.Takeover
import Tension.Models.Slices.Bounds
import Tension.Models.Strings.CompositeKeys
import Tension.Models.Strings.StrUtil
