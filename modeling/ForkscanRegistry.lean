import ForkscanRegistry.Avl.Node
import ForkscanRegistry.Avl.Tree
import ForkscanRegistry.Avl.MarkMap
import ForkscanRegistry.Avl.Invariant
import ForkscanRegistry.Avl.Refinement
import ForkscanRegistry.Avl.HeightBound
import ForkscanRegistry.Avl.Frame
import ForkscanRegistry.Avl.Textbook
import ForkscanRegistry.Avl.Destroy
import ForkscanRegistry.Sorted.Buffer
import ForkscanRegistry.Sorted.Sort
import ForkscanRegistry.Sorted.Search
import ForkscanRegistry.Sorted.Compact
import ForkscanRegistry.Sorted.Overflow
import ForkscanRegistry.Sorted.Cost
import ForkscanRegistry.Harness.QuicksortScenario
import ForkscanRegistry.Harness.AvlScenario
import ForkscanRegistry.Harness.Agreement
import ForkscanRegistry.Harness.Survivors
import ForkscanRegistry.Workload.SlotTable
import ForkscanRegistry.Workload.Linearizability
import ForkscanRegistry.Workload.Prepopulate
import ForkscanRegistry.Util.Bits
import ForkscanRegistry.Workload.Reclamation
import ForkscanRegistry.Workload.Accounting
import ForkscanRegistry.Workload.Worker
