import Meld.Lib.Arena
import Meld.Lib.Linked
import Meld.Lib.Loop
import Meld.Lib.Heap
import Meld.Queue.PriorityBag
import Meld.Vm.RuleMatcher
import Meld.Vm.Match
import Meld.Db.TupleLookup
import Meld.Db.TupleSearch
import Meld.Db.TupleCounts
import Meld.Sched.Broadcast
import Meld.Sched.Termination
import Meld.Utils.BarrierRadix
import Meld.Thread.StaticTermination
import Meld.Vm.LinearCounts
import Meld.Vm.IterateNest
import Meld.Vm.IterateBalance
import Meld.Vm.IterateReturns
import Meld.Linker.ImportResolution
import Meld.Linker.Select
import Meld.Sched.MessageBuffer
import Meld.Sched.Sim
import Meld.Process.Router
import Meld.Queue.KeepsLast
import Meld.Queue.MultiPush
import Meld.Queue.LowestFirst
import Meld.Queue.ComplexRuns
import Meld.Vm.Advance
import Meld.Vm.Decoders
import Meld.Vm.Operands
import Meld.Vm.Moves
import Meld.Vm.IterMatches
import Meld.Db.Database
import Meld.Queue.GeneralPqueue
import Meld.Sched.TimestampQueues
import Meld.Linker.ExternTable
import Meld.Linker.PredicateNames
import Meld.Vm.External
import Meld.Vm.NewAxioms
import Meld.Db.TupleStores
import Meld.Vm.FactCounts
import Meld.Thread.PriorityBuffer
import Meld.Mem.PoolSafety
import Meld.Db.AggIndex
import Meld.Sched.FetchPacing
import Meld.External.SketchMerge
import Meld.Linker.TraversalOnce
import Meld.Sched.Delivery
import Meld.Sched.Requests
import Meld.Linker.WellFormed
import Meld.Sched.Detection
import Meld.Sched.SerialRuns
import Meld.Vm.ExecuteTree
import Meld.Vm.TimeSlices
import Meld.Thread.RoundsAgree
