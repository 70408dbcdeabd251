import Compass.Analyzer.Proofs.Between
import Compass.Analyzer.Proofs.ChildTargetlist
import Compass.Analyzer.Proofs.GetDomain
import Compass.Bitmaps.Proofs.CountDistinct
import Compass.Bitmaps.Proofs.HyperLogLog
import Compass.BufferPool.Proofs.FreeBuffer
import Compass.BufferPool.Proofs.Memory
import Compass.Calendar.Proofs.DateAdd
import Compass.Calendar.Proofs.DateDiff
import Compass.Calendar.Proofs.ExtractRange
import Compass.Catalog.Proofs.Commands
import Compass.Catalog.Proofs.RevokeAll
import Compass.Catalog.Proofs.SharedDictionary
import Compass.Catalog.Proofs.SketchTemplates
import Compass.Dict.Proofs.Recover
import Compass.Dict.Proofs.SortedCache
import Compass.Encoder.Proofs.Encoders
import Compass.Execution.Proofs.WorkUnit
import Compass.Files.Proofs.ReadThreads
import Compass.Fragment.Proofs.Skip
import Compass.Fragmenter.Proofs.InsertOrder
import Compass.HashTable.Proofs.InclusiveScan
import Compass.HashTable.Proofs.Sharded
import Compass.HashTable.Proofs.Storable
import Compass.Import.Proofs.Agree
import Compass.Import.Proofs.Blocks
import Compass.Import.Proofs.ParseNumeric
import Compass.JoinOrder.Proofs.Coherent
import Compass.JoinOrder.Proofs.Permutation
import Compass.JoinQuals.Proofs.EquiJoinCondition
import Compass.JoinQuals.Proofs.Quals
import Compass.LeftDeep.Proofs.Rebind
import Compass.Like.Proofs.Simple
import Compass.Optimizer.Proofs.FoldFilters
import Compass.Optimizer.Proofs.HoistRun
import Compass.Optimizer.Proofs.SimplifySort
import Compass.PushDown.Proofs.Complete
import Compass.PushDown.Proofs.JoinCols
import Compass.PushDown.Proofs.Residual
import Compass.PushDown.Proofs.Revert
import Compass.PushDown.Proofs.Seeds
import Compass.Range.Proofs.Soundness
import Compass.Rewrite.Proofs.OrToIn
import Compass.Sketch.Proofs.Gpu
import Compass.Sketch.Proofs.Host
import Compass.Sketch.Proofs.Ranges
import Compass.Sketch.Proofs.SizeOfJoin
import Compass.TopN.Proofs.Exact
import Compass.TopN.Proofs.TopKRuntime
