import Itaro.Theory.Memory
import Itaro.Theory.Runs
import Itaro.Theory.Search
import Itaro.Usmm.Bitmap
import Itaro.Usmm.BitmapSearch
import Itaro.Theory.Align
import Itaro.Theory.Writes
import Itaro.Usmm.Layout
import Itaro.Theory.Chain
import Itaro.Usmm.Slab
import Itaro.Usmm.SlabClass
import Itaro.Theory.Ring
import Itaro.Usmm.Init
import Itaro.Usmm.CrashSafety
import Itaro.Usmm.Config
import Itaro.Theory.Queues
import Itaro.Usmm.Region
import Itaro.Usmm.World
import Itaro.Usmm.Invariant
import Itaro.Usmm.HeapSteps
import Itaro.Usmm.Steps
import Itaro.Usmm.Ownership
import Itaro.Usmm.NoFault
import Itaro.Usmm.Reload
import Itaro.Usmm.HeapBlock
import Itaro.Theory.Count
import Itaro.Usmm.Placement
import Itaro.Usmm.Statistics
import Itaro.Cache.Dict
import Itaro.Cache.Keys
import Itaro.Theory.Buckets
import Itaro.Cache.DictMap
import Itaro.Cache.Cache
import Itaro.Usmm.SliceSizes
import Itaro.Usmm.BitmapComplete
import Itaro.Usmm.OwnerRecovery
import Itaro.Usmm.SlabRuns
import Itaro.Usmm.SliceComplete
import Itaro.Usmm.SliceUndo
import Itaro.Usmm.HeapUndo
import Itaro.Theory.Numeral
import Itaro.Theory.Reverse
import Itaro.Cache.Decimal
import Itaro.Cache.Cobj
import Itaro.Cache.CobjCount
import Itaro.Cache.CobjText
import Itaro.Usmm.BitmapRanges
import Itaro.Cache.DictIteration
import Itaro.Cache.DictPasses
import Itaro.Cache.SdsArgs
import Itaro.Cache.SdsEdit
import Itaro.Cache.SdsSplit
import Itaro.Theory.Links
import Itaro.Usmm.Linked
import Itaro.Usmm.LinkedLists
import Itaro.Usmm.LinkedRuns
import Itaro.Engine.Item
import Itaro.Engine.Items
import Itaro.Engine.Operations
import Itaro.Engine.CacheRuns
import Itaro.Engine.ShardRuns
import Itaro.Engine.Protocol
import Itaro.Engine.ProtocolRuns
import Itaro.Engine.Datagrams
