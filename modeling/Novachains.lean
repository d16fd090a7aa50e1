import Novachains.Dms.SMEMgr.FreePos
import Novachains.Dms.Flush
import Novachains.Dms.Ownership
import Novachains.Dms.Statistics
import Novachains.Dms.Atomic
import Novachains.Dms.BlockUnit
import Novachains.Dms.Names
import Novachains.Dms.RecordSpace
import Novachains.Dms.ContextLock
import Novachains.Util.PoolRelease
import Novachains.Bson.Order
import Novachains.Bson.Overwrite
import Novachains.Bson.DateOrder
import Novachains.Oss.RWMutex
import Novachains.Oss.FileCopy
import Novachains.Net.StreamRead
import Novachains.Net.HeaderFraming
import Novachains.Net.Frame
import Novachains.Net.Route
import Novachains.Pmd.Lifecycle
import Novachains.Pmd.EDUPool
import Novachains.Pmd.EDUStop
import Novachains.Util.MemPoolSound
import Novachains.Pd.TraceRoundTrip
import Novachains.Util.CfgDelete
import Novachains.Util.CfgReturn
import Novachains.Oss.MmapSegments
import Novachains.Net.Service
import Novachains.Pmd.Controller
import Novachains.Pmd.WaitEvent
import Novachains.Pmd.EDUBooks
import Novachains.Util.Math
import Novachains.Util.SmallErase
import Novachains.Util.SplitIterator
import Novachains.Oss.Path
import Novachains.Pd.TraceExcept
