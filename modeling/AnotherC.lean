import AnotherC.Connect.CgiJson
import AnotherC.Connect.Isolation
import AnotherC.Connect.Recycle
import AnotherC.Connect.Serve
import AnotherC.Core.Allocator
import AnotherC.Core.Buffer
import AnotherC.Core.Conv
import AnotherC.Core.PoolEncodeCsv
import AnotherC.Core.PoolReset
import AnotherC.Core.PoolSplitStr
import AnotherC.Core.PoolStrdupa
import AnotherC.Core.PoolStripHtml
import AnotherC.Core.Split
import AnotherC.Io.CallerBuffer
import AnotherC.Io.Checksum
import AnotherC.Io.Descriptor
import AnotherC.Io.Group
import AnotherC.Io.Partition
import AnotherC.Io.Reduce
import AnotherC.Io.SchedulerBounds
import AnotherC.Io.SchedulerTimes
import AnotherC.Io.Spill
import AnotherC.Io.Splitter
import AnotherC.Io.Writer
import AnotherC.Json.Lookups
import AnotherC.Json.Unescape
import AnotherC.Search.BooleanTree
import AnotherC.Search.BuilderGlobals
import AnotherC.Search.CursorLeaf
import AnotherC.Search.Filters
import AnotherC.Search.LexerForest
import AnotherC.Search.OrTerm
import AnotherC.Search.PrefixQuery
import AnotherC.Search.SizeClasses
import AnotherC.Search.StoreRefines
import AnotherC.Search.StringLookup
import AnotherC.Search.StringMap
import AnotherC.Search.TokenClone
import AnotherC.Search.TokenQuery
import AnotherC.Search.TopN
import AnotherC.Utils.FileSync
import AnotherC.Utils.FileSyncRead
