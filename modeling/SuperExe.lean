import SuperExe.Lib.Trace
import SuperExe.Lib.Loop
import SuperExe.Lib.Segments
import SuperExe.Core.Iov
import SuperExe.Core.IovRuns
import SuperExe.Core.CString
import SuperExe.Core.Decimal
import SuperExe.Stream.Channel
import SuperExe.Stream.Delivery
import SuperExe.Vhost.FdtInvariant
import SuperExe.Vhost.FdtFiles
import SuperExe.Vhost.Open
import SuperExe.Http.Parser
import SuperExe.Http.Segmentation
import SuperExe.Http.Framing
import SuperExe.Http.Header
import SuperExe.Http.Interleaving
import SuperExe.Http.Request
import SuperExe.Http.Prepare
import SuperExe.Http.ParserFrame
import SuperExe.Http.Isolation
import SuperExe.Http.HeaderIsolation
import SuperExe.Http.Prefix
import SuperExe.Http.Answer
import SuperExe.Http.Containment
import SuperExe.Http.SingleResponse
import SuperExe.Http.ErrorFraming
import SuperExe.Http.Range
import SuperExe.Http.Output
import SuperExe.Http.Descriptors
import SuperExe.Http.DescriptorLife
import SuperExe.Http.Session
import SuperExe.Http.KeepAlive
import SuperExe.Http.Pipeline
import SuperExe.Http.Persistence
import SuperExe.Plugins.Auth
import SuperExe.Plugins.Break
import SuperExe.Plugins.Client
import SuperExe.Sched.Event
import SuperExe.Sched.Close
import SuperExe.Sched.Completion
import SuperExe.Sched.Timeout
import SuperExe.Sched.ConnQueue
import SuperExe.Sched.Idle
import SuperExe.Sched.Accept
import SuperExe.Elastos.ElString
import SuperExe.Elastos.CountCache
import SuperExe.Elastos.StringRuns
import SuperExe.FastCgi.Record
import SuperExe.FastCgi.Params
import SuperExe.FastCgi.ParamsDecode
import SuperExe.FastCgi.Reader
import SuperExe.FastCgi.Segmentation
import SuperExe.FastCgi.Process
import SuperExe.FastCgi.Response
import SuperExe.Cgi.Event
import SuperExe.Cgi.Segmentation
import SuperExe.Reflection.HashTableMap
import SuperExe.Lib.Footprint
import SuperExe.Cls.Layout
import SuperExe.Cls.Address
import SuperExe.Reflection.Faithful
import SuperExe.Reflection.VTable
import SuperExe.Plugins.ListingPage
import SuperExe.Plugins.SuperExeEntry
import SuperExe.Http.HeaderList
import SuperExe.Http.Recognition
import SuperExe.Http.MethodName
import SuperExe.Http.NumericHeaders
import SuperExe.Http.ReadBuffer
import SuperExe.Http.Slices
import SuperExe.Http.LiveSlices
import SuperExe.Sched.FlushLoop
import SuperExe.Http.Redirect
import SuperExe.Http.UriDecode
import SuperExe.Lib.Lines
import SuperExe.FastCgi.Encode
import SuperExe.FastCgi.Stdin
import SuperExe.FastCgi.Room
import SuperExe.Elastos.Accessors
import SuperExe.Elastos.CodePoints
import SuperExe.Lib.Search
import SuperExe.Elastos.IndexOf
import SuperExe.Elastos.LastIndexOf
import SuperExe.Elastos.CompareIgnoreCase
import SuperExe.Elastos.InsensitiveIndexOf
import SuperExe.Elastos.FoldedSearch
import SuperExe.Lib.Lexicographic
import SuperExe.Elastos.RegionMatches
import SuperExe.Core.StringSearch
import SuperExe.Plugins.Mandril
import SuperExe.Core.MkString
import SuperExe.Plugins.Subnet
import SuperExe.Plugins.TemplateParse
import SuperExe.Plugins.UsersFile
import SuperExe.Core.Stdio
import SuperExe.Plugins.MkPasswd
import SuperExe.Elastos.ArrayCopy
import SuperExe.Elastos.ArrayBounds
import SuperExe.Http.DateCache
import SuperExe.Lib.Layout
import SuperExe.Lib.Places
import SuperExe.Reflection.ArgumentList
import SuperExe.Reflection.StructInfo
import SuperExe.Reflection.IndexSafety
import SuperExe.Reflection.EntryIndex
import SuperExe.Reflection.EntryNames
import SuperExe.Reflection.Rebox
import SuperExe.Core.SplitLine
import SuperExe.Elastos.Container
import SuperExe.Lib.Action
import SuperExe.Lib.Interning
import SuperExe.Reflection.AliasTypes
import SuperExe.Reflection.DynamicTypes
import SuperExe.Reflection.LockBalance
import SuperExe.Reflection.RegistryCaches
import SuperExe.Reflection.FailedInit
import SuperExe.Core.RconfReadBack
import SuperExe.Plugins.Hotlink
import SuperExe.Core.RbTreeRun
