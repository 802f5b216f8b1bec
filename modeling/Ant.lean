import Ant.Library.ByteLayout
import Ant.Library.ByteString
import Ant.Pkg.LockfileFormat
import Ant.Library.Probe
import Ant.Pkg.LockfileReader
import Ant.Pkg.LockfileSafety
import Ant.Pkg.LockfileBuild
import Ant.Pkg.LockfileRoundTrip
import Ant.Pkg.Tar
import Ant.Library.OrderedMap
import Ant.Library.PathTree
import Ant.Pkg.TarStream
import Ant.Library.Effect
import Ant.Pkg.Storage
import Ant.Pkg.TarFeed
import Ant.Pkg.PortableExtractor
import Ant.Pkg.ExtractorChunking
import Ant.Library.LinkedTree
import Ant.Pkg.Extractor
import Ant.Pkg.ExtractorConfinement
import Ant.Pkg.StorageSpec
import Ant.Pkg.PackageGraph
import Ant.Pkg.PortableLinking
import Ant.Pkg.PortableProgress
import Ant.Pkg.PortablePhases
import Ant.Pkg.PortableInstall
import Ant.Pkg.ResolvedPackages
import Ant.Pkg.ResolverLockfile
import Ant.Pkg.PosixPlain
import Ant.Pkg.Tarball
import Ant.Pkg.ExtractorFiles
import Ant.Library.Layout
import Ant.Silver.Bytecode
import Ant.Silver.Compiler
import Ant.Library.Transition
import Ant.Silver.Machine
import Ant.Silver.Flow
import Ant.Silver.ExprFlow
import Ant.Silver.StmtFlow
import Ant.Silver.Handlers
import Ant.Silver.StackShape
import Ant.Silver.IteratorSites
import Ant.Silver.Iterators
import Ant.Http.ResponseStream
import Ant.Http.Parser
import Ant.Http.ParsedHeaders
import Ant.Http.ServerResponse
import Ant.Http.ResponseBody
import Ant.Http.ResponseHead
import Ant.Library.JsonTree
import Ant.Esm.PackageMap
import Ant.Esm.NodeTargets
import Ant.Library.LexicalPath
import Ant.Esm.Loader
import Ant.Esm.Confinement
import Ant.Library.RefCount
import Ant.Runtime.Shapes
import Ant.Runtime.ShapeStore
import Ant.Runtime.Objects
import Ant.Runtime.HeapSteps
import Ant.Runtime.Transitions
import Ant.Runtime.GetField
import Ant.Library.Wtf8
import Ant.Text.Scan
import Ant.Text.Strings
import Ant.Text.Equality
import Ant.Library.MergePasses
import Ant.Text.Order
import Ant.Runtime.ArraySort
import Ant.Library.FirstMatch
import Ant.Text.Replace
import Ant.Text.Regex
import Ant.Text.Split
import Ant.Library.Tombstones
import Ant.Runtime.Collections
import Ant.Library.KeyedList
import Ant.Json.Keys
import Ant.Json.Stringify
import Ant.Library.GraphCopy
import Ant.Runtime.CloneGraphs
import Ant.Sandbox.NatStream
import Ant.Runtime.Microtasks
import Ant.Pkg.Metadata
import Ant.Runtime.Immediates
import Ant.Library.Groups
import Ant.Http.Headers
import Ant.Pkg.StorageRemoval
import Ant.Pkg.StoragePaths
import Ant.Pkg.DependencyLists
import Ant.Pkg.CachedLockfile
import Ant.Pkg.RegistryChoice
import Ant.Pkg.ResolutionKey
import Ant.Runtime.BigIntWrap
import Ant.Runtime.BigIntLimbs
