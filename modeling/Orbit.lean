import Orbit.Build.Builder
import Orbit.Build.Generic
import Orbit.Cluster.Commands
import Orbit.Cluster.Proof.Fields
import Orbit.Cluster.Proof.Orphans
import Orbit.Cluster.Proof.Record
import Orbit.Cluster.Proof.Text
import Orbit.Cluster.Proof.Updates
import Orbit.Cluster.State
import Orbit.Cluster.World
import Orbit.Cte.Cteval
import Orbit.Cte.Proof.Dce
import Orbit.Cte.Proof.Eval
import Orbit.Cte.Proof.Fold
import Orbit.Cte.Proof.Module
import Orbit.Cte.Proof.Terminate
import Orbit.Emit.Document
import Orbit.Emit.Instr
import Orbit.Emit.Proof.Document
import Orbit.Emit.Proof.DocumentText
import Orbit.Emit.Proof.Forms
import Orbit.Emit.Proof.Instr
import Orbit.Emit.Proof.Operand
import Orbit.Emit.Target
import Orbit.Front.Ast
import Orbit.Front.Lexer
import Orbit.Front.Interpolation
import Orbit.Front.Parser
import Orbit.Front.Declarations
import Orbit.Lib.Polish
import Orbit.Front.Literal
import Orbit.Front.Number
import Orbit.Front.Proof.ConstantDivision
import Orbit.Front.Proof.Cursor
import Orbit.Front.Proof.Lexer
import Orbit.Front.Proof.Literal
import Orbit.Front.Proof.Number
import Orbit.Front.Proof.StringCheck
import Orbit.Front.Proof.Interpolation
import Orbit.Front.Proof.Tiling
import Orbit.Front.Tiling
import Orbit.IR.Modules
import Orbit.IR.Proof.Prune
import Orbit.IR.Prune
import Orbit.IR.Reach
import Orbit.IR.Sem
import Orbit.IR.Simulate
import Orbit.IR.Syntax
import Orbit.Lib.Backtrack
import Orbit.Lib.C.Lex
import Orbit.Lib.C.Means
import Orbit.Lib.C.Sem
import Orbit.Lib.C.Spell
import Orbit.Lib.C.Syntax
import Orbit.Lib.Decimal
import Orbit.Lib.Find
import Orbit.Lib.IpText
import Orbit.Lib.Json
import Orbit.Lib.Numeral
import Orbit.Lib.Probe
import Orbit.Lib.Prog
import Orbit.Lib.Region
import Orbit.Lib.Sim
import Orbit.Lib.Stream
import Orbit.Lib.Text
import Orbit.Opt.Optimizer
import Orbit.Opt.Proof.Fold
import Orbit.Opt.Proof.Optimize
import Orbit.Opt.Proof.Links
import Orbit.Opt.Proof.Order
import Orbit.Opt.Proof.Resolve
import Orbit.Opt.Proof.Sink
import Orbit.Opt.Proof.SinkLoop
import Orbit.Opt.Proof.Sweep
import Orbit.Runtime.Arena
import Orbit.Runtime.Http
import Orbit.Runtime.HttpFields
import Orbit.Runtime.Json
import Orbit.Runtime.JsonGrammar
import Orbit.Runtime.JsonField
import Orbit.Runtime.Kynx
import Orbit.Runtime.Lease
import Orbit.Runtime.Lists
import Orbit.Runtime.Map
import Orbit.Runtime.Proof.Arena
import Orbit.Runtime.Proof.ArenaAlloc
import Orbit.Runtime.Proof.ArenaCeiling
import Orbit.Runtime.Proof.BodyField
import Orbit.Runtime.Proof.Http
import Orbit.Runtime.Proof.HttpFields
import Orbit.Runtime.Proof.HttpHead
import Orbit.Runtime.Proof.JsonCursor
import Orbit.Runtime.Proof.JsonDocument
import Orbit.Runtime.Proof.JsonField
import Orbit.Runtime.Proof.JsonMembers
import Orbit.Runtime.Proof.JsonNumber
import Orbit.Runtime.Proof.JsonRoundTrip
import Orbit.Runtime.Proof.JsonString
import Orbit.Runtime.Proof.JsonValue
import Orbit.Runtime.Proof.JsonWritten
import Orbit.Runtime.Proof.Kynx
import Orbit.Runtime.Proof.KynxAddress
import Orbit.Runtime.Proof.KynxBan
import Orbit.Runtime.Proof.KynxBound
import Orbit.Runtime.Proof.KynxBurst
import Orbit.Runtime.Proof.KynxClock
import Orbit.Runtime.Proof.KynxRefill
import Orbit.Runtime.Proof.KynxProxy
import Orbit.Runtime.Proof.KynxRetry
import Orbit.Runtime.Proof.Router
import Orbit.Lib.Percent
import Orbit.Lib.Pieces
import Orbit.Runtime.Cache
import Orbit.Runtime.Proof.Cache
import Orbit.Runtime.Query
import Orbit.Runtime.Proof.Query
import Orbit.Runtime.Fetch
import Orbit.Runtime.Proof.FetchChunked
import Orbit.Runtime.Proof.FetchHead
import Orbit.Runtime.Proof.Dispatch
import Orbit.Runtime.Response
import Orbit.Runtime.Upload
import Orbit.Runtime.Server
import Orbit.Runtime.Proof.Response
import Orbit.Runtime.Proof.ResponseHeaders
import Orbit.Runtime.Proof.Upload
import Orbit.Runtime.Proof.WorkerPool
import Orbit.Runtime.Proof.KynxRoute
import Orbit.Runtime.Proof.KynxRouteTable
import Orbit.Runtime.Proof.Lease
import Orbit.Runtime.Proof.Lists
import Orbit.Runtime.Proof.Map
import Orbit.Runtime.Proof.Migrations
import Orbit.Runtime.Proof.RouterMatch
import Orbit.Runtime.Router
import Orbit.Stdlib.Proof.Regex
import Orbit.Stdlib.Proof.RegexClass
import Orbit.Stdlib.Proof.RegexText
import Orbit.Stdlib.Proof.Strings
import Orbit.Stdlib.Strings
import Orbit.Stdlib.Proof.Json
import Orbit.Stdlib.Regex
import Orbit.Stdlib.RegexSyntax
import Orbit.Tools.Doctor
import Orbit.Tools.Proof.Doctor
import Orbit.Build.Literal
import Orbit.Build.Proof.Frames
import Orbit.Build.Proof.IntConstant
import Orbit.Build.Proof.Mangling
import Orbit.Emit.Constant
import Orbit.Emit.Proof.Constant
import Orbit.Emit.Proof.StringLiteral
import Orbit.Lib.Pool
import Orbit.Runtime.AcceptQueue
import Orbit.Runtime.Proof.AcceptQueue
import Orbit.Runtime.Proof.KynxTable
import Orbit.Runtime.Proof.Server
import Orbit.Lib.JsonShort
import Orbit.Lib.JsonText
import Orbit.Runtime.Database
import Orbit.Runtime.Proof.Database
import Orbit.Runtime.Proof.RowBounds
import Orbit.Runtime.Proof.Rows
import Orbit.Tir.Lower
import Orbit.Tir.WellFormed
import Orbit.Tir.Proof.Walk
import Orbit.Tir.Proof.Values
import Orbit.Tir.Proof.Blocks
import Orbit.Tir.Proof.Scope
import Orbit.Tir.Proof.Lower
import Orbit.Front.Proof.Ready
import Orbit.Tir.Proof.Parsed
import Orbit.Tir.Entry
import Orbit.Lib.Bits
import Orbit.Lib.Sha256
import Orbit.Runtime.Crypto
import Orbit.Runtime.Proof.Crypto
import Orbit.Runtime.Proof.Admission
import Orbit.Runtime.Performance
import Orbit.Runtime.Proof.Performance
import Orbit.Stdlib.Codec
import Orbit.Stdlib.Proof.Codec
import Orbit.Stdlib.Jwt
import Orbit.Stdlib.Proof.Jwt
import Orbit.Stdlib.Bytes
import Orbit.Stdlib.Proof.Bytes
import Orbit.Stdlib.Proof.RegexRun
import Orbit.Lib.Walk
import Orbit.Front.Resolver
import Orbit.Front.Proof.Resolver
