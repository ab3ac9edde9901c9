import Zuri.Builtins.RangeSequence
import Zuri.Cmds.Lock
import Zuri.Cmds.Lockfile
import Zuri.Cmds.LockfileRound
import Zuri.Cmds.Semver
import Zuri.Cmds.SemverLists
import Zuri.Cmds.SemverText
import Zuri.Cmds.StoreWhole
import Zuri.Coding.Separated
import Zuri.Compiler.Expression
import Zuri.Compiler.ForLoop
import Zuri.Compiler.Lexer
import Zuri.Compiler.LexerPlaces
import Zuri.Compiler.Using
import Zuri.Ffi.ConstExpr
import Zuri.Ffi.ConstMeaning
import Zuri.Ffi.ConstNumber
import Zuri.Ffi.ConstPlain
import Zuri.Ffi.ConstReader
import Zuri.Ffi.ConstSyntax
import Zuri.Float.Binary32
import Zuri.Float.Binary64
import Zuri.Float.Integral
import Zuri.Float.Nearest
import Zuri.Float.Single
import Zuri.Fuel.Exec
import Zuri.Graph.Backward
import Zuri.Graph.EditGraph
import Zuri.Graph.Shortcut
import Zuri.Http.CookieJar
import Zuri.Http.CookieRuns
import Zuri.Http.Cookies
import Zuri.Http.H1.Cuts
import Zuri.Http.H1.BufferedRead
import Zuri.Http.H1.BufferedRun
import Zuri.Http.H1.BufferedWalk
import Zuri.Http.H1.CutsRun
import Zuri.Http.H2.FlowControl
import Zuri.Http.H2.HeaderInv
import Zuri.Http.H2.HpackBlock
import Zuri.Http.Headers
import Zuri.Http.HeadersPlain
import Zuri.Http.HeadersRun
import Zuri.Http.HeadersSteps
import Zuri.Http.Router
import Zuri.Http.RouterAdd
import Zuri.Http.RouterFail
import Zuri.Http.RouterMatch
import Zuri.Http.RouterRight
import Zuri.Http.WebSocket
import Zuri.Http.WebSocketFrames
import Zuri.Http.WebSocketRun
import Zuri.Jit.Ir.Checked
import Zuri.Jit.Ir.Passes.GvnSound
import Zuri.Jit.Ir.Passes.Ints
import Zuri.Jit.Ir.Passes.IntsSound
import Zuri.Jit.Ir.Passes.Ranges
import Zuri.Jit.Ir.Passes.Removals
import Zuri.Jit.Ir.Passes.ThreadEnds
import Zuri.Jit.Ir.Passes.ThreadMove
import Zuri.Jit.Typeflow.Liveness
import Zuri.Libs.Csv
import Zuri.Libs.CsvReader
import Zuri.Libs.CsvReaders
import Zuri.Libs.CsvRound
import Zuri.Libs.CsvRuns
import Zuri.Libs.CsvScan
import Zuri.Libs.Migrate
import Zuri.Libs.MigrateRun
import Zuri.Libs.TomlKept
import Zuri.Libs.TomlNodes
import Zuri.Libs.TomlSlots
import Zuri.Libs.TomlStands
import Zuri.Libs.TomlTables
import Zuri.Libs.TomlText
import Zuri.Libs.TomlValue
import Zuri.Libs.Yaml
import Zuri.Libs.YamlCollections
import Zuri.Libs.YamlEnds
import Zuri.Libs.YamlMoves
import Zuri.Libs.YamlRun
import Zuri.Lsp.EditRounds
import Zuri.Lsp.EditScript
import Zuri.Lsp.EditWalk
import Zuri.Lsp.LineEdits
import Zuri.Lsp.LineEnds
import Zuri.Lsp.LineRuns
import Zuri.Lsp.Lines
import Zuri.Lsp.Places
import Zuri.Lsp.Positions
import Zuri.Lsp.Starts
import Zuri.Lsp.Text
import Zuri.Maps.Grouped
import Zuri.Modules.IsolatePool
import Zuri.Modules.IsolatePoolInv
import Zuri.Modules.IsolatePoolRun
import Zuri.Modules.Json
import Zuri.Modules.JsonDigits
import Zuri.Modules.JsonGrammar
import Zuri.Modules.JsonParse
import Zuri.Modules.JsonRound
import Zuri.Modules.JsonScan
import Zuri.Modules.Spawn
import Zuri.Modules.Struct
import Zuri.Modules.StructLayout
import Zuri.Modules.StructRecords
import Zuri.Modules.StructRound
import Zuri.Modules.StructShared
import Zuri.Modules.StructValues
import Zuri.Modules.TransferWhole
import Zuri.Order.Lexical
import Zuri.Order.MergeSort
import Zuri.Order.Widening
import Zuri.Vm.ClassDisplay
import Zuri.Vm.DictOrder
import Zuri.Vm.FieldDefaults
import Zuri.Vm.FieldDefaultsRun
import Zuri.Vm.HeapAccount
import Zuri.Vm.Instr
import Zuri.Vm.ListStorage
import Zuri.Vm.StringRun
