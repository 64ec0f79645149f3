import Natc.Agent.Copy
import Natc.Agent.Environ
import Natc.Agent.Execute
import Natc.Agent.Get
import Natc.Agent.Host
import Natc.Agent.InStep
import Natc.Agent.OperationText
import Natc.Agent.Output
import Natc.Agent.Put
import Natc.Agent.Receive
import Natc.Agent.RsysBuf
import Natc.Agent.Target
import Natc.Agent.Wire
import Natc.Allim.Desc
import Natc.Allim.DiskWaste
import Natc.Allim.Kept
import Natc.Allim.LimitPoint
import Natc.Allim.Locks
import Natc.Allim.Shared
import Natc.Allim.SizeArgument
import Natc.Allim.WasteList
import Natc.Ats.ArtTest
import Natc.Ats.Barrier
import Natc.Ats.CopyBounds
import Natc.Ats.Delivery
import Natc.Ats.Elapsed
import Natc.Ats.Expansion
import Natc.Ats.Flow
import Natc.Ats.InnerSC
import Natc.Ats.IsqlPipe
import Natc.Ats.LaborerList
import Natc.Ats.LexError
import Natc.Ats.LexerPosition
import Natc.Ats.LoadSql
import Natc.Ats.Logger
import Natc.Ats.Oracle
import Natc.Ats.ParseTable
import Natc.Ats.Phase
import Natc.Ats.PortNumbers
import Natc.Ats.Rearm
import Natc.Ats.RecPointer
import Natc.Ats.Recovery
import Natc.Ats.ResultPaths
import Natc.Ats.RsystemEnv
import Natc.Ats.ScriptActions
import Natc.Ats.ScriptLexer
import Natc.Ats.ScriptParser
import Natc.Ats.ServerManager
import Natc.Ats.ServerParams
import Natc.Ats.Service
import Natc.Ats.ServiceManager
import Natc.Ats.SetEnv
import Natc.Ats.ShellLog
import Natc.Ats.TdxTime
import Natc.Ats.TypeRule
import Natc.Ats.UttMemory
import Natc.Ats.UttTime
import Natc.Client.Cleanup
import Natc.Client.SequentialLoop
import Natc.Client.SequentialWrap
import Natc.Client.Verdict
import Natc.Ecm.FileLines
import Natc.Ecm.ReadFile
import Natc.Ecm.TableSort
import Natc.Ecm.TdxRows
import Natc.Harness.Agreement
import Natc.Harness.Diff
import Natc.Harness.DiffScript
import Natc.Harness.Directives
import Natc.Harness.Dispatch
import Natc.Harness.Express
import Natc.Harness.Failures
import Natc.Harness.Golden
import Natc.Harness.Loading
import Natc.Harness.PlatformGroups
import Natc.Harness.Reading
import Natc.Harness.Reconnect
import Natc.Harness.ScopeSearch
import Natc.Harness.Scopes
import Natc.Harness.Sections
import Natc.Harness.SectorRuns
import Natc.Harness.TestPlan
import Natc.Harness.Waiting
import Natc.Isql.Alignment
import Natc.Isql.Atomic
import Natc.Isql.BindCalls
import Natc.Isql.BufMgr
import Natc.Isql.Command
import Natc.Isql.CommandQueue
import Natc.Isql.Declarations
import Natc.Isql.Display
import Natc.Isql.ExecBind
import Natc.Isql.HeaderGroups
import Natc.Isql.HostVar
import Natc.Isql.Lexer
import Natc.Isql.PrepareBind
import Natc.Isql.RowBounds
import Natc.Isql.RowFaith
import Natc.Isql.RowLayout
import Natc.Isql.Scripts
import Natc.Isql.SymbolTable
import Natc.Isql.Tokens
import Natc.Lib.Backtrack
import Natc.Lib.Branches
import Natc.Lib.Bubble
import Natc.Lib.Chains
import Natc.Lib.CodePage
import Natc.Lib.Decimal
import Natc.Lib.Descent
import Natc.Lib.Duplex
import Natc.Lib.Expand
import Natc.Lib.Lines
import Natc.Lib.Linked
import Natc.Lib.Loops
import Natc.Lib.Machine
import Natc.Lib.Matchings
import Natc.Lib.Overlap
import Natc.Lib.Paths
import Natc.Lib.Piles
import Natc.Lib.Prog
import Natc.Lib.Recent
import Natc.Lib.Ring
import Natc.Lib.Scanner
import Natc.Lib.StableMerge
import Natc.Lib.Stream
import Natc.Lib.Text
import Natc.Lib.Tokens
import Natc.Ploader.Accounting
import Natc.Ploader.AddStamp
import Natc.Ploader.BadFile
import Natc.Ploader.Binding
import Natc.Ploader.Buffers
import Natc.Ploader.Commits
import Natc.Ploader.Course
import Natc.Ploader.DataFile
import Natc.Ploader.Enclosing
import Natc.Ploader.Form
import Natc.Ploader.FormDown
import Natc.Ploader.FormLexer
import Natc.Ploader.FormParser
import Natc.Ploader.Insert
import Natc.Ploader.Load
import Natc.Ploader.Records
import Natc.Ploader.Reload
import Natc.Ploader.Resync
import Natc.Ploader.RoundTrip
import Natc.Ploader.Scanning
import Natc.Ploader.Sequences
import Natc.Ploader.Split
import Natc.Ploader.Terminators
import Natc.Staf
import Natc.Suite.CaseManager
import Natc.Suite.LineGrammar
import Natc.Suite.Marks
import Natc.Suite.Merge
import Natc.Suite.PlatformManager
import Natc.Suite.Platforms
import Natc.Suite.Termination
import Natc.Viewer.TableSorter
import Natc.Viewer.TimeOrder
import Natc.Viewer.VectorTDX
