import Natc.Isql.HostVar

/-!
# Commands

`iSQLCommand` holds what the parser found out about a command, next to the text of the command.
-/

namespace Natc.Isql

/-- `iSQLCommandKind`. -/
inductive CommandKind where
  | non | alter | autocommit | change | check | colsize | comment | commit | connect | crtObj
  | crtProc | delete | desc | descDollar | disconnect | drop | edit | execute | execFunc | execHost
  | execProc | exit | foreignkeys | grant | heading | help | hisedit | hisrun | history | index
  | insert | linesize | load | lock | move | other | pagesize | print | printIdent | printVar
  | rename | revoke | rollback | save | savepoint | scriptrun | select | set | shell | «show»
  | spool | spooloff | tables | term | timescale | timing | transaction | truncate | update | user
  | varDec | verbose | sequence | xtables | vtables | prepSelect | prepInsert | prepUpdate
  | prepDelete | stat | startup | startupProcess | startupControl | startupMeta | startupService
  | shutdown | shutdownNormal | shutdownAbort | shutdownImmediate | shutdownExit | terminate
  deriving DecidableEq, Repr, Inhabited

/-- `iSQLOptionKind`. -/
inductive OptionKind where
  | non | comment | heading | colsize | linesize | pagesize | showAll | term | timescale | timing
  | user | verbose | foreignkeys | plancommit | querylogging
  deriving DecidableEq, Repr, Inhabited

/-- `iSQLTimeScale`. -/
inductive TimeScale where
  | sec | milsec | micsec | nansec
  deriving DecidableEq, Repr, Inhabited

/-- `iSQLChangeKind`. -/
inductive ChangeKind where
  | nonCommand | changeCommand | firstAddCommand | lastAddCommand | deleteCommand
  deriving DecidableEq, Repr, Inhabited

/-- `iSQLPathType`. -/
inductive PathType where
  | cwd | at | home
  deriving DecidableEq, Repr, Inhabited

/-- `iSQLCommand`. The enumeration of `m_AdminOption` is not in the repository; its value is kept as
the integer that it is. -/
structure Command where
  m_CommandKind : CommandKind
  m_HelpKind : CommandKind
  m_iSQLOptionKind : OptionKind
  m_AdminOption : Int
  m_PathType : PathType
  m_Query : Bytes
  m_CommandStr : Bytes
  m_ShellCommand : Bytes
  m_OnOff : Bool
  m_Sysdba : Bool
  m_FileName : Bytes
  m_UserName : Bytes
  m_Passwd : Bytes
  m_TableName : Bytes
  m_Colsize : Int
  m_Linesize : Int
  m_Pagesize : Int
  m_HistoryNo : Int
  m_Timescale : TimeScale
  m_OldStr : Bytes
  m_NewStr : Bytes
  m_ChangeNo : Int
  m_ChangeKind : ChangeKind
  m_ProcName : Bytes
  m_HostVarName : Bytes
  m_OptionStr : Bytes
  deriving DecidableEq, Repr, Inhabited

namespace Command

/-- `iSQLCommand::setAll`. -/
def setAll (a_SrcCommand a_DesCommand : Command) : Command :=
  { a_DesCommand with
    m_CommandKind := a_SrcCommand.m_CommandKind
    m_HelpKind := a_SrcCommand.m_HelpKind
    m_iSQLOptionKind := a_SrcCommand.m_iSQLOptionKind
    m_Query := a_SrcCommand.m_Query
    m_CommandStr := a_SrcCommand.m_CommandStr
    m_ShellCommand := a_SrcCommand.m_ShellCommand
    m_OnOff := a_SrcCommand.m_OnOff
    m_FileName := a_SrcCommand.m_FileName
    m_UserName := a_SrcCommand.m_UserName
    m_Passwd := a_SrcCommand.m_Passwd
    m_TableName := a_SrcCommand.m_TableName
    m_Linesize := a_SrcCommand.m_Linesize
    m_Pagesize := a_SrcCommand.m_Pagesize
    m_HistoryNo := a_SrcCommand.m_HistoryNo
    m_Timescale := a_SrcCommand.m_Timescale
    m_OldStr := a_SrcCommand.m_OldStr
    m_NewStr := a_SrcCommand.m_NewStr
    m_ChangeNo := a_SrcCommand.m_ChangeNo
    m_ChangeKind := a_SrcCommand.m_ChangeKind
    m_ProcName := a_SrcCommand.m_ProcName
    m_HostVarName := a_SrcCommand.m_HostVarName }

/-- Two commands agree on the members that `setAll` passes over. -/
def AgreesBeyondCopy (c d : Command) : Prop :=
  c.m_AdminOption = d.m_AdminOption ∧ c.m_PathType = d.m_PathType ∧ c.m_Sysdba = d.m_Sysdba ∧
    c.m_Colsize = d.m_Colsize ∧ c.m_OptionStr = d.m_OptionStr

instance (c d : Command) : Decidable (c.AgreesBeyondCopy d) :=
  inferInstanceAs (Decidable (_ ∧ _ ∧ _ ∧ _ ∧ _))

@[simp] theorem setAll_commandStr (c d : Command) :
    (c.setAll d).m_CommandStr = c.m_CommandStr := rfl

/-- What a copy hands on is what the command itself hands on. -/
theorem setAll_eq_setAll (c d : Command) : (c.setAll d).setAll = c.setAll := rfl

/-- A copy is the command itself exactly if the other members were right before. -/
theorem setAll_eq_iff {c d : Command} : c.setAll d = c ↔ c.AgreesBeyondCopy d := by
  constructor
  · intro heq
    rw [← heq]
    exact ⟨rfl, rfl, rfl, rfl, rfl⟩
  · rintro ⟨hadmin, hpath, hsysdba, hcolsize, hoption⟩
    cases c
    simp only at hadmin hpath hsysdba hcolsize hoption
    rw [setAll, ← hadmin, ← hpath, ← hsysdba, ← hcolsize, ← hoption]

end Command

end Natc.Isql
