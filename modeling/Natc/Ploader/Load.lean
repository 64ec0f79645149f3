import Mathlib.Data.List.Basic
import Mathlib.Data.Nat.Notation
import Mathlib.Logic.Function.Basic

/-!
# The load of a data file

`iloLoad::LoadwithPrepare` reads record after record into the slots of one batch and executes the
prepared INSERT for the whole batch. Reading and the server are inputs: what every
`ReadOneRecord` returned up to the end of the file, and what the server answered to every
execution and commit.
-/

namespace Natc.Ploader

/-- What `ReadOneRecord` returns: 0, 1 and 2. -/
inductive ReadResult where
  | error | record | endOfFile
  deriving DecidableEq, Repr

/-- What the server reports of one parameter set: `SQL_PARAM_SUCCESS` and the others. -/
inductive ParamStatus where
  | success | successWithInfo | error | unused
  deriving DecidableEq, Repr

/-- The row is in the table. -/
def ParamStatus.inserted : ParamStatus → Bool
  | .success | .successWithInfo => true
  | .error | .unused => false

/-- The options of the load. The command parser rejects an array size of 0, and without the option
it is 1. -/
structure LoadOption where
  m_ArrayCount : Nat
  m_FirstRow : Option Nat
  m_LastRow : Option Nat
  m_CommitUnit : Nat
  array_pos : 0 < m_ArrayCount

/-- The answers of the server: to the `k`-th execution a status for each parameter set and, when
it fails, whether by one of the errors that end the load; and whether the `k`-th commit is done. -/
structure Server where
  paramStatus : Nat → Nat → ParamStatus
  fatal : Nat → Bool
  commit : Nat → Bool

/-- The variables of `LoadwithPrepare`, the slots of the batch with their status, and what has
gone to the server: the executed rows with their status, the answers to the commits, and the
inserted rows of the open transaction. -/
structure Load (ρ : Type) where
  slots : Nat → ρ
  sStatusPtr : Nat → ParamStatus
  paramsetSize : Nat
  ix : Nat
  nTotal : Nat
  nLoad : Nat
  nErrCount : Nat
  sRealCount : Nat
  executed : List (List (ρ × ParamStatus))
  badFile : List ρ
  endTrans : List Bool
  openRows : List ρ

/-- How an iteration goes on: to the next one, or out of the loop. -/
inductive Flow where
  | continue | lastRow | fatal
  deriving DecidableEq, Repr

/-- How the loop ends. -/
inductive Exit where
  | wholeFile | lastRow | fatal
  deriving DecidableEq, Repr

variable {ρ : Type}

namespace Load

/-- `SQLExecute` on the current parameter set; the answer says whether all of it succeeded. -/
def execute (o : LoadOption) (sv : Server) (s : Load ρ) : Load ρ × Bool :=
  let status := sv.paramStatus s.executed.length
  let rows := (List.range s.paramsetSize).map fun i => (s.slots i, status i)
  let inserted := (rows.filter fun r => r.2.inserted).map Prod.fst
  ({ s with
      executed := s.executed ++ [rows]
      sStatusPtr := fun i => if i < s.paramsetSize then status i else s.sStatusPtr i
      -- without a commit unit the session commits by itself
      openRows := if o.m_CommitUnit = 0 then s.openRows else s.openRows ++ inserted },
    rows.all fun r => r.2 = .success)

/-- `EndTran(isql_true)`, and behind a failure `EndTran(isql_false)`. -/
def endTran (sv : Server) (s : Load ρ) : Load ρ × Bool :=
  let ok := sv.commit s.endTrans.length
  ({ s with endTrans := s.endTrans ++ [ok], openRows := [] }, ok)

/-- The commit of an iteration, and the count of the loaded rows. -/
def commitUnit (o : LoadOption) (sv : Server) (s : Load ρ) : Load ρ :=
  if 0 < o.m_CommitUnit ∧ s.nLoad % o.m_CommitUnit = 0 then
    let (s, ok) := s.endTran sv
    if ok then { s with nLoad := s.nLoad + 1 }
    else { s with
      nErrCount := s.nErrCount + o.m_CommitUnit
      badFile := if o.m_CommitUnit = 1 then s.badFile ++ [s.slots (s.sRealCount - 1)]
        else s.badFile }
  else { s with nLoad := s.nLoad + 1 }

/-- The slots whose status is not `SQL_PARAM_SUCCESS`: of the executed ones at the end of the
file, else of the whole array. -/
def countErrors (o : LoadOption) (nRet : ReadResult) (s : Load ρ) : Load ρ :=
  let failed := (List.range (if nRet = .endOfFile then s.sRealCount - 1 else o.m_ArrayCount)).filter
    fun i => s.sStatusPtr i ≠ .success
  { s with
    nErrCount := s.nErrCount + failed.length
    badFile := s.badFile ++ failed.map s.slots }

/-- `SQLSetStmtAttr` of `SQL_ATTR_PARAMSET_SIZE`, at the end of the file and at the last row. -/
def setParamsetSize (o : LoadOption) (nRet : ReadResult) (s : Load ρ) : Load ρ :=
  { s with
    paramsetSize :=
      if nRet = .endOfFile then s.sRealCount - 1
      else if o.m_LastRow = some s.ix then s.sRealCount
      else s.paramsetSize }

/-- The execution of the batch. -/
def executeBatch (o : LoadOption) (sv : Server) (nRet : ReadResult) (s : Load ρ) :
    Load ρ × Flow :=
  let s := s.setParamsetSize o nRet
  let fatal := sv.fatal s.executed.length
  let (s, ret) := s.execute o sv
  if ret = false ∧ o.m_ArrayCount = 1 then
    let s := { s with nErrCount := s.nErrCount + 1 }
    if fatal then (s, .fatal)
    else ({ s with badFile := s.badFile ++ [s.slots (s.sRealCount - 1)] }, .continue)
  else if ret = false ∧ fatal then (s, .fatal)
  else
    let s := if ret then s else s.countErrors o nRet
    if nRet = .endOfFile then (s, .continue) else (s.commitUnit o sv, .continue)

/-- The reading of a record into the next slot, the first one behind a full batch. -/
def readRow (o : LoadOption) (row : ρ) (s : Load ρ) : Load ρ :=
  let sRealCount := if s.sRealCount = o.m_ArrayCount then 0 else s.sRealCount
  { s with sRealCount, slots := Function.update s.slots sRealCount row }

/-- The body of the loop, when the reading returns `nRet` and leaves `row` in the slot. -/
def iteration (o : LoadOption) (sv : Server) (nRet : ReadResult) (row : ρ) (s : Load ρ) :
    Load ρ × Flow :=
  let s := s.readRow o row
  if nRet = .endOfFile ∧ s.sRealCount = 0 then (s, .continue)
  else if o.m_FirstRow.any fun f => s.ix < f then ({ s with sRealCount := 0 }, .continue)
  else if o.m_LastRow.any fun l => l < s.ix then (s, .lastRow)
  else
    let s := if nRet = .endOfFile then s else { s with nTotal := s.nTotal + 1 }
    if nRet = .error then
      ({ s with
          nErrCount := s.nErrCount + 1
          badFile := s.badFile ++ [s.slots s.sRealCount] }, .continue)
    else
      let s := { s with sRealCount := s.sRealCount + 1 }
      if s.sRealCount = o.m_ArrayCount ∨ nRet = .endOfFile ∨ o.m_LastRow = some s.ix then
        s.executeBatch o sv nRet
      else (s.commitUnit o sv, .continue)

/-- The loop over the records, each read well or not, up to the end of the file. -/
def loop (o : LoadOption) (sv : Server) (atEnd : ρ) : List (Bool × ρ) → Load ρ → Load ρ × Exit
  | [], s =>
      match s.iteration o sv .endOfFile atEnd with
      | (s, .continue) => (s, .wholeFile)
      | (s, .lastRow) => (s, .lastRow)
      | (s, .fatal) => (s, .fatal)
  | (ok, row) :: rest, s =>
      match s.iteration o sv (if ok then .record else .error) row with
      | (s, .continue) => loop o sv atEnd rest { s with ix := s.ix + 1 }
      | (s, .lastRow) => (s, .lastRow)
      | (s, .fatal) => (s, .fatal)

/-- The commit behind the loop. -/
def lastCommit (o : LoadOption) (sv : Server) (s : Load ρ) : Load ρ :=
  if 0 < o.m_CommitUnit ∧ (s.nLoad - 1) % o.m_CommitUnit ≠ 0 then
    let (s, ok) := s.endTran sv
    if ok then s
    else { s with nErrCount := s.nErrCount + (s.nLoad - 1) % o.m_CommitUnit }
  else s

/-- The start of the loop. `BindParameter` sets the size of the parameter set for an array of more
than one row; `stmt` is the size the statement has before. -/
def start (o : LoadOption) (stmt : Nat) (slots : Nat → ρ) (status : Nat → ParamStatus) :
    Load ρ where
  slots := slots
  sStatusPtr := status
  paramsetSize := if 1 < o.m_ArrayCount then o.m_ArrayCount else stmt
  ix := 1
  nTotal := 0
  nLoad := 1
  nErrCount := 0
  sRealCount := 0
  executed := []
  badFile := []
  endTrans := []
  openRows := []

end Load

/-- A load: its options, the records of the data file, the server, and the memory it starts on. -/
structure LoadInput (ρ : Type) where
  option : LoadOption
  records : List (Bool × ρ)
  atEnd : ρ
  server : Server
  stmt : Nat
  slots : Nat → ρ
  status : Nat → ParamStatus

namespace LoadInput

variable (i : LoadInput ρ)

/-- `iloLoad::LoadwithPrepare` behind the preparation of the statement, up to its loop. -/
def looped : Load ρ × Exit :=
  Load.loop i.option i.server i.atEnd i.records
    (.start i.option i.stmt i.slots i.status)

/-- `iloLoad::LoadwithPrepare`. -/
def LoadwithPrepare : Load ρ × Exit :=
  (i.looped.1.lastCommit i.option i.server, i.looped.2)

end LoadInput

/-- The printed counts. -/
def Load.loadCount (s : Load ρ) : Int := s.nTotal - s.nErrCount

def Load.errorCount (s : Load ρ) : Int := s.nErrCount

end Natc.Ploader
