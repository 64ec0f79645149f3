import Mathlib.Data.Char
import Mathlib.Data.List.Lex
import Mathlib.Data.List.Sort
import Mathlib.Logic.Function.Basic
import Natc.Ats.ParseTable
import Natc.Lib.Machine

/-!
# The service thread and its laborer threads

`runParseTable` becomes the list of atomic sections of the service thread: each element is one
lock-protected section, one unlocked write to a staging list, or one round of a waiting loop. A
laborer alternates between the lock-protected sections of `run` and `runReal` and the unlocked
execution of one command.
-/

namespace Natc.Ats

open Lib

attribute [local instance] lawfulBEq_text

/-- One atomic step of the service thread. -/
inductive Section where
  /-- `runLaborer`: the thread is started and both maps get their entry. -/
  | runLaborer (p : Process)
  /-- `Laborer::push_back( queryData )`. -/
  | give (p : Process) (q : QueryData)
  /-- The staging list of `mQuery` grows. -/
  | stage (p : Process) (q : QueryData)
  /-- `Laborer::push_back( QueryList * )`. -/
  | flush (p : Process)
  /-- One round of the loop of `Laborer::sync`. -/
  | sync (p : Process)
  | sleep (seconds : Nat)
  /-- `Laborer::end`. -/
  | endLaborer (p : Process)
  /-- `pthread_join`. -/
  | join (p : Process)
  deriving DecidableEq, Repr

/-- `Servicer::push_back`. -/
def pushBack (p : Process) (q : QueryData) : Section :=
  if p = p0 then .give p q else .stage p q

/-- `Servicer::syncP0` over the keys of `mLaborer`. -/
def syncP0 (laborers : List Process) : List Section :=
  if p0 ∈ laborers then [.sync p0] else []

/-- `Servicer::async`. -/
def async (laborers : List Process) : List Section := laborers.map .flush

/-- `Servicer::sync()`. -/
def syncAll (laborers : List Process) : List Section :=
  laborers.map .flush ++ laborers.map .sync

/-- `Servicer::sync( aProcess )`. -/
def syncOne (laborers : List Process) (p : Process) : List Section :=
  laborers.map .flush ++ if p ∈ laborers then [.sync p] else []

/-- `Servicer::syncLaborer`. -/
def syncLaborer (laborers : List Process) : List Section :=
  syncAll laborers ++ laborers.flatMap fun p => [.endLaborer p, .join p]

/-- What `runParseTable` carries from node to node: the keys of `mLaborer` in map order, its
variables, and `sIsEnableRecPtr`. -/
structure TableState where
  laborers : List Process
  locals : Locals
  enabled : Bool

def TableState.init : TableState := ⟨[], ⟨QueryData.fresh, 0⟩, false⟩

/-- The laborers after an ordinary node of process `p`. -/
def TableState.withLaborer (st : TableState) (p : Process) : List Process :=
  if p ∈ st.laborers then st.laborers else st.laborers.orderedInsert (· ≤ ·) p

/-- The recovery command an ordinary node hands over first. -/
def TableState.recptr (ctx : Context) (st : TableState) : Option QueryData :=
  if st.enabled then none else enableRecPtr ctx st.locals.data

/-- The commands of an ordinary node, and the variables behind it. -/
def normalCommands (ctx : Context) (st : TableState) (node : PsNode) :
    Locals × List QueryData :=
  let recptr := st.recptr ctx
  let data := recptr.getD st.locals.data
  let out := runElements ctx node.process { st.locals with data := data } node.elementList
  (out.1, recptr.toList ++ out.2)

/-- The echo string of a PWAIT. -/
def pwaitEcho (process : Process) (data : QueryData) : QueryData :=
  { data with
    type := .stringCom
    query := if process = "all".toList then "$P0> --+PWAIT".toList ++ " ;".toList
      else "$P0> --+PWAIT ".toList ++ process ++ " ;".toList }

/-- The waiting part of a PWAIT: all laborers, a number of seconds, or one laborer. -/
def pwaitSections (ctx : Context) (laborers : List Process) (process : Process)
    (echo : QueryData) : List Section :=
  syncP0 laborers ++
    if process = "all".toList then syncAll laborers ++ [pushBack p0 echo]
    else if ctx.staf.isDigits process then
      async laborers ++ [pushBack p0 echo, .sleep (ctx.staf.asUInt process)]
    else syncOne laborers process ++ [pushBack p0 echo]

/-- One node of the table. -/
def runNode (ctx : Context) (st : TableState) (node : PsNode) : TableState × List Section :=
  match node.type with
  | .normal =>
      let start := if node.process ∈ st.laborers then [] else [Section.runLaborer node.process]
      let out := normalCommands ctx st node
      (⟨st.withLaborer node.process, out.1, st.enabled || (st.recptr ctx).isSome⟩,
        start ++ out.2.map (pushBack node.process))
  | .pwait =>
      let echo := pwaitEcho node.process st.locals.data
      ({ st with locals := { st.locals with data := echo } },
        pwaitSections ctx st.laborers node.process echo)

def runNodes (ctx : Context) : TableState → List PsNode → TableState × List Section
  | st, [] => (st, [])
  | st, node :: nodes =>
      let now := runNode ctx st node
      let later := runNodes ctx now.1 nodes
      (later.1, now.2 ++ later.2)

/-- The sections of the service thread from the first node to the end of `syncLaborer`. -/
def runParseTable (ctx : Context) (table : PsTable) : List Section :=
  let out := runNodes ctx .init table.nodeList
  out.2 ++ syncLaborer out.1.laborers

/-- A command in a queue. `seq` is the section that issued it; `rearmed` marks a recovery command
a laborer put back in front of its own queue. -/
structure Issued where
  seq : Nat
  data : QueryData
  rearmed : Bool
  deriving DecidableEq, Repr

/-- Where a laborer thread stands. -/
inductive LaborerPc where
  /-- In the loop of `run`, about to take the lock. -/
  | run
  /-- In the loop of `runReal`, about to take the lock. -/
  | runReal
  /-- Behind the unlock of `runReal`, with the command it took. -/
  | executing (c : Issued)
  /-- `run` has left its loop through the `break`. -/
  | ended
  /-- `run` has left its loop through its exception. -/
  | failed
  deriving DecidableEq, Repr

/-- The thread function has returned. -/
def LaborerPc.returned : LaborerPc → Bool
  | .ended | .failed => true
  | _ => false

/-- The command that is being executed. -/
def LaborerPc.command : LaborerPc → Option Issued
  | .executing c => some c
  | _ => none

/-- A laborer. `handed` and `results` are histories: the commands put into its queue from outside,
and the commands whose result has been appended to `mResult`. -/
structure Laborer where
  mQuery : List Issued
  mEnd : Bool
  pc : LaborerPc
  recPtr : QueryData
  handed : List Issued
  results : List Issued
  deriving DecidableEq, Repr

def Laborer.initialized : Laborer := ⟨[], false, .run, .fresh, [], []⟩

/-- Both forms of `Laborer::push_back`. -/
def Laborer.pushBack (l : Laborer) (cs : List Issued) : Laborer :=
  { l with mQuery := l.mQuery ++ cs, handed := l.handed ++ cs }

/-- How the execution of a command ends: its result is appended; or the server was killed by a
recovery point and the last recovery command goes back to the front of the queue; or it fails. -/
inductive Outcome where
  | ok | rearm | failed
  deriving DecidableEq, Repr

/-- `run` calls `runReal`, whose variable `sQueryRecPtr` starts afresh. -/
def Laborer.enterRunReal (l : Laborer) : Laborer := { l with pc := .runReal, recPtr := .fresh }

/-- The lock-protected section of `run`. -/
def Laborer.runSection (l : Laborer) : Laborer :=
  match l.mEnd, l.mQuery with
  | false, [] => l
  | false, _ :: _ => l.enterRunReal
  | true, _ :: _ => l.enterRunReal
  | true, [] => { l with pc := .ended }

/-- The lock-protected section of `runReal`. -/
def Laborer.runRealSection (l : Laborer) : Laborer :=
  match l.mQuery with
  | [] => { l with pc := .run }
  | c :: rest => { l with mQuery := rest, pc := .executing c }

/-- The result of `c` is appended, and the loop of `runReal` goes round. -/
def Laborer.complete (l : Laborer) (c : Issued) : Laborer :=
  { l with
    pc := .runReal
    recPtr := if c.data.type = .recpointCom then c.data else l.recPtr
    results := l.results ++ [c] }

/-- The unlocked execution of `c`. -/
def Laborer.execute (kind : ATSTestKind) (l : Laborer) (c : Issued) : Outcome → Option Laborer
  | .ok => some (l.complete c)
  | .rearm =>
      if kind = .full then
        let l' := l.complete c
        some { l' with mQuery := ⟨0, l'.recPtr, true⟩ :: l'.mQuery }
      else none
  | .failed => some { l with mEnd := true, pc := .failed }

/-- One step of a laborer thread. -/
def Laborer.step (kind : ATSTestKind) (l : Laborer) (o : Outcome) : Option Laborer :=
  match l.pc with
  | .run => some l.runSection
  | .runReal => some l.runRealSection
  | .executing c => l.execute kind c o
  | .ended => none
  | .failed => none

/-- The whole process: the sections the service thread still has to take, how many it has taken,
the laborer map and the staging lists. -/
structure Sys where
  todo : List Section
  taken : Nat
  laborer : Process → Option Laborer
  staged : Process → List Issued

namespace Sys

/-- The service thread goes on behind its section. -/
def advance (s : Sys) (rest : List Section) : Sys := { s with todo := rest, taken := s.taken + 1 }

def setLaborer (s : Sys) (p : Process) (l : Laborer) : Sys :=
  { s with laborer := Function.update s.laborer p (some l) }

def setStaged (s : Sys) (p : Process) (cs : List Issued) : Sys :=
  { s with staged := Function.update s.staged p cs }

/-- One section of the service thread. A missing laborer is a null pointer, so there is no step. -/
def section' (s : Sys) (rest : List Section) : Section → Option Sys
  | .runLaborer p => some (((s.advance rest).setLaborer p .initialized).setStaged p [])
  | .give p q => (s.laborer p).map fun l =>
      (s.advance rest).setLaborer p (l.pushBack [⟨s.taken, q, false⟩])
  | .stage p q => some ((s.advance rest).setStaged p (s.staged p ++ [⟨s.taken, q, false⟩]))
  | .flush p => (s.laborer p).map fun l =>
      ((s.advance rest).setLaborer p (l.pushBack (s.staged p))).setStaged p []
  | .sync p => (s.laborer p).map fun l =>
      if l.mEnd || l.mQuery.isEmpty then s.advance rest else s
  | .sleep _ => some (s.advance rest)
  | .endLaborer p => (s.laborer p).map fun l =>
      (s.advance rest).setLaborer p { l with mEnd := true }
  | .join p => (s.laborer p).bind fun l =>
      if l.pc.returned then some (s.advance rest) else none

end Sys

/-- Which thread moves next, and how the command it executes ends. -/
inductive Label where
  | servicer
  | laborer (p : Process) (o : Outcome)
  deriving DecidableEq, Repr

def Sys.step (kind : ATSTestKind) (s : Sys) : Label → Option Sys
  | .servicer =>
      match s.todo with
      | [] => none
      | sec :: rest => s.section' rest sec
  | .laborer p o => (s.laborer p).bind fun l => (l.step kind o).map (s.setLaborer p)

/-- The service on one parse table. -/
def service (ctx : Context) (table : PsTable) : Machine Sys Label where
  start := ⟨runParseTable ctx table, 0, fun _ => none, fun _ => []⟩
  step := Sys.step ctx.testKind

end Natc.Ats
