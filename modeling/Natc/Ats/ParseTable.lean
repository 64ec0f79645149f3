import Natc.Staf

/-!
# The parse table and the commands made from it

`psy.y` leaves a table of nodes; each ordinary node names a process and lists its elements. The
service turns every element into the commands it hands to the laborer of that process.
-/

namespace Natc.Ats

open Lib

/-- A process name such as `P0`. -/
abbrev Process := Text

/-- The process that carries the echoes and whose commands bypass the staging lists. -/
def p0 : Process := "P0".toList

inductive ATSTestKind where
  | null | normal | regressive | sequential | full
  deriving DecidableEq, Repr

inductive CommandKind where
  | systemCom | alterCom | createObjCom | createProcCom | dropCom | grantCom | renameCom
  | revokeCom | truncateCom | deleteCom | dequeueCom | enqueueCom | insertCom | lockCom
  | selectCom | tablesCom | xtablesCom | dtablesCom | vtablesCom | sequenceCom | updateCom
  | moveCom | commentSqlCom | alterSystemCom | alterSessionCom | commitCom | rollbackCom
  | rollbackToSavepointCom | savepointCom | setTransactionCom | setAgerCom | setVerticalCom
  | descCom | descDollarCom | autocommitCom | connectCom | disconnectCom | timingCom
  | headingCom | foreignkeysCom | symbolCom | printCom | shellCom | executeCom | execFuncCom
  | execProcCom | checkCom | otherCom | prepSelectCom | prepInsertCom | prepUpdateCom
  | prepDeleteCom | prepMoveCom | prepEnqueueCom | prepDequeueCom | skipCom | stringCom
  | postCom | waitCom | appendCom | loadSqlCom | start1Com | start2Com | restartCom | envCom
  | recpointCom | explainPlanCom | dateformatCom | rsystemCom
  deriving DecidableEq, Repr

structure SymbolData where
  name : Text
  type : Text
  precision : Text
  scale : Text
  deriving DecidableEq, Repr

/-- One command as it stands in a laborer's queue. -/
structure QueryData where
  query : Text
  table : Text
  type : CommandKind
  user : Text
  password : Text
  sysdba : Text
  symbol : SymbolData
  realQuery : Text
  loc : Nat
  deriving DecidableEq, Repr

/-- A `queryData` variable before its first assignment. -/
def QueryData.fresh : QueryData where
  query := []
  table := []
  type := .systemCom
  user := []
  password := []
  sysdba := []
  symbol := ⟨[], [], [], []⟩
  realQuery := []
  loc := 0

inductive ElementType where
  | skip | ignore | post | wait | comment | sector | setEnv | system | rsystem | appendLst
  | loadSql | declare | connect | disconnect | insert | select | tables | xtables | dtables
  | vtables | sequence | desc | xdesc | ddesc | vdesc | update | delete | autocommit | spool
  | start | create | createObject | move | commit | abort | savepoint | drop | grant | revoke
  | enqueue | dequeue | alter | rename | truncate | lock | prepare | commentSql | set | variable
  | print | shell | execute | executeFunction | executeProcedure | empty | syntaxError
  | testRecptr
  deriving DecidableEq, Repr

/-- A key map is read with `operator[]`: an absent key gives the empty text. -/
structure PsElement where
  type : ElementType
  keyMap : String → Text

inductive NodeType where
  | normal | pwait
  deriving DecidableEq, Repr

structure PsNode where
  type : NodeType
  process : Process
  elementList : List PsElement

/-- The parse table. `runReal` adds an ordinary node of `P0` before it calls the parser, so the
table never starts with anything else. -/
structure PsTable where
  first : List PsElement
  later : List PsNode

def PsTable.nodeList (table : PsTable) : List PsNode := ⟨.normal, p0, table.first⟩ :: table.later

/-- What `runParseTable` reads besides the table. `replace` is `Servicer::replace` over the loaded
server map, `recpoint` the loaded map from recovery point IDs to query strings. -/
structure Context where
  staf : Staf
  testKind : ATSTestKind
  replace : Text → Text
  recpoint : Text → Option Text
  recpointId : Text

/-- The variables of `runParseTable` that live across elements: `sData` and `sCycle2`. -/
structure Locals where
  data : QueryData
  cycle2 : Nat

/-- The elements whose case only sets the command's kind and takes its text from `key1`. -/
def plainKind : ElementType → Option CommandKind
  | .disconnect => some .disconnectCom
  | .autocommit => some .autocommitCom
  | .shell => some .shellCom
  | .appendLst => some .appendCom
  | .system => some .systemCom
  | .rsystem => some .rsystemCom
  | .skip => some .skipCom
  | .post => some .postCom
  | .wait => some .waitCom
  | .tables => some .tablesCom
  | .xtables => some .xtablesCom
  | .dtables => some .dtablesCom
  | .vtables => some .vtablesCom
  | .sequence => some .sequenceCom
  | .insert => some .insertCom
  | .move => some .moveCom
  | .commit => some .commitCom
  | .abort => some .rollbackCom
  | .savepoint => some .savepointCom
  | .drop => some .dropCom
  | .grant => some .grantCom
  | .revoke => some .revokeCom
  | .enqueue => some .enqueueCom
  | .dequeue => some .dequeueCom
  | .alter => some .alterCom
  | .rename => some .renameCom
  | .truncate => some .truncateCom
  | .lock => some .lockCom
  | .commentSql => some .commentSqlCom
  | .select => some .selectCom
  | .update => some .updateCom
  | .delete => some .deleteCom
  | _ => none

/-- `"$" + sNode.process + "> "`. -/
def prompt (process : Process) : Text := "$".toList ++ process ++ "> ".toList

/-- The kind a SET element gets from its second word, `none` for a plain echo. -/
def setKind (staf : Staf) (env : Text) : Option CommandKind :=
  if staf.word env 1 = "TIMING".toList then some .timingCom
  else if staf.word env 1 = "FOREIGNKEYS".toList then some .foreignkeysCom
  else if staf.word env 1 = "TRANSACTION".toList then some .setTransactionCom
  else if staf.word env 0 = "SET_RESTART".toList then some .restartCom
  else if staf.word env 1 = "HEADING".toList then some .headingCom
  else if staf.contains (staf.word env 1) "AGER".toList then some .setAgerCom
  else if staf.contains (staf.word env 1) "VERTICAL".toList then some .setVerticalCom
  else none

/-- The kind of a PREPARE element; the old value stays when the second word is none of the seven
statements, or is written in mixed case. -/
def prepareKind (staf : Staf) (query : Text) (old : CommandKind) : CommandKind :=
  let word := staf.word query 1
  if word = "INSERT".toList ∨ word = "insert".toList then .prepInsertCom
  else if word = "SELECT".toList ∨ word = "select".toList then .prepSelectCom
  else if word = "UPDATE".toList ∨ word = "update".toList then .prepUpdateCom
  else if word = "DELETE".toList ∨ word = "delete".toList then .prepDeleteCom
  else if word = "MOVE".toList ∨ word = "move".toList then .prepMoveCom
  else if word = "ENQUEUE".toList ∨ word = "enqueue".toList then .prepEnqueueCom
  else if word = "DEQUEUE".toList ∨ word = "dequeue".toList then .prepDequeueCom
  else old

/-- The echo of a DECLARE element. -/
def declareEcho (staf : Staf) (key : String → Text) : Text :=
  if staf.upperCase (key "key1") = "SERVER".toList then
    "--+DECLARE ".toList ++ key "key1" ++ " ".toList ++ key "key2" ++ " ".toList ++
      key "key3" ++ ";  ".toList
  else
    "--+DECLARE ".toList ++ key "key1" ++ " ".toList ++ key "key2" ++ " ".toList ++
      key "key3" ++ "(".toList ++ key "key4" ++ "=".toList ++ key "key5" ++ ");  ".toList

/-- One element of a node: the variables after its case and the commands it pushes, in order. -/
def runElement (ctx : Context) (process : Process) (st : Locals) (e : PsElement) :
    Locals × List QueryData :=
  let key := e.keyMap
  let data := { st.data with loc := ctx.staf.asUInt (key "loc") }
  let push (d : QueryData) : Locals × List QueryData := ({ st with data := d }, [d])
  match plainKind e.type with
  | some kind => push { data with type := kind, query := key "key1" }
  | none =>
    match e.type with
    | .connect => push { data with
        type := .connectCom, query := key "key1", user := key "key2",
        password := key "key3", sysdba := key "key4" }
    | .start =>
        if key "key2" = "type1".toList then
          push { data with type := .start1Com, sysdba := key "key3", query := key "key1" }
        else push { data with type := .start2Com, query := key "key1" }
    | .set =>
        let env := ctx.staf.strip (ctx.staf.upperCase (key "key1"))
        match setKind ctx.staf env with
        | some .restartCom =>
            push { data with type := .restartCom, query := "--+".toList ++ env }
        | some kind => push { data with type := kind, query := key "key1" }
        | none => push { data with
            type := .stringCom, query := prompt process ++ key "key1" ++ ";".toList }
    | .variable => push { data with
        type := .symbolCom, query := key "key1"
        symbol := ⟨key "key2", key "key3", key "key4", key "key5"⟩ }
    | .execute => push { data with
        type := .executeCom, query := key "key1", user := key "key2", sysdba := key "key3" }
    | .executeFunction => push { data with
        type := .execFuncCom, query := key "key1", table := key "key2", user := key "key3" }
    | .executeProcedure => push { data with
        type := .execProcCom, query := key "key1", table := key "key2", user := key "key3" }
    | .testRecptr => push { data with
        type := .recpointCom, query := key "key1", table := key "key2", user := key "key3"
        realQuery := key "key4" }
    | .print => push { data with
        type := .printCom, query := key "key1", sysdba := key "key2" }
    | .declare => push { data with type := .stringCom, query := declareEcho ctx.staf key }
    | .setEnv =>
        let echo := { data with
          type := .stringCom, query := "--+SET_ENV ".toList ++ key "key1" ++ ";".toList }
        let env := { echo with type := .envCom, query := key "key1" }
        ({ st with data := env }, [echo, env])
    | .comment => push { data with type := .stringCom, query := key "key1" ++ "\n".toList }
    | .sector =>
        let cycle2 := st.cycle2 + 1
        let d := { data with
          type := .stringCom
          query := "--+".toList ++ ctx.staf.upperCase (key "key2") ++ " ".toList ++
            cycle2.repr.toList ++ ";".toList ++ key "key1" }
        (⟨d, cycle2⟩, [d])
    | .create => push { data with
        type := .createObjCom, query := key "key1", realQuery := ctx.replace (key "key1") }
    | .createObject => push { data with
        type := .createProcCom, query := key "key1", realQuery := key "key2" }
    | .prepare => push { data with
        query := key "key1", realQuery := key "key2"
        type := prepareKind ctx.staf (key "key1") data.type }
    | .desc => push { data with
        type := .descCom, query := key "key1", table := key "key2" }
    | .xdesc | .ddesc | .vdesc => push { data with
        type := .descDollarCom, query := key "key1", table := key "key2" }
    | .empty => push { data with type := .stringCom, query := "\n".toList }
    | .syntaxError => push { data with
        type := .stringCom
        query := prompt process ++ key "key1" ++ ";\n".toList ++
          "[ERR-91010 : Syntax Error.]".toList }
    -- SPOOL, LOAD_SQL and IGNORE hand nothing over
    | _ => ({ st with data := data }, [])

/-- The elements of one node, one after the other. -/
def runElements (ctx : Context) (process : Process) :
    Locals → List PsElement → Locals × List QueryData
  | st, [] => (st, [])
  | st, e :: es =>
      let (st', now) := runElement ctx process st e
      let (st'', later) := runElements ctx process st' es
      (st'', now ++ later)

/-- The command that arms the recovery points in the first ordinary node of a sequential or full
recovery test. -/
def enableRecPtr (ctx : Context) (data : QueryData) : Option QueryData :=
  match ctx.testKind with
  | .sequential =>
      (ctx.recpoint ctx.recpointId).map fun queryString => { data with
        type := .recpointCom, query := queryString, table := "enable_recptr".toList, user := []
        realQuery := "--+TEST_RECPTR ENABLE".toList ++ " '".toList ++ ctx.recpointId ++
          "',".toList ++ " 'KILL', 0, 0, 0;\n".toList }
  | .full => some { data with
      type := .recpointCom, query := "execute enableall_recptrs()".toList
      table := "enableall_recptrs".toList, user := []
      realQuery := "--+TEST_RECPTR ENABLEALL;\n".toList }
  | _ => none

end Natc.Ats
