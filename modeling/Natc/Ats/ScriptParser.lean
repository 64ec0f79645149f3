import Natc.Ats.ScriptLexer

/-!
# The grammar of test scripts

The rules of `psy.y` with what their actions copy, and the parser made from them. A rule list is a
row of rules, so the parser shifts as long as some rule goes on with the next token, and else
reduces.
-/

namespace Natc.Ats.Script

open Lib Lib.Scanner
open TypeRule (TypeToken Shape typeRule)

/-- A stretch of a token: without `front` characters at its front and `back` at its end. Tokens
are counted from one, as `$1` is. -/
structure Part where
  token : Nat
  front : Nat := 0
  back : Nat := 0
  deriving DecidableEq, Repr

/-- What an action does with the text of its tokens. -/
inductive Action where
  /-- It copies stretches of them. -/
  | copies (parts : List Part)
  /-- It copies one and takes off the blanks around it and a semicolon behind it. -/
  | line (part : Part)
  /-- The actions of `sector_rule`, `recptr_rule`, `T_OBJECT` and `connect_rule`. -/
  | sector
  | recptr
  | object
  | connect
  deriving DecidableEq, Repr

structure Production where
  rhs : List Kind
  action : Action
  deriving DecidableEq, Repr

/-- A whole token. -/
def whole (token : Nat) : Part := ⟨token, 0, 0⟩

/-- A statement up to its semicolon. -/
def statement (kind : Kind) : Production := ⟨[kind, .tSemicolon], .copies [whole 1]⟩

/-! ## Rules -/

def skipRule : List Production := [
  ⟨[.tCommand, .tSkip, .tBegin, .tSemicolon], .copies []⟩,
  ⟨[.tCommand, .tSkip, .tEnd, .tSemicolon], .copies []⟩]

def ignoreRule : List Production := [⟨[.tCommand, .tIgnore, .tSemicolon], .copies []⟩]

def postRule : List Production :=
  [⟨[.tCommand, .tPost, .tIdentifier, .tSemicolon], .copies [whole 3]⟩]

def waitRule : List Production :=
  [⟨[.tCommand, .tWait, .tIdentifier, .tSemicolon], .copies [whole 3]⟩]

def envRule : List Production := [
  ⟨[.tCommand, .tSetEnv], .line ⟨2, 7, 0⟩⟩,
  ⟨[.tCommand, .tUnsetEnv], .line ⟨2, 9, 0⟩⟩]

def recptrRule : List Production := [⟨[.tCommand, .tTestRecptr], .recptr⟩]

def systemRule : List Production := [⟨[.tCommand, .tSystem], .line ⟨2, 7, 0⟩⟩]

def rsystemRule : List Production := [⟨[.tCommand, .tRsystem], .line ⟨2, 7, 0⟩⟩]

def appendRule : List Production := [⟨[.tCommand, .tAppendLst], .line ⟨2, 10, 0⟩⟩]

def checkRule : List Production := [⟨[.tCheck2], .line (whole 1)⟩]

def loadSqlRule : List Production :=
  [⟨[.tCommand, .tLoadSql, .tFile, .tSemicolon], .copies [whole 3]⟩]

/-- The rule has a second alternative further down. -/
def printRule : List Production := [
  ⟨[.tCommand], .copies []⟩,
  ⟨[.tPrint], .copies [whole 1]⟩]

def declareRule : List Production := [
  ⟨[.tCommand, .tDeclare, .tServer, .tIdentifier, .tIdentifier, .tSemicolon],
    .copies [whole 3, whole 4, whole 5]⟩,
  ⟨[.tCommand, .tDeclare, .tClient, .tDefault2, .tIdentifier, .tLeftParenthesis, .tServer,
    .tEqual, .tIdentifier, .tRightParenthesis, .tSemicolon],
    .copies [whole 3, whole 4, whole 5, whole 7, whole 9]⟩,
  ⟨[.tCommand, .tDeclare, .tClient, .tDefault2, .tIdentifier, .tLeftParenthesis,
    .tIsqlConnection, .tEqual, .tIdentifier, .tRightParenthesis, .tSemicolon],
    .copies [whole 3, whole 4, whole 5, whole 7, whole 9]⟩]

def processRule : List Production :=
  [⟨[.tCommand, .tProcess, .tIdentifier, .tSemicolon], .copies [whole 3]⟩]

def sectorRule : List Production := [⟨[.tCommand, .tSector], .sector⟩]

def commentRule : List Production := [⟨[.tComment], .copies [⟨1, 0, 1⟩]⟩]

def pwaitRule : List Production := [
  ⟨[.tCommand, .tPwait, .tIdentifier, .tSemicolon], .copies [whole 3]⟩,
  ⟨[.tCommand, .tPwait, .tInteger, .tSemicolon], .copies [whole 3]⟩,
  ⟨[.tCommand, .tPwait, .tSemicolon], .copies []⟩]

def insertRule : List Production := [statement .tInsert]
def selectRule : List Production := [statement .tSelect]
def descRule : List Production := [statement .tDesc]
def updateRule : List Production := [statement .tUpdate]
def deleteRule : List Production := [statement .tDelete]
def moveRule : List Production := [statement .tMove]
def commitRule : List Production := [statement .tCommit]
def rollbackRule : List Production := [statement .tRollback]
def savepointRule : List Production := [statement .tSavepoint]
def createRule : List Production := [⟨[.tObject], .object⟩, statement .tCreate]
def dropRule : List Production := [statement .tDrop]
def grantRule : List Production := [statement .tGrant]
def revokeRule : List Production := [statement .tRevoke]
def enqueueRule : List Production := [statement .tEnqueue]
def dequeueRule : List Production := [statement .tDequeue]
def alterRule : List Production := [statement .tAlter]
def renameRule : List Production := [statement .tRename]
def truncateRule : List Production := [statement .tTruncate]
def lockRule : List Production := [statement .tLock]

def prepareRule : List Production :=
  [⟨[.tPrepare, .tSemicolon], .copies [whole 1, ⟨1, 8, 0⟩]⟩]

def commentSqlRule : List Production := [statement .tCommentSql]

def connectRule : List Production := [⟨[.tLogon], .connect⟩]

def disconnectRule : List Production := [statement .tLogoff]
def autocommitRule : List Production := [statement .tAutocommit]

def spoolRule : List Production := [
  ⟨[.tSpool, .tFile, .tSemicolon], .copies [whole 2]⟩,
  ⟨[.tSpool, .tOff, .tSemicolon], .copies [whole 2]⟩]

def startRule : List Production := [
  ⟨[.tStart, .tFile, .tSemicolon], .copies [whole 1, whole 2]⟩,
  ⟨[.tAtSign, .tFile, .tSemicolon], .copies [whole 2]⟩]

/-- The token of a type. -/
def typeKind : TypeToken → Kind
  | .identifier => .tIdentifier
  | type => .tType type

/-- The alternative with a type and what stands behind it. -/
def typeAlternative (type : TypeToken) : Shape → Production
  | .alone => ⟨[typeKind type], .copies [whole 1]⟩
  | .sized => ⟨[typeKind type, .tLeftParenthesis, .tInteger, .tRightParenthesis],
      .copies [whole 1, whole 3]⟩
  | .scaled => ⟨[typeKind type, .tLeftParenthesis, .tInteger, .tComma, .tInteger,
      .tRightParenthesis], .copies [whole 1, whole 3, whole 5]⟩
  | .plus => ⟨[typeKind type, .tLeftParenthesis, .tInteger, .tComma, .tPlus, .tInteger,
      .tRightParenthesis], .copies [whole 1, whole 3, whole 6]⟩
  | .minus => ⟨[typeKind type, .tLeftParenthesis, .tInteger, .tComma, .tMinus, .tInteger,
      .tRightParenthesis], .copies [whole 1, whole 3, whole 6]⟩

def typeTokens : List TypeToken := [
  .bigint, .hssBlob, .blob, .char, .nchar, .date, .decimal, .double, .float, .hssByte, .hssNibble,
  .byte, .nibble, .integer, .identifier, .number, .numeric, .real, .smallint, .varchar, .nvarchar]

/-- `type_rule`. -/
def typeProductions : List Production :=
  typeTokens.flatMap fun type =>
    ([.alone, .sized, .scaled, .plus, .minus].filter fun shape => (typeRule type shape).isSome).map
      (typeAlternative type)

/-- `variable_rule`, with the type in its place. -/
def variableRule : List Production :=
  typeProductions.map fun p =>
    ⟨[.tVariable, .tIdentifier] ++ p.rhs ++ [.tSemicolon], .copies [whole 1, whole 2]⟩

def executeRule : List Production := [
  statement .tExecuteNull,
  ⟨[.tExecute, .tHostvariable, .tAssign, .tInteger, .tSemicolon],
    .copies [whole 1, whole 2, whole 4]⟩,
  ⟨[.tExecute, .tHostvariable, .tAssign, .tNumeric, .tSemicolon],
    .copies [whole 1, whole 2, whole 4]⟩,
  ⟨[.tExecute, .tHostvariable, .tAssign, .tString, .tSemicolon],
    .copies [whole 1, whole 2, whole 4]⟩,
  statement .tExecuteFunction2,
  statement .tExecuteFunction,
  statement .tExecuteProcedure]

def shellRule : List Production := [⟨[.tShell, .tSemicolon], .copies [⟨1, 1, 0⟩]⟩]

def setRule : List Production := [⟨[.tSet], .line (whole 1)⟩]

def emptyRule : List Production := [⟨[.tEmpty], .copies []⟩]

/-- `rule` -/
def ruleProductions : List Production :=
  skipRule ++ processRule ++ sectorRule ++ commentRule ++ pwaitRule ++ ignoreRule ++ postRule ++
    waitRule ++ envRule ++ systemRule ++ rsystemRule ++ appendRule ++ checkRule ++ loadSqlRule ++
    declareRule ++ recptrRule ++ insertRule ++ selectRule ++ descRule ++ updateRule ++
    deleteRule ++ moveRule ++ commitRule ++ rollbackRule ++ savepointRule ++ createRule ++
    dropRule ++ grantRule ++ revokeRule ++ enqueueRule ++ dequeueRule ++ alterRule ++
    renameRule ++ truncateRule ++ lockRule ++ prepareRule ++ commentSqlRule ++ connectRule ++
    disconnectRule ++ autocommitRule ++ spoolRule ++ startRule ++ variableRule ++ executeRule ++
    printRule ++ shellRule ++ setRule ++ emptyRule

/-! ## The parser -/

/-- An alternative with tokens for its right-hand side, the action about to run. -/
structure Reduction where
  production : Production
  tokens : List LexToken
  mem : production ∈ ruleProductions ++ typeProductions
  rhs_eq : tokens.map Token.kind = production.rhs

/-- Some of the alternatives begin like this. -/
def viable (productions : List Production) (kinds : List Kind) : Bool :=
  productions.any fun p => kinds.isPrefixOf p.rhs

/-- The reduction of the tokens by the alternative that they complete. -/
def reduce (productions : List Production)
    (hsub : ∀ p ∈ productions, p ∈ ruleProductions ++ typeProductions) (tokens : List LexToken) :
    Option Reduction :=
  match h : productions.find? fun p => p.rhs = tokens.map Token.kind with
  | none => none
  | some p => some {
      production := p
      tokens := tokens
      mem := hsub p (List.mem_of_find?_eq_some h)
      rhs_eq := by simpa [eq_comm] using List.find?_some h }

/-- The type of a declaration is reduced when it does not go on with the next token. -/
def reduceType (stack : List LexToken) (next : Option Kind) : Option Reduction :=
  if (stack.take 2).map Token.kind = [.tVariable, .tIdentifier] ∧
      ¬next.any (fun kind =>
        viable typeProductions ((stack.drop 2).map Token.kind ++ [kind])) = true then
    reduce typeProductions (fun _ h => List.mem_append_right _ h) (stack.drop 2)
  else none

def reduceRule (stack : List LexToken) : Option Reduction :=
  reduce ruleProductions (fun _ h => List.mem_append_left _ h) stack

/-- The reductions of the parser, from the tokens of the rule it is in and those to come. It stops
at a token that fits nowhere. -/
def reductionsFrom : List LexToken → List LexToken → List Reduction
  | stack, [] => (reduceType stack none).toList ++ (reduceRule stack).toList
  | stack, t :: ts =>
      (reduceType stack (some t.kind)).toList ++
        if viable ruleProductions (stack.map Token.kind ++ [t.kind]) = true then
          reductionsFrom (stack ++ [t]) ts
        else
          match reduceRule stack with
          | none => []
          | some r =>
              r :: if viable ruleProductions [t.kind] = true then reductionsFrom [t] ts else []

/-- The reductions for the tokens of a script. -/
def psparse (tokens : List LexToken) : List Reduction := reductionsFrom [] tokens

end Natc.Ats.Script
