import Natc.Lib.Scanner

/-!
# The scanner of commands

The rules of `iSQLLexer.l` in their order. Upper and lower case are the same; a character is a byte.
Commands of isql come apart into tokens, an SQL statement is one token.
-/

namespace Natc.Isql.Parse

open Lib Lib.Scanner

abbrev Text := List Char

/-- The kinds of tokens, `ISQL_S_AT` as `sAt` and `ISQL_T_ALL` as `tAll`. -/
inductive Kind where
  | sAssign | sAt | sComma | sEq | sLparen | sMinus | sPlus | sRparen | sSemicolon
  | tAll | tAutocommit | tBigint | tChar | tColsize | tComment | tDate | tDecimal | tDesc
  | tDisconnect | tDouble | tEdit | tExecute | tExit | tFloat | tForeignkeys | tHeading | tHelp
  | tHistory | tByte | tNibble | tIndex | tInteger | tLinesize | tLoad | tMicsec | tMilsec | tNansec
  | tNull | tNumber | tNumeric | tOff | tOn | tPagesize | tPlancommit | tQuerylogging | tPrint
  | tQuit | tReal | tSave | tSec | tSet | tShow | tSmallint | tSpool | tStart | tTerm | tTimescale
  | tTiming | tUser | tVariable | tVarchar | tVerbose
  | tStartup | tProcess | tControl | tMeta | tService | tSession | tProperty | tReplication | tDb
  | tMemory | tShutdown | tNorm | tNormal | tImme | tImmediate | tAbor | tAbort
  | tAlter | tCrtProc | tCrtObj | tExecProc | tExecNull | tExecFunc | tTables | tXtables | tVtables
  | tSequence | tSelect | tTransaction | tPrepare | tCheck | tCommit | tDelete | tDrop | tGrant
  | tInsert | tLock | tMove | tRename | tRevoke | tRollback | tSavepoint | tTruncate | tUpdate
  | tConnect | tShell | tHisrun | tHome | tHisedit | tNaturalnum | tRealnum | tIdentifier
  | tDollarId | tFilename | tHostvar | tConststr
  | char (c : Char)
  deriving DecidableEq, Repr

/-! ## Patterns -/

/-- Signs as they stand. -/
def sign (s : String) : Regex Char := Regex.all (s.toList.map fun c => .one (· == c))

/-- A word in either case. -/
def word (s : String) : Regex Char := Regex.all (s.toList.map fun c => .one (·.toUpper == c))

def oneOf (s : String) : Regex Char := .one fun c => s.toList.contains c

/-- `(.|\n)*`, and `.*` -/
def anything : Regex Char := .star (.one fun _ => true)

def restOfLine : Regex Char := .star (.one (· != '\n'))

/-- `[ \t\n]*`, `[ \t\n]+` and `[ \t]*` -/
def blanks : Regex Char := .star (oneOf " \t\n")

def someBlanks : Regex Char := .plus (oneOf " \t\n")

def lineBlanks : Regex Char := .star (oneOf " \t")

/-- `[_A-Z]` -/
def isLetter (c : Char) : Bool := c.isAlpha || c == '_'

/-- `[_A-Z\200-\377]` -/
def isInitial (c : Char) : Bool := isLetter c || (0x80 ≤ c.toNat && c.toNat ≤ 0xFF)

/-- `[_A-Z\200-\3770-9]` -/
def isInner (c : Char) : Bool := isInitial c || c.isDigit

/-- `[_A-Z\200-\377][_A-Z\200-\3770-9]*` -/
def identifier : Regex Char := .seq (.one isInitial) (.star (.one isInner))

/-- `":"[_A-Z][_A-Z0-9]*` -/
def hostVariable : Regex Char :=
  Regex.all [sign ":", .one isLetter, .star (.one fun c => isLetter c || c.isDigit)]

def digits : Regex Char := .plus (.one Char.isDigit)

/-- `[Ee][+-]?[0-9]+` -/
def exponent : Regex Char := Regex.all [word "E", .opt (oneOf "+-"), digits]

def execute : Regex Char := .alt (word "EXECUTE") (word "EXEC")

/-! ## Rules -/

/-- The start conditions. -/
inductive Condition where
  | initial | xc | xc2
  deriving DecidableEq, Repr

/-- What a rule does with the text: a token is returned, the condition changes, or nothing. -/
inductive Action where
  | token (kind : Kind)
  | begin (condition : Condition)
  | skip
  /-- `return yytext[0]` -/
  | char
  deriving DecidableEq, Repr

abbrev LexRule := Rule Char Action

def LexRule.of (regex : Regex Char) (kind : Kind) : LexRule := ⟨regex, some (.token kind)⟩

def symbolRules : List LexRule := [
  ⟨sign "/*", some (.begin .xc)⟩,
  ⟨Regex.all [sign "--", restOfLine, sign "\n"], some .skip⟩,
  ⟨Regex.all [sign "//", restOfLine, sign "\n"], some .skip⟩,
  .of (Regex.all [sign "'", .star (.alt (sign "''") (.one (· != '\''))), sign "'"]) .tConststr,
  .of (sign ":=") .sAssign,
  .of (sign "@") .sAt,
  .of (sign ",") .sComma,
  .of (sign "=") .sEq,
  .of (sign "(") .sLparen,
  .of (sign ")") .sRparen,
  .of (sign "+") .sPlus,
  .of (sign "-") .sMinus,
  .of (sign ";") .sSemicolon]

def keywords : List (String × Kind) := [
  ("ALL", .tAll), ("AUTOCOMMIT", .tAutocommit), ("BIGINT", .tBigint), ("CHAR", .tChar),
  ("COLSIZE", .tColsize), ("COMMENT", .tComment), ("DATE", .tDate), ("DECIMAL", .tDecimal),
  ("DESC", .tDesc), ("DISCONNECT", .tDisconnect), ("DOUBLE", .tDouble), ("ED", .tEdit),
  ("EDIT", .tEdit), ("EXEC", .tExecute), ("EXECUTE", .tExecute), ("EXIT", .tExit),
  ("FLOAT", .tFloat), ("FOREIGNKEYS", .tForeignkeys), ("H", .tHistory), ("HEADING", .tHeading),
  ("HELP", .tHelp), ("HISTORY", .tHistory), ("BYTE", .tByte), ("NIBBLE", .tNibble),
  ("INDEX", .tIndex), ("INTEGER", .tInteger), ("LINESIZE", .tLinesize), ("LOAD", .tLoad),
  ("MICSEC", .tMicsec), ("MILSEC", .tMilsec), ("NANSEC", .tNansec), ("NULL", .tNull),
  ("NUMBER", .tNumber), ("NUMERIC", .tNumeric), ("OFF", .tOff), ("ON", .tOn),
  ("PAGESIZE", .tPagesize), ("PLANCOMMIT", .tPlancommit), ("QUERYLOGGING", .tQuerylogging),
  ("PRINT", .tPrint), ("QUIT", .tQuit), ("REAL", .tReal), ("SAVE", .tSave), ("SEC", .tSec),
  ("SET", .tSet), ("SHOW", .tShow), ("SMALLINT", .tSmallint), ("SPOOL", .tSpool),
  ("START", .tStart), ("TERM", .tTerm), ("TIMESCALE", .tTimescale), ("TIMING", .tTiming),
  ("TMSC", .tTimescale), ("USER", .tUser), ("VAR", .tVariable), ("VARCHAR", .tVarchar),
  ("VARIABLE", .tVariable), ("VERBOSE", .tVerbose), ("STARTUP", .tStartup),
  ("PROCESS", .tProcess), ("CONTROL", .tControl), ("META", .tMeta), ("SERVICE", .tService),
  ("SESSION", .tSession), ("PROPERTY", .tProperty), ("REPLICATION", .tReplication),
  ("DB", .tDb), ("MEMORY", .tMemory), ("SHUTDOWN", .tShutdown), ("NORM", .tNorm),
  ("NORMAL", .tNormal), ("IMME", .tImme), ("IMMEDIATE", .tImmediate), ("ABOR", .tAbor),
  ("ABORT", .tAbort)]

def keywordRules : List LexRule := keywords.map fun k => .of (word k.1) k.2

/-- `"ALTER"[ \t\n]+"SESSION"...` -/
def explainPlan (mode : String) : Regex Char :=
  Regex.all [word "ALTER", someBlanks, word "SESSION", someBlanks, word "SET", someBlanks,
    word "EXPLAIN", someBlanks, word "PLAN", blanks, sign "=", blanks, word mode, blanks, sign ";",
    anything]

/-- `"SELECT"[ \t\n]+[*][ \t\n]+"FROM"...` -/
def selectFrom (table : String) : Regex Char :=
  Regex.all [word "SELECT", someBlanks, sign "*", someBlanks, word "FROM", someBlanks, word table,
    blanks, sign ";", anything]

def statementRules : List LexRule := [
  .of (explainPlan "ON") .tAlter,
  .of (explainPlan "OFF") .tAlter,
  .of (explainPlan "ONLY") .tAlter,
  .of (Regex.all [word "CREATE", someBlanks,
    Regex.any [word "PROCEDURE", word "FUNCTION", word "TRIGGER"], anything]) .tCrtProc,
  .of (Regex.all [word "CREATE", someBlanks, word "OR", someBlanks, word "REPLACE", someBlanks,
    Regex.any [word "PROCEDURE", word "FUNCTION"], anything]) .tCrtProc,
  .of (Regex.all [word "CREATE", someBlanks, word "OR", someBlanks, word "REPLACE", someBlanks,
    Regex.any [word "NO", word "FORCE", word "VIEW"], anything]) .tCrtObj,
  .of (Regex.all [execute, someBlanks, identifier, anything]) .tExecProc,
  .of (Regex.all [execute, someBlanks, hostVariable, blanks, sign ":=", blanks, word "NULL", blanks,
    sign ";", lineBlanks, sign "\n"]) .tExecNull,
  .of (Regex.all [execute, someBlanks, hostVariable, blanks, sign ":=", blanks, identifier,
    anything]) .tExecFunc,
  .of (selectFrom "TAB") .tTables,
  .of (selectFrom "X$TAB") .tXtables,
  .of (selectFrom "V$TAB") .tVtables,
  .of (selectFrom "SEQ") .tSequence,
  .of (Regex.all [.star (.seq (sign "(") blanks), word "SELECT", anything]) .tSelect,
  .of (Regex.all [word "SET", someBlanks, word "TRANSACTION", anything]) .tTransaction]

/-- The statements that are read to the end of the text. -/
def statements : List (String × Kind) := [
  ("ALTER", .tAlter), ("CHECK", .tCommit), ("COMMIT", .tCommit), ("CREATE", .tCrtObj),
  ("DELETE", .tDelete), ("DROP", .tDrop), ("GRANT", .tGrant), ("INSERT", .tInsert),
  ("LOCK", .tLock), ("MOVE", .tMove), ("RENAME", .tRename), ("REVOKE", .tRevoke),
  ("ROLLBACK", .tRollback), ("SAVEPOINT", .tSavepoint), ("TRUNCATE", .tTruncate),
  ("UPDATE", .tUpdate)]

def openRules : List LexRule := statements.map fun s => .of (.seq (word s.1) anything) s.2

def valueRules : List LexRule := [
  .of (.seq (word "CONNECT") restOfLine) .tConnect,
  .of (.seq (sign "!") restOfLine) .tShell,
  .of (Regex.all [digits, lineBlanks, sign "/", lineBlanks, .opt (sign ";")]) .tHisrun,
  .of (sign "/") .tHisrun,
  .of (sign "?") .tHome,
  .of (Regex.all [digits, lineBlanks, .alt (word "ED") (word "EDIT"), lineBlanks,
    .opt (sign ";")]) .tHisedit,
  .of digits .tNaturalnum,
  .of (.alt
    (Regex.all [.opt (sign "-"), digits,
      .opt (.seq (sign ".") (.star (.one Char.isDigit))), .opt exponent])
    (Regex.all [sign ".", digits, .opt exponent])) .tRealnum,
  .of identifier .tIdentifier,
  .of (.seq (.one isInitial) (.star (.one fun c => isInner c || c == '$'))) .tDollarId,
  .of (.seq (.one fun c => isInner c || c == '.' || c == '/')
    (.star (.one fun c => isInner c || c == '.' || c == '/' || c == '-'))) .tFilename,
  .of hostVariable .tHostvar,
  ⟨.plus (oneOf " \t\n\r"), some .skip⟩,
  ⟨.one (· != '\n'), some .char⟩]

/-- The rules outside comments. -/
def lexRules : List LexRule :=
  symbolRules ++ keywordRules ++ statementRules ++ [.of (word "PREPARE") .tPrepare] ++ openRules ++
    valueRules

/-- The rules of a start condition. -/
def Condition.rules : Condition → List LexRule
  | .initial => lexRules
  | .xc => [
    ⟨.plus (oneOf "*"), some (.begin .xc2)⟩,
    ⟨.star (.one fun c => c != '*' && c != '\n'), some .skip⟩,
    ⟨sign "\n", some .skip⟩]
  | .xc2 => [
    ⟨sign "/", some (.begin .initial)⟩,
    ⟨.one fun c => c != '/' && c != '\n', some (.begin .xc)⟩,
    ⟨sign "\n", some (.begin .xc)⟩]

/-! ## Tokens -/

structure LexToken where
  kind : Kind
  text : Text
  deriving DecidableEq, Repr

/-- The token that the action of a rule returns. -/
def Action.token? (text : Text) : Action → Option LexToken
  | .token kind => some ⟨kind, text⟩
  | .char => text.head?.map fun c => ⟨.char c, text⟩
  | _ => none

def Action.next (condition : Condition) : Action → Condition
  | .begin c => c
  | _ => condition

/-- The tokens up to the end of the input; `skip` characters of the current match are still to be
dropped. -/
def lexFrom : Condition → Nat → Text → List LexToken
  | _, _, [] => []
  | condition, skip + 1, _ :: cs => lexFrom condition skip cs
  | condition, 0, c :: cs =>
    match pick condition.rules (c :: cs) with
    | some (⟨_, some action⟩, n) =>
      (action.token? ((c :: cs).take n)).toList ++ lexFrom (action.next condition) (n - 1) cs
    | _ => lexFrom condition 0 cs

/-- What successive calls of `yylex` return for the text of a command. -/
def lex (text : Text) : List LexToken := lexFrom .initial 0 text

end Natc.Isql.Parse
