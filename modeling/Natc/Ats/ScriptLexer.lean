import Natc.Ats.TypeRule
import Natc.Lib.Scanner

/-!
# The scanner of test scripts

The rules of `psl.l` in their order. Upper and lower case are the same. Outside its rules the
scanner drops a character.
-/

namespace Natc.Ats.Script

open Lib Lib.Scanner
open TypeRule (TypeToken)

/-- The kinds of tokens, `T_TYPE_BIGINT` and the like as `tType`. -/
inductive Kind where
  | tAtSign | tEqual | tSlash | tEmpty
  | tSetEnv | tUnsetEnv | tSetRestart | tOn | tOff | tSystem | tRsystem | tAppendLst | tCheck2
  | tDeclare | tServer | tClient | tDefault2 | tIsqlConnection | tLoadSql | tTestRecptr
  | tCommand | tComment | tSkip | tBegin | tEnd | tIgnore | tPost | tWait
  | tProcess | tSector | tPwait
  | tInteger | tNumeric | tString | tIdentifier | tFile | tSemicolon | tComma | tPlus | tMinus
  | tRightParenthesis | tLeftParenthesis
  | tInsert | tCreate | tSelect | tDesc | tUpdate | tDelete | tMove | tCommit | tRollback
  | tSavepoint | tDrop | tGrant | tRevoke | tEnqueue | tDequeue | tAlter | tRename | tTruncate
  | tLock | tPrepare | tObject | tCommentSql
  | tLogon | tLogoff | tShell | tAutocommit | tSpool | tStart | tSet
  | tVariable | tHostvariable | tExecute | tExecuteFunction | tExecuteFunction2
  | tExecuteProcedure | tExecuteNull | tAssign | tPrint
  | tType (type : TypeToken)
  deriving DecidableEq, Repr

/-! ## Patterns -/

/-- A word, in either case. -/
def word (s : String) : Regex Char :=
  Regex.all (s.toList.map fun c => .one fun d => d.toUpper == c.toUpper)

def oneOf (s : String) : Regex Char := .one fun c => s.toList.contains c

def butNot (s : String) : Regex Char := .one fun c => !s.toList.contains c

/-- `[_A-Z]` -/
def isLetter (c : Char) : Bool := c.isAlpha || c == '_'

/-- `\200-\377` -/
def isHigh (c : Char) : Bool := 0x80 ≤ c.toNat && c.toNat ≤ 0xFF

/-- `[ \t\n]*` and `[ \t\n]+` -/
def blanks : Regex Char := .star (oneOf " \t\n")

def someBlanks : Regex Char := .plus (oneOf " \t\n")

/-- `[^\n]*` -/
def restOfLine : Regex Char := .star (butNot "\n")

/-- `SQL_ANY` -/
def sqlAny : Regex Char := .star (butNot ";")

/-- `[_A-Z\200-\377][_A-Z\200-\3770-9]*` -/
def procedureName : Regex Char :=
  .seq (.one fun c => isLetter c || isHigh c)
    (.star (.one fun c => isLetter c || isHigh c || c.isDigit))

/-- `":"[_A-Z][_A-Z0-9]*` -/
def hostName : Regex Char :=
  Regex.all [word ":", .one isLetter, .star (.one fun c => isLetter c || c.isDigit)]

def objectType : Regex Char :=
  Regex.any [word "PROCEDURE", word "FUNCTION", word "TRIGGER", word "TYPESET"]

def execute : Regex Char := .alt (word "EXECUTE") (word "EXEC")

/-- `[Ee][+-]?[0-9]+` -/
def exponent : Regex Char :=
  Regex.all [word "E", .opt (oneOf "+-"), .plus (.one Char.isDigit)]

/-! ## Rules -/

abbrev LexRule := Rule Char Kind

def LexRule.of (regex : Regex Char) (kind : Kind) : LexRule := ⟨regex, some kind⟩

/-- A word alone. -/
def keyword (s : String) (kind : Kind) : LexRule := .of (word s) kind

/-- A word and the rest of its line. -/
def lineRule (s : String) (kind : Kind) : LexRule := .of (.seq (word s) restOfLine) kind

/-- A word and all up to a semicolon. -/
def sqlRule (s : String) (kind : Kind) : LexRule := .of (.seq (word s) sqlAny) kind

def objectRules : List LexRule := [
  .of (Regex.all [word "CREATE", someBlanks, objectType, .star (butNot "/"), word "/"]) .tObject,
  .of (Regex.all [word "CREATE", someBlanks, word "OR", someBlanks, word "REPLACE", someBlanks,
    objectType, .star (butNot "/"), word "/"]) .tObject,
  .of (Regex.all [word "CREATE", someBlanks, word "OR", someBlanks, word "REPLACE", someBlanks,
    Regex.any [word "NO", word "FORCE", word "VIEW"], sqlAny, word ";"]) .tObject,
  .of (Regex.all [execute, someBlanks, procedureName, sqlAny]) .tExecuteProcedure,
  .of (Regex.all [execute, someBlanks, hostName, blanks, word ":=", blanks, word "NULL", sqlAny])
    .tExecuteNull,
  .of (Regex.all [execute, someBlanks, hostName, blanks, word ":=", blanks, procedureName, sqlAny])
    .tExecuteFunction,
  .of (Regex.all [execute, someBlanks, hostName, blanks, word "=", blanks, procedureName, sqlAny])
    .tExecuteFunction2]

def commandRules : List LexRule := [
  lineRule "SET_ENV" .tSetEnv,
  lineRule "UNSET_ENV" .tUnsetEnv,
  keyword "SET_RESTART" .tSetRestart,
  lineRule "SYSTEM" .tSystem,
  lineRule "RSYSTEM" .tRsystem,
  lineRule "APPEND_LST" .tAppendLst,
  lineRule "CHECK" .tCheck2,
  keyword "DECLARE" .tDeclare,
  keyword "SERVER" .tServer,
  keyword "CLIENT" .tClient,
  keyword "DEFAULT" .tDefault2,
  keyword "ISQL_CONNECTION" .tIsqlConnection,
  keyword "LOAD_SQL" .tLoadSql,
  lineRule "TEST_RECPTR" .tTestRecptr,
  keyword "--+" .tCommand,
  .of (Regex.all [word "--", butNot "+", restOfLine, word "\n"]) .tComment,
  .of (Regex.all [word "#", restOfLine, word "\n"]) .tComment,
  .of (Regex.all [word "//", restOfLine, word "\n"]) .tComment,
  keyword "SKIP" .tSkip,
  keyword "BEGIN" .tBegin,
  keyword "END" .tEnd,
  keyword "IGNORE" .tIgnore,
  keyword "POST" .tPost,
  keyword "WAIT" .tWait,
  keyword "PROCESS" .tProcess,
  lineRule "SECTOR" .tSector,
  keyword "PWAIT" .tPwait]

def statementRules : List LexRule := [
  sqlRule "CREATE" .tCreate,
  sqlRule "INSERT" .tInsert,
  sqlRule "SELECT" .tSelect,
  .of (Regex.all [.star (.seq (word "(") blanks), word "SELECT", sqlAny]) .tSelect,
  sqlRule "DESC" .tDesc,
  sqlRule "UPDATE" .tUpdate,
  sqlRule "DELETE" .tDelete,
  sqlRule "MOVE" .tMove,
  sqlRule "COMMIT" .tCommit,
  sqlRule "ROLLBACK" .tRollback,
  sqlRule "SAVEPOINT" .tSavepoint,
  sqlRule "DROP" .tDrop,
  sqlRule "GRANT" .tGrant,
  sqlRule "REVOKE" .tRevoke,
  sqlRule "ENQUEUE" .tEnqueue,
  sqlRule "DEQUEUE" .tDequeue,
  sqlRule "ALTER" .tAlter,
  sqlRule "RENAME" .tRename,
  sqlRule "TRUNCATE" .tTruncate,
  sqlRule "LOCK" .tLock,
  sqlRule "PREPARE" .tPrepare,
  sqlRule "COMMENT" .tCommentSql,
  lineRule "CONNECT" .tLogon,
  keyword "DISCONNECT" .tLogoff,
  sqlRule "!" .tShell,
  sqlRule "AUTOCOMMIT" .tAutocommit,
  keyword "SPOOL" .tSpool,
  keyword "START" .tStart,
  lineRule "SET" .tSet]

def typeRules : List LexRule := [
  keyword "VAR" .tVariable,
  keyword "VARIABLE" .tVariable,
  keyword "BIGINT" (.tType .bigint),
  keyword "BLOB" (.tType .blob),
  keyword "HSS_BLOB" (.tType .hssBlob),
  keyword "CHAR" (.tType .char),
  keyword "NCHAR" (.tType .nchar),
  keyword "DATE" (.tType .date),
  keyword "DECIMAL" (.tType .decimal),
  keyword "DOUBLE" (.tType .double),
  keyword "FLOAT" (.tType .float),
  keyword "BYTE" (.tType .byte),
  keyword "HSS_BYTE" (.tType .hssByte),
  keyword "NIBBLE" (.tType .nibble),
  keyword "HSS_NIBBLE" (.tType .hssNibble),
  keyword "INTEGER" (.tType .integer),
  keyword "NUMBER" (.tType .number),
  keyword "NUMERIC" (.tType .numeric),
  keyword "REAL" (.tType .real),
  keyword "SMALLINT" (.tType .smallint),
  keyword "VARCHAR" (.tType .varchar),
  keyword "NVARCHAR" (.tType .nvarchar)]

def valueRules : List LexRule := [
  .of (.seq (.opt (word "-")) (.plus (.one Char.isDigit))) .tInteger,
  .of (Regex.all [.opt (word "-"), .plus (.one Char.isDigit),
    .opt (.seq (word ".") (.star (.one Char.isDigit))), .opt exponent]) .tNumeric,
  .of (Regex.all [.opt (word "-"), word ".", .plus (.one Char.isDigit), .opt exponent]) .tNumeric,
  .of (Regex.all [word "'", .star (.alt (word "''") (butNot "'")), word "'"]) .tString,
  .of hostName .tHostvariable,
  keyword "EXEC" .tExecute,
  keyword "EXECUTE" .tExecute,
  keyword ":=" .tAssign,
  lineRule "PRINT" .tPrint,
  keyword ";" .tSemicolon,
  keyword "/" .tSlash,
  keyword "," .tComma,
  keyword "-" .tMinus,
  keyword "+" .tPlus,
  keyword "ON" .tOn,
  keyword "OFF" .tOff,
  ⟨.plus (oneOf "\t "), none⟩,
  keyword "\n" .tEmpty,
  .of (.seq (.one fun c => isLetter c || isHigh c)
    (.star (.one fun c => isLetter c || c.isDigit || isHigh c || c == '$'))) .tIdentifier,
  .of (.seq (.one fun c => isLetter c || c.isDigit || isHigh c || c == '.' || c == '/')
    (.star (.one fun c => isLetter c || isHigh c || c.isDigit || c == '.' || c == '/' || c == '-')))
    .tFile,
  keyword "(" .tLeftParenthesis,
  keyword ")" .tRightParenthesis,
  keyword "@" .tAtSign,
  keyword "=" .tEqual]

/-- `psl.l` -/
def lexRules : List LexRule :=
  objectRules ++ commandRules ++ statementRules ++ typeRules ++ valueRules

abbrev LexToken := Token lexRules

/-- The tokens of a script. -/
def psLexer (text : List Char) : List LexToken := scan lexRules text

end Natc.Ats.Script
