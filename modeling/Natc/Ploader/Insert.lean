import Mathlib.Data.List.Nodup
import Natc.Ploader.Form

/-!
# The INSERT statement and its parameters

`MakePrepareSQLStatement` goes over the columns twice, for the names and for the values, and
`BindParameter` a third time; each decides for itself which columns take part.
-/

namespace Natc.Ploader

open Natc.Lib

/-- `struct tm`, as far as the loader fills it. -/
structure Tm where
  tm_year : Int
  tm_mon : Int
  tm_mday : Int
  tm_hour : Int
  tm_min : Int
  tm_sec : Int
  deriving DecidableEq, Repr

/-- What the loader takes from its surroundings. -/
structure LoadEnv where
  ilo_dateform : Option Text
  mktime : Tm → UInt32

/-- `atoi` of a text of digits. -/
def atoiDigits (s : Text) : Nat :=
  s.foldl (fun n c => 10 * n + (c.toNat - 48)) 0

/-- The time in `gTimestampVal`, `YYYYMMDD` with or without `HHMMSS`. -/
def timestampTm (gTimestampVal : Text) : Tm :=
  let part (start len : Nat) : Int := atoiDigits ((gTimestampVal.drop start).take len)
  let long := 8 < gTimestampVal.length
  { tm_year := part 0 4 - 1900
    tm_mon := part 4 2 - 1
    tm_mday := part 6 2
    tm_hour := if long then part 8 2 else 0
    tm_min := if long then part 10 2 else 0
    tm_sec := if long then part 12 2 else 0 }

/-- `%08x`. -/
def hex8 (n : UInt32) : Text :=
  let digits := Nat.toDigits 16 n.toNat
  List.replicate (8 - digits.length) '0' ++ digits

/-! ## The statement -/

/-- A value of the statement; a parameter belongs to the column whose turn wrote it. -/
inductive InsertValue where
  | null
  | bytes (secVal : UInt32)
  | sequence (seqName seqVal : Text)
  | param (column : Nat) (format : Option Text)
  deriving DecidableEq, Repr

def InsertValue.text : InsertValue → Text
  | .null => "NULL".toList
  | .bytes secVal => "BYTE'".toList ++ hex8 secVal ++ "'".toList
  | .sequence seqName seqVal => seqName ++ '.' :: seqVal
  | .param _ none => "?".toList
  | .param _ (some format) => "to_date(?,'".toList ++ format ++ "')".toList

/-- The column of the parameter, if the value is one. -/
def InsertValue.parameter? : InsertValue → Option Nat
  | .param column _ => some column
  | _ => none

structure InsertStatement where
  table : Text
  names : List Text
  values : List InsertValue
  deriving DecidableEq, Repr

namespace InsertStatement

/-- A list with its parenthesis: the last character, a comma if there is an entry, becomes `)`. -/
def parenthesized (entries : List Text) : Text :=
  ('(' :: entries.flatMap fun e => e ++ [',']).dropLast ++ [')']

/-- `m_SQLStatement`. -/
def text (s : InsertStatement) : Text :=
  "INSERT INTO ".toList ++ s.table ++ " ".toList ++ parenthesized s.names ++
    " VALUES ".toList ++ parenthesized (s.values.map InsertValue.text)

/-- The columns of the parameters, in the order of the statement. -/
def parameters (s : InsertStatement) : List Nat :=
  s.values.filterMap InsertValue.parameter?

end InsertStatement

/-- What the loader knows when it prepares the statement. -/
structure LoadState where
  info : TableInfo
  globals : FormGlobals
  deriving DecidableEq, Repr

namespace LoadState

variable (l : LoadState)

/-- `seqColChk`. -/
def seqColChk : Bool :=
  let seqs := l.globals.gSeqArray
  (seqs.take (seqCount seqs)).all fun s =>
    l.info.columns.any fun c => sameCaseless c.m_AttrName s.seqCol

/-- `seqDupChk`. -/
def seqDupChk : Bool :=
  let seqs := l.globals.gSeqArray
  let seqs := seqs.take (seqCount seqs)
  seqs.all fun s => (seqs.filter fun s' => sameCaseless s'.seqCol s.seqCol).length ≤ 1

/-- The first loop skips the column. -/
def named (c : Column) : Bool :=
  if c.mSkipFlag && c.m_AttrType ≠ .timestamp then false
  else if c.m_AttrType = .timestamp && l.globals.gTimestampType = .default then false
  else true

/-- The value of a timestamp column. -/
def timestampValue (env : LoadEnv) (c : Column) (i : Nat) : Option InsertValue :=
  match l.globals.gTimestampType with
  | .default => none
  | .null => some .null
  | .value => some (.bytes (env.mktime (timestampTm l.globals.gTimestampVal)))
  | .dat => if c.mSkipFlag then none else some (.param i none)

/-- The value of a column whose turn it is in the second loop. -/
def value (env : LoadEnv) (c : Column) (i : Nat) : Option InsertValue :=
  if c.m_AttrType = .timestamp then l.timestampValue env c i
  else if c.mSkipFlag then none
  else
    match seqEqualChk l.globals.gSeqArray c.m_AttrName with
    | some index =>
        let s := l.globals.gSeqArray.getD index ⟨[], [], []⟩
        some (.sequence s.seqName s.seqVal)
    | none =>
        if c.m_AttrType = .date then
          match c.mAttrDateFormat with
          | some format => some (.param i (some format))
          | none =>
              if 1 ≤ l.globals.gDateForm.length then some (.param i (some l.globals.gDateForm))
              else some (.param i none)
        else some (.param i none)

/-- `MakePrepareSQLStatement`, without a statement where a check of the sequences fails. -/
def makePrepareSQLStatement (env : LoadEnv) : Option InsertStatement :=
  if !l.seqColChk || !l.seqDupChk then none
  else some {
    table := l.info.m_TableName
    names := (l.info.columns.filter fun c => l.named c).map Column.m_AttrName
    values := l.info.columns.zipIdx.filterMap fun ci => l.value env ci.1 ci.2 }

/-- `BindParameter` binds the column. -/
def binds (c : Column) : Bool :=
  if (seqEqualChk l.globals.gSeqArray c.m_AttrName).isSome || c.mSkipFlag then false
  else if c.m_AttrType = .timestamp && l.globals.gAddFlag then false
  else true

/-- `BindParameter`: the columns, parameter by parameter. -/
def bindParameter : List Nat :=
  (l.info.columns.zipIdx.filter fun ci => l.binds ci.1).map Prod.snd

end LoadState

/-! ## The form behind it -/

/-- How `GetTableTree` and `GetTableInfo` end. -/
inductive Loaded where
  | refused
  | overrun
  | state (l : LoadState)
  deriving DecidableEq, Repr

/-- `GetTableTree` with `GetTableInfo`; `g` is what earlier forms have left. -/
def getTableTree (env : LoadEnv) (g : FormGlobals) (form : FormDef) : Loaded :=
  match seqActions form.seqs [] with
  | none => .overrun
  | some seqs =>
      match attributeActions form.attributes { g with gDateForm := [], gSeqArray := seqs } with
      | none => .refused
      | some (nodes, g) =>
          match getTableInfo form.table.text form.downCond nodes with
          | none => .refused
          | some info =>
              let gDateForm := env.ilo_dateform.getD (form.dateForm.getD g.gDateForm)
              .state ⟨info, { g with gDateForm }⟩

/-- As many names as values, and the parameters are those that are bound. -/
def InsertStatement.Agrees (s : InsertStatement) (bound : List Nat) : Prop :=
  s.names.length = s.values.length ∧ s.parameters = bound

/-- The statement that is built for a form agrees with the binding. -/
def InsertAgrees (env : LoadEnv) (g : FormGlobals) (form : FormDef) : Prop :=
  match getTableTree env g form with
  | .refused => True
  | .overrun => False
  | .state l => ∀ s, l.makePrepareSQLStatement env = some s → s.Agrees l.bindParameter

/-! ## What a form says of its timestamps -/

/-- A timestamp column: the mode and the add flag it sets, and its skip flag. -/
structure Stamp where
  mode : TimestampType
  add : Bool
  skip : Bool
  deriving DecidableEq, Repr

def AttributeDef.stamp? (d : AttributeDef) : Option Stamp :=
  if sameCaseless d.type timestampWord then
    match d.tail with
    | .plain flags => some ⟨.dat, false, flags.skip⟩
    | .skipStamp v => some ⟨v.timestampType, false, true⟩
    | .addStamp v => some ⟨v.timestampType, true, false⟩
    | _ => none
  else none

/-- The alternative has the type. -/
def AttributeDef.supported (d : AttributeDef) : Bool :=
  match d.tail with
  | .sized _ _ => sizedTypes.any fun t => sameCaseless d.type t.word
  | .dated _ _ => sameCaseless d.type dateWord
  | .plain _ =>
      sameCaseless d.type dateWord || sameCaseless d.type timestampWord ||
        plainTypes.any fun t => sameCaseless d.type t.word
  | .skipStamp _ | .addStamp _ => sameCaseless d.type timestampWord
  | .zeroScaled _ _ => zeroScaledTypes.any fun t => sameCaseless d.type t.word
  | .scaled _ _ _ => scaledTypes.any fun t => sameCaseless d.type t.word

namespace FormDef

variable (form : FormDef)

def seqArray : List SeqInfo :=
  form.seqs.map SeqDef.info

/-- A sequence is linked to the column. -/
def linked (d : AttributeDef) : Bool :=
  (seqEqualChk form.seqArray d.column_name).isSome

/-- Every sequence has its column, and no two have the same. -/
def seqsLinked : Bool :=
  let seqs := form.seqArray.take (seqCount form.seqArray)
  (seqs.all fun s => form.attributes.any fun d => sameCaseless d.column_name s.seqCol) &&
    seqs.all fun s => (seqs.filter fun s' => sameCaseless s'.seqCol s.seqCol).length ≤ 1

/-- A statement is built for the form. -/
def prepared : Bool :=
  form.attributes.all AttributeDef.supported && form.attributes.length ≤ maxAttrCount &&
    form.seqsLinked

def stamps : List Stamp :=
  form.attributes.filterMap AttributeDef.stamp?

/-- The last timestamp column of the form suits all of them. When it reads its value from the data
file, none is skipped or linked to a sequence; when it is not added, the others are skipped or
linked. -/
def StampsAgree : Prop :=
  ∀ last ∈ form.stamps.getLast?, ∀ d ∈ form.attributes, ∀ st ∈ d.stamp?,
    if last.mode = .dat then st.skip = false ∧ form.linked d = false
    else last.add = true ∨ st.skip = true ∨ form.linked d = true

end FormDef

end Natc.Ploader
