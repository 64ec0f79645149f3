import Mathlib.Data.List.Basic
import Natc.Lib.Text
import Natc.Ploader.DataFile

/-!
# The form file

A form names a table and its columns. The parser turns every `ATTRIBUTE_DEF` into a node, and its
actions leave the mode of the timestamps, the date format and the sequences in globals; the table
info is what `GetTableInfo` reads off the nodes.
-/

namespace Natc.Ploader

open Natc.Lib

/-- `strcasecmp(a, b) == 0`. -/
def sameCaseless (a b : Text) : Bool :=
  a.map Char.toLower = b.map Char.toLower

/-- `TimestampType`. -/
inductive TimestampType where
  | dat | default | null | value
  deriving DecidableEq, Repr

/-! ## The alternatives of the grammar -/

/-- `user_object_name`. -/
structure ObjectName where
  owner : Option Text
  name : Text
  deriving DecidableEq, Repr

def ObjectName.text (o : ObjectName) : Text :=
  match o.owner with
  | none => o.name
  | some owner => owner ++ '.' :: o.name

/-- `SKIPNOEXP_DEF`, its two masks. -/
structure SkipNoexp where
  skip : Bool
  noexp : Bool
  deriving DecidableEq, Repr

/-- What may stand behind `SKIP` and `ADD`. -/
inductive StampValue where
  | default
  | null
  | value (gTimestampVal : Text)
  deriving DecidableEq, Repr

def StampValue.timestampType : StampValue → TimestampType
  | .default => .default
  | .null => .null
  | .value _ => .value

/-- What stands behind the column name and the word of the type. -/
inductive AttributeTail where
  | sized (n : Nat) (flags : SkipNoexp)
  | dated (format : Text) (skip : Bool)
  | plain (flags : SkipNoexp)
  | skipStamp (v : StampValue)
  | addStamp (v : StampValue)
  | zeroScaled (n : Nat) (flags : SkipNoexp)
  | scaled (n m : Nat) (flags : SkipNoexp)
  deriving DecidableEq, Repr

/-- `ATTRIBUTE_DEF`. -/
structure AttributeDef where
  column_name : Text
  type : Text
  tail : AttributeTail
  deriving DecidableEq, Repr

/-- `SEQ_DEF`. -/
structure SeqDef where
  seq : ObjectName
  col : ObjectName
  currval : Bool
  deriving DecidableEq, Repr

/-- `ILOADER_FORM`: its parts, whatever their order. `dateForm` is the format in the form in which
`DATEFORMAT_DEF` copies it. -/
structure FormDef where
  seqs : List SeqDef
  table : ObjectName
  attributes : List AttributeDef
  dateForm : Option Text
  downCond : Option Text
  attributes_ne : attributes ≠ []

/-! ## The actions -/

/-- `ATTR_NODE` with its two sons. The precision is set by some actions only. -/
structure AttrNode where
  attrName : Text
  attrType : Text
  nodeValue : Option Text
  mSkipFlag : Bool
  mNoExpFlag : Bool
  mPrecision : Option Nat
  deriving DecidableEq, Repr

structure SeqInfo where
  seqName : Text
  seqCol : Text
  seqVal : Text
  deriving DecidableEq, Repr

/-- The globals that the actions set. `gSeqArray` is what lies before `gSeqIndex`. -/
structure FormGlobals where
  gDateForm : Text
  gTimestampType : TimestampType
  gTimestampVal : Text
  gAddFlag : Bool
  gSeqArray : List SeqInfo
  deriving DecidableEq, Repr

/-- A type of an alternative: its word, the text of `ATTRTYPE_NODE`, and whether the action sets
the precision and the noexp flag. -/
structure TypeWord where
  word : Text
  attrType : Text
  precise : Bool
  noexp : Bool
  deriving DecidableEq, Repr

/-- The types with one number. -/
def sizedTypes : List TypeWord := [
  ⟨"CHAR".toList, "char".toList, true, false⟩,
  ⟨"NIBBLE".toList, "nibble".toList, true, false⟩,
  ⟨"BYTES".toList, "bytes".toList, true, false⟩,
  ⟨"VARCHAR".toList, "varchar".toList, false, false⟩,
  ⟨"BIT".toList, "bit".toList, true, false⟩,
  ⟨"DOUBLE".toList, "double".toList, false, false⟩,
  ⟨"BLOB".toList, "blob".toList, true, false⟩,
  ⟨"NUMERIC".toList, "numeric_long".toList, false, true⟩,
  ⟨"NUMBER".toList, "numeric_long".toList, false, true⟩,
  ⟨"DECIMAL".toList, "numeric_long".toList, false, true⟩]

/-- The types without a number, but for the date and the timestamp. -/
def plainTypes : List TypeWord := [
  ⟨"DOUBLE".toList, "double".toList, false, false⟩,
  ⟨"SMALLINT".toList, "smallint".toList, false, false⟩,
  ⟨"BIGINT".toList, "bigint".toList, false, false⟩,
  ⟨"INTEGER".toList, "integer".toList, false, false⟩,
  ⟨"BOOLEAN".toList, "boolean".toList, false, false⟩,
  ⟨"BLOB".toList, "blob".toList, false, false⟩,
  ⟨"REAL".toList, "real".toList, false, false⟩,
  ⟨"FLOAT".toList, "float".toList, false, true⟩,
  ⟨"NUMERIC".toList, "numeric_long".toList, false, true⟩,
  ⟨"NUMBER".toList, "numeric_long".toList, false, true⟩,
  ⟨"DECIMAL".toList, "numeric_long".toList, false, true⟩]

/-- The types with two numbers, the second of them 0. -/
def zeroScaledTypes : List TypeWord := [
  ⟨"NUMERIC".toList, "numeric_long".toList, false, true⟩,
  ⟨"NUMBER".toList, "numeric_long".toList, false, true⟩]

/-- The types with two numbers. -/
def scaledTypes : List TypeWord := [
  ⟨"NUMERIC".toList, "numeric_double".toList, false, true⟩,
  ⟨"NUMBER".toList, "numeric_double".toList, false, true⟩]

def dateWord : Text := "DATE".toList

def timestampWord : Text := "TIMESTAMP".toList

/-- The node of a column whose type is in the list of its alternative. -/
def typedNode (types : List TypeWord) (name type : Text) (n : Option Nat) (flags : SkipNoexp) :
    Option AttrNode :=
  (types.find? fun t => sameCaseless type t.word).map fun t => {
    attrName := name
    attrType := t.attrType
    nodeValue := none
    mSkipFlag := flags.skip
    mNoExpFlag := t.noexp && flags.noexp
    mPrecision := if t.precise then n else none }

def dateNode (name : Text) (format : Option Text) (skip : Bool) : AttrNode where
  attrName := name
  attrType := "date".toList
  nodeValue := format
  mSkipFlag := skip
  mNoExpFlag := false
  mPrecision := none

def timestampNode (name : Text) (skip : Bool) : AttrNode where
  attrName := name
  attrType := "timestamp".toList
  nodeValue := none
  mSkipFlag := skip
  mNoExpFlag := false
  mPrecision := some 8

/-- The globals behind a timestamp column. -/
def FormGlobals.stamp (g : FormGlobals) (v : StampValue) (add : Bool) : FormGlobals := {
  g with
  gTimestampType := v.timestampType
  gTimestampVal := if let .value s := v then s else g.gTimestampVal
  gAddFlag := add }

/-- The action of `ATTRIBUTE_DEF`; without a node it is `YYABORT`. -/
def attributeAction (d : AttributeDef) (g : FormGlobals) : Option (AttrNode × FormGlobals) :=
  match d.tail with
  | .sized n flags => (typedNode sizedTypes d.column_name d.type (some n) flags).map (·, g)
  | .dated format skip =>
      if sameCaseless d.type dateWord then
        some (dateNode d.column_name (some format) skip, { g with gDateForm := [] })
      else none
  | .plain flags =>
      if sameCaseless d.type dateWord then
        some (dateNode d.column_name none flags.skip, { g with gDateForm := [] })
      else if sameCaseless d.type timestampWord then
        some (timestampNode d.column_name flags.skip,
          { g with gTimestampType := .dat, gAddFlag := false })
      else (typedNode plainTypes d.column_name d.type none flags).map (·, g)
  | .skipStamp v =>
      if sameCaseless d.type timestampWord then
        some (timestampNode d.column_name true, g.stamp v false)
      else none
  | .addStamp v =>
      if sameCaseless d.type timestampWord then
        some (timestampNode d.column_name false, g.stamp v true)
      else none
  | .zeroScaled _ flags => (typedNode zeroScaledTypes d.column_name d.type none flags).map (·, g)
  | .scaled _ _ flags => (typedNode scaledTypes d.column_name d.type none flags).map (·, g)

/-- The actions of `ATTRIBUTE_DEF_LIST`. -/
def attributeActions : List AttributeDef → FormGlobals → Option (List AttrNode × FormGlobals)
  | [], g => some ([], g)
  | d :: ds, g =>
      match attributeAction d g with
      | none => none
      | some (node, g) =>
          match attributeActions ds g with
          | none => none
          | some (nodes, g) => some (node :: nodes, g)

/-! ## Sequences -/

/-- `UT_MAX_SEQ_ARRAY_CNT`. -/
def maxSeqArrayCnt : Nat := 8

/-- `InsertSeq`. The ninth sequence passes the check and is written behind the array. -/
def insertSeq (gSeqArray : List SeqInfo) (s : SeqInfo) : Option (List SeqInfo) :=
  if maxSeqArrayCnt < gSeqArray.length then some [s]
  else if gSeqArray.length = maxSeqArrayCnt then none
  else some (gSeqArray ++ [s])

/-- The texts that the action of `SEQ_DEF` hands over. Two names with an owner are both in
`gTmpBuf`, where the second has replaced the first. -/
def SeqDef.info (s : SeqDef) : SeqInfo where
  seqName := if s.seq.owner.isSome && s.col.owner.isSome then s.col.text else s.seq.text
  seqCol := s.col.text
  seqVal := if s.currval then "currval".toList else "nextval".toList

/-- The actions of `SEQ_DEF_LIST`. -/
def seqActions : List SeqDef → List SeqInfo → Option (List SeqInfo)
  | [], seqs => some seqs
  | s :: ss, seqs => (insertSeq seqs s.info).bind (seqActions ss)

/-- `seqCount`: the sequences up to one without a name. -/
def seqCount (localSeqArray : List SeqInfo) : Nat :=
  (localSeqArray.takeWhile fun s => s.seqName ≠ []).length

/-- `seqEqualChk` of a column name: the index, where the code has -1 without one. -/
def seqEqualChk (localSeqArray : List SeqInfo) (attrName : Text) : Option Nat :=
  (localSeqArray.take (seqCount localSeqArray)).findIdx? fun s => sameCaseless attrName s.seqCol

/-! ## The table info -/

/-- A column of the table info. -/
structure Column where
  m_AttrName : Text
  m_AttrType : AttrType
  mSkipFlag : Bool
  mNoExpFlag : Bool
  mPrecision : Option Nat
  mAttrDateFormat : Option Text
  deriving DecidableEq, Repr

structure TableInfo where
  m_TableName : Text
  m_QueryString : Option Text
  columns : List Column
  deriving DecidableEq, Repr

/-- `MAX_ATTR_COUNT`. -/
def maxAttrCount : Nat := 1024

/-- The types that `GetTableInfo` knows. -/
def attrTypes : List (Text × AttrType) := [
  ("char".toList, .char), ("varchar".toList, .varchar), ("integer".toList, .integer),
  ("double".toList, .double), ("smallint".toList, .smallint), ("bigint".toList, .bigint),
  ("decimal".toList, .decimal), ("float".toList, .float), ("real".toList, .real),
  ("inteval".toList, .inteval), ("boolean".toList, .boolean), ("blob".toList, .blob),
  ("nibble".toList, .nibble), ("bytes".toList, .bytes), ("timestamp".toList, .timestamp),
  ("bit".toList, .bit), ("numeric_long".toList, .numericLong),
  ("numeric_double".toList, .numericDouble), ("date".toList, .date),
  ("nextval".toList, .date), ("currval".toList, .date)]

def attrTypeOf (szTmp : Text) : Option AttrType :=
  (attrTypes.find? fun t => szTmp = t.1).map Prod.snd

def AttrNode.column (n : AttrNode) : Option Column :=
  (attrTypeOf n.attrType).map fun t => {
    m_AttrName := n.attrName
    m_AttrType := t
    mSkipFlag := n.mSkipFlag
    mNoExpFlag := n.mNoExpFlag
    mPrecision := n.mPrecision
    mAttrDateFormat := n.nodeValue }

/-- The loop of `GetTableInfo` over the nodes. -/
def columnsOf : List AttrNode → Option (List Column)
  | [] => some []
  | n :: ns =>
      match n.column, columnsOf ns with
      | some c, some cs => some (c :: cs)
      | _, _ => none

/-- `GetTableInfo`. -/
def getTableInfo (tableName : Text) (downCond : Option Text) (nodes : List AttrNode) :
    Option TableInfo :=
  if maxAttrCount < nodes.length then none
  else (columnsOf nodes).map fun columns => ⟨tableName, downCond, columns⟩

end Natc.Ploader
