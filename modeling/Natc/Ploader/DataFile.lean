import Mathlib.Data.List.Basic
import Mathlib.Data.Nat.Notation
import Mathlib.Logic.Function.Basic
import Natc.Ploader.Load

/-!
# The data file

`iloDataFile` writes a record as its column values between terminators and reads it back token by
token. The bytes are those of the file; a `char` is signed where the loader compares it with the
`int` that `GetChar` returns.
-/

namespace Natc.Ploader

abbrev Bytes := List UInt8

/-- `EispAttrType`. -/
inductive AttrType where
  | none | integer | double | smallint | bigint | decimal | float | real | inteval | boolean
  | blob | nibble | bytes | char | varchar | bit | numericLong | numericDouble | date | timestamp
  deriving DecidableEq, Repr

/-- The types whose values lie in `B_Col`. -/
def AttrType.binary : AttrType → Bool
  | .nibble | .bytes | .timestamp | .blob => true
  | _ => false

/-- The types of a result column: those `PrintOneRecord` has a case for, and the two others that
`SelectExecute` binds. -/
inductive SqlType where
  | integer | smallint | bigint | nibble | bytes | char | varchar | numeric | decimal | double
  | float | real | date | sqlDate | binary | bit | tnumeric
  deriving DecidableEq, Repr

/-- The types that `PrintOneRecord` prints the value of. -/
def SqlType.printed : SqlType → Bool
  | .bit | .tnumeric => false
  | _ => true

/-- The terminators and, with `-e`, the enclosing. -/
structure Format where
  m_FieldTerm : Bytes
  m_RowTerm : Bytes
  m_Enclosing : Option Bytes
  deriving DecidableEq, Repr

/-! ## Writing -/

def unknownType : Bytes :=
  "unknown type".toList.map fun c => c.toNat.toUInt8

/-- A column value between its enclosings. -/
def printColumn (f : Format) (column : SqlType × Bytes) : Bytes :=
  f.m_Enclosing.getD [] ++ (if column.1.printed then column.2 else unknownType) ++
    f.m_Enclosing.getD []

/-- `iloDataFile::PrintOneRecord`. -/
def printOneRecord (f : Format) (mInformix : Bool) : List (SqlType × Bytes) → Bytes
  | [] => []
  | [column] =>
      printColumn f column ++ (if mInformix then f.m_FieldTerm else []) ++ f.m_RowTerm
  | column :: columns =>
      printColumn f column ++ f.m_FieldTerm ++ printOneRecord f mInformix columns

/-! ## Tokens -/

/-- `EDataToken`. -/
inductive DataToken where
  | eof | fieldTerm | rowTerm | value
  deriving DecidableEq, Repr

/-- What is left of the file, and the token that the last value has already read. -/
structure DataFile where
  rest : Bytes
  eNextToken : Option DataToken
  deriving DecidableEq, Repr

/-- The variables of `GetToken`: `m_TokenValue` up to `vix`, and `enFlag` as long as it is -1. -/
structure Scan where
  text : Bytes
  ixFT : Nat
  ixRT : Nat
  ixEn : Nat
  enFlag : Bool
  encloseLoopCnt : Nat
  deriving DecidableEq, Repr

def maxTokenValueLen : Nat := 65536

def carriageReturn : UInt8 := 13

/-- `ch == s[ix]`, an `int` from the file against a signed `char`. -/
def sameChar (ch c : UInt8) : Bool :=
  ch = c ∧ c < 128

/-- The counter of a terminator behind one more character. A partial match that fails is looked up
again from the text, by `strncmp`. -/
def advance (term text : Bytes) (enFlag : Bool) (ch : UInt8) (ix : Nat) : Nat :=
  if enFlag && sameChar ch (term.getD ix 0) then ix + 1
  else if 0 < ix then
    (List.range (min text.length term.length)).foldl
      (fun ix j => if text.drop (text.length - (j + 1)) = term.take (j + 1) then j + 1 else ix) 0
  else ix

/-- What the loop of `GetToken` does with a character: it goes on, or returns a token with its
text and the token that follows it. -/
inductive ScanStep where
  | more (s : Scan)
  | token (t : DataToken) (text : Bytes) (eNextToken : Option DataToken)
  deriving DecidableEq, Repr

/-- The counter of the enclosing behind one more character. -/
def advanceEnclosing (enclosing : Bytes) (ch : UInt8) (ix : Nat) : Nat :=
  if sameChar ch (enclosing.getD ix 0) then ix + 1
  else if 0 < ix then (if sameChar ch (enclosing.getD 0 0) then 1 else 0)
  else ix

/-- The enclosing, tried where no terminator has begun. -/
def scanEnclosing (enclosing : Bytes) (s : Scan) (ch : UInt8) : ScanStep :=
  let ixEn := advanceEnclosing enclosing ch s.ixEn
  if ixEn = enclosing.length then
    if s.text.length = enclosing.length then
      if s.encloseLoopCnt = enclosing.length then .token .value [] none
      else .more {
        text := [], ixFT := 0, ixRT := 0, ixEn := 0, enFlag := false
        encloseLoopCnt := s.encloseLoopCnt + 1 }
    else .token .value (s.text.take (s.text.length - enclosing.length)) none
  else .more { s with ixEn, enFlag := false }

/-- The body of the loop of `GetToken`. -/
def scanStep (f : Format) (s : Scan) (ch : UInt8) : ScanStep :=
  let text := s.text ++ [ch]
  if maxTokenValueLen ≤ text.length then .token .eof text none
  else
    let ixFT := advance f.m_FieldTerm text s.enFlag ch s.ixFT
    if ixFT = f.m_FieldTerm.length then
      if text.length = f.m_FieldTerm.length then .token .fieldTerm text none
      else .token .value (text.take (text.length - f.m_FieldTerm.length)) (some .fieldTerm)
    else
      let ixRT := advance f.m_RowTerm text s.enFlag ch s.ixRT
      if ixRT = f.m_RowTerm.length then
        if text.length = f.m_RowTerm.length then .token .rowTerm text none
        else .token .value (text.take (text.length - f.m_RowTerm.length)) (some .rowTerm)
      else
        let s := { s with text, ixFT, ixRT }
        match f.m_Enclosing with
        | none => .more s
        | some enclosing =>
            if ixFT = 0 ∧ ixRT = 0 then scanEnclosing enclosing s ch else .more s

/-- The loop of `GetToken` over the characters; of a carriage return it takes the next character
instead. -/
def scan (f : Format) : Scan → Bytes → DataToken × Bytes × DataFile
  | s, [] => (.value, s.text, ⟨[], some .eof⟩)
  | s, ch :: rest =>
      if ch = carriageReturn then
        match rest with
        | [] => (.value, s.text, ⟨[], some .eof⟩)
        | ch :: rest =>
            match scanStep f s ch with
            | .more s => scan f s rest
            | .token t text next => (t, text, ⟨rest, next⟩)
      else
        match scanStep f s ch with
        | .more s => scan f s rest
        | .token t text next => (t, text, ⟨rest, next⟩)

def Scan.start : Scan where
  text := []
  ixFT := 0
  ixRT := 0
  ixEn := 0
  enFlag := true
  encloseLoopCnt := 0

/-- `iloDataFile::GetToken`: the token, `GetTokenValue()` and the file behind it. -/
def getToken (f : Format) (d : DataFile) : DataToken × Bytes × DataFile :=
  match d.eNextToken with
  | some t => (t, [], { d with eNextToken := none })
  | none =>
      if d.rest = [] ∨ d.rest = [carriageReturn] then (.eof, [], ⟨[], none⟩)
      else scan f .start d.rest

/-! ## Records -/

/-- `SQL_NTS` and `SQL_NULL_DATA`. -/
inductive AttrLen where
  | nts | nullData
  deriving DecidableEq, Repr

/-- The columns of one slot: the value in `C_Col` or, for some types, in `B_Col`, and the length
indicator. -/
structure Row where
  C_Col : Nat → Bytes
  B_Col : Nat → Bytes
  attrLen : Nat → AttrLen

/-- The string at the start of a buffer. -/
def cString (b : Bytes) : Bytes :=
  b.takeWhile (· ≠ 0)

/-- What the reader knows of the table and of the options. -/
structure Table where
  attrTypes : List AttrType
  gAddFlag : Bool
  mInformix : Bool
  deriving DecidableEq, Repr

namespace Table

variable (t : Table)

def attrType (i : Nat) : AttrType :=
  t.attrTypes.getD i .none

/-- The timestamp that the load adds by itself, and that the data file leaves out. -/
def added (i : Nat) : Bool :=
  t.attrType i = .timestamp ∧ t.gAddFlag

/-- `SetAttrValue` with `SetAttrLen`. -/
def setAttr (i : Nat) (text : Bytes) (len : AttrLen) (row : Row) : Row :=
  let row := { row with attrLen := Function.update row.attrLen i len }
  if (t.attrType i).binary then
    { row with B_Col := Function.update row.B_Col i (cString text) }
  else { row with C_Col := Function.update row.C_Col i (cString text) }

/-- The value that the load binds for a column. -/
def value (row : Row) (i : Nat) : Bytes :=
  if (t.attrType i).binary then row.B_Col i else row.C_Col i

end Table

/-- What `ReadOneRecord` returns and leaves: the read count, the file and the slot. -/
structure ReadEnd where
  nRet : ReadResult
  readCount : Nat
  file : DataFile
  row : Row

/-- The end of an iteration of `ReadOneRecord`: the record is finished, or the next column. -/
inductive ReadStep where
  | done (r : ReadEnd)
  | column (i : Nat) (eToken : DataToken) (text : Bytes) (file : DataFile)

/-- The checks behind a column, and the token of the next one. -/
def readBehind (f : Format) (t : Table) (i : Nat) (eToken : DataToken) (d : DataFile) (row : Row) :
    ReadStep :=
  let last := i + 1 = t.attrTypes.length
  if last ∧ eToken = .eof then .done ⟨.record, i, d, row⟩
  else if t.mInformix ∧ last ∧ eToken = .fieldTerm then
    let (eToken, text, d) := getToken f d
    if eToken = .eof then .done ⟨.record, i, d, row⟩
    else if eToken ≠ .rowTerm then .done ⟨.error, i, d, row⟩
    else .column (i + 1) eToken text d
  else if last ∧ eToken ≠ .rowTerm then .done ⟨.error, i, d, row⟩
  else if ¬last ∧ eToken ≠ .fieldTerm then .done ⟨.error, i, d, row⟩
  else if last then .column (i + 1) eToken [] d
  else
    let (eToken, text, d) := getToken f d
    if i + 1 < t.attrTypes.length ∧ t.added i then .column (i + 2) eToken text d
    else .column (i + 1) eToken text d

/-- The loop of `ReadOneRecord` over the columns; every iteration takes at least one. -/
def readLoop (f : Format) (t : Table) :
    Nat → Nat → DataToken → Bytes → DataFile → Row → ReadEnd
  | 0, i, _, _, d, row => ⟨.record, i, d, row⟩
  | fuel + 1, i, eToken, text, d, row =>
      if t.attrTypes.length ≤ i then ⟨.record, i, d, row⟩
      else
        match eToken with
        | .eof => ⟨.endOfFile, i, d, row⟩
        | .value =>
            let row := t.setAttr i text .nts row
            let (eToken, _, d) := getToken f d
            let i := if i + 1 < t.attrTypes.length ∧ t.added (i + 1) then i + 1 else i
            match readBehind f t i eToken d row with
            | .done r => r
            | .column i eToken text d => readLoop f t fuel i eToken text d row
        | .rowTerm | .fieldTerm =>
            let row := t.setAttr i [] .nullData row
            match readBehind f t i eToken d row with
            | .done r => r
            | .column i eToken text d => readLoop f t fuel i eToken text d row

/-- `iloDataFile::ReadOneRecord` into a slot. -/
def readOneRecord (f : Format) (t : Table) (d : DataFile) (row : Row) : ReadEnd :=
  let (eToken, text, d) := getToken f d
  let i := if 1 < t.attrTypes.length ∧ t.added 0 then 1 else 0
  readLoop f t (t.attrTypes.length + 1) i eToken text d row

end Natc.Ploader
