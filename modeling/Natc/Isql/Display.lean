import Natc.Isql.BindCalls

/-!
# The display of rows

`FetchSelectStmt` prints a row in passes: each pass prints a piece of every column that is not
finished, and blanks for the others. `PrintHeader` decides how many columns a line has.
-/

namespace Natc.Isql.Display

/-! ## Columns -/

/-- The types of the columns that `SelectExecute` binds. -/
inductive SqlType where
  | char | varchar | smallint | integer | numeric | decimal | float | double | real | bigint
  | interval | typeDate | date | nativeTimestamp | bytes | nibble | null
  deriving DecidableEq, Repr

namespace SqlType

/-- The types whose values are printed in pieces. -/
def isText : SqlType → Bool
  | char | varchar | bytes | nibble => true
  | _ => false

/-- The types whose values are cut off at the size of the column. -/
def isPlain : SqlType → Bool
  | numeric | decimal | smallint | integer | bigint | float | typeDate | date | nativeTimestamp
  | interval => true
  | _ => false

end SqlType

/-- A value of a row with its column. `number` is the text of a DOUBLE or a REAL that is not
NULL. -/
structure Cell where
  m_Name : Bytes
  m_Type : SqlType
  m_Precision : Nat
  m_CValue : Bytes
  number : Option Bytes
  deriving DecidableEq, Repr

/-- A cell with `ColSize`. -/
structure Field where
  m_Name : Bytes
  m_Type : SqlType
  size : Nat
  m_CValue : Bytes
  number : Option Bytes
  deriving DecidableEq, Repr

/-- `ColSize[i]`; `sColSize` is 0 if the size is not limited. -/
def colSize (sColSize : Nat) (m_Type : SqlType) (m_Precision : Nat) : Nat :=
  match m_Type with
  | .char | .varchar => if 0 < sColSize ∧ sColSize < m_Precision then sColSize else m_Precision
  | .smallint | .integer | .numeric | .decimal | .float => 11
  | .double => 22
  | .real => 13
  | .bigint | .interval => 20
  | .typeDate | .date => 20
  | .nativeTimestamp => 30
  | .bytes | .nibble => m_Precision * 2
  | .null => 0

def Cell.field (sColSize : Nat) (c : Cell) : Field where
  m_Name := c.m_Name
  m_Type := c.m_Type
  size := colSize sColSize c.m_Type c.m_Precision
  m_CValue := c.m_CValue
  number := c.number

/-- The value as it is printed; `removeLastSpace` takes the blanks from a CHAR. -/
def Field.text (f : Field) : Bytes :=
  if f.m_Type = .char then f.m_CValue.rdropWhile fun c => c = space else f.m_CValue

/-! ## The buffer -/

/-- `m_Spool.m_Buf` in front of `j`, and whether the indices used so far lie in the buffer. -/
structure Line where
  text : Bytes
  inside : Bool
  deriving DecidableEq, Repr

/-- A text with blanks behind it. -/
def padded (n : Nat) (s : Bytes) : Bytes :=
  s ++ List.replicate (n - s.length) space

namespace Line

variable (len : Nat) (l : Line)

def new : Line :=
  ⟨[], true⟩

/-- `m_Buf[j++] = c`. -/
def write (c : UInt8) : Line :=
  ⟨l.text ++ [c], l.inside && l.text.length < len⟩

def writes (s : Bytes) : Line :=
  s.foldl (write len) l

/-- `m_Buf[j]` is written, and `j` stays. -/
def touch : Line :=
  { l with inside := l.inside && l.text.length < len }

/-- `m_Buf[j-1]`. -/
def last : UInt8 :=
  l.text.getLast?.getD 0

/-- `m_Buf[j-1]` is read. -/
def readLast : Line :=
  { l with inside := l.inside && l.text ≠ [] }

/-- The end of a line, and its NUL. -/
def finish : Line :=
  (l.write len newline).touch len

end Line

/-! ## One column -/

section column

variable (len : Nat)

/-- The loop for a value that is cut off: `left` characters are to be written. -/
def plainLoop (value : Bytes) : (left pos : Nat) → Line → Nat × Line
  | 0, pos, l => (pos, l)
  | left + 1, pos, l =>
      if pos < value.length then plainLoop value left (pos + 1) (l.write len (value.getD pos 0))
      else plainLoop value left pos (l.write len space)

/-- The loop for a value that is printed in pieces. The last character is a part of the value only
if the one in front of it has its highest bit set. -/
def textLoop (value : Bytes) : (left pos : Nat) → Line → Nat × Line
  | 0, pos, l => (pos, l)
  | left + 1, pos, l =>
      if pos < value.length then
        if left = 0 then
          if l.last < 128 then (pos, l.readLast.write len space)
          else (pos + 1, l.readLast.write len (value.getD pos 0))
        else textLoop value left (pos + 1) (l.write len (value.getD pos 0))
      else textLoop value left pos (l.write len space)

/-- `PrintWithDouble` and `PrintWithFloat`, and the blanks behind the number. -/
def printNumber (width : Nat) (f : Field) (l : Line) : Line :=
  match f.number with
  | none => l.writes len (List.replicate (f.size + 1) space)
  | some sTmp =>
      let l := (l.writes len (padded width sTmp)).touch len
      if width < f.size then l.writes len (List.replicate (f.size - width + 1) space)
      else l.write len space

/-- A column that is not finished: the new `nDisplayPos`, where `none` is -1, how many characters of
the value are printed, and the line. -/
def showField (f : Field) (pos : Nat) (l : Line) : Option Nat × Nat × Line :=
  match f.m_Type with
  | .char | .bytes | .nibble | .varchar =>
      let r := textLoop len f.text (f.size + 1) pos l
      (if r.1 < f.text.length then some r.1 else none, r.1 - pos, r.2.write len space)
  | .double => (none, 0, printNumber len 22 f l)
  | .real => (none, 0, printNumber len 13 f l)
  | .numeric | .decimal | .smallint | .integer | .bigint | .float | .typeDate | .date
  | .nativeTimestamp | .interval =>
      let r := plainLoop len f.text f.size pos l
      (none, r.1 - pos, r.2.write len space)
  | .null => (none, 0, l.write len space)

/-- A column that is finished. -/
def padField (f : Field) (l : Line) : Line :=
  (l.writes len (List.replicate (if f.m_Type.isPlain then f.size else f.size + 1) space)).write len
    space

end column

/-! ## The header -/

/-- What `PrintHeader` prints for a column. -/
def heading (f : Field) : Bytes :=
  padded f.size f.m_Name ++ (if f.m_Type.isText then [space] else []) ++ [space]

/-- A line of the header, and the number of its dashes less one. -/
structure HeaderLine where
  headings : List Bytes
  LineSize : Nat
  deriving DecidableEq, Repr

/-- `PrintHeader`: the lines of the header. Their numbers of columns are `Header_row`. -/
def printHeader (sLineSize : Nat) (headings : List Bytes) (LineSize : Nat) :
    List Field → List HeaderLine
  | [] => []
  | f :: fields =>
      let headings := headings ++ [heading f]
      let LineSize := LineSize + max f.m_Name.length f.size +
        (if f.m_Type.isText then 1 else 0) + 2
      match fields with
      | [] => [⟨headings, LineSize⟩]
      | g :: _ =>
          if sLineSize < LineSize + g.size then
            ⟨headings, LineSize⟩ :: printHeader sLineSize [] 0 fields
          else printHeader sLineSize headings LineSize fields

def headerRow (sLineSize : Nat) (fields : List Field) : List Nat :=
  (printHeader sLineSize [] 0 fields).map fun line => line.headings.length

/-! ## Rows -/

/-- The test `Header_row[q] > p++`: how many lines end in front of the column, the rest of
`Header_row` from `q` on, and `p`. It is `none` behind the last entry. -/
def breaks : List Nat → Nat → Option (Nat × List Nat × Nat)
  | [], _ => none
  | h :: rest, p =>
      if p < h then some (0, h :: rest, p + 1)
      else (breaks rest 0).map fun r => (r.1 + 1, r.2)

/-- A column in a pass: the line of the pass, the offset, and the part of the value that is printed
there. -/
structure Shown where
  group : Nat
  offset : Nat
  piece : Bytes
  deriving DecidableEq, Repr

/-- What a pass leaves: `nDisplayPos` and what is shown of each column, and the lines. -/
structure Pass where
  columns : List (Option Nat × Option Shown)
  lines : List Line
  deriving DecidableEq, Repr

/-- The columns of a pass: line `q`, the rest of `Header_row` from `q` on, `p`, and the line. -/
def passLoop (len q : Nat) (rest : List Nat) (p : Nat) (l : Line) :
    List (Field × Option Nat) → Option Pass
  | [] => some ⟨[], [l.finish len]⟩
  | (f, none) :: fields =>
      (passLoop len q rest p (padField len f l) fields).map fun pass =>
        { pass with columns := (none, none) :: pass.columns }
  | (f, some pos) :: fields =>
      match breaks rest p with
      | none => none
      | some (n, rest, p) =>
          let start := if n = 0 then l else Line.new
          let shown := showField len f pos start
          let line := shown.2.2
          let ended := if n = 0 then [] else
            l.finish len :: List.replicate (n - 1) (Line.new.finish len)
          let place : Shown := ⟨q + n, start.text.length,
            (line.text.drop start.text.length).take shown.2.1⟩
          (passLoop len (q + n) rest p line fields).map fun pass =>
            ⟨(shown.1, some place) :: pass.columns, ended ++ pass.lines⟩

/-- The passes of a row, at most so many. -/
def rowLoop (len : Nat) (Header_row : List Nat) :
    (fuel : Nat) → List (Field × Option Nat) → Option (List Pass)
  | 0, _ => none
  | fuel + 1, fields =>
      match passLoop len 0 Header_row 0 Line.new fields with
      | none => none
      | some pass =>
          -- `bRowPrintComplete`
          if pass.columns.all fun c => c.1 = none then some [pass]
          else (rowLoop len Header_row fuel
            ((fields.map Prod.fst).zip (pass.columns.map Prod.fst))).map fun passes =>
              pass :: passes

/-- The passes for a row. -/
def row (len sLineSize fuel : Nat) (fields : List Field) : Option (List Pass) :=
  rowLoop len (headerRow sLineSize fields) fuel (fields.map fun f => (f, some 0))

end Natc.Isql.Display
