import Natc.Lib.Lines
import Natc.Lib.Tokens
import Mathlib.Algebra.Order.Ring.Int

/-!
# TDX files

`Servicer::saveTDX` writes what the laborers recorded for a TDX file, each entry behind a prefix
with its time and its process. `ReadFile.readFile` of the error case manager reads the file twice
and fills a table with it, one row a line.
-/

namespace Natc.Ecm

open Lib

/-- What a laborer records: the time and the process of the prefix, and the text behind it. -/
structure Entry where
  time : Nat
  process : Nat
  text : Text

section SaveTDX

/-- `%d`. -/
def decimal (n : Nat) : Text := Nat.toDigits 10 n

def startMark : Text := "&^<@!START!@>".toList

/-- `Laborer::makeTdxPrefix`. -/
def Entry.makeTdxPrefix (e : Entry) : Text :=
  startMark ++ ['&', '^'] ++ decimal e.time ++ ['&', '^'] ++ 'P' :: decimal e.process ++ ['&', '^']

def Entry.recorded (e : Entry) : Text := e.makeTdxPrefix ++ e.text

def endMark : Text := "<@!START!@>".toList

/-- `Servicer::saveTDX`; `fprintf` writes the data up to the first NUL. -/
def saveTDX (es : List Entry) : Text :=
  (es.flatMap Entry.recorded).takeWhile (· ≠ '\x00') ++ '\n' :: endMark

end SaveTDX

section Java

/-- The results of `readLine` up to the end of the file. -/
def readLines : Text → List Text
  | [] => []
  | '\r' :: '\n' :: cs => [] :: readLines cs
  | c :: cs => if c = '\n' ∨ c = '\r' then [] :: readLines cs else consHead c (readLines cs)

/-- `new StringTokenizer( line, "&^" )`. -/
def tokenize (line : Text) : List Text := tokens (fun c => c == '&' || c == '^') line

def digits (s : Text) : Option Nat :=
  if s ≠ [] ∧ s.all Char.isDigit then some (Nat.ofDigitChars 10 s 0) else none

/-- `Integer.parseInt`; `none` is a NumberFormatException. -/
def parseInt : Text → Option Int
  | '-' :: s => (digits s).bind fun n => if n ≤ 2 ^ 31 then some (-n) else none
  | '+' :: s => (digits s).bind fun n => if n < 2 ^ 31 then some n else none
  | s => (digits s).bind fun n => if n < 2 ^ 31 then some n else none

/-- `String.valueOf`. -/
def valueOf (n : Int) : Text := if n < 0 then '-' :: decimal n.natAbs else decimal n.natAbs

/-- `Vector.setElementAt`; `none` is an ArrayIndexOutOfBoundsException. -/
def setElementAt (v : List Text) (x : Text) (i : Int) : Option (List Text) :=
  if 0 ≤ i ∧ i < v.length then some (v.set i.toNat x) else none

end Java

namespace ReadFile

def isStart (line : Text) : Bool := startMark.isPrefixOf line

/-- The variables of the first loop. -/
structure Counts where
  max_process : Int
  total_line_cnt : Int
  cur_process : Int

/-- The body of the first loop. -/
def count (s : Counts) (line : Text) : Counts :=
  let cur_process := match (if isStart line then (tokenize line)[2]? else none) with
    | some strToken => (parseInt (strToken.drop 1)).getD s.cur_process
    | none => s.cur_process
  ⟨if isStart line then max s.max_process cur_process else s.max_process,
    s.total_line_cnt + 1, cur_process⟩

/-- The variables of the second loop. -/
structure View where
  tableData : List Text
  cur_line : Int
  cur_process : Int
  cur_time : Int

/-- One token of a line with the start mark; `none` is an exception that ends the loop. -/
def viewToken (s : View) : Nat → Text → Option View
  | 1, strToken => match parseInt strToken with
      | some t => some { s with
          cur_time := t
          tableData := (setElementAt s.tableData (valueOf t) s.cur_line).getD s.tableData }
      | none => some s
  | 2, strToken => some { s with
      cur_process := (parseInt ((strToken.drop 1).take 1)).getD s.cur_process }
  | 3, strToken => (setElementAt s.tableData strToken (s.cur_line + s.cur_process + 1)).map
      fun v => { s with tableData := v }
  | _, _ => some s

/-- The tokens from number `i` on; false when an exception ends the loop. -/
def viewTokens : Nat → List Text → View → View × Bool
  | _, [], s => (s, true)
  | i, strToken :: stok, s => match viewToken s i strToken with
      | some s' => viewTokens (i + 1) stok s'
      | none => (s, false)

/-- The body of the second loop; `strBuf` is never filled. -/
def viewLine (s : View) (line : Text) : View × Bool :=
  if isStart line then viewTokens 0 (tokenize line) s
  else match setElementAt s.tableData (valueOf s.cur_time) s.cur_line with
    | none => (s, false)
    | some v => match tokenize line with
      | [] => ({ s with tableData := v }, false)
      | strToken :: _ => match setElementAt v strToken (s.cur_line + s.cur_process + 1) with
        | none => ({ s with tableData := v }, false)
        | some v' => ({ s with tableData := v' }, true)

def viewLines (add_row : Int) : List Text → View → View
  | [], s => s
  | line :: lines, s => match viewLine s line with
      | (s', true) => viewLines add_row lines { s' with cur_line := s'.cur_line + add_row }
      | (s', false) => s'

end ReadFile

/-- The fields that `readFile` fills. -/
structure ReadFile where
  max_process : Int
  total_line_cnt : Int
  tableData : List Text

/-- `ReadFile.readFile`. -/
def readFile (file : Text) : ReadFile :=
  let lines := readLines file
  let c := lines.foldl ReadFile.count ⟨0, -1, 0⟩
  let size := ((c.total_line_cnt * (c.max_process + 2)).bmod (2 ^ 32)).toNat
  let s := ReadFile.viewLines (c.max_process + 2) lines
    ⟨List.replicate size [], 0, c.cur_process, 0⟩
  ⟨c.max_process, c.total_line_cnt, s.tableData⟩

section Rows

/-- A row of the table. -/
structure Row where
  time : Nat
  process : Nat
  line : Text

/-- The lines of a text; the newline behind the last one belongs to it. -/
def textLines : Text → List Text
  | [] => [[]]
  | ['\n'] => [[]]
  | c :: cs => if c = '\n' then [] :: textLines cs else consHead c (textLines cs)

/-- One row for each text line. -/
def Entry.rows (e : Entry) : List Row := (textLines e.text).map (⟨e.time, e.process, ·⟩)

/-- The time in column 0 and the line in the column of the process. -/
def Row.cells (max_process : Nat) (r : Row) : List Text :=
  decimal r.time :: (List.range (max_process + 1)).map fun p => if p = r.process then r.line else []

def maxProcess (es : List Entry) : Nat := (es.map Entry.process).foldr max 0

/-- Reading the file of the entries gives their rows, in the order of the file. -/
structure RoundTrip (es : List Entry) : Prop where
  columns : (readFile (saveTDX es)).max_process = maxProcess es
  rows : (readFile (saveTDX es)).tableData =
    (es.flatMap Entry.rows).flatMap (Row.cells (maxProcess es))

end Rows

end Natc.Ecm
