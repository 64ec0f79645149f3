import Natc.Lib.Lines
import Natc.Lib.Machine
import Mathlib.Data.List.AList
import Mathlib.Data.List.Sort
import Mathlib.Logic.Function.Basic
import Mathlib.Algebra.Group.Nat.Defs
import Mathlib.Algebra.Ring.Int.Defs

/-!
# Golden runs of the Perl harness

A run in LST mode prints the lines that its processes recorded into the `.lst` file. A later run
loads the file, which is cut into sectors at its SECTOR headers, and compares its own output with
them while it executes: `ExecSQL.pm` hands the lines of the script to the processes, `isql.pm`
executes them, and `RepTL.pm` loads the file and judges the sectors.
-/

namespace Natc.Harness.Golden

open Lib

section Script

/-- The lines of a script, without IGNORE and KILL_CLIENT. A `line` is any other command or
statement; what the processes record for it is given with the run. -/
inductive Item where
  | PROCESS (key mess : Text)
  | SECTOR (parm mess : Text)
  | PWAIT (cs : List Text)
  | line

/-- What the parser can hand on: the parameter ends in front of the first semicolon. -/
def Item.Plain : Item → Prop
  | .PROCESS _ mess => '\n' ∉ mess
  | .SECTOR parm mess =>
    '\n' ∉ parm ∧ '\n' ∉ mess ∧ ';' ∉ parm ∧ ¬ "IGNORE".toList <:+: parm
  | _ => True

instance Item.decidablePlain : (i : Item) → Decidable i.Plain
  | .PROCESS _ mess => inferInstanceAs (Decidable ('\n' ∉ mess))
  | .SECTOR parm mess => inferInstanceAs (Decidable
      ('\n' ∉ parm ∧ '\n' ∉ mess ∧ ';' ∉ parm ∧ ¬ "IGNORE".toList <:+: parm))
  | .PWAIT _ => .isTrue trivial
  | .line => .isTrue trivial

structure Script where
  items : List Item
  plain : ∀ i ∈ items, i.Plain

/-- A `--+SECTOR` command in the queue of a process, with the number it got. -/
structure Header where
  q_sct : Nat
  parm : Text
  mess : Text

def byATC : Text := "BY ATC".toList

def sectorMark : Text := "--+SECTOR".toList

namespace Header

/-- The command as it is queued. -/
def text (h : Header) : Text :=
  sectorMark ++ ' ' :: (Nat.toDigits 10 h.q_sct ++
    ((if h.parm = [] ∨ h.parm = ['0'] then [] else ',' :: h.parm) ++ ';' :: h.mess))

def bar : Text := '+' :: (List.replicate 70 '-' ++ ['+'])

/-- What `ts_SECTOR` records for the command; the headers the harness adds stand in a frame. -/
def lines (h : Header) : List Text :=
  if byATC <:+: h.mess then [[' '], bar, h.text, bar, [' ']] else [h.text]

end Header

/-- An entry of the queue `IN` of a process. -/
inductive Entry where
  | SECTOR (h : Header)
  | other

def P0 : Text := "P0".toList

/-- The processes in the order of their creation, with their queues. -/
structure Dispatch where
  iSQL_pool : List (Text × List Entry)
  current_isql : Text
  q_sct : Nat

namespace Dispatch

def keys (d : Dispatch) : List Text := d.iSQL_pool.map Prod.fst

def push (d : Dispatch) (key : Text) (e : Entry) : Dispatch :=
  { d with iSQL_pool :=
      d.iSQL_pool.map fun p => if p.1 = key then (p.1, p.2 ++ [e]) else p }

def ts_SECTOR (d : Dispatch) (parm mess : Text) : Dispatch :=
  { d.push d.current_isql (.SECTOR ⟨d.q_sct, parm, mess⟩) with q_sct := d.q_sct + 1 }

/-- A new process starts with a header of its own; for one that exists a header is queued. -/
def ts_PROCESS (d : Dispatch) (key mess : Text) : Dispatch :=
  if d.keys.contains key then
    { d with current_isql := key }.ts_SECTOR [] byATC
  else
    ({ d with
      iSQL_pool := d.iSQL_pool ++ [(key, [])]
      current_isql := key }.ts_SECTOR [] (mess ++ ' ' :: byATC)).push key .other

/-- The command goes to `P0`, and a mark to the processes it names, or to all. A name that is not
in the pool gets a queue there, which is dropped when the process is created. -/
def ts_PWAIT (d : Dispatch) (cs : List Text) : Dispatch :=
  let d := { d with current_isql := P0 }.push P0 .other
  (if cs = [] then d.keys else cs).foldl (fun d key => if key = P0 then d else d.push key .other) d

def item (d : Dispatch) : Item → Dispatch
  | .PROCESS key mess => d.ts_PROCESS key mess
  | .SECTOR parm mess => d.ts_SECTOR parm mess
  | .PWAIT cs => d.ts_PWAIT cs
  | .line => d.push d.current_isql .other

end Dispatch

namespace Script

/-- A script is handed out from a first process `P0` on. -/
def dispatch (script : Script) : Dispatch :=
  script.items.foldl Dispatch.item ((⟨[], [], 0⟩ : Dispatch).ts_PROCESS P0 [])

def is_parallel (script : Script) : Bool :=
  script.items.any fun
    | .PROCESS _ _ => true
    | _ => false

def keys (script : Script) : List Text := script.dispatch.keys

/-- The queue of a process. -/
def queue (script : Script) (key : Text) : List Entry :=
  (script.dispatch.iSQL_pool.lookup key).getD []

end Script

end Script

section Run

/-- What the processes record: for every process and every entry of its queue the lines. -/
structure Outputs where
  lines : Text → Nat → List Text
  plain : ∀ key i, ∀ l ∈ lines key i, '\n' ∉ l

/-- A queue entry with what it records. -/
inductive Act where
  | SECTOR (h : Header)
  | lines (ls : List Text)

def Entry.act (ls : List Text) : Entry → Act
  | .SECTOR h => .SECTOR h
  | .other => .lines ls

/-- The queue of a process with what a run records for its entries. -/
def Script.acts (script : Script) (out : Outputs) (key : Text) : List Act :=
  (script.queue key).mapIdx fun i e => e.act (out.lines key i)

/-- `s/^\. //`: a recorded line as it is printed, without the mark that stands in front of what
came from isql. -/
def shown (l : Text) : Text := if ['.', ' '] <+: l then l.drop 2 else l

/-- A key of the hash of expected sectors, a number that Perl read from a header. -/
inductive SectKey where
  | num (n : Int)
  | inf
  | negInf
  | nan
  deriving DecidableEq, Repr

/-- The expected lines of the sectors. -/
abbrev Expect := AList fun _ : SectKey => List Text

namespace Expect

def lst (e : Expect) (k : SectKey) : List Text := (e.lookup k).getD []

end Expect

structure Isql where
  IN : List Act
  OUT : List Text
  /-- In a parallel script, the number of lines that were judged already. -/
  OutIndex : Nat
  Sector_Key : Option Nat
  finished : Bool

namespace Isql

/-- The output is completed by an empty line when the expected one ends with one. -/
def completed (t : Isql) (expect : List Text) : List Text :=
  if expect.getLast? = some [] ∧ t.OUT.getLast?.any (· ≠ []) then t.OUT ++ [[]] else t.OUT

/-- The comparison of `ok_sector_normal`. -/
def same (got expect : List Text) : Bool :=
  got.length == expect.length && (got.zip expect).all fun p => shown p.1 == p.2

/-- `ok_sector_normal`: the process after it, and the result. -/
def ok_sector (is_parallel : Bool) (t : Isql) (expect : List Text) : Isql × Bool :=
  let got := t.completed expect
  if is_parallel then
    ({ t with
      OUT := got
      OutIndex := got.length }, same (got.drop t.OutIndex) expect)
  else
    ({ t with OUT := [] }, same got expect)

end Isql

/-- A run: its processes, the sectors still expected, and the results of the sectors judged. -/
structure Bench where
  isql : Text → Isql
  Expect : Expect
  results : List (Nat × Bool)

namespace Bench

def set (b : Bench) (key : Text) (t : Isql) : Bench :=
  { b with isql := Function.update b.isql key t }

/-- `ok_sector` for a process and its sector. -/
def judge (is_parallel : Bool) (b : Bench) (key : Text) (sector : Nat) : Bench :=
  let r := (b.isql key).ok_sector is_parallel (b.Expect.lst (.num sector))
  { b.set key r.1 with
    Expect := b.Expect.erase (.num sector)
    results := b.results ++ [(sector, r.2)] }

/-- The sector that a process leaves is judged, but not in LST mode. -/
def leave (LST is_parallel : Bool) (b : Bench) (key : Text) : Option Nat → Bench
  | some sector => if LST then b else b.judge is_parallel key sector
  | none => b

/-- The next entry of a process, or the end of its queue. -/
def step (LST is_parallel : Bool) (b : Bench) (key : Text) : Option Bench :=
  let t := b.isql key
  match t.IN with
  | .SECTOR h :: IN =>
    let b := (b.set key { t with
      IN := IN
      Sector_Key := some h.q_sct }).leave LST is_parallel key t.Sector_Key
    -- a header behind which nothing is left is not recorded
    some (if IN = [] then b else
      b.set key { b.isql key with OUT := (b.isql key).OUT ++ h.lines })
  | .lines ls :: IN =>
    some (b.set key { t with
      IN := IN
      OUT := t.OUT ++ ls })
  | [] =>
    if t.finished then none
    else some ((b.set key { t with finished := true }).leave LST is_parallel key t.Sector_Key)

/-- Every process has come to the end of its queue. -/
def Complete (b : Bench) (keys : List Text) : Prop := ∀ key ∈ keys, (b.isql key).finished = true

end Bench

/-- A run of a script; the labels say which process goes on. -/
def Script.run (script : Script) (out : Outputs) (LST : Bool) (e : Expect) :
    Machine Bench Text where
  start := ⟨fun key => ⟨script.acts out key, [], 0, none, false⟩, e, []⟩
  step b key :=
    if script.keys.contains key then b.step LST script.is_parallel key else none

/-- The order of `sort` on names. -/
def nameLE : Text → Text → Bool
  | [], _ => true
  | _ :: _, [] => false
  | c :: cs, d :: ds => c.toNat < d.toNat || c == d && nameLE cs ds

def sortKeys (keys : List Text) : List Text := keys.insertionSort fun a b => nameLE a b = true

/-- `_make_lst` for one process after the other, in the order of their names. -/
def lstFile (keys : List Text) (b : Bench) : Text :=
  (sortKeys keys).flatMap fun key =>
    (b.isql key).OUT.flatMap fun l => shown l ++ ['\n']

end Run

section Load

/-- `\s`. -/
def isSpace (c : Char) : Bool :=
  c == ' ' || c == '\t' || c == '\n' || c == '\r' || c.toNat == 11 || c.toNat == 12

/-- The digits behind an exponent mark. -/
def exponent : Text → Int
  | e :: cs =>
    if e == 'e' || e == 'E' then
      let sign := cs.head? == some '-'
      let digits := (if sign || cs.head? == some '+' then cs.tail else cs).takeWhile Char.isDigit
      if sign then -Nat.ofDigitChars 10 digits 0 else Nat.ofDigitChars 10 digits 0
    else 0
  | [] => 0

/-- `int` of a text without a sign; the numbers are exact here. -/
def intOfText (negative : Bool) (s : Text) : SectKey :=
  if "inf".toList <+: s.map Char.toLower then if negative then .negInf else .inf
  else if "nan".toList <+: s.map Char.toLower then .nan
  else
    let whole := s.takeWhile Char.isDigit
    let rest := s.dropWhile Char.isDigit
    let point := rest.head? == some '.'
    let fraction := if point then rest.tail.takeWhile Char.isDigit else []
    let behind := if point then rest.tail.dropWhile Char.isDigit else rest
    let value := Nat.ofDigitChars 10 (whole ++ fraction) 0
    let shift := if whole ++ fraction = [] then 0 else exponent behind - fraction.length
    let size := if shift < 0 then value / 10 ^ (-shift).toNat else value * 10 ^ shift.toNat
    .num (if negative then -size else size)

/-- The number that the loader takes from the text between `SECTOR` and the last semicolon. Where
no digits stand in front, `$1` is still the whole text. -/
def sectorNumber (group : Text) : SectKey :=
  let digits := group.takeWhile Char.isDigit
  if digits ≠ [] then .num (Nat.ofDigitChars 10 digits 0)
  else if group.head? = some '-' then intOfText true group.tail
  else if group.head? = some '+' then intOfText false group.tail
  else intOfText false group

/-- The sector of a line that the loader takes for a header: `/^\-\-\+SECTOR\s+(.*)\;/`. -/
def headerKey (line : Text) : Option SectKey :=
  let rest := line.drop sectorMark.length
  let group := rest.dropWhile isSpace
  if sectorMark <+: line ∧ rest.head?.any isSpace ∧ ';' ∈ group then
    some (sectorNumber (group.reverse.dropWhile (· ≠ ';')).tail.reverse)
  else none

structure Loader where
  diffs : Expect
  sect_ptr : SectKey
  prev_line : Text

namespace Loader

def push (d : Expect) (k : SectKey) (ls : List Text) : Expect := d.insert k (d.lst k ++ ls)

/-- The last two lines of a sector, which belong to the frame of the header that follows. -/
def lastTwo (lst : List Text) : List Text := [lst.dropLast.getLastD [], lst.getLastD []]

/-- A line of the file. -/
def line (s : Loader) (line : Text) : Loader :=
  match headerKey line with
  | some k =>
    let moved := s.diffs.lst s.sect_ptr
    let diffs :=
      if ['+', '-', '-'] <+: s.prev_line then
        push (s.diffs.insert s.sect_ptr moved.dropLast.dropLast) k (lastTwo moved)
      else s.diffs
    ⟨push diffs k [line], k, line⟩
  | none => ⟨push s.diffs s.sect_ptr [line], s.sect_ptr, line⟩

end Loader

/-- `_load_lst_file_db`. -/
def _load_lst_file_db (file : Text) : Expect :=
  ((chompedLines file).foldl Loader.line
    ⟨(∅ : Expect).insert (.num 0) [], .num 0, []⟩).diffs

end Load

inductive Verdict where
  | PASS | FAIL
  deriving DecidableEq

/-- `report_TC`: the sectors planned against those that passed, and what is still expected. -/
def Bench.report_TC (b : Bench) (plan : Nat) : Verdict :=
  if plan ≠ b.results.countP (·.2) ∨ b.Expect.keys ≠ [] then .FAIL else .PASS

end Natc.Harness.Golden
