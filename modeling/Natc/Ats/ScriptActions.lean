import Natc.Ats.InnerSC
import Natc.Ats.ScriptParser
import Natc.Ats.SetEnv

/-!
# The actions of the grammar

The actions copy their tokens into buffers of `BUFFER_SIZE` characters and look at
the last character of the copy. A run ends at the first copy or index that is out of bounds. What
the actions put into the key map is left out.
-/

namespace Natc.Ats.Script

open Lib Lib.Scanner SetEnv

/-- A copy of some length, or an index. -/
inductive Access where
  | copy (length : Int)
  | index (i : Int)
  deriving DecidableEq, Repr

def Access.inBounds : Access → Bool
  | copy length => 0 ≤ length && length < BUFFER_SIZE
  | index i => 0 ≤ i

/-- A computation up to its first access out of bounds. -/
abbrev Checked := Except Access

def check (a : Access) : Checked Unit := if a.inBounds = true then pure () else throw a

/-- `copyData` of a text from its character `front` on, without `back` characters at its end. -/
def copyData (text : Text) (front back : Nat) : Checked Text := do
  check (.copy (text.length - front - back))
  pure ((text.drop front).take (text.length - front - back))

/-! ## Helpers of the grammar -/

/-- The second loop of `strip`, over the characters from the last one on. -/
def trimEnd (white : Char → Bool) : Text → Checked Text
  | [] => do
      check (.index (-1))
      pure []
  | c :: before => do
      check (.index before.length)
      if white c = true then trimEnd white before else pure (c :: before).reverse

/-- `strip` and `strip3`, which differ in what counts as blank. -/
def stripData (white : Char → Bool) (aData : Text) : Checked Text :=
  if aData = [] then pure []
  else
    let aData := aData.dropWhile white
    if aData = [] then pure [] else trimEnd white aData.reverse

def blank (c : Char) : Bool := c = ' '

def blank3 (c : Char) : Bool := c = ' ' || c = '\n'

def strip (aData : Text) : Checked Text := stripData blank aData

def strip3 (aData : Text) : Checked Text := stripData blank3 aData

/-- A text without a semicolon at its end. -/
def withoutSemicolon (sData : Text) : Text :=
  if sData.getLast? = some ';' then sData.dropLast else sData

/-- `if( sData[strlen(sData) - 1] == ';' )` and what follows. -/
def cutSemicolon (sData : Text) : Checked Text := do
  check (.index (sData.length - 1))
  pure (withoutSemicolon sData)

/-- `strtok`: the first token of a text and what is behind the character that ends it. -/
def strtok (delims : String) (s : Text) : Option (Text × Text) :=
  let s := s.dropWhile fun c => delims.toList.contains c
  if s = [] then none
  else some (s.takeWhile fun c => !delims.toList.contains c,
    (s.dropWhile fun c => !delims.toList.contains c).drop 1)

/-- `strcasecmp( s, word ) == 0`. -/
def sameWord (s : Text) (word : String) : Bool := s.map Char.toUpper = word.toList

/-- What `CONNECT` has behind its first word. -/
def logonData (aData : Text) : Option Text :=
  ((strtok " \t" aData).bind fun p => strtok "\n" p.2).map Prod.fst

/-- The words behind the password: none, or `AS SYSDBA`. -/
def logonRole (pos2 : Text) : Bool :=
  ((strtok " \t" pos2).bind fun p => some ((strtok " \t" p.2).elim true fun q =>
    sameWord q.1 "AS" && (strtok " \t" q.2).any fun r => sameWord r.1 "SYSDBA")).getD false

def parseLogonRule (aData : Text) : Checked Bool :=
  match logonData aData with
  | none => pure false
  | some pos1 =>
      if '/' ∈ pos1 then do
        let _ ← strip (pos1.takeWhile (· ≠ '/'))
        let pos2 ← strip ((pos1.dropWhile (· ≠ '/')).drop 1)
        let pos2 ← cutSemicolon pos2
        pure (logonRole pos2)
      else pure false

/-! ## Actions -/

section Actions

variable (w : StafWords) (known : Text → Bool)

/-- The text of `$i`. -/
def textAt (tokens : List LexToken) (i : Nat) : Text := tokens[i - 1]?.elim [] Token.text

def Part.copy (tokens : List LexToken) (part : Part) : Checked Text :=
  copyData (textAt tokens part.token) part.front part.back

def copyParts (tokens : List LexToken) : List Part → Checked Unit
  | [] => pure ()
  | part :: parts => do
      let _ ← part.copy tokens
      copyParts tokens parts

def recptrCommands : List Text :=
  ["ENABLE".toList, "DISABLE".toList, "WAKEUP".toList, "CLEAR".toList]

/-- The name of the point in `TEST_RECPTR`, which is quoted. -/
def recptrName (sData1 : Text) : Text :=
  w.staf.strip (w.staf.replace (w.staf.replace (w.staf.word sData1 2) ['\''] []) [','] [])

/-- Whether the parser goes on behind the action of `recptr_rule`. -/
def runRecptr (sData1 : Text) : Checked Bool :=
  if (recptrCommands.any fun word => word = w.staf.upperCase (w.staf.word sData1 1)) = true then
    if '\'' ∈ sData1 then do
      let pos ← strip (sData1.dropWhile (· ≠ '\''))
      pure (known (recptrName w (sData1.takeWhile (· ≠ '\'') ++ pos)))
    else pure true
  else pure false

/-- The action for its tokens, up to `YYABORT` as `false`. -/
def Action.run (tokens : List LexToken) : Action → Checked Bool
  | copies parts => do
      copyParts tokens parts
      pure true
  | line part => do
      let sData ← part.copy tokens
      let sData ← strip sData
      let _ ← cutSemicolon sData
      pure true
  | sector => do
      let _ ← copyData (textAt tokens 2) 7 0
      check (.copy 6)
      pure true
  | recptr => do
      let sData1 ← copyData (textAt tokens 2) 0 0
      let sData1 ← strip sData1
      let sData1 ← cutSemicolon sData1
      runRecptr w known sData1
  | object => do
      let _ ← copyData (textAt tokens 1) 0 0
      let sData2 ← copyData (textAt tokens 1) 0 1
      let sData2 ← strip3 sData2
      let _ ← cutSemicolon sData2
      pure true
  | connect => do
      let sData1 ← copyData (textAt tokens 1) 0 0
      let sData1 ← strip sData1
      let key1 := Ats.replace w.staf sData1
      let sData2 ← copyData key1 0 0
      let _ ← parseLogonRule sData2
      pure true

/-- The actions of a parse, `false` if one of them ends it. -/
def runReductions : List Reduction → Checked Bool
  | [] => pure true
  | r :: rs => do
      if ← r.production.action.run w known r.tokens then runReductions rs else pure false

end Actions

/-! ## Scripts -/

/-- A line as `fgets` gives it. -/
structure Line where
  text : Text
  noNul : '\x00' ∉ text
  short : text.length < 65536

/-- The lines of a script, each with the lines of the file that it names if it is `LOAD_SQL`. -/
inductive TestCase where
  | done
  | line (sLine : Line) (loaded rest : TestCase)

section Load

variable (w : StafWords)

def Line.isLoad (sLine : Line) : Bool := sameWord (sLine.text.take 11) "--+LOAD_SQL"

def Line.loadName (sLine : Line) : Text :=
  w.staf.replace (w.staf.strip (sLine.text.drop 12)) [';'] []

/-- The lines around a loaded file. -/
def Line.loadMark (sLine : Line) (word : String) : Text :=
  "# ==> [".toList ++ sLine.loadName w ++ "] ".toList ++ word.toList ++ " <=\n".toList

/-- `Servicer::parseInnerSC`. -/
def parseInnerSC (aData : Text) : Checked Text := do
  let _ ← copyData aData 0 0
  let sData ← copyData (w.staf.strip aData) 0 0
  let _ ← cutSemicolon sData
  pure (Ats.parseInnerSC w.staf aData)

/-- `Servicer::loadCASE`. -/
def TestCase.load : TestCase → Checked Text
  | done => pure []
  | line sLine loaded rest => do
      let text ←
        if sLine.isLoad = true then do
          let aData ← loaded.load
          pure (sLine.loadMark w "BEGIN" ++ aData ++ sLine.loadMark w "END")
        else if isComment w.staf sLine.text = true then pure sLine.text
        else do
          let _ ← parseInnerSC w sLine.text
          pure (loadLine w.staf sLine.text)
      let aData ← rest.load
      pure (text ++ aData)

/-- Loading and parsing a script, `false` if an action ends the parse. -/
def TestCase.run (known : Text → Bool) (s : TestCase) : Checked Bool := do
  let mInData ← s.load w
  runReductions w known (psparse (psLexer mInData))

end Load

end Natc.Ats.Script
