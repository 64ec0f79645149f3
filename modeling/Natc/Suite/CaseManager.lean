import Natc.Lib.Lines
import Natc.Staf

/-!
# Loading a test suite

A suite file lists test cases and further suite files, one a line, with marks and platforms.
`CaseManager::load` reads it and the suites in it into one list of cases.
-/

namespace Natc.Suite

open Lib

def LINE_BUFFER : Nat := 1024

inductive CaseType where
  | SQL | TS | TL | XML
  deriving DecidableEq, Repr

inductive CaseMark where
  | RUNABLE | NOTRUNABLE | RUNSKIP
  deriving DecidableEq, Repr

def PLAT_OFF : Int := 0

def PLAT_ON : Int := 1

structure CaseInfo where
  caseName : Text
  caseFlag : Int
  casePlatformName : Text
  caseComment : Text
  caseType : Option CaseType
  caseMark : CaseMark
  tsName : Text
  deriving DecidableEq, Repr

/-- What a load depends on: the strings of the framework, the environment, the files, the names in
the skip map, and what an uninitialised `caseInfo` holds. -/
structure Context where
  staf : Staf
  sEnvCASE : Text
  sEnvCASE_USER : Text
  fopen : Text → Option Text
  aSkipMap : List Text
  uninitialised : CaseInfo

/-- The members of the manager; `mCaseList` is the list that is filled. -/
structure CaseManager where
  mCaseList : List CaseInfo
  mPlatformName : Text
  mIsSetPlatformInfo : Int
  mFindLevel : Nat
  deriving DecidableEq, Repr

/-- The name ends where the word occurs first. -/
def endsIn (aCaseName word : Text) : Bool :=
  (indexOf? word aCaseName).any fun sPos => aCaseName.length - sPos = word.length

def getcasetype (aCaseName : Text) : Option CaseType :=
  if endsIn aCaseName ".ts".toList then some .TS
  else if endsIn aCaseName ".tl".toList then some .TL
  else if endsIn aCaseName ".sql".toList then some .SQL
  else if endsIn aCaseName ".xml".toList then some .XML
  else none

def strstr (s word : Text) : Bool := (indexOf? word s).isSome

/-- A character of `sBuffer`, which is zero behind the line. -/
def charAt (sBuffer : Text) (i : Nat) : Char := sBuffer.getD i '\x00'

/-- What the scan of a line finds. `platform` is the last platform in brackets, with its flag. -/
structure Line where
  disabled : Bool
  sLine : Text
  platform : Option (Text × Int)
  sCaseComment : Text
  deriving DecidableEq, Repr

/-- The platform in brackets from position `i` on, and the position behind it. -/
def scanPlatform (sBuffer : Text) (i : Nat) : (Text × Int) × Nat :=
  let sFirst := charAt sBuffer (i + 1)
  let name := (sBuffer.drop (i + 2)).takeWhile (· ≠ ']')
  let sPlatformName := if sFirst = '^' then name else if sFirst = '\x00' then [] else sFirst :: name
  ((sPlatformName, if sFirst = '^' then PLAT_ON else PLAT_OFF), i + 3 + name.length)

/-- The loop over the characters of a line; `none` if it reads behind the buffer. -/
def scanFrom (sBuffer : Text) : Nat → Nat → Line → Option Line
  | 0, _, line => some line
  | fuel + 1, i, line =>
      if sBuffer.length ≤ i then some line
      else
        let first := charAt sBuffer i = '#' ∧ i = 0
        let line := if first then { line with disabled := true } else line
        let i := if first then 1 else i
        let c := charAt sBuffer i
        if c = ' ' ∨ c = '!' ∨ c = '\t' then scanFrom sBuffer fuel (i + 1) line
        else
          let scanned := scanPlatform sBuffer i
          let line := if c = '[' then { line with platform := some scanned.1 } else line
          let i := if c = '[' then scanned.2 else i
          let c := charAt sBuffer i
          if LINE_BUFFER ≤ i then none
          else if c = '#' then
            some { line with sCaseComment := (sBuffer.drop i).takeWhile (· ≠ '\n') }
          else if (c = '-' ∧ i = 0) ∨ c = '\n' then some line
          else
            scanFrom sBuffer fuel (i + 1)
              (if c = '\x00' then line else { line with sLine := line.sLine ++ [c] })

def scanLine (sBuffer : Text) : Option Line :=
  scanFrom sBuffer sBuffer.length 0 ⟨false, [], none, []⟩

/-- The lines that are read of a file. One that begins with a zero byte ends the reading. -/
def fileLines (content : Text) : List Text :=
  ((pieces (LINE_BUFFER - 1) content).map (·.takeWhile (· ≠ '\x00'))).takeWhile (· ≠ [])

/-- The directory of a file, with its separator. A separator in front of everything is not found. -/
def dirOf (aFileName : Text) : Text :=
  match aFileName.tail.reverse.findIdx? (· = '/') with
  | some k => aFileName.take (aFileName.length - k)
  | none => []

/-- A case is listed in the skip map by its name below the case directories. -/
def Context.listed (ctx : Context) (caseName : Text) : Bool :=
  let sSkipData := ctx.staf.replace (ctx.staf.replace caseName ctx.sEnvCASE []) ctx.sEnvCASE_USER []
  let sSkipData := if sSkipData.take 1 = ['/'] then sSkipData.drop 1 else sSkipData
  ctx.aSkipMap.contains sSkipData

/-- The variables of a load that keep their values from line to line. -/
structure Locals where
  sPlatformName : Text
  sFlag : Int
  mCaseInfo : CaseInfo

/-- A platform of its own for a line becomes that of the manager. -/
def CaseManager.setPlatform (m : CaseManager) (aCurDepth : Nat) (l : Locals) : CaseManager :=
  { m with
    mPlatformName := l.sPlatformName
    mIsSetPlatformInfo := l.sFlag
    mFindLevel := aCurDepth }

def CaseInfo.withPlatform (info : CaseInfo) (name : Text) (flag : Int) : CaseInfo :=
  { info with casePlatformName := name, caseFlag := flag }

/-- The four tests that choose the platform of a case, one after the other. -/
def choosePlatform (aCurDepth : Nat) (m : CaseManager) (l : Locals) : CaseManager × CaseInfo :=
  let sTagged := l.sPlatformName ≠ []
  let info := l.mCaseInfo
  let (m, info) :=
    if sTagged ∧ m.mPlatformName = [] then
      (m.setPlatform aCurDepth l, info.withPlatform l.sPlatformName l.sFlag)
    else (m, info)
  let info :=
    if m.mFindLevel < aCurDepth ∧ m.mPlatformName ≠ [] then
      info.withPlatform m.mPlatformName m.mIsSetPlatformInfo
    else info
  let (m, info) :=
    if aCurDepth ≤ m.mFindLevel ∧ ¬ sTagged then
      ({ m with mPlatformName := [], mIsSetPlatformInfo := PLAT_OFF }, info.withPlatform [] PLAT_OFF)
    else (m, info)
  if aCurDepth ≤ m.mFindLevel ∧ sTagged then
    (m.setPlatform aCurDepth l, info.withPlatform l.sPlatformName l.sFlag)
  else (m, info)

/-- Why a load does not return. -/
inductive LoadFault where
  | outOfFuel
  /-- A buffer is read or written behind its end. -/
  | overflow
  deriving DecidableEq, Repr

section Load

variable (ctx : Context)

/-- The case of a line, as it is put on the list. -/
def lineCase (aFileName : Text) (line : Line) (sTmp : Text) (sCaseType : CaseType)
    (info : CaseInfo) : CaseInfo :=
  { info with
    caseName := sTmp
    caseComment := line.sCaseComment
    tsName := aFileName
    caseType := some sCaseType
    caseMark := if ctx.listed sTmp then .RUNSKIP else info.caseMark }

/-- The variables behind the scan of a line. -/
def Locals.scanned (l : Locals) (aMark : CaseMark) (line : Line) : Locals where
  sPlatformName := (line.platform.map Prod.fst).getD l.sPlatformName
  sFlag := (line.platform.map Prod.snd).getD l.sFlag
  mCaseInfo := { l.mCaseInfo with caseMark := if line.disabled then .NOTRUNABLE else aMark }

/-- The loop over the lines of a file. `load` is the recursive call, for file, depth and mark. -/
def loadLines (load : Text → Nat → CaseMark → CaseManager → Except LoadFault CaseManager)
    (aFileName : Text) (aCurDepth : Nat) (aMark : CaseMark) :
    List Text → Locals → CaseManager → Except LoadFault CaseManager
  | [], _, m => .ok m
  | sBuffer :: lines, l, m =>
      match scanLine sBuffer with
      | none => .error .overflow
      | some line =>
          let l := l.scanned aMark line
          let sTmp := dirOf aFileName ++ line.sLine
          if line.sLine = [] then loadLines load aFileName aCurDepth aMark lines l m
          else if LINE_BUFFER ≤ sTmp.length then .error .overflow
          else if strstr line.sLine "TestSuiteDescription".toList then
            loadLines load aFileName aCurDepth aMark lines l m
          else if !strstr line.sLine ['.'] then
            loadLines load aFileName aCurDepth aMark lines { l with sPlatformName := [] } m
          else
            let (m, info) := choosePlatform aCurDepth m l
            match getcasetype sTmp with
            | none =>
                loadLines load aFileName aCurDepth aMark lines { l with mCaseInfo := info } m
            | some sCaseType =>
                let info := lineCase ctx aFileName line sTmp sCaseType info
                let m := { m with mCaseList := m.mCaseList ++ [info] }
                if strstr line.sLine ".ts".toList || strstr line.sLine ".tl".toList then
                  match load sTmp (aCurDepth + 1) info.caseMark m with
                  | .error fault => .error fault
                  | .ok m => loadLines load aFileName aCurDepth aMark lines ⟨[], l.sFlag, info⟩ m
                else loadLines load aFileName aCurDepth aMark lines ⟨[], l.sFlag, info⟩ m

/-- The case of the file a load begins with. -/
def rootCase (aFileName : Text) (sCaseType : CaseType) (aMark : CaseMark) : CaseInfo where
  caseName := aFileName
  caseFlag := 1
  casePlatformName := []
  caseComment := []
  caseType := some sCaseType
  caseMark := if ctx.listed aFileName then .RUNSKIP else aMark
  tsName := aFileName

/-- `load` with a bound on the depth of its recursion. A file that cannot be opened is passed over. -/
def load : Nat → Text → Nat → CaseMark → CaseManager → Except LoadFault CaseManager
  | 0, _, _, _, _ => .error .outOfFuel
  | fuel + 1, aFileName, aCurDepth, aMark, m =>
      let readFile := fun info m =>
        match ctx.fopen aFileName with
        | none => .ok m
        | some content =>
            loadLines ctx (load fuel) aFileName aCurDepth aMark (fileLines content)
              ⟨[], PLAT_OFF, info⟩ m
      if LINE_BUFFER ≤ aFileName.length then .error .overflow
      else if aCurDepth = 0 then
        let m := { m with mPlatformName := [], mIsSetPlatformInfo := 0 }
        match getcasetype aFileName with
        | none => .ok m
        | some sCaseType =>
            let info := rootCase ctx aFileName sCaseType aMark
            let m := { m with mCaseList := m.mCaseList ++ [info] }
            if sCaseType = .SQL ∨ sCaseType = .XML then .ok m else readFile info m
      else readFile ctx.uninitialised m

end Load

/-- `runnable`, for the platforms that the platform manager knows of this machine. -/
def runnable (contains : Text → Bool) (aIn : CaseInfo) : Bool :=
  if aIn.caseMark = .NOTRUNABLE then false
  else if aIn.caseMark = .RUNSKIP then false
  else if aIn.casePlatformName = [] then true
  else if aIn.caseFlag = PLAT_ON then !contains aIn.casePlatformName
  else if aIn.caseFlag = PLAT_OFF then contains aIn.casePlatformName
  else true

end Natc.Suite
