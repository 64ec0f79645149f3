import Natc.Ats.ParseTable
import Natc.Client.Verdict

/-!
# The lists of failed and crashed cases

`Logger` keeps two list files in the result directory, which begin with a header and have a line for
each case. A line is handed to `fprintf` as the format.
-/

namespace Natc.Ats

open Lib

/-- `fprintf` with a format and no argument; `none` if it would look for one. -/
def fprintf : Text → Option Text
  | [] => some []
  | [c] => if c = '%' then none else some [c]
  | c :: d :: cs =>
      if c = '%' then if d = '%' then (fprintf cs).map ('%' :: ·) else none
      else (fprintf (d :: cs)).map (c :: ·)

section Format

theorem fprintf_of_notMem {s : Text} (h : '%' ∉ s) : fprintf s = some s := by
  induction s with
  | nil => rfl
  | cons c cs ih =>
    obtain ⟨hc, hcs⟩ := List.ne_and_not_mem_of_not_mem_cons h
    have hrest := ih hcs
    cases cs with
    | nil => rw [fprintf, if_neg (Ne.symm hc)]
    | cons d cs =>
      rw [fprintf, if_neg (Ne.symm hc), hrest]
      rfl

/-- What is written is shorter than the format unless it is the format. -/
theorem length_fprintf {s t : Text} (h : fprintf s = some t) :
    t.length ≤ s.length ∧ (t.length = s.length → '%' ∉ s) := by
  induction s using fprintf.induct generalizing t with
  | case1 =>
    cases h
    exact ⟨Nat.le_refl _, fun _ => List.not_mem_nil⟩
  | case2 =>
    rw [fprintf, if_pos rfl] at h
    cases h
  | case3 c hc =>
    rw [fprintf, if_neg hc] at h
    cases h
    exact ⟨Nat.le_refl _, fun _ => by simpa using Ne.symm hc⟩
  | case4 cs ih =>
    rw [fprintf, if_pos rfl, if_pos rfl] at h
    obtain ⟨t', ht', rfl⟩ := Option.map_eq_some_iff.mp h
    have hle := (ih ht').1
    constructor
    · simp only [List.length_cons]
      omega
    · intro heq
      simp only [List.length_cons] at heq
      omega
  | case5 d cs hd =>
    rw [fprintf, if_pos rfl, if_neg hd] at h
    cases h
  | case6 c d cs hc ih =>
    rw [fprintf, if_neg hc] at h
    obtain ⟨t', ht', rfl⟩ := Option.map_eq_some_iff.mp h
    obtain ⟨hle, hmem⟩ := ih ht'
    refine ⟨by simpa using hle, fun heq => ?_⟩
    have htail := hmem (by simpa using heq)
    exact fun hin => (List.mem_cons.mp hin).elim (Ne.symm hc) htail

end Format

section Model

/-- The files of `Logger` that a case adds to; `none` where there is no file. -/
structure ListFiles where
  mFAIL : Option Text
  mCRASH : Option Text
  mLSTOUT : Text
  deriving DecidableEq

/-- `logFAIL` and its siblings: the data and a newline. -/
def logLine (file aData : Text) : Option Text :=
  (fprintf aData).map fun written => file ++ written ++ ['\n']

def failDescription : Text :=
  "TestSuiteDescription     =   Test for Test Case where have got FAIL test".toList

def crashDescription : Text :=
  "TestSuiteDescription     =   Test for Test Case where have got CRASH test".toList

def headerRuler : Text := List.replicate 73 '#'

/-- A list file is opened at its end; without the flag it gets a header. -/
def openList (sExist : Bool) (description : Text) (file : Option Text) : Option Text :=
  if sExist then some (file.getD [])
  else
    (logLine (file.getD []) []).bind fun file =>
      (logLine file description).bind fun file => logLine file headerRuler

/-- `Logger::initialize`; all files can be opened. -/
def Logger.initializeLists (files : ListFiles) : Option ListFiles :=
  let sExist := files.mFAIL.isSome
  (openList sExist failDescription files.mFAIL).bind fun mFAIL =>
    -- the flag is not set back in between
    let sExist := sExist || files.mCRASH.isSome
    (openList sExist crashDescription files.mCRASH).map fun mCRASH =>
      ⟨some mFAIL, some mCRASH, files.mLSTOUT⟩

def Logger.logFAIL (files : ListFiles) (aData : Text) : Option ListFiles :=
  files.mFAIL.bind fun file => (logLine file aData).map fun file => { files with mFAIL := some file }

def Logger.logCRASH (files : ListFiles) (aData : Text) : Option ListFiles :=
  files.mCRASH.bind fun file =>
    (logLine file aData).map fun file => { files with mCRASH := some file }

def Logger.logLSTOUT (files : ListFiles) (aData : Text) : Option ListFiles :=
  (logLine files.mLSTOUT aData).map fun file => { files with mLSTOUT := file }

/-- What `enqueueData` is told of a case, and what it reads of the `Servicer`. -/
structure CaseEnd where
  aIn : Text
  aPass : Client.Verdict
  mComment : Text
  mSuite : Text
  mLs : Text
  mRe : Text
  kind : ATSTestKind
  deriving DecidableEq

/-- The line of a case. -/
def CaseEnd.sDebug (c : CaseEnd) : Text :=
  c.aIn ++ " # ".toList ++ Client.cutComment c.mComment ++ " # ".toList ++ c.mSuite

def CaseEnd.sLstOutPath (c : CaseEnd) : Text := c.mLs ++ [' '] ++ c.mRe

/-- The length of `sData` and `sDebug`. -/
def sizeofData : Nat := 1024

/-- `Servicer::enqueueData` behind its message; `none` if a buffer is left or a format looks for an
argument. -/
def enqueueData (files : ListFiles) (c : CaseEnd) : Option ListFiles :=
  if sizeofData ≤ c.aIn.length then none
  else if c.aPass = .pass then some files
  else if sizeofData ≤ c.sDebug.length then none
  else if sizeofData ≤ c.sLstOutPath.length then none
  else
    (Logger.logLSTOUT files c.sLstOutPath).bind fun files =>
      match c.kind with
      | .normal => Logger.logFAIL files c.sDebug
      | .regressive =>
          if c.aPass = .crash then Logger.logCRASH files c.sDebug
          else Logger.logFAIL files c.sDebug
      | .sequential | .full =>
          if c.aPass = .hit then Logger.logFAIL files c.sDebug
          else if c.aPass = .crash then
            (Logger.logFAIL files c.sDebug).bind fun files => Logger.logCRASH files c.sDebug
          else some files
      | .null => some files

/-- Cases one after the other; each has a `Servicer` with a `Logger` of its own. -/
def runCases : ListFiles → List CaseEnd → Option ListFiles
  | files, [] => some files
  | files, c :: cs =>
      (Logger.initializeLists files).bind fun files =>
        (enqueueData files c).bind fun files => runCases files cs

end Model

/-- The verdict belongs into the list of failed cases. -/
def CaseEnd.inFail (c : CaseEnd) : Bool :=
  match c.kind with
  | .normal => c.aPass ≠ .pass
  | .regressive => c.aPass ≠ .pass ∧ c.aPass ≠ .crash
  | .sequential | .full => c.aPass = .hit ∨ c.aPass = .crash
  | .null => false

/-- The verdict belongs into the list of crashed cases. -/
def CaseEnd.inCrash (c : CaseEnd) : Bool :=
  match c.kind with
  | .regressive | .sequential | .full => c.aPass = .crash
  | .normal | .null => false

/-- The lines of the cases that belong into a list. -/
def linesOf (belongs : CaseEnd → Bool) (cs : List CaseEnd) : Text :=
  (cs.filter belongs).flatMap fun c => c.sDebug ++ ['\n']

/-- The header of a list file. -/
def listHeader (description : Text) : Text :=
  '\n' :: description ++ '\n' :: headerRuler ++ ['\n']

/-- A list file as it should be: the header, what followed it before, and the lines of the cases.
Without a case there is a file only if there was one. -/
def listFile (description : Text) (before : Option Text) (belongs : CaseEnd → Bool)
    (cs : List CaseEnd) : Option Text :=
  if cs = [] then before.map (listHeader description ++ ·)
  else some (listHeader description ++ before.getD [] ++ linesOf belongs cs)

/-- The result directory before the cases; a list file that is there has its header. -/
def listsBefore (fail crash : Option Text) (mLSTOUT : Text) : ListFiles :=
  ⟨fail.map (listHeader failDescription ++ ·), crash.map (listHeader crashDescription ++ ·), mLSTOUT⟩

/-- The cases are all run and leave both lists as they should be. -/
def ListsComplete (fail crash : Option Text) (mLSTOUT : Text) (cs : List CaseEnd) : Prop :=
  ∃ files, runCases (listsBefore fail crash mLSTOUT) cs = some files ∧
    files.mFAIL = listFile failDescription fail CaseEnd.inFail cs ∧
    files.mCRASH = listFile crashDescription crash CaseEnd.inCrash cs

/-- The texts of a case fit the buffers, and its line is no format with a conversion. -/
structure CaseEnd.Fits (c : CaseEnd) : Prop where
  case_lt : c.aIn.length < sizeofData
  line_lt : c.aPass ≠ .pass → c.sDebug.length < sizeofData
  path_lt : c.aPass ≠ .pass → c.sLstOutPath.length < sizeofData
  path : c.aPass ≠ .pass → (fprintf c.sLstOutPath).isSome
  line : c.inFail ∨ c.inCrash → '%' ∉ c.sDebug

section Lines

/-- The line of a case for a list, if it belongs there. -/
def lineIf (b : Bool) (aData : Text) : Text := if b then aData ++ ['\n'] else []

theorem linesOf_cons (belongs : CaseEnd → Bool) (c : CaseEnd) (cs : List CaseEnd) :
    linesOf belongs (c :: cs) = lineIf (belongs c) c.sDebug ++ linesOf belongs cs := by
  cases hb : belongs c <;> simp [linesOf, lineIf, hb]

def logIf (b : Bool) (file aData : Text) : Option Text :=
  if b then logLine file aData else some file

theorem logIf_of_notMem {b : Bool} {aData : Text} (h : b → '%' ∉ aData) (file : Text) :
    logIf b file aData = some (file ++ lineIf b aData) := by
  cases b with
  | false => simp [logIf, lineIf]
  | true => simp [logIf, lineIf, logLine, fprintf_of_notMem (h rfl)]

theorem length_logIf {b : Bool} {file aData file' : Text} (h : logIf b file aData = some file') :
    ∃ added : Text, file' = file ++ added ∧ added.length ≤ (lineIf b aData).length ∧
      (added.length = (lineIf b aData).length → b → '%' ∉ aData) := by
  cases b with
  | false =>
    cases h
    exact ⟨[], (List.append_nil _).symm, Nat.zero_le _, fun _ hb => by cases hb⟩
  | true =>
    obtain ⟨written, hwritten, rfl⟩ := Option.map_eq_some_iff.mp h
    obtain ⟨hle, hmem⟩ := length_fprintf hwritten
    refine ⟨written ++ ['\n'], List.append_assoc _ _ _, ?_, fun heq _ => hmem ?_⟩
    · simpa [lineIf] using hle
    · simpa [lineIf] using heq

end Lines

section Run

variable {f k l : Text} {c : CaseEnd} {cs : List CaseEnd}

theorem initialize_open (f k l : Text) :
    Logger.initializeLists ⟨some f, some k, l⟩ = some ⟨some f, some k, l⟩ := rfl

/-- With both lists open the kinds and verdicts come down to the two lists. -/
theorem enqueueData_open (f k l : Text) (c : CaseEnd) :
    enqueueData ⟨some f, some k, l⟩ c =
      if sizeofData ≤ c.aIn.length then none
      else if c.aPass = .pass then some ⟨some f, some k, l⟩
      else if sizeofData ≤ c.sDebug.length then none
      else if sizeofData ≤ c.sLstOutPath.length then none
      else
        (logLine l c.sLstOutPath).bind fun l =>
          (logIf c.inFail f c.sDebug).bind fun f =>
            (logIf c.inCrash k c.sDebug).map fun k => ⟨some f, some k, l⟩ := by
  rw [enqueueData]
  by_cases hpass : c.aPass = .pass
  · rw [if_pos hpass, if_pos hpass]
  · rw [if_neg hpass, if_neg hpass, Logger.logLSTOUT]
    cases logLine l c.sLstOutPath with
    | none => rfl
    | some l' =>
      have hfail : ∀ l, Logger.logFAIL ⟨some f, some k, l⟩ c.sDebug =
          (logLine f c.sDebug).map fun f => ⟨some f, some k, l⟩ := fun _ => rfl
      have hcrash : ∀ f l, Logger.logCRASH ⟨some f, some k, l⟩ c.sDebug =
          (logLine k c.sDebug).map fun k => ⟨some f, some k, l⟩ := fun _ _ => rfl
      cases hkind : c.kind <;> cases hverdict : c.aPass <;>
        simp [CaseEnd.inFail, CaseEnd.inCrash, logIf, hkind, hverdict, hfail, hcrash] at hpass ⊢ <;>
        cases logLine f c.sDebug <;> simp [hcrash]

/-- What a case adds is no longer than its lines, and as long only if everything fits. -/
theorem enqueueData_bound {files : ListFiles} (h : enqueueData ⟨some f, some k, l⟩ c = some files) :
    ∃ inFail inCrash l', files = ⟨some (f ++ inFail), some (k ++ inCrash), l'⟩ ∧
      inFail.length ≤ (lineIf c.inFail c.sDebug).length ∧
      inCrash.length ≤ (lineIf c.inCrash c.sDebug).length ∧
      (inFail.length = (lineIf c.inFail c.sDebug).length →
        inCrash.length = (lineIf c.inCrash c.sDebug).length → c.Fits) := by
  rw [enqueueData_open] at h
  split at h
  · cases h
  · rename_i hcase
    split at h
    · rename_i hpass
      cases h
      refine ⟨[], [], l, by simp, Nat.zero_le _, Nat.zero_le _, fun _ _ => ?_⟩
      have hlists : ¬ (c.inFail ∨ c.inCrash) := by
        cases hkind : c.kind <;> simp [CaseEnd.inFail, CaseEnd.inCrash, hkind, hpass]
      exact ⟨by omega, absurd hpass, absurd hpass, absurd hpass, fun hin => absurd hin hlists⟩
    · split at h
      · cases h
      · rename_i hline
        split at h
        · cases h
        · rename_i hpath
          obtain ⟨l', hl, h⟩ := Option.bind_eq_some_iff.mp h
          obtain ⟨f', hf, h⟩ := Option.bind_eq_some_iff.mp h
          obtain ⟨k', hk, rfl⟩ := Option.map_eq_some_iff.mp h
          obtain ⟨inFail, rfl, hfail, hfailFits⟩ := length_logIf hf
          obtain ⟨inCrash, rfl, hcrash, hcrashFits⟩ := length_logIf hk
          refine ⟨inFail, inCrash, l', rfl, hfail, hcrash, fun hfailEq hcrashEq => ?_⟩
          have hformat : (fprintf c.sLstOutPath).isSome := by
            obtain ⟨written, hwritten, _⟩ := Option.map_eq_some_iff.mp hl
            exact Option.isSome_of_eq_some hwritten
          exact ⟨by omega, fun _ => by omega, fun _ => by omega, fun _ => hformat,
            fun hin => hin.elim (hfailFits hfailEq) (hcrashFits hcrashEq)⟩

/-- A case that fits adds its lines. -/
theorem enqueueData_fits (h : c.Fits) (f k l : Text) :
    ∃ l', enqueueData ⟨some f, some k, l⟩ c =
      some ⟨some (f ++ lineIf c.inFail c.sDebug), some (k ++ lineIf c.inCrash c.sDebug), l'⟩ := by
  have hcase := h.case_lt
  rw [enqueueData_open, if_neg (by omega)]
  by_cases hpass : c.aPass = .pass
  · rw [if_pos hpass]
    refine ⟨l, ?_⟩
    cases hkind : c.kind <;> simp [CaseEnd.inFail, CaseEnd.inCrash, lineIf, hkind, hpass]
  · have hline := h.line_lt hpass
    have hpath := h.path_lt hpass
    obtain ⟨written, hwritten⟩ := Option.isSome_iff_exists.mp (h.path hpass)
    rw [if_neg hpass, if_neg (by omega), if_neg (by omega), logLine, hwritten]
    refine ⟨l ++ written ++ ['\n'], ?_⟩
    rw [logIf_of_notMem fun hin => h.line (.inl hin), logIf_of_notMem fun hin => h.line (.inr hin)]
    rfl

theorem runCases_bound {files : ListFiles} (h : runCases ⟨some f, some k, l⟩ cs = some files) :
    ∃ inFail inCrash, files.mFAIL = some (f ++ inFail) ∧ files.mCRASH = some (k ++ inCrash) ∧
      inFail.length ≤ (linesOf CaseEnd.inFail cs).length ∧
      inCrash.length ≤ (linesOf CaseEnd.inCrash cs).length ∧
      (inFail.length = (linesOf CaseEnd.inFail cs).length →
        inCrash.length = (linesOf CaseEnd.inCrash cs).length → ∀ c ∈ cs, c.Fits) := by
  induction cs generalizing f k l with
  | nil =>
    cases h
    refine ⟨[], [], by simp, by simp, Nat.zero_le _, Nat.zero_le _, fun _ _ c hc => ?_⟩
    cases hc
  | cons c cs ih =>
    rw [runCases, initialize_open, Option.bind_some] at h
    obtain ⟨files', hcase, hrest⟩ := Option.bind_eq_some_iff.mp h
    obtain ⟨fail₁, crash₁, l', rfl, hfail₁, hcrash₁, hfits₁⟩ := enqueueData_bound hcase
    obtain ⟨fail₂, crash₂, hmFAIL, hmCRASH, hfail₂, hcrash₂, hfits₂⟩ := ih hrest
    refine ⟨fail₁ ++ fail₂, crash₁ ++ crash₂, by simpa using hmFAIL, by simpa using hmCRASH, ?_⟩
    simp only [linesOf_cons, List.length_append]
    refine ⟨by omega, by omega, fun hfail hcrash => List.forall_mem_cons.mpr ⟨?_, ?_⟩⟩
    · exact hfits₁ (by omega) (by omega)
    · exact hfits₂ (by omega) (by omega)

theorem runCases_fits (h : ∀ c ∈ cs, c.Fits) (f k l : Text) :
    ∃ l', runCases ⟨some f, some k, l⟩ cs =
      some ⟨some (f ++ linesOf CaseEnd.inFail cs), some (k ++ linesOf CaseEnd.inCrash cs), l'⟩ := by
  induction cs generalizing f k l with
  | nil => exact ⟨l, by simp [runCases, linesOf]⟩
  | cons c cs ih =>
    obtain ⟨hc, hcs⟩ := List.forall_mem_cons.mp h
    obtain ⟨l₁, hcase⟩ := enqueueData_fits hc f k l
    obtain ⟨l₂, hrest⟩ := ih hcs (f ++ lineIf c.inFail c.sDebug) (k ++ lineIf c.inCrash c.sDebug) l₁
    refine ⟨l₂, ?_⟩
    rw [runCases, initialize_open, Option.bind_some, hcase, Option.bind_some, hrest, linesOf_cons,
      linesOf_cons, List.append_assoc, List.append_assoc]

end Run

section Lists

private theorem openList_new {description : Text} (h : '%' ∉ description) :
    openList false description none = some (listHeader description) := by
  have hruler : '%' ∉ headerRuler := by decide
  simp [openList, logLine, fprintf_of_notMem h, fprintf_of_notMem hruler, fprintf, listHeader]

/-- The first case opens both lists. The list of crashed cases gets no header if the other list was
there. -/
theorem initialize_before (fail crash : Option Text) (l : Text) :
    Logger.initializeLists (listsBefore fail crash l) =
      some ⟨some (listHeader failDescription ++ fail.getD []),
        some (if fail.isSome ∧ crash = none then []
          else listHeader crashDescription ++ crash.getD []), l⟩ := by
  have hfail : openList false failDescription none = some (listHeader failDescription) :=
    openList_new (by decide)
  have hcrash : openList false crashDescription none = some (listHeader crashDescription) :=
    openList_new (by decide)
  have hopen : ∀ description file, openList true description (some file) = some file :=
    fun _ _ => rfl
  have hempty : ∀ description, openList true description none = some [] := fun _ => rfl
  cases fail <;> cases crash <;>
    simp [Logger.initializeLists, listsBefore, hfail, hcrash, hopen, hempty]

private theorem runCases_before (fail crash : Option Text) (l : Text) (c : CaseEnd)
    (cs : List CaseEnd) :
    runCases (listsBefore fail crash l) (c :: cs) =
      runCases ⟨some (listHeader failDescription ++ fail.getD []),
        some (if fail.isSome ∧ crash = none then []
          else listHeader crashDescription ++ crash.getD []), l⟩ (c :: cs) := by
  rw [runCases, initialize_before, runCases, initialize_open]

private theorem not_listsComplete {fail crash : Option Text} (l : Text) (c : CaseEnd)
    (cs : List CaseEnd) (hmissing : fail.isSome ∧ crash = none) :
    ¬ ListsComplete fail crash l (c :: cs) := by
  rintro ⟨files, hfiles, _, hmCRASH⟩
  rw [runCases_before, if_pos hmissing] at hfiles
  obtain ⟨_, inCrash, _, hcrash, _, hle, _⟩ := runCases_bound hfiles
  rw [hmCRASH, listFile, if_neg (List.cons_ne_nil _ _), hmissing.2, Option.some.injEq] at hcrash
  have hlength := congrArg List.length hcrash
  simp only [List.length_append, listHeader, List.length_cons, Option.getD_none,
    List.length_nil] at hlength
  omega

/-- Both lists are complete if and only if the second list file is not missing alone and every case
fits. -/
theorem listsComplete_iff (fail crash : Option Text) (mLSTOUT : Text) (cs : List CaseEnd) :
    ListsComplete fail crash mLSTOUT cs ↔
      (cs = [] ∨ ¬ (fail.isSome ∧ crash = none)) ∧ ∀ c ∈ cs, c.Fits := by
  cases cs with
  | nil => simp [ListsComplete, runCases, listsBefore, listFile]
  | cons c cs =>
    by_cases hmissing : fail.isSome ∧ crash = none
    · exact iff_of_false (not_listsComplete _ _ _ hmissing) fun h => by simp [hmissing] at h
    · simp only [ListsComplete, runCases_before, listFile, List.cons_ne_nil, if_false, false_or,
        hmissing, not_false_eq_true, true_and]
      constructor
      · rintro ⟨files, hfiles, hmFAIL, hmCRASH⟩
        obtain ⟨inFail, inCrash, hfail, hcrash, _, _, hfits⟩ := runCases_bound hfiles
        rw [hmFAIL, Option.some.injEq, List.append_cancel_left_eq] at hfail
        rw [hmCRASH, Option.some.injEq, List.append_cancel_left_eq] at hcrash
        exact hfits (by rw [hfail]) (by rw [hcrash])
      · intro hfits
        obtain ⟨l', hfiles⟩ := runCases_fits hfits (listHeader failDescription ++ fail.getD [])
          (listHeader crashDescription ++ crash.getD []) mLSTOUT
        exact ⟨_, hfiles, rfl, rfl⟩

/-- A case of the regression test in which the server crashed. -/
def crashedCase : CaseEnd :=
  ⟨"/atc/a.sql".toList, .crash, "crash".toList, "a.ts".toList, "/atc/a.lst".toList,
    "/work/a.out".toList, .regressive⟩

/-- The list of failed cases is there and the other one is not: it gets no header. -/
theorem crash_list_without_header : ¬ ListsComplete (some []) none [] [crashedCase] :=
  not_listsComplete [] crashedCase [] ⟨rfl, rfl⟩

end Lists

end Natc.Ats
