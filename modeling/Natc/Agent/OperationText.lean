import Natc.Agent.Execute

/-!
# The text of a host operation

`execute` takes the text of an operation apart and copies it into arrays of fixed length. What the
target and the files of the host answer is a parameter; the request of `EXECUTE` is built apart.
-/

namespace Natc.Agent.OperationText

open Lib

/-- `strcpy` into an array; `none` if the string and its NUL do not stay inside. -/
def strcpy (size : Nat) (s : Bytes) : Option Bytes := if s.length < size then some s else none

/-- `strcat` behind the string of an array. -/
def strcat (size : Nat) (s t : Bytes) : Option Bytes := strcpy size (s ++ t)

/-- The arrays of `strPathName`, `strCopyFile` and `strFileInfo`. -/
def sizeofName : Nat := 1024

/-- How the calls go that do not depend on the text. -/
structure HostAnswers where
  /-- The buffers of `execute` and those of the operation. -/
  mallocBuf : Bool
  mallocOpt : Bool
  /-- The local file and the header of the request. -/
  opens : Bool
  sends : Bool
  /-- The rest of the exchange ends with a success. -/
  replied : Bool
  deriving DecidableEq

/-- What an exchange with the target comes to. -/
def HostAnswers.result (os : HostAnswers) : Opt := if os.replied then .SUCCESS else .FAILURE

/-- The parts of a path; `sFileName` is the last one. -/
def pathParts (path : Bytes) : List Bytes := tokens (· = 47) path

/-- `manageOpt` -/
def manageOpt (os : HostAnswers) (aName : Bytes) : Option Opt :=
  if !os.sends then some .FAILURE
  else do
    let _ ← strcpy sizeofName aName
    return os.result

/-- `copyOpt`; `none` is also the use of a token that is not there. -/
def copyOpt (os : HostAnswers) (aOrigin : Bytes) : Option Opt :=
  match strtok aOrigin with
  | [] => some .FAILURE
  | [_] => none
  | [_, src] => do
    let _ ← strcpy sizeofName src
    return .FAILURE
  | _ :: src :: dest :: _ => do
    let _ ← strcpy sizeofName src
    let _ ← strcpy sizeofName dest
    return os.result

/-- `getOpt` -/
def getOpt (os : HostAnswers) (aFilePath : Bytes) : Option Opt :=
  if !os.mallocOpt then some .FAILURE
  else do
    let _ ← strcpy sizeofName aFilePath
    let sDirPath ← strcpy BUF_SIZE aFilePath
    let _sFileName ← (pathParts sDirPath).getLast?
    if !os.opens then return .FAILURE
    return os.result

/-- The directory of `putOpt` with a slash behind it. -/
def dirPath : List Bytes → Option Bytes
  | [] => some []
  | sToken :: _ => do
    let sDirPath ← strcpy BUF_SIZE sToken
    if sDirPath.getLast? = some 47 then return sDirPath else strcat BUF_SIZE sDirPath [47]

/-- `putOpt` -/
def putOpt (os : HostAnswers) (aOrigin : Bytes) : Option Opt :=
  if !os.mallocOpt then some .FAILURE
  else
    match (strtok aOrigin).tail with
    | [] => none
    | sToken :: rest => do
      let sFilePath ← strcpy BUF_SIZE sToken
      if !(os.opens && os.sends) then return .FAILURE
      let sDirPath ← dirPath rest
      let sFileName ← (pathParts sFilePath).getLast?
      let sDirPath ← strcat BUF_SIZE sDirPath sFileName
      let _ ← strcpy sizeofName sDirPath
      return os.result

/-- `executeOpt`, without the copies into `strExecute`. -/
def executeOpt (os : HostAnswers) (aOrigin : Bytes) (aEnvp : Option Bytes) : Option Opt :=
  if aEnvp.isSome && !os.mallocOpt then some .FAILURE
  else
    match (executeWords (strtok aOrigin)).bind fun words => returnOption words.rest with
    | none => some .FAILURE
    | some _ =>
      match aEnvp with
      | none => some os.result
      | some aEnvp =>
        match strtok aEnvp with
        | [] => none
        | sToken :: _ => if sToken = envsWord then some os.result else some .SUCCESS

/-- The switch of `execute`. -/
def operation (os : HostAnswers) (aEnvp : Option Bytes) (sOrigin : Bytes) : Option Opt :=
  match strtok sOrigin with
  | [] => some .NOTHING
  | sToken :: args =>
    match parsing sToken with
    | some .EXECUTE => executeOpt os sOrigin aEnvp
    | some .PUT => if args = [] then some .NOTHING else putOpt os sOrigin
    | some .GET => args.head?.elim (some .NOTHING) (getOpt os)
    | some .MKDIR => args.head?.elim (some .NOTHING) (manageOpt os)
    | some .RMDIR => args.head?.elim (some .NOTHING) (manageOpt os)
    | some .DELETEFILE => args.head?.elim (some .NOTHING) (manageOpt os)
    | some .QUIT => some (if os.replied then .QUIT else .FAILURE)
    | some .TERMINATE => some (if os.replied then .TERMINATE else .FAILURE)
    | some .COPY => if args.length < 2 then some .NOTHING else copyOpt os sOrigin
    | _ => some .NOTHING

/-- What is appended to `returnMessage`. -/
def resultText : Opt → Bytes
  | .SUCCESS => ascii " - SUCCESS\n"
  | .FAILURE => ascii " - FAIL\n"
  | _ => []

/-- `execute`, with its result; `none` if a copy leaves its array or a missing token is used. -/
def execute (os : HostAnswers) (aEnvp : Option Bytes) (aBuf : Bytes) : Option Opt :=
  if aBuf = [10] then some .NOTHING
  else if !os.mallocBuf then some .FAILURE
  else do
    let sBuf ← strcpy BUF_SIZE aBuf
    let returnMessage ← strcpy sizeofReturnMessage sBuf
    let sRc ← operation os aEnvp sBuf
    let _ ← strcat sizeofReturnMessage returnMessage (resultText sRc)
    return sRc

/-- An operation text as the callers hand it over. -/
structure Operation where
  text : Bytes
  noNul : 0 ∉ text
  short : text.length < BUF_SIZE

/-- Whatever the calls answer, the copies stay inside and the tokens are there. -/
def Fits (aEnvp : Option Bytes) (T : Operation) : Prop := ∀ os, (execute os aEnvp T.text).isSome

/-- The length of the longest text that the operation can append. -/
def appended (words : List Bytes) : Nat :=
  match words.head?.bind parsing with
  | some .EXECUTE =>
      if ((executeWords words).bind fun words => returnOption words.rest) = none then 8 else 11
  | some .PUT | some .GET | some .MKDIR | some .RMDIR | some .DELETEFILE =>
      if words.length < 2 then 0 else 11
  | some .COPY => if words.length < 3 then 0 else 11
  | some .QUIT | some .TERMINATE => 8
  | _ => 0

/-- The path of `PUT` or `GET` is more than slashes. -/
def NamesFile (words : List Bytes) : Prop :=
  words.head?.bind parsing = some .PUT ∨ words.head?.bind parsing = some .GET →
    ∀ path, words[1]? = some path → ∃ c ∈ path, c ≠ 47

/-- The environment text of a complete `EXECUTE` has a word. -/
def EnvGiven (aEnvp : Option Bytes) (words : List Bytes) : Prop :=
  words.head?.bind parsing = some .EXECUTE →
    ((executeWords words).bind fun words => returnOption words.rest) ≠ none →
      ∀ text, aEnvp = some text → strtok text ≠ []

/-! ## The copies of a short text -/

section operations

variable {os : HostAnswers} {text sToken src dest path name : Bytes} {rest : List Bytes}

theorem strcpy_of_lt {size : Nat} {s : Bytes} (h : s.length < size) : strcpy size s = some s :=
  if_pos h

theorem BUF_SIZE_eq : BUF_SIZE = 65536 := rfl

theorem sizeofName_eq : sizeofName = 1024 := rfl

/-- The words of a text are not longer than the text, all together. -/
theorem length_words_le (h : strtok text = sToken :: rest) :
    0 < sToken.length ∧ sToken.length + rest.flatten.length ≤ text.length := by
  have hle := @length_flatten_tokens_le _ gSep (cString text)
  have hmem : sToken ∈ tokens gSep (cString text) := by
    rw [← strtok, h]
    exact List.mem_cons_self
  rw [← strtok, h, List.flatten_cons, List.length_append] at hle
  exact ⟨List.length_pos_iff.mpr (ne_nil_of_mem_tokens hmem), hle.trans (length_cString_le text)⟩

theorem manageOpt_eq (hname : name.length < sizeofName) :
    manageOpt os name = some (if os.sends then os.result else .FAILURE) := by
  rw [manageOpt, strcpy_of_lt hname]
  cases os.sends <;> rfl

theorem copyOpt_eq (hwords : strtok text = sToken :: src :: dest :: rest)
    (hshort : text.length < sizeofName) : copyOpt os text = some os.result := by
  obtain ⟨-, hle⟩ := length_words_le hwords
  simp only [List.flatten_cons, List.length_append] at hle
  rw [copyOpt, hwords]
  dsimp only
  rw [strcpy_of_lt (by omega), strcpy_of_lt (by omega)]
  rfl

theorem pathParts_eq_nil_iff : pathParts path = [] ↔ ∀ c ∈ path, c = 47 := by
  rw [pathParts]
  constructor
  · intro h c hc
    by_contra hne
    have hflat := @flatten_tokens _ (· = 47) path
    rw [h, List.flatten_nil] at hflat
    have hmem : c ∈ path.filter fun c => !decide (c = 47) :=
      List.mem_filter.mpr ⟨hc, by rw [decide_eq_false hne]; rfl⟩
    rw [← hflat] at hmem
    cases hmem
  · exact fun h => tokens_eq_nil fun c hc => decide_eq_true (h c hc)

/-- `GET` uses the last part of its path. -/
theorem getOpt_eq (hpath : path.length < sizeofName) :
    getOpt os path = if !os.mallocOpt then some .FAILURE
      else if pathParts path = [] then none
      else some (if os.opens then os.result else .FAILURE) := by
  have hbuf : path.length < BUF_SIZE := hpath.trans (by decide)
  rw [getOpt, strcpy_of_lt hpath, strcpy_of_lt hbuf]
  cases os.mallocOpt with
  | false => rfl
  | true =>
    cases hparts : pathParts path with
    | nil =>
      simp only [Option.bind_eq_bind, Option.bind_some, hparts, List.getLast?_nil, Option.bind_none,
        Bool.not_true, Bool.false_eq_true, if_false, if_true]
    | cons part parts =>
      simp only [Option.bind_eq_bind, Option.bind_some, hparts, List.getLast?_cons, Bool.not_true,
        Bool.false_eq_true, if_false, reduceCtorEq]
      cases os.opens <;> rfl

/-- The directory in front of the name on the target. -/
theorem dirPath_eq (hrest : rest.flatten.length + 1 < BUF_SIZE) :
    ∃ sDirPath, dirPath rest = some sDirPath ∧ sDirPath.length ≤ rest.flatten.length + 1 := by
  cases rest with
  | nil => exact ⟨[], rfl, Nat.zero_le _⟩
  | cons dir rest =>
    rw [List.flatten_cons, List.length_append] at hrest ⊢
    rw [dirPath, strcpy_of_lt (by omega)]
    by_cases hslash : dir.getLast? = some 47
    · refine ⟨dir, ?_, by omega⟩
      rw [Option.bind_eq_bind, Option.bind_some, if_pos hslash]
      rfl
    · have hlength : (dir ++ [47]).length = dir.length + 1 := List.length_append
      refine ⟨dir ++ [47], ?_, by omega⟩
      rw [Option.bind_eq_bind, Option.bind_some, if_neg hslash, strcat, strcpy_of_lt (by omega)]

/-- `PUT` uses the last part of its path once the file is open. -/
theorem putOpt_eq (hwords : strtok text = sToken :: path :: rest)
    (hshort : text.length < sizeofName) :
    putOpt os text = if !os.mallocOpt then some .FAILURE
      else if !(os.opens && os.sends) then some .FAILURE
      else if pathParts path = [] then none
      else some os.result := by
  obtain ⟨hpos, hle⟩ := length_words_le hwords
  rw [List.flatten_cons, List.length_append] at hle
  rw [sizeofName_eq] at hshort
  obtain ⟨sDirPath, hdir, hdirlen⟩ := @dirPath_eq rest (by rw [BUF_SIZE_eq]; omega)
  rw [putOpt, hwords, List.tail_cons]
  dsimp only
  rw [strcpy_of_lt (by rw [BUF_SIZE_eq]; omega)]
  cases os.mallocOpt with
  | false => rfl
  | true =>
    cases os.opens && os.sends with
    | false => rfl
    | true =>
      cases hlast : (pathParts path).getLast? with
      | none =>
        rw [List.getLast?_eq_none_iff] at hlast
        simp only [Option.bind_eq_bind, Option.bind_some, hdir, hlast, List.getLast?_nil,
          Option.bind_none, Bool.not_true, Bool.false_eq_true, if_false, if_true]
      | some sFileName =>
        have hmem := List.mem_of_getLast? hlast
        have hname : sFileName.length ≤ path.length := length_le_of_mem_tokens hmem
        have hne : pathParts path ≠ [] := List.ne_nil_of_mem hmem
        have hwhole : (sDirPath ++ sFileName).length < sizeofName := by
          rw [List.length_append, sizeofName_eq]
          omega
        have hbuf : (sDirPath ++ sFileName).length < BUF_SIZE := by
          rw [sizeofName_eq] at hwhole
          rw [BUF_SIZE_eq]
          omega
        simp only [Option.bind_eq_bind, Option.bind_some, hdir, hlast, strcat,
          strcpy_of_lt hwhole, strcpy_of_lt hbuf, Bool.not_true, Bool.false_eq_true, if_false, hne]
        rfl

/-- Wherever the copies into the request stay inside it, its result is that of the request. -/
theorem executeOpt_eq_request (sExecute : ExecuteMem) (aOrigin aEnvp : Bytes)
    (h : Agent.executeOpt os.mallocOpt sExecute aOrigin aEnvp ≠ .undefined) :
    executeOpt os aOrigin (some aEnvp) =
      match Agent.executeOpt os.mallocOpt sExecute aOrigin aEnvp with
      | .undefined => none
      | .failure => some .FAILURE
      | .unsent => some .SUCCESS
      | .sent _ => some os.result := by
  rw [Agent.executeOpt] at h ⊢
  rw [executeOpt, Option.isSome_some, Bool.true_and]
  cases hmalloc : os.mallocOpt with
  | false => rfl
  | true =>
    rw [hmalloc] at h
    simp only [Bool.not_true, Bool.false_eq_true, if_false] at h ⊢
    split at h
    · exact absurd rfl h
    · next hbuf =>
      rw [if_neg hbuf]
      cases hwords : executeWords (strtok aOrigin) with
      | none => rfl
      | some words =>
        rw [hwords] at h
        cases hcopy : copyOperation sExecute words with
        | none => simp only [hcopy, ne_eq, not_true_eq_false] at h
        | some m =>
          cases hoption : returnOption words.rest with
          | none => simp only [Option.bind_some, hcopy, hoption]
          | some option =>
            cases henv : strtok aEnvp with
            | nil => simp only [hcopy, hoption, henv, ne_eq, not_true_eq_false] at h
            | cons sToken envs =>
              simp only [Option.bind_some, hcopy, hoption]
              by_cases hword : sToken = envsWord
              · simp only [if_pos hword]
                cases hset : (setReturnOption m option).bind fun m =>
                    copyEnvp m words.envp.length envs with
                | none =>
                  simp only [hcopy, hoption, henv, if_pos hword, hset, ne_eq,
                    not_true_eq_false] at h
                | some m => rfl
              · simp only [if_neg hword]

end operations

/-! ## The result behind the text -/

section results

variable {os : HostAnswers} {aEnvp : Option Bytes} {text : Bytes} {n : Nat}
  {f : HostAnswers → Option Opt}

/-- Whatever the calls answer, there is a result, and its text fits behind `n` characters. -/
def Appends (n : Nat) (f : HostAnswers → Option Opt) : Prop :=
  ∀ os, ∃ sRc, f os = some sRc ∧ n + (resultText sRc).length < sizeofReturnMessage

theorem length_success : (resultText .SUCCESS).length = 11 := by decide +kernel

theorem length_failure : (resultText .FAILURE).length = 8 := by decide +kernel

theorem appends_const {sRc : Opt} (h : ∀ os, f os = some sRc) :
    Appends n f ↔ n + (resultText sRc).length < sizeofReturnMessage := by
  constructor
  · intro hf
    obtain ⟨sRc', hrc, hlt⟩ := hf ⟨true, true, true, true, true⟩
    rw [h] at hrc
    cases hrc
    exact hlt
  · exact fun hlt os => ⟨sRc, h os, hlt⟩

/-- An operation that succeeds or fails. -/
theorem appends_runs (hall : ∀ os, f os = some .SUCCESS ∨ f os = some .FAILURE)
    (hsome : ∃ os, f os = some .SUCCESS) : Appends n f ↔ n + 11 < sizeofReturnMessage := by
  constructor
  · intro hf
    obtain ⟨os, hos⟩ := hsome
    obtain ⟨sRc, hrc, hlt⟩ := hf os
    rw [hos] at hrc
    cases hrc
    rwa [length_success] at hlt
  · intro hlt os
    rcases hall os with h | h
    · exact ⟨_, h, by rwa [length_success]⟩
    · exact ⟨_, h, by rw [length_failure]; omega⟩

/-- An operation that ends the connection or fails. -/
theorem appends_ends {sRc : Opt} (hrc : resultText sRc = [])
    (h : ∀ os, f os = some (if os.replied then sRc else .FAILURE)) :
    Appends n f ↔ n + 8 < sizeofReturnMessage := by
  constructor
  · intro hf
    obtain ⟨sRc', hrc', hlt⟩ := hf ⟨true, true, true, true, false⟩
    have hfail : some Opt.FAILURE = some sRc' := (h _).symm.trans hrc'
    rwa [← Option.some.inj hfail, length_failure] at hlt
  · intro hlt os
    refine ⟨_, h os, ?_⟩
    split
    · rw [hrc, List.length_nil]
      omega
    · rwa [length_failure]

theorem result_cases (os : HostAnswers) :
    some os.result = some Opt.SUCCESS ∨ some os.result = some Opt.FAILURE := by
  rw [HostAnswers.result]
  cases os.replied
  · exact .inr rfl
  · exact .inl rfl

/-- `execute` stays inside its arrays if the text fits and its operation does so. -/
theorem execute_all_iff (T : Operation) : Fits aEnvp T ↔ T.text = [10] ∨
    T.text.length < sizeofReturnMessage ∧
      Appends T.text.length fun os => operation os aEnvp T.text := by
  by_cases hline : T.text = [10]
  · exact iff_of_true (fun os => by rw [execute, if_pos hline]; rfl) (.inl hline)
  have hbuf : strcpy BUF_SIZE T.text = some T.text := strcpy_of_lt T.short
  constructor
  · intro h
    right
    have hshort : T.text.length < sizeofReturnMessage := by
      by_contra hlong
      have hsome := h ⟨true, true, true, true, true⟩
      rw [execute, if_neg hline, hbuf] at hsome
      have hnone : strcpy sizeofReturnMessage T.text = none := if_neg hlong
      simp only [Bool.not_true, Bool.false_eq_true, if_false, Option.bind_eq_bind,
        Option.bind_some, hnone, Option.bind_none, Option.isSome_none] at hsome
    refine ⟨hshort, fun os => ?_⟩
    -- the buffers of `execute` do not matter for the operation
    have hsome := h { os with mallocBuf := true }
    have hsame : operation { os with mallocBuf := true } aEnvp T.text =
        operation os aEnvp T.text := rfl
    rw [execute, if_neg hline, hbuf] at hsome
    simp only [Bool.not_true, Bool.false_eq_true, if_false, Option.bind_eq_bind, Option.bind_some,
      strcpy_of_lt hshort, hsame] at hsome
    cases hop : operation os aEnvp T.text with
    | none =>
      rw [hop] at hsome
      cases hsome
    | some sRc =>
      refine ⟨sRc, hop, ?_⟩
      rw [hop, Option.bind_some, strcat, strcpy] at hsome
      by_contra hlong
      rw [← List.length_append] at hlong
      rw [if_neg hlong] at hsome
      cases hsome
  · rintro (h | ⟨hshort, h⟩)
    · exact absurd h hline
    · intro os
      obtain ⟨sRc, hop, hlt⟩ := h os
      rw [← List.length_append] at hlt
      rw [execute, if_neg hline, hbuf]
      cases os.mallocBuf with
      | false => rfl
      | true =>
        simp only [Bool.not_true, Bool.false_eq_true, if_false, Option.bind_eq_bind,
          Option.bind_some, strcpy_of_lt hshort, hop, strcat, strcpy_of_lt hlt]
        rfl

/-- What an operation with one argument does with it. -/
theorem appends_argument {args : List Bytes} {g : HostAnswers → Bytes → Option Opt}
    (hn : n < sizeofReturnMessage) {sToken : Bytes} {Q : Bytes → Prop}
    (h : ∀ path ∈ args.head?,
      (Appends n (fun os => g os path) ↔ Q path ∧ n + 11 < sizeofReturnMessage)) :
    (Appends n fun os => args.head?.elim (some .NOTHING) (g os)) ↔
      (∀ path, (sToken :: args)[1]? = some path → Q path) ∧
        n + (if (sToken :: args).length < 2 then 0 else 11) < sizeofReturnMessage := by
  cases args with
  | nil =>
    have hnothing := @appends_const n (fun _ => some .NOTHING) .NOTHING fun _ => rfl
    exact iff_of_true (hnothing.mpr hn) ⟨fun path hpath => (by cases hpath), hn⟩
  | cons path args =>
    have hlong : ¬ (sToken :: path :: args).length < 2 := by
      rw [List.length_cons, List.length_cons]
      omega
    rw [if_neg hlong, List.getElem?_cons_succ]
    refine (h path rfl).trans (and_congr_left fun _ => ?_)
    constructor
    · intro hQ path' hpath'
      cases hpath'
      exact hQ
    · exact fun hQ => hQ path rfl

theorem appends_manage {name : Bytes} (hname : name.length < sizeofName) :
    (Appends n fun os => manageOpt os name) ↔ True ∧ n + 11 < sizeofReturnMessage := by
  rw [true_and]
  refine appends_runs (fun os => ?_) ⟨⟨true, true, true, true, true⟩, ?_⟩
  · rw [manageOpt_eq hname]
    split
    · exact result_cases os
    · exact .inr rfl
  · rw [manageOpt_eq hname]
    rfl

theorem exists_part_iff {path : Bytes} : (∃ c ∈ path, c ≠ 47) ↔ pathParts path ≠ [] := by
  rw [ne_eq, pathParts_eq_nil_iff, not_forall]
  exact exists_congr fun _ => Classical.not_imp.symm

theorem appends_get {path : Bytes} (hpath : path.length < sizeofName) :
    (Appends n fun os => getOpt os path) ↔
      (∃ c ∈ path, c ≠ 47) ∧ n + 11 < sizeofReturnMessage := by
  rw [exists_part_iff]
  by_cases hparts : pathParts path = []
  · refine iff_of_false (fun h => ?_) fun h => h.1 hparts
    obtain ⟨sRc, hrc, -⟩ := h ⟨true, true, true, true, true⟩
    dsimp only at hrc
    rw [getOpt_eq hpath, if_pos hparts] at hrc
    cases hrc
  · rw [and_iff_right hparts]
    refine appends_runs (fun os => ?_) ⟨⟨true, true, true, true, true⟩, ?_⟩
    · rw [getOpt_eq hpath, if_neg hparts]
      split
      · exact .inr rfl
      · split
        · exact result_cases os
        · exact .inr rfl
    · rw [getOpt_eq hpath, if_neg hparts]
      rfl

theorem appends_put {sToken path : Bytes} {rest : List Bytes}
    (hwords : strtok text = sToken :: path :: rest) (hshort : text.length < sizeofName) :
    (Appends n fun os => putOpt os text) ↔
      (∃ c ∈ path, c ≠ 47) ∧ n + 11 < sizeofReturnMessage := by
  rw [exists_part_iff]
  by_cases hparts : pathParts path = []
  · refine iff_of_false (fun h => ?_) fun h => h.1 hparts
    obtain ⟨sRc, hrc, -⟩ := h ⟨true, true, true, true, true⟩
    dsimp only at hrc
    rw [putOpt_eq hwords hshort, if_pos hparts] at hrc
    cases hrc
  · rw [and_iff_right hparts]
    refine appends_runs (fun os => ?_) ⟨⟨true, true, true, true, true⟩, ?_⟩
    · rw [putOpt_eq hwords hshort, if_neg hparts]
      split
      · exact .inr rfl
      · split
        · exact .inr rfl
        · exact result_cases os
    · rw [putOpt_eq hwords hshort, if_neg hparts]
      rfl

/-- `EXECUTE` fails at once, or needs the word of the environment text. -/
theorem appends_execute :
    (Appends n fun os => executeOpt os text aEnvp) ↔
      (((executeWords (strtok text)).bind fun words => returnOption words.rest) ≠ none →
        ∀ envs, aEnvp = some envs → strtok envs ≠ []) ∧
      n + (if ((executeWords (strtok text)).bind fun words => returnOption words.rest) = none
        then 8 else 11) < sizeofReturnMessage := by
  cases hwords : (executeWords (strtok text)).bind fun words => returnOption words.rest with
  | none =>
    rw [if_pos rfl, and_iff_right fun h => absurd rfl h]
    refine (@appends_const n _ .FAILURE fun os => ?_).trans (by rw [length_failure])
    unfold executeOpt
    rw [hwords]
    exact ite_self _
  | some option =>
    rw [if_neg (Option.some_ne_none _), forall_prop_of_true (Option.some_ne_none _)]
    cases aEnvp with
    | none =>
      rw [and_iff_right fun envs h => by cases h]
      refine appends_runs (fun os => ?_) ⟨⟨true, true, true, true, true⟩, ?_⟩
      · rw [executeOpt, hwords]
        exact result_cases os
      · rw [executeOpt, hwords]
        rfl
    | some envs =>
      cases henvs : strtok envs with
      | nil =>
        refine iff_of_false (fun h => ?_) fun h => h.1 envs rfl henvs
        obtain ⟨sRc, hrc, -⟩ := h ⟨true, true, true, true, true⟩
        dsimp only at hrc
        rw [executeOpt, hwords] at hrc
        dsimp only at hrc
        rw [henvs] at hrc
        cases hrc
      | cons sToken ts =>
        rw [and_iff_right fun envs' h hnil => by
          cases h
          rw [henvs] at hnil
          cases hnil]
        refine appends_runs (fun os => ?_) ⟨⟨true, true, true, true, true⟩, ?_⟩
        · rw [executeOpt, hwords]
          dsimp only
          rw [henvs]
          dsimp only
          split
          · exact .inr rfl
          · split
            · exact result_cases os
            · exact .inl rfl
        · rw [executeOpt, hwords]
          dsimp only
          rw [henvs]
          show (if sToken = envsWord then some Opt.SUCCESS else some Opt.SUCCESS) = _
          rw [ite_self]

/-- For a short text the operation decides. -/
theorem appends_operation (hshort : text.length < sizeofReturnMessage) :
    (Appends text.length fun os => operation os aEnvp text) ↔
      NamesFile (strtok text) ∧ EnvGiven aEnvp (strtok text) ∧
        text.length + appended (strtok text) < sizeofReturnMessage := by
  have hnothing : (Appends text.length fun _ => some .NOTHING) ↔
      text.length + 0 < sizeofReturnMessage := appends_const fun _ => rfl
  have hshort' : text.length < sizeofName := hshort
  unfold operation NamesFile EnvGiven appended
  cases hwords : strtok text with
  | nil => exact hnothing.trans (by simp [strtok])
  | cons sToken args =>
    have hargs : ∀ path ∈ args.head?, path.length < sizeofName := by
      intro path hpath
      have hmem : path ∈ tokens gSep (cString text) := by
        rw [← strtok, hwords]
        exact List.mem_cons_of_mem _ (List.mem_of_mem_head? hpath)
      exact (length_le_of_mem_tokens hmem).trans_lt ((length_cString_le text).trans_lt hshort)
    simp only [List.head?_cons, Option.bind_some]
    cases hop : parsing sToken with
    | none => exact hnothing.trans (by simp)
    | some op =>
      cases op with
      | EXECUTE =>
        have hexecute := @appends_execute aEnvp text text.length
        rw [hwords] at hexecute
        simpa using hexecute
      | PUT =>
        cases args with
        | nil => exact hnothing.trans (by simp)
        | cons path rest =>
          have hput := @appends_put text text.length sToken path rest hwords hshort'
          have htwo : ¬ rest.length + 1 + 1 < 2 := by omega
          simpa [htwo] using hput
      | GET =>
        have hget := @appends_argument text.length args getOpt hshort sToken _
          fun path hpath => appends_get (hargs path hpath)
        simpa using hget
      | MKDIR | RMDIR | DELETEFILE =>
        have hmanage := @appends_argument text.length args manageOpt hshort sToken _
          fun path hpath => appends_manage (hargs path hpath)
        simpa using hmanage
      | QUIT =>
        have hends := @appends_ends text.length _ .QUIT rfl fun _ => rfl
        simpa using hends
      | TERMINATE =>
        have hends := @appends_ends text.length _ .TERMINATE rfl fun _ => rfl
        simpa using hends
      | COPY =>
        match args, hwords with
        | [], _ | [_], _ => exact hnothing.trans (by simp)
        | src :: dest :: rest, hwords =>
          have hcopy := @appends_runs text.length (fun os => copyOpt os text)
            (fun os => by rw [copyOpt_eq hwords hshort']; exact result_cases os)
            ⟨⟨true, true, true, true, true⟩, copyOpt_eq hwords hshort'⟩
          have htwo : ¬ rest.length + 1 + 1 < 2 := by omega
          have hthree : ¬ rest.length + 1 + 1 + 1 < 3 := by omega
          simpa [htwo, hthree] using hcopy
      | SERVER | HELP | SUCCESS | FAILURE | MESSAGE | NOTHING => exact hnothing.trans (by simp)

end results

/-- The text of an operation fits if it is short enough for the message about its result, and what
the operation looks for is there. -/
theorem text_fits_iff (aEnvp : Option Bytes) (T : Operation) :
    Fits aEnvp T ↔ T.text = [10] ∨
      T.text.length + appended (strtok T.text) < sizeofReturnMessage ∧
        NamesFile (strtok T.text) ∧ EnvGiven aEnvp (strtok T.text) := by
  rw [execute_all_iff]
  refine or_congr_right ?_
  constructor
  · rintro ⟨hshort, h⟩
    obtain ⟨hname, henv, hlt⟩ := (appends_operation hshort).mp h
    exact ⟨hlt, hname, henv⟩
  · rintro ⟨hlt, hname, henv⟩
    have hshort : T.text.length < sizeofReturnMessage := by omega
    exact ⟨hshort, (appends_operation hshort).mpr ⟨hname, henv, hlt⟩⟩

/-- A text of 1024 characters runs over `returnMessage` before its operation is known. -/
theorem not_fits_long : ¬ ∀ aEnvp T, Fits aEnvp T := by
  intro h
  have hnul : (0 : UInt8) ∉ List.replicate 1024 113 := fun hmem =>
    absurd (List.eq_of_mem_replicate hmem) (by decide)
  have hlength : (List.replicate 1024 (113 : UInt8)).length < BUF_SIZE := by
    rw [List.length_replicate]
    decide
  rcases (execute_all_iff _).mp (h none ⟨List.replicate 1024 113, hnul, hlength⟩) with hline | hlong
  · have hone := congrArg List.length hline
    rw [List.length_replicate] at hone
    cases hone
  · have hlt := hlong.1
    dsimp only at hlt
    rw [List.length_replicate] at hlt
    exact absurd hlt (by decide)

end Natc.Agent.OperationText
