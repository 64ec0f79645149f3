import Natc.Staf
import Natc.Lib.Lines
import Natc.Lib.Tokens
import Mathlib.Algebra.Ring.Int.Defs
import Mathlib.Data.List.Nodup

/-!
# The tables of recovery points

The client has the recovery points of a file in a list, the service in a map. Both read the file
with `fgets` and `sscanf` into buffers that keep what an earlier line left there, and an ID goes from
the one to the other as a request option.
-/

namespace Natc.Ats

open Lib

/-- What `sscanf` takes for blank. -/
def isspace (c : Char) : Bool := c.toNat = 32 ∨ 9 ≤ c.toNat ∧ c.toNat ≤ 13

section Scan

/-- The sign of a number, if there is one. -/
def signed : Text → Bool × Text
  | [] => (false, [])
  | c :: cs => if c = '-' then (true, cs) else if c = '+' then (false, cs) else (false, c :: cs)

def digitsValue (ds : Text) : Int := ds.foldl (fun n c => 10 * n + (c.toNat - 48)) 0

/-- `%d` in front of a text without blanks: the number and what follows it. -/
def scanInt (s : Text) : Option (Int × Text) :=
  let ds := (signed s).2.takeWhile Char.isDigit
  if ds = [] then none
  else
    some (if (signed s).1 then - digitsValue ds else digitsValue ds,
      (signed s).2.dropWhile Char.isDigit)

/-- The buffers of a loader. -/
structure ScanBuffers where
  sFileName : Text
  sRecPointID : Text
  deriving DecidableEq

/-- The length of each buffer. -/
def sizeofField : Nat := 512

/-- The number is an `int`. -/
def IsInt (n : Int) : Prop := -2 ^ 31 ≤ n ∧ n < 2 ^ 31

instance (n : Int) : Decidable (IsInt n) := inferInstanceAs (Decidable (_ ∧ _))

/-- `sscanf( sBuffer, "%s %d %s", .. )`: the buffers and the line number, which was 0 before. A field
that is not reached keeps what it has; `none` if a buffer or an `int` overruns. -/
def sscanf (bufs : ScanBuffers) (sBuffer : Text) : Option (ScanBuffers × Int) :=
  let s := sBuffer.takeWhile (· ≠ '\x00')
  let file := firstWord isspace s
  if file = [] then some (bufs, 0)
  else if sizeofField ≤ file.length then none
  else
    match scanInt ((afterWord isspace s).dropWhile isspace) with
    | none => some ({ bufs with sFileName := file }, 0)
    | some (n, rest) =>
        let id := firstWord isspace rest
        if ¬ IsInt n then none
        else if id = [] then some ({ bufs with sFileName := file }, n)
        else if sizeofField ≤ id.length then none
        else some (⟨file, id⟩, n)

end Scan

section Model

variable (staf : Staf)

/-- `loadRECPOINT` of the client, by the lines that `fgets` returns: what is added to
`gRecPtrList`. -/
def loadRECPOINT : ScanBuffers → List Text → Option (List Text)
  | _, [] => some []
  | bufs, sBuffer :: lines =>
      (sscanf bufs sBuffer).bind fun scan =>
        (loadRECPOINT scan.1 lines).map (staf.strip scan.1.sRecPointID :: ·)

/-- `recPointData`. -/
structure RecPointData where
  filename : Text
  lineNumber : Int
  testType : Text
  applyValue : Int
  skipFlagAtStartup : Int
  recPointID : Text
  queryString : Text
  deriving DecidableEq

abbrev RecPtrMap := Text → Option RecPointData

/-- `sprintf( sBuffer, "%d", n )`. -/
def decimal (n : Int) : Text :=
  if n < 0 then '-' :: Nat.toDigits 10 n.natAbs else Nat.toDigits 10 n.natAbs

/-- The query of the full test, by its fields. -/
def enableQuery (recPointID testType applyValue skipFlag filename lineNumber : Text) : Text :=
  "execute enable_recptr( ".toList ++ ("'".toList ++ recPointID ++ "', ".toList) ++
    ("'".toList ++ testType ++ "', ".toList) ++ (applyValue ++ ", ".toList) ++ "0, ".toList ++
    (skipFlag ++ ", ".toList) ++ ("'".toList ++ filename ++ "', ".toList) ++
    (lineNumber ++ ")".toList)

/-- The entry of a line, from what the scan has left. -/
def recPointData (bufs : ScanBuffers) (sLineNumber : Int) : RecPointData :=
  let filename := staf.strip bufs.sFileName
  let testType := "KILL".toList
  let recPointID := staf.strip bufs.sRecPointID
  { filename := filename
    lineNumber := sLineNumber
    testType := testType
    applyValue := 0
    skipFlagAtStartup := 0
    recPointID := recPointID
    queryString :=
      enableQuery (staf.strip recPointID) (staf.strip testType) (staf.strip (decimal 0))
        (staf.strip (decimal 0)) filename (staf.strip (decimal sLineNumber)) }

/-- An entry is added only if its ID is new. -/
def RecPtrMap.insert (m : RecPtrMap) (sData : RecPointData) : RecPtrMap :=
  fun key =>
    if key = sData.recPointID then some ((m key).getD sData) else m key

/-- `RecPointer::load`, by the lines that `fgets` returns. -/
def load : ScanBuffers → RecPtrMap → List Text → Option RecPtrMap
  | _, m, [] => some m
  | bufs, m, sBuffer :: lines =>
      (sscanf bufs sBuffer).bind fun scan =>
        load scan.1 (m.insert (recPointData staf scan.1 scan.2)) lines

/-- The option `recpointid` of the request. -/
def requestRECPOINTID (id : Text) : Text := staf.replace id [':'] ['^']

/-- `parseOption`; an option with a brace goes through the variable service. -/
def parseRECPOINTID (resolveString : Text → Option Text) (option : Text) : Option Text :=
  let result := if staf.contains option ['{'] then resolveString option else some option
  result.map fun result => staf.replace result ['^'] [':']

/-- `fgets( sBuffer, 1024, .. )` reads at most this much. -/
def lineRoom : Nat := 1023

end Model

section Spec

/-- A line of the file: file name, number, ID. -/
structure RecPoint where
  file : Text
  number : Int
  id : Text
  deriving DecidableEq

/-- The number that a word is. -/
def number? (w : Text) : Option Int :=
  (scanInt w).bind fun scan => if scan.2 = [] then some scan.1 else none

/-- A well-formed line; it may go on behind the ID. -/
def recPoint? (line : Text) : Option RecPoint :=
  match tokens isspace (line.takeWhile (· ≠ '\x00')) with
  | file :: number :: id :: _ => (number? number).map fun n => ⟨file, n, id⟩
  | _ => none

def recPoints (file : Text) : List RecPoint := (wholeLines file).filterMap recPoint?

/-- The statement that sets a recovery point. -/
def enableRecptr (id file : Text) (number : Int) : Text :=
  "execute enable_recptr( '".toList ++ id ++ "', 'KILL', 0, 0, 0, '".toList ++ file ++
    "', ".toList ++ decimal number ++ ")".toList

variable (staf : Staf) (resolveString : Text → Option Text)

/-- What the service makes of an ID that the client sends. -/
def received (id : Text) : Option Text :=
  parseRECPOINTID staf resolveString (requestRECPOINTID staf id)

/-- The two tables of a file agree with its well-formed lines. The buffers hold anything before. -/
def TablesAgree (client service : ScanBuffers) (file : Text) : Prop :=
  ∃ gRecPtrList mRecPointMap,
    loadRECPOINT staf client (pieces lineRoom file) = some gRecPtrList ∧
    load staf service (fun _ => none) (pieces lineRoom file) = some mRecPointMap ∧
    gRecPtrList = (recPoints file).map RecPoint.id ∧ gRecPtrList.Nodup ∧
    (∀ r ∈ recPoints file, ∃ key sData, received staf resolveString r.id = some key ∧
      mRecPointMap key = some sData ∧ sData.filename = r.file ∧ sData.lineNumber = r.number ∧
      sData.queryString = enableRecptr key r.file r.number) ∧
    ∀ key, (mRecPointMap key).isSome → key ∈ (recPoints file).map RecPoint.id

/-- The fields fit, and the ID has no blank at its ends for the string class. -/
structure RecPoint.Fits (r : RecPoint) : Prop where
  file_lt : r.file.length < sizeofField
  id_lt : r.id.length < sizeofField
  isInt : IsInt r.number
  strip_id : staf.strip r.id = r.id

/-- Every line is well formed and fits, the IDs are different, and each is received as the ID of a
line for the same place. -/
structure WellFormed (file : Text) : Prop where
  lines : ∀ l ∈ wholeLines file, ∃ r, recPoint? l = some r ∧ r.Fits staf
  nodup : ((recPoints file).map RecPoint.id).Nodup
  received : ∀ r ∈ recPoints file, ∃ r' ∈ recPoints file,
    received staf resolveString r.id = some r'.id ∧ staf.strip r'.file = r.file ∧
      r'.number = r.number

end Spec

section Line

variable {bufs : ScanBuffers} {line : Text} {r : RecPoint}

private theorem isDigit_of_isspace {c : Char} (h : isspace c = true) : c.isDigit = false := by
  have hle : c.toNat ≤ 32 := by
    simp only [isspace, decide_eq_true_eq] at h
    omega
  have hlt : ¬ 48 ≤ c.val := by
    rw [UInt32.le_iff_toNat_le]
    exact Nat.not_le.mpr (Nat.lt_of_le_of_lt hle (by decide))
  simp [Char.isDigit, hlt]

private theorem signed_append {w : Text} (hw : w ≠ []) (t : Text) :
    signed (w ++ t) = ((signed w).1, (signed w).2 ++ t) := by
  cases w with
  | nil => exact absurd rfl hw
  | cons c cs =>
    rw [List.cons_append, signed, signed]
    split
    · rfl
    · split <;> rfl

/-- A number that is a word is read the same in front of other words. -/
theorem scanInt_append {w t : Text} {n : Int} (h : scanInt w = some (n, []))
    (ht : ∀ c ∈ t.head?, c.isDigit = false) : scanInt (w ++ t) = some (n, t) := by
  have hw : w ≠ [] := by
    intro hnil
    rw [hnil] at h
    cases h
  rw [scanInt] at h
  split at h
  · cases h
  · rename_i hds
    rw [Option.some.injEq, Prod.mk.injEq] at h
    obtain ⟨hn, hrest⟩ := h
    have hall : ∀ c ∈ (signed w).2, c.isDigit = true := List.dropWhile_eq_nil_iff.mp hrest
    have htake : t.takeWhile Char.isDigit = [] ∧ t.dropWhile Char.isDigit = t := by
      cases t with
      | nil => exact ⟨rfl, rfl⟩
      | cons c cs =>
        have hc := ht c rfl
        simp [hc]
    have hdigits : ((signed w).2 ++ t).takeWhile Char.isDigit = (signed w).2 := by
      rw [List.takeWhile_append_of_pos hall, htake.1, List.append_nil]
    have hdrop : ((signed w).2 ++ t).dropWhile Char.isDigit = t := by
      rw [List.dropWhile_append_of_pos hall, htake.2]
    have hself : (signed w).2.takeWhile Char.isDigit = (signed w).2 :=
      List.takeWhile_eq_self_iff.mpr hall
    rw [hself] at hds hn
    rw [scanInt, signed_append hw, hdigits, hdrop, if_neg hds, ← hn]

private theorem scanInt_of_number {w : Text} {n : Int} (h : number? w = some n) :
    scanInt w = some (n, []) := by
  obtain ⟨scan, hscan, hrest⟩ := Option.bind_eq_some_iff.mp h
  split at hrest
  · rename_i hnil
    cases hrest
    rw [← hnil]
    exact hscan
  · cases hrest

/-- The scan of a well-formed line. -/
theorem sscanf_of_recPoint (h : recPoint? line = some r) (bufs : ScanBuffers) :
    sscanf bufs line =
      if r.file.length < sizeofField ∧ IsInt r.number ∧ r.id.length < sizeofField then
        some (⟨r.file, r.id⟩, r.number)
      else none := by
  rw [recPoint?] at h
  split at h
  · rename_i file number id ws htokens
    obtain ⟨n, hn, rfl⟩ := Option.map_eq_some_iff.mp h
    have hscan := scanInt_of_number hn
    obtain ⟨hfile, htokens₂⟩ := firstWord_of_tokens htokens
    obtain ⟨hnumber, htokens₃⟩ := firstWord_of_tokens htokens₂
    obtain ⟨hid, _⟩ := firstWord_of_tokens htokens₃
    have hfileNe : file ≠ [] := by
      intro hnil
      rw [hnil] at hfile
      rw [tokens_eq_nil_of_firstWord hfile] at htokens
      cases htokens
    have hidNe : id ≠ [] := by
      intro hnil
      rw [hnil] at hid
      rw [tokens_eq_nil_of_firstWord hid] at htokens₃
      cases htokens₃
    have hint : scanInt (number ++ afterWord isspace
        (afterWord isspace (line.takeWhile (· ≠ '\x00')))) = some (n, _) :=
      scanInt_append hscan fun c hc => isDigit_of_isspace (sep_of_head?_afterWord c hc)
    rw [← hnumber, firstWord_append_afterWord] at hint
    rw [sscanf, hfile, if_neg hfileNe, hint]
    simp only [hid, hidNe, if_false]
    by_cases h₁ : file.length < sizeofField <;> by_cases h₂ : IsInt n <;>
      by_cases h₃ : id.length < sizeofField <;>
      simp [h₁, h₂, h₃, Nat.not_le.mpr, Nat.le_of_not_lt]
  · cases h

end Line

section Tables

variable {staf : Staf} {resolveString : Text → Option Text} {lines : List Text}

/-- The client adds an ID for every line. -/
theorem length_loadRECPOINT {bufs : ScanBuffers} {ids : List Text}
    (h : loadRECPOINT staf bufs lines = some ids) : ids.length = lines.length := by
  induction lines generalizing bufs ids with
  | nil =>
    cases h
    rfl
  | cons l ls ih =>
    obtain ⟨scan, _, h⟩ := Option.bind_eq_some_iff.mp h
    obtain ⟨ids', hids', rfl⟩ := Option.map_eq_some_iff.mp h
    rw [List.length_cons, List.length_cons, ih hids']

/-- If a list of lines is loaded, each line is scanned. -/
theorem sscanf_of_loadRECPOINT {bufs : ScanBuffers} {ids : List Text} {l : Text}
    (h : loadRECPOINT staf bufs lines = some ids) (hl : l ∈ lines) :
    ∃ bufs', (sscanf bufs' l).isSome := by
  induction lines generalizing bufs ids with
  | nil => cases hl
  | cons l' ls ih =>
    obtain ⟨scan, hscan, h⟩ := Option.bind_eq_some_iff.mp h
    obtain ⟨ids', hids', rfl⟩ := Option.map_eq_some_iff.mp h
    rcases List.mem_cons.mp hl with rfl | hl
    · exact ⟨bufs, by rw [hscan]; rfl⟩
    · exact ih hids' hl

/-- The lines are well formed, with these fields. -/
def Lines (lines : List Text) (rs : List RecPoint) : Prop :=
  List.Forall₂ (fun l r => recPoint? l = some r ∧
    r.file.length < sizeofField ∧ IsInt r.number ∧ r.id.length < sizeofField) lines rs

theorem loadRECPOINT_of_lines {rs : List RecPoint} (h : Lines lines rs) (bufs : ScanBuffers) :
    loadRECPOINT staf bufs lines = some (rs.map fun r => staf.strip r.id) := by
  induction h generalizing bufs with
  | nil => rfl
  | @cons l r lines rs hl _ ih =>
    rw [loadRECPOINT, sscanf_of_recPoint hl.1, if_pos hl.2, Option.bind_some, ih]
    rfl

/-- The entry of a well-formed line. -/
def RecPoint.entry (staf : Staf) (r : RecPoint) : RecPointData :=
  recPointData staf ⟨r.file, r.id⟩ r.number

/-- The service keeps the first line of each ID. -/
theorem load_of_lines {rs : List RecPoint} (h : Lines lines rs) (bufs : ScanBuffers)
    (m : RecPtrMap) :
    ∃ m', load staf bufs m lines = some m' ∧
      ∀ key, m' key = (m key).or ((rs.find? fun r => staf.strip r.id = key).map (·.entry staf)) := by
  induction h generalizing bufs m with
  | nil => exact ⟨m, rfl, fun key => by simp⟩
  | @cons l r lines rs hl _ ih =>
    obtain ⟨m', hm', hfind⟩ := ih ⟨r.file, r.id⟩ (m.insert (r.entry staf))
    refine ⟨m', ?_, fun key => ?_⟩
    · rw [load, sscanf_of_recPoint hl.1, if_pos hl.2, Option.bind_some]
      exact hm'
    · rw [hfind, RecPtrMap.insert, List.find?_cons]
      show (if key = staf.strip r.id then _ else _ : Option RecPointData).or _ = _
      by_cases hkey : key = staf.strip r.id
      · rw [if_pos hkey]
        cases m key <;> simp [hkey]
      · simp [hkey, Ne.symm hkey]

end Tables

section Statement

variable (staf : Staf)

/-- What is printed without a blank has nothing to strip. -/
theorem strip_of_printable {s : Text} (h : ∀ c ∈ s, '!' ≤ c ∧ c ≤ '~') : staf.strip s = s := by
  have hwhite : ∀ c ∈ s, staf.white c = false := fun c hc =>
    staf.white_printable c (h c hc).1 (h c hc).2
  have hdrop : s.dropWhile staf.white = s := by
    cases s with
    | nil => rfl
    | cons c cs =>
      have hc := hwhite c List.mem_cons_self
      rw [List.dropWhile_cons_of_neg (by simp [hc])]
  rw [staf.strip_eq, stripWith, hdrop]
  cases s using List.reverseRecOn with
  | nil => rfl
  | append_singleton cs c =>
    have hc := hwhite c (List.mem_append_right _ List.mem_cons_self)
    rw [List.rdropWhile_concat_neg _ _ _ (by simp [hc])]

private theorem printable_decimal (n : Int) : ∀ c ∈ decimal n, '!' ≤ c ∧ c ≤ '~' := by
  have hdigits : ∀ m : Nat, ∀ c ∈ Nat.toDigits 10 m, '!' ≤ c ∧ c ≤ '~' := by
    intro m c hc
    have hdigit := Nat.isDigit_of_mem_toDigits (by decide) (by decide) hc
    simp only [Char.isDigit, Bool.and_eq_true, decide_eq_true_eq] at hdigit
    have hlow : '!'.val ≤ 48 := by decide
    have hhigh : (57 : UInt32) ≤ '~'.val := by decide
    exact ⟨UInt32.le_trans hlow hdigit.1, UInt32.le_trans hdigit.2 hhigh⟩
  rw [decimal]
  split
  · exact List.forall_mem_cons.mpr ⟨by decide, hdigits _⟩
  · exact hdigits _

private theorem spell_query (a q c k z t e id file n p : Text) :
    a ++ (q ++ id ++ c) ++ (q ++ k ++ c) ++ (z ++ t) ++ e ++ (z ++ t) ++ (q ++ file ++ c) ++
      (n ++ p) =
      (a ++ q) ++ id ++ (c ++ (q ++ (k ++ (c ++ (z ++ (t ++ (e ++ (z ++ (t ++ q))))))))) ++ file ++
        c ++ n ++ p := by
  simp only [List.append_assoc]

private theorem enableQuery_eq (id file : Text) (number : Int) :
    enableQuery id "KILL".toList (decimal 0) (decimal 0) file (decimal number) =
      enableRecptr id file number := by
  have hopen : "execute enable_recptr( ".toList ++ "'".toList =
      "execute enable_recptr( '".toList := by decide
  have hmiddle : "', ".toList ++ ("'".toList ++ ("KILL".toList ++
      ("', ".toList ++ (decimal 0 ++ (", ".toList ++ ("0, ".toList ++ (decimal 0 ++
        (", ".toList ++ "'".toList)))))))) = "', 'KILL', 0, 0, 0, '".toList := by decide
  have hspell := spell_query "execute enable_recptr( ".toList "'".toList "', ".toList "KILL".toList
    (decimal 0) ", ".toList "0, ".toList id file (decimal number) ")".toList
  exact hspell.trans (congrArg₂ (fun front middle => front ++ id ++ middle ++ file ++ "', ".toList ++
    decimal number ++ ")".toList) hopen hmiddle)

/-- The statement of an entry names the file and the line of its ID. -/
theorem queryString_entry {r : RecPoint} (hid : staf.strip r.id = r.id) :
    (r.entry staf).queryString = enableRecptr r.id (staf.strip r.file) r.number := by
  have hkill : staf.strip "KILL".toList = "KILL".toList :=
    strip_of_printable staf (by simp)
  have hdecimal : ∀ n, staf.strip (decimal n) = decimal n := fun n =>
    strip_of_printable staf (printable_decimal n)
  have hquery : (r.entry staf).queryString = enableQuery r.id "KILL".toList (decimal 0) (decimal 0)
      (staf.strip r.file) (decimal r.number) := by
    show enableQuery _ _ _ _ _ _ = _
    rw [hid, hid, hkill, hdecimal, hdecimal]
  rw [hquery]
  exact enableQuery_eq r.id (staf.strip r.file) r.number

end Statement

section Agree

variable {staf : Staf} {resolveString : Text → Option Text} {client service : ScanBuffers}
  {file : Text}

private theorem lines_of_wellFormed (h : ∀ l ∈ wholeLines file, ∃ r, recPoint? l = some r ∧
    r.file.length < sizeofField ∧ IsInt r.number ∧ r.id.length < sizeofField) :
    Lines (wholeLines file) (recPoints file) := by
  rw [recPoints]
  generalize wholeLines file = ls at h ⊢
  induction ls with
  | nil => exact .nil
  | cons l ls ih =>
    obtain ⟨⟨r, hr, hfits⟩, hls⟩ := List.forall_mem_cons.mp h
    rw [List.filterMap_cons_some hr]
    exact .cons ⟨hr, hfits⟩ (ih hls)

/-- A list that is as long as the lines leaves no line out. -/
private theorem recPoint_of_length (h : (recPoints file).length = (wholeLines file).length)
    {l : Text} (hl : l ∈ wholeLines file) : ∃ r, recPoint? l = some r :=
  Option.isSome_iff_exists.mp (List.filterMap_length_eq_length.mp h l hl)

private theorem fits_of_sscanf {bufs : ScanBuffers} {l : Text} {r : RecPoint}
    (hr : recPoint? l = some r) (h : (sscanf bufs l).isSome) :
    r.file.length < sizeofField ∧ IsInt r.number ∧ r.id.length < sizeofField := by
  by_contra hfits
  rw [sscanf_of_recPoint hr, if_neg hfits] at h
  cases h

/-- An ID that is found in the map of the service is the ID of a line, with the entry of that
line. -/
private theorem entry_of_find {rs : List RecPoint} {m : RecPtrMap} {key : Text} {sData : RecPointData}
    (hfind : ∀ key, m key = (rs.find? fun r => staf.strip r.id = key).map (·.entry staf))
    (h : m key = some sData) : ∃ r ∈ rs, staf.strip r.id = key ∧ sData = r.entry staf := by
  rw [hfind] at h
  obtain ⟨r, hr, rfl⟩ := Option.map_eq_some_iff.mp h
  exact ⟨r, List.mem_of_find?_eq_some hr, by simpa using List.find?_some hr, rfl⟩

private theorem find_of_mem {rs : List RecPoint} {m : RecPtrMap}
    (hfind : ∀ key, m key = (rs.find? fun r => staf.strip r.id = key).map (·.entry staf))
    (hstrip : ∀ r ∈ rs, staf.strip r.id = r.id) (hnodup : (rs.map RecPoint.id).Nodup)
    {r : RecPoint} (hr : r ∈ rs) : m r.id = some (r.entry staf) := by
  rw [hfind]
  cases hfound : rs.find? fun r' => staf.strip r'.id = r.id with
  | none =>
    have hnot := List.find?_eq_none.mp hfound r hr
    simp [hstrip r hr] at hnot
  | some r' =>
    have hmem := List.mem_of_find?_eq_some hfound
    have hid : staf.strip r'.id = r.id := by simpa using List.find?_some hfound
    rw [hstrip r' hmem] at hid
    rw [List.inj_on_of_nodup_map hnodup hmem hr hid]
    rfl

/-- The two tables agree with the file if and only if its lines are well formed throughout. -/
theorem tablesAgree_iff (hfit : ∀ l ∈ wholeLines file, l.length ≤ lineRoom) :
    TablesAgree staf resolveString client service file ↔ WellFormed staf resolveString file := by
  rw [TablesAgree, pieces_of_fit hfit]
  constructor
  · rintro ⟨ids, m, hids, hm, hlist, hnodup, hreceived, _⟩
    have hlength : (recPoints file).length = (wholeLines file).length := by
      rw [← length_loadRECPOINT hids, hlist, List.length_map]
    have hall : ∀ l ∈ wholeLines file, ∃ r, recPoint? l = some r ∧
        r.file.length < sizeofField ∧ IsInt r.number ∧ r.id.length < sizeofField := by
      intro l hl
      obtain ⟨r, hr⟩ := recPoint_of_length hlength hl
      obtain ⟨bufs, hscan⟩ := sscanf_of_loadRECPOINT hids hl
      exact ⟨r, hr, fits_of_sscanf hr hscan⟩
    have hlines := lines_of_wellFormed hall
    rw [loadRECPOINT_of_lines hlines, Option.some.injEq] at hids
    have hstrip : ∀ r ∈ recPoints file, staf.strip r.id = r.id :=
      List.map_inj_left.mp (hids.trans hlist)
    obtain ⟨m', hm', hfind⟩ := @load_of_lines staf _ _ hlines service fun _ => none
    obtain rfl : m' = m := Option.some.inj (hm'.symm.trans hm)
    refine ⟨fun l hl => ?_, hlist ▸ hnodup, fun r hr => ?_⟩
    · obtain ⟨r, hr, hfile, hint, hid⟩ := hall l hl
      exact ⟨r, hr, hfile, hid, hint, hstrip r (List.mem_filterMap.mpr ⟨l, hl, hr⟩)⟩
    · obtain ⟨key, sData, hkey, hsData, hname, hnumber, _⟩ := hreceived r hr
      obtain ⟨r', hr', rfl, rfl⟩ := entry_of_find (fun key => by simpa using hfind key) hsData
      rw [hstrip r' hr'] at hkey
      exact ⟨r', hr', hkey, hname, hnumber⟩
  · intro h
    have hstrip : ∀ r ∈ recPoints file, staf.strip r.id = r.id := by
      intro r hr
      obtain ⟨l, hl, hlr⟩ := List.mem_filterMap.mp hr
      obtain ⟨r', hr', hfits⟩ := h.lines l hl
      obtain rfl : r' = r := Option.some.inj (hr'.symm.trans hlr)
      exact hfits.strip_id
    have hlines : Lines (wholeLines file) (recPoints file) := by
      refine lines_of_wellFormed fun l hl => ?_
      obtain ⟨r, hr, hfits⟩ := h.lines l hl
      exact ⟨r, hr, hfits.file_lt, hfits.isInt, hfits.id_lt⟩
    have hids : (recPoints file).map (fun r => staf.strip r.id) =
        (recPoints file).map RecPoint.id := List.map_inj_left.mpr hstrip
    obtain ⟨m, hm, hfind⟩ := @load_of_lines staf _ _ hlines service fun _ => none
    have hfind : ∀ key, m key =
        ((recPoints file).find? fun r => staf.strip r.id = key).map (·.entry staf) :=
      fun key => by simpa using hfind key
    refine ⟨_, m, loadRECPOINT_of_lines hlines client, hm, hids, hids ▸ h.nodup, fun r hr => ?_,
      fun key hkey => ?_⟩
    · obtain ⟨r', hr', hreceived, hname, hnumber⟩ := h.received r hr
      refine ⟨r'.id, _, hreceived, find_of_mem hfind hstrip h.nodup hr', hname, hnumber, ?_⟩
      rw [queryString_entry staf (hstrip r' hr'), hname, hnumber]
    · obtain ⟨sData, hsData⟩ := Option.isSome_iff_exists.mp hkey
      obtain ⟨r, hr, hid, _⟩ := entry_of_find hfind hsData
      rw [hstrip r hr] at hid
      exact List.mem_map.mpr ⟨r, hr, hid⟩

theorem tablesAgree_single :
    TablesAgree .ascii some ⟨[], []⟩ ⟨[], []⟩ "a.c 10 P:1\n".toList ↔
      WellFormed .ascii some "a.c 10 P:1\n".toList :=
  tablesAgree_iff (by decide)

/-- For a blank line the client adds the ID of the line before once more. -/
theorem blank_line_repeats :
    ¬ TablesAgree .ascii some ⟨[], []⟩ ⟨[], []⟩ "a.c 10 P:1\n\na.c 20 P:2\n".toList := by
  rintro ⟨ids, m, hids, _, hlist, _⟩
  have hlines := length_loadRECPOINT hids
  have hlength := congrArg List.length hlist
  rw [hlines, List.length_map] at hlength
  revert hlength
  decide

end Agree

end Natc.Ats
