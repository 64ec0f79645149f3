import Natc.Ats.TypeRule
import Natc.Isql.HostVar
import Natc.Isql.Tokens

/-!
# Declarations of host variables

`VAR_STAT`, `identifier` and `rule_data_type` of the grammar of commands. The name of a declaration
is one word for the grammar, but not always for the scanner.
-/

namespace Natc.Isql.Grammar

open Lib.Scanner Parse
open Natc.Ats.TypeRule (Literal Shape atoi atoi_eq_iff store store_eq_some)

/-! ## The grammar -/

def WORD_LEN : Nat := 256

/-- The text in front of the last `c`, where there is one. -/
def beforeLast (c : Char) (s : Text) : Option Text :=
  if c ∈ s then some (s.rdropWhile (· != c)).dropLast else none

/-- `chkID` on `gTmpBuf`. -/
def chkID (s : Text) : Text :=
  match beforeLast '\n' s with
  | some line => (beforeLast ';' s).getD line
  | none => (beforeLast ';' s).getD s

/-- The tokens that `identifier` takes as they are. -/
def nameKinds : List Kind := [
  .tAll, .tAutocommit, .tBigint, .tChar, .tComment, .tDate, .tDecimal, .tDesc, .tDisconnect,
  .tDouble, .tEdit, .tExecute, .tExit, .tFloat, .tHeading, .tForeignkeys, .tHelp, .tHistory, .tByte,
  .tNibble, .tIndex, .tInteger, .tColsize, .tLinesize, .tLoad, .tMicsec, .tMilsec, .tNansec,
  .tNumber, .tNumeric, .tOff, .tOn, .tPagesize, .tPrint, .tQuit, .tReal, .tSave, .tSec, .tSet,
  .tShow, .tSmallint, .tSpool, .tStart, .tTerm, .tTimescale, .tTiming, .tUser, .tVarchar,
  .tVariable, .tVerbose, .tNaturalnum, .tIdentifier]

/-- The tokens that `identifier` passes through `chkID`. -/
def statementKinds : List Kind := [
  .tSelect, .tAlter, .tCheck, .tCommit, .tCrtObj, .tDelete, .tDrop, .tGrant, .tInsert, .tLock,
  .tMove, .tRename, .tRevoke, .tRollback, .tSavepoint, .tTruncate, .tUpdate, .tConnect, .tHisedit]

def identifier (token : LexToken) : Option Text :=
  if token.kind ∈ nameKinds then some token.text
  else if token.kind ∈ statementKinds then some (chkID token.text)
  else none

/-- What differs from alternative to alternative: the type, the precision (`atoi($3)` as `none`) and
what stands in the scale in front of its number (no scale as `none`). -/
structure TypeAction where
  type : VarType
  precision : Option Int
  scale : Option Text
  deriving DecidableEq

/-- The alternatives of `rule_data_type`, by the first token. -/
def ruleDataType : Kind → Shape → Option TypeAction
  | .tBigint, .alone => some ⟨.bigint, some (-1), none⟩
  | .tChar, .alone => some ⟨.char, some 1, none⟩
  | .tChar, .sized => some ⟨.char, none, none⟩
  | .tDate, .alone => some ⟨.date, some (-1), none⟩
  | .tDecimal, .alone => some ⟨.decimal, some (-1), none⟩
  | .tDecimal, .sized => some ⟨.decimal, none, none⟩
  | .tDecimal, .scaled => some ⟨.decimal, none, some []⟩
  | .tDecimal, .plus => some ⟨.decimal, none, some ['+']⟩
  | .tDecimal, .minus => some ⟨.decimal, none, some ['-']⟩
  | .tDouble, .alone => some ⟨.double, some (-1), none⟩
  | .tFloat, .alone => some ⟨.float, some (-1), none⟩
  | .tFloat, .sized => some ⟨.float, none, none⟩
  | .tByte, .alone => some ⟨.byte, some 1, none⟩
  | .tByte, .sized => some ⟨.byte, none, none⟩
  | .tNibble, .alone => some ⟨.nibble, some 1, none⟩
  | .tNibble, .sized => some ⟨.nibble, none, none⟩
  | .tInteger, .alone => some ⟨.integer, some (-1), none⟩
  | .tNumber, .alone => some ⟨.number, some (-1), none⟩
  | .tNumber, .sized => some ⟨.number, none, none⟩
  | .tNumber, .scaled => some ⟨.number, none, some []⟩
  | .tNumber, .plus => some ⟨.number, none, some ['+']⟩
  | .tNumber, .minus => some ⟨.number, none, some ['-']⟩
  | .tNumeric, .alone => some ⟨.numeric, some (-1), none⟩
  | .tNumeric, .sized => some ⟨.numeric, none, none⟩
  | .tNumeric, .scaled => some ⟨.numeric, none, some []⟩
  | .tNumeric, .plus => some ⟨.numeric, none, some ['+']⟩
  | .tNumeric, .minus => some ⟨.numeric, none, some ['-']⟩
  | .tReal, .alone => some ⟨.real, some (-1), none⟩
  | .tSmallint, .alone => some ⟨.smallint, some (-1), none⟩
  | .tVarchar, .alone => some ⟨.varchar, some 1, none⟩
  | .tVarchar, .sized => some ⟨.varchar, none, none⟩
  | .tIdentifier, _ => some ⟨.bad, some 1, none⟩
  | _, _ => none

/-- The tokens of an alternative behind its type. -/
structure Alternative where
  shape : Shape
  precision : Text
  scale : Text
  deriving DecidableEq

def alternative : List LexToken → Option Alternative
  | ⟨.sLparen, _⟩ :: ⟨.tNaturalnum, p⟩ :: rest =>
    match rest with
    | ⟨.sRparen, _⟩ :: _ => some ⟨.sized, p, []⟩
    | ⟨.sComma, _⟩ :: ⟨.tNaturalnum, s⟩ :: ⟨.sRparen, _⟩ :: _ => some ⟨.scaled, p, s⟩
    | ⟨.sComma, _⟩ :: ⟨.sPlus, _⟩ :: ⟨.tNaturalnum, s⟩ :: ⟨.sRparen, _⟩ :: _ => some ⟨.plus, p, s⟩
    | ⟨.sComma, _⟩ :: ⟨.sMinus, _⟩ :: ⟨.tNaturalnum, s⟩ :: ⟨.sRparen, _⟩ :: _ => some ⟨.minus, p, s⟩
    | _ => none
  | ⟨.sLparen, _⟩ :: _ => none
  | _ => some ⟨.alone, [], []⟩

/-- The arguments of `iSQLHostVarMgr::add`. -/
structure HostVarDec where
  name : Text
  type : VarType
  precision : Int
  scale : Text
  deriving DecidableEq

/-- What an alternative writes to `s_HostVarType`, `s_HostVarPrecision`, `s_HostVarScale`; none if
the scale does not fit. -/
def TypeAction.run (action : TypeAction) (name : Text) (a : Alternative) : Option HostVarDec := do
  let scale ← store WORD_LEN (action.scale.elim [] fun sign => sign ++ a.scale)
  pure ⟨name, action.type, action.precision.getD (atoi a.precision), scale⟩

/-- A parenthesis behind a type that has no size is not read any more. -/
def alternativeOf (type : Kind) (rest : List LexToken) : Option Alternative :=
  if (ruleDataType type .sized).isSome then alternative rest else some ⟨.alone, [], []⟩

/-- `rule_data_type` -/
def dataType (name : Text) : List LexToken → Option HostVarDec
  | [] => none
  | ⟨kind, _⟩ :: rest => do
    let a ← alternativeOf kind rest
    let action ← ruleDataType kind a.shape
    action.run name a

/-- `VAR_STAT`. `end_stmt` can be empty, and nothing is read behind it. -/
def varStat : List LexToken → Option HostVarDec
  | ⟨.tVariable, _⟩ :: name :: rest => do
    let name ← identifier name
    dataType name rest
  | _ => none

/-! ## Declarations -/

/-- `[0-9]+` -/
structure Digits where
  text : Text
  ne_nil : text ≠ []
  isDigit : ∀ c ∈ text, c.isDigit = true

def Digits.literal (d : Digits) : Literal := ⟨false, d.text, d.ne_nil, d.isDigit⟩

inductive Sign where
  | none | plus | minus
  deriving DecidableEq, Repr

/-- The precision and the scale as they are written. -/
inductive Form where
  | alone
  | sized (p : Digits)
  | scaled (p : Digits) (sign : Sign) (s : Digits)

def Form.shape : Form → Shape
  | .alone => .alone
  | .sized _ => .sized
  | .scaled _ .none _ => .scaled
  | .scaled _ .plus _ => .plus
  | .scaled _ .minus _ => .minus

/-- Where blanks can stand: behind each token. -/
inductive Gap where
  | keyword | name | type | lparen | precision | comma | sign | scale | rparen | semicolon
  deriving DecidableEq, Repr

/-- The types that have a host type. -/
def host : Kind → Option VarType
  | .tBigint => some .bigint
  | .tChar => some .char
  | .tDate => some .date
  | .tDecimal => some .decimal
  | .tDouble => some .double
  | .tFloat => some .float
  | .tByte => some .byte
  | .tNibble => some .nibble
  | .tInteger => some .integer
  | .tNumber => some .number
  | .tNumeric => some .numeric
  | .tReal => some .real
  | .tSmallint => some .smallint
  | .tVarchar => some .varchar
  | _ => none

/-- Without a precision, strings have the length 1 and other types have none. -/
def defaultPrecision : VarType → Int
  | .char | .byte | .nibble | .varchar => 1
  | _ => -1

/-- `VAR name type[(p[, [+|-]s])][;]` with a type that the grammar lists. -/
structure Declaration where
  keyword : Text
  keyword_eq : upper keyword = "VAR".toList ∨ upper keyword = "VARIABLE".toList
  name : Text
  name_word : IsWord name
  typeWord : String × Kind
  typeWord_mem : typeWord ∈ keywords
  type : VarType
  type_eq : host typeWord.2 = some type
  typeText : Text
  typeText_eq : upper typeText = typeWord.1.toList
  form : Form
  listed : (ruleDataType typeWord.2 form.shape).isSome
  gap : Gap → Text
  gap_blank : ∀ g, ∀ b ∈ gap g, b = ' ' ∨ b = '\t'
  keyword_apart : gap .keyword ≠ []
  name_apart : gap .name ≠ []
  semicolon : Bool
  carriageReturn : Bool

namespace Declaration

variable (d : Declaration)

def ending : Text :=
  (if d.semicolon then ';' :: d.gap .semicolon else []) ++
    (if d.carriageReturn then ['\r'] else []) ++ ['\n']

def signText : Sign → Text
  | .none => []
  | .plus => '+' :: d.gap .sign
  | .minus => '-' :: d.gap .sign

/-- What stands behind the type. -/
def behind : Text :=
  match d.form with
  | .alone => d.gap .type ++ d.ending
  | .sized p =>
    d.gap .type ++ '(' :: (d.gap .lparen ++ (p.text ++ (d.gap .precision ++
      ')' :: (d.gap .rparen ++ d.ending))))
  | .scaled p sign s =>
    d.gap .type ++ '(' :: (d.gap .lparen ++ (p.text ++ (d.gap .precision ++
      ',' :: (d.gap .comma ++ (d.signText sign ++ (s.text ++ (d.gap .scale ++
        ')' :: (d.gap .rparen ++ d.ending))))))))

/-- The line that the scanner gets. -/
def text : Text :=
  d.keyword ++ (d.gap .keyword ++ (d.name ++ (d.gap .name ++ (d.typeText ++ d.behind))))

def precision : Int :=
  match d.form with
  | .alone => defaultPrecision d.type
  | .sized p | .scaled p _ _ => p.literal.value

/-- The scale with its sign. -/
def scale : Text :=
  match d.form with
  | .alone | .sized _ => []
  | .scaled _ .none s => s.text
  | .scaled _ .plus s => '+' :: s.text
  | .scaled _ .minus s => '-' :: s.text

def stated : HostVarDec := ⟨d.name, d.type, d.precision, d.scale⟩

/-- What is written is passed on. -/
def Declared : Prop := varStat (lex d.text) = some d.stated

/-- The words that are no names for the grammar; in front of a word `EXEC` is an SQL statement. -/
def reserved : List String := [
  "EXEC", "EXECUTE", "NULL", "PLANCOMMIT", "QUERYLOGGING", "STARTUP", "PROCESS", "CONTROL", "META",
  "SERVICE", "SESSION", "PROPERTY", "REPLICATION", "DB", "MEMORY", "SHUTDOWN", "NORM", "NORMAL",
  "IMME", "IMMEDIATE", "ABOR", "ABORT", "PREPARE"]

/-- The name is a word by itself, a minus stands apart, and the numbers fit. -/
structure Plain : Prop where
  statement : swallowed d.name = false
  word : upper d.name ∉ reserved.map String.toList
  minus : d.form.shape = .minus → d.gap .sign ≠ []
  precision : d.precision < 2 ^ 31
  scale : d.scale.length < WORD_LEN

end Declaration

/-! ## Words -/

section words

variable {w tail : Text}

theorem isLetter_of_toUpper {c : Char} (h : c.toUpper.isUpper = true) : isLetter c = true := by
  have halpha : c.isAlpha = true := by
    rw [isAlpha_eq, Bool.or_eq_true]
    by_cases hc : 'a'.val ≤ c.val ∧ c.val ≤ 'z'.val
    · exact .inr (by simpa [isLower_eq] using hc)
    · have hsame : c.toUpper = c := dif_neg hc
      rw [hsame] at h
      exact .inl h
  rw [isLetter, halpha, Bool.true_or]

/-- A word of letters is one for the scanner. -/
theorem isWord_of_upper {k : String} (hk : (k.toList.all Char.isUpper) = true)
    (hne : k.toList ≠ []) (h : upper w = k.toList) : IsWord w := by
  have hletter : ∀ c ∈ w, isLetter c = true := by
    intro c hc
    have hmem : c.toUpper ∈ k.toList := by
      rw [← h]
      exact List.mem_map_of_mem hc
    exact isLetter_of_toUpper (List.all_eq_true.mp hk _ hmem)
  have hinitial : ∀ c ∈ w, isInitial c = true := by
    intro c hc
    rw [isInitial, hletter c hc, Bool.true_or]
  refine ⟨?_, fun c hc => hinitial c (List.mem_of_mem_head? hc), fun c hc => ?_⟩
  · rintro rfl
    exact hne h.symm
  · rw [isInner, hinitial c hc, Bool.true_or]

/-- What is checked for every keyword. -/
instance keywords_checked : Fact ((keywords.all fun k =>
    k.1.toList.all Char.isUpper && k.1.toList ≠ [] &&
      !(heads.any fun h => h.toList.isPrefixOf k.1.toList) &&
      (keywords.find? fun j => j.1.toList = k.1.toList) == some k) = true) :=
  ⟨by decide +kernel⟩

theorem kindOf_keyword {k : String × Kind} (hk : k ∈ keywords) (h : upper w = k.1.toList) :
    kindOf w = k.2 := by
  have hcheck := List.all_eq_true.mp keywords_checked.out k hk
  simp only [Bool.and_eq_true, beq_iff_eq] at hcheck
  rw [kindOf, h, hcheck.2]

theorem alone_keyword {k : String × Kind} (hk : k ∈ keywords) (h : upper w = k.1.toList)
    (hname : k.1 ∉ ["EXECUTE", "EXEC", "SET"]) (hstop : ∀ c ∈ tail.head?, c ∈ stops) :
    Alone w tail := by
  have hcheck := List.all_eq_true.mp keywords_checked.out k hk
  simp only [Bool.and_eq_true, Bool.not_eq_true', decide_eq_true_eq] at hcheck
  have hother : ∀ s ∈ ["EXECUTE", "EXEC", "SET"], upper w ≠ s.toList := by
    intro s hs heq
    rw [h] at heq
    exact hname (String.toList_inj.mp heq ▸ hs)
  refine ⟨isWord_of_upper hcheck.1.1.1 hcheck.1.1.2 h, hstop, ?_, ?_, ?_⟩
  · rw [swallowed, h]
    exact hcheck.1.2
  · intro hexec
    rcases List.mem_pair.mp hexec with hexec | hexec
    · exact absurd hexec (hother _ (by simp))
    · exact absurd hexec (hother _ (by simp))
  · exact fun hset => absurd hset (hother _ (by simp))

/-- The keywords that `identifier` takes as names. -/
instance names_checked : Fact ((keywords.all fun k =>
    ["EXECUTE".toList, "EXEC".toList].contains k.1.toList ||
      (if (Declaration.reserved.map String.toList).contains k.1.toList then
        !nameKinds.contains k.2 && !statementKinds.contains k.2
      else nameKinds.contains k.2)) = true) :=
  ⟨by decide +kernel⟩

instance reserved_checked : Fact ((Declaration.reserved.all fun s =>
    s == "PREPARE" || keywords.any fun k => k.1 == s) = true) :=
  ⟨by decide +kernel⟩

/-- What `identifier` makes of a word. -/
theorem identifier_kindOf (hexec : upper w ∉ ["EXECUTE".toList, "EXEC".toList]) :
    identifier ⟨kindOf w, w⟩ =
      if upper w ∈ Declaration.reserved.map String.toList then none else some w := by
  by_cases hkey : ∃ k ∈ keywords, upper w = k.1.toList
  · obtain ⟨k, hk, hw⟩ := hkey
    have hone := List.all_eq_true.mp names_checked.out k hk
    rw [hw] at hexec
    rw [← List.contains_iff_mem, Bool.not_eq_true] at hexec
    rw [hexec, Bool.false_or] at hone
    simp only [identifier, kindOf_keyword hk hw, hw, ← List.contains_iff_mem]
    by_cases hres : (Declaration.reserved.map String.toList).contains k.1.toList = true
    · rw [if_pos hres, Bool.and_eq_true, Bool.not_eq_true', Bool.not_eq_true'] at hone
      rw [if_pos hres, hone.1, hone.2]
      rfl
    · rw [if_neg hres] at hone
      rw [if_neg hres, if_pos hone]
  · have hfind : (keywords.find? fun k => k.1.toList = upper w) = none := by
      rw [List.find?_eq_none]
      intro k hk heq
      exact hkey ⟨k, hk, (of_decide_eq_true heq).symm⟩
    have hres : upper w ∈ Declaration.reserved.map String.toList ↔ upper w = "PREPARE".toList := by
      constructor
      · intro hmem
        obtain ⟨s, hs, heq⟩ := List.mem_map.mp hmem
        have hone := List.all_eq_true.mp reserved_checked.out s hs
        rw [Bool.or_eq_true, beq_iff_eq, List.any_eq_true] at hone
        rcases hone with rfl | ⟨k, hk, hks⟩
        · exact heq.symm
        · exact absurd ⟨k, hk, by rw [← heq, beq_iff_eq.mp hks]⟩ hkey
      · intro heq
        rw [heq]
        exact List.mem_map_of_mem (by decide)
    simp only [identifier, kindOf, hfind, hres]
    by_cases hprepare : upper w = "PREPARE".toList
    · rw [if_pos hprepare, if_pos hprepare]
      rfl
    · rw [if_neg hprepare, if_neg hprepare]
      rfl

end words

/-! ## Alternatives -/

section alternatives

/-- The action that passes on what is written. -/
def statedAction (type : VarType) (shape : Shape) : TypeAction :=
  ⟨type, if shape = .alone then some (defaultPrecision type) else none, shape.sign⟩

def shapes : List Shape := [.alone, .sized, .scaled, .plus, .minus]

theorem mem_shapes (shape : Shape) : shape ∈ shapes := by
  cases shape <;> decide

/-- Every alternative of a host type has that action, and those with a scale stand next to one with
a precision only. -/
instance ruleDataType_checked : Fact ((keywords.all fun k => shapes.all fun shape =>
    (host k.2).all fun type => (ruleDataType k.2 shape).all fun action =>
      action == statedAction type shape &&
        (shape == .alone || (ruleDataType k.2 .sized).isSome)) = true) :=
  ⟨by decide +kernel⟩

end alternatives

/-! ## The tokens of a declaration -/

namespace Declaration

section tokens

variable (d : Declaration) {tail : Text}

theorem gap_isBlank (g : Gap) : ∀ b ∈ d.gap g, Parse.isBlank b = true := by
  intro b hb
  rcases d.gap_blank g b hb with rfl | rfl <;> rfl

theorem lex_gap (g : Gap) (htail : ∀ c ∈ tail.head?, isSpace c = false) :
    lex (d.gap g ++ tail) = lex tail := by
  refine lex_space (fun b hb => ?_) htail
  rcases d.gap_blank g b hb with rfl | rfl <;> rfl

theorem head_gap {g : Gap} (hg : d.gap g ≠ []) : ∀ c ∈ (d.gap g ++ tail).head?, c ∈ stops := by
  obtain ⟨b, bs, hb⟩ := List.exists_cons_of_ne_nil hg
  intro c hc
  rw [hb, List.cons_append] at hc
  obtain rfl : b = c := Option.some.inj hc
  rcases d.gap_blank g b (by rw [hb]; exact List.mem_cons_self) with rfl | rfl <;> decide

/-- Blanks do not change which signs a word can stop at. -/
theorem head_gap_append (g : Gap) (htail : ∀ c ∈ tail.head?, c ∈ stops) :
    ∀ c ∈ (d.gap g ++ tail).head?, c ∈ stops := by
  by_cases hg : d.gap g = []
  · rwa [hg]
  · exact d.head_gap hg

/-- An initial letter is no white space. -/
instance initial_checked : Fact ((((List.range 256).map Char.ofNat).all fun c =>
    !isInitial c || (!isSpace c && !Parse.isBlank c)) = true) :=
  ⟨by decide +kernel⟩

theorem not_white_of_isInitial {c : Char} (hc : isInitial c = true) :
    isSpace c = false ∧ Parse.isBlank c = false := by
  simpa using @forall_isInitial (fun c => !isSpace c && !Parse.isBlank c) initial_checked.out c hc

theorem not_isSpace_of_isWord {w : Text} (hw : IsWord w) :
    ∀ c ∈ (w ++ tail).head?, isSpace c = false := by
  intro c hc
  rw [List.head?_append_of_ne_nil _ hw.ne_nil] at hc
  exact (not_white_of_isInitial (hw.initial c hc)).1

theorem not_isSpace_of_isDigit (p : Digits) : ∀ c ∈ (p.text ++ tail).head?, isSpace c = false := by
  intro c hc
  rw [List.head?_append_of_ne_nil _ p.ne_nil] at hc
  simpa using @forall_isDigit (fun c => !isSpace c) (by decide) c
    (p.isDigit c (List.mem_of_mem_head? hc))

instance type_checked : Fact ((keywords.all fun k => (host k.2).isNone ||
    (!(["EXECUTE", "EXEC", "SET"].contains k.1) && k.1.toList.head? != some 'T')) = true) :=
  ⟨by decide +kernel⟩

theorem typeWord_checked :
    d.typeWord.1 ∉ ["EXECUTE", "EXEC", "SET"] ∧ d.typeWord.1.toList.head? ≠ some 'T' := by
  have hcheck := List.all_eq_true.mp type_checked.out _ d.typeWord_mem
  rw [d.type_eq, Option.isNone_some, Bool.false_or, Bool.and_eq_true, Bool.not_eq_true',
    bne_iff_ne] at hcheck
  refine ⟨fun hmem => ?_, hcheck.2⟩
  rw [← List.contains_iff_mem, hcheck.1] at hmem
  cases hmem

theorem head_ending : ∀ c ∈ d.ending.head?, c ∈ stops := by
  rw [ending]
  cases d.semicolon <;> cases d.carriageReturn <;> simp [stops]

theorem head_behind : ∀ c ∈ d.behind.head?, c ∈ stops := by
  rw [behind]
  cases d.form with
  | alone => exact d.head_gap_append .type d.head_ending
  | sized p => exact d.head_gap_append .type (by simp [stops])
  | scaled p sign s => exact d.head_gap_append .type (by simp [stops])

theorem alone_type : Alone d.typeText d.behind :=
  alone_keyword d.typeWord_mem d.typeText_eq d.typeWord_checked.1 d.head_behind

theorem alone_keyword' : Alone d.keyword (d.gap .keyword ++ tail) := by
  have hstop := @head_gap d tail _ d.keyword_apart
  rcases d.keyword_eq with h | h
  · exact alone_keyword (k := ("VAR", .tVariable)) (by decide) h (by decide) hstop
  · exact alone_keyword (k := ("VARIABLE", .tVariable)) (by decide) h (by decide) hstop

theorem kindOf_variable : kindOf d.keyword = .tVariable := by
  rcases d.keyword_eq with h | h
  · exact kindOf_keyword (k := ("VAR", .tVariable)) (by decide) h
  · exact kindOf_keyword (k := ("VARIABLE", .tVariable)) (by decide) h

/-- A name that begins no statement is a word by itself. -/
theorem alone_name (hstatement : swallowed d.name = false)
    (hexec : upper d.name ∉ ["EXECUTE".toList, "EXEC".toList]) :
    Alone d.name (d.gap .name ++ (d.typeText ++ d.behind)) := by
  refine ⟨d.name_word, d.head_gap d.name_apart, hstatement, fun h => absurd h hexec, ?_⟩
  intro _ c hc
  have hne := d.alone_type.word.ne_nil
  obtain ⟨t, ts, ht⟩ := List.exists_cons_of_ne_nil hne
  have hinitial : isInitial t = true := d.alone_type.word.initial t (by rw [ht]; rfl)
  have hblank : Parse.isBlank t = false := (not_white_of_isInitial hinitial).2
  rw [List.dropWhile_append_of_pos (d.gap_isBlank .name), ht, List.cons_append,
    List.dropWhile_cons_of_neg (by simp [hblank])] at hc
  obtain rfl : t = c := Option.some.inj hc
  intro htoUpper
  have heq := d.typeText_eq
  rw [ht, upper, List.map_cons, htoUpper] at heq
  exact d.typeWord_checked.2 (by rw [← heq]; rfl)

theorem lex_text : lex d.text =
    ⟨.tVariable, d.keyword⟩ :: lex (d.name ++ (d.gap .name ++ (d.typeText ++ d.behind))) := by
  rw [text, lex_word d.alone_keyword', d.kindOf_variable,
    d.lex_gap .keyword (not_isSpace_of_isWord d.name_word)]

theorem lex_name (hstatement : swallowed d.name = false)
    (hexec : upper d.name ∉ ["EXECUTE".toList, "EXEC".toList]) :
    lex (d.name ++ (d.gap .name ++ (d.typeText ++ d.behind))) =
      ⟨kindOf d.name, d.name⟩ :: ⟨d.typeWord.2, d.typeText⟩ :: lex d.behind := by
  rw [lex_word (d.alone_name hstatement hexec),
    d.lex_gap .name (not_isSpace_of_isWord d.alone_type.word), lex_word d.alone_type,
    kindOf_keyword d.typeWord_mem d.typeText_eq]

theorem lex_open (p : Digits) (rest : Text) :
    lex ('(' :: (d.gap .lparen ++ (p.text ++ rest))) = ⟨.sLparen, ['(']⟩ :: lex (p.text ++ rest) := by
  obtain ⟨c, cs, hp⟩ := List.exists_cons_of_ne_nil p.ne_nil
  have hc : c.isDigit = true := p.isDigit c (by rw [hp]; exact List.mem_cons_self)
  rw [hp, List.cons_append, lex_lparen (d.gap_isBlank .lparen) hc, ← List.cons_append, ← hp,
    d.lex_gap .lparen (not_isSpace_of_isDigit p)]

theorem lex_number (p : Digits) (g : Gap) {e : Char} (he : e = ',' ∨ e = ')') (rest : Text) :
    lex (p.text ++ (d.gap g ++ e :: rest)) = ⟨.tNaturalnum, p.text⟩ :: lex (e :: rest) := by
  rw [lex_natural ⟨p.ne_nil, p.isDigit, d.gap_blank g, he⟩, d.lex_gap g]
  rcases he with rfl | rfl <;> simp [isSpace]

theorem alternative_alone :
    alternative (lex (d.gap .type ++ d.ending)) = some ⟨.alone, [], []⟩ := by
  by_cases hsemicolon : d.semicolon = true
  · have hending : ∃ rest, d.ending = ';' :: rest := by
      rw [ending, if_pos hsemicolon]
      exact ⟨_, rfl⟩
    obtain ⟨rest, hending⟩ := hending
    rw [hending, d.lex_gap .type (by simp [isSpace]), lex_semicolon]
    rfl
  · have hspace : ∀ b ∈ d.gap .type ++ d.ending, isSpace b = true := by
      intro b hb
      rw [ending, if_neg hsemicolon, List.nil_append] at hb
      rcases List.mem_append.mp hb with hb | hb
      · rcases d.gap_blank .type b hb with rfl | rfl <;> rfl
      · revert hb
        cases d.carriageReturn <;> simp [isSpace] <;> rintro (rfl | rfl) <;> simp
    have hlex := @lex_space (d.gap .type ++ d.ending) [] hspace (by simp)
    rw [List.append_nil] at hlex
    rw [hlex]
    rfl

def precisionText : Text :=
  match d.form with
  | .alone => []
  | .sized p | .scaled p _ _ => p.text

def scaleText : Text :=
  match d.form with
  | .alone | .sized _ => []
  | .scaled _ _ s => s.text

/-- The scanner takes the form apart as it is written, unless a minus stands at a digit. -/
theorem alternative_behind (h : d.form.shape = .minus → d.gap .sign ≠ []) :
    alternative (lex d.behind) = some ⟨d.form.shape, d.precisionText, d.scaleText⟩ := by
  have hopen : ∀ t, ∀ c ∈ List.head? ('(' :: t), isSpace c = false := by simp [isSpace]
  rw [behind, precisionText, scaleText]
  cases hform : d.form with
  | alone => exact d.alternative_alone
  | sized p =>
    dsimp only
    rw [d.lex_gap .type (hopen _), lex_open, lex_number _ _ _ (.inr rfl), lex_rparen]
    rfl
  | scaled p sign s =>
    dsimp only
    rw [d.lex_gap .type (hopen _), lex_open, lex_number _ _ _ (.inl rfl), lex_comma]
    cases sign with
    | none =>
      rw [signText, List.nil_append, d.lex_gap .comma (not_isSpace_of_isDigit s),
        lex_number _ _ _ (.inr rfl), lex_rparen]
      rfl
    | plus =>
      rw [signText, List.cons_append, d.lex_gap .comma (by simp [isSpace]), lex_plus,
        d.lex_gap .sign (not_isSpace_of_isDigit s), lex_number _ _ _ (.inr rfl), lex_rparen]
      rfl
    | minus =>
      have hne := h (by rw [hform]; rfl)
      obtain ⟨b, bs, hb⟩ := List.exists_cons_of_ne_nil hne
      have hblank : b = ' ' ∨ b = '\t' :=
        d.gap_blank .sign b (by rw [hb]; exact List.mem_cons_self)
      rw [signText, List.cons_append, d.lex_gap .comma (by simp [isSpace]), hb, List.cons_append,
        lex_minus hblank, ← List.cons_append, ← hb, d.lex_gap .sign (not_isSpace_of_isDigit s),
        lex_number _ _ _ (.inr rfl), lex_rparen]
      rfl

theorem alternative_minus (h : d.form.shape = .minus) (hgap : d.gap .sign = []) :
    alternative (lex d.behind) = none := by
  have hopen : ∀ t, ∀ c ∈ List.head? ('(' :: t), isSpace c = false := by simp [isSpace]
  rw [behind]
  cases hform : d.form with
  | alone =>
    rw [hform] at h
    cases h
  | sized p =>
    rw [hform] at h
    cases h
  | scaled p sign s =>
    obtain rfl : sign = .minus := by
      rw [hform] at h
      cases sign
      · cases h
      · cases h
      · rfl
    obtain ⟨c, cs, hs⟩ := List.exists_cons_of_ne_nil s.ne_nil
    have hc : c.isDigit = true := s.isDigit c (by rw [hs]; exact List.mem_cons_self)
    dsimp only
    rw [d.lex_gap .type (hopen _), lex_open, lex_number _ _ _ (.inl rfl), lex_comma, signText, hgap,
      d.lex_gap .comma (by simp [isSpace]), hs, List.cons_append, List.nil_append, List.cons_append]
    obtain ⟨text, tokens, hlex⟩ := lex_negative hc
      (cs ++ (d.gap .scale ++ ')' :: (d.gap .rparen ++ d.ending)))
    rw [hlex]
    rfl

theorem run_iff :
    (statedAction d.type d.form.shape).run d.name ⟨d.form.shape, d.precisionText, d.scaleText⟩ =
      some d.stated ↔ d.precision < 2 ^ 31 ∧ d.scale.length < WORD_LEN := by
  have hscale : ((statedAction d.type d.form.shape).scale.elim [] fun sign =>
      sign ++ d.scaleText) = d.scale := by
    rw [statedAction, scaleText, scale]
    cases d.form with
    | alone => rfl
    | sized p => rfl
    | scaled p sign s => cases sign <;> rfl
  have hprecision : (statedAction d.type d.form.shape).precision.getD (atoi d.precisionText) =
      d.precision ↔ d.precision < 2 ^ 31 := by
    have hnumber : ∀ p : Digits, atoi p.text = p.literal.value ↔ p.literal.value < 2 ^ 31 := by
      intro p
      have hpos : -2 ^ 31 ≤ p.literal.value := by
        refine le_trans (by decide) (Int.natCast_nonneg (Nat.ofDigitChars 10 p.text 0))
      exact (atoi_eq_iff p.literal).trans (and_iff_right hpos)
    rw [statedAction, precisionText, precision]
    cases d.form with
    | alone =>
      refine iff_of_true rfl ?_
      cases d.type <;> decide
    | sized p => exact hnumber p
    | scaled p sign s => cases sign <;> exact hnumber p
  simp only [TypeAction.run, hscale, stated, Option.bind_eq_bind, Option.bind_eq_some_iff,
    store_eq_some, Option.pure_def, Option.some_inj]
  constructor
  · rintro ⟨t, ⟨hlen, rfl⟩, heq⟩
    exact ⟨hprecision.mp (HostVarDec.mk.inj heq).2.2.1, hlen⟩
  · rintro ⟨hlt, hlen⟩
    refine ⟨_, ⟨hlen, rfl⟩, ?_⟩
    rw [hprecision.mpr hlt]
    rfl

theorem action_eq :
    ruleDataType d.typeWord.2 d.form.shape = some (statedAction d.type d.form.shape) ∧
      (d.form.shape = .alone ∨ (ruleDataType d.typeWord.2 .sized).isSome) := by
  obtain ⟨action, haction⟩ := Option.isSome_iff_exists.mp d.listed
  have hcheck := List.all_eq_true.mp (List.all_eq_true.mp ruleDataType_checked.out _ d.typeWord_mem)
    d.form.shape (mem_shapes _)
  rw [d.type_eq, haction, Option.all_some, Option.all_some, Bool.and_eq_true, beq_iff_eq,
    Bool.or_eq_true, beq_iff_eq] at hcheck
  rw [haction, hcheck.1]
  exact ⟨rfl, hcheck.2⟩

/-- The type of a declaration, once the scanner has taken it apart. -/
theorem dataType_behind :
    dataType d.name (⟨d.typeWord.2, d.typeText⟩ :: lex d.behind) =
      if d.form.shape = .minus ∧ d.gap .sign = [] then none
      else (statedAction d.type d.form.shape).run d.name
        ⟨d.form.shape, d.precisionText, d.scaleText⟩ := by
  obtain ⟨haction, hsized⟩ := d.action_eq
  rw [dataType]
  by_cases hminus : d.form.shape = .minus ∧ d.gap .sign = []
  · have hsome : (ruleDataType d.typeWord.2 .sized).isSome := by
      rcases hsized with h | h
      · rw [hminus.1] at h
        cases h
      · exact h
    rw [if_pos hminus, alternativeOf, if_pos hsome, d.alternative_minus hminus.1 hminus.2]
    rfl
  · have hbehind := d.alternative_behind fun h hgap => hminus ⟨h, hgap⟩
    have hread : alternativeOf d.typeWord.2 (lex d.behind) =
        some ⟨d.form.shape, d.precisionText, d.scaleText⟩ := by
      rw [alternativeOf]
      split
      · exact hbehind
      · next hnone =>
        have halone := hsized.resolve_right hnone
        rw [precisionText, scaleText]
        cases hform : d.form with
        | alone => rfl
        | sized p =>
          rw [hform] at halone
          cases halone
        | scaled p sign s =>
          rw [hform] at halone
          cases sign <;> cases halone
    rw [if_neg hminus, hread]
    simp only [Option.bind_eq_bind, Option.bind_some, haction]

theorem newline_gap (g : Gap) : '\n' ∉ d.gap g := by
  intro h
  rcases d.gap_blank g _ h with h | h <;> cases h

theorem newline_word {w : Text} (hw : IsWord w) : '\n' ∉ w := by
  intro h
  have hinner := hw.inner _ h
  revert hinner
  decide

theorem newline_digits (p : Digits) : '\n' ∉ p.text := by
  intro h
  have hdigit := p.isDigit _ h
  revert hdigit
  decide

/-- A declaration is one line. -/
theorem exists_line : ∃ line, '\n' ∉ line ∧
    d.gap .name ++ (d.typeText ++ d.behind) = line ++ ['\n'] := by
  have hending : ∃ t, '\n' ∉ t ∧ d.ending = t ++ ['\n'] := by
    refine ⟨_, ?_, rfl⟩
    cases d.semicolon <;> cases d.carriageReturn <;> simp [d.newline_gap]
  obtain ⟨t, ht, hending⟩ := hending
  have htype := newline_word d.alone_type.word
  rw [behind, hending]
  cases d.form with
  | alone =>
    refine ⟨d.gap .name ++ (d.typeText ++ (d.gap .type ++ t)), ?_, by simp⟩
    simp [d.newline_gap, htype, ht]
  | sized p =>
    refine ⟨d.gap .name ++ (d.typeText ++ (d.gap .type ++ '(' :: (d.gap .lparen ++ (p.text ++
      (d.gap .precision ++ ')' :: (d.gap .rparen ++ t)))))), ?_, by simp⟩
    simp [d.newline_gap, htype, ht, newline_digits]
  | scaled p sign s =>
    have hsign : '\n' ∉ d.signText sign := by
      cases sign <;> simp [signText, d.newline_gap]
    refine ⟨d.gap .name ++ (d.typeText ++ (d.gap .type ++ '(' :: (d.gap .lparen ++ (p.text ++
      (d.gap .precision ++ ',' :: (d.gap .comma ++ (d.signText sign ++ (s.text ++ (d.gap .scale ++
        ')' :: (d.gap .rparen ++ t)))))))))), ?_, by simp⟩
    simp [d.newline_gap, htype, ht, newline_digits, hsign]

theorem not_varStat {tokens : List LexToken} (h : tokens.length ≤ 1) :
    ¬ varStat (⟨.tVariable, d.keyword⟩ :: tokens) = some d.stated := by
  match tokens, h with
  | [], _ => exact fun h => by cases h
  | [name], _ =>
    rw [varStat]
    cases identifier name with
    | none => exact fun h => by cases h
    | some name => exact fun h => by cases h

theorem not_declared_of_swallowed (h : swallowed d.name = true) : ¬ d.Declared := by
  obtain ⟨line, hline, htext⟩ := d.exists_line
  have hlen := length_lex_swallowed h hline (newline_word d.name_word)
  rw [← htext] at hlen
  rw [Declared, d.lex_text]
  exact d.not_varStat hlen

end tokens

/-- A declaration is passed on as it is written, exactly if it is plain. -/
theorem declared_iff (d : Declaration) : d.Declared ↔ d.Plain := by
  by_cases hstatement : swallowed d.name = true
  · refine iff_of_false (d.not_declared_of_swallowed hstatement) fun h => ?_
    rw [h.statement] at hstatement
    cases hstatement
  rw [Bool.not_eq_true] at hstatement
  rw [Declared, d.lex_text]
  by_cases hexec : upper d.name ∈ ["EXECUTE".toList, "EXEC".toList]
  · have hlen := @length_lex_execute d.name _ _ d.behind hexec d.name_apart (d.gap_isBlank .name)
      d.alone_type.word
    refine iff_of_false (d.not_varStat hlen) fun h => h.word ?_
    rcases List.mem_pair.mp hexec with heq | heq
    · rw [heq]
      exact List.mem_map_of_mem (by decide)
    · rw [heq]
      exact List.mem_map_of_mem (by decide)
  rw [d.lex_name hstatement hexec, varStat, identifier_kindOf hexec]
  by_cases hword : upper d.name ∈ reserved.map String.toList
  · rw [if_pos hword]
    refine iff_of_false (fun h => ?_) fun h => h.word hword
    cases h
  rw [if_neg hword, Option.bind_eq_bind, Option.bind_some, d.dataType_behind]
  by_cases hminus : d.form.shape = .minus ∧ d.gap .sign = []
  · rw [if_pos hminus]
    refine iff_of_false (fun h => ?_) fun h => h.minus hminus.1 hminus.2
    cases h
  · rw [if_neg hminus, d.run_iff]
    constructor
    · rintro ⟨hprecision, hscale⟩
      exact ⟨hstatement, hword, fun h hgap => hminus ⟨h, hgap⟩, hprecision, hscale⟩
    · exact fun h => ⟨h.precision, h.scale⟩

/-- `VAR update_cnt INTEGER;` -/
def updateCnt : Declaration where
  keyword := "VAR".toList
  keyword_eq := .inl rfl
  name := "update_cnt".toList
  name_word := by
    refine ⟨by decide, fun c hc => ?_, List.all_eq_true.mp (by decide +kernel)⟩
    obtain rfl : 'u' = c := Option.some.inj hc
    rfl
  typeWord := ("INTEGER", .tInteger)
  typeWord_mem := by decide
  type := .integer
  type_eq := rfl
  typeText := "INTEGER".toList
  typeText_eq := rfl
  form := .alone
  listed := rfl
  gap g := if g = .keyword ∨ g = .name then [' '] else []
  gap_blank := by
    intro g
    cases g <;> simp
  keyword_apart := by simp
  name_apart := by simp
  semicolon := true
  carriageReturn := false

/-- Name and type are read as an SQL statement. -/
theorem not_declared_updateCnt : ¬ ∀ d : Declaration, d.Declared := by
  intro h
  have hswallowed : swallowed updateCnt.name = true := by decide
  exact updateCnt.not_declared_of_swallowed hswallowed (h updateCnt)

end Declaration

end Natc.Isql.Grammar
