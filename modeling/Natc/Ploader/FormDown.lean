import Natc.Ploader.Binding
import Natc.Ploader.FormParser

/-!
# Forms that are written for a table

`WriteColumns` prints a form for the columns of a table. Read again, the form names the table and
the columns with types of their kind if the names are no dates, the copies fit and every type is
printed with numbers that the grammar takes: no number of eight digits, no scale behind `decimal`
and no precision behind `float`.
-/

namespace Natc.Ploader

open Lib Lib.Scanner
open Isql.Parse (isBlank isInitial forall_isDigit forall_isInitial)

/-! ## The description of a table -/

/-- The types that `WriteColumns` has a case for. -/
inductive WrittenType where
  | double | numeric | decimal | float | varchar | smallint | bigint | real | integer | nibble
  | char | bytes | binary | date | nativeTimestamp
  deriving DecidableEq, Repr

/-- A column of `m_Column`. -/
structure ColumnDesc where
  name : Text
  isName : IsName name
  not_keyword : ¬ IsKeyword name
  type : WrittenType
  precision : Int
  precision_range : -2 ^ 31 ≤ precision ∧ precision < 2 ^ 31
  scale : Int
  scale_range : -2 ^ 31 ≤ scale ∧ scale < 2 ^ 31

/-- The table with its owner, if `m_bExist_TabOwner` says so, and its columns. -/
structure TableDesc where
  table : ObjectName
  isName : IsName table.name
  owner_isName : ∀ owner ∈ table.owner, IsName owner
  columns : List ColumnDesc

/-! ## Writing -/

/-- `%d`. -/
def printInt (n : Int) : Text :=
  if n < 0 then '-' :: Nat.toDigits 10 n.natAbs else Nat.toDigits 10 n.natAbs

/-- The word of the type. -/
def WrittenType.word : WrittenType → String
  | .double => "double"
  | .numeric => "numeric"
  | .decimal => "decimal"
  | .float => "float"
  | .varchar => "varchar"
  | .smallint => "smallint"
  | .bigint => "bigint"
  | .real => "real"
  | .integer => "integer"
  | .nibble => "nibble"
  | .char => "char"
  | .bytes => "bytes"
  | .binary => "blob"
  | .date => "date"
  | .nativeTimestamp => "timestamp"

/-- `sDateFlag` is set by these. -/
def WrittenType.dated : WrittenType → Bool
  | .date | .nativeTimestamp => true
  | _ => false

/-- The numbers behind the word. -/
inductive Size where
  | none
  | precision (precision : Int)
  | scaled (precision scale : Int)
  deriving DecidableEq, Repr

/-- Which numbers the case of the type prints: the precision, the precision unless it is 38, or
that without a scale. -/
inductive Numbers where
  | none | precision | unless38 | scaled
  deriving DecidableEq, Repr

def WrittenType.numbers : WrittenType → Numbers
  | .double | .smallint | .bigint | .real | .integer | .date | .nativeTimestamp => .none
  | .varchar | .nibble | .char | .bytes | .binary => .precision
  | .float => .unless38
  | .numeric | .decimal => .scaled

def ColumnDesc.size (c : ColumnDesc) : Size :=
  match c.type.numbers with
  | .none => .none
  | .precision => .precision c.precision
  | .unless38 => if c.precision = 38 then .none else .precision c.precision
  | .scaled =>
      if c.scale ≠ 0 then .scaled c.precision c.scale
      else if c.precision = 38 then .none
      else .precision c.precision

def Size.text : Size → Text
  | .none => []
  | .precision p => ' ' :: '(' :: (printInt p ++ [')'])
  | .scaled p s => ' ' :: '(' :: (printInt p ++ ',' :: ' ' :: (printInt s ++ [')']))

/-- The line of a column. -/
def ColumnDesc.line (c : ColumnDesc) : Text :=
  c.name ++ ' ' :: (c.type.word.toList ++ (c.size.text ++ [';', '\n']))

/-- `WriteColumns`. -/
def writeColumns (t : TableDesc) : Text :=
  "table ".toList ++ (t.table.text ++ ("\n\x7b\n".toList ++ (t.columns.flatMap ColumnDesc.line ++
    ("\x7d\n".toList ++ if t.columns.any (·.type.dated) then
      "DATEFORM YYYY/MM/DD HH:MI:SS\n".toList else []))))

/-! ## Reading -/

/-- `MAX_TABLENAME_LEN`. -/
def maxTablenameLen : Nat := 50

/-- `MAX_WORD_LEN`. -/
def maxWordLen : Nat := 128

/-- The names fit into `m_TableName` and the rows of `m_AttrName`. -/
def TableInfo.fits (info : TableInfo) : Bool :=
  info.m_TableName.length < maxTablenameLen &&
    info.columns.all fun c => c.m_AttrName.length < maxWordLen

/-- The parser on a form, and `GetTableInfo` on its tree. -/
def readForm (env : LoadEnv) (g : FormGlobals) (text : Text) : Option TableInfo :=
  match iloaderForm (lexForm text) with
  | none => none
  | some form =>
      match getTableTree env g form with
      | .state l => if l.info.fits then some l.info else none
      | _ => none

/-! ## The statement -/

/-- The types of the table info that are of the kind. -/
def WrittenType.attrTypes : WrittenType → List AttrType
  | .double => [.double]
  | .numeric | .decimal => [.decimal, .numericLong, .numericDouble]
  | .float => [.float]
  | .varchar => [.varchar]
  | .smallint => [.smallint]
  | .bigint => [.bigint]
  | .real => [.real]
  | .integer => [.integer]
  | .nibble => [.nibble]
  | .char => [.char]
  | .bytes => [.bytes]
  | .binary => [.blob]
  | .date => [.date]
  | .nativeTimestamp => [.timestamp]

/-- The same name, and a type of the kind. -/
structure ColumnDesc.Kept (c : ColumnDesc) (column : Column) : Prop where
  name : column.m_AttrName = c.name
  type : column.m_AttrType ∈ c.type.attrTypes

/-- The form that is written is accepted, and names the table and the columns. -/
def RoundTrips (env : LoadEnv) (g : FormGlobals) (t : TableDesc) : Prop :=
  ∃ info, readForm env g (writeColumns t) = some info ∧ info.m_TableName = t.table.text ∧
    List.Forall₂ ColumnDesc.Kept t.columns info.columns

/-! ## The condition -/

/-- A number that the grammar takes: eight digits are a timestamp. -/
def Counted (n : Int) : Prop := 0 < n ∧ (n < 10000000 ∨ 99999999 < n)

instance : DecidablePred Counted := fun n =>
  inferInstanceAs (Decidable (0 < n ∧ (n < 10000000 ∨ 99999999 < n)))

/-- The case of the type prints what an alternative of `ATTRIBUTE_DEF` takes. -/
def ColumnDesc.TypeReadable (c : ColumnDesc) : Prop :=
  match c.type with
  | .numeric => Counted c.precision ∧ (c.scale = 0 ∨ Counted c.scale)
  | .decimal => Counted c.precision ∧ c.scale = 0
  | .float => c.precision = 38
  | .varchar | .nibble | .char | .bytes | .binary => Counted c.precision
  | .double | .smallint | .bigint | .real | .integer | .date | .nativeTimestamp => True

/-- The column is one that the parser takes. -/
structure ColumnDesc.Readable (c : ColumnDesc) : Prop where
  name : ¬ IsDate c.name
  type : c.TypeReadable

/-- Neither a keyword nor a date. -/
structure Plain (w : Text) : Prop where
  not_keyword : ¬ IsKeyword w
  not_date : ¬ IsDate w

structure TableDesc.Readable (t : TableDesc) : Prop where
  owner : ∀ owner ∈ t.table.owner, Plain owner
  name : Plain t.table.name
  name_fits : t.table.text.length < maxTablenameLen
  columns_ne : t.columns ≠ []
  columns_fit : t.columns.length ≤ maxAttrCount
  columns : ∀ c ∈ t.columns, c.Readable ∧ c.name.length < maxWordLen

/-! ## The tokens of a column -/

section tokens

variable {tail : Text} {d : Char}

def intTokens (n : Int) : List FormToken :=
  if n < 0 then [.char '-', naturalToken n.natAbs] else [naturalToken n.natAbs]

def Size.tokens : Size → List FormToken
  | .none => []
  | .precision p => .tLbracket :: (intTokens p ++ [.tRbracket])
  | .scaled p s => .tLbracket :: (intTokens p ++ .tComma :: (intTokens s ++ [.tRbracket]))

/-- The tokens of a line, up to the semicolon. -/
def ColumnDesc.tokens (c : ColumnDesc) : List FormToken :=
  nameToken c.name :: .tIdentifier c.type.word.toList :: c.size.tokens

theorem lex_int (n : Int) (hd : d = ',' ∨ d = ')') :
    lexForm (printInt n ++ d :: tail) = intTokens n ++ lexForm (d :: tail) := by
  unfold printInt intTokens
  split
  · rw [List.cons_append, lex_minus, lex_natural _ hd]
    rfl
  · rw [lex_natural _ hd]
    rfl

theorem head_printInt (n : Int) (t : Text) : ∀ c ∈ (printInt n ++ t).head?, isBlank c = false := by
  have hdigits : ∀ c ∈ (Nat.toDigits 10 n.natAbs ++ t).head?, isBlank c = false := by
    intro c hc
    rw [List.head?_append_of_ne_nil _ Nat.toDigits_ne_nil] at hc
    have hdigit := isDigits_toDigits n.natAbs c (List.mem_of_mem_head? hc)
    simpa using @forall_isDigit (fun c => !isBlank c) (by decide) c hdigit
  unfold printInt
  split
  · intro c hc
    obtain rfl : '-' = c := Option.some.inj hc
    rfl
  · exact hdigits

theorem lex_size (s : Size) (htail : ∀ c ∈ tail.head?, isBlank c = false) :
    lexForm (s.text ++ ';' :: '\n' :: tail) = s.tokens ++ .tSemicolon :: lexForm tail := by
  have hend : lexForm (';' :: '\n' :: tail) = .tSemicolon :: lexForm tail := by
    rw [lex_semicolon, lex_blank rfl htail]
  have hopen : ∀ t : Text, lexForm (' ' :: '(' :: t) = .tLbracket :: lexForm t := by
    intro t
    rw [lex_blank rfl (by simp [isBlank]), lex_lbracket]
  cases s with
  | none => exact hend
  | precision p =>
    simp only [Size.text, Size.tokens, List.cons_append, List.append_assoc, List.nil_append]
    rw [hopen, lex_int p (.inr rfl), lex_rbracket, hend]
  | scaled p s =>
    simp only [Size.text, Size.tokens, List.cons_append, List.append_assoc, List.nil_append]
    rw [hopen, lex_int p (.inl rfl), lex_comma, lex_blank rfl (head_printInt s _),
      lex_int s (.inr rfl), lex_rbracket, hend]

theorem word_isName (type : WrittenType) : IsName type.word.toList := by
  cases type <;> exact .of_all (by decide) (by decide) (by decide)

theorem word_plain (type : WrittenType) : Plain type.word.toList := by
  cases type <;> exact ⟨by decide, by decide⟩

theorem head_name {w : Text} (hw : IsName w) (t : Text) :
    ∀ c ∈ (w ++ t).head?, isBlank c = false := by
  intro c hc
  rw [List.head?_append_of_ne_nil _ hw.ne_nil] at hc
  simpa using @forall_isInitial (fun c => !isBlank c) (by decide +kernel) c (hw.initial c hc)

theorem Plain.token {w : Text} (h : Plain w) : nameToken w = .tIdentifier w := if_neg h.not_date

theorem lex_plain {w : Text} (hw : IsName w) (h : Plain w) (hd : d ∈ nameStops) :
    lexForm (w ++ d :: tail) = .tIdentifier w :: lexForm (d :: tail) := by
  rw [lex_nameToken hw hd h.not_keyword, h.token]

theorem lex_line (c : ColumnDesc) (htail : ∀ x ∈ tail.head?, isBlank x = false) :
    lexForm (c.line ++ tail) = c.tokens ++ .tSemicolon :: lexForm tail := by
  have hword : lexForm (c.type.word.toList ++ (c.size.text ++ ';' :: '\n' :: tail)) =
      .tIdentifier c.type.word.toList :: lexForm (c.size.text ++ ';' :: '\n' :: tail) := by
    have hstop : ∃ d rest, c.size.text ++ ';' :: '\n' :: tail = d :: rest ∧ d ∈ nameStops := by
      cases c.size with
      | none => exact ⟨';', '\n' :: tail, rfl, by decide⟩
      | precision p => exact ⟨' ', _, rfl, by decide⟩
      | scaled p s => exact ⟨' ', _, rfl, by decide⟩
    obtain ⟨d, rest, hrest, hd⟩ := hstop
    rw [hrest]
    exact lex_plain (word_isName c.type) (word_plain c.type) hd
  have hline : c.line ++ tail = c.name ++ ' ' :: (c.type.word.toList ++
      (c.size.text ++ ';' :: '\n' :: tail)) := by
    simp [ColumnDesc.line]
  rw [hline, lex_nameToken c.isName (by decide) c.not_keyword,
    lex_blank rfl (head_name (word_isName c.type) _), hword, lex_size c.size htail]
  rfl

theorem head_lines (cs : List ColumnDesc) (t : Text) (ht : ∀ x ∈ t.head?, isBlank x = false) :
    ∀ x ∈ (cs.flatMap ColumnDesc.line ++ t).head?, isBlank x = false := by
  cases cs with
  | nil => exact ht
  | cons c cs =>
    rw [List.flatMap_cons, ColumnDesc.line, List.append_assoc, List.append_assoc]
    exact head_name c.isName _

theorem lex_lines (cs : List ColumnDesc) (ht : ∀ x ∈ tail.head?, isBlank x = false) :
    lexForm (cs.flatMap ColumnDesc.line ++ tail) =
      cs.flatMap (fun c => c.tokens ++ [.tSemicolon]) ++ lexForm tail := by
  induction cs with
  | nil => rfl
  | cons c cs ih =>
    rw [List.flatMap_cons, List.append_assoc, lex_line c (head_lines cs tail ht), ih,
      List.flatMap_cons]
    simp

end tokens

/-! ## The tokens of a form -/

section form

variable {tail : Text} {d : Char}

theorem lex_tableWord (htail : ∀ x ∈ tail.head?, isBlank x = false) :
    lexForm ("table ".toList ++ tail) = .tTable :: lexForm tail := by
  have hname : IsName "table".toList := .of_all (by decide) (by decide) (by decide)
  have hlex : lexForm ("table".toList ++ ' ' :: tail) = .tTable :: lexForm (' ' :: tail) :=
    lex_name hname (by decide) rfl
  exact hlex.trans (congrArg (.tTable :: ·) (lex_blank rfl htail))

/-- What is no name for the grammar. -/
theorem lex_reserved {w : Text} (hw : IsName w) (hd : d ∈ nameStops) (h : ¬ Plain w) :
    ∃ token rest, lexForm (w ++ d :: tail) = token :: rest ∧ ∀ t, token ≠ .tIdentifier t := by
  by_cases hkey : IsKeyword w
  · exact lex_keyword hw hd hkey
  · have hdate : IsDate w := by
      by_contra hdate
      exact h ⟨hkey, hdate⟩
    refine ⟨nameToken w, _, lex_nameToken hw hd hkey, fun t => ?_⟩
    rw [nameToken, if_pos hdate]
    exact FormToken.noConfusion

theorem userObjectName_reserved {token : FormToken} {rest : List FormToken}
    (h : ∀ t, token ≠ .tIdentifier t) : userObjectName (token :: rest) = none := by
  cases token with
  | tIdentifier str => exact absurd rfl (h str)
  | _ => rfl

theorem userObjectName_owner {owner : Text} {token : FormToken} {rest : List FormToken}
    (h : ∀ t, token ≠ .tIdentifier t) :
    userObjectName (.tIdentifier owner :: .tPeriod :: token :: rest) = none := by
  cases token with
  | tIdentifier str => exact absurd rfl (h str)
  | _ => rfl

/-- The names of the table are plain. -/
def TableDesc.Named (t : TableDesc) : Prop :=
  (∀ owner ∈ t.table.owner, Plain owner) ∧ Plain t.table.name

theorem lex_brace (htail : ∀ x ∈ tail.head?, isBlank x = false) :
    lexForm ("\n\x7b\n".toList ++ tail) = .tLbrace :: lexForm tail := by
  change lexForm ('\n' :: '{' :: '\n' :: tail) = _
  rw [lex_blank rfl (by simp [isBlank]), lex_lbrace, lex_blank rfl htail]

theorem userObjectName_named (t : TableDesc) (h : t.Named)
    (htail : ∀ x ∈ tail.head?, isBlank x = false) :
    userObjectName (lexForm (t.table.text ++ ("\n\x7b\n".toList ++ tail))) =
      some (t.table, .tLbrace :: lexForm tail) := by
  obtain ⟨⟨owner, name⟩, hisName, hisOwner, columns⟩ := t
  obtain ⟨howner, hname⟩ := h
  dsimp only at hisName hisOwner howner hname ⊢
  have hlex : lexForm (name ++ ("\n\x7b\n".toList ++ tail)) =
      .tIdentifier name :: .tLbrace :: lexForm tail :=
    (lex_plain hisName hname (by decide)).trans (congrArg _ (lex_brace htail))
  cases owner with
  | none =>
    rw [ObjectName.text]
    exact (congrArg userObjectName hlex).trans rfl
  | some owner =>
    have hdot : ObjectName.text ⟨some owner, name⟩ ++ ("\n\x7b\n".toList ++ tail) =
        owner ++ '.' :: (name ++ ("\n\x7b\n".toList ++ tail)) := by
      simp [ObjectName.text]
    rw [hdot, lex_plain (hisOwner owner rfl) (howner owner rfl) (by decide), lex_period, hlex]
    rfl

theorem userObjectName_none (t : TableDesc) (h : ¬ t.Named) :
    userObjectName (lexForm (t.table.text ++ ("\n\x7b\n".toList ++ tail))) = none := by
  obtain ⟨⟨owner, name⟩, hisName, hisOwner, columns⟩ := t
  dsimp only [TableDesc.Named] at hisName hisOwner h ⊢
  cases owner with
  | none =>
    have hname : ¬ Plain name := fun hname => h ⟨by simp, hname⟩
    obtain ⟨token, rest, hlex, htoken⟩ := @lex_reserved ("\x7b\n".toList ++ tail) '\n' name hisName
      (by decide) hname
    exact (congrArg userObjectName hlex).trans (userObjectName_reserved htoken)
  | some owner =>
    have hdot : ObjectName.text ⟨some owner, name⟩ ++ ("\n\x7b\n".toList ++ tail) =
        owner ++ '.' :: (name ++ ("\n\x7b\n".toList ++ tail)) := by
      simp [ObjectName.text]
    rw [hdot]
    by_cases howner : Plain owner
    · have hname : ¬ Plain name := fun hname => h ⟨by simpa using howner, hname⟩
      obtain ⟨token, rest, hlex, htoken⟩ :=
        @lex_reserved ("\x7b\n".toList ++ tail) '\n' name hisName
        (by decide) hname
      have hlex' : lexForm (name ++ ("\n\x7b\n".toList ++ tail)) = token :: rest := hlex
      rw [lex_plain (hisOwner owner rfl) howner (by decide), lex_period, hlex']
      exact userObjectName_owner htoken
    · obtain ⟨token, rest, hlex, htoken⟩ := lex_reserved (hisOwner owner rfl)
        (show '.' ∈ nameStops by decide) howner
      rw [hlex]
      exact userObjectName_reserved htoken

/-- What `WriteColumns` prints behind the columns. -/
def ending (dated : Bool) : Text :=
  "\x7d\n".toList ++ if dated then "DATEFORM YYYY/MM/DD HH:MI:SS\n".toList else []

def endTokens (dated : Bool) : List FormToken :=
  if dated then [.tDateformatCmd, .tDateformat "YYYY/MM/DD".toList, .tTimeformat "HH:MI:SS".toList]
  else []

/-- The date format behind its keyword, match by match. -/
theorem run_dateForm : formLexer.run .dateForm " YYYY/MM/DD HH:MI:SS\n".toList =
    [.tDateformat "YYYY/MM/DD".toList, .tTimeformat "HH:MI:SS".toList] := by
  have hdate : ∀ t, formLexer.run .dateForm (' ' :: 'Y' :: t) =
      formLexer.run .dateForm ('Y' :: t) := fun t =>
    @Lexer.run_cut _ _ _ _ formLexer .dateForm _ _ ' ' 'Y' [] t rfl (by decide +kernel)
  have hformat : ∀ t, formLexer.run .dateForm ("YYYY/MM/DD".toList ++ ' ' :: t) =
      .tDateformat "YYYY/MM/DD".toList :: formLexer.run .dateForm (' ' :: t) := fun t =>
    @Lexer.run_cut _ _ _ _ formLexer .dateForm _ _ 'Y' ' ' "YYY/MM/DD".toList t rfl
      (by decide +kernel)
  have htime : ∀ t, formLexer.run .dateForm (' ' :: 'H' :: t) =
      formLexer.run .dateForm ('H' :: t) := fun t =>
    @Lexer.run_cut _ _ _ _ formLexer .dateForm _ _ ' ' 'H' [] t rfl (by decide +kernel)
  have hclock : ∀ t, formLexer.run .dateForm ("HH:MI:SS".toList ++ '\n' :: t) =
      .tTimeformat "HH:MI:SS".toList :: formLexer.run .dateForm ('\n' :: t) := fun t =>
    @Lexer.run_cut _ _ _ _ formLexer .dateForm _ _ 'H' '\n' "H:MI:SS".toList t rfl
      (by decide +kernel)
  have hend : formLexer.run .dateForm ['\n'] = [] := by decide +kernel
  change formLexer.run .dateForm (' ' :: 'Y' :: ("YYY/MM/DD".toList ++ ' ' :: 'H' ::
    ("H:MI:SS".toList ++ ['\n']))) = _
  rw [hdate]
  change formLexer.run .dateForm ("YYYY/MM/DD".toList ++ ' ' :: 'H' ::
    ("H:MI:SS".toList ++ ['\n'])) = _
  rw [hformat, htime]
  change _ :: formLexer.run .dateForm ("HH:MI:SS".toList ++ ['\n']) = _
  rw [hclock, hend]

theorem lex_ending (dated : Bool) : lexForm (ending dated) = .tRbrace :: endTokens dated := by
  have hbrace : ∀ t : Text, (∀ x ∈ t.head?, isBlank x = false) →
      lexForm ("\x7d\n".toList ++ t) = .tRbrace :: lexForm t := by
    intro t ht
    have hblank : lexForm ('\n' :: t) = lexForm t := lex_blank rfl ht
    rw [← hblank]
    exact lex_rbrace ('\n' :: t)
  cases dated with
  | false => exact hbrace [] (by simp)
  | true =>
    have hname : IsName "DATEFORM".toList := .of_all (by decide) (by decide) (by decide)
    have hcmd : ∀ t, lexForm ("DATEFORM".toList ++ ' ' :: t) =
        .tDateformatCmd :: formLexer.run .dateForm (' ' :: t) := fun t =>
      lex_name hname (by decide) rfl
    have hlex := hbrace ("DATEFORM".toList ++ ' ' :: "YYYY/MM/DD HH:MI:SS\n".toList)
      (fun x hx => by cases hx; rfl)
    rw [hcmd] at hlex
    exact hlex.trans (congrArg (fun ts => .tRbrace :: .tDateformatCmd :: ts) run_dateForm)

end form

/-! ## The attribute of a line -/

section alternatives

/-- A number has eight digits, or the scanner has it as a number. -/
theorem naturalToken_counted {n : Nat} (hrange : n < 2 ^ 31) (h : Counted n) :
    naturalToken n = .tNumber n := by
  obtain ⟨hpos, hlength⟩ := h
  have hseven := @Nat.length_toDigits_le_iff 10 n 7 (by decide) (by decide)
  have height := @Nat.length_toDigits_le_iff 10 n 8 (by decide) (by decide)
  have hten := @Nat.length_toDigits_le_iff 10 n 10 (by decide) (by decide)
  unfold naturalToken
  dsimp only
  rw [if_neg (by omega), if_neg (by omega)]

theorem naturalToken_stamp {n : Nat} (h : 10000000 ≤ n ∧ n ≤ 99999999) :
    naturalToken n = .tTimestampValue (Nat.toDigits 10 n) := by
  have hseven := @Nat.length_toDigits_le_iff 10 n 7 (by decide) (by decide)
  have height := @Nat.length_toDigits_le_iff 10 n 8 (by decide) (by decide)
  unfold naturalToken
  dsimp only
  rw [if_neg (by omega), if_pos (by omega)]

theorem intTokens_counted {n : Int} (hrange : n < 2 ^ 31) (h : Counted n) :
    intTokens n = [.tNumber n.toNat] := by
  obtain ⟨m, rfl⟩ := Int.eq_ofNat_of_zero_le h.1.le
  rw [intTokens, if_neg (by omega), Int.natAbs_natCast, Int.toNat_natCast,
    naturalToken_counted (by omega) h]

/-- What stands in the place of a number that the grammar does not take. -/
theorem intTokens_not_counted {n : Int} (h : ¬ Counted n) :
    n = 0 ∧ intTokens n = [.tZero] ∨ n ≠ 0 ∧ ∃ token rest, intTokens n = token :: rest ∧
      (token = .char '-' ∨ ∃ str, token = .tTimestampValue str) := by
  rcases lt_trichotomy n 0 with hneg | rfl | hpos
  · exact .inr ⟨hneg.ne, _, _, if_pos hneg, .inl rfl⟩
  · exact .inl ⟨rfl, rfl⟩
  · refine .inr ⟨hpos.ne', _, [], if_neg hpos.le.not_gt, .inr ⟨_, naturalToken_stamp ?_⟩⟩
    rw [Counted] at h
    omega

theorem attributeTail_open {token : FormToken} {rest : List FormToken}
    (h : ∀ n, token ≠ .tNumber n) : attributeTail (.tLbracket :: token :: rest) = none := by
  cases token with
  | tNumber n => exact absurd rfl (h n)
  | _ => rfl

theorem attributeTail_comma {n : Nat} {token : FormToken} {rest : List FormToken}
    (h : token = .char '-' ∨ ∃ str, token = .tTimestampValue str) :
    attributeTail (.tLbracket :: .tNumber n :: .tComma :: token :: rest) = none := by
  rcases h with rfl | ⟨str, rfl⟩
  · rfl
  · rfl

/-- The numbers are ones that the grammar takes. -/
def Size.Counted : Size → Prop
  | .none => True
  | .precision p => Ploader.Counted p
  | .scaled p s => Ploader.Counted p ∧ Ploader.Counted s

def Size.Ranged : Size → Prop
  | .none => True
  | .precision p => p < 2 ^ 31
  | .scaled p s => p < 2 ^ 31 ∧ s < 2 ^ 31 ∧ s ≠ 0

/-- The alternative of the numbers. -/
def Size.tail : Size → AttributeTail
  | .none => .plain ⟨false, false⟩
  | .precision p => .sized p.toNat ⟨false, false⟩
  | .scaled p s => .scaled p.toNat s.toNat ⟨false, false⟩

theorem attributeTail_counted {s : Size} (hrange : s.Ranged) (h : s.Counted) :
    attributeTail s.tokens = some s.tail := by
  cases s with
  | none => rfl
  | precision p =>
    rw [Size.tokens, intTokens_counted hrange h]
    rfl
  | scaled p s =>
    rw [Size.tokens, intTokens_counted hrange.1 h.1, intTokens_counted hrange.2.1 h.2]
    rfl

theorem attributeTail_not_counted {s : Size} (hrange : s.Ranged) (h : ¬ s.Counted) :
    attributeTail s.tokens = none := by
  have hopen : ∀ {p : Int} {rest : List FormToken}, ¬ Counted p →
      attributeTail (.tLbracket :: (intTokens p ++ rest)) = none := by
    intro p rest hp
    rcases intTokens_not_counted hp with ⟨-, htokens⟩ | ⟨-, token, more, htokens, htoken⟩
    · rw [htokens]
      exact attributeTail_open fun n => FormToken.noConfusion
    · rw [htokens]
      refine attributeTail_open fun n hn => ?_
      rcases htoken with rfl | ⟨str, rfl⟩
      · cases hn
      · cases hn
  cases s with
  | none => exact absurd trivial h
  | precision p => exact hopen h
  | scaled p s =>
    by_cases hp : Counted p
    · have hs : ¬ Counted s := fun hs => h ⟨hp, hs⟩
      rcases intTokens_not_counted hs with ⟨hzero, -⟩ | ⟨-, token, more, htokens, htoken⟩
      · exact absurd hzero hrange.2.2
      · rw [Size.tokens, intTokens_counted hrange.1 hp, htokens]
        exact attributeTail_comma htoken
    · exact hopen hp

theorem ColumnDesc.ranged (c : ColumnDesc) : c.size.Ranged := by
  have hprecision : (if c.precision = 38 then Size.none else .precision c.precision).Ranged := by
    split
    · trivial
    · exact c.precision_range.2
  unfold ColumnDesc.size
  cases c.type.numbers with
  | none => trivial
  | precision => exact c.precision_range.2
  | unless38 => exact hprecision
  | scaled =>
    dsimp only
    split
    · next h => exact ⟨c.precision_range.2, c.scale_range.2, h⟩
    · exact hprecision

theorem attributeDef_tokens (c : ColumnDesc) (hdate : ¬ IsDate c.name) (h : c.size.Counted) :
    attributeDef c.tokens = some ⟨c.name, c.type.word.toList, c.size.tail⟩ := by
  rw [ColumnDesc.tokens, nameToken, if_neg hdate, attributeDef, attributeTail_counted c.ranged h]
  rfl

theorem attributeDef_none (c : ColumnDesc) (h : IsDate c.name ∨ ¬ c.size.Counted) :
    attributeDef c.tokens = none := by
  rw [ColumnDesc.tokens, nameToken]
  split
  · rfl
  · next hdate =>
    rw [attributeDef, attributeTail_not_counted c.ranged (h.resolve_left hdate)]
    rfl

/-- The type of the table info, for a type of the list. -/
def kindIn (types : List TypeWord) (type : Text) : Option AttrType :=
  (types.find? fun t => sameCaseless type t.word).bind fun t => attrTypeOf t.attrType

/-- The type of the table info that an attribute without a value has. -/
def kindOf (type : Text) : AttributeTail → Option AttrType
  | .sized _ _ => kindIn sizedTypes type
  | .plain _ =>
      if sameCaseless type dateWord then some .date
      else if sameCaseless type timestampWord then some .timestamp
      else kindIn plainTypes type
  | .scaled _ _ _ => kindIn scaledTypes type
  | _ => none

/-- An attribute whose action goes on leaves a column with its name and its type. -/
structure Leaves (d : AttributeDef) (type : AttrType) (node : AttrNode) (column : Column) :
    Prop where
  stored : node.column = some column
  name : column.m_AttrName = d.column_name
  type : column.m_AttrType = type

theorem typedNode_leaves {types : List TypeWord} {d : AttributeDef} {type : AttrType}
    (h : kindIn types d.type = some type) (n : Option Nat) (flags : SkipNoexp) :
    ∃ node column, typedNode types d.column_name d.type n flags = some node ∧
      Leaves d type node column := by
  obtain ⟨t, ht, htype⟩ := Option.bind_eq_some_iff.mp h
  exact ⟨_, _, congrArg (Option.map _) ht, congrArg (Option.map _) htype, rfl, rfl⟩

theorem attributeAction_leaves {d : AttributeDef} {type : AttrType}
    (h : kindOf d.type d.tail = some type) (g : FormGlobals) :
    ∃ node g' column, attributeAction d g = some (node, g') ∧ Leaves d type node column := by
  have htyped : ∀ {types : List TypeWord} (n : Option Nat) (flags : SkipNoexp),
      kindIn types d.type = some type → ∃ node g' column,
        (typedNode types d.column_name d.type n flags).map (·, g) = some (node, g') ∧
          Leaves d type node column := by
    intro types n flags hkind
    obtain ⟨node, column, hnode, hleaves⟩ := typedNode_leaves hkind n flags
    exact ⟨node, g, column, by rw [hnode]; rfl, hleaves⟩
  obtain ⟨name, word, tail⟩ := d
  cases tail with
  | sized n flags => exact htyped (some n) flags h
  | scaled n m flags => exact htyped none flags h
  | plain flags =>
    unfold attributeAction
    dsimp only [kindOf] at h ⊢
    split at h
    · next hdate =>
      obtain rfl := Option.some.inj h
      rw [if_pos hdate]
      exact ⟨_, _, _, rfl, rfl, rfl, rfl⟩
    · next hdate =>
      rw [if_neg hdate]
      split at h
      · next htime =>
        obtain rfl := Option.some.inj h
        rw [if_pos htime]
        exact ⟨_, _, _, rfl, rfl, rfl, rfl⟩
      · next htime =>
        rw [if_neg htime]
        exact htyped none flags h
  | dated format skip => cases h
  | skipStamp v => cases h
  | addStamp v => cases h
  | zeroScaled n flags => cases h

/-- The type that the table info has for a column of the kind. -/
def WrittenType.Kind (type : WrittenType) (tail : AttributeTail) : Prop :=
  ∃ a ∈ type.attrTypes, kindOf type.word.toList tail = some a

theorem kind_plain {type : WrittenType} (h : type.numbers ≠ .precision) :
    type.Kind (.plain ⟨false, false⟩) := by
  cases type with
  | varchar | nibble | char | bytes | binary => exact absurd rfl h
  | _ =>
    unfold WrittenType.Kind
    decide

theorem kind_sized {type : WrittenType} {n : Nat}
    (h : type.numbers = .precision ∨ type.numbers = .scaled) :
    type.Kind (.sized n ⟨false, false⟩) := by
  change ∃ a ∈ type.attrTypes, kindIn sizedTypes type.word.toList = some a
  cases type with
  | varchar | nibble | char | bytes | binary | numeric | decimal => decide
  | _ => exact absurd h (by simp [WrittenType.numbers])

theorem kind_scaled {n m : Nat} : WrittenType.numeric.Kind (.scaled n m ⟨false, false⟩) := by
  change ∃ a ∈ WrittenType.numeric.attrTypes,
    kindIn scaledTypes WrittenType.numeric.word.toList = some a
  decide

theorem not_supported_float {name : Text} {n : Nat} : (AttributeDef.mk name
    WrittenType.float.word.toList (.sized n ⟨false, false⟩)).supported = false := by
  change (sizedTypes.any fun t => sameCaseless WrittenType.float.word.toList t.word) = false
  decide

theorem not_supported_decimal {name : Text} {n m : Nat} : (AttributeDef.mk name
    WrittenType.decimal.word.toList (.scaled n m ⟨false, false⟩)).supported = false := by
  change (scaledTypes.any fun t => sameCaseless WrittenType.decimal.word.toList t.word) = false
  decide

/-- The attribute of the column, if its numbers are ones. -/
def ColumnDesc.attribute (c : ColumnDesc) : AttributeDef :=
  ⟨c.name, c.type.word.toList, c.size.tail⟩

theorem kind_of_readable {c : ColumnDesc} (h : c.TypeReadable) :
    c.size.Counted ∧ c.type.Kind c.size.tail := by
  obtain ⟨name, isName, hkey, type, p, hp, s, hs⟩ := c
  have hnumber : Counted p → type.numbers = .scaled →
      (if p = 38 then Size.none else .precision p).Counted ∧
        type.Kind (if p = 38 then Size.none else .precision p).tail := by
    intro hcounted hscaled
    split
    · exact ⟨trivial, kind_plain (by rw [hscaled]; exact Numbers.noConfusion)⟩
    · exact ⟨hcounted, kind_sized (.inr hscaled)⟩
  cases type with
  | varchar | nibble | char | bytes | binary => exact ⟨h, kind_sized (.inl rfl)⟩
  | double | smallint | bigint | real | integer | date | nativeTimestamp =>
    exact ⟨trivial, kind_plain Numbers.noConfusion⟩
  | float =>
    have hsize : (if p = 38 then Size.none else .precision p) = .none := if_pos h
    dsimp only [ColumnDesc.size, WrittenType.numbers]
    rw [hsize]
    exact ⟨trivial, kind_plain Numbers.noConfusion⟩
  | decimal =>
    obtain ⟨hcounted, hzero⟩ := h
    dsimp only [ColumnDesc.size, WrittenType.numbers] at hzero ⊢
    rw [if_neg (not_not.mpr hzero)]
    exact hnumber hcounted rfl
  | numeric =>
    obtain ⟨hcounted, hscale⟩ := h
    dsimp only [ColumnDesc.size, WrittenType.numbers] at hscale ⊢
    split
    · next hne => exact ⟨⟨hcounted, hscale.resolve_left hne⟩, kind_scaled⟩
    · exact hnumber hcounted rfl

theorem not_taken_of_not_readable {c : ColumnDesc} (h : ¬ c.TypeReadable) :
    ¬ c.size.Counted ∨ c.attribute.supported = false := by
  obtain ⟨name, isName, hkey, type, p, hp, s, hs⟩ := c
  have hnumber : ¬ Counted p → ¬ (if p = 38 then Size.none else .precision p).Counted := by
    intro hcounted
    have hne : p ≠ 38 := fun heq => hcounted (by rw [heq]; decide)
    rw [if_neg hne]
    exact hcounted
  cases type with
  | varchar | nibble | char | bytes | binary => exact .inl h
  | double | smallint | bigint | real | integer | date | nativeTimestamp => exact absurd trivial h
  | float =>
    have hsize : (if p = 38 then Size.none else .precision p) = .precision p := if_neg h
    dsimp only [ColumnDesc.attribute, ColumnDesc.size, WrittenType.numbers]
    rw [hsize]
    exact .inr not_supported_float
  | decimal =>
    dsimp only [ColumnDesc.attribute, ColumnDesc.size, WrittenType.numbers]
    split
    · exact .inr not_supported_decimal
    · next hzero =>
      exact .inl (hnumber fun hcounted => h ⟨hcounted, not_not.mp hzero⟩)
  | numeric =>
    dsimp only [ColumnDesc.attribute, ColumnDesc.size, WrittenType.numbers]
    split
    · exact .inl fun hcounted => h ⟨hcounted.1, .inr hcounted.2⟩
    · next hzero =>
      exact .inl (hnumber fun hcounted => h ⟨hcounted, .inl (not_not.mp hzero)⟩)

end alternatives

/-! ## The form of a table -/

section parse

variable (t : TableDesc)

/-- The columns and what stands behind them. -/
def TableDesc.body : Text :=
  t.columns.flatMap ColumnDesc.line ++ ending (t.columns.any (·.type.dated))

def TableDesc.bodyTokens : List FormToken :=
  t.columns.flatMap (fun c => c.tokens ++ [.tSemicolon]) ++
    .tRbrace :: endTokens (t.columns.any (·.type.dated))

theorem head_ending (dated : Bool) : ∀ x ∈ (ending dated).head?, isBlank x = false := by
  intro x hx
  obtain rfl : '}' = x := Option.some.inj hx
  rfl

theorem lex_written : ∃ tokens, lexForm (writeColumns t) = .tTable :: tokens ∧
    (t.Named → userObjectName tokens = some (t.table, .tLbrace :: t.bodyTokens)) ∧
    (¬ t.Named → userObjectName tokens = none) := by
  have hbody : lexForm t.body = t.bodyTokens := by
    rw [TableDesc.body, lex_lines _ (head_ending _), lex_ending]
    rfl
  have hname : ∀ x ∈ (t.table.text ++ ("\n\x7b\n".toList ++ t.body)).head?, isBlank x = false := by
    obtain ⟨⟨owner, name⟩, hisName, hisOwner, columns⟩ := t
    cases owner with
    | none => exact head_name hisName _
    | some owner =>
      rw [ObjectName.text, List.append_assoc]
      exact head_name (hisOwner owner rfl) _
  have hlex : lexForm (writeColumns t) =
      .tTable :: lexForm (t.table.text ++ ("\n\x7b\n".toList ++ t.body)) := lex_tableWord hname
  refine ⟨_, hlex, fun h => ?_, fun h => userObjectName_none t h⟩
  have hhead : ∀ x ∈ t.body.head?, isBlank x = false := head_lines _ _ (head_ending _)
  rw [userObjectName_named t h hhead, hbody]

theorem tokens_apart (c : ColumnDesc) : .tSemicolon ∉ c.tokens ∧ .tRbrace ∉ c.tokens := by
  have hnatural : ∀ n, naturalToken n ≠ .tSemicolon ∧ naturalToken n ≠ .tRbrace := by
    intro n
    unfold naturalToken
    dsimp only
    split
    · exact ⟨by decide, by decide⟩
    · split
      · exact ⟨FormToken.noConfusion, FormToken.noConfusion⟩
      · exact ⟨FormToken.noConfusion, FormToken.noConfusion⟩
  have hint : ∀ n, .tSemicolon ∉ intTokens n ∧ .tRbrace ∉ intTokens n := by
    intro n
    have h := hnatural n.natAbs
    unfold intTokens
    split
    · simp [h.1.symm, h.2.symm]
    · simp [h.1.symm, h.2.symm]
  have hname : nameToken c.name ≠ .tSemicolon ∧ nameToken c.name ≠ .tRbrace := by
    unfold nameToken
    split
    · exact ⟨FormToken.noConfusion, FormToken.noConfusion⟩
    · exact ⟨FormToken.noConfusion, FormToken.noConfusion⟩
  unfold ColumnDesc.tokens
  cases c.size with
  | none => simp [Size.tokens, hname.1.symm, hname.2.symm]
  | precision p => simp [Size.tokens, hname.1.symm, hname.2.symm, hint p]
  | scaled p s => simp [Size.tokens, hname.1.symm, hname.2.symm, hint p, hint s]

/-- The attributes that the parser takes for the columns. -/
def TableDesc.Attributes (ds : List AttributeDef) : Prop :=
  List.Forall₂ (fun (c : ColumnDesc) d => attributeDef c.tokens = some d) t.columns ds

/-- The form of the table with its attributes. -/
structure TableDesc.Form (form : FormDef) : Prop where
  seqs : form.seqs = []
  table : form.table = t.table
  attributes : t.Attributes form.attributes
  downCond : form.downCond = none

theorem attributeDefList_body {ds : List AttributeDef} {rest : List FormToken} :
    attributeDefList [] t.bodyTokens = some (ds, rest) ↔
      t.Attributes ds ∧ rest = endTokens (t.columns.any (·.type.dated)) :=
  attributeDefList_lines (fun c _ => (tokens_apart c).1) fun c _ => (tokens_apart c).2

theorem formTail_end (dated : Bool) :
    ∃ dateForm, formTail (endTokens dated) = some (dateForm, none) := by
  cases dated with
  | false => exact ⟨none, rfl⟩
  | true => exact ⟨_, rfl⟩

theorem iloaderForm_written {ds : List AttributeDef} (h : t.Named) (hds : t.Attributes ds)
    (hne : t.columns ≠ []) : ∃ form, iloaderForm (lexForm (writeColumns t)) = some form ∧
      t.Form form ∧ form.attributes = ds := by
  obtain ⟨tokens, hlex, hnamed, -⟩ := lex_written t
  have hdsne : ds ≠ [] := by
    rintro rfl
    exact hne (List.forall₂_nil_right_iff.mp hds)
  have hlist := (attributeDefList_body t).mpr ⟨hds, rfl⟩
  obtain ⟨dateForm, htail⟩ := formTail_end (t.columns.any (·.type.dated))
  have htable : tableDef (.tTable :: tokens) =
      some (⟨t.table, ds, hdsne⟩, endTokens (t.columns.any (·.type.dated))) := by
    unfold tableDef
    dsimp only
    rw [hnamed h]
    dsimp only
    rw [hlist]
    exact dif_pos hdsne
  refine ⟨⟨[], t.table, ds, dateForm, none, hdsne⟩, ?_, ⟨rfl, rfl, hds, rfl⟩, rfl⟩
  rw [hlex]
  change tableForm [] (.tTable :: tokens) = _
  unfold tableForm
  rw [htable]
  dsimp only
  rw [htail]
  rfl

theorem form_of_written {form : FormDef} (h : iloaderForm (lexForm (writeColumns t)) = some form) :
    t.Named ∧ t.Form form := by
  obtain ⟨tokens, hlex, hnamed, hnone⟩ := lex_written t
  rw [hlex] at h
  change tableForm [] (.tTable :: tokens) = _ at h
  by_cases ht : t.Named
  · refine ⟨ht, ?_⟩
    unfold tableForm tableDef at h
    dsimp only at h
    rw [hnamed ht] at h
    dsimp only at h
    cases hlist : attributeDefList [] t.bodyTokens with
    | none =>
      rw [hlist] at h
      cases h
    | some list =>
      obtain ⟨ds, rest⟩ := list
      obtain ⟨hds, rfl⟩ := (attributeDefList_body t).mp hlist
      obtain ⟨dateForm, htail⟩ := formTail_end (t.columns.any (·.type.dated))
      rw [hlist] at h
      dsimp only at h
      split at h
      · cases h
      · next hform =>
        split at hform
        · cases hform
          rw [htail] at h
          cases h
          exact ⟨rfl, rfl, hds, rfl⟩
        · cases hform
  · unfold tableForm tableDef at h
    dsimp only at h
    rw [hnone ht] at h
    cases h

end parse

/-! ## The table info of a form that is written -/

section roundTrip

variable {t : TableDesc} {env : LoadEnv} {g : FormGlobals}

/-- The actions of the columns, and what `GetTableInfo` stores of them. -/
theorem attributeActions_leave {cs : List ColumnDesc} (h : ∀ c ∈ cs, c.TypeReadable)
    (g : FormGlobals) : ∃ nodes g' columns,
      attributeActions (cs.map ColumnDesc.attribute) g = some (nodes, g') ∧
        columnsOf nodes = some columns ∧ nodes.length = cs.length ∧
          List.Forall₂ ColumnDesc.Kept cs columns := by
  induction cs generalizing g with
  | nil => exact ⟨[], g, [], rfl, rfl, rfl, .nil⟩
  | cons c cs ih =>
    obtain ⟨-, type, hkind, htype⟩ := kind_of_readable (h c List.mem_cons_self)
    obtain ⟨node, g₁, column, hact, hleaves⟩ := @attributeAction_leaves c.attribute type htype g
    obtain ⟨nodes, g₂, columns, hacts, hcolumns, hlength, hkept⟩ :=
      ih (fun c hc => h c (List.mem_cons_of_mem _ hc)) g₁
    refine ⟨node :: nodes, g₂, column :: columns, ?_, ?_, congrArg (· + 1) hlength,
      .cons ⟨hleaves.name, by rwa [hleaves.type]⟩ hkept⟩
    · rw [List.map_cons, attributeActions, hact]
      dsimp only
      rw [hacts]
    · rw [columnsOf, hleaves.stored, hcolumns]

theorem readable_of_attribute {c : ColumnDesc} {d : AttributeDef}
    (h : attributeDef c.tokens = some d) (hsupported : d.supported = true) : c.Readable := by
  have hcounted : ¬ IsDate c.name ∧ c.size.Counted := by
    by_contra hnot
    rw [not_and_or, not_not] at hnot
    rw [attributeDef_none c hnot] at h
    cases h
  refine ⟨hcounted.1, ?_⟩
  by_contra hnot
  rw [attributeDef_tokens c hcounted.1 hcounted.2] at h
  obtain rfl : c.attribute = d := Option.some.inj h
  rcases not_taken_of_not_readable hnot with hsize | hfalse
  · exact hsize hcounted.2
  · rw [hsupported] at hfalse
    cases hfalse

theorem readable_of_attributes {cs : List ColumnDesc} {ds : List AttributeDef}
    (h : List.Forall₂ (fun (c : ColumnDesc) d => attributeDef c.tokens = some d) cs ds)
    (hsupported : ∀ d ∈ ds, d.supported = true) : ∀ c ∈ cs, c.Readable := by
  induction h with
  | nil => exact fun c hc => absurd hc List.not_mem_nil
  | cons hc _ ih =>
    obtain ⟨hd, hds⟩ := List.forall_mem_cons.mp hsupported
    exact List.forall_mem_cons.mpr ⟨readable_of_attribute hc hd, ih hds⟩

/-- What is read of a form without sequences. -/
theorem readForm_eq_some {text : Text} {form : FormDef} {info : TableInfo}
    (hform : iloaderForm (lexForm text) = some form) (hseqs : form.seqs = []) :
    readForm env g text = some info ↔ ∃ nodes g', attributeActions form.attributes
      { g with gDateForm := [], gSeqArray := [] } = some (nodes, g') ∧
        getTableInfo form.table.text form.downCond nodes = some info ∧ info.fits = true := by
  unfold readForm getTableTree
  rw [hform]
  dsimp only
  rw [hseqs]
  dsimp only [seqActions]
  cases hact : attributeActions form.attributes { g with gDateForm := [], gSeqArray := [] } with
  | none => simp
  | some acts =>
    obtain ⟨nodes, g'⟩ := acts
    dsimp only
    cases hinfo : getTableInfo form.table.text form.downCond nodes with
    | none =>
      constructor
      · intro h
        cases h
      · rintro ⟨nodes', g'', h, hinfo', -⟩
        cases h
        rw [hinfo] at hinfo'
        cases hinfo'
    | some stored =>
      dsimp only
      constructor
      · intro h
        split at h
        · next hfits =>
          cases h
          exact ⟨nodes, g', rfl, hinfo, hfits⟩
        · cases h
      · rintro ⟨nodes', g'', h, hinfo', hfits⟩
        cases h
        rw [hinfo] at hinfo'
        cases hinfo'
        exact if_pos hfits

theorem infoFits_iff {info : TableInfo} {cs : List ColumnDesc}
    (h : List.Forall₂ ColumnDesc.Kept cs info.columns) : info.fits = true ↔
      info.m_TableName.length < maxTablenameLen ∧ ∀ c ∈ cs, c.name.length < maxWordLen := by
  have hnames : cs.map ColumnDesc.name = info.columns.map Column.m_AttrName := by
    rw [← List.forall₂_eq_eq_eq, List.forall₂_map_left_iff, List.forall₂_map_right_iff]
    exact h.imp fun _ _ hkept => hkept.name.symm
  have hall : (∀ c ∈ cs, c.name.length < maxWordLen) ↔
      ∀ c ∈ info.columns, c.m_AttrName.length < maxWordLen := by
    have hmap := congrArg (fun names : List Text => ∀ name ∈ names, name.length < maxWordLen) hnames
    simpa using hmap
  rw [hall]
  simp [TableInfo.fits]

theorem roundTrips_of_readable (h : t.Readable) : RoundTrips env g t := by
  have hds : t.Attributes (t.columns.map ColumnDesc.attribute) := by
    rw [TableDesc.Attributes, List.forall₂_map_right_iff]
    refine List.forall₂_same.mpr fun c hc => ?_
    obtain ⟨hname, htype⟩ := (h.columns c hc).1
    exact attributeDef_tokens c hname (kind_of_readable htype).1
  obtain ⟨form, hform, ⟨hseqs, htable, -, -⟩, hattributes⟩ :=
    iloaderForm_written t ⟨h.owner, h.name⟩ hds h.columns_ne
  obtain ⟨nodes, g', columns, hacts, hcolumns, hlength, hkept⟩ :=
    attributeActions_leave (fun c hc => (h.columns c hc).1.type)
      { g with gDateForm := [], gSeqArray := [] }
  have hinfo : getTableInfo form.table.text form.downCond nodes =
      some ⟨t.table.text, form.downCond, columns⟩ := by
    have hcount := h.columns_fit
    rw [getTableInfo, if_neg (by omega), hcolumns, htable]
    rfl
  have hfits : (⟨t.table.text, form.downCond, columns⟩ : TableInfo).fits = true :=
    (infoFits_iff hkept).mpr ⟨h.name_fits, fun c hc => (h.columns c hc).2⟩
  refine ⟨_, (readForm_eq_some hform hseqs).mpr ⟨nodes, g', ?_, hinfo, hfits⟩, rfl, hkept⟩
  rw [hattributes]
  exact hacts

theorem readable_of_roundTrips (h : RoundTrips env g t) : t.Readable := by
  obtain ⟨info, hread, hname, hkept⟩ := h
  obtain ⟨form, hform⟩ : ∃ form, iloaderForm (lexForm (writeColumns t)) = some form := by
    cases hform : iloaderForm (lexForm (writeColumns t)) with
    | none =>
      unfold readForm at hread
      rw [hform] at hread
      cases hread
    | some form => exact ⟨form, rfl⟩
  obtain ⟨⟨howner, htable⟩, hseqs, -, hattributes, -⟩ := form_of_written t hform
  obtain ⟨nodes, g', hacts, hinfo, hfits⟩ := (readForm_eq_some hform hseqs).mp hread
  obtain ⟨hnamefits, hcolumnfits⟩ := (infoFits_iff hkept).mp hfits
  have hsupported : ∀ d ∈ form.attributes, d.supported = true := by
    have hsome := attributeActions_isSome form.attributes
      { g with gDateForm := [], gSeqArray := [] }
    rw [hacts, eq_comm, Option.isSome_some, List.all_eq_true] at hsome
    exact hsome
  have hreadable := readable_of_attributes hattributes hsupported
  have hlength : nodes.length = t.columns.length :=
    (attributeActions_acts hacts).length.trans hattributes.length_eq.symm
  refine ⟨howner, htable, by rwa [← hname], ?_, ?_, fun c hc => ⟨hreadable c hc, hcolumnfits c hc⟩⟩
  · intro hnil
    rw [TableDesc.Attributes, hnil, List.forall₂_nil_left_iff] at hattributes
    exact form.attributes_ne hattributes
  · rw [← hlength]
    unfold getTableInfo at hinfo
    split at hinfo
    · cases hinfo
    · next hle => exact Nat.not_lt.mp hle

end roundTrip

end Natc.Ploader
