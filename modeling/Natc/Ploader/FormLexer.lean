import Natc.Isql.Tokens
import Natc.Lib.Decimal

/-!
# The scanner of form files

The rules of `iloFormLexer.l` in their order. Upper and lower case are the same; a character is a
byte. A rule without a start condition holds under all of them. Of the date formats that share one
action only the first is bound to `DATE_FORM`.
-/

namespace Natc.Ploader

open Lib Lib.Scanner
open Isql.Parse (sign word oneOf restOfLine isInitial isInner upper word_matches sign_matches
  isBlank forall_isDigit forall_isBlank toNat_lt_of_isInitial)

/-- The tokens, `T_LBRACE` as `tLbrace`, with their values. -/
inductive FormToken where
  | tSemicolon | tComma | tLbrace | tRbrace | tLbracket | tRbracket | tPeriod
  | tDownload | tSequence | tTable | tNextval | tCurrval | tZero | tDateformatCmd | tSkip | tAdd
  | tTimestampDefault | tTimestampNull | tNoexp
  | tTimestampValue (str : Text) | tCondition (str : Text) | tIdentifier (str : Text)
  | tString (str : Text) | tTimeformat (str : Text) | tDateformat (str : Text)
  | tNotermDateformat (str : Text) | tOptionalDateformat (str : Text)
  | tNumber (num : Nat)
  | char (c : Char)
  deriving DecidableEq, Repr

/-- The start conditions. -/
inductive FormCondition where
  | initial | comment | dateForm
  deriving DecidableEq, Repr

/-- What a rule does with the text. -/
inductive FormAction where
  | skip
  | begin (condition : FormCondition)
  | token (make : Text → FormToken)
  /-- `BEGIN DATE_FORM`, and a token is returned. -/
  | dateform
  /-- `return yytext[0]` -/
  | char

abbrev FormRule := Rule Char FormAction

def FormRule.of (regex : Regex Char) (make : Text → FormToken) : FormRule :=
  ⟨regex, some (.token make)⟩

/-! ## Patterns -/

/-- Two to four times the letter. -/
def years : Regex Char := Regex.all [word "YY", .opt (word "Y"), .opt (word "Y")]

/-- A slash or a hyphen, or none. -/
def dateSep : Regex Char := .opt (oneOf "/-")

/-- A colon or a slash, or none. -/
def timeSep : Regex Char := .opt (oneOf ":/")

/-- `[a-zA-Z\200-\3770-9_$#]` -/
def isNameChar (c : Char) : Bool := isInner c || c == '$' || c == '#'

def formIdentifier : Regex Char := .seq (.one isInitial) (.star (.one isNameChar))

def digit : Regex Char := .one Char.isDigit

def isNonzero (c : Char) : Bool := c.isDigit && c != '0'

/-! ## Rules -/

def commentRules : List (Option FormCondition × FormRule) := [
  (none, ⟨.seq (sign "#") restOfLine, some .skip⟩),
  (none, ⟨sign "/*", some (.begin .comment)⟩),
  (some .comment, ⟨sign "*/", some (.begin .initial)⟩),
  (some .comment, ⟨.one fun _ => true, some .skip⟩)]

def signRules : List FormRule := [
  .of (sign "\x7b") fun _ => .tLbrace,
  .of (sign "\x7d") fun _ => .tRbrace,
  .of (sign "(") fun _ => .tLbracket,
  .of (sign ")") fun _ => .tRbracket,
  .of (sign ",") fun _ => .tComma,
  .of (sign ";") fun _ => .tSemicolon,
  .of (sign ".") fun _ => .tPeriod]

def formKeywords : List (String × FormAction) := [
  ("DOWNLOAD", .token fun _ => .tDownload), ("CONDITION", .token .tCondition),
  ("SEQUENCE", .token fun _ => .tSequence), ("TABLE", .token fun _ => .tTable),
  ("NOEXP", .token fun _ => .tNoexp), ("SKIP", .token fun _ => .tSkip),
  ("DEFAULT", .token fun _ => .tTimestampDefault), ("NULL", .token fun _ => .tTimestampNull),
  ("ADD", .token fun _ => .tAdd), ("NEXTVAL", .token fun _ => .tNextval),
  ("CURRVAL", .token fun _ => .tCurrval), ("DATEFORM", .dateform)]

def keywordRules : List FormRule := formKeywords.map fun k => ⟨word k.1, some k.2⟩

/-- The date formats that hold under all start conditions. -/
def openDates : Regex Char := Regex.any [
  Regex.all [word "DD", dateSep, word "MM", dateSep, years],
  Regex.all [word "MM", dateSep, word "DD", dateSep, years],
  Regex.all [word "DD", dateSep, word "MON", dateSep, years]]

def dateRules : List (Option FormCondition × FormRule) := [
  (some .dateForm,
    .of (Regex.all [years, dateSep, word "MM", dateSep, word "DD"]) .tDateformat),
  (none, .of openDates .tDateformat),
  (some .dateForm, .of (Regex.all [sign "'", .star (.one fun c => c != '"' && c != '\''), sign "'"])
    .tOptionalDateformat),
  (some .dateForm, .of (Regex.all [.opt (word "HH"), timeSep, .opt (word "MI"), timeSep,
    .opt (word "SS"), timeSep, .opt (word "SSSSSS")]) .tTimeformat),
  (some .dateForm, .of (Regex.all [.opt years, .opt (word "MMDDHH"), .opt (word "MI"),
    .opt (word "SS"), .opt (word "SSSSSS")]) .tNotermDateformat)]

def timestampValue : Regex Char :=
  Regex.all (List.replicate 8 digit ++ [.opt (Regex.all (List.replicate 6 digit))])

def numberRules : List FormRule := [
  .of timestampValue .tTimestampValue,
  .of (.seq (.one isNonzero) (.star digit)) fun t => .tNumber (decimal t),
  .of (sign "0") fun _ => .tZero]

def restRules : List FormRule := [
  .of formIdentifier .tIdentifier,
  .of (Regex.all [sign "\"", .star (.one (· != '"')), sign "\""]) fun t =>
    .tString (t.tail.dropLast),
  ⟨.plus (oneOf " \t\n"), some .skip⟩,
  ⟨.one fun _ => true, some .char⟩]

/-- The rules with their start conditions. -/
def formRules : List (Option FormCondition × FormRule) :=
  commentRules ++ (signRules ++ keywordRules).map (none, ·) ++ dateRules ++
    (numberRules ++ restRules).map (none, ·)

/-- What an action returns, and the start condition that follows. -/
def FormAction.act (s : FormCondition) (action : FormAction) (yytext : Text) :
    Option FormToken × FormCondition :=
  match action with
  | .skip => (none, s)
  | .begin condition => (none, condition)
  | .token make => (some (make yytext), s)
  | .dateform => (some .tDateformatCmd, .dateForm)
  | .char => (yytext.head?.map .char, s)

def formLexer : Lexer Char FormCondition FormAction FormToken where
  rules s := (formRules.filter fun r => r.1.all (· == s)).map (·.2)
  act s action yytext := action.act s yytext

/-- What successive calls of `yylex` return for a form. -/
def lexForm (form : Text) : List FormToken := formLexer.run .initial form

/-! ## Names -/

section names

variable {w : Text}

/-- `[_a-zA-Z\200-\377][a-zA-Z\200-\3770-9_$#]*` -/
structure IsName (w : Text) : Prop where
  ne_nil : w ≠ []
  initial : ∀ c ∈ w.head?, isInitial c = true
  inner : ∀ c ∈ w, isNameChar c = true

/-- A name by computation. -/
theorem IsName.of_all (hne : w ≠ []) (hinitial : w.head?.all isInitial = true)
    (hinner : w.all isNameChar = true) : IsName w where
  ne_nil := hne
  initial c hc := (Option.all_eq_true _ _).mp hinitial c hc
  inner := List.all_eq_true.mp hinner

theorem IsName.identifier (hw : IsName w) : formIdentifier.Matches w := by
  obtain ⟨c, cs, rfl⟩ := List.exists_cons_of_ne_nil hw.ne_nil
  have hcs : (Regex.star (.one isNameChar)).Matches cs :=
    Regex.star_one_matches.mpr fun d hd => hw.inner d (List.mem_cons_of_mem c hd)
  exact ⟨[c], cs, rfl, ⟨c, hw.initial c rfl, rfl⟩, hcs⟩

/-- The word of a keyword rule. -/
def IsKeyword (w : Text) : Prop := upper w ∈ formKeywords.map fun k => k.1.toList

/-- The words that the three patterns of dates match. -/
def dateWords : List String := [
  "DDMMYY", "DDMMYYY", "DDMMYYYY", "MMDDYY", "MMDDYYY", "MMDDYYYY", "DDMONYY", "DDMONYYY",
  "DDMONYYYY"]

def IsDate (w : Text) : Prop := upper w ∈ dateWords.map String.toList

instance : DecidablePred IsKeyword := fun w =>
  inferInstanceAs (Decidable (upper w ∈ formKeywords.map fun k => k.1.toList))

instance : DecidablePred IsDate := fun w =>
  inferInstanceAs (Decidable (upper w ∈ dateWords.map String.toList))

theorem years_matches {t : Text} :
    years.Matches t ↔ ∃ y ∈ ["YY", "YYY", "YYYY"], upper t = y.toList := by
  have hopt : ∀ {u : Text}, (Regex.opt (word "Y")).Matches u ↔ upper u = ['Y'] ∨ u = [] := by
    intro u
    exact or_congr_left word_matches
  constructor
  · rintro ⟨u, _, rfl, hu, v, _, rfl, hv, v', _, rfl, hv', rfl⟩
    have hu : upper u = "YY".toList := word_matches.mp hu
    rw [upper, List.map_append, List.map_append, List.map_append, ← upper, hu]
    rcases hopt.mp hv with hv | rfl
    · rcases hopt.mp hv' with hv' | rfl
      · exact ⟨"YYYY", by simp, by rw [← upper, ← upper, hv, hv']; rfl⟩
      · exact ⟨"YYY", by simp, by rw [← upper, hv]; rfl⟩
    · rcases hopt.mp hv' with hv' | rfl
      · exact ⟨"YYY", by simp, by rw [← upper, ← upper, hv']; rfl⟩
      · exact ⟨"YY", by simp, rfl⟩
  · rintro ⟨y, hy, ht⟩
    have hsplit : ∃ u v v', t = u ++ (v ++ (v' ++ [])) ∧ upper u = "YY".toList ∧
        (upper v = ['Y'] ∨ v = []) ∧ (upper v' = ['Y'] ∨ v' = []) := by
      simp only [List.mem_cons, List.not_mem_nil, or_false] at hy
      rcases hy with rfl | rfl | rfl
      · exact ⟨t, [], [], by simp, ht, .inr rfl, .inr rfl⟩
      · obtain ⟨u, v, rfl, hu, hv⟩ := List.map_eq_append_iff.mp
          (show _ = "YY".toList ++ ['Y'] from ht)
        exact ⟨u, v, [], by simp, hu, .inl hv, .inr rfl⟩
      · obtain ⟨u, v, rfl, hu, hv⟩ := List.map_eq_append_iff.mp
          (show _ = "YY".toList ++ ['Y', 'Y'] from ht)
        obtain ⟨v, v', rfl, hv, hv'⟩ := List.map_eq_append_iff.mp (show _ = ['Y'] ++ ['Y'] from hv)
        exact ⟨u, v, v', by simp, hu, .inl hv, .inl hv'⟩
    obtain ⟨u, v, v', rfl, hu, hv, hv'⟩ := hsplit
    exact ⟨u, _, rfl, word_matches.mpr hu, v, _, rfl, hopt.mpr hv, v', _, rfl, hopt.mpr hv', rfl⟩

theorem dateSep_matches {t : Text} (h : dateSep.Matches t) (hname : ∀ c ∈ t, isNameChar c = true) :
    t = [] := by
  rcases h with ⟨c, hc, rfl⟩ | rfl
  · have hsep : "/-".toList.all (fun c => !isNameChar c) = true := by decide
    have hnot := List.all_eq_true.mp hsep c (List.contains_iff_mem.mp hc)
    rw [hname c List.mem_cons_self] at hnot
    cases hnot
  · rfl

/-- The date that a word is, the separators left out. -/
theorem date_matches {a b : String} (hname : ∀ c ∈ w, isNameChar c = true) :
    (Regex.all [word a, dateSep, word b, dateSep, years]).Matches w ↔
      ∃ y ∈ ["YY", "YYY", "YYYY"], upper w = (a ++ b ++ y).toList := by
  constructor
  · rintro ⟨u, _, rfl, hu, s, _, rfl, hs, v, _, rfl, hv, s', _, rfl, hs', y, _, rfl, hy, rfl⟩
    obtain rfl := dateSep_matches hs fun c hc => hname c (by simp [hc])
    obtain rfl := dateSep_matches hs' fun c hc => hname c (by simp [hc])
    obtain ⟨year, hyear, hy⟩ := years_matches.mp hy
    refine ⟨year, hyear, ?_⟩
    simp only [upper, List.map_append] at hy ⊢
    have hu := word_matches.mp hu
    have hv := word_matches.mp hv
    rw [upper] at hu hv
    simp [hu, hv, hy]
  · rintro ⟨year, hyear, h⟩
    rw [String.toList_append, String.toList_append] at h
    obtain ⟨u, y, rfl, hu, hy⟩ := List.map_eq_append_iff.mp h
    obtain ⟨u, v, rfl, hu, hv⟩ := List.map_eq_append_iff.mp hu
    exact ⟨u, v ++ y, by simp, word_matches.mpr hu, [], v ++ y, rfl, .inr rfl, v, y, rfl,
      word_matches.mpr hv, [], y, rfl, .inr rfl, y, [], by simp,
      years_matches.mpr ⟨year, hyear, hy⟩, rfl⟩

theorem openDates_matches (hname : ∀ c ∈ w, isNameChar c = true) :
    openDates.Matches w ↔ IsDate w := by
  have hany : openDates.Matches w ↔
      (Regex.all [word "DD", dateSep, word "MM", dateSep, years]).Matches w ∨
      (Regex.all [word "MM", dateSep, word "DD", dateSep, years]).Matches w ∨
      (Regex.all [word "DD", dateSep, word "MON", dateSep, years]).Matches w :=
    or_congr_right (or_congr_right (or_iff_left id))
  rw [hany, date_matches hname, date_matches hname, date_matches hname]
  simp [IsDate, dateWords, or_assoc]

/-- The bytes that a name can begin with. -/
def initials : List Char := ((List.range 256).map Char.ofNat).filter isInitial

theorem mem_initials {c : Char} (hc : isInitial c = true) : c ∈ initials := by
  refine List.mem_filter.mpr ⟨List.mem_map.mpr ⟨c.toNat, ?_, Char.ofNat_toNat c⟩, hc⟩
  exact List.mem_range.mpr (toNat_lt_of_isInitial hc)

/-! ## The rule of a name -/

def dateRule : FormRule := .of openDates .tDateformat

def identifierRule : FormRule := .of formIdentifier .tIdentifier

def frontRules : List FormRule :=
  [⟨.seq (sign "#") restOfLine, some .skip⟩, ⟨sign "/*", some (.begin .comment)⟩] ++ signRules

def initialRules : List FormRule :=
  frontRules ++ keywordRules ++ (dateRule :: numberRules ++ restRules)

theorem rules_initial : formLexer.rules .initial = initialRules := rfl

theorem initialRules_name : initialRules =
    frontRules ++ keywordRules ++ (dateRule :: numberRules ++ identifierRule :: restRules.tail) :=
  rfl

instance not_starts_name : Fact (((frontRules ++ numberRules).all fun r => initials.all fun c =>
    !r.regex.starts c) = true) :=
  ⟨by decide +kernel⟩

theorem find_none (hw : IsName w) {rules : List FormRule}
    (hrules : ∀ r ∈ rules, r ∈ frontRules ++ numberRules) :
    rules.find? (·.regex.accepts w) = none := by
  rw [List.find?_eq_none]
  intro r hr hacc
  obtain ⟨c, cs, rfl⟩ := List.exists_cons_of_ne_nil hw.ne_nil
  have hnot := List.all_eq_true.mp (List.all_eq_true.mp not_starts_name.out r (hrules r hr)) c
    (mem_initials (hw.initial c rfl))
  rw [Regex.starts_of_matches (Regex.accepts_iff.mp hacc)] at hnot
  cases hnot

theorem find_keyword : keywordRules.find? (·.regex.accepts w) =
    (formKeywords.find? fun k => upper w = k.1.toList).map fun k => ⟨word k.1, some k.2⟩ := by
  rw [keywordRules, List.find?_map]
  congr 2
  funext k
  rw [Function.comp_apply, Bool.eq_iff_iff, Regex.accepts_iff, word_matches, decide_eq_true_eq]

/-- A name is taken by the rule of its keyword, of the dates or of the identifiers. -/
theorem find_name (hw : IsName w) : initialRules.find? (·.regex.accepts w) =
    match formKeywords.find? fun k => upper w = k.1.toList with
    | some k => some ⟨word k.1, some k.2⟩
    | none => if IsDate w then some dateRule else some identifierRule := by
  have hidentifier : identifierRule.regex.accepts w = true :=
    Regex.accepts_iff.mpr hw.identifier
  rw [initialRules_name, List.find?_append, List.find?_append,
    find_none hw fun r hr => List.mem_append_left _ hr, Option.none_or, find_keyword]
  cases formKeywords.find? fun k => upper w = k.1.toList with
  | some k => rfl
  | none =>
    rw [Option.map_none, Option.none_or]
    dsimp only
    rw [List.cons_append, List.find?_cons, List.find?_append,
      find_none hw fun r hr => List.mem_append_right _ hr, Option.none_or,
      List.find?_cons_of_pos (by exact hidentifier)]
    have hdate : dateRule.regex.Matches w ↔ IsDate w := openDates_matches hw.inner
    split
    · next h => rw [if_pos (hdate.mp (Regex.accepts_iff.mp h))]
    · next h =>
      rw [if_neg fun hd => ?_]
      rw [Regex.accepts_iff.mpr (hdate.mpr hd)] at h
      cases h

/-! ## Steps of the scanner -/

section step

variable {c : Char} {cs tail : Text} {regex : Regex Char} {k : FormAction}

/-- One match under the first start condition. -/
theorem lex_match (hpick : pick initialRules (c :: cs ++ tail) =
      some (⟨regex, some k⟩, (c :: cs).length)) :
    lexForm (c :: cs ++ tail) =
      (k.act .initial (c :: cs)).1.toList ++ formLexer.run (k.act .initial (c :: cs)).2 tail :=
  Lexer.run_pick (List.cons_ne_nil c cs) hpick

/-- A match whose action returns a token. -/
theorem lex_token {token : FormToken} (hpick : pick initialRules (c :: cs ++ tail) =
      some (⟨regex, some k⟩, (c :: cs).length))
    (hact : k.act .initial (c :: cs) = (some token, .initial)) :
    lexForm (c :: cs ++ tail) = token :: lexForm tail := by
  have hmatch := lex_match hpick
  rwa [hact] at hmatch

end step

/-- What stands behind a name in a form that is written. -/
def nameStops : Text := [' ', '.', '\n', ';']

instance cutsAt_name : Fact (cutsAt initialRules initials nameStops = true) :=
  ⟨by decide +kernel⟩

variable {d : Char} {tail : Text}

theorem lex_name (hw : IsName w) (hd : d ∈ nameStops) {regex : Regex Char} {k : FormAction}
    (h : initialRules.find? (·.regex.accepts w) = some ⟨regex, some k⟩) :
    lexForm (w ++ d :: tail) =
      (k.act .initial w).1.toList ++ formLexer.run (k.act .initial w).2 (d :: tail) := by
  obtain ⟨c, cs, rfl⟩ := List.exists_cons_of_ne_nil hw.ne_nil
  exact lex_match (pick_cut cutsAt_name.out (mem_initials (hw.initial c rfl)) hd h)

/-- The token of a name that is no keyword. -/
def nameToken (w : Text) : FormToken := if IsDate w then .tDateformat w else .tIdentifier w

theorem lex_nameToken (hw : IsName w) (hd : d ∈ nameStops) (hkey : ¬ IsKeyword w) :
    lexForm (w ++ d :: tail) = nameToken w :: lexForm (d :: tail) := by
  have hnone : (formKeywords.find? fun k => upper w = k.1.toList) = none := by
    rw [List.find?_eq_none]
    intro k hk heq
    rw [decide_eq_true_eq] at heq
    exact hkey (List.mem_map.mpr ⟨k, hk, heq.symm⟩)
  have hfind := find_name hw
  rw [hnone] at hfind
  dsimp only at hfind
  unfold nameToken
  split at hfind
  · next hdate =>
    rw [if_pos hdate]
    exact lex_name hw hd hfind
  · next hdate =>
    rw [if_neg hdate]
    exact lex_name hw hd hfind

theorem act_keyword (w : Text) : ∀ k ∈ formKeywords, ∃ token, (k.2.act .initial w).1 = some token ∧
    ∀ t, token ≠ .tIdentifier t := by
  simp [formKeywords, FormAction.act]

/-- A keyword is no name. -/
theorem lex_keyword (hw : IsName w) (hd : d ∈ nameStops) (hkey : IsKeyword w) :
    ∃ token rest, lexForm (w ++ d :: tail) = token :: rest ∧ ∀ t, token ≠ .tIdentifier t := by
  obtain ⟨k, hk, hkw⟩ := List.mem_map.mp hkey
  have hfind := find_name hw
  cases hword : formKeywords.find? fun k => upper w = k.1.toList with
  | none => exact absurd (decide_eq_true hkw.symm) (List.find?_eq_none.mp hword k hk)
  | some k =>
    rw [hword] at hfind
    obtain ⟨token, hact, htoken⟩ := act_keyword w k (List.mem_of_find?_eq_some hword)
    have hlex := @lex_name w d tail hw hd _ _ hfind
    rw [hact] at hlex
    exact ⟨token, _, hlex, htoken⟩

end names

/-! ## Blanks and signs -/

section signs

variable {c : Char} {tail : Text}

def blankRule : FormRule := ⟨.plus (oneOf " \t\n"), some .skip⟩

def anyRule : FormRule := ⟨.one fun _ => true, some .char⟩

def otherRules : List FormRule :=
  frontRules ++ keywordRules ++ (dateRule :: numberRules) ++ restRules.take 2

theorem initialRules_blank : initialRules = otherRules ++ [blankRule, anyRule] := rfl

instance otherRules_blank : Fact ([' ', '\t', '\n'].all (fun b =>
    otherRules.all fun r => !r.regex.starts b) = true) :=
  ⟨by decide +kernel⟩

theorem not_starts_blank {b : Char} (hb : isBlank b = true) :
    (otherRules.all fun r => !r.regex.starts b) = true :=
  @forall_isBlank (fun b => otherRules.all fun r => !r.regex.starts b) otherRules_blank.out b hb

/-- A blank is dropped. -/
theorem lex_blank {b : Char} (hb : isBlank b = true) (htail : ∀ c ∈ tail.head?, isBlank c = false) :
    lexForm (b :: tail) = lexForm tail := by
  have hother : ∀ r ∈ otherRules, ∀ y, ¬ r.regex.Matches (b :: y) := by
    intro r hr y hmatch
    have hnot := List.all_eq_true.mp (not_starts_blank hb) r hr
    rw [Regex.starts_of_matches hmatch] at hnot
    cases hnot
  have hfirst : initialRules.find? (·.regex.accepts [b]) = some blankRule := by
    have hblank : blankRule.regex.accepts [b] = true :=
      Regex.accepts_iff.mpr (Regex.plus_one_matches.mpr ⟨List.cons_ne_nil b [], fun d hd => by
        rw [List.mem_singleton.mp hd]
        exact hb⟩)
    rw [initialRules_blank, List.find?_append,
      List.find?_eq_none.mpr fun r hr hacc => hother r hr [] (Regex.accepts_iff.mp hacc),
      Option.none_or, List.find?_cons_of_pos (by exact hblank)]
  refine @lex_match b [] tail _ _ (pick_append (List.cons_ne_nil b []) hfirst ?_)
  intro r hr e y hy hmatch
  rw [initialRules_blank, List.mem_append] at hr
  rcases hr with hr | hr
  · exact hother r hr _ hmatch
  rcases List.mem_pair.mp hr with rfl | rfl
  · obtain ⟨rest, rfl⟩ := hy
    have he := (Regex.plus_one_matches.mp hmatch).2 e (by simp)
    rw [show " \t\n".toList.contains e = isBlank e from rfl, htail e rfl] at he
    cases he
  · have hle := Regex.length_le hmatch rfl
    simp at hle

/-- The signs that no longer match begins with. -/
def signChars : Text := ['{', '}', '(', ')', ',', ';', '.', '-']

instance maxLength_sign : Fact ((signChars.all fun c => initialRules.all fun r =>
    !r.regex.starts c || r.regex.maxLength == some 1) = true) :=
  ⟨by decide +kernel⟩

/-- A sign whose matches are of one character. -/
theorem lex_single (c : Char) (hc : c ∈ signChars) (regex : Regex Char) {k : FormAction}
    {token : FormToken}
    (hfirst : initialRules.find? (·.regex.accepts [c]) = some ⟨regex, some k⟩)
    (hact : k.act .initial [c] = (some token, .initial)) (tail : Text) :
    lexForm (c :: tail) = token :: lexForm tail := by
  refine lex_token (pick_append (List.cons_ne_nil c []) hfirst fun r hr e y _ hmatch => ?_) hact
  have hone := List.all_eq_true.mp (List.all_eq_true.mp maxLength_sign.out c hc) r hr
  rw [List.singleton_append] at hmatch
  rw [Regex.starts_of_matches hmatch, Bool.not_true, Bool.false_or, beq_iff_eq] at hone
  have hle := Regex.length_le hmatch hone
  simp at hle

theorem lex_lbrace (tail : Text) : lexForm ('{' :: tail) = .tLbrace :: lexForm tail :=
  lex_single '{' (by simp [signChars]) (sign "\x7b") rfl rfl tail

theorem lex_rbrace (tail : Text) : lexForm ('}' :: tail) = .tRbrace :: lexForm tail :=
  lex_single '}' (by simp [signChars]) (sign "\x7d") rfl rfl tail

theorem lex_lbracket (tail : Text) : lexForm ('(' :: tail) = .tLbracket :: lexForm tail :=
  lex_single '(' (by simp [signChars]) (sign "(") rfl rfl tail

theorem lex_rbracket (tail : Text) : lexForm (')' :: tail) = .tRbracket :: lexForm tail :=
  lex_single ')' (by simp [signChars]) (sign ")") rfl rfl tail

theorem lex_comma (tail : Text) : lexForm (',' :: tail) = .tComma :: lexForm tail :=
  lex_single ',' (by simp [signChars]) (sign ",") rfl rfl tail

theorem lex_semicolon (tail : Text) : lexForm (';' :: tail) = .tSemicolon :: lexForm tail :=
  lex_single ';' (by simp [signChars]) (sign ";") rfl rfl tail

theorem lex_period (tail : Text) : lexForm ('.' :: tail) = .tPeriod :: lexForm tail :=
  lex_single '.' (by simp [signChars]) (sign ".") rfl rfl tail

theorem lex_minus (tail : Text) : lexForm ('-' :: tail) = .char '-' :: lexForm tail :=
  lex_single '-' (by simp [signChars]) (.one fun _ => true) rfl rfl tail

end signs

/-! ## Numbers -/

section numbers

variable {ds tail : Text} {d : Char}

theorem replicate_matches {p : Char → Bool} {rs : List (Regex Char)} {n : Nat} {t : Text} :
    (Regex.all (List.replicate n (.one p) ++ rs)).Matches t ↔
      ∃ u v, t = u ++ v ∧ (∀ c ∈ u, p c = true) ∧ u.length = n ∧ (Regex.all rs).Matches v := by
  induction n generalizing t with
  | zero =>
    constructor
    · intro h
      exact ⟨[], t, rfl, by simp, rfl, h⟩
    · rintro ⟨u, v, rfl, -, hu, hv⟩
      obtain rfl := List.length_eq_zero_iff.mp hu
      exact hv
  | succ n ih =>
    constructor
    · rintro ⟨_, t, rfl, ⟨c, hc, rfl⟩, ht⟩
      obtain ⟨u, v, rfl, hu, hlength, hv⟩ := ih.mp ht
      exact ⟨c :: u, v, rfl, List.forall_mem_cons.mpr ⟨hc, hu⟩, by rw [List.length_cons, hlength],
        hv⟩
    · rintro ⟨u, v, rfl, hu, hlength, hv⟩
      obtain ⟨c, u, rfl⟩ := List.exists_cons_of_length_eq_add_one hlength
      obtain ⟨hc, hu⟩ := List.forall_mem_cons.mp hu
      exact ⟨[c], u ++ v, rfl, ⟨c, hc, rfl⟩, ih.mpr ⟨u, v, rfl, hu, by simpa using hlength, hv⟩⟩

theorem timestampValue_matches (hds : IsDigits ds) :
    timestampValue.Matches ds ↔ ds.length = 8 ∨ ds.length = 14 := by
  have hsix : ∀ {v : Text}, (Regex.all (List.replicate 6 digit)).Matches v ↔
      ∃ u w, v = u ++ w ∧ IsDigits u ∧ u.length = 6 ∧ w = [] := by
    intro v
    have h := @replicate_matches Char.isDigit [] 6 v
    rwa [List.append_nil] at h
  have hmatch : timestampValue.Matches ds ↔ ∃ u v, ds = u ++ v ∧ IsDigits u ∧ u.length = 8 ∧
      (Regex.all [.opt (Regex.all (List.replicate 6 digit))]).Matches v := replicate_matches
  rw [hmatch]
  constructor
  · rintro ⟨u, _, rfl, -, hu, v, _, rfl, hv | rfl, rfl⟩
    · obtain ⟨v, _, rfl, -, hlength, rfl⟩ := hsix.mp hv
      exact .inr (by simp [hu, hlength])
    · exact .inl (by simpa using hu)
  · rintro (h | h)
    · exact ⟨ds, [], by simp, hds, h, [], [], rfl, .inr rfl, rfl⟩
    · refine ⟨ds.take 8, ds.drop 8, (List.take_append_drop 8 ds).symm,
        fun c hc => hds c (List.mem_of_mem_take hc), by simp [h], ds.drop 8, [], by simp,
        .inl (hsix.mpr ?_), rfl⟩
      exact ⟨ds.drop 8, [], by simp, fun c hc => hds c (List.mem_of_mem_drop hc), by simp [h], rfl⟩

/-- What a number is to the scanner: eight digits are a timestamp, like fourteen. -/
def naturalToken (n : Nat) : FormToken :=
  let ds := Nat.toDigits 10 n
  if n = 0 then .tZero
  else if ds.length = 8 ∨ ds.length = 14 then .tTimestampValue ds
  else .tNumber n

def timestampRule : FormRule := .of timestampValue .tTimestampValue

def numberRule : FormRule := .of (.seq (.one isNonzero) (.star digit)) fun t => .tNumber (decimal t)

theorem initialRules_digit : initialRules =
    (frontRules ++ keywordRules ++ [dateRule]) ++
      timestampRule :: numberRule :: .of (sign "0") (fun _ => .tZero) :: restRules := rfl

instance frontRules_digit : Fact (((List.range' 48 10).map Char.ofNat).all (fun c =>
    (frontRules ++ keywordRules ++ [dateRule]).all fun r => !r.regex.starts c) = true) :=
  ⟨by decide +kernel⟩

theorem not_starts_digit {c : Char} (hc : c.isDigit = true) :
    ((frontRules ++ keywordRules ++ [dateRule]).all fun r => !r.regex.starts c) = true :=
  @forall_isDigit (fun c => (frontRules ++ keywordRules ++ [dateRule]).all fun r =>
    !r.regex.starts c) frontRules_digit.out c hc

theorem mem_digits {c : Char} (hc : c.isDigit = true) : c ∈ "0123456789".toList :=
  List.contains_iff_mem.mp (@forall_isDigit "0123456789".toList.contains (by decide) c hc)

instance cutsAt_digit : Fact (cutsAt initialRules "0123456789".toList [',', ')'] = true) :=
  ⟨by decide +kernel⟩

theorem find_natural (n : Nat) : ∃ rule k, initialRules.find?
    (·.regex.accepts (Nat.toDigits 10 n)) = some ⟨rule, some k⟩ ∧
      k.act .initial (Nat.toDigits 10 n) = (some (naturalToken n), .initial) := by
  by_cases hzero : n = 0
  · subst hzero
    exact ⟨_, _, rfl, rfl⟩
  have hds := isDigits_toDigits n
  have hvalue := decimal_toDigits n
  have hhead := head?_toDigits (Nat.pos_of_ne_zero hzero)
  have htoken : naturalToken n = if (Nat.toDigits 10 n).length = 8 ∨
      (Nat.toDigits 10 n).length = 14 then .tTimestampValue (Nat.toDigits 10 n) else .tNumber n :=
    if_neg hzero
  rw [htoken]
  obtain ⟨c, cs, hcs⟩ := List.exists_cons_of_ne_nil (Nat.toDigits_ne_nil (n := n) (b := 10))
  rw [hcs] at hds hvalue hhead ⊢
  have hc : c.isDigit = true := hds c List.mem_cons_self
  have hfront : (frontRules ++ keywordRules ++ [dateRule]).find? (·.regex.accepts (c :: cs)) =
      none := by
    rw [List.find?_eq_none]
    intro r hr hacc
    have hnot := List.all_eq_true.mp (not_starts_digit hc) r hr
    rw [Regex.starts_of_matches (Regex.accepts_iff.mp hacc)] at hnot
    cases hnot
  have hstamp : timestampRule.regex.Matches (c :: cs) ↔ _ := timestampValue_matches hds
  rw [initialRules_digit, List.find?_append, hfront, Option.none_or]
  split
  · next h =>
    have hacc : timestampRule.regex.accepts (c :: cs) = true :=
      Regex.accepts_iff.mpr (hstamp.mpr h)
    exact ⟨_, _, List.find?_cons_of_pos (by exact hacc), rfl⟩
  · next h =>
    have hnot : ¬ timestampRule.regex.accepts (c :: cs) = true := fun hacc =>
      h (hstamp.mp (Regex.accepts_iff.mp hacc))
    have hnumber : numberRule.regex.accepts (c :: cs) = true := by
      refine Regex.accepts_iff.mpr ⟨[c], cs, rfl, ⟨c, ?_, rfl⟩, Regex.star_one_matches.mpr
        fun d hd => hds d (List.mem_cons_of_mem c hd)⟩
      have hne : c ≠ '0' := fun heq => hhead (by rw [heq]; rfl)
      simp [isNonzero, hc, hne]
    refine ⟨_, _, (List.find?_cons_of_neg (by exact hnot)).trans
      (List.find?_cons_of_pos (by exact hnumber)), ?_⟩
    exact congrArg (fun m => (some (FormToken.tNumber m), FormCondition.initial)) hvalue

/-- A number up to the sign behind it. -/
theorem lex_natural (n : Nat) (hd : d = ',' ∨ d = ')') :
    lexForm (Nat.toDigits 10 n ++ d :: tail) = naturalToken n :: lexForm (d :: tail) := by
  obtain ⟨rule, k, hfind, hact⟩ := find_natural n
  have hds := isDigits_toDigits n
  obtain ⟨c, cs, hcs⟩ := List.exists_cons_of_ne_nil (Nat.toDigits_ne_nil (n := n) (b := 10))
  rw [hcs] at hfind hact hds ⊢
  exact lex_token (pick_cut cutsAt_digit.out (mem_digits (hds c List.mem_cons_self)) (by simpa using hd)
    hfind) hact

end numbers

end Natc.Ploader
