import Mathlib.Data.List.Forall2
import Natc.Ploader.Form
import Natc.Ploader.FormLexer

/-!
# The form parser

The grammar of `iloFormParser.y` on the tokens of a form, up to the token at which it accepts: what
follows is not looked at. An attribute ends with its semicolon, a sequence where the next one or
the table begins.
-/

namespace Natc.Ploader

open Lib

/-! ## Names and flags -/

/-- `user_object_name`, with the tokens behind it. -/
def userObjectName : List FormToken → Option (ObjectName × List FormToken)
  | .tIdentifier owner :: .tPeriod :: .tIdentifier name :: rest => some (⟨some owner, name⟩, rest)
  | .tIdentifier _ :: .tPeriod :: _ => none
  | .tIdentifier name :: rest => some (⟨none, name⟩, rest)
  | _ => none

/-- `column_name`. -/
def columnName : FormToken → Option Text
  | .tIdentifier name => some name
  | .tCondition name => some name
  | _ => none

/-- `SKIP_DEF`. -/
def skipDef : List FormToken → Option Bool
  | [] => some false
  | [.tSkip] => some true
  | _ => none

/-- `SKIPNOEXP_DEF`. -/
def skipnoexpDef : List FormToken → Option SkipNoexp
  | [] => some ⟨false, false⟩
  | [.tSkip] => some ⟨true, false⟩
  | [.tNoexp] => some ⟨false, true⟩
  | [.tSkip, .tNoexp] => some ⟨true, true⟩
  | [.tNoexp, .tSkip] => some ⟨true, true⟩
  | _ => none

/-! ## Attributes -/

/-- What stands between the type and the semicolon. -/
def attributeTail : List FormToken → Option AttributeTail
  | .tLbracket :: .tNumber n :: .tRbracket :: flags => (skipnoexpDef flags).map (.sized n)
  | .tLbracket :: .tNumber n :: .tComma :: .tZero :: .tRbracket :: flags =>
      (skipnoexpDef flags).map (.zeroScaled n)
  | .tLbracket :: .tNumber n :: .tComma :: .tNumber m :: .tRbracket :: flags =>
      (skipnoexpDef flags).map (.scaled n m)
  | .tString format :: skip => (skipDef skip).map (.dated format)
  | [.tSkip, .tTimestampDefault] => some (.skipStamp .default)
  | [.tSkip, .tTimestampNull] => some (.skipStamp .null)
  | [.tSkip, .tTimestampValue str] => some (.skipStamp (.value str))
  | [.tAdd, .tTimestampDefault] => some (.addStamp .default)
  | [.tAdd, .tTimestampNull] => some (.addStamp .null)
  | [.tAdd, .tTimestampValue str] => some (.addStamp (.value str))
  | flags => (skipnoexpDef flags).map .plain

/-- `ATTRIBUTE_DEF` up to its semicolon. -/
def attributeDef : List FormToken → Option AttributeDef
  | name :: .tIdentifier type :: rest =>
      match columnName name, attributeTail rest with
      | some column_name, some tail => some ⟨column_name, type, tail⟩
      | _, _ => none
  | _ => none

/-- `ATTRIBUTE_DEF_LIST` up to the closing brace, with the tokens behind it; `read` is what there is
of an attribute so far. -/
def attributeDefList (read : List FormToken) :
    List FormToken → Option (List AttributeDef × List FormToken)
  | [] => none
  | .tSemicolon :: rest =>
      match attributeDef read, attributeDefList [] rest with
      | some d, some (ds, rest) => some (d :: ds, rest)
      | _, _ => none
  | .tRbrace :: rest => if read = [] then some ([], rest) else none
  | token :: rest => attributeDefList (read ++ [token]) rest

/-- `TABLE_DEF`. -/
structure TableDef where
  table : ObjectName
  attributes : List AttributeDef
  attributes_ne : attributes ≠ []

def tableDef : List FormToken → Option (TableDef × List FormToken)
  | .tTable :: tokens =>
      match userObjectName tokens with
      | some (table, .tLbrace :: tokens) =>
          match attributeDefList [] tokens with
          | some (attributes, rest) =>
              if h : attributes ≠ [] then some (⟨table, attributes, h⟩, rest) else none
          | none => none
      | _ => none
  | _ => none

/-! ## Sequences, condition and date format -/

/-- `SEQ_DEF` behind its first token. -/
def seqDef (tokens : List FormToken) : Option SeqDef :=
  match userObjectName tokens with
  | none => none
  | some (seq, tokens) =>
      match userObjectName tokens with
      | some (col, []) => some ⟨seq, col, false⟩
      | some (col, [.tNextval]) => some ⟨seq, col, false⟩
      | some (col, [.tCurrval]) => some ⟨seq, col, true⟩
      | _ => none

/-- `SEQ_DEF_LIST` behind its first token, up to the table. -/
def seqDefList (read : List FormToken) : List FormToken → Option (List SeqDef × List FormToken)
  | [] => none
  | .tSequence :: rest =>
      match seqDef read, seqDefList [] rest with
      | some s, some (ss, rest) => some (s :: ss, rest)
      | _, _ => none
  | .tTable :: rest => (seqDef read).map fun s => ([s], .tTable :: rest)
  | token :: rest => seqDefList (read ++ [token]) rest

/-- `DOWN_COND_DEF`. -/
def downCondDef : List FormToken → Option (Text × List FormToken)
  | .tDownload :: .tCondition _ :: .tString str :: rest => some (str, rest)
  | _ => none

/-- The quotes of `T_OPTIONAL_DATEFORMAT` are blanks, and `ltrim` and `rtrim` drop the blanks. -/
def optionalDateformat (str : Text) : Text :=
  (str.tail.dropLast.dropWhile (· = ' ')).rdropWhile (· = ' ')

/-- `DATEFORMAT_DEF`: what is copied into `gDateForm`. -/
def dateformatDef : List FormToken → Option (Text × List FormToken)
  | .tDateformatCmd :: .tDateformat date :: .tTimeformat time :: rest =>
      some (date ++ ' ' :: time, rest)
  | .tDateformatCmd :: .tDateformat date :: rest => some (date, rest)
  | .tDateformatCmd :: .tNotermDateformat date :: rest => some (date, rest)
  | .tDateformatCmd :: .tTimeformat time :: rest => some (time, rest)
  | .tDateformatCmd :: .tOptionalDateformat str :: rest => some (optionalDateformat str, rest)
  | _ => none

/-- What follows `TABLE_DEF`: the date format and the condition, in either order. -/
def formTail : List FormToken → Option (Option Text × Option Text)
  | .tDownload :: tokens =>
      match downCondDef (.tDownload :: tokens) with
      | none => none
      | some (str, .tDateformatCmd :: rest) =>
          (dateformatDef (.tDateformatCmd :: rest)).map fun f => (some f.1, some str)
      | some (str, _) => some (none, some str)
  | .tDateformatCmd :: tokens =>
      match dateformatDef (.tDateformatCmd :: tokens) with
      | none => none
      | some (form, .tDownload :: rest) =>
          (downCondDef (.tDownload :: rest)).map fun c => (some form, some c.1)
      | some (form, _) => some (some form, none)
  | _ => some (none, none)

/-! ## The form -/

/-- The table and what follows it. -/
def tableForm (seqs : List SeqDef) (tokens : List FormToken) : Option FormDef :=
  match tableDef tokens with
  | none => none
  | some (⟨table, attributes, attributes_ne⟩, rest) =>
      (formTail rest).map fun tail => ⟨seqs, table, attributes, tail.1, tail.2, attributes_ne⟩

/-- `ILOADER_FORM`; without one it is a syntax error. -/
def iloaderForm : List FormToken → Option FormDef
  | .tDownload :: tokens =>
      match downCondDef (.tDownload :: tokens) with
      | none => none
      | some (str, tokens) =>
          (tableDef tokens).map fun t =>
            ⟨[], t.1.table, t.1.attributes, none, some str, t.1.attributes_ne⟩
  | .tSequence :: tokens =>
      match seqDefList [] tokens with
      | none => none
      | some (seqs, tokens) => tableForm seqs tokens
  | tokens => tableForm [] tokens

/-! ## Lists of attributes -/

section attributes

variable {read line rest rest' : List FormToken} {ds : List AttributeDef}

/-- The tokens of one attribute, with its semicolon. -/
theorem attributeDefList_line (hsemicolon : .tSemicolon ∉ line) (hbrace : .tRbrace ∉ line) :
    attributeDefList read (line ++ .tSemicolon :: rest) =
      match attributeDef (read ++ line), attributeDefList [] rest with
      | some d, some (ds, rest) => some (d :: ds, rest)
      | _, _ => none := by
  induction line generalizing read with
  | nil =>
    rw [List.append_nil]
    rfl
  | cons token line ih =>
    rw [List.mem_cons, not_or] at hsemicolon hbrace
    have hstep : attributeDefList read (token :: line ++ .tSemicolon :: rest) =
        attributeDefList (read ++ [token]) (line ++ .tSemicolon :: rest) := by
      cases token with
      | tSemicolon => exact absurd rfl hsemicolon.1
      | tRbrace => exact absurd rfl hbrace.1
      | _ => rfl
    rw [hstep, ih hsemicolon.2 hbrace.2, List.append_assoc, List.singleton_append]

theorem attributeDefList_lines {α : Type*} {line : α → List FormToken} {cs : List α}
    (hsemicolon : ∀ c ∈ cs, .tSemicolon ∉ line c) (hbrace : ∀ c ∈ cs, .tRbrace ∉ line c) :
    attributeDefList [] (cs.flatMap (fun c => line c ++ [.tSemicolon]) ++ .tRbrace :: rest) =
        some (ds, rest') ↔
      List.Forall₂ (fun c d => attributeDef (line c) = some d) cs ds ∧ rest' = rest := by
  induction cs generalizing ds with
  | nil =>
    constructor
    · intro h
      cases h
      exact ⟨.nil, rfl⟩
    · rintro ⟨hall, rfl⟩
      cases hall
      rfl
  | cons c cs ih =>
    replace ih := fun ds => @ih ds (fun c hc => hsemicolon c (List.mem_cons_of_mem _ hc))
      fun c hc => hbrace c (List.mem_cons_of_mem _ hc)
    rw [List.flatMap_cons, List.append_assoc, List.append_assoc, List.singleton_append,
      attributeDefList_line (hsemicolon c List.mem_cons_self) (hbrace c List.mem_cons_self),
      List.nil_append]
    constructor
    · intro h
      split at h
      · next d ds' rest'' hd hds =>
        cases h
        obtain ⟨hall, hrest⟩ := (ih ds').mp hds
        exact ⟨.cons hd hall, hrest⟩
      · cases h
    · rintro ⟨hall, rfl⟩
      cases hall with
      | cons hd hall =>
        rw [hd, (ih _).mpr ⟨hall, rfl⟩]

end attributes

end Natc.Ploader
