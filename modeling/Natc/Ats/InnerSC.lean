import Natc.Staf

/-!
# Placeholders for semicolons and slashes

The lexer ends a statement at a semicolon and a stored object at a slash. So `loadCASE` hides the
ones inside a line behind placeholders, and the grammar rule of each statement brings them back.
A line with its hidden characters is a list of pieces; a statement is a stretch of pieces.
-/

namespace Natc.Ats

open Lib

def innerSemicolon : Text := "__$INNER_SEMICOLON$__".toList

def innerSlash : Text := "__$INNER_SLASH$__".toList

theorem innerSemicolon_eq : innerSemicolon =
    ['_', '_', '$', 'I', 'N', 'N', 'E', 'R', '_', 'S', 'E', 'M', 'I', 'C', 'O', 'L', 'O', 'N',
      '$', '_', '_'] := by
  decide +kernel

theorem innerSlash_eq : innerSlash =
    ['_', '_', '$', 'I', 'N', 'N', 'E', 'R', '_', 'S', 'L', 'A', 'S', 'H', '$', '_', '_'] := by
  decide +kernel

/-- A character of a script line: kept, or replaced by one of the placeholders. -/
inductive Piece where
  | kept (c : Char)
  | semicolon
  | slash
  deriving DecidableEq, Repr

namespace Piece

/-- What the lexer reads. -/
def text : Piece → Text
  | kept c => [c]
  | semicolon => innerSemicolon
  | slash => innerSlash

/-- The character of the script. -/
def char : Piece → Char
  | kept c => c
  | semicolon => ';'
  | slash => '/'

def isKept : Piece → Bool
  | kept _ => true
  | _ => false

end Piece

def render (ms : List Piece) : Text := ms.flatMap Piece.text

def source (ms : List Piece) : Text := ms.map Piece.char

/-- `findLastOf( ";" )` of a line that has one. -/
def findLastOf (c : Char) (s : Text) : Nat := s.length - 1 - s.reverse.idxOf c

/-- `Servicer::parseInnerSC`: a semicolon at the end of the line stays. -/
def parseInnerSC (staf : Staf) (aData : Text) : Text :=
  if (staf.strip aData).getLast? = some ';' then
    let sCursor := findLastOf ';' aData
    staf.replace (aData.take sCursor) [';'] innerSemicolon ++ aData.drop sCursor
  else staf.replace aData [';'] innerSemicolon

/-- A comment line is loaded as it is. -/
def isComment (staf : Staf) (sLine : Text) : Bool :=
  let line := staf.strip sLine
  line.take 1 = "#".toList ∨ line.take 2 = "--".toList ∨ line.take 2 = "//".toList ∨
    line.take 3 = "--+".toList

/-- One line of `Servicer::loadCASE`. A slash alone in its line stays. -/
def loadLine (staf : Staf) (sLine : Text) : Text :=
  if isComment staf sLine then sLine
  else
    let sData1 := parseInnerSC staf sLine
    let sData2 := staf.strip sData1
    if staf.contains sData2 "/".toList ∧ sData2.length ≠ 1 then
      staf.replace sData1 "/".toList innerSlash
    else sData1

/-- The lines of a script, those of its LOAD_SQL files among them. -/
def loadCASE (staf : Staf) (lines : List Text) : Text := lines.flatMap (loadLine staf)

/-- The pieces of `parseInnerSC`. -/
def hideSemicolons (s : Text) : List Piece :=
  s.map fun c => if c = ';' then .semicolon else .kept c

def markInnerSC (staf : Staf) (aData : Text) : List Piece :=
  if (staf.strip aData).getLast? = some ';' then
    let sCursor := findLastOf ';' aData
    hideSemicolons (aData.take sCursor) ++ (aData.drop sCursor).map .kept
  else hideSemicolons aData

def Piece.hideSlash : Piece → Piece
  | .kept '/' => .slash
  | m => m

/-- The pieces of `loadLine`. -/
def markLine (staf : Staf) (sLine : Text) : List Piece :=
  if isComment staf sLine then sLine.map .kept
  else
    let sData1 := markInnerSC staf sLine
    let sData2 := staf.strip (render sData1)
    if staf.contains sData2 "/".toList ∧ sData2.length ≠ 1 then sData1.map .hideSlash
    else sData1

def markScript (staf : Staf) (lines : List Text) : List Piece := lines.flatMap (markLine staf)

section Marks

@[simp] theorem render_append (as bs : List Piece) : render (as ++ bs) = render as ++ render bs :=
  List.flatMap_append

@[simp] theorem source_append (as bs : List Piece) : source (as ++ bs) = source as ++ source bs :=
  List.map_append

theorem render_cons (m : Piece) (ms : List Piece) : render (m :: ms) = m.text ++ render ms := rfl

theorem render_single (m : Piece) : render [m] = m.text := List.append_nil _

theorem source_single (m : Piece) : source [m] = [m.char] := rfl

@[simp] theorem render_kept (s : Text) : render (s.map .kept) = s := by
  induction s with
  | nil => rfl
  | cons c s ih => rw [List.map_cons, render_cons, ih]; rfl

@[simp] theorem source_kept (s : Text) : source (s.map .kept) = s := by
  simp [source, Function.comp_def, Piece.char]

theorem render_hideSemicolons (staf : Staf) (s : Text) :
    render (hideSemicolons s) = staf.replace s [';'] innerSemicolon := by
  rw [staf.replace_eq _ _ _ (by simp), replaceAll_singleton]
  induction s with
  | nil => rfl
  | cons c s ih =>
    have hhead : (if c = ';' then Piece.semicolon else .kept c).text =
        if c = ';' then innerSemicolon else [c] := by
      split <;> rfl
    rw [List.flatMap_cons, ← ih, ← hhead]
    rfl

theorem source_hideSemicolons (s : Text) : source (hideSemicolons s) = s := by
  induction s with
  | nil => rfl
  | cons c s ih =>
    have hhead : (if c = ';' then Piece.semicolon else .kept c).char = c := by
      split
      · rename_i h
        exact h.symm
      · rfl
    rw [hideSemicolons, List.map_cons, source, List.map_cons, hhead]
    exact congrArg (c :: ·) ih

theorem render_markInnerSC (staf : Staf) (aData : Text) :
    render (markInnerSC staf aData) = parseInnerSC staf aData := by
  unfold markInnerSC parseInnerSC
  split
  · rw [render_append, render_kept, render_hideSemicolons staf]
  · exact render_hideSemicolons staf aData

theorem source_markInnerSC (staf : Staf) (aData : Text) :
    source (markInnerSC staf aData) = aData := by
  unfold markInnerSC
  split
  · rw [source_append, source_kept, source_hideSemicolons, List.take_append_drop]
  · exact source_hideSemicolons aData

theorem source_hideSlash (ms : List Piece) : source (ms.map .hideSlash) = source ms := by
  simp only [source, List.map_map]
  refine List.map_congr_left fun m _ => ?_
  unfold Function.comp Piece.hideSlash
  split <;> rfl

theorem render_hideSlash (staf : Staf) (ms : List Piece) (h : Piece.slash ∉ ms) :
    render (ms.map .hideSlash) = staf.replace (render ms) "/".toList innerSlash := by
  rw [staf.replace_eq _ _ _ (by decide), show "/".toList = ['/'] from rfl, replaceAll_singleton]
  induction ms with
  | nil => rfl
  | cons m ms ih =>
    obtain ⟨hm, hms⟩ : Piece.slash ≠ m ∧ Piece.slash ∉ ms := by simpa using h
    have hhead : m.hideSlash.text = m.text.flatMap fun c => if c = '/' then innerSlash else [c] := by
      cases m with
      | kept c =>
        by_cases hc : c = '/'
        · subst hc
          rfl
        · have hkeep : (Piece.kept c).hideSlash = .kept c := by
            unfold Piece.hideSlash
            split
            · rename_i heq
              exact absurd (Piece.kept.inj heq) hc
            · rfl
          simp [hkeep, Piece.text, hc]
      | semicolon => simp [Piece.hideSlash, Piece.text, innerSemicolon_eq]
      | slash => exact absurd rfl hm
    rw [List.map_cons, render_cons, render_cons, List.flatMap_append, ih hms, hhead]

private theorem slash_not_mem (staf : Staf) (aData : Text) :
    Piece.slash ∉ markInnerSC staf aData := by
  have hhide : ∀ s, Piece.slash ∉ hideSemicolons s := by
    intro s hs
    obtain ⟨c, _, hc⟩ := List.mem_map.mp hs
    split at hc <;> cases hc
  unfold markInnerSC
  split
  · rw [List.mem_append]
    rintro (hs | hs)
    · exact hhide _ hs
    · obtain ⟨c, _, hc⟩ := List.mem_map.mp hs
      cases hc
  · exact hhide aData

/-- The pieces of a line spell what `loadCASE` appends for it. -/
theorem render_markLine (staf : Staf) (sLine : Text) :
    render (markLine staf sLine) = loadLine staf sLine := by
  unfold markLine loadLine
  split
  · exact render_kept sLine
  · simp only [render_markInnerSC]
    split
    · rw [render_hideSlash staf _ (slash_not_mem staf sLine), render_markInnerSC]
    · exact render_markInnerSC staf sLine

/-- Only semicolons and slashes are hidden. -/
theorem source_markLine (staf : Staf) (sLine : Text) : source (markLine staf sLine) = sLine := by
  unfold markLine
  split
  · exact source_kept sLine
  · simp only
    split
    · rw [source_hideSlash, source_markInnerSC]
    · exact source_markInnerSC staf sLine

theorem render_markScript (staf : Staf) (lines : List Text) :
    render (markScript staf lines) = loadCASE staf lines := by
  induction lines with
  | nil => rfl
  | cons sLine lines ih =>
    rw [markScript, List.flatMap_cons, render_append, render_markLine, loadCASE,
      List.flatMap_cons]
    exact congrArg (loadLine staf sLine ++ ·) ih

theorem source_markScript (staf : Staf) (lines : List Text) :
    source (markScript staf lines) = lines.flatten := by
  induction lines with
  | nil => rfl
  | cons sLine lines ih =>
    rw [markScript, List.flatMap_cons, source_append, source_markLine, List.flatten_cons]
    exact congrArg (sLine ++ ·) ih

end Marks

/-- The grammar rules of the SQL statements. -/
inductive SqlRule where
  | insert | select | desc | update | delete | move | commit | rollback | savepoint
  | createObject | create | drop | grant | revoke | enqueue | dequeue | alter | rename
  | truncate | lock | prepare | commentSql | autocommit | executeNull | executeFunction
  | executeProcedure
  deriving DecidableEq, Repr

/-- The continuation lines of a statement are indented. -/
def indentedLine : Text := "\n     ".toList

def indent (staf : Staf) (aData : Text) : Text :=
  staf.replace aData "\n".toList indentedLine

/-- `replace` of the grammar. -/
def replace (staf : Staf) (aData : Text) : Text :=
  staf.replace (staf.replace (indent staf aData) innerSemicolon ";".toList) innerSlash "/".toList

/-- `sKeyMap["key1"]` of a statement, from the text of its token. -/
def SqlRule.key1 (staf : Staf) (sData : Text) : SqlRule → Text
  | .insert | .select | .update | .delete | .move | .createObject | .create | .alter | .prepare
  | .commentSql | .executeFunction | .executeProcedure => replace staf sData
  | .drop | .grant | .revoke | .enqueue | .dequeue | .rename | .truncate | .lock =>
      indent staf sData
  | .desc | .commit | .rollback | .savepoint | .autocommit | .executeNull => sData

/-- The source text of a statement as the rule lays it out. -/
def SqlRule.laidOut (staf : Staf) (text : Text) : SqlRule → Text
  | .desc | .commit | .rollback | .savepoint | .autocommit | .executeNull => text
  | _ => indent staf text

/-- The rules that bring the hidden characters back. -/
def SqlRule.restores : SqlRule → Bool
  | .insert | .select | .update | .delete | .move | .createObject | .create | .alter | .prepare
  | .commentSql | .executeFunction | .executeProcedure => true
  | _ => false

/-- The pieces of a statement behind the indentation of its lines. -/
def indentPieces (ms : List Piece) : List Piece :=
  ms.flatMap fun m => if m = .kept '\n' then indentedLine.map .kept else [m]

/-- The placeholder of a slash is in front, and none of a semicolon begins inside it: those are
brought back first. -/
def ReadsSlash (s : Text) : Prop :=
  innerSlash <+: s ∧ ∀ k < innerSlash.length, ¬ innerSemicolon <+: s.drop k

instance : DecidablePred ReadsSlash := fun _ => inferInstanceAs (Decidable (_ ∧ _))

/-- The placeholders stand for the hidden characters and for nothing else. -/
def Unambiguous : List Piece → Prop
  | [] => True
  | m :: ms =>
      (innerSemicolon <+: render (m :: ms) ↔ m = .semicolon) ∧
        (ReadsSlash (render (m :: ms)) ↔ m = .slash) ∧ Unambiguous ms

instance decidableUnambiguous : DecidablePred Unambiguous
  | [] => isTrue trivial
  | _ :: ms =>
      have : Decidable (Unambiguous ms) := decidableUnambiguous ms
      inferInstanceAs (Decidable (_ ∧ _ ∧ _))

section Restore

variable (staf : Staf)

theorem indent_eq (s : Text) :
    indent staf s = s.flatMap fun c => if c = '\n' then indentedLine else [c] := by
  rw [indent, staf.replace_eq _ _ _ (by decide), show "\n".toList = ['\n'] from rfl,
    replaceAll_singleton]

theorem indent_render (ms : List Piece) : indent staf (render ms) = render (indentPieces ms) := by
  rw [indent_eq]
  induction ms with
  | nil => rfl
  | cons m ms ih =>
    have hhead : (m.text.flatMap fun c => if c = '\n' then indentedLine else [c]) =
        render (if m = .kept '\n' then indentedLine.map .kept else [m]) := by
      cases m with
      | kept c =>
        by_cases hc : c = '\n'
        · simp only [hc, if_true, Piece.text, List.flatMap_singleton, render_kept]
        · simp [hc, Piece.text, render_single]
      | semicolon => simp [Piece.text, render_single, innerSemicolon_eq]
      | slash => simp [Piece.text, render_single, innerSlash_eq]
    rw [render_cons, List.flatMap_append, ih, hhead, ← render_append]
    rfl

theorem indent_source (ms : List Piece) : indent staf (source ms) = source (indentPieces ms) := by
  rw [indent_eq]
  induction ms with
  | nil => rfl
  | cons m ms ih =>
    have hhead : (if m.char = '\n' then indentedLine else [m.char]) =
        source (if m = .kept '\n' then indentedLine.map .kept else [m]) := by
      cases m with
      | kept c =>
        by_cases hc : c = '\n'
        · simp only [hc, if_true, Piece.char, source_kept]
        · simp [hc, Piece.char, source_single]
      | semicolon => simp [Piece.char, source_single]
      | slash => simp [Piece.char, source_single]
    rw [source, List.map_cons, List.flatMap_cons, hhead]
    exact (congrArg _ ih).trans (source_append _ _).symm

private theorem innerSemicolon_ne_nil : innerSemicolon ≠ [] := by simp [innerSemicolon_eq]

private theorem innerSlash_ne_nil : innerSlash ≠ [] := by simp [innerSlash_eq]

private theorem semicolon_not_mem : ';' ∉ innerSlash := by simp [innerSlash_eq]

/-- Bringing the hidden characters back. -/
def restored (s : Text) : Text :=
  replaceAll innerSlash ['/'] (replaceAll innerSemicolon [';'] s)

private theorem restored_semicolon (s : Text) :
    restored (innerSemicolon ++ s) = ';' :: restored s := by
  rw [restored, replaceAll_append _ _ _ innerSemicolon_ne_nil, List.singleton_append,
    replaceAll_cons _ _ _ _ (by simp [innerSlash_eq, List.cons_prefix_cons])]
  rfl

private theorem restored_slash (s : Text) (h : ReadsSlash (innerSlash ++ s)) :
    restored (innerSlash ++ s) = '/' :: restored s := by
  rw [restored, replaceAll_keep _ _ _ _ h.2, replaceAll_append _ _ _ innerSlash_ne_nil]
  rfl

private theorem restored_cons (c : Char) (s : Text) (hsemi : ¬ innerSemicolon <+: c :: s)
    (hslash : ¬ ReadsSlash (c :: s)) : restored (c :: s) = c :: restored s := by
  have hnot : ¬ innerSlash <+: replaceAll innerSemicolon [';'] (c :: s) := fun h =>
    hslash ((prefix_replaceAll_iff _ _ _ _ innerSemicolon_ne_nil semicolon_not_mem).mp h)
  rw [replaceAll_cons _ _ _ _ hsemi] at hnot
  rw [restored, replaceAll_cons _ _ _ _ hsemi, replaceAll_cons _ _ _ _ hnot]
  rfl

private theorem head_of_innerSlash (c : Char) (s : Text) (h : innerSlash <+: c :: s) :
    c = '_' := by
  rw [innerSlash_eq] at h
  exact (List.cons_prefix_cons.mp h).1.symm

private theorem head_of_innerSemicolon (c : Char) (s : Text) (h : innerSemicolon <+: c :: s) :
    c = '_' := by
  rw [innerSemicolon_eq] at h
  exact (List.cons_prefix_cons.mp h).1.symm

private theorem not_innerSemicolon_slash (s : Text) : ¬ innerSemicolon <+: innerSlash ++ s := by
  simp [innerSemicolon_eq, innerSlash_eq, List.cons_prefix_cons]

private theorem not_readsSlash_semicolon (s : Text) : ¬ ReadsSlash (innerSemicolon ++ s) := by
  intro h
  exact h.2 0 (by simp [innerSlash_eq]) (List.prefix_append _ _)

/-- A kept character comes back as itself if no placeholder begins there. -/
private theorem restored_kept_iff (c : Char) (s t : Text) :
    restored (c :: s) = c :: t ↔
      ¬ innerSemicolon <+: c :: s ∧ ¬ ReadsSlash (c :: s) ∧ restored s = t := by
  by_cases hsemi : innerSemicolon <+: c :: s
  · obtain ⟨u, hu⟩ := id hsemi
    have hc := head_of_innerSemicolon c s hsemi
    subst hc
    rw [← hu, restored_semicolon]
    simp [List.prefix_append]
  by_cases hslash : ReadsSlash (c :: s)
  · obtain ⟨u, hu⟩ := id hslash.1
    have hc := head_of_innerSlash c s hslash.1
    subst hc
    rw [← hu] at hslash ⊢
    rw [restored_slash u hslash]
    simp [hslash]
  rw [restored_cons c s hsemi hslash]
  simp [hsemi, hslash]

private theorem restored_slash_iff (s t : Text) :
    restored (innerSlash ++ s) = '/' :: t ↔ ReadsSlash (innerSlash ++ s) ∧ restored s = t := by
  by_cases hslash : ReadsSlash (innerSlash ++ s)
  · rw [restored_slash s hslash]
    simp [hslash]
  · have hhead : innerSlash ++ s = '_' :: (innerSlash.tail ++ s) := by simp [innerSlash_eq]
    have hsemi := not_innerSemicolon_slash s
    rw [hhead] at hslash hsemi ⊢
    rw [restored_cons _ _ hsemi hslash]
    simp [hslash]

/-- The hidden characters come back exactly if the text of the lexer is unambiguous. -/
theorem restored_render_iff (ms : List Piece) :
    restored (render ms) = source ms ↔ Unambiguous ms := by
  induction ms with
  | nil => exact iff_of_true rfl trivial
  | cons m ms ih =>
    rw [Unambiguous, ← ih]
    cases m with
    | kept c =>
      rw [show source (.kept c :: ms) = c :: source ms from rfl,
        show render (.kept c :: ms) = c :: render ms from rfl, restored_kept_iff]
      simp
    | semicolon =>
      have hnot := not_readsSlash_semicolon (render ms)
      rw [show source (.semicolon :: ms) = ';' :: source ms from rfl,
        show render (.semicolon :: ms) = innerSemicolon ++ render ms from rfl, restored_semicolon]
      simp [hnot, List.prefix_append]
    | slash =>
      have hnot := not_innerSemicolon_slash (render ms)
      rw [show source (.slash :: ms) = '/' :: source ms from rfl,
        show render (.slash :: ms) = innerSlash ++ render ms from rfl, restored_slash_iff]
      simp [hnot]

/-- A text of the lexer is the source text exactly if nothing is hidden in it. -/
theorem render_eq_source_iff (ms : List Piece) :
    render ms = source ms ↔ ∀ m ∈ ms, m.isKept := by
  induction ms with
  | nil => simp [render, source]
  | cons m ms ih =>
    rw [List.forall_mem_cons, ← ih]
    cases m with
    | kept c => simp [render, source, Piece.text, Piece.char, Piece.isKept]
    | semicolon => simp [render, source, Piece.text, Piece.char, Piece.isKept, innerSemicolon_eq]
    | slash => simp [render, source, Piece.text, Piece.char, Piece.isKept, innerSlash_eq]

theorem isKept_indentPieces_iff (ms : List Piece) :
    (∀ m ∈ indentPieces ms, m.isKept) ↔ ∀ m ∈ ms, m.isKept := by
  induction ms with
  | nil => rfl
  | cons m ms ih =>
    have hhead : (∀ x ∈ (if m = .kept '\n' then indentedLine.map .kept else [m]),
        Piece.isKept x) ↔ m.isKept := by
      split
      · rename_i h
        subst h
        simp [Piece.isKept]
      · simp
    rw [List.forall_mem_cons, ← ih, ← hhead, indentPieces, List.flatMap_cons, List.forall_mem_append]
    rfl

theorem replace_eq_restored (s : Text) : replace staf s = restored (indent staf s) := by
  rw [replace, staf.replace_eq _ _ _ innerSlash_ne_nil, staf.replace_eq _ _ _ innerSemicolon_ne_nil]
  rfl

/-- What a rule does to its statement. -/
theorem SqlRule.key1_cases (rule : SqlRule) :
    (rule.restores = true ∧
        ∀ s, rule.key1 staf s = replace staf s ∧ rule.laidOut staf s = indent staf s) ∨
      (rule.restores = false ∧
        ∀ s, rule.key1 staf s = indent staf s ∧ rule.laidOut staf s = indent staf s) ∨
      (rule.restores = false ∧ ∀ s, rule.key1 staf s = s ∧ rule.laidOut staf s = s) := by
  cases rule <;> simp [restores, key1, laidOut]

/-- A rule that restores needs an unambiguous text, any other one without hidden characters. -/
theorem SqlRule.key1_eq_laidOut_iff (rule : SqlRule) (ms : List Piece) :
    rule.key1 staf (render ms) = rule.laidOut staf (source ms) ↔
      if rule.restores then Unambiguous (indentPieces ms) else ∀ m ∈ ms, m.isKept := by
  rcases rule.key1_cases staf with ⟨hr, h⟩ | ⟨hr, h⟩ | ⟨hr, h⟩
  · rw [(h _).1, (h _).2, hr, if_pos rfl, replace_eq_restored, indent_render, indent_source]
    exact restored_render_iff _
  · rw [(h _).1, (h _).2, hr, if_neg (by simp), indent_render, indent_source,
      render_eq_source_iff]
    exact isKept_indentPieces_iff ms
  · rw [(h _).1, (h _).2, hr, if_neg (by simp)]
    exact render_eq_source_iff ms

end Restore

end Natc.Ats
