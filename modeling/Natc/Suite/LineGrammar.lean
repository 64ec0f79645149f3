import Mathlib.Data.List.Perm.Basic
import Natc.Suite.CaseManager

/-!
# The grammar of suite lines

A line of a suite may be disabled, may have a platform in brackets in front of the name of its case
and a comment behind it, with blanks, tabs and exclamation marks between these parts.
-/

namespace Natc.Suite

open Lib

/-- The characters that are passed over between the parts. -/
def separator (c : Char) : Prop := c = ' ' ∨ c = '!' ∨ c = '\t'

instance (c : Char) : Decidable (separator c) := inferInstanceAs (Decidable (_ ∨ _))

structure Separators where
  text : Text
  only : ∀ c ∈ text, separator c

/-- A platform name: no closing bracket, and no separators around it. -/
structure PlatformName where
  text : Text
  ne : text ≠ []
  clean : ∀ c ∈ text, c ≠ ']' ∧ c ≠ '\n' ∧ c ≠ '\x00'
  first : ∀ c ∈ text.head?, ¬separator c
  last : ∀ c ∈ text.getLast?, ¬separator c

/-- A platform in brackets. Without the sign of negation the name does not begin with it. -/
structure Bracket where
  beforeSign : Separators
  negated : Bool
  behindSign : Separators
  platform : PlatformName
  beforeClose : Separators
  unsigned : negated = false → platform.text.head? ≠ some '^'

/-- The name of a case: no number sign, and no separators around it. -/
structure CaseName where
  text : Text
  ne : text ≠ []
  clean : ∀ c ∈ text, c ≠ '#' ∧ c ≠ '\n' ∧ c ≠ '\x00'
  first : ∀ c ∈ text.head?, ¬separator c
  last : ∀ c ∈ text.getLast?, ¬separator c

structure CaseComment where
  text : Text
  clean : ∀ c ∈ text, c ≠ '\n' ∧ c ≠ '\x00'

/-- The parts of a line. Without a platform the name does not begin with a bracket. -/
structure SuiteLine where
  disabled : Bool
  lead : Separators
  bracket : Option Bracket
  behindBracket : Separators
  name : CaseName
  trail : Separators
  comment : Option CaseComment
  unbracketed : bracket = none → name.text.head? ≠ some '['

/-- What stands between the brackets. -/
def Bracket.inside (b : Bracket) : Text :=
  b.beforeSign.text ++ (if b.negated then ['^'] else []) ++ b.behindSign.text ++
    b.platform.text ++ b.beforeClose.text

def Bracket.text (b : Bracket) : Text := '[' :: b.inside ++ [']']

/-- The platform and its flag. -/
def Bracket.denoted (b : Bracket) : Text × Int :=
  (b.platform.text, if b.negated then PLAT_ON else PLAT_OFF)

/-- The text of a comment as it is recorded, with its number sign. -/
def SuiteLine.commentText (l : SuiteLine) : Text :=
  match l.comment with
  | none => []
  | some comment => '#' :: comment.text

/-- The name, the separators behind it and the comment. -/
def SuiteLine.tailText (l : SuiteLine) : Text :=
  l.name.text ++ l.trail.text ++ l.commentText

def SuiteLine.text (l : SuiteLine) : Text :=
  (if l.disabled then ['#'] else []) ++ l.lead.text ++
    ((l.bracket.map Bracket.text).getD [] ++ (l.behindBracket.text ++ l.tailText))

/-- What the line denotes. -/
def SuiteLine.denoted (l : SuiteLine) : Line where
  disabled := l.disabled
  sLine := l.name.text
  platform := l.bracket.map Bracket.denoted
  sCaseComment := l.commentText

/-- The file of this one line is read as one line, with the parts that it denotes. -/
def Decoded (l : SuiteLine) : Prop :=
  (fileLines (l.text ++ ['\n'])).map scanLine = [some l.denoted]

/-- A bracket without separators in it, and none between it and the name. -/
def SuiteLine.TightBracket (l : SuiteLine) : Prop :=
  ∀ b, l.bracket = some b → b.beforeSign.text = [] ∧ b.behindSign.text = [] ∧
    b.beforeClose.text = [] ∧ l.behindBracket.text = []

/-- The line fits the buffer, its bracket is tight, its name has neither separators nor brackets
behind its first character, and the line does not begin with a hyphen. -/
structure SuiteLine.Plain (l : SuiteLine) : Prop where
  fits : l.text.length < LINE_BUFFER - 1
  tight : l.TightBracket
  name : ∀ c ∈ l.name.text.tail, ¬separator c ∧ c ≠ '['
  hyphen : l.text.head? ≠ some '-'

/-! ## The scanner on the rest of a line -/

/-- What the scanner makes of the rest of a line, with what it leaves out. -/
structure ScanEnd where
  sLine : Text
  platform : Option (Text × Int)
  sCaseComment : Text
  skipped : Text
  /-- A bracket is not closed. -/
  unclosed : Bool
  deriving DecidableEq, Repr

namespace ScanEnd

def skip (e : ScanEnd) (s : Text) : ScanEnd := { e with skipped := s ++ e.skipped }

def record (e : ScanEnd) (c : Char) : ScanEnd := { e with sLine := c :: e.sLine }

def withPlatform (e : ScanEnd) (p : Text × Int) : ScanEnd :=
  { e with platform := some (e.platform.getD p) }

end ScanEnd

/-- The platform that is read behind an opening bracket, and what is left of the line. -/
def bracketAt (cs : Text) : (Text × Int) × Text :=
  let name := cs.tail.takeWhile (· ≠ ']')
  ((if cs.head? = some '^' then name else cs.take 1 ++ name,
      if cs.head? = some '^' then PLAT_ON else PLAT_OFF),
    cs.tail.drop (name.length + 1))

/-- What is done with a character that is no separator and no bracket, or stands behind one. -/
def scanChar (rest : Text → ScanEnd) : Text → ScanEnd
  | [] => ⟨[], none, [], [], false⟩
  | c :: cs =>
      if c = '#' then
        ⟨[], none, (c :: cs).takeWhile (· ≠ '\n'), (c :: cs).dropWhile (· ≠ '\n'), false⟩
      else if c = '\n' then ⟨[], none, [], c :: cs, false⟩
      else (rest cs).record c

def scanRest : Nat → Text → ScanEnd
  | 0, cs => ⟨[], none, [], cs, false⟩
  | fuel + 1, cs =>
      match cs with
      | [] => ⟨[], none, [], [], false⟩
      | c :: cs =>
          if separator c then (scanRest fuel cs).skip [c]
          else if c = '[' then
            if cs.tail.any (· = ']') then
              ((scanChar (scanRest fuel) (bracketAt cs).2).withPlatform (bracketAt cs).1).skip
                ('[' :: cs.take (cs.length - (bracketAt cs).2.length))
            else ⟨[], some (bracketAt cs).1, [], '[' :: cs, true⟩
          else scanChar (scanRest fuel) (c :: cs)

/-- The line that is found when the scan of its beginning has found `line`. -/
def ScanEnd.result (e : ScanEnd) (sBuffer : Text) (line : Line) : Option Line :=
  if e.unclosed = true ∧ LINE_BUFFER ≤ sBuffer.length + 1 then none
  else some { line with
    sLine := line.sLine ++ e.sLine
    platform := e.platform.or line.platform
    sCaseComment := e.sCaseComment }

theorem ScanEnd.result_nil (sBuffer skipped : Text) {line : Line} (h : line.sCaseComment = []) :
    ScanEnd.result ⟨[], none, [], skipped, false⟩ sBuffer line = some line := by
  cases line
  cases h
  unfold ScanEnd.result
  rw [if_neg (fun h => Bool.false_ne_true h.1), List.append_nil, Option.none_or]

section Scan

variable {sBuffer : Text}

theorem charAt_of_drop {i : Nat} {c : Char} {cs : Text} (h : sBuffer.drop i = c :: cs) :
    charAt sBuffer i = c := by
  have hhead : (sBuffer.drop i).head? = some c := by rw [h, List.head?_cons]
  rw [List.head?_drop] at hhead
  rw [charAt, List.getD_eq_getElem?_getD, hhead, Option.getD_some]

theorem charAt_of_le {i : Nat} (h : sBuffer.length ≤ i) : charAt sBuffer i = '\x00' := by
  rw [charAt, List.getD_eq_getElem?_getD, List.getElem?_eq_none h, Option.getD_none]

theorem drop_succ_of_drop {i : Nat} {c : Char} {cs : Text} (h : sBuffer.drop i = c :: cs) :
    sBuffer.drop (i + 1) = cs := by
  rw [← List.drop_drop, h, List.drop_succ_cons, List.drop_zero]

theorem lt_length_of_drop {i : Nat} {c : Char} {cs : Text} (h : sBuffer.drop i = c :: cs) :
    i < sBuffer.length := by
  by_contra hle
  rw [List.drop_eq_nil_of_le (Nat.not_lt.mp hle)] at h
  cases h

/-- The scanner behind the separators and the brackets of a round. -/
def scanCharAt (sBuffer : Text) (fuel i : Nat) (line : Line) : Option Line :=
  let c := charAt sBuffer i
  if LINE_BUFFER ≤ i then none
  else if c = '#' then some { line with sCaseComment := (sBuffer.drop i).takeWhile (· ≠ '\n') }
  else if (c = '-' ∧ i = 0) ∨ c = '\n' then some line
  else scanFrom sBuffer fuel (i + 1)
    (if c = '\x00' then line else { line with sLine := line.sLine ++ [c] })

theorem scanFrom_succ {fuel i : Nat} {line : Line} {c : Char} {cs : Text}
    (hdrop : sBuffer.drop i = c :: cs) (hfirst : ¬(c = '#' ∧ i = 0)) :
    scanFrom sBuffer (fuel + 1) i line =
      if separator c then scanFrom sBuffer fuel (i + 1) line
      else if c = '[' then
        scanCharAt sBuffer fuel (scanPlatform sBuffer i).2
          { line with platform := some (scanPlatform sBuffer i).1 }
      else scanCharAt sBuffer fuel i line := by
  have hc := charAt_of_drop hdrop
  rw [scanFrom, if_neg (Nat.not_le.mpr (lt_length_of_drop hdrop))]
  simp only [hc, if_neg hfirst]
  by_cases hsep : separator c
  · rw [if_pos hsep]
    have hsep' : c = ' ' ∨ c = '!' ∨ c = '\t' := hsep
    rw [if_pos hsep']
  · rw [if_neg hsep]
    have hsep' : ¬(c = ' ' ∨ c = '!' ∨ c = '\t') := hsep
    rw [if_neg hsep']
    by_cases hbracket : c = '['
    · simp only [if_pos hbracket]
      rfl
    · simp only [if_neg hbracket, hc]
      unfold scanCharAt
      simp only [hc]

theorem scanPlatform_eq {i : Nat} {b d : Char} {cs : Text}
    (hdrop : sBuffer.drop i = b :: d :: cs) (hzero : d ≠ '\x00') :
    scanPlatform sBuffer i =
      ((bracketAt (d :: cs)).1, i + 3 + (cs.takeWhile (· ≠ ']')).length) := by
  have hnext := drop_succ_of_drop hdrop
  have hname := drop_succ_of_drop hnext
  have hat := charAt_of_drop hnext
  unfold scanPlatform bracketAt
  simp only [hat, hname, List.tail_cons, List.head?_cons, Option.some.injEq, if_neg hzero]
  rfl

/-- What the scanner does in a round does not depend on the way it got there. -/
structure ScanInput (sBuffer : Text) : Prop where
  fits : sBuffer.length < LINE_BUFFER
  zero : '\x00' ∉ sBuffer
  newline : sBuffer.getLast? = some '\n'

theorem ScanInput.mem {i : Nat} {c : Char} {cs : Text}
    (hdrop : sBuffer.drop i = c :: cs) : c ∈ sBuffer := by
  apply List.mem_of_mem_drop (i := i)
  rw [hdrop]
  exact List.mem_cons_self

theorem ScanInput.ne_zero (h : ScanInput sBuffer) {i : Nat} {c : Char} {cs : Text}
    (hdrop : sBuffer.drop i = c :: cs) : c ≠ '\x00' :=
  fun hzero => h.zero (hzero ▸ ScanInput.mem hdrop)

/-- A bracket is not the last character. -/
theorem ScanInput.behind_bracket (h : ScanInput sBuffer) {i : Nat} {cs : Text}
    (hdrop : sBuffer.drop i = '[' :: cs) : ∃ d ds, cs = d :: ds := by
  cases cs with
  | cons d ds => exact ⟨d, ds, rfl⟩
  | nil =>
    have hlast : (sBuffer.drop i).getLast? = some '[' := by rw [hdrop]; rfl
    rw [List.getLast?_drop, if_neg (Nat.not_le.mpr (lt_length_of_drop hdrop)), h.newline] at hlast
    cases hlast

theorem scanCharAt_eq (h : ScanInput sBuffer) {fuel : Nat}
    (ih : ∀ (i : Nat) (line : Line), 0 < i → line.sCaseComment = [] →
      scanFrom sBuffer fuel i line = (scanRest fuel (sBuffer.drop i)).result sBuffer line)
    {i : Nat} {line : Line} (hle : i ≤ sBuffer.length) (hcomment : line.sCaseComment = [])
    (hhyphen : 0 < i ∨ sBuffer.head? ≠ some '-') :
    scanCharAt sBuffer fuel i line =
      (scanChar (scanRest fuel) (sBuffer.drop i)).result sBuffer line := by
  have hfits := h.fits
  unfold scanCharAt
  cases hdrop : sBuffer.drop i with
  | nil =>
    have hend : sBuffer.length ≤ i := List.drop_eq_nil_iff.mp hdrop
    have hafter : scanRest fuel (sBuffer.drop (i + 1)) = ⟨[], none, [], [], false⟩ := by
      rw [List.drop_eq_nil_of_le (by omega)]
      cases fuel <;> rfl
    rw [charAt_of_le hend]
    dsimp only
    rw [if_neg (by omega), if_neg (by decide), if_neg (by simp), if_pos rfl,
      ih (i + 1) line (Nat.succ_pos i) hcomment, hafter]
    rfl
  | cons c cs =>
    have hnext := drop_succ_of_drop hdrop
    have hhyphen' : ¬(c = '-' ∧ i = 0) := by
      rintro ⟨rfl, rfl⟩
      rcases hhyphen with hpos | hne
      · exact absurd hpos (lt_irrefl 0)
      · rw [List.drop_zero] at hdrop
        rw [hdrop] at hne
        exact hne rfl
    rw [charAt_of_drop hdrop]
    dsimp only
    rw [if_neg (by omega), scanChar]
    by_cases hsharp : c = '#'
    · rw [if_pos hsharp, if_pos hsharp]
      simp only [ScanEnd.result, Bool.false_eq_true, false_and, if_false, List.append_nil,
        Option.none_or]
    · rw [if_neg hsharp, if_neg hsharp]
      by_cases hline : c = '\n'
      · rw [if_pos (Or.inr hline), if_pos hline]
        exact (ScanEnd.result_nil sBuffer _ hcomment).symm
      · rw [if_neg (by rintro (h1 | h2); exacts [hhyphen' h1, hline h2]), if_neg hline,
          if_neg (h.ne_zero hdrop), ih (i + 1) _ (Nat.succ_pos i) (by exact hcomment), hnext]
        simp only [ScanEnd.result, ScanEnd.record, List.append_assoc, List.singleton_append]
        rfl

theorem scanRest_nil (fuel : Nat) : scanRest fuel [] = ⟨[], none, [], [], false⟩ := by
  cases fuel <;> rfl

/-- Behind the platform of a bracket, which may reach to the end of the line. -/
theorem scanBracket_eq (h : ScanInput sBuffer) {fuel : Nat}
    (ih : ∀ (i : Nat) (line : Line), 0 < i → line.sCaseComment = [] →
      scanFrom sBuffer fuel i line = (scanRest fuel (sBuffer.drop i)).result sBuffer line)
    {i : Nat} {d : Char} {ds : Text} {line : Line} (hcomment : line.sCaseComment = [])
    (hdrop : sBuffer.drop i = '[' :: d :: ds) :
    scanCharAt sBuffer fuel (i + 3 + (ds.takeWhile (· ≠ ']')).length)
        { line with platform := some (bracketAt (d :: ds)).1 } =
      (if (d :: ds).tail.any (· = ']') then
        ((scanChar (scanRest fuel) (bracketAt (d :: ds)).2).withPlatform
          (bracketAt (d :: ds)).1).skip
            ('[' :: (d :: ds).take ((d :: ds).length - (bracketAt (d :: ds)).2.length))
      else ⟨[], some (bracketAt (d :: ds)).1, [], '[' :: d :: ds, true⟩).result sBuffer line := by
  have hfits := h.fits
  have hlen : sBuffer.length = i + 2 + ds.length := by
    have hlength := congrArg List.length hdrop
    have hlt := lt_length_of_drop hdrop
    rw [List.length_drop, List.length_cons, List.length_cons] at hlength
    omega
  have hinner := drop_succ_of_drop (drop_succ_of_drop hdrop)
  by_cases hclosed : (d :: ds).tail.any (· = ']') = true
  · have hlt : (ds.takeWhile (· ≠ ']')).length < ds.length := by
      by_contra hge
      have hall : ds.takeWhile (· ≠ ']') = ds :=
        (List.takeWhile_prefix _).eq_of_length_le (Nat.not_lt.mp hge)
      obtain ⟨c, hc, heq⟩ := List.any_eq_true.mp hclosed
      have hne := List.takeWhile_eq_self_iff.mp hall c hc
      exact of_decide_eq_true hne (of_decide_eq_true heq)
    have hrest : sBuffer.drop (i + 3 + (ds.takeWhile (· ≠ ']')).length) =
        (bracketAt (d :: ds)).2 := by
      show _ = ds.drop ((ds.takeWhile (· ≠ ']')).length + 1)
      rw [← hinner, List.drop_drop]
      congr 1
      omega
    rw [if_pos hclosed, scanCharAt_eq h ih (by omega) (by exact hcomment) (Or.inl (by omega)),
      hrest]
    unfold ScanEnd.result ScanEnd.skip ScanEnd.withPlatform
    dsimp only
    cases (scanChar (scanRest fuel) (bracketAt (d :: ds)).2).platform <;> rfl
  · have hall : ds.takeWhile (· ≠ ']') = ds := by
      refine List.takeWhile_eq_self_iff.mpr fun c hc => decide_eq_true fun heq => ?_
      exact hclosed (List.any_eq_true.mpr ⟨c, hc, decide_eq_true heq⟩)
    have hend : i + 3 + (ds.takeWhile (· ≠ ']')).length = sBuffer.length + 1 := by
      rw [hall]
      omega
    rw [if_neg hclosed, hend]
    unfold scanCharAt ScanEnd.result
    rw [charAt_of_le (Nat.le_succ _)]
    by_cases hover : LINE_BUFFER ≤ sBuffer.length + 1
    · dsimp only
      rw [if_pos hover, if_pos ⟨rfl, hover⟩]
    · dsimp only
      rw [if_neg hover, if_neg (by decide), if_neg (by simp), if_pos rfl,
        ih _ _ (Nat.succ_pos _) (by exact hcomment), List.drop_eq_nil_of_le (by omega),
        scanRest_nil, ScanEnd.result_nil _ _ (by exact hcomment), if_neg (fun hboth => hover hboth.2),
        List.append_nil]
      cases line
      cases hcomment
      rfl

/-- The scanner of the model, by what is left of the line. -/
theorem scanFrom_eq (h : ScanInput sBuffer) (fuel i : Nat) (line : Line)
    (hfirst : 0 < i ∨ sBuffer.head? ≠ some '#' ∧ sBuffer.head? ≠ some '-')
    (hcomment : line.sCaseComment = []) :
    scanFrom sBuffer fuel i line = (scanRest fuel (sBuffer.drop i)).result sBuffer line := by
  induction fuel generalizing i line with
  | zero => exact (ScanEnd.result_nil sBuffer _ hcomment).symm
  | succ fuel ih =>
    have hlater (j : Nat) (l : Line) (hj : 0 < j) (hl : l.sCaseComment = []) :=
      ih j l (Or.inl hj) hl
    cases hdrop : sBuffer.drop i with
    | nil =>
      rw [scanFrom, if_pos (List.drop_eq_nil_iff.mp hdrop), scanRest]
      exact (ScanEnd.result_nil sBuffer _ hcomment).symm
    | cons c cs =>
      have hnext := drop_succ_of_drop hdrop
      have hsharp : ¬(c = '#' ∧ i = 0) := by
        rintro ⟨rfl, rfl⟩
        rcases hfirst with hpos | hne
        · exact absurd hpos (lt_irrefl 0)
        · rw [List.drop_zero] at hdrop
          rw [hdrop] at hne
          exact hne.1 rfl
      rw [scanFrom_succ hdrop hsharp, scanRest]
      by_cases hsep : separator c
      · rw [if_pos hsep, if_pos hsep, hlater _ _ (Nat.succ_pos i) hcomment, hnext]
        rfl
      · rw [if_neg hsep, if_neg hsep]
        by_cases hbracket : c = '['
        · subst hbracket
          obtain ⟨d, ds, rfl⟩ := h.behind_bracket hdrop
          have hinner := drop_succ_of_drop hnext
          rw [if_pos rfl, if_pos rfl, scanPlatform_eq hdrop (h.ne_zero hnext)]
          exact scanBracket_eq h hlater hcomment hdrop
        · rw [if_neg hbracket, if_neg hbracket, ← hdrop]
          exact scanCharAt_eq h hlater (lt_length_of_drop hdrop).le hcomment
            (hfirst.imp_right And.right)

end Scan

/-! ## What is recorded and what is skipped -/

section Count

theorem bracketAt_suffix (cs : Text) : (bracketAt cs).2 <:+ cs :=
  (List.drop_suffix _ _).trans (List.tail_suffix cs)

/-- An opening bracket is recorded, or left out. -/
theorem count_scanChar {rest : Text → ScanEnd}
    (h : ∀ cs, (rest cs).sLine.count '[' + (rest cs).sCaseComment.count '[' +
      (rest cs).skipped.count '[' = cs.count '[') (cs : Text) :
    (scanChar rest cs).sLine.count '[' + (scanChar rest cs).sCaseComment.count '[' +
      (scanChar rest cs).skipped.count '[' = cs.count '[' := by
  cases cs with
  | nil => rfl
  | cons c cs =>
    rw [scanChar]
    by_cases hsharp : c = '#'
    · rw [if_pos hsharp]
      dsimp only
      rw [List.count_nil, Nat.zero_add, ← List.count_append, List.takeWhile_append_dropWhile]
    · rw [if_neg hsharp]
      by_cases hline : c = '\n'
      · rw [if_pos hline]
        show [].count '[' + [].count '[' + (c :: cs).count '[' = _
        simp only [List.count_nil, Nat.zero_add]
      · rw [if_neg hline]
        have hrest := h cs
        simp only [ScanEnd.record, List.count_cons]
        omega

theorem count_scanRest (fuel : Nat) (cs : Text) :
    (scanRest fuel cs).sLine.count '[' + (scanRest fuel cs).sCaseComment.count '[' +
      (scanRest fuel cs).skipped.count '[' = cs.count '[' := by
  induction fuel generalizing cs with
  | zero =>
    simp only [scanRest, List.count_nil]
    omega
  | succ fuel ih =>
    cases cs with
    | nil => rfl
    | cons c cs =>
      rw [scanRest]
      by_cases hsep : separator c
      · rw [if_pos hsep]
        have hrest := ih cs
        simp only [ScanEnd.skip, List.count_append, List.count_cons, List.count_nil]
        omega
      · rw [if_neg hsep]
        by_cases hbracket : c = '['
        · rw [if_pos hbracket]
          subst hbracket
          by_cases hclosed : cs.tail.any (· = ']') = true
          · rw [if_pos hclosed]
            have hrest := count_scanChar ih (bracketAt cs).2
            have hcut : cs.count '[' = (cs.take (cs.length - (bracketAt cs).2.length)).count '[' +
                (bracketAt cs).2.count '[' := by
              conv_lhs => rw [← List.take_append_drop (cs.length - (bracketAt cs).2.length) cs]
              rw [List.count_append, ← List.suffix_iff_eq_drop.mp (bracketAt_suffix cs)]
            simp only [ScanEnd.skip, ScanEnd.withPlatform, List.count_append, List.count_cons]
            omega
          · rw [if_neg hclosed]
            simp only [List.count_nil]
            omega
        · rw [if_neg hbracket]
          exact count_scanChar ih (c :: cs)

/-- When no bracket is left out, no platform is read, and neither separators nor brackets are
recorded. -/
theorem scanRest_unskipped {fuel : Nat} {cs : Text}
    (h : (scanRest fuel cs).skipped.count '[' = 0) :
    (scanRest fuel cs).platform = none ∧ (scanRest fuel cs).unclosed = false ∧
      ∀ c ∈ (scanRest fuel cs).sLine, ¬separator c ∧ c ≠ '[' := by
  induction fuel generalizing cs with
  | zero => exact ⟨rfl, rfl, fun c hc => absurd hc List.not_mem_nil⟩
  | succ fuel ih =>
    cases cs with
    | nil => exact ⟨rfl, rfl, fun c hc => absurd hc List.not_mem_nil⟩
    | cons c cs =>
      rw [scanRest] at h ⊢
      by_cases hsep : separator c
      · rw [if_pos hsep] at h ⊢
        simp only [ScanEnd.skip, List.count_append] at h
        exact ih (by omega)
      · rw [if_neg hsep] at h ⊢
        by_cases hbracket : c = '['
        · rw [if_pos hbracket] at h
          subst hbracket
          by_cases hclosed : cs.tail.any (· = ']') = true
          · rw [if_pos hclosed] at h
            simp [ScanEnd.skip] at h
          · rw [if_neg hclosed] at h
            simp at h
        · rw [if_neg hbracket] at h ⊢
          rw [scanChar] at h ⊢
          by_cases hsharp : c = '#'
          · rw [if_pos hsharp]
            exact ⟨rfl, rfl, fun d hd => absurd hd List.not_mem_nil⟩
          · rw [if_neg hsharp] at h ⊢
            by_cases hline : c = '\n'
            · rw [if_pos hline]
              exact ⟨rfl, rfl, fun d hd => absurd hd List.not_mem_nil⟩
            · rw [if_neg hline] at h ⊢
              obtain ⟨hplatform, hunclosed, hline⟩ := ih h
              refine ⟨hplatform, hunclosed, fun d hd => ?_⟩
              rcases List.mem_cons.mp hd with rfl | hd
              · exact ⟨hsep, hbracket⟩
              · exact hline d hd

end Count

/-! ## The scanner on the parts of a line -/

section Parts

theorem scanRest_separators {s : Text} (h : ∀ c ∈ s, separator c) (fuel : Nat) (cs : Text) :
    scanRest (fuel + s.length) (s ++ cs) = (scanRest fuel cs).skip s := by
  induction s with
  | nil => rfl
  | cons c s ih =>
    rw [List.length_cons, ← Nat.add_assoc, List.cons_append, scanRest,
      if_pos (h c List.mem_cons_self), ih fun d hd => h d (List.mem_cons_of_mem _ hd)]
    rfl

theorem scanRest_name {s : Text} (h : ∀ c ∈ s, ¬separator c ∧ c ≠ '[' ∧ c ≠ '#' ∧ c ≠ '\n')
    (fuel : Nat) (cs : Text) :
    scanRest (fuel + s.length) (s ++ cs) =
      { scanRest fuel cs with sLine := s ++ (scanRest fuel cs).sLine } := by
  induction s with
  | nil => rfl
  | cons c s ih =>
    obtain ⟨hsep, hbracket, hsharp, hline⟩ := h c List.mem_cons_self
    rw [List.length_cons, ← Nat.add_assoc, List.cons_append, scanRest, if_neg hsep,
      if_neg hbracket, scanChar, if_neg hsharp, if_neg hline,
      ih fun d hd => h d (List.mem_cons_of_mem _ hd)]
    rfl

/-- The comment and the end of the line. -/
theorem scanRest_comment (l : SuiteLine) (fuel : Nat) :
    scanRest (fuel + 1) (l.commentText ++ ['\n']) =
      ⟨[], none, l.commentText, ['\n'], false⟩ := by
  unfold SuiteLine.commentText
  cases hcomment : l.comment with
  | none =>
    show scanRest (fuel + 1) ['\n'] = _
    rw [scanRest, if_neg (by decide), if_neg (by decide), scanChar, if_neg (by decide), if_pos rfl]
  | some comment =>
    have hclean : ∀ c ∈ '#' :: comment.text, decide (c ≠ '\n') = true := by
      intro c hc
      rcases List.mem_cons.mp hc with rfl | hc
      · decide
      · exact decide_eq_true (comment.clean c hc).1
    have htake : ('#' :: (comment.text ++ ['\n'])).takeWhile (· ≠ '\n') = '#' :: comment.text := by
      rw [← List.cons_append, List.takeWhile_append_of_pos hclean,
        List.takeWhile_cons_of_neg (by simp), List.append_nil]
    have hdrop : ('#' :: (comment.text ++ ['\n'])).dropWhile (· ≠ '\n') = ['\n'] := by
      rw [← List.cons_append, List.dropWhile_append_of_pos hclean,
        List.dropWhile_cons_of_neg (by simp)]
    dsimp only
    rw [List.cons_append, scanRest, if_neg (by decide), if_neg (by decide), scanChar, if_pos rfl,
      htake, hdrop]

/-- The bracket, with what stands between its two characters. -/
theorem bracketAt_inside (b : Bracket) (cs : Text) :
    bracketAt (b.inside ++ ']' :: cs) =
      ((if b.inside.head? = some '^' then b.inside.tail else b.inside,
        if b.inside.head? = some '^' then PLAT_ON else PLAT_OFF), cs) ∧
      (b.inside ++ ']' :: cs).tail.any (· = ']') = true := by
  have hclean : ∀ c ∈ b.inside, c ≠ ']' := by
    intro c hc
    have hsep : ∀ s : Separators, c ∈ s.text → c ≠ ']' := by
      rintro s hs rfl
      exact absurd (s.only _ hs) (by decide)
    unfold Bracket.inside at hc
    simp only [List.mem_append] at hc
    rcases hc with (((hc | hc) | hc) | hc) | hc
    · exact hsep _ hc
    · cases hneg : b.negated with
      | true =>
        rw [hneg] at hc
        rw [List.mem_singleton.mp hc]
        decide
      | false =>
        rw [hneg] at hc
        cases hc
    · exact hsep _ hc
    · exact (b.platform.clean c hc).1
    · exact hsep _ hc
  have hne : b.inside ≠ [] := by
    unfold Bracket.inside
    intro hnil
    simp only [List.append_eq_nil_iff] at hnil
    exact b.platform.ne hnil.1.2
  obtain ⟨d, ds, hinside⟩ := List.exists_cons_of_ne_nil hne
  rw [hinside] at hclean ⊢
  have hname : (ds ++ ']' :: cs).takeWhile (· ≠ ']') = ds := by
    rw [List.takeWhile_append_of_pos
      (fun c hc => decide_eq_true (hclean c (List.mem_cons_of_mem _ hc))),
      List.takeWhile_cons_of_neg (by simp), List.append_nil]
  have hrest : (ds ++ ']' :: cs).drop (ds.length + 1) = cs := by
    rw [← List.drop_drop, List.drop_left]
    rfl
  constructor
  · unfold bracketAt
    simp only [List.cons_append, List.tail_cons, List.head?_cons, hname, hrest,
      List.take_succ_cons, List.take_zero, List.nil_append]
    rfl
  · rw [List.cons_append, List.tail_cons, List.any_append, List.any_cons]
    simp

end Parts

section Line

variable {l : SuiteLine}

/-- The line behind its sign, with its newline. -/
def SuiteLine.rest (l : SuiteLine) : Text :=
  l.lead.text ++ ((l.bracket.map Bracket.text).getD [] ++ (l.behindBracket.text ++
    (l.name.text ++ (l.trail.text ++ (l.commentText ++ ['\n'])))))

theorem SuiteLine.text_newline (l : SuiteLine) :
    l.text ++ ['\n'] = (if l.disabled then ['#'] else []) ++ l.rest := by
  simp only [SuiteLine.text, SuiteLine.tailText, SuiteLine.rest, List.append_assoc]

theorem Separators.ne {s : Separators} {c d : Char} (hc : c ∈ s.text) (hd : ¬separator d) :
    c ≠ d := by
  rintro rfl
  exact hd (s.only _ hc)

/-- The characters of a line are neither zero bytes nor newlines. -/
theorem SuiteLine.clean (l : SuiteLine) : ∀ c ∈ l.text, c ≠ '\n' ∧ c ≠ '\x00' := by
  have hsep : ∀ (s : Separators) (c : Char), c ∈ s.text → c ≠ '\n' ∧ c ≠ '\x00' :=
    fun s c hc => ⟨Separators.ne hc (by decide), Separators.ne hc (by decide)⟩
  have hcomment : ∀ c ∈ l.commentText, c ≠ '\n' ∧ c ≠ '\x00' := by
    intro c hc
    unfold SuiteLine.commentText at hc
    cases h : l.comment with
    | none =>
      rw [h] at hc
      cases hc
    | some comment =>
      rw [h] at hc
      rcases List.mem_cons.mp hc with rfl | hc
      · decide
      · exact comment.clean c hc
  have hbracket : ∀ c ∈ (l.bracket.map Bracket.text).getD [], c ≠ '\n' ∧ c ≠ '\x00' := by
    intro c hc
    cases h : l.bracket with
    | none =>
      rw [h] at hc
      cases hc
    | some b =>
      rw [h] at hc
      change c ∈ b.text at hc
      unfold Bracket.text Bracket.inside at hc
      simp only [List.mem_append, List.mem_cons, List.not_mem_nil, or_false] at hc
      rcases hc with (rfl | ((((hc | hc) | hc) | hc) | hc)) | rfl
      · decide
      · exact hsep _ c hc
      · cases hneg : b.negated with
        | true =>
          rw [hneg] at hc
          rw [List.mem_singleton.mp hc]
          decide
        | false =>
          rw [hneg] at hc
          cases hc
      · exact hsep _ c hc
      · exact (b.platform.clean c hc).2
      · exact hsep _ c hc
      · decide
  intro c hc
  unfold SuiteLine.text SuiteLine.tailText at hc
  simp only [List.mem_append] at hc
  rcases hc with (hc | hc) | hc | hc | (hc | hc) | hc
  · cases hdisabled : l.disabled with
    | true =>
      rw [hdisabled] at hc
      rw [List.mem_singleton.mp hc]
      decide
    | false =>
      rw [hdisabled] at hc
      cases hc
  · exact hsep _ c hc
  · exact hbracket c hc
  · exact hsep _ c hc
  · exact (l.name.clean c hc).2
  · exact hsep _ c hc
  · exact hcomment c hc

theorem SuiteLine.scanInput (hfits : l.text.length < LINE_BUFFER - 1) :
    ScanInput (l.text ++ ['\n']) where
  fits := by
    rw [List.length_append]
    show l.text.length + 1 < LINE_BUFFER
    omega
  zero h := by
    rcases List.mem_append.mp h with h | h
    · exact (l.clean _ h).2 rfl
    · exact absurd h (by decide)
  newline := List.getLast?_concat

/-- The rest of a line does not begin with a number sign. -/
theorem SuiteLine.rest_head (l : SuiteLine) : ∃ c cs, l.rest = c :: cs ∧ c ≠ '#' := by
  unfold SuiteLine.rest
  cases hlead : l.lead.text with
  | cons c cs =>
    exact ⟨c, _, rfl, Separators.ne (hlead ▸ List.mem_cons_self) (by decide)⟩
  | nil =>
    rw [List.nil_append]
    cases hbracket : l.bracket with
    | some b => exact ⟨'[', _, rfl, by decide⟩
    | none =>
      show ∃ c cs, l.behindBracket.text ++ _ = _ ∧ _
      cases hbehind : l.behindBracket.text with
      | cons c cs => exact ⟨c, _, rfl, Separators.ne (hbehind ▸ List.mem_cons_self) (by decide)⟩
      | nil =>
        obtain ⟨c, cs, hname⟩ := List.exists_cons_of_ne_nil l.name.ne
        rw [hname]
        exact ⟨c, _, rfl, (l.name.clean c (hname ▸ List.mem_cons_self)).1⟩

/-- A number sign at the beginning disables the case, and the round goes on behind it. -/
theorem scanFrom_sign (fuel : Nat) (c : Char) (cs : Text) (line : Line) :
    scanFrom ('#' :: c :: cs) (fuel + 1) 0 line =
      scanFrom ('#' :: c :: cs) (fuel + 1) 1 { line with disabled := true } := by
  have hat : charAt ('#' :: c :: cs) 0 = '#' := rfl
  have hzero : ¬('#' :: c :: cs).length ≤ 0 := by simp
  have hone : ¬('#' :: c :: cs).length ≤ 1 := by simp
  simp only [scanFrom, if_neg hzero, if_neg hone, hat, and_self, if_true, Nat.one_ne_zero,
    and_false, if_false]

/-- The scan of a line that does not begin with a hyphen, by the scanner on its rest. -/
theorem scanLine_eq (hfits : l.text.length < LINE_BUFFER - 1) (hhyphen : l.text.head? ≠ some '-') :
    scanLine (l.text ++ ['\n']) =
      (scanRest (l.text.length + 1) l.rest).result (l.text ++ ['\n'])
        ⟨l.disabled, [], none, []⟩ := by
  have hinput := SuiteLine.scanInput hfits
  have hlen : (l.text ++ ['\n']).length = l.text.length + 1 := by rw [List.length_append]; rfl
  obtain ⟨c, cs, hrest, hsharp⟩ := l.rest_head
  have htext := l.text_newline
  unfold scanLine
  rw [hlen]
  cases hdisabled : l.disabled with
  | true =>
    rw [hdisabled, if_pos rfl, List.singleton_append] at htext
    have hone : scanFrom (l.text ++ ['\n']) (l.text.length + 1) 0 ⟨false, [], none, []⟩ =
        scanFrom (l.text ++ ['\n']) (l.text.length + 1) 1 ⟨true, [], none, []⟩ := by
      rw [htext, hrest]
      exact scanFrom_sign _ c cs _
    rw [hone, scanFrom_eq hinput _ _ _ (Or.inl Nat.zero_lt_one) rfl, htext]
    rfl
  | false =>
    rw [hdisabled, if_neg Bool.false_ne_true, List.nil_append] at htext
    have hhead : (l.text ++ ['\n']).head? ≠ some '#' ∧ (l.text ++ ['\n']).head? ≠ some '-' := by
      constructor
      · rw [htext, hrest]
        exact fun h => hsharp (Option.some.inj h)
      · cases hcs : l.text with
        | nil => decide
        | cons d ds =>
          rw [hcs] at hhyphen
          exact hhyphen
    rw [scanFrom_eq hinput _ _ _ (Or.inr hhead) rfl, List.drop_zero, htext]

theorem fileLines_pieces (l : SuiteLine) :
    fileLines (l.text ++ ['\n']) = pieces (LINE_BUFFER - 1) (l.text ++ ['\n']) := by
  have hzero : '\x00' ∉ l.text ++ ['\n'] := by
    intro h
    rcases List.mem_append.mp h with h | h
    · exact (l.clean _ h).2 rfl
    · exact absurd h (by decide)
  have hflat := flatten_pieces (LINE_BUFFER - 1) (l.text ++ ['\n'])
  have hid : (pieces (LINE_BUFFER - 1) (l.text ++ ['\n'])).map (·.takeWhile (· ≠ '\x00')) =
      pieces (LINE_BUFFER - 1) (l.text ++ ['\n']) := by
    refine (List.map_congr_left fun p hp => ?_).trans (List.map_id _)
    refine List.takeWhile_eq_self_iff.mpr fun c hc => decide_eq_true fun hc0 => hzero ?_
    rw [← hflat]
    exact hc0 ▸ List.mem_flatten_of_mem hp hc
  unfold fileLines
  rw [hid]
  exact List.takeWhile_eq_self_iff.mpr fun p hp =>
    decide_eq_true (fits_of_mem_pieces (by decide) hp).1

/-- A line that fits the buffer is read in one piece. -/
theorem fileLines_fits (hfits : l.text.length < LINE_BUFFER - 1) :
    fileLines (l.text ++ ['\n']) = [l.text ++ ['\n']] := by
  have hline : '\n' ∉ l.text := fun h => (l.clean _ h).1 rfl
  have hwhole : wholeLines (l.text ++ ['\n']) = [l.text ++ ['\n']] := wholeLines_line hline []
  rw [fileLines_pieces, pieces_of_fit, hwhole]
  intro line hmem
  rw [hwhole, List.mem_singleton] at hmem
  rw [hmem, List.length_append]
  exact hfits

theorem fits_of_single (h : (fileLines (l.text ++ ['\n'])).length = 1) :
    l.text.length < LINE_BUFFER - 1 := by
  obtain ⟨p, hp⟩ := List.length_eq_one_iff.mp h
  rw [fileLines_pieces] at hp
  have hflat := flatten_pieces (LINE_BUFFER - 1) (l.text ++ ['\n'])
  have hmem : p ∈ pieces (LINE_BUFFER - 1) (l.text ++ ['\n']) := hp ▸ List.mem_singleton_self p
  have hfit := (fits_of_mem_pieces (by decide) hmem).2
  rw [hp, List.flatten_singleton] at hflat
  rw [hflat, List.length_append] at hfit
  exact hfit

/-- A line that fits and does not begin with a hyphen is decoded exactly if the scanner makes its
parts of its rest. -/
theorem decoded_iff_scan (hfits : l.text.length < LINE_BUFFER - 1)
    (hhyphen : l.text.head? ≠ some '-') :
    Decoded l ↔ (scanRest (l.text.length + 1) l.rest).result (l.text ++ ['\n'])
      ⟨l.disabled, [], none, []⟩ = some l.denoted := by
  unfold Decoded
  rw [fileLines_fits hfits, List.map_singleton, scanLine_eq hfits hhyphen, List.singleton_inj]

/-- The name, what stands behind it, and the newline. -/
def SuiteLine.tailLine (l : SuiteLine) : Text :=
  l.name.text ++ (l.trail.text ++ (l.commentText ++ ['\n']))

theorem SuiteLine.length_text (l : SuiteLine) :
    l.text.length + 1 = (if l.disabled then 1 else 0) + (l.lead.text.length +
      (((l.bracket.map Bracket.text).getD []).length + (l.behindBracket.text.length +
        l.tailLine.length))) := by
  simp only [SuiteLine.text, SuiteLine.tailText, SuiteLine.tailLine, List.length_append,
    List.length_singleton]
  cases l.disabled with
  | true => simp only [if_true, List.length_singleton]; omega
  | false => simp only [Bool.false_eq_true, if_false, List.length_nil]; omega

theorem scan_unbracketed (hb : l.bracket = none) :
    ∃ fuel, l.tailLine.length ≤ fuel ∧ scanRest (l.text.length + 1) l.rest =
      ((scanRest fuel l.tailLine).skip l.behindBracket.text).skip l.lead.text := by
  have hlen := l.length_text
  rw [hb] at hlen
  have hrest : l.rest = l.lead.text ++ (l.behindBracket.text ++ l.tailLine) := by
    unfold SuiteLine.rest SuiteLine.tailLine
    rw [hb]
    rfl
  refine ⟨(if l.disabled then 1 else 0) + l.tailLine.length, by omega, ?_⟩
  have hfuel : l.text.length + 1 = (if l.disabled then 1 else 0) + l.tailLine.length +
      l.behindBracket.text.length + l.lead.text.length := by
    rw [hlen]
    show _ + (_ + (0 + _)) = _
    omega
  rw [hfuel, hrest, scanRest_separators l.lead.only, scanRest_separators l.behindBracket.only]

theorem scan_bracketed {b : Bracket} (hb : l.bracket = some b) :
    ∃ fuel, l.behindBracket.text.length + l.tailLine.length ≤ fuel ∧ ∃ skipped,
      scanRest (l.text.length + 1) l.rest =
        (((scanChar (scanRest fuel) (l.behindBracket.text ++ l.tailLine)).withPlatform
          (bracketAt (b.inside ++ ']' :: (l.behindBracket.text ++ l.tailLine))).1).skip skipped).skip
            l.lead.text := by
  have hlen := l.length_text
  rw [hb] at hlen
  have hrest : l.rest = l.lead.text ++
      '[' :: (b.inside ++ ']' :: (l.behindBracket.text ++ l.tailLine)) := by
    unfold SuiteLine.rest SuiteLine.tailLine
    rw [hb]
    show l.lead.text ++ ('[' :: b.inside ++ [']'] ++ _) = _
    simp only [List.cons_append, List.append_assoc, List.nil_append]
  obtain ⟨hat, hclosed⟩ := bracketAt_inside b (l.behindBracket.text ++ l.tailLine)
  refine ⟨(if l.disabled then 1 else 0) + (b.inside.length + 1) +
    (l.behindBracket.text.length + l.tailLine.length), by omega, ?_⟩
  have hfuel : l.text.length + 1 = (if l.disabled then 1 else 0) + (b.inside.length + 1) +
      (l.behindBracket.text.length + l.tailLine.length) + 1 + l.lead.text.length := by
    rw [hlen]
    show _ + (_ + (('[' :: b.inside ++ [']']).length + _)) = _
    rw [List.length_append, List.length_cons, List.length_singleton]
    omega
  rw [hfuel, hrest, scanRest_separators l.lead.only, scanRest, if_neg (by decide), if_pos rfl,
    if_pos hclosed, congrArg Prod.snd hat]
  exact ⟨_, rfl⟩

/-- The scanner on a name without separators and brackets, and what stands behind it. -/
theorem scanRest_tail {name : Text}
    (hname : ∀ c ∈ name, ¬separator c ∧ c ≠ '[' ∧ c ≠ '#' ∧ c ≠ '\n') {fuel : Nat}
    (hfuel : name.length + (l.trail.text.length + 1) ≤ fuel) :
    scanRest fuel (name ++ (l.trail.text ++ (l.commentText ++ ['\n']))) =
      ⟨name, none, l.commentText, l.trail.text ++ ['\n'], false⟩ := by
  obtain ⟨n, rfl⟩ : ∃ n, fuel = n + 1 + l.trail.text.length + name.length :=
    ⟨fuel - (1 + l.trail.text.length + name.length), by omega⟩
  rw [scanRest_name hname, scanRest_separators l.trail.only, scanRest_comment]
  unfold ScanEnd.skip
  rw [List.append_nil]

theorem eq_of_result {e : ScanEnd} {sBuffer : Text} {disabled : Bool} {line : Line}
    (h : e.result sBuffer ⟨disabled, [], none, []⟩ = some line) :
    line = ⟨disabled, e.sLine, e.platform, e.sCaseComment⟩ := by
  unfold ScanEnd.result at h
  by_cases hover : e.unclosed = true ∧ LINE_BUFFER ≤ sBuffer.length + 1
  · rw [if_pos hover] at h
    cases h
  · rw [if_neg hover] at h
    cases h
    rw [List.nil_append, Option.or_none]

theorem result_of_closed {e : ScanEnd} (h : e.unclosed = false) (sBuffer : Text)
    (disabled : Bool) : e.result sBuffer ⟨disabled, [], none, []⟩ =
      some ⟨disabled, e.sLine, e.platform, e.sCaseComment⟩ := by
  unfold ScanEnd.result
  rw [h, if_neg (fun hover => Bool.false_ne_true hover.1), List.nil_append, Option.or_none]

theorem Separators.count_bracket (s : Separators) : s.text.count '[' = 0 :=
  List.count_eq_zero.mpr fun h => absurd (s.only _ h) (by decide)

theorem result_skip (e : ScanEnd) (skipped sBuffer : Text) (line : Line) :
    (e.skip skipped).result sBuffer line = e.result sBuffer line := rfl

theorem SuiteLine.count_tailLine (l : SuiteLine) :
    l.tailLine.count '[' = l.name.text.count '[' + l.commentText.count '[' := by
  have hnewline : List.count '[' ['\n'] = 0 := by decide
  simp only [SuiteLine.tailLine, List.count_append, l.trail.count_bracket, hnewline]
  omega

theorem SuiteLine.length_tailLine (l : SuiteLine) :
    l.name.text.length + (l.trail.text.length + 1) ≤ l.tailLine.length := by
  simp only [SuiteLine.tailLine, List.length_append, List.length_singleton]
  omega

section Unbracketed

variable (hfits : l.text.length < LINE_BUFFER - 1) (hhyphen : l.text.head? ≠ some '-')
  (hb : l.bracket = none)

include hfits hhyphen hb

theorem decoded_unbracketed
    (hname : ∀ c ∈ l.name.text, ¬separator c ∧ c ≠ '[') : Decoded l := by
  obtain ⟨fuel, hfuel, hscan⟩ := scan_unbracketed hb
  have hclean : ∀ c ∈ l.name.text, ¬separator c ∧ c ≠ '[' ∧ c ≠ '#' ∧ c ≠ '\n' := by
    intro c hc
    obtain ⟨hsep, hbracket⟩ := hname c hc
    obtain ⟨hsharp, hline, _⟩ := l.name.clean c hc
    exact ⟨hsep, hbracket, hsharp, hline⟩
  have htail := scanRest_tail (l := l) hclean (l.length_tailLine.trans hfuel)
  rw [decoded_iff_scan hfits hhyphen, hscan, result_skip, result_skip, SuiteLine.tailLine, htail,
    result_of_closed rfl]
  unfold SuiteLine.denoted
  rw [hb]
  rfl

theorem name_unbracketed (h : Decoded l) : ∀ c ∈ l.name.text, ¬separator c ∧ c ≠ '[' := by
  obtain ⟨fuel, _, hscan⟩ := scan_unbracketed hb
  rw [decoded_iff_scan hfits hhyphen, hscan, result_skip, result_skip] at h
  have heq := eq_of_result h
  have hsLine : l.name.text = (scanRest fuel l.tailLine).sLine := congrArg Line.sLine heq
  have hcomment : l.commentText = (scanRest fuel l.tailLine).sCaseComment :=
    congrArg Line.sCaseComment heq
  have hcount := count_scanRest fuel l.tailLine
  rw [l.count_tailLine, ← hsLine, ← hcomment] at hcount
  rw [hsLine]
  exact (scanRest_unskipped (by omega)).2.2

end Unbracketed

section Bracketed

variable {b : Bracket}

/-- The bracket is read as it is meant exactly if there are no separators in it. -/
theorem bracketAt_denoted_iff (b : Bracket) (cs : Text) :
    (bracketAt (b.inside ++ ']' :: cs)).1 = b.denoted ↔
      b.beforeSign.text = [] ∧ b.behindSign.text = [] ∧ b.beforeClose.text = [] := by
  rw [congrArg Prod.fst (bracketAt_inside b cs).1]
  have hlen : b.inside.length = b.beforeSign.text.length + (if b.negated then 1 else 0) +
      b.behindSign.text.length + b.platform.text.length + b.beforeClose.text.length := by
    unfold Bracket.inside
    simp only [List.length_append]
    cases b.negated <;> rfl
  constructor
  · intro h
    have hplatform := congrArg Prod.fst h
    have hflag := congrArg Prod.snd h
    simp only [Bracket.denoted] at hplatform hflag
    have hshort : b.beforeSign.text.length + b.behindSign.text.length +
        b.beforeClose.text.length = 0 := by
      cases hneg : b.negated with
      | true =>
        rw [hneg] at hflag hlen
        have hhead : b.inside.head? = some '^' := by
          by_contra hne
          rw [if_neg hne] at hflag
          exact absurd hflag (by decide)
        rw [if_pos hhead] at hplatform
        have htail := congrArg List.length hplatform
        rw [List.length_tail, hlen, if_pos rfl] at htail
        omega
      | false =>
        rw [hneg] at hflag hlen
        have hhead : ¬b.inside.head? = some '^' := by
          intro heq
          rw [if_pos heq] at hflag
          exact absurd hflag (by decide)
        rw [if_neg hhead] at hplatform
        have hall := congrArg List.length hplatform
        rw [hlen, if_neg Bool.false_ne_true] at hall
        omega
    refine ⟨?_, ?_, ?_⟩
    · exact List.length_eq_zero_iff.mp (by omega)
    · exact List.length_eq_zero_iff.mp (by omega)
    · exact List.length_eq_zero_iff.mp (by omega)
  · rintro ⟨hbefore, hbehind, hclose⟩
    have hinside : b.inside = (if b.negated then ['^'] else []) ++ b.platform.text := by
      unfold Bracket.inside
      rw [hbefore, hbehind, hclose, List.nil_append, List.append_nil, List.append_nil]
    rw [hinside]
    cases hneg : b.negated with
    | true =>
      simp [Bracket.denoted, hneg]
    | false =>
      have hhead := b.unsigned hneg
      simp [Bracket.denoted, hneg, hhead]

variable (hfits : l.text.length < LINE_BUFFER - 1) (hhyphen : l.text.head? ≠ some '-')
  (hb : l.bracket = some b)

include hfits hhyphen hb

theorem decoded_bracketed (htight : l.TightBracket)
    (hname : ∀ c ∈ l.name.text.tail, ¬separator c ∧ c ≠ '[') : Decoded l := by
  obtain ⟨hbefore, hbehind, hclose, hgap⟩ := htight b hb
  obtain ⟨fuel, hfuel, skipped, hscan⟩ := scan_bracketed hb
  obtain ⟨u, us, hu⟩ := List.exists_cons_of_ne_nil l.name.ne
  have hplatform := (bracketAt_denoted_iff b (l.behindBracket.text ++ l.tailLine)).mpr
    ⟨hbefore, hbehind, hclose⟩
  have hclean : ∀ c ∈ us, ¬separator c ∧ c ≠ '[' ∧ c ≠ '#' ∧ c ≠ '\n' := by
    intro c hc
    obtain ⟨hsep, hbracket⟩ := hname c (by rw [hu]; exact hc)
    obtain ⟨hsharp, hline, _⟩ := l.name.clean c (by rw [hu]; exact List.mem_cons_of_mem _ hc)
    exact ⟨hsep, hbracket, hsharp, hline⟩
  obtain ⟨hsharp, hline, _⟩ := l.name.clean u (by rw [hu]; exact List.mem_cons_self)
  have hlen := l.length_tailLine
  rw [hu, List.length_cons] at hlen
  have htail : scanRest fuel (us ++ (l.trail.text ++ (l.commentText ++ ['\n']))) =
      ⟨us, none, l.commentText, l.trail.text ++ ['\n'], false⟩ :=
    scanRest_tail hclean (by omega)
  have hchar : scanChar (scanRest fuel) (l.behindBracket.text ++ l.tailLine) =
      ⟨l.name.text, none, l.commentText, l.trail.text ++ ['\n'], false⟩ := by
    rw [hgap, List.nil_append, SuiteLine.tailLine, hu, List.cons_append, scanChar, if_neg hsharp,
      if_neg hline, htail]
    rfl
  rw [decoded_iff_scan hfits hhyphen, hscan, result_skip, result_skip, hchar, hplatform]
  unfold SuiteLine.denoted
  rw [hb]
  exact result_of_closed rfl _ _

theorem plain_bracketed (h : Decoded l) :
    l.TightBracket ∧ ∀ c ∈ l.name.text.tail, ¬separator c ∧ c ≠ '[' := by
  obtain ⟨fuel, _, skipped, hscan⟩ := scan_bracketed hb
  rw [decoded_iff_scan hfits hhyphen, hscan, result_skip, result_skip] at h
  have heq := eq_of_result h
  have hhead : ∃ u us, l.behindBracket.text ++ l.tailLine = u :: us ∧ u ≠ '#' ∧ u ≠ '\n' ∧
      (l.behindBracket.text ≠ [] → separator u) := by
    cases hgap : l.behindBracket.text with
    | cons c cs =>
      have hsep := l.behindBracket.only c (hgap ▸ List.mem_cons_self)
      exact ⟨c, _, rfl, Separators.ne (hgap ▸ List.mem_cons_self) (by decide),
        Separators.ne (hgap ▸ List.mem_cons_self) (by decide), fun _ => hsep⟩
    | nil =>
      obtain ⟨u, us, hu⟩ := List.exists_cons_of_ne_nil l.name.ne
      obtain ⟨hsharp, hline, _⟩ := l.name.clean u (by rw [hu]; exact List.mem_cons_self)
      refine ⟨u, us ++ (l.trail.text ++ (l.commentText ++ ['\n'])), ?_, hsharp, hline,
        fun hne => absurd rfl hne⟩
      rw [SuiteLine.tailLine, hu]
      rfl
  obtain ⟨u, us, hu, hsharp, hline, hsep⟩ := hhead
  rw [hu, scanChar, if_neg hsharp, if_neg hline] at heq
  have hsLine : l.name.text = u :: (scanRest fuel us).sLine := congrArg Line.sLine heq
  have hcomment : l.commentText = (scanRest fuel us).sCaseComment :=
    congrArg Line.sCaseComment heq
  have hskipped : (scanRest fuel us).skipped.count '[' = 0 := by
    have hcount := count_scanRest fuel us
    have hall := congrArg (List.count '[') hu
    rw [List.count_append, l.behindBracket.count_bracket, l.count_tailLine, hsLine, hcomment,
      List.count_cons, List.count_cons] at hall
    omega
  obtain ⟨hnone, _, hname⟩ := scanRest_unskipped hskipped
  have hplatform : some b.denoted = some (bracketAt (b.inside ++ ']' :: u :: us)).1 := by
    have hline := congrArg Line.platform heq
    simp only [SuiteLine.denoted, hb, ScanEnd.withPlatform, ScanEnd.record, hnone] at hline
    rw [← hu] at hline ⊢
    exact hline
  have htight := (bracketAt_denoted_iff b (u :: us)).mp (Option.some.inj hplatform).symm
  refine ⟨fun b' hb' => ?_, ?_⟩
  · rw [hb] at hb'
    cases hb'
    refine ⟨htight.1, htight.2.1, htight.2.2, ?_⟩
    by_contra hgap
    exact l.name.first u (by rw [hsLine]; rfl) (hsep hgap)
  · rw [hsLine]
    exact hname

end Bracketed

end Line

/-- A line that begins with a hyphen is passed over. -/
theorem scanLine_hyphen {ts : Text} :
    scanLine ('-' :: ts) = some ⟨false, [], none, []⟩ := by
  have hat : charAt ('-' :: ts) 0 = '-' := rfl
  unfold scanLine
  rw [List.length_cons,
    @scanFrom_succ ('-' :: ts) ts.length 0 ⟨false, [], none, []⟩ '-' ts rfl (by decide),
    if_neg (by decide), if_neg (by decide), scanCharAt, hat]
  rfl

section Example

def noSeparators : Separators := ⟨[], List.forall_mem_nil _⟩

/-- `[L] s`, with a blank behind the bracket. -/
def blankBehindBracket : SuiteLine where
  disabled := false
  lead := noSeparators
  bracket := some ⟨noSeparators, false, noSeparators,
    ⟨['L'], List.cons_ne_nil _ _, List.forall_mem_singleton.mpr (by decide),
      fun _ heq => Option.some.inj heq ▸ by decide, fun _ heq => Option.some.inj heq ▸ by decide⟩,
    noSeparators, fun _ heq => absurd (Option.some.inj heq) (by decide)⟩
  behindBracket := ⟨[' '], List.forall_mem_singleton.mpr (by decide)⟩
  name := ⟨['s'], List.cons_ne_nil _ _, List.forall_mem_singleton.mpr (by decide),
    fun _ heq => Option.some.inj heq ▸ by decide, fun _ heq => Option.some.inj heq ▸ by decide⟩
  trail := noSeparators
  comment := none
  unbracketed := fun _ heq => absurd (Option.some.inj heq) (by decide)

end Example

end Natc.Suite
