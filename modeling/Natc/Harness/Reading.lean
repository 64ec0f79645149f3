import Natc.Harness.Reconnect
import Natc.Lib.Tokens

/-!
# Reading what isql puts out

The reads of a process cut its output anywhere. `callback_read_handle` keeps the last line of what
it has until the next read and puts the lines in front of it out; when the text ends with the
prompt, it puts out all of them.
-/

namespace Natc.Harness

open Lib

def isNewline (c : Char) : Bool := c == '\r' || c == '\n'

/-- The lines of a text that are not empty. -/
def filled (t : Text) : List Text := tokens isNewline t

/-- What is kept of a text until the next read. -/
def kept (t : Text) : Text :=
  (filled t).getLast?.getD [] ++ if t.getLast? = some '\n' then ['\n'] else []

/-- A line of the output with its end. -/
structure OutputLine where
  text : Text
  crlf : Bool
  plain : IsWord isNewline text

def OutputLine.print (l : OutputLine) : Text := l.text ++ if l.crlf then ['\r', '\n'] else ['\n']

/-- The prompt of isql for a new statement, or for the next line of one. -/
def IsPrompt (p : Text) : Prop :=
  p = ['i', 'S', 'Q', 'L', '>', ' '] ∨
    ∃ digits : Text, digits ≠ [] ∧ (∀ d ∈ digits, d.isDigit) ∧
      p = ['i', 'S', 'Q', 'L'] ++ digits ++ [' ']

/-- The entries of `OUT` for the lines of an output. -/
def entries (out : List OutputLine) : List Text :=
  ((out.map OutputLine.text).filter fun l => l ≠ []).map (['.', ' '] ++ ·)

def Driver.readAll (cfg : Setting) (s : Driver) (reads : List Text) : Driver :=
  reads.foldl (callback_read_handle cfg) s

/-- What a text puts out. -/
def recorded (t : Text) : List Text :=
  match expect t with
  | some out => (filled out).filter truthy
  | none => (filled t).dropLast.filter truthy

/-- What a text leaves for the next read. -/
def after (t : Text) : Text :=
  match expect t with
  | some _ => []
  | none => kept t

/-- The lines put out by reads after the text `buffer`. -/
def feed : Text → List Text → List Text
  | _, [] => []
  | buffer, r :: rs => recorded (buffer ++ r) ++ feed (after (buffer ++ r)) rs

/-! ## The lines of a text -/

section lines

variable {t u v : Text}

theorem filled_of_last (h : ∀ c ∈ t.getLast?, isNewline c) (u : Text) :
    filled (t ++ u) = filled t ++ filled u := tokens_append_of_last h u

theorem filled_of_head (h : ∀ c ∈ u.head?, isNewline c) (t : Text) :
    filled (t ++ u) = filled t ++ filled u := tokens_append_of_head h t

theorem filled_newline (t u : Text) : filled (t ++ '\n' :: u) = filled t ++ filled u :=
  tokens_append rfl t u

theorem filled_word (h : IsWord isNewline t) (hne : t ≠ []) : filled t = [t] := tokens_word h hne

theorem filled_eq_nil (h : ∀ c ∈ t, isNewline c) : filled t = [] := tokens_eq_nil h

theorem exists_last_line (h : filled t ≠ []) :
    ∃ u w z, t = u ++ w ++ z ∧ (∀ c ∈ u.getLast?, isNewline c) ∧ IsWord isNewline w ∧ w ≠ [] ∧
      (∀ c ∈ z, isNewline c) ∧ filled t = filled u ++ [w] := exists_last_token h

private theorem rdropWhile_isEmpty (ls : List Text) :
    (ls.rdropWhile List.isEmpty).getLast? = (ls.filter fun w => !w.isEmpty).getLast? ∧
      (ls.rdropWhile List.isEmpty).filter (fun w => !w.isEmpty) =
        (ls.filter fun w => !w.isEmpty) ∧
      (ls.rdropWhile List.isEmpty).dropLast.filter (fun w => !w.isEmpty) =
        (ls.filter fun w => !w.isEmpty).dropLast := by
  induction ls using List.reverseRecOn with
  | nil => exact ⟨rfl, rfl, rfl⟩
  | append_singleton ls w ih =>
    cases hw : w.isEmpty with
    | true =>
      rw [List.rdropWhile_concat_pos _ _ _ hw, List.filter_append]
      simpa [hw] using ih
    | false =>
      rw [List.rdropWhile_concat_neg _ _ _ (by simp [hw]), List.filter_append]
      simp [hw]

theorem splitLines_getLast? (t : Text) : (splitLines t).getLast? = (filled t).getLast? :=
  (rdropWhile_isEmpty _).1

private theorem filter_truthy (ls : List Text) :
    (ls.filter fun w => !w.isEmpty).filter truthy = ls.filter truthy := by
  rw [List.filter_filter]
  refine List.filter_congr fun w _ => ?_
  cases w <;> simp [truthy]

/-- The empty lines that `split` leaves are not put out. -/
theorem splitLines_filter (t : Text) :
    (splitLines t).filter truthy = (filled t).filter truthy := by
  rw [← filter_truthy, splitLines, (rdropWhile_isEmpty _).2.1]
  rfl

theorem splitLines_dropLast (t : Text) :
    (splitLines t).dropLast.filter truthy = (filled t).dropLast.filter truthy := by
  rw [← filter_truthy, splitLines, (rdropWhile_isEmpty _).2.2]
  rfl

/-- A return at the end of `t` is followed by its newline. -/
def Meets (t u : Text) : Prop := t.getLast? = some '\r' → u.head? = some '\n'

theorem isNewline_of_filled_eq_nil (h : filled t = []) : ∀ c ∈ t, isNewline c := by
  have hflat := @flatten_tokens _ isNewline t
  rw [← filled, h, List.flatten_nil, eq_comm, List.filter_eq_nil_iff] at hflat
  intro c hc
  simpa using hflat c hc

theorem kept_eq {w : Text} {ls : List Text} (h : filled t = ls ++ [w]) :
    kept t = w ++ if t.getLast? = some '\n' then ['\n'] else [] := by
  rw [kept, h, List.getLast?_concat, Option.getD_some]

theorem kept_of_filled_eq_nil (h : filled t = []) : filled (kept t ++ u) = filled u := by
  rw [kept, h, List.getLast?_nil, Option.getD_none, List.nil_append]
  split
  · exact filled_newline [] u
  · rfl

/-- The lines of a text that goes on: those that were put out, and those of what was kept and what
follows. -/
theorem filled_append (h : Meets t u) :
    filled (t ++ u) = (filled t).dropLast ++ filled (kept t ++ u) := by
  by_cases hnil : filled t = []
  · have hall := isNewline_of_filled_eq_nil hnil
    rw [kept_of_filled_eq_nil hnil, filled_of_last fun c hc => hall c (List.mem_of_getLast? hc),
      hnil]
    rfl
  · obtain ⟨x, w, z, rfl, hx, hw, hne, hz, hfilled⟩ := exists_last_line hnil
    have hword := filled_word hw hne
    rw [kept_eq hfilled, hfilled, List.dropLast_concat, List.append_assoc, List.append_assoc,
      filled_of_last hx]
    congr 1
    rcases List.eq_nil_or_concat z with rfl | ⟨z', c, rfl⟩
    · have hlast : (x ++ w ++ []).getLast? ≠ some '\n' := by
        rw [List.append_nil, List.getLast?_append_of_ne_nil _ hne]
        intro heq
        exact absurd (hw _ (List.mem_of_getLast? heq)) (by decide)
      rw [if_neg hlast, List.nil_append, List.append_nil]
    · rw [List.concat_eq_append] at h hz ⊢
      have hc : isNewline c := hz c (by simp)
      have hlast : (x ++ w ++ (z' ++ [c])).getLast? = some c := by
        rw [← List.append_assoc, List.getLast?_concat]
      have hhead : ∀ d ∈ ((z' ++ [c]) ++ u).head?, isNewline d := by
        intro d hd
        rw [List.head?_append_of_ne_nil _ (List.append_ne_nil_of_right_ne_nil _ (by simp))] at hd
        exact hz d (List.mem_of_mem_head? hd)
      rw [filled_of_head hhead, hword, filled_of_last fun d hd => hz d (List.mem_of_getLast? hd),
        filled_eq_nil hz, List.nil_append, hlast]
      by_cases hnewline : c = '\n'
      · rw [hnewline, if_pos rfl, List.append_assoc, ← hword]
        exact (filled_newline w u).symm
      · have hreturn : c = '\r' := by simpa [isNewline, hnewline] using hc
        have hu := h (hlast.trans (congrArg some hreturn))
        have huhead : ∀ d ∈ u.head?, isNewline d := by
          intro d hd
          rw [hu, Option.mem_some_iff] at hd
          rw [← hd]
          rfl
        rw [if_neg fun heq => hnewline (Option.some.inj heq), List.append_nil,
          filled_of_head huhead, hword]

/-- What is kept in two steps is what is kept at once. -/
theorem kept_append (h : Meets t u) (hu : u ≠ []) : kept (kept t ++ u) = kept (t ++ u) := by
  have hlast : (filled (t ++ u)).getLast? = (filled (kept t ++ u)).getLast? := by
    rw [filled_append h]
    by_cases hnil : filled (kept t ++ u) = []
    · have hall := isNewline_of_filled_eq_nil hnil
      have ht : filled t = [] := by
        by_contra hne
        obtain ⟨x, w, z, -, -, hw, hwne, -, hfilled⟩ := exists_last_line hne
        obtain ⟨c, w, rfl⟩ := List.exists_cons_of_ne_nil hwne
        rw [kept_eq hfilled] at hall
        have hc := hall c (by simp)
        rw [hw c List.mem_cons_self] at hc
        cases hc
      rw [ht, hnil]
      rfl
    · exact List.getLast?_append_of_ne_nil _ hnil
  rw [kept.eq_def (t ++ u), hlast, kept.eq_def (kept t ++ u), List.getLast?_append_of_ne_nil _ hu,
    List.getLast?_append_of_ne_nil _ hu]

end lines

/-! ## The prompt -/

section prompt

variable {p t b : Text}

/-- The number of characters of a text that are not newlines. -/
def weight (t : Text) : Nat := (t.filter fun c => !isNewline c).length

theorem weight_append (t u : Text) : weight (t ++ u) = weight t + weight u := by
  rw [weight, List.filter_append, List.length_append]
  rfl

/-- What is matched by the first pattern. -/
theorem exists_of_promptHere (h : promptHere t = true) :
    ∃ w, white w ∧ (t = ['i', 'S', 'Q', 'L', '>', w] ∨ t = ['i', 'S', 'Q', 'L', '>', w, '\n']) := by
  rw [promptHere, Bool.and_eq_true, List.isPrefixOf_iff_prefix] at h
  obtain ⟨⟨v, rfl⟩, hend⟩ := h
  have hdrop : (['i', 'S', 'Q', 'L', '>'] ++ v).drop 5 = v := rfl
  rw [hdrop] at hend
  match v, hend with
  | [w], hend => exact ⟨w, hend, Or.inl rfl⟩
  | [w, d], hend =>
    rw [endsWhite, Bool.and_eq_true, beq_iff_eq] at hend
    exact ⟨w, hend.1, Or.inr (by rw [hend.2]; rfl)⟩

/-- What is matched by the second pattern. -/
theorem exists_of_countHere (h : countHere t = true) :
    ∃ digits blanks : Text, (∀ d ∈ digits, d.isDigit) ∧ (∀ c ∈ blanks, white c) ∧ blanks ≠ [] ∧
      t = ['i', 'S', 'Q', 'L'] ++ digits ++ blanks := by
  rw [countHere, Bool.and_eq_true, Bool.and_eq_true, Bool.and_eq_true,
    List.isPrefixOf_iff_prefix] at h
  obtain ⟨⟨⟨⟨v, rfl⟩, -⟩, hblanks⟩, hwhite⟩ := h
  have hdrop : (['i', 'S', 'Q', 'L'] ++ v).drop 4 = v := rfl
  rw [hdrop] at hblanks hwhite
  refine ⟨v.takeWhile Char.isDigit, v.dropWhile Char.isDigit,
    fun d hd => List.mem_takeWhile_imp hd, List.all_eq_true.mp hwhite, by simpa using hblanks, ?_⟩
  rw [List.append_assoc, List.takeWhile_append_dropWhile]

/-- A match begins with its only `i`, and ends with a blank. -/
theorem of_match {c : Char} (h : promptHere (c :: t) = true ∨ countHere (c :: t) = true) :
    c = 'i' ∧ 'i' ∉ t ∧ ∃ w, (c :: t).getLast? = some w ∧ white w := by
  have hi : white 'i' = false := by decide
  rcases h with h | h
  · obtain ⟨w, hw, heq | heq⟩ := exists_of_promptHere h
    · obtain ⟨rfl, rfl⟩ := List.cons.inj heq
      refine ⟨rfl, fun hmem => ?_, w, rfl, hw⟩
      have hiw : 'i' = w := by simpa using hmem
      rw [← hiw, hi] at hw
      cases hw
    · obtain ⟨rfl, rfl⟩ := List.cons.inj heq
      refine ⟨rfl, fun hmem => ?_, '\n', rfl, rfl⟩
      have hiw : 'i' = w := by simpa using hmem
      rw [← hiw, hi] at hw
      cases hw
  · obtain ⟨digits, blanks, hdigits, hblanks, hne, heq⟩ := exists_of_countHere h
    obtain ⟨rfl, rfl⟩ := List.cons.inj heq
    refine ⟨rfl, fun hmem => ?_, blanks.getLast hne, ?_, hblanks _ (List.getLast_mem hne)⟩
    · have hor : 'i' ∈ digits ∨ 'i' ∈ blanks := by simpa using hmem
      rcases hor with hmem | hmem
      · exact absurd (hdigits _ hmem) (by decide)
      · exact absurd (hblanks _ hmem) (by decide)
    · rw [← List.getLast?_eq_some_getLast hne]
      exact List.getLast?_append_of_ne_nil ('i' :: (['S', 'Q', 'L'] ++ digits)) hne

/-- A match leaves less than there was, and the text ends with a blank. -/
theorem of_expect {r : Text} (h : expect t = some r) :
    weight r < weight t ∧ ∃ w, t.getLast? = some w ∧ white w := by
  induction t generalizing r with
  | nil => cases h
  | cons c t ih =>
    rw [expect] at h
    split at h
    · next hprompt =>
      obtain ⟨-, -, hlast⟩ := of_match (Or.inl hprompt)
      refine ⟨?_, hlast⟩
      obtain ⟨w, -, heq | heq⟩ := exists_of_promptHere hprompt <;>
      · obtain ⟨rfl, rfl⟩ := List.cons.inj heq
        cases h
        exact Nat.succ_pos _
    · split at h
      · next hcount =>
        obtain ⟨rfl, -, hlast⟩ := of_match (Or.inr hcount)
        cases h
        exact ⟨Nat.succ_pos _, hlast⟩
      · obtain ⟨r', hr', rfl⟩ := Option.map_eq_some_iff.mp h
        obtain ⟨hweight, w, hw, hwhite⟩ := ih hr'
        have hne : t ≠ [] := by
          rintro rfl
          cases hr'
        refine ⟨?_, w, ?_, hwhite⟩
        · have happend := weight_append [c]
          have hleft := happend r'
          have hright := happend t
          rw [List.singleton_append] at hleft hright
          omega
        · rw [List.getLast?_cons_of_ne_nil hne]
          exact hw

/-- A prompt ends with its only blank. -/
theorem IsPrompt.exists_eq (hp : IsPrompt p) : ∃ q, p = 'i' :: (q ++ [' ']) ∧
    ∀ c ∈ 'i' :: q, white c = false := by
  rcases hp with rfl | ⟨digits, -, hdigits, rfl⟩
  · refine ⟨['S', 'Q', 'L', '>'], rfl, ?_⟩
    simp [white, Char.isWhitespace]
  · refine ⟨['S', 'Q', 'L'] ++ digits, rfl, ?_⟩
    intro c hc
    have hor : c ∈ ['i', 'S', 'Q', 'L'] ∨ c ∈ digits := by simpa [or_assoc] using hc
    rcases hor with hc | hc
    · have hletters : ∀ d ∈ ['i', 'S', 'Q', 'L'], white d = false := by
        simp [white, Char.isWhitespace]
      exact hletters c hc
    · exact white_of_isDigit (hdigits c hc)

/-- A prompt is found as a whole. -/
theorem IsPrompt.found (hp : IsPrompt p) : expect p = some [] := by
  rcases hp with rfl | ⟨digits, hne, hdigits, rfl⟩
  · decide
  · have hprompt : ¬promptHere (['i', 'S', 'Q', 'L'] ++ digits ++ [' ']) = true := by
      intro h
      obtain ⟨d, ds, rfl⟩ := List.exists_cons_of_ne_nil hne
      have hd : d ≠ '>' := by
        rintro rfl
        exact absurd (hdigits _ List.mem_cons_self) (by decide)
      obtain ⟨w, -, heq | heq⟩ := exists_of_promptHere h <;>
      · simp only [List.cons_append, List.nil_append, List.cons.injEq, true_and] at heq
        exact hd heq.1
    have hdrop : (['i', 'S', 'Q', 'L'] ++ digits ++ [' ']).drop 4 = digits ++ [' '] := rfl
    have hcount : countHere (['i', 'S', 'Q', 'L'] ++ digits ++ [' ']) = true := by
      rw [countHere, hdrop, List.takeWhile_append_of_pos hdigits,
        List.dropWhile_append_of_pos hdigits]
      simp [hne, white, Char.isWhitespace]
    exact (if_neg hprompt).trans (if_pos hcount)

/-- The prompt is found at the end of a text, and nothing else. -/
theorem expect_append_prompt (hp : IsPrompt p) (b : Text) : expect (b ++ p) = some b := by
  induction b with
  | nil => exact hp.found
  | cons c b ih =>
    obtain ⟨q, hq, -⟩ := hp.exists_eq
    have hmem : 'i' ∈ b ++ p := by simp [hq]
    have hprompt : ¬promptHere (c :: (b ++ p)) = true :=
      fun h => (of_match (Or.inl h)).2.1 hmem
    have hcount : ¬countHere (c :: (b ++ p)) = true :=
      fun h => (of_match (Or.inr h)).2.1 hmem
    rw [List.cons_append, expect, if_neg hprompt, if_neg hcount, ih, Option.map_some]

end prompt

/-! ## Reads -/

section reads

variable {p t u v b : Text} {reads : List Text}

/-- Every return in a text is followed by its newline. -/
def Ended (b : Text) : Prop := ∀ u v, b = u ++ v → Meets u v

theorem Ended.right (h : Ended (t ++ b)) : Ended b := by
  intro u v heq hu
  refine h (t ++ u) v (by rw [heq, List.append_assoc]) ?_
  have hne : u ≠ [] := by
    rintro rfl
    cases hu
  rw [List.getLast?_append_of_ne_nil _ hne, hu]

theorem ended_of_not_mem (h : '\r' ∉ b) : Ended b := by
  rintro u v rfl hu
  exact absurd (List.mem_append_left v (List.mem_of_getLast? hu)) h

theorem Ended.append (h : Ended t) (h' : Ended b) : Ended (t ++ b) := by
  intro u v heq hu
  rcases List.append_eq_append_iff.mp heq with ⟨c, rfl, rfl⟩ | ⟨c, rfl, rfl⟩
  · by_cases hne : c = []
    · rw [hne, List.append_nil] at hu
      cases h t [] (List.append_nil t).symm hu
    · rw [List.getLast?_append_of_ne_nil _ hne] at hu
      exact h' c v rfl hu
  · have hc := h u c rfl hu
    cases c with
    | nil => cases hc
    | cons d c => exact hc

theorem ended_crlf : Ended ['\r', '\n'] := by
  intro u v heq hu
  cases u with
  | nil => cases hu
  | cons c u =>
    obtain ⟨rfl, hrest⟩ := List.cons.inj heq
    cases u with
    | nil =>
      obtain rfl : v = ['\n'] := hrest.symm
      rfl
    | cons d u =>
      obtain ⟨rfl, hnil⟩ := List.cons.inj hrest
      obtain ⟨rfl, -⟩ := List.append_eq_nil_iff.mp hnil.symm
      cases hu

theorem return_not_mem_kept (t : Text) : '\r' ∉ kept t := by
  intro hmem
  rcases List.mem_append.mp hmem with hmem | hmem
  · cases hlast : (filled t).getLast? with
    | none =>
      rw [hlast] at hmem
      cases hmem
    | some w =>
      rw [hlast] at hmem
      have hword := (isWord_of_mem_tokens (List.mem_of_getLast? hlast)).1 _ hmem
      cases hword
  · split at hmem
    · exact absurd hmem (by simp)
    · cases hmem

theorem ended_kept_append (h : Ended (t ++ u)) : Ended (kept t ++ u) := by
  intro x y heq hx
  rcases List.append_eq_append_iff.mp heq.symm with ⟨z, hz, -⟩ | ⟨z, hz, hu⟩
  · exact absurd (hz ▸ List.mem_append_left z (List.mem_of_getLast? hx)) (return_not_mem_kept t)
  · by_cases hne : z = []
    · rw [hz, hne, List.append_nil] at hx
      exact absurd (List.mem_of_getLast? hx) (return_not_mem_kept t)
    · rw [hz, List.getLast?_append_of_ne_nil _ hne] at hx
      exact h.right z y hu hx

theorem weight_eq (t : Text) : weight t = (filled t).flatten.length := by
  rw [weight, filled, flatten_tokens]

/-- A text that ends with a blank does not end within the prompt. -/
theorem IsPrompt.split (hp : IsPrompt p) (h : t ++ u = b ++ p) (hu : u ≠ []) :
    (∃ c, b = t ++ c ∧ u = c ++ p) ∨
      ∃ c, c ≠ [] ∧ t = b ++ c ∧ p = c ++ u ∧ ∀ d ∈ c, white d = false := by
  rcases List.append_eq_append_iff.mp h with ⟨c, hb, hc⟩ | ⟨c, ht, hc⟩
  · exact Or.inl ⟨c, hb, hc⟩
  · by_cases hne : c = []
    · subst hne
      exact Or.inl ⟨[], by rw [ht, List.append_nil, List.append_nil], hc.symm⟩
    · refine Or.inr ⟨c, hne, ht, hc, fun d hd => ?_⟩
      obtain ⟨q, hq, hwhite⟩ := hp.exists_eq
      obtain ⟨u, e, rfl⟩ := (List.eq_nil_or_concat u).resolve_left hu
      rw [hq, List.concat_eq_append, ← List.append_assoc, ← List.cons_append] at hc
      have hcu := (List.append_inj' hc rfl).1
      exact hwhite d (hcu ▸ List.mem_append_left u hd)

theorem isWord_of_white (h : ∀ d ∈ t, white d = false) : IsWord isNewline t := by
  intro c hc
  have hwhite := h c hc
  by_contra hnewline
  rw [Bool.not_eq_false, isNewline, Bool.or_eq_true, beq_iff_eq, beq_iff_eq] at hnewline
  rcases hnewline with rfl | rfl <;> cases hwhite

/-- What is kept of a text, and the rest of the output. -/
theorem exists_kept (hp : IsPrompt p) (hb : Ended b) (h : t ++ u = b ++ p) (hu : u ≠ []) :
    ∃ b', kept t ++ u = b' ++ p ∧ filled b = (filled t).dropLast ++ filled b' ∧ Ended b' := by
  rcases hp.split h hu with ⟨c, rfl, rfl⟩ | ⟨c, hne, rfl, rfl, hwhite⟩
  · exact ⟨kept t ++ c, (List.append_assoc ..).symm, filled_append (hb t c rfl),
      ended_kept_append hb⟩
  · -- the text ends within the prompt, whose beginning is on the last line
    have hclosed := @sep_of_getLast?_rdropWhile _ isNewline b
    have hsplit := @List.rdropWhile_append_rtakeWhile _ (fun c => !isNewline c) b
    have hline : IsWord isNewline (b.rtakeWhile fun c => !isNewline c) := by
      intro d hd
      simpa using List.mem_rtakeWhile_imp hd
    have hword : IsWord isNewline ((b.rtakeWhile fun c => !isNewline c) ++ c) := by
      intro d hd
      rcases List.mem_append.mp hd with hd | hd
      · exact hline d hd
      · exact isWord_of_white hwhite d hd
    have hfilled : filled (b ++ c) = filled (b.rdropWhile fun c => !isNewline c) ++
        [(b.rtakeWhile fun c => !isNewline c) ++ c] := by
      conv_lhs => rw [← hsplit]
      rw [List.append_assoc, filled_of_last hclosed,
        filled_word hword (List.append_ne_nil_of_right_ne_nil _ hne)]
    have hlast : (b ++ c).getLast? ≠ some '\n' := by
      intro heq
      rw [List.getLast?_append_of_ne_nil _ hne] at heq
      cases hwhite _ (List.mem_of_getLast? heq)
    refine ⟨b.rtakeWhile fun c => !isNewline c, ?_, ?_, ?_⟩
    · rw [kept_eq hfilled, if_neg hlast, List.append_nil, List.append_assoc]
    · rw [hfilled, List.dropLast_concat, ← filled_of_last hclosed, hsplit]
    · exact ended_of_not_mem fun hmem => by cases hline _ hmem

/-! ## What is put out -/

theorem length_flatten_filter_le (ls : List Text) :
    (ls.filter truthy).flatten.length ≤ ls.flatten.length := by
  induction ls with
  | nil => exact Nat.le_refl _
  | cons l ls ih =>
    rw [List.filter_cons]
    split
    · rw [List.flatten_cons, List.flatten_cons, List.length_append, List.length_append]
      exact Nat.add_le_add_left ih _
    · rw [List.flatten_cons, List.length_append]
      exact ih.trans (Nat.le_add_left _ _)

/-- A line of one zero is lost. -/
theorem length_flatten_filter_lt {ls : List Text} (h : ['0'] ∈ ls) :
    (ls.filter truthy).flatten.length < ls.flatten.length := by
  obtain ⟨x, y, rfl⟩ := List.append_of_mem h
  have hx := length_flatten_filter_le x
  have hy := length_flatten_filter_le y
  rw [List.filter_append, List.filter_cons_of_neg (by decide), List.flatten_append,
    List.flatten_append, List.flatten_cons, List.length_append, List.length_append,
    List.length_append, List.length_singleton]
  omega

theorem filter_eq_self {ls : List Text} (hls : ∀ l ∈ ls, l ≠ []) :
    ls.filter truthy = ls ↔ ['0'] ∉ ls := by
  rw [List.filter_eq_self]
  constructor
  · intro hall hmem
    exact absurd (hall _ hmem) (by decide)
  · intro hmem l hl
    have hzero : l ≠ ['0'] := fun heq => hmem (heq ▸ hl)
    simp [truthy, hls l hl, hzero]

theorem ne_nil_of_mem_filled {l : Text} (h : l ∈ filled t) : l ≠ [] := by
  have hne := (List.mem_filter.mp h).2
  rintro rfl
  cases hne

theorem recorded_none (h : expect t = none) : recorded t = (filled t).dropLast.filter truthy := by
  rw [recorded, h]

theorem recorded_some {out : Text} (h : expect t = some out) :
    recorded t = (filled out).filter truthy := by
  rw [recorded, h]

theorem feed_cons (buffer r : Text) (rs : List Text) :
    feed buffer (r :: rs) = recorded (buffer ++ r) ++ feed (after (buffer ++ r)) rs := rfl

theorem flatten_ne_nil {r : Text} {rs : List Text} (hr : r ≠ []) : (r :: rs).flatten ≠ [] :=
  List.append_ne_nil_of_left_ne_nil hr _

/-- Where a prompt is found too early, something is lost. -/
theorem exists_of_early (hp : IsPrompt p) (hb : Ended b) (h : t ++ u = b ++ p) (hu : u ≠ [])
    {out : Text} (hout : expect t = some out) : ∃ b', u = b' ++ p ∧ Ended b' ∧
      (recorded t).flatten.length + (filled b').flatten.length < (filled b).flatten.length := by
  obtain ⟨hweight, w, hlast, hwhite⟩ := of_expect hout
  rcases hp.split h hu with ⟨c, rfl, hc⟩ | ⟨c, hne, rfl, -, hnot⟩
  · refine ⟨c, hc, hb.right, ?_⟩
    have hle := (length_flatten_filter_le (filled out)).trans_eq (weight_eq out).symm
    rw [recorded_some hout, ← weight_eq, ← weight_eq, weight_append]
    exact Nat.add_lt_add_right (hle.trans_lt hweight) _
  · rw [List.getLast?_append_of_ne_nil _ hne] at hlast
    rw [hnot w (List.mem_of_getLast? hlast)] at hwhite
    cases hwhite

/-- What is put out is not more than the output in front of the prompt. -/
theorem length_feed_le (hp : IsPrompt p) {buffer : Text} (hb : Ended b)
    (hreads : ∀ r ∈ reads, r ≠ []) (hne : reads ≠ [])
    (h : buffer ++ reads.flatten = b ++ p) :
    (feed buffer reads).flatten.length ≤ (filled b).flatten.length := by
  induction reads generalizing buffer b with
  | nil => exact absurd rfl hne
  | cons r rs ih =>
    rw [List.flatten_cons, ← List.append_assoc] at h
    rw [feed_cons, List.flatten_append, List.length_append]
    cases rs with
    | nil =>
      rw [List.flatten_nil, List.append_nil] at h
      rw [h, recorded_some (expect_append_prompt hp b)]
      exact length_flatten_filter_le _
    | cons r' rs =>
      obtain ⟨-, hreads⟩ := List.forall_mem_cons.mp hreads
      have hrest : (r' :: rs).flatten ≠ [] := flatten_ne_nil (hreads r' List.mem_cons_self)
      cases hfound : expect (buffer ++ r) with
      | some out =>
        obtain ⟨b', hb', hended, hlt⟩ := exists_of_early hp hb h hrest hfound
        have hafter : after (buffer ++ r) = [] := by rw [after, hfound]
        rw [hafter]
        exact (Nat.add_le_add_left (ih hended hreads (List.cons_ne_nil _ _) hb') _).trans hlt.le
      | none =>
        obtain ⟨b', hb', hfilled, hended⟩ := exists_kept hp hb h hrest
        have hafter : after (buffer ++ r) = kept (buffer ++ r) := by rw [after, hfound]
        rw [hafter, hfilled, recorded_none hfound, List.flatten_append, List.length_append]
        exact Nat.add_le_add (length_flatten_filter_le _)
          (ih hended hreads (List.cons_ne_nil _ _) hb')

/-- No read but the last leaves a text that ends with a prompt. -/
def Quiet : Text → List Text → Prop
  | _, [] => True
  | buffer, r :: rs => (rs ≠ [] → expect (buffer ++ r) = none) ∧ Quiet (kept (buffer ++ r)) rs

/-- All lines are put out exactly if no line is a zero and no prompt is found too early. -/
theorem feed_eq_iff (hp : IsPrompt p) {buffer : Text} (hb : Ended b)
    (hreads : ∀ r ∈ reads, r ≠ []) (hne : reads ≠ [])
    (h : buffer ++ reads.flatten = b ++ p) :
    feed buffer reads = filled b ↔ ['0'] ∉ filled b ∧ Quiet buffer reads := by
  induction reads generalizing buffer b with
  | nil => exact absurd rfl hne
  | cons r rs ih =>
    rw [List.flatten_cons, ← List.append_assoc] at h
    rw [feed_cons, Quiet]
    cases rs with
    | nil =>
      rw [List.flatten_nil, List.append_nil] at h
      rw [h, recorded_some (expect_append_prompt hp b), feed, List.append_nil,
        filter_eq_self fun l hl => ne_nil_of_mem_filled hl]
      exact (and_iff_left ⟨fun hnil => absurd rfl hnil, trivial⟩).symm
    | cons r' rs =>
      obtain ⟨-, hreads⟩ := List.forall_mem_cons.mp hreads
      have hrest : (r' :: rs).flatten ≠ [] := flatten_ne_nil (hreads r' List.mem_cons_self)
      cases hfound : expect (buffer ++ r) with
      | some out =>
        refine iff_of_false (fun heq => ?_) fun hquiet => ?_
        · obtain ⟨b', hb', hended, hlt⟩ := exists_of_early hp hb h hrest hfound
          have hafter : after (buffer ++ r) = [] := by rw [after, hfound]
          have hle := length_feed_le hp hended hreads (List.cons_ne_nil _ _)
            ((List.nil_append _).trans hb')
          rw [hafter] at heq
          have hlength := congrArg (fun ls : List Text => ls.flatten.length) heq
          simp only [List.flatten_append, List.length_append] at hlength
          omega
        · have hnone := hquiet.2.1 (List.cons_ne_nil _ _)
          cases hnone
      | none =>
        obtain ⟨b', hb', hfilled, hended⟩ := exists_kept hp hb h hrest
        have hafter : after (buffer ++ r) = kept (buffer ++ r) := by rw [after, hfound]
        have hquiet : (r' :: rs ≠ [] → (none : Option Text) = none) := fun _ => rfl
        rw [hafter, hfilled, recorded_none hfound, and_iff_right hquiet, List.mem_append, not_or,
          and_assoc, ← ih hended hreads (List.cons_ne_nil _ _) hb']
        by_cases hzero : ['0'] ∈ (filled (buffer ++ r)).dropLast
        · refine iff_of_false (fun heq => ?_) fun hand => hand.1 hzero
          have hlt := length_flatten_filter_lt hzero
          have hle := length_feed_le hp hended hreads (List.cons_ne_nil _ _) hb'
          have hlength := congrArg (fun ls : List Text => ls.flatten.length) heq
          simp only [List.flatten_append, List.length_append] at hlength
          omega
        · have hself := (filter_eq_self fun l hl =>
            ne_nil_of_mem_filled (List.mem_of_mem_dropLast hl)).mpr hzero
          rw [hself, and_iff_right hzero, List.append_cancel_left_eq]

/-- Where the output is cut, a return is followed by its newline. -/
theorem meets_of_eq (hp : IsPrompt p) (hb : Ended b) (h : t ++ u = b ++ p) : Meets t u := by
  intro ht
  by_cases hu : u = []
  · obtain ⟨q, hq, -⟩ := hp.exists_eq
    rw [hu, List.append_nil] at h
    rw [h, hq, ← List.cons_append, ← List.append_assoc, List.getLast?_concat] at ht
    exact absurd ht (by decide)
  · rcases hp.split h hu with ⟨c, hbc, rfl⟩ | ⟨c, hne, rfl, -, hwhite⟩
    · have hc := hb t c hbc ht
      cases c with
      | nil => cases hc
      | cons d c => exact hc
    · rw [List.getLast?_append_of_ne_nil _ hne] at ht
      cases hwhite _ (List.mem_of_getLast? ht)

/-- The text that is tested after a read, by what was received before. -/
theorem quiet_iff (hp : IsPrompt p) (hb : Ended b) (hreads : ∀ r ∈ reads, r ≠ [])
    (h : t ++ reads.flatten = b ++ p) : Quiet (kept t) reads ↔
      ∀ before r rest, reads = before ++ r :: rest → rest ≠ [] →
        expect (kept (t ++ before.flatten) ++ r) = none := by
  induction reads generalizing t with
  | nil =>
    refine iff_of_true trivial fun before r rest heq => ?_
    exact absurd heq.symm (List.append_ne_nil_of_right_ne_nil _ (List.cons_ne_nil _ _))
  | cons r rs ih =>
    obtain ⟨hr, hreads⟩ := List.forall_mem_cons.mp hreads
    rw [List.flatten_cons] at h
    have hmeets : Meets t r := by
      have hwhole := meets_of_eq hp hb h
      intro ht
      rw [← hwhole ht, List.head?_append_of_ne_nil _ hr]
    rw [← List.append_assoc] at h
    rw [Quiet, kept_append hmeets hr, ih hreads h]
    constructor
    · rintro ⟨hfirst, hlater⟩ before r' rest heq hrest
      cases before with
      | nil =>
        rw [List.nil_append, List.cons.injEq] at heq
        obtain ⟨rfl, rfl⟩ := heq
        rw [List.flatten_nil, List.append_nil]
        exact hfirst hrest
      | cons s before =>
        rw [List.cons_append, List.cons.injEq] at heq
        obtain ⟨rfl, rfl⟩ := heq
        rw [List.flatten_cons, ← List.append_assoc]
        exact hlater before r' rest rfl hrest
    · intro hall
      refine ⟨fun hrest => ?_, fun before r' rest heq hrest => ?_⟩
      · have hfirst := hall [] r rs rfl hrest
        rwa [List.flatten_nil, List.append_nil] at hfirst
      · have hlater := hall (r :: before) r' rest (congrArg (r :: ·) heq) hrest
        rwa [List.flatten_cons, ← List.append_assoc] at hlater

end reads

/-! ## The process -/

section process

variable {cfg : Setting} {s : Driver} {out : List OutputLine} {p : Text} {reads : List Text}

theorem pushAll_eq (s : Driver) (lines : List Text) : s.pushAll lines =
    { s with
      q_out := s.q_out + lines.length
      OUT := s.OUT ++ lines } := by
  induction lines generalizing s with
  | nil => rw [List.append_nil]; rfl
  | cons l lines ih =>
    rw [Driver.pushAll, List.foldl_cons, ← Driver.pushAll, ih, Driver._push_out,
      List.append_assoc, List.length_cons, Nat.add_assoc, Nat.add_comm 1]
    rfl

/-- What becomes of the text of a read. -/
private theorem put_out (t : Text) (s : Driver) (hskip : s._skip = false) (s' : Driver)
    (h : (match expect t with
      | some out =>
          let s := { s with
            block := false
            BufferIN := [] }
          if s._skip then s
          else s.pushAll (((splitLines out).filter truthy).map (['.', ' '] ++ ·))
      | none =>
          if s._skip then s
          else
            let ps := splitLines t
            let s := s.pushAll ((ps.dropLast.filter truthy).map (['.', ' '] ++ ·))
            { s with
              BufferIN := ps.getLast?.getD [] ++
                if t.getLast? = some '\n' then ['\n'] else [] }) = s') :
    s'.OUT = s.OUT ++ (recorded t).map (['.', ' '] ++ ·) ∧ s'.BufferIN = after t ∧
      s'._skip = false := by
  cases hfound : expect t with
  | some out =>
    rw [hfound] at h
    dsimp only at h
    rw [if_neg (by rw [hskip]; decide), pushAll_eq, splitLines_filter] at h
    rw [recorded_some hfound, after, hfound, ← h]
    exact ⟨rfl, rfl, hskip⟩
  | none =>
    rw [hfound] at h
    dsimp only at h
    rw [if_neg (by rw [hskip]; decide), pushAll_eq, splitLines_dropLast, splitLines_getLast?] at h
    rw [recorded_none hfound, after, hfound, ← h]
    exact ⟨rfl, rfl, hskip⟩

/-- One read. -/
theorem callback_read_handle_eq (hskip : s._skip = false) (data : Text) :
    (s.callback_read_handle cfg data).OUT =
        s.OUT ++ (recorded (s.BufferIN ++ data)).map (['.', ' '] ++ ·) ∧
      (s.callback_read_handle cfg data).BufferIN = after (s.BufferIN ++ data) ∧
      (s.callback_read_handle cfg data)._skip = false := by
  -- the time stamp and the flag for a new statement do not touch what is put out
  have hstamp : ∀ s' : Driver, s'.OUT = s.OUT → s'._skip = false →
      (if expectFirst (s.BufferIN ++ data) then
        { s' with
          new_stmt := true
          rollback_point := s'.q_out
          last_queue := []
          begun := none }
      else { s' with new_stmt := false }).OUT = s.OUT ∧
      (if expectFirst (s.BufferIN ++ data) then
        { s' with
          new_stmt := true
          rollback_point := s'.q_out
          last_queue := []
          begun := none }
      else { s' with new_stmt := false })._skip = false := by
    intro s' hout hskip
    split <;> exact ⟨hout, hskip⟩
  have hfirst : ∀ s' : Driver, s' = (if cfg.is_parallel ∧ s.result_receiving = false then
      { s.setStamp (s.q_out + 1) (some .R) [] none with result_receiving := true } else s) →
      s'.OUT = s.OUT ∧ s'._skip = false := by
    rintro s' rfl
    split <;> exact ⟨rfl, hskip⟩
  obtain ⟨hout, hskip'⟩ := hfirst _ rfl
  obtain ⟨hout, hskip'⟩ := hstamp _ hout hskip'
  rw [← hout]
  exact put_out (s.BufferIN ++ data) _ hskip' _ rfl

/-- While the output is skipped, nothing is put out. -/
theorem callback_read_handle_skip (hskip : s._skip = true) (data : Text) :
    (s.callback_read_handle cfg data).OUT = s.OUT ∧
      (s.callback_read_handle cfg data)._skip = true := by
  rw [Driver.callback_read_handle]
  cases expect (s.BufferIN ++ data) <;> dsimp only <;> split_ifs <;>
    first
    | exact ⟨rfl, hskip⟩
    | exact absurd hskip (by assumption)

theorem readAll_skip (hskip : s._skip = true) (reads : List Text) :
    (s.readAll cfg reads).OUT = s.OUT := by
  induction reads generalizing s with
  | nil => rfl
  | cons r rs ih =>
    obtain ⟨hout, hskip'⟩ := @callback_read_handle_skip cfg s hskip r
    rw [← hout, ← ih hskip']
    rfl

/-- Any number of reads. -/
theorem readAll_eq (hskip : s._skip = false) (reads : List Text) :
    (s.readAll cfg reads).OUT =
      s.OUT ++ (feed s.BufferIN reads).map (['.', ' '] ++ ·) := by
  induction reads generalizing s with
  | nil => exact (List.append_nil _).symm
  | cons r rs ih =>
    obtain ⟨hout, hbuffer, hskip'⟩ := @callback_read_handle_eq cfg s hskip r
    have hrest := ih hskip'
    rw [Driver.readAll] at hrest ⊢
    rw [List.foldl_cons, hrest, hout, hbuffer, feed_cons, List.map_append, List.append_assoc]

/-! ## The output of a statement -/

def printed (out : List OutputLine) : Text := out.flatMap OutputLine.print

theorem printed_cons (l : OutputLine) (out : List OutputLine) :
    printed (l :: out) = l.print ++ printed out := rfl

theorem return_not_mem (l : OutputLine) : '\r' ∉ l.text := by
  intro hmem
  cases l.plain _ hmem

theorem ended_printed (out : List OutputLine) : Ended (printed out) := by
  induction out with
  | nil => exact ended_of_not_mem List.not_mem_nil
  | cons l out ih =>
    refine Ended.append ((ended_of_not_mem (return_not_mem l)).append ?_) ih
    split
    · exact ended_crlf
    · exact ended_of_not_mem (by decide)

theorem filled_printed (out : List OutputLine) :
    filled (printed out) = (out.map OutputLine.text).filter fun l => l ≠ [] := by
  induction out with
  | nil => rfl
  | cons l out ih =>
    have hline : filled (l.print ++ printed out) = filled l.text ++ filled (printed out) := by
      rw [OutputLine.print, List.append_assoc]
      split
      · have hhead : ∀ c ∈ (['\r', '\n'] ++ printed out).head?, isNewline c := by
          intro c hc
          cases hc
          rfl
        have hlast : ∀ c ∈ ['\r', '\n'].getLast?, isNewline c := by
          intro c hc
          cases hc
          rfl
        rw [filled_of_head hhead, filled_of_last hlast]
        rfl
      · exact filled_newline l.text _
    rw [printed_cons, hline, ih, List.map_cons, List.filter_cons]
    by_cases hne : l.text = []
    · rw [hne]
      rfl
    · rw [filled_word l.plain hne, if_pos (decide_eq_true hne)]
      rfl

theorem entries_eq (out : List OutputLine) :
    entries out = (filled (printed out)).map (['.', ' '] ++ ·) := by
  rw [entries, filled_printed]

theorem map_prefix_inj {ls ms : List Text} :
    ls.map (['.', ' '] ++ ·) = ms.map (['.', ' '] ++ ·) ↔ ls = ms :=
  List.map_inj_right fun _ _ => List.append_cancel_left

/-- The lines of a statement are put out as they arrive in one read, all of them in order, exactly
if none of them is a zero and no read but the last leaves a text that ends with a prompt. -/
theorem readAll_iff (cfg : Setting) (s : Driver) (hbuffer : s.BufferIN = [])
    (out : List OutputLine) (hp : IsPrompt p) (hreads : ∀ r ∈ reads, r ≠ [])
    (hall : reads.flatten = printed out ++ p) :
    ((s.readAll cfg reads).OUT = s.OUT ++ entries out ∧
        (s.readAll cfg reads).OUT = (s.readAll cfg [printed out ++ p]).OUT) ↔
      if s._skip then ∀ l ∈ out, l.text = []
      else (∀ l ∈ out, l.text ≠ ['0']) ∧
        ∀ before r rest, reads = before ++ r :: rest → rest ≠ [] →
          expect (kept before.flatten ++ r) = none := by
  have hne : reads ≠ [] := by
    rintro rfl
    obtain ⟨q, hq, -⟩ := hp.exists_eq
    rw [hq, List.flatten_nil] at hall
    exact absurd hall.symm (List.append_ne_nil_of_right_ne_nil _ (List.cons_ne_nil _ _))
  cases hskip : s._skip with
  | true =>
    rw [readAll_skip hskip, readAll_skip hskip, and_iff_left rfl, if_pos rfl, eq_comm,
      List.append_right_eq_self, entries, List.map_eq_nil_iff, List.filter_eq_nil_iff,
      List.forall_mem_map]
    exact forall₂_congr fun l _ => by simp
  | false =>
    have hzero : (∀ l ∈ out, l.text ≠ ['0']) ↔ ['0'] ∉ filled (printed out) := by
      rw [filled_printed, List.mem_filter, List.mem_map]
      simp
    have hquiet := @quiet_iff p [] _ reads hp (ended_printed out) hreads hall
    have hfeed := @feed_eq_iff p _ reads hp [] (ended_printed out) hreads hne hall
    have hone : ['0'] ∉ filled (printed out) →
        feed [] [printed out ++ p] = filled (printed out) := by
      intro hmem
      rw [feed_cons, List.nil_append, recorded_some (expect_append_prompt hp _), feed,
        List.append_nil]
      exact (filter_eq_self fun l hl => ne_nil_of_mem_filled hl).mpr hmem
    rw [readAll_eq hskip, readAll_eq hskip, hbuffer, entries_eq, List.append_cancel_left_eq,
      List.append_cancel_left_eq, map_prefix_inj, map_prefix_inj, if_neg Bool.false_ne_true, hzero]
    constructor
    · rintro ⟨heq, -⟩
      obtain ⟨hmem, hearly⟩ := hfeed.mp heq
      exact ⟨hmem, hquiet.mp hearly⟩
    · rintro ⟨hmem, hearly⟩
      have heq := hfeed.mpr ⟨hmem, hquiet.mpr hearly⟩
      exact ⟨heq, heq.trans (hone hmem).symm⟩

/-- A line and the prompt are cut into three reads, the first of which ends within the end of the
line. -/
theorem readAll_cut :
    (Driver.new.readAll Driver.serial [['a', '\r'], ['\n', 'i', 'S'], ['Q', 'L', '>', ' ']]).OUT =
        Driver.new.OUT ++ entries [⟨['a'], true, by decide⟩] ∧
      (Driver.new.readAll Driver.serial [['a', '\r'], ['\n', 'i', 'S'], ['Q', 'L', '>', ' ']]).OUT =
        (Driver.new.readAll Driver.serial
          [printed [⟨['a'], true, by decide⟩] ++ ['i', 'S', 'Q', 'L', '>', ' ']]).OUT := by
  refine (readAll_iff _ _ rfl [⟨['a'], true, by decide⟩] (Or.inl rfl) (by simp) rfl).mpr
    ⟨by simp, fun before r rest heq hrest => ?_⟩
  match before, heq with
  | [], heq =>
    cases heq
    decide
  | [_], heq =>
    cases heq
    decide
  | [_, _], heq =>
    cases heq
    exact absurd rfl hrest
  | _ :: _ :: _ :: _, heq => simp at heq

/-- A line that is a zero is not put out. -/
theorem not_readAll_zero :
    ¬((Driver.new.readAll Driver.serial [['0', '\n', 'i', 'S', 'Q', 'L', '>', ' ']]).OUT =
        Driver.new.OUT ++ entries [⟨['0'], false, by decide⟩] ∧
      (Driver.new.readAll Driver.serial [['0', '\n', 'i', 'S', 'Q', 'L', '>', ' ']]).OUT =
        (Driver.new.readAll Driver.serial
          [printed [⟨['0'], false, by decide⟩] ++ ['i', 'S', 'Q', 'L', '>', ' ']]).OUT) := by
  decide

end process

end Natc.Harness
