import Natc.Harness.Reconnect
import Natc.Lib.Loops

/-!
# The comparison of a sector

`ok_sector_express` compares the expected lines of a sector with the lines that its process has put
out. It does so twice, for parallel tests and for tests of a single process, and in both it passes
over headers, blank lines and error messages that go over several lines.
-/

namespace Natc.Harness

open Lib

/-! ## The code -/

/-- `\]$`. -/
def closes (l : Text) : Bool :=
  l.getLast? = some ']' || (l.getLast? = some '\n' && l.dropLast.getLast? = some ']')

/-- `^\. \[ERR` and not `\]$`. -/
def opens (l : Text) : Bool := ['.', ' ', '[', 'E', 'R', 'R'].isPrefixOf l && !closes l

/-- `^\.\s+$`. -/
def blank : Text → Bool
  | '.' :: c :: cs => (c :: cs).all white
  | _ => false

/-- An expected line that is not compared. -/
def passed (l : Text) : Bool := l.head? ≠ some '.' || blank l

/-- A recorded line that is not compared. -/
def passedOut (l : Text) : Bool :=
  l.head? ≠ some '.' || ['.', ' ', '+', '-', '-'].isPrefixOf l ||
    ['.', ' ', '-', '-', '+'].isPrefixOf l || blank l

/-- `s/^\. //`. -/
def strip (l : Text) : Text := if ['.', ' '].isPrefixOf l then l.drop 2 else l

def theEnd : Text :=
  ['T', 'H', 'E', ' ', 'E', 'N', 'D', ' ', 'F', 'O', 'R', ' ', 'A', 'T', 'C']

/-- The index goes on to the line that closes an error. Behind the end of the list every line is
undefined, and none of them closes it. -/
def closeError (fuel : Nat) : List Text → Option (List Text) :=
  loop (fun ls => !closes (ls.head?.getD [])) (fun ls => some ls.tail) fuel

def skipRound (fuel : Nat) (ls : List Text) : Option (List Text) :=
  (if ls.head?.any opens then closeError fuel ls else some ls).map List.tail

/-- The index goes on to the next line that is compared. -/
def skip (pass : Text → Bool) (fuel : Nat) : List Text → Option (List Text) :=
  loop (fun ls => ls.head?.any fun l => pass l || opens l) (skipRound fuel) fuel

/-- The lines from `lst_index` and `out_index` on, and the other variables of the loops. -/
structure Scan where
  lst : List Text
  out : List Text
  lst_string : Text
  out_string : Text
  sector_result : Bool
  deriving DecidableEq

/-- The lines that are reached are compared, as long as no two have differed. -/
def Scan.compare (s : Scan) (lst out : List Text) : Scan :=
  let lst_string := lst.head?.getD theEnd
  let out_string := out.head?.getD theEnd
  if s.sector_result then
    ⟨lst.tail, out.tail, strip lst_string, strip out_string,
      strip out_string = strip lst_string⟩
  else ⟨lst.tail, out.tail, lst_string, out_string, false⟩

def Scan.round (fuel : Nat) (s : Scan) : Option Scan :=
  (skip passed fuel s.lst).bind fun lst =>
    (skip passedOut fuel s.out).map fun out => s.compare lst out

def parallelLoop (fuel : Nat) : Scan → Option Scan :=
  loop (fun s => s.sector_result && !s.out.isEmpty) (Scan.round fuel) fuel

def singleLoop (fuel : Nat) : Scan → Option Scan :=
  loop (fun s => s.lst_string ≠ theEnd || s.out_string ≠ theEnd) (Scan.round fuel) fuel

/-- What a process has put out, and how much of it earlier sectors have had. -/
structure Recorder where
  OUT : List Text
  OutIndex : Nat

/-- The verdict on a sector. -/
def ok_sector_express (is_parallel : Bool) (fuel : Nat) (isql : Recorder) (expect : List Text) :
    Option (Bool × Recorder) :=
  if is_parallel then
    (parallelLoop fuel ⟨expect, isql.OUT.drop isql.OutIndex, [], [], true⟩).map fun s =>
      -- more than one expected line is left, and the sector passes
      (if 1 < s.lst.length then true else s.sector_result,
        { isql with OutIndex := isql.OUT.length })
  else
    (singleLoop fuel ⟨expect, isql.OUT, [], [], true⟩).map fun s =>
      (s.sector_result, { isql with OUT := [] })

/-! ## Its purpose -/

/-- A line that is compared, without its mark, and the number of lines behind it. -/
structure Mark where
  text : Text
  behind : Nat
  deriving DecidableEq

/-- The lines that are compared; the flag tells whether the list begins inside an error. -/
def marks (pass : Text → Bool) : Bool → List Text → List Mark
  | _, [] => []
  | true, l :: ls => marks pass (!closes l) ls
  | false, l :: ls =>
    if opens l then marks pass true ls
    else if pass l then marks pass false ls
    else ⟨strip l, ls.length⟩ :: marks pass false ls

def filteredLst (expect : List Text) : List Text := (marks passed false expect).map Mark.text

def filteredOut (got : List Text) : List Text := (marks passedOut false got).map Mark.text

/-- The list ends inside an error. -/
def unclosed : Bool → List Text → Bool
  | b, [] => b
  | true, l :: ls => unclosed (!closes l) ls
  | false, l :: ls => unclosed (opens l) ls

def Returns (is_parallel : Bool) (isql : Recorder) (expect : List Text) (verdict : Bool) : Prop :=
  ∃ fuel after, ok_sector_express is_parallel fuel isql expect = some (verdict, after)

/-- Both branches return, and the verdict of both is whether the filtered lists are equal. -/
def Judged (expect got : List Text) : Prop :=
  ∃ verdict : Bool, (verdict = true ↔ filteredOut got = filteredLst expect) ∧
    (∀ old, Returns true ⟨old ++ got, old.length⟩ expect verdict) ∧
    ∀ n, Returns false ⟨got, n⟩ expect verdict

/-- The number of lines behind the last of the given ones, of `n` lines in all. -/
def left (n : Nat) (ms : List Mark) : Nat := (ms.getLast?.map Mark.behind).getD n

/-- The lists differ where the loops can see it: no line in front of the difference is the mark of
the end, and none is met by the end of the other list; of the `n` recorded lines some are left
there, and not more than one expected line is left behind it. -/
def Visible (n : Nat) (lst out : List Mark) : Prop :=
  ∃ lead leadOut rest restOut, lst = lead ++ rest ∧ out = leadOut ++ restOut ∧
    leadOut.map Mark.text = lead.map Mark.text ∧ theEnd ∉ lead.map Mark.text ∧
    (restOut.head?.map Mark.text).getD theEnd ≠ (rest.head?.map Mark.text).getD theEnd ∧
    0 < left n leadOut ∧ ∀ m ∈ rest.head?, m.behind ≤ 1

/-- Where the filtered lists are equal, every error is closed, or the loops end at a line in front
of it that looks like the mark of the end; where they are not, every error is closed and the
difference is visible. -/
def Comparable (expect got : List Text) : Prop :=
  if filteredOut got = filteredLst expect then
    (unclosed false expect = false ∧ unclosed false got = false) ∨
      (theEnd ∈ filteredLst expect ∧ left got.length (marks passedOut false got) = 0)
  else unclosed false expect = false ∧ unclosed false got = false ∧
    Visible got.length (marks passed false expect) (marks passedOut false got)

section marks

variable {a b : Text} {n m k : Nat} {lst out : List Mark}

theorem left_cons (m : Mark) (ms : List Mark) : left n (m :: ms) = left m.behind ms := by
  cases ms <;> simp [left, List.getLast?_cons]

theorem visible_same : Visible k (⟨a, n⟩ :: lst) (⟨a, m⟩ :: out) ↔
    a ≠ theEnd ∧ Visible m lst out := by
  constructor
  · rintro ⟨lead, leadOut, rest, restOut, hl, ho, htext, hend, hne, hleft, hrest⟩
    cases lead with
    | nil =>
      obtain rfl : leadOut = [] := by simpa using htext
      obtain rfl : _ = rest := hl
      obtain rfl : _ = restOut := ho
      exact absurd rfl hne
    | cons x lead =>
      cases leadOut with
      | nil => simp at htext
      | cons y leadOut =>
        obtain ⟨rfl, rfl⟩ := List.cons.inj hl
        obtain ⟨rfl, rfl⟩ := List.cons.inj ho
        rw [left_cons] at hleft
        simp only [List.map_cons, List.mem_cons, not_or] at hend
        exact ⟨Ne.symm hend.1, lead, leadOut, rest, restOut, rfl, rfl, by simpa using htext,
          hend.2, hne, hleft, hrest⟩
  · rintro ⟨ha, lead, leadOut, rest, restOut, rfl, rfl, htext, hend, hne, hleft, hrest⟩
    refine ⟨⟨a, n⟩ :: lead, ⟨a, m⟩ :: leadOut, rest, restOut, rfl, rfl, by simp [htext], ?_, hne,
      by rwa [left_cons], hrest⟩
    simp only [List.map_cons, List.mem_cons, not_or]
    exact ⟨Ne.symm ha, hend⟩

/-- A difference at the first line. -/
theorem visible_of_ne
    (hne : (out.head?.map Mark.text).getD theEnd ≠ (lst.head?.map Mark.text).getD theEnd) :
    Visible k lst out ↔ 0 < k ∧ ∀ m ∈ lst.head?, m.behind ≤ 1 := by
  constructor
  · rintro ⟨lead, leadOut, rest, restOut, rfl, rfl, htext, hend, _, hleft, hrest⟩
    cases lead with
    | nil =>
      obtain rfl : leadOut = [] := by simpa using htext
      exact ⟨hleft, hrest⟩
    | cons x lead =>
      cases leadOut with
      | nil => simp at htext
      | cons y leadOut =>
        simp only [List.map_cons, List.cons.injEq] at htext
        simp [htext.1] at hne
  · rintro ⟨hk, hrest⟩
    exact ⟨[], [], lst, out, rfl, rfl, rfl, by simp, hne, hk, hrest⟩

/-- A line that looks like the mark of the end is met by the end of the other list. -/
theorem not_visible_of_end (hne : lst = [] ∨ out = [])
    (heq : (out.head?.map Mark.text).getD theEnd = (lst.head?.map Mark.text).getD theEnd) :
    ¬ Visible k lst out := by
  rintro ⟨lead, leadOut, rest, restOut, rfl, rfl, htext, _, hrest, _⟩
  have hlead : lead = [] := by
    obtain h | h := hne
    · exact (List.append_eq_nil_iff.mp h).1
    · rw [(List.append_eq_nil_iff.mp h).1] at htext
      simpa using htext.symm
  obtain rfl : leadOut = [] := by simpa [hlead] using htext
  rw [hlead] at heq
  exact hrest heq

end marks

/-! ## Skipping -/

/-- The lines from the next one that is compared on, `none` if the list ends inside an error. -/
def scan (pass : Text → Bool) : Bool → List Text → Option (List Text)
  | true, [] => none
  | false, [] => some []
  | true, l :: ls => scan pass (!closes l) ls
  | false, l :: ls =>
    if opens l then scan pass true ls
    else if pass l then scan pass false ls
    else some (l :: ls)

section skip

variable {pass : Text → Bool} {ls t : List Text}

theorem closeError_grows : Grows closeError := Grows.loop (Grows.const _)

theorem ends_closeError_nil (t : List Text) : ¬ Ends closeError [] t := by
  refine not_ends_loop (I := fun ls => ls = []) ?_ ?_ rfl t
  · rintro _ rfl
    rfl
  · rintro n _ t rfl h
    exact (Option.some.inj h).symm

theorem ends_closeError_of_closes {l : Text} (h : closes l = true) :
    Ends closeError (l :: ls) t ↔ t = l :: ls := ends_loop_of_not (by simp [h])

theorem ends_closeError_cons {l : Text} (h : closes l = false) :
    Ends closeError (l :: ls) t ↔ Ends closeError ls t := by
  have hround := @ends_loop _ (fun ls : List Text => !closes (ls.head?.getD []))
    (fun _ ls => some ls.tail) (Grows.const _) (l :: ls) t (by simp [h])
  simp only [ends_const, Option.some.injEq, exists_eq_left', List.tail_cons] at hround
  exact hround

theorem skipRound_grows : Grows skipRound := by
  refine Grows.map ?_ List.tail
  intro n k s t hle h
  dsimp only at h ⊢
  split at h
  · rw [if_pos ‹_›]
    exact closeError_grows n k s t hle h
  · rw [if_neg ‹_›]
    exact h

theorem skip_grows : Grows (skip pass) := Grows.loop skipRound_grows

theorem ends_skipRound_of_opens {l : Text} (h : opens l = true) :
    Ends skipRound (l :: ls) t ↔ ∃ u, Ends closeError (l :: ls) u ∧ u.tail = t := by
  simp [Ends, skipRound, h]
  exact ⟨fun ⟨n, u, hu, ht⟩ => ⟨u, ⟨n, hu⟩, ht⟩, fun ⟨u, ⟨n, hu⟩, ht⟩ => ⟨n, u, hu, ht⟩⟩

theorem ends_skipRound_of_not {l : Text} (h : opens l = false) :
    Ends skipRound (l :: ls) t ↔ t = ls := by
  simp [Ends, skipRound, h, eq_comm]

theorem ends_skip_of_not (h : (ls.head?.any fun l => pass l || opens l) = false) :
    Ends (skip pass) ls t ↔ t = ls := ends_loop_of_not h

theorem ends_skip_of {l : Text} (h : (pass l || opens l) = true) :
    Ends (skip pass) (l :: ls) t ↔ ∃ u, Ends skipRound (l :: ls) u ∧ Ends (skip pass) u t :=
  ends_loop skipRound_grows h

theorem opens_closes {l : Text} (h : opens l = true) : closes l = false := by
  simp only [opens, Bool.and_eq_true, Bool.not_eq_true'] at h
  exact h.2

theorem ends_skip_aux (ls : List Text) :
    (∀ t, Ends (skip pass) ls t ↔ scan pass false ls = some t) ∧
      ∀ t, (∃ u, Ends closeError ls u ∧ Ends (skip pass) u.tail t) ↔
        scan pass true ls = some t := by
  induction ls with
  | nil =>
    constructor
    · intro t
      rw [ends_skip_of_not (by simp), scan, Option.some.injEq, eq_comm]
    · intro t
      refine iff_of_false ?_ (by simp [scan])
      rintro ⟨u, hu, _⟩
      exact ends_closeError_nil u hu
  | cons l ls ih =>
    have hsecond : ∀ t, (∃ u, Ends closeError (l :: ls) u ∧ Ends (skip pass) u.tail t) ↔
        scan pass true (l :: ls) = some t := by
      intro t
      cases hc : closes l with
      | true => simp [ends_closeError_of_closes hc, scan, hc, ih.1]
      | false => simp [ends_closeError_cons hc, scan, hc, ih.2]
    refine ⟨?_, hsecond⟩
    intro t
    cases ho : opens l with
    | true =>
      have hiff := hsecond t
      rw [scan, opens_closes ho, Bool.not_false] at hiff
      rw [ends_skip_of (by simp [ho]), scan, if_pos ho, ← hiff]
      simp only [ends_skipRound_of_opens ho]
      exact ⟨fun ⟨_, ⟨u, hu, rfl⟩, ht⟩ => ⟨u, hu, ht⟩, fun ⟨u, hu, ht⟩ => ⟨_, ⟨u, hu, rfl⟩, ht⟩⟩
    | false =>
      cases hp : pass l with
      | true =>
        rw [ends_skip_of (by simp [hp])]
        simp [ends_skipRound_of_not ho, scan, ho, hp, ih.1]
      | false =>
        rw [ends_skip_of_not (by simp [ho, hp]), scan, if_neg (by simp [ho]),
          if_neg (by simp [hp]), Option.some.injEq, eq_comm]

theorem ends_skip : Ends (skip pass) ls t ↔ scan pass false ls = some t := (ends_skip_aux ls).1 t

/-- `scan` ends where the compared lines begin. -/
theorem scan_cases (pass : Text → Bool) (b : Bool) (ls : List Text) :
    (unclosed b ls = true ∧ scan pass b ls = none ∧ marks pass b ls = []) ∨
      (unclosed b ls = false ∧ scan pass b ls = some [] ∧ marks pass b ls = []) ∨
      ∃ l rest, scan pass b ls = some (l :: rest) ∧ pass l = false ∧ rest.length < ls.length ∧
        marks pass b ls = ⟨strip l, rest.length⟩ :: marks pass false rest ∧
        unclosed b ls = unclosed false rest := by
  induction ls generalizing b with
  | nil => cases b <;> simp [unclosed, scan, marks]
  | cons l ls ih =>
    have hstep : ∀ b', unclosed b (l :: ls) = unclosed b' ls →
        scan pass b (l :: ls) = scan pass b' ls → marks pass b (l :: ls) = marks pass b' ls →
        (unclosed b (l :: ls) = true ∧ scan pass b (l :: ls) = none ∧
          marks pass b (l :: ls) = []) ∨
        (unclosed b (l :: ls) = false ∧ scan pass b (l :: ls) = some [] ∧
          marks pass b (l :: ls) = []) ∨
        ∃ l' rest, scan pass b (l :: ls) = some (l' :: rest) ∧ pass l' = false ∧
          rest.length < (l :: ls).length ∧
          marks pass b (l :: ls) = ⟨strip l', rest.length⟩ :: marks pass false rest ∧
          unclosed b (l :: ls) = unclosed false rest := by
      intro b' hu hs hm
      rw [hu, hs, hm]
      obtain h | h | ⟨l', rest, h1, h2, h3, h4, h5⟩ := ih b'
      · exact .inl h
      · exact .inr (.inl h)
      · exact .inr (.inr ⟨l', rest, h1, h2, by simp only [List.length_cons]; omega, h4, h5⟩)
    cases b with
    | true => exact hstep (!closes l) rfl rfl rfl
    | false =>
      cases ho : opens l with
      | true => exact hstep true (by simp [unclosed, ho]) (by simp [scan, ho]) (by simp [marks, ho])
      | false =>
        cases hp : pass l with
        | true =>
          exact hstep false (by simp [unclosed, ho]) (by simp [scan, ho, hp])
            (by simp [marks, ho, hp])
        | false =>
          refine .inr (.inr ⟨l, ls, ?_, hp, by simp, ?_, ?_⟩)
          · simp [scan, ho, hp]
          · simp [marks, ho, hp]
          · simp [unclosed, ho]

end skip

/-! ## The loops -/

section loops

variable {s t : Scan}

theorem round_grows : Grows fun fuel s => Scan.round fuel s := by
  intro n k s t hle h
  obtain ⟨lst, hlst, h'⟩ := Option.bind_eq_some_iff.mp h
  obtain ⟨out, hout, rfl⟩ := Option.map_eq_some_iff.mp h'
  refine Option.bind_eq_some_iff.mpr ⟨lst, skip_grows n k _ _ hle hlst, ?_⟩
  exact Option.map_eq_some_iff.mpr ⟨out, skip_grows n k _ _ hle hout, rfl⟩

theorem ends_round : Ends (fun fuel s => Scan.round fuel s) s t ↔
    ∃ lst out, scan passed false s.lst = some lst ∧ scan passedOut false s.out = some out ∧
      s.compare lst out = t := by
  constructor
  · rintro ⟨n, h⟩
    obtain ⟨lst, hlst, h'⟩ := Option.bind_eq_some_iff.mp h
    obtain ⟨out, hout, rfl⟩ := Option.map_eq_some_iff.mp h'
    exact ⟨lst, out, ends_skip.mp ⟨n, hlst⟩, ends_skip.mp ⟨n, hout⟩, rfl⟩
  · rintro ⟨lst, out, hlst, hout, rfl⟩
    obtain ⟨n, hn⟩ := ends_skip.mpr hlst
    obtain ⟨k, hk⟩ := ends_skip.mpr hout
    refine ⟨max n k, Option.bind_eq_some_iff.mpr ⟨lst, ?_, ?_⟩⟩
    · exact skip_grows n _ _ _ (le_max_left n k) hn
    · exact Option.map_eq_some_iff.mpr ⟨out, skip_grows k _ _ _ (le_max_right n k) hk, rfl⟩

theorem ends_parallelLoop_of_not (h : (s.sector_result && !s.out.isEmpty) = false) :
    Ends parallelLoop s t ↔ t = s := ends_loop_of_not h

theorem ends_parallelLoop (h : (s.sector_result && !s.out.isEmpty) = true) :
    Ends parallelLoop s t ↔ ∃ lst out, scan passed false s.lst = some lst ∧
      scan passedOut false s.out = some out ∧ Ends parallelLoop (s.compare lst out) t := by
  have hround := @ends_loop _ (fun s : Scan => s.sector_result && !s.out.isEmpty) _ round_grows s t h
  simp only [ends_round] at hround
  refine Iff.trans hround ?_
  exact ⟨fun ⟨_, ⟨lst, out, hl, ho, rfl⟩, ht⟩ => ⟨lst, out, hl, ho, ht⟩,
    fun ⟨lst, out, hl, ho, ht⟩ => ⟨_, ⟨lst, out, hl, ho, rfl⟩, ht⟩⟩

theorem ends_singleLoop_of_not (h : s.lst_string = theEnd ∧ s.out_string = theEnd) :
    Ends singleLoop s t ↔ t = s := ends_loop_of_not (by simp [h.1, h.2])

theorem ends_singleLoop (h : ¬ (s.lst_string = theEnd ∧ s.out_string = theEnd)) :
    Ends singleLoop s t ↔ ∃ lst out, scan passed false s.lst = some lst ∧
      scan passedOut false s.out = some out ∧ Ends singleLoop (s.compare lst out) t := by
  have hround := @ends_loop _ (fun s : Scan => s.lst_string ≠ theEnd || s.out_string ≠ theEnd) _
    round_grows s t (by simpa only [Bool.or_eq_true, decide_eq_true_eq, ne_eq, ← not_and_or])
  simp only [ends_round] at hround
  refine Iff.trans hround ?_
  exact ⟨fun ⟨_, ⟨lst, out, hl, ho, rfl⟩, ht⟩ => ⟨lst, out, hl, ho, ht⟩,
    fun ⟨lst, out, hl, ho, ht⟩ => ⟨_, ⟨lst, out, hl, ho, rfl⟩, ht⟩⟩

end loops

section runs

variable {lst out : List Text} {x y : Text} {v : Bool}

/-- The verdict of the branch for parallel tests, from these lines and strings on. -/
def Parallel (lst out : List Text) (x y : Text) (v : Bool) : Prop :=
  ∃ t, Ends parallelLoop ⟨lst, out, x, y, true⟩ t ∧
    (if 1 < t.lst.length then true else t.sector_result) = v

/-- The verdict of the branch for a single process. -/
def Single (lst out : List Text) (x y : Text) (v : Bool) : Prop :=
  ∃ t, Ends singleLoop ⟨lst, out, x, y, true⟩ t ∧ t.sector_result = v

theorem parallel_nil : Parallel lst [] x y v ↔ v = true := by
  simp only [Parallel, ends_parallelLoop_of_not (s := ⟨lst, [], x, y, true⟩) rfl, exists_eq_left]
  simp [eq_comm]

theorem parallel_step (hne : out ≠ []) : Parallel lst out x y v ↔
    ∃ l o, scan passed false lst = some l ∧ scan passedOut false out = some o ∧
      if strip (o.head?.getD theEnd) = strip (l.head?.getD theEnd) then
        Parallel l.tail o.tail (strip (l.head?.getD theEnd)) (strip (o.head?.getD theEnd)) v
      else v = decide (1 < l.tail.length) := by
  have htest : (true && !out.isEmpty) = true := by simpa using hne
  have hround : ∀ l o, (∃ t, Ends parallelLoop (Scan.compare ⟨lst, out, x, y, true⟩ l o) t ∧
      (if 1 < t.lst.length then true else t.sector_result) = v) ↔
      if strip (o.head?.getD theEnd) = strip (l.head?.getD theEnd) then
        Parallel l.tail o.tail (strip (l.head?.getD theEnd)) (strip (o.head?.getD theEnd)) v
      else v = decide (1 < l.tail.length) := by
    intro l o
    split
    · simp [Scan.compare, Parallel, *]
    · rename_i hdiff
      simp only [Scan.compare, hdiff, if_true, decide_false]
      simp only [ends_parallelLoop_of_not, Bool.false_and, exists_eq_left]
      simp [eq_comm]
  refine Iff.trans ?_ (exists₂_congr fun l o => and_congr_right' (and_congr_right' (hround l o)))
  rw [Parallel]
  simp only [ends_parallelLoop (s := ⟨lst, out, x, y, true⟩) htest]
  constructor
  · rintro ⟨t, ⟨l, o, hl, ho, ht⟩, hv⟩
    exact ⟨l, o, hl, ho, t, ht, hv⟩
  · rintro ⟨l, o, hl, ho, t, ht, hv⟩
    exact ⟨t, ⟨l, o, hl, ho, ht⟩, hv⟩

theorem ne_theEnd_of_passed {l : Text} (h : passed l = false) : l ≠ theEnd := by
  rintro rfl
  revert h
  decide

theorem ne_theEnd_of_passedOut {l : Text} (h : passedOut l = false) : l ≠ theEnd := by
  rintro rfl
  revert h
  decide

/-- Behind a difference the loop goes on to the ends of both lists. -/
theorem single_false (h : ¬ (x = theEnd ∧ y = theEnd)) :
    (∃ t, Ends singleLoop ⟨lst, out, x, y, false⟩ t ∧ t.sector_result = v) ↔
      v = false ∧ unclosed false lst = false ∧ unclosed false out = false := by
  induction hn : lst.length + out.length using Nat.strong_induction_on
    generalizing lst out x y with
  | _ n ih =>
    simp only [ends_singleLoop (s := ⟨lst, out, x, y, false⟩) h]
    obtain ⟨hu, hs, _⟩ | hlst := scan_cases passed false lst
    · simp [hs, hu]
    obtain ⟨hu, hs, _⟩ | hout := scan_cases passedOut false out
    · simp [hs, hu]
    obtain ⟨hul, hsl, _⟩ | ⟨l, restl, hsl, hpl, hlenl, _, hul⟩ := hlst <;>
      obtain ⟨huo, hso, _⟩ | ⟨o, resto, hso, hpo, hleno, _, huo⟩ := hout
    · simp [hsl, hso, hul, huo, Scan.compare, ends_singleLoop_of_not, eq_comm]
    · have hrest := @ih resto.length (by omega) [] resto theEnd o
        (fun h => ne_theEnd_of_passedOut hpo h.2) (by simp)
      simpa [hsl, hso, hul, huo, Scan.compare, unclosed] using hrest
    · have hrest := @ih restl.length (by omega) restl [] l theEnd
        (fun h => ne_theEnd_of_passed hpl h.1) (by simp)
      simpa [hsl, hso, hul, huo, Scan.compare, unclosed] using hrest
    · have hrest := @ih (restl.length + resto.length) (by omega) restl resto l o
        (fun h => ne_theEnd_of_passed hpl h.1) rfl
      simpa [hsl, hso, hul, huo, Scan.compare] using hrest

theorem single_step (h : ¬ (x = theEnd ∧ y = theEnd)) : Single lst out x y v ↔
    ∃ l o, scan passed false lst = some l ∧ scan passedOut false out = some o ∧
      if strip (o.head?.getD theEnd) = strip (l.head?.getD theEnd) then
        if strip (l.head?.getD theEnd) = theEnd then v = true
        else Single l.tail o.tail (strip (l.head?.getD theEnd)) (strip (o.head?.getD theEnd)) v
      else v = false ∧ unclosed false l.tail = false ∧ unclosed false o.tail = false := by
  have hround : ∀ l o, (∃ t, Ends singleLoop (Scan.compare ⟨lst, out, x, y, true⟩ l o) t ∧
      t.sector_result = v) ↔
      if strip (o.head?.getD theEnd) = strip (l.head?.getD theEnd) then
        if strip (l.head?.getD theEnd) = theEnd then v = true
        else Single l.tail o.tail (strip (l.head?.getD theEnd)) (strip (o.head?.getD theEnd)) v
      else v = false ∧ unclosed false l.tail = false ∧ unclosed false o.tail = false := by
    intro l o
    split
    · rename_i hsame
      split
      · rename_i hend
        simp [Scan.compare, hsame, hend, ends_singleLoop_of_not, eq_comm]
      · simp [Scan.compare, Single, hsame]
    · rename_i hdiff
      rw [← single_false (x := strip (l.head?.getD theEnd)) (y := strip (o.head?.getD theEnd))
        (fun h => hdiff (h.2.trans h.1.symm))]
      simp [Scan.compare, hdiff]
  refine Iff.trans ?_ (exists₂_congr fun l o => and_congr_right' (and_congr_right' (hround l o)))
  rw [Single]
  simp only [ends_singleLoop (s := ⟨lst, out, x, y, true⟩) h]
  constructor
  · rintro ⟨t, ⟨l, o, hl, ho, ht⟩, hv⟩
    exact ⟨l, o, hl, ho, t, ht, hv⟩
  · rintro ⟨l, o, hl, ho, t, ht, hv⟩
    exact ⟨t, ⟨l, o, hl, ho, ht⟩, hv⟩

/-- Equal filtered lists pass in the branch for parallel tests, if it ends. -/
theorem parallel_of_eq (h : filteredOut out = filteredLst lst) : Parallel lst out x y true ↔
    (unclosed false lst = false ∧ unclosed false out = false) ∨
      left out.length (marks passedOut false out) = 0 := by
  induction hn : lst.length using Nat.strong_induction_on generalizing lst out x y with
  | _ n ih =>
    cases out with
    | nil => simp [parallel_nil, left, marks]
    | cons d ds =>
      rw [parallel_step (List.cons_ne_nil d ds)]
      rw [filteredOut, filteredLst] at h
      obtain ⟨hul, hsl, hml⟩ | ⟨hul, hsl, hml⟩ | ⟨l, restl, hsl, _, hlenl, hml, hul⟩ :=
        scan_cases passed false lst <;>
      obtain ⟨huo, hso, hmo⟩ | ⟨huo, hso, hmo⟩ | ⟨o, resto, hso, _, _, hmo, huo⟩ :=
        scan_cases passedOut false (d :: ds) <;>
      simp only [hml, hmo, List.map_cons, List.map_nil, reduceCtorEq, List.cons.injEq] at h
      · simp [hsl, hul, hmo, left]
      · simp [hsl, hul, hmo, left]
      · simp [hso, huo, hmo, left]
      · simp [hsl, hso, hul, huo, parallel_nil]
      · have hrest := @ih restl.length (by omega) restl resto (strip l) (strip o) h.2 rfl
        simpa [hsl, hso, hul, huo, hmo, left_cons, h.1] using hrest

/-- The branches return the right verdict. -/
def Passes (lst out : List Text) (x y : Text) : Prop :=
  ∃ v : Bool, (v = true ↔ filteredOut out = filteredLst lst) ∧ Parallel lst out x y v ∧
    Single lst out x y v

theorem not_passes (h : ¬ (x = theEnd ∧ y = theEnd))
    (hnone : scan passed false lst = none ∨ scan passedOut false out = none) :
    ¬ Passes lst out x y := by
  rintro ⟨v, _, _, hsingle⟩
  obtain ⟨l, o, hl, ho, _⟩ := (single_step h).mp hsingle
  obtain hnone | hnone := hnone
  · exact Option.some_ne_none l (hl.symm.trans hnone)
  · exact Option.some_ne_none o (ho.symm.trans hnone)

/-- The lines that are reached differ. -/
theorem passes_of_ne (h : ¬ (x = theEnd ∧ y = theEnd)) {l o : List Text}
    (hl : scan passed false lst = some l) (ho : scan passedOut false out = some o)
    (hne : strip (o.head?.getD theEnd) ≠ strip (l.head?.getD theEnd))
    (hdiff : filteredOut out ≠ filteredLst lst) : Passes lst out x y ↔
      (unclosed false l.tail = false ∧ unclosed false o.tail = false) ∧
        out ≠ [] ∧ l.tail.length ≤ 1 := by
  have hsingle : ∀ v, Single lst out x y v ↔
      v = false ∧ unclosed false l.tail = false ∧ unclosed false o.tail = false := by
    intro v
    simp [single_step h, hl, ho, hne]
  have hparallel : Parallel lst out x y false ↔ out ≠ [] ∧ l.tail.length ≤ 1 := by
    by_cases hnil : out = []
    · simp [hnil, parallel_nil]
    · simp [parallel_step hnil, hl, ho, hne, hnil]
  rw [Passes, ← hparallel]
  constructor
  · rintro ⟨v, _, hp, hs⟩
    obtain ⟨rfl, hclosed⟩ := (hsingle v).mp hs
    exact ⟨hclosed, hp⟩
  · rintro ⟨hclosed, hp⟩
    exact ⟨false, by simp [hdiff], hp, (hsingle false).mpr ⟨rfl, hclosed⟩⟩

/-- The lines that are reached both look like the mark of the end. -/
theorem passes_of_end (h : ¬ (x = theEnd ∧ y = theEnd)) {l o : List Text}
    (hl : scan passed false lst = some l) (ho : scan passedOut false out = some o)
    (hout : strip (o.head?.getD theEnd) = theEnd) (hlst : strip (l.head?.getD theEnd) = theEnd) :
    Passes lst out x y ↔ filteredOut out = filteredLst lst ∧ Parallel lst out x y true := by
  have hsingle : ∀ v, Single lst out x y v ↔ v = true := by
    intro v
    simp [single_step h, hl, ho, hout, hlst]
  simp only [Passes, hsingle]
  constructor
  · rintro ⟨v, hiff, hp, rfl⟩
    exact ⟨hiff.mp rfl, hp⟩
  · rintro ⟨heq, hp⟩
    exact ⟨true, by simp [heq], hp, rfl⟩

/-- What is known of the lines that `scan` stops at. -/
structure Reached (pass : Text → Bool) (ls l : List Text) : Prop where
  head : strip (l.head?.getD theEnd) = ((marks pass false ls).head?.map Mark.text).getD theEnd
  rest : unclosed false ls = unclosed false l.tail
  behind : (∀ m ∈ (marks pass false ls).head?, m.behind ≤ 1) ↔ l.tail.length ≤ 1

theorem reached {pass : Text → Bool} {ls l : List Text} (h : scan pass false ls = some l) :
    Reached pass ls l := by
  obtain ⟨_, hs, _⟩ | ⟨hu, hs, hm⟩ | ⟨l', rest, hs, _, _, hm, hu⟩ := scan_cases pass false ls <;>
    rw [hs] at h
  · cases h
  · obtain rfl := Option.some.inj h
    exact ⟨by rw [hm]; rfl, hu, by simp [hm]⟩
  · obtain rfl := Option.some.inj h
    exact ⟨by simp [hm], hu, by simp [hm]⟩

theorem passes_iff_of_ne (h : ¬ (x = theEnd ∧ y = theEnd)) {l o : List Text}
    (hl : scan passed false lst = some l) (ho : scan passedOut false out = some o)
    (hne : strip (o.head?.getD theEnd) ≠ strip (l.head?.getD theEnd)) :
    Passes lst out x y ↔ Comparable lst out := by
  have hrl := reached hl
  have hro := reached ho
  have hhead := hne
  rw [hrl.head, hro.head] at hhead
  have hdiff : filteredOut out ≠ filteredLst lst := by
    intro heq
    rw [← List.head?_map, ← List.head?_map] at hhead
    exact hhead (congrArg (fun ls => (List.head? ls).getD theEnd) heq)
  rw [passes_of_ne h hl ho hne hdiff, Comparable, if_neg hdiff, visible_of_ne hhead, hrl.behind,
    hrl.rest, hro.rest, List.length_pos_iff, and_assoc]

/-- The lines that are reached are equal. -/
theorem passes_of_same (h : ¬ (x = theEnd ∧ y = theEnd)) {l o : Text} {restl resto : List Text}
    (hl : scan passed false lst = some (l :: restl))
    (ho : scan passedOut false out = some (o :: resto)) (hne : out ≠ [])
    (hsame : strip o = strip l) (hend : strip l ≠ theEnd)
    (hiff : filteredOut out = filteredLst lst ↔ filteredOut resto = filteredLst restl) :
    Passes lst out x y ↔ Passes restl resto (strip l) (strip o) := by
  simp only [Passes, hiff, parallel_step hne, single_step h, hl, ho, Option.some.injEq]
  simp [hsame, hend]

theorem comparable_of_same {a : Text} {restl resto : List Text}
    (hml : marks passed false lst = ⟨a, restl.length⟩ :: marks passed false restl)
    (hmo : marks passedOut false out = ⟨a, resto.length⟩ :: marks passedOut false resto)
    (hul : unclosed false lst = unclosed false restl)
    (huo : unclosed false out = unclosed false resto) (ha : a ≠ theEnd) :
    Comparable lst out ↔ Comparable restl resto := by
  simp [Comparable, filteredOut, filteredLst, hml, hmo, hul, huo, left_cons, visible_same, ha,
    ha.symm]

theorem passes_iff (h : ¬ (x = theEnd ∧ y = theEnd)) :
    Passes lst out x y ↔ Comparable lst out := by
  induction hn : lst.length using Nat.strong_induction_on generalizing lst out x y with
  | _ n ih =>
    obtain ⟨hul, hsl, hml⟩ | hlst := scan_cases passed false lst
    · refine iff_of_false (not_passes h (.inl hsl)) ?_
      simp [Comparable, filteredLst, hml, hul]
    obtain ⟨huo, hso, hmo⟩ | hout := scan_cases passedOut false out
    · refine iff_of_false (not_passes h (.inr hso)) ?_
      rw [Comparable]
      split
      · rename_i heq
        simp [← heq, filteredOut, hmo, huo]
      · simp [huo]
    obtain ⟨hul, hsl, hml⟩ | ⟨l, restl, hsl, _, hlenl, hml, hul⟩ := hlst <;>
      obtain ⟨huo, hso, hmo⟩ | ⟨o, resto, hso, _, hleno, hmo, huo⟩ := hout
    · -- both lists have ended
      have heq : filteredOut out = filteredLst lst := by simp [filteredOut, filteredLst, hml, hmo]
      have hc : Comparable lst out := by simp [Comparable, heq, hul, huo]
      refine iff_of_true ((passes_of_end h hsl hso rfl rfl).mpr ⟨heq, ?_⟩) hc
      exact (parallel_of_eq heq).mpr (.inl ⟨hul, huo⟩)
    · -- the expected lines have ended
      by_cases he : strip o = theEnd
      · have hdiff : filteredOut out ≠ filteredLst lst := by
          simp [filteredOut, filteredLst, hml, hmo]
        rw [passes_of_end h hsl hso he rfl, Comparable, if_neg hdiff]
        refine iff_of_false (fun h => hdiff h.1) fun h => ?_
        exact not_visible_of_end (.inl hml) (by simp [hml, hmo, he]) h.2.2
      · exact passes_iff_of_ne h hsl hso he
    · -- the recorded lines have ended
      by_cases he : strip l = theEnd
      · have hdiff : filteredOut out ≠ filteredLst lst := by
          simp [filteredOut, filteredLst, hml, hmo]
        rw [passes_of_end h hsl hso rfl he, Comparable, if_neg hdiff]
        refine iff_of_false (fun h => hdiff h.1) fun h => ?_
        exact not_visible_of_end (.inr hmo) (by simp [hml, hmo, he]) h.2.2
      · exact passes_iff_of_ne h hsl hso (Ne.symm he)
    · by_cases hsame : strip o = strip l
      · have hiff : filteredOut out = filteredLst lst ↔ filteredOut resto = filteredLst restl := by
          simp [filteredOut, filteredLst, hml, hmo, hsame]
        have hmo' := hsame ▸ hmo
        by_cases he : strip l = theEnd
        · rw [passes_of_end h hsl hso (hsame.trans he) he, Comparable]
          by_cases heq : filteredOut out = filteredLst lst
          · have hmem : theEnd ∈ filteredLst lst := by simp [filteredLst, hml, he]
            rw [if_pos heq, and_iff_right heq, parallel_of_eq heq, and_iff_right hmem]
          · rw [if_neg heq, hml, hmo', visible_same]
            exact iff_of_false (fun h => heq h.1) fun h => h.2.2.1 he
        · have hne : out ≠ [] := List.ne_nil_of_length_pos (by omega)
          rw [passes_of_same h hsl hso hne hsame he hiff,
            comparable_of_same hml hmo' hul huo he]
          exact ih restl.length (by omega) (fun h => he h.1) rfl
      · exact passes_iff_of_ne h hsl hso hsame

theorem returns_parallel (old expect got : List Text) (v : Bool) :
    Returns true ⟨old ++ got, old.length⟩ expect v ↔ Parallel expect got [] [] v := by
  simp only [Returns, ok_sector_express, if_true, List.drop_left, Option.map_eq_some_iff,
    Prod.mk.injEq, Parallel]
  constructor
  · rintro ⟨fuel, _, t, ht, hv, _⟩
    exact ⟨t, ⟨fuel, ht⟩, hv⟩
  · rintro ⟨t, ⟨fuel, ht⟩, hv⟩
    exact ⟨fuel, _, t, ht, hv, rfl⟩

theorem returns_single (n : Nat) (expect got : List Text) (v : Bool) :
    Returns false ⟨got, n⟩ expect v ↔ Single expect got [] [] v := by
  simp only [Returns, ok_sector_express, Bool.false_eq_true, if_false, Option.map_eq_some_iff,
    Prod.mk.injEq, Single]
  constructor
  · rintro ⟨fuel, _, t, ht, hv, _⟩
    exact ⟨t, ⟨fuel, ht⟩, hv⟩
  · rintro ⟨t, ⟨fuel, ht⟩, hv⟩
    exact ⟨fuel, _, t, ht, hv, rfl⟩

/-- In which cases the comparison is right. -/
theorem judged_iff (expect got : List Text) : Judged expect got ↔ Comparable expect got := by
  have hstart : ¬ (([] : Text) = theEnd ∧ ([] : Text) = theEnd) := fun h => by cases h.1
  rw [← passes_iff hstart]
  simp only [Judged, Passes, returns_parallel, returns_single, forall_const]

/-- In the branch for parallel tests a sector passes although another line was recorded than was
expected, as two more were expected. -/
theorem not_judged_rest :
    ¬ Judged [['.', ' ', 'a'], ['.', ' ', 'b'], ['.', ' ', 'c']] [['.', ' ', 'x']] := by
  rintro ⟨v, hv, hparallel, -⟩
  have h := (returns_parallel [] _ _ v).mp (hparallel [])
  obtain ⟨l, o, hl, ho, h⟩ := (parallel_step (List.cons_ne_nil _ _)).mp h
  obtain rfl : [['.', ' ', 'a'], ['.', ' ', 'b'], ['.', ' ', 'c']] = l := Option.some.inj hl
  obtain rfl : [['.', ' ', 'x']] = o := Option.some.inj ho
  obtain rfl : v = true := by simpa [strip] using h
  exact absurd (hv.mp rfl) (by decide)

end runs

end Natc.Harness
