import Natc.Ecm.ReadFile
import Mathlib.Tactic.Ring

/-!
# The lines of a TDX file

The lines of the file are those that begin with the prefix of an entry, and the others. What the
two loops of `readFile` make of each is stated once; each line fills its own row.
-/

namespace Natc.Ecm

open Lib

/-- A line of the file: the prefix of an entry with what follows it, or any other. -/
inductive FileLine where
  | start (e : Entry) (rest : Text)
  | more (line : Text)

namespace FileLine

def text : FileLine → Text
  | start e rest => e.makeTdxPrefix ++ rest
  | more line => line

/-- The entry whose prefix begins the line. -/
def entry? : FileLine → Option Entry
  | start e _ => some e
  | more _ => none

/-- A character in front of the first line. -/
def consLine (c : Char) : List FileLine → List FileLine
  | [] => [more [c]]
  | b :: bs => more (c :: b.text) :: bs

def addText : Text → List FileLine → List FileLine
  | [], L => L
  | c :: cs, L => if c = '\n' then more [] :: addText cs L else consLine c (addText cs L)

def addEntry (e : Entry) (L : List FileLine) : List FileLine :=
  match addText e.text L with
  | [] => [start e []]
  | b :: bs => start e b.text :: bs

def ends : List FileLine := [more [], more endMark]

end FileLine

open FileLine

/-- The lines of the file for `es`. -/
def fileLines (es : List Entry) : List FileLine := es.foldr addEntry ends

section Lines

theorem readLines_newline (cs : Text) : readLines ('\n' :: cs) = [] :: readLines cs := by
  rw [readLines]
  · simp
  · simp

theorem readLines_cons {c : Char} (hn : c ≠ '\n') (hr : c ≠ '\r') (cs : Text) :
    readLines (c :: cs) = consHead c (readLines cs) := by
  rw [readLines]
  · simp [hn, hr]
  · simp [hr]

theorem addText_ne_nil (t : Text) {L : List FileLine} (hL : L ≠ []) : addText t L ≠ [] := by
  induction t with
  | nil => exact hL
  | cons c cs ih =>
    rw [addText]
    split
    · exact List.cons_ne_nil _ _
    · cases h : addText cs L with
      | nil => exact absurd h ih
      | cons b bs => exact List.cons_ne_nil _ _

theorem addEntry_ne_nil (e : Entry) (L : List FileLine) : addEntry e L ≠ [] := by
  rw [addEntry]
  split <;> exact List.cons_ne_nil _ _

theorem fileLines_ne_nil (es : List Entry) : fileLines es ≠ [] := by
  cases es with
  | nil => exact List.cons_ne_nil _ _
  | cons e es => exact addEntry_ne_nil e _

theorem map_text_consLine (c : Char) {L : List FileLine} (hL : L ≠ []) :
    (consLine c L).map text = consHead c (L.map text) := by
  cases L with
  | nil => exact absurd rfl hL
  | cons b bs => rfl

theorem readLines_text {t s : Text} {L : List FileLine} (hL : L ≠ []) (ht : '\r' ∉ t)
    (hs : readLines s = L.map text) : readLines (t ++ s) = (addText t L).map text := by
  induction t with
  | nil => exact hs
  | cons c cs ih =>
    rw [List.mem_cons, not_or] at ht
    obtain ⟨hc, hcs⟩ := ht
    rw [List.cons_append, addText]
    split
    · rename_i hnl
      subst hnl
      rw [readLines_newline, ih hcs]
      rfl
    · rename_i hnl
      rw [readLines_cons hnl (Ne.symm hc), ih hcs, map_text_consLine c (addText_ne_nil cs hL)]

/-- A stretch without line ends comes in front of the first line. -/
theorem readLines_stretch {w s : Text} {l : Text} {ls : List Text} (hw : '\n' ∉ w ∧ '\r' ∉ w)
    (hs : readLines s = l :: ls) : readLines (w ++ s) = (w ++ l) :: ls := by
  induction w with
  | nil => exact hs
  | cons c cs ih =>
    simp only [List.mem_cons, not_or] at hw
    obtain ⟨⟨hn, hns⟩, hr, hrs⟩ := hw
    rw [List.cons_append, readLines_cons (Ne.symm hn) (Ne.symm hr), ih ⟨hns, hrs⟩]
    rfl

theorem decimal_isDigit {n : Nat} {c : Char} (hc : c ∈ decimal n) : c.isDigit = true := by
  rw [decimal] at hc
  exact Nat.isDigit_of_mem_toDigits (by decide) (by decide) hc

/-- A character of a prefix is a digit or stands in the mark, but for the `P`. -/
theorem notMem_makeTdxPrefix (e : Entry) {c : Char} (hd : c.isDigit = false)
    (hm : c ∉ startMark) (hc : c ∉ ['&', '^', 'P']) : c ∉ e.makeTdxPrefix := by
  have hnum : ∀ n, c ∉ decimal n := by
    intro n h
    simp [decimal_isDigit h] at hd
  intro h
  simp only [Entry.makeTdxPrefix, List.mem_append, List.mem_cons, List.not_mem_nil, or_false] at h
  simp only [List.mem_cons, List.not_mem_nil, or_false, not_or] at hc
  simp [hm, hnum, hc] at h

theorem readLines_entry {s : Text} {L : List FileLine} (hL : L ≠ []) (e : Entry)
    (he : '\r' ∉ e.text) (hs : readLines s = L.map text) :
    readLines (e.recorded ++ s) = (addEntry e L).map text := by
  have htext := readLines_text hL he hs
  rw [Entry.recorded, List.append_assoc, addEntry]
  cases hadd : addText e.text L with
  | nil => exact absurd hadd (addText_ne_nil _ hL)
  | cons b bs =>
    rw [hadd] at htext
    rw [readLines_stretch ⟨notMem_makeTdxPrefix e (by decide) (by decide) (by decide),
      notMem_makeTdxPrefix e (by decide) (by decide) (by decide)⟩ htext]
    rfl

theorem readLines_body {es : List Entry} (hes : ∀ e ∈ es, '\r' ∉ e.text) :
    readLines (es.flatMap Entry.recorded ++ '\n' :: endMark) = (fileLines es).map text := by
  induction es with
  | nil => decide
  | cons e es ih =>
    rw [List.forall_mem_cons] at hes
    rw [List.flatMap_cons, List.append_assoc]
    exact readLines_entry (fileLines_ne_nil es) e hes.1 (ih hes.2)

end Lines

section Tokens

theorem tokenize_gap (s t : Text) : tokenize (s ++ '&' :: '^' :: t) = tokenize s ++ tokenize t := by
  have hgap : tokenize ('^' :: t) = tokenize t := tokens_append (c := '^') rfl [] t
  rw [tokenize, tokens_append (c := '&') rfl s]
  exact congrArg (tokenize s ++ ·) hgap

theorem tokenize_word {w : Text} (ha : '&' ∉ w) (hx : '^' ∉ w) (hne : w ≠ []) :
    tokenize w = [w] := by
  apply tokens_word
  · intro c hc
    have hca : c ≠ '&' := fun h => ha (h ▸ hc)
    have hcx : c ≠ '^' := fun h => hx (h ▸ hc)
    simp [hca, hcx]
  · exact hne

theorem decimal_ne_nil (n : Nat) : decimal n ≠ [] := Nat.toDigits_ne_nil

theorem notMem_decimal {c : Char} (hc : c.isDigit = false) (n : Nat) : c ∉ decimal n := by
  intro h
  simp [decimal_isDigit h] at hc

theorem startMark_eq : startMark = '&' :: '^' :: endMark := by decide

/-- The tokens of a prefix, and those of what follows it. -/
theorem tokenize_prefix (e : Entry) (x : Text) : tokenize (e.makeTdxPrefix ++ x) =
    endMark :: decimal e.time :: ('P' :: decimal e.process) :: tokenize x := by
  have hshape : e.makeTdxPrefix ++ x = [] ++ '&' :: '^' :: (endMark ++ '&' :: '^' ::
      (decimal e.time ++ '&' :: '^' :: ('P' :: decimal e.process ++ '&' :: '^' :: x))) := by
    simp [Entry.makeTdxPrefix, startMark_eq]
  have hmark : tokenize endMark = [endMark] := by decide
  have htime : tokenize (decimal e.time) = [decimal e.time] :=
    tokenize_word (notMem_decimal rfl _) (notMem_decimal rfl _) (decimal_ne_nil _)
  have hprocess : tokenize ('P' :: decimal e.process) = ['P' :: decimal e.process] := by
    apply tokenize_word
    · simp [notMem_decimal]
    · simp [notMem_decimal]
    · exact List.cons_ne_nil _ _
  have hnone : tokenize [] = [] := by decide
  rw [hshape, tokenize_gap, tokenize_gap, tokenize_gap, tokenize_gap, hnone, hmark, htime, hprocess]
  rfl

theorem digits_decimal (n : Nat) : digits (decimal n) = some n := by
  have hall : (decimal n).all Char.isDigit = true := List.all_eq_true.mpr fun _ => decimal_isDigit
  rw [digits, if_pos ⟨decimal_ne_nil n, hall⟩, decimal, Nat.ofDigitChars_toDigits]
  · decide
  · decide

theorem decimal_injective : Function.Injective decimal := by
  intro m n h
  have hdigits := congrArg digits h
  rw [digits_decimal, digits_decimal] at hdigits
  exact Option.some.inj hdigits

/-- A text that begins with a digit has no sign. -/
theorem parseInt_digits {s : Text} {n : Nat} (hs : digits s = some n) (hn : n < 2 ^ 31) :
    parseInt s = some (n : Int) := by
  have hdigit : ∀ c cs, s = c :: cs → c.isDigit = true := by
    intro c cs h
    rw [digits] at hs
    split at hs
    · rename_i hok
      simp only [h, List.all_cons, Bool.and_eq_true] at hok
      exact hok.2.1
    · cases hs
  have hminus : ∀ cs, s ≠ '-' :: cs := fun cs h => by simpa using hdigit _ _ h
  have hplus : ∀ cs, s ≠ '+' :: cs := fun cs h => by simpa using hdigit _ _ h
  rw [parseInt.eq_3 s hminus hplus, hs]
  simpa using hn

/-- The first digit of a number, the only one that the second loop reads. -/
def lead (n : Nat) : Nat := Nat.ofDigitChars 10 ((decimal n).take 1) 0

theorem digits_lead (n : Nat) : digits ((decimal n).take 1) = some (lead n) := by
  have hne : (decimal n).take 1 ≠ [] := by simp [decimal_ne_nil]
  have hall : ((decimal n).take 1).all Char.isDigit = true :=
    List.all_eq_true.mpr fun _ hc => decimal_isDigit (List.mem_of_mem_take hc)
  rw [digits, if_pos ⟨hne, hall⟩, lead]

theorem lead_le (n : Nat) : lead n ≤ 9 := by
  rw [lead]
  cases h : decimal n with
  | nil => exact absurd h (decimal_ne_nil n)
  | cons c cs =>
    have hdigit : c.isDigit = true := decimal_isDigit (h ▸ List.mem_cons_self)
    simp only [Char.isDigit, Bool.and_eq_true, decide_eq_true_eq] at hdigit
    have hle : c.toNat ≤ 57 := hdigit.2
    simp only [List.take_succ_cons, List.take_zero, Nat.ofDigitChars_cons, Nat.ofDigitChars_nil]
    have hzero : '0'.toNat = 48 := rfl
    omega

theorem lead_eq_iff (n : Nat) : lead n = n ↔ n ≤ 9 := by
  constructor
  · intro h
    exact h ▸ lead_le n
  · intro h
    have hone : (decimal n).take 1 = decimal n := by
      rw [decimal, Nat.toDigits_of_lt_base (by omega)]
      rfl
    rw [lead, hone, decimal, Nat.ofDigitChars_toDigits]
    · decide
    · decide

theorem lead_le_self (n : Nat) : lead n ≤ n := by
  by_cases h : n ≤ 9
  · exact ((lead_eq_iff n).mpr h).le
  · exact (lead_le n).trans (by omega)

theorem parseInt_lead (n : Nat) : parseInt ((decimal n).take 1) = some (lead n : Int) :=
  parseInt_digits (digits_lead n) ((lead_le n).trans_lt (by decide))

theorem parseInt_decimal {n : Nat} (hn : n < 2 ^ 31) : parseInt (decimal n) = some (n : Int) :=
  parseInt_digits (digits_decimal n) hn

theorem valueOf_natCast (n : Nat) : valueOf n = decimal n := by
  rw [valueOf, if_neg (by omega), Int.natAbs_natCast]

end Tokens

section View

open ReadFile

variable {M : Nat}

def blank (M : Nat) : List Text := List.replicate (M + 2) []

theorem cells_eq (r : Row) :
    r.cells M = decimal r.time :: (List.replicate (M + 1) []).set r.process r.line := by
  rw [Row.cells]
  congr 1
  apply List.ext_getElem
  · simp
  · intro i h h'
    by_cases hi : i = r.process
    · simp [hi]
    · simp [hi, Ne.symm hi]

@[simp] theorem length_cells (r : Row) : (r.cells M).length = M + 2 := by simp [cells_eq]

@[simp] theorem length_blank : (blank M).length = M + 2 := by simp [blank]

theorem setElementAt_mid {done row rest : List Text} {j : Nat} {i : Int} (hi : i = done.length + j)
    (hj : j < row.length) (x : Text) :
    setElementAt (done ++ row ++ rest) x i = some (done ++ row.set j x ++ rest) := by
  have hbound : 0 ≤ i ∧ i < (done ++ row ++ rest).length := by
    simp only [List.length_append]
    omega
  have hnat : i.toNat = done.length + j := by omega
  rw [setElementAt, if_pos hbound, hnat, List.append_assoc, List.set_append_right _ _ (by omega),
    Nat.add_sub_cancel_left, List.set_append_left _ _ hj, List.append_assoc]

theorem setElementAt_full {v : List Text} {i : Int} (hi : v.length ≤ i) (x : Text) :
    setElementAt v x i = none := by
  rw [setElementAt, if_neg (by omega)]

/-- The time and the line go to their cells of a blank row. -/
theorem blank_set (t p : Nat) (x : Text) :
    ((blank M).set 0 (decimal t)).set (p + 1) x = Row.cells M ⟨t, p, x⟩ := by
  rw [cells_eq, blank, List.replicate_succ]
  rfl

theorem blank_set_time (t p : Nat) :
    (blank M).set 0 (decimal t) = Row.cells M ⟨t, p, []⟩ := by
  rw [cells_eq, blank, List.replicate_succ, List.set_cons_zero]
  congr 1
  apply List.ext_getElem
  · simp
  · intro i h h'
    simp

theorem viewTokens_tail (i : Nat) (stok : List Text) (s : View) :
    viewTokens (i + 4) stok s = (s, true) := by
  induction stok generalizing i with
  | nil => rfl
  | cons strToken stok ih => exact ih (i + 1)

theorem isStart_recorded (e : Entry) (x : Text) : isStart (e.makeTdxPrefix ++ x) = true := by
  simp [isStart, Entry.makeTdxPrefix]

theorem isStart_eq_false {line : Text} (h : line.head? ≠ some '&') : isStart line = false := by
  rw [isStart, startMark_eq]
  cases line with
  | nil => rfl
  | cons c cs =>
    have hc : c ≠ '&' := by simpa using h
    simp [List.isPrefixOf, Ne.symm hc]

/-- The text of a line: its first token, or nothing. -/
def shown (x : Text) : Text := (tokenize x).headD []

/-- A line with a prefix fills its row, whatever came before. -/
theorem viewLine_start {e : Entry} (ht : e.time < 2 ^ 31) (hM : lead e.process ≤ M) (x : Text)
    (done rest : List Text) (p t : Int) :
    viewLine ⟨done ++ blank M ++ rest, done.length, p, t⟩ (e.makeTdxPrefix ++ x) =
      (⟨done ++ Row.cells M ⟨e.time, lead e.process, shown x⟩ ++ rest, done.length,
        lead e.process, e.time⟩, true) := by
  have htime : setElementAt (done ++ blank M ++ rest) (decimal e.time) done.length =
      some (done ++ (blank M).set 0 (decimal e.time) ++ rest) :=
    setElementAt_mid (by omega) (by simp) _
  rw [viewLine, if_pos (isStart_recorded e x), tokenize_prefix]
  simp only [viewTokens, viewToken, parseInt_decimal ht, valueOf_natCast, htime, Option.getD_some,
    List.drop_succ_cons, List.drop_zero, parseInt_lead]
  cases hx : tokenize x with
  | nil =>
    rw [viewTokens, shown, hx]
    simp only [List.headD_nil]
    rw [blank_set_time]
  | cons strToken stok =>
    have hline : setElementAt (done ++ (blank M).set 0 (decimal e.time) ++ rest) strToken
        (done.length + lead e.process + 1) = some (done ++
          ((blank M).set 0 (decimal e.time)).set (lead e.process + 1) strToken ++ rest) :=
      setElementAt_mid (by push_cast; omega) (by simp; omega) _
    simp only [viewTokens, viewToken, hline, Option.map_some]
    rw [viewTokens_tail 0, shown, hx, blank_set]
    rfl

/-- Any other line fills its row with the time and the process of the line before; one without a
token ends the loop. -/
theorem viewLine_more {line : Text} (hl : isStart line = false) (done rest : List Text) {p : Nat}
    (hp : p ≤ M) (t : Nat) :
    viewLine ⟨done ++ blank M ++ rest, done.length, p, t⟩ line =
      (⟨done ++ Row.cells M ⟨t, p, shown line⟩ ++ rest, done.length, p, t⟩,
        !(tokenize line).isEmpty) := by
  have htime : setElementAt (done ++ blank M ++ rest) (decimal t) done.length =
      some (done ++ (blank M).set 0 (decimal t) ++ rest) :=
    setElementAt_mid (by omega) (by simp) _
  rw [viewLine, if_neg (by simp [hl])]
  simp only [valueOf_natCast, htime]
  cases hx : tokenize line with
  | nil =>
    rw [shown, hx, List.headD_nil, blank_set_time]
    rfl
  | cons strToken stok =>
    have hline : setElementAt (done ++ (blank M).set 0 (decimal t) ++ rest) strToken
        (done.length + p + 1) = some (done ++
          ((blank M).set 0 (decimal t)).set (p + 1) strToken ++ rest) :=
      setElementAt_mid (by push_cast; omega) (by simp; omega) _
    simp only [hline]
    rw [shown, hx, blank_set]
    rfl

/-- The rows that the lines fill, one each, from a time and a process on. Behind a line that ends
the loop they stay blank. -/
def viewRows (M : Nat) : Nat → Nat → List FileLine → List (List Text)
  | _, _, [] => []
  | _, _, .start e x :: L =>
      Row.cells M ⟨e.time, lead e.process, shown x⟩ :: viewRows M e.time (lead e.process) L
  | t, p, .more line :: L =>
      Row.cells M ⟨t, p, shown line⟩ ::
        if (tokenize line).isEmpty then L.map fun _ => blank M else viewRows M t p L

/-- The numbers of a prefix can be parsed and its first digit is a process of the table; any other
line does not begin like a prefix. -/
def Legible (M : Nat) : FileLine → Prop
  | .start e _ => e.time < 2 ^ 31 ∧ lead e.process ≤ M
  | .more line => isStart line = false

@[simp] theorem length_viewRows (t p : Nat) (L : List FileLine) :
    (viewRows M t p L).length = L.length := by
  induction L generalizing t p with
  | nil => rfl
  | cons b L ih =>
    cases b with
    | start e x => simp [viewRows, ih]
    | more line =>
      rw [viewRows, List.length_cons]
      split
      · simp
      · simp [ih]

theorem length_of_mem_viewRows {t p : Nat} {L : List FileLine} {row : List Text}
    (h : row ∈ viewRows M t p L) : row.length = M + 2 := by
  induction L generalizing t p with
  | nil => cases h
  | cons b L ih =>
    cases b with
    | start e x =>
      rcases List.mem_cons.mp h with rfl | h
      · simp
      · exact ih h
    | more line =>
      rw [viewRows] at h
      rcases List.mem_cons.mp h with rfl | h
      · simp
      · split at h
        · obtain ⟨b', -, rfl⟩ := List.mem_map.mp h
          simp
        · exact ih h

/-- Behind the last row nothing is filled any more. -/
theorem viewLines_full {L : List FileLine} (hL : ∀ b ∈ L, Legible M b) (v : List Text) {c : Int}
    (hc : v.length ≤ c) (p t : Nat) :
    (viewLines (M + 2) (L.map text) ⟨v, c, p, t⟩).tableData = v := by
  induction L generalizing c p t with
  | nil => rfl
  | cons b L ih =>
    rw [List.forall_mem_cons] at hL
    cases b with
    | start e x =>
      have htime : setElementAt v (decimal e.time) c = none := setElementAt_full hc _
      have hnext : (v.length : Int) ≤ c + (M + 2) := by omega
      rw [List.map_cons, viewLines, text, viewLine, if_pos (isStart_recorded e x), tokenize_prefix]
      simp only [viewTokens, viewToken, parseInt_decimal hL.1.1, valueOf_natCast, htime,
        Option.getD_none, List.drop_succ_cons, List.drop_zero, parseInt_lead, Option.getD_some]
      cases tokenize x with
      | nil => exact ih hL.2 hnext _ _
      | cons strToken stok =>
        have hline : setElementAt v strToken (c + lead e.process + 1) = none :=
          setElementAt_full (by omega) _
        simp [viewTokens, viewToken, hline]
    | more line =>
      have hl : isStart line = false := hL.1
      rw [List.map_cons, viewLines, text, viewLine, if_neg (by simp [hl]), setElementAt_full hc]

/-- A table with no more rows than there are lines. -/
theorem viewLines_rows {L : List FileLine} (hL : ∀ b ∈ L, Legible M b) {R : Nat} (hR : R ≤ L.length)
    (done : List Text) (t : Nat) {p : Nat} (hp : p ≤ M) :
    (viewLines (M + 2) (L.map text)
      ⟨done ++ List.replicate (R * (M + 2)) [], done.length, p, t⟩).tableData =
      done ++ ((viewRows M t p L).take R).flatten := by
  induction L generalizing R done t p with
  | nil =>
    obtain rfl : R = 0 := Nat.le_zero.mp hR
    simp [viewLines]
  | cons b L ih =>
    cases R with
    | zero =>
      rw [viewLines_full hL]
      · simp
      · simp
    | succ R =>
      rw [List.forall_mem_cons] at hL
      have hsplit : done ++ List.replicate ((R + 1) * (M + 2)) [] =
          done ++ blank M ++ List.replicate (R * (M + 2)) [] := by
        rw [List.append_assoc, blank, List.replicate_append_replicate]
        congr 2
        rw [Nat.add_one_mul, Nat.add_comm]
      have hlen : ∀ r : Row, (done.length : Int) + (M + 2) = (done ++ r.cells M).length := by
        intro r
        simp
      rw [hsplit, List.map_cons, viewLines]
      cases b with
      | start e x =>
        rw [text, viewLine_start hL.1.1 hL.1.2]
        dsimp only
        rw [hlen ⟨e.time, lead e.process, shown x⟩,
          ih hL.2 (by simpa using hR) _ _ hL.1.2]
        simp [viewRows]
      | more line =>
        rw [text, viewLine_more hL.1 _ _ hp]
        by_cases hx : (tokenize line).isEmpty
        · simp only [hx, Bool.not_true, viewRows, if_true, List.take_succ_cons, List.flatten_cons]
          rw [← List.map_take, List.map_const', List.length_take,
            Nat.min_eq_left (by simpa using hR)]
          simp [blank]
        · rw [Bool.not_eq_true] at hx
          simp only [hx, Bool.not_false]
          rw [hlen ⟨t, p, shown line⟩, ih hL.2 (by simpa using hR) _ _ hp]
          simp [viewRows, hx]

/-- What every cell that is set keeps of the table holds at the end. -/
theorem viewLines_invariant {P : List Text → Prop} {lines : List Text}
    (hval : ∀ v i n, P v → P (v.set i (valueOf n)))
    (htok : ∀ v i, ∀ line ∈ lines, ∀ strToken ∈ tokenize line, P v → P (v.set i strToken))
    (add_row : Int) (s : View) (h : P s.tableData) :
    P (viewLines add_row lines s).tableData := by
  have hset : ∀ {v v' : List Text} {x : Text} {i : Int}, setElementAt v x i = some v' →
      (∀ j, P (v.set j x)) → P v' := by
    intro v v' x i hv hx
    rw [setElementAt] at hv
    split at hv
    · exact Option.some.inj hv ▸ hx _
    · cases hv
  have htokens : ∀ {line : Text}, line ∈ lines → ∀ {stok : List Text} (i : Nat) {s : View},
      (∀ strToken ∈ stok, strToken ∈ tokenize line) → P s.tableData →
      P (viewTokens i stok s).1.tableData := by
    intro line hline stok
    induction stok with
    | nil => exact fun i s _ hs => hs
    | cons strToken stok ih =>
      intro i s hmem hs
      rw [List.forall_mem_cons] at hmem
      have hone : ∀ s', viewToken s i strToken = some s' → P s'.tableData := by
        intro s' hs'
        unfold viewToken at hs'
        split at hs'
        · split at hs'
          · rename_i t _
            cases Option.some.inj hs'
            cases hv : setElementAt s.tableData (valueOf t) s.cur_line with
            | none => exact hs
            | some v => exact hset hv fun j => hval _ j t hs
          · exact Option.some.inj hs' ▸ hs
        · exact Option.some.inj hs' ▸ hs
        · obtain ⟨v, hv, rfl⟩ := Option.map_eq_some_iff.mp hs'
          exact hset hv fun j => htok _ j line hline _ hmem.1 hs
        · exact Option.some.inj hs' ▸ hs
      rw [viewTokens]
      split
      · rename_i s' hs'
        exact ih _ hmem.2 (hone s' hs')
      · exact hs
  have hstep : ∀ line ∈ lines, ∀ s : View, P s.tableData → P (viewLine s line).1.tableData := by
    intro line hline s hs
    rw [viewLine]
    split
    · exact htokens hline 0 (fun _ h => h) hs
    · split
      · exact hs
      · rename_i v hv
        have hPv : P v := hset hv fun j => hval _ j _ hs
        split
        · exact hPv
        · rename_i strToken stok htoks
          have hmem : strToken ∈ tokenize line := htoks ▸ List.mem_cons_self
          split
          · exact hPv
          · rename_i v' hv'
            exact hset hv' fun j => htok _ j line hline _ hmem hPv
  clear htok htokens
  induction lines generalizing s with
  | nil => exact h
  | cons line lines ih =>
    rw [List.forall_mem_cons] at hstep
    have hline := hstep.1 s h
    rw [viewLines]
    split
    · rename_i s' hs'
      rw [hs'] at hline
      exact ih _ hline hstep.2
    · rename_i s' hs'
      rw [hs'] at hline
      exact hline

theorem viewLines_length (add_row : Int) (lines : List Text) (s : View) :
    (viewLines add_row lines s).tableData.length = s.tableData.length := by
  apply viewLines_invariant (P := fun v => v.length = s.tableData.length)
  · exact fun v i n hv => by rw [List.length_set, hv]
  · exact fun v i _ _ _ _ hv => by rw [List.length_set, hv]
  · rfl

end View

section Count

open ReadFile

/-- The entries whose prefixes begin a line. -/
def starts (L : List FileLine) : List Entry := L.filterMap entry?

/-- The first loop counts the lines and finds the largest process of a prefix. -/
theorem foldl_count {L : List FileLine} (hmore : ∀ line, .more line ∈ L → isStart line = false)
    (hstart : ∀ e ∈ starts L, e.process < 2 ^ 31) (m c : Nat) (hc : c ≤ m) (total : Int) :
    ∃ c' : Nat, c' ≤ max m (maxProcess (starts L)) ∧ (L.map text).foldl count ⟨m, total, c⟩ =
      ⟨(max m (maxProcess (starts L)) : Nat), total + L.length, c'⟩ := by
  induction L generalizing m c total with
  | nil => exact ⟨c, by simpa [starts, maxProcess] using hc, by simp [starts, maxProcess]⟩
  | cons b L ih =>
    have hmore' : ∀ line, .more line ∈ L → isStart line = false :=
      fun line h => hmore line (List.mem_cons_of_mem _ h)
    cases b with
    | start e x =>
      have hentry : starts (.start e x :: L) = e :: starts L := rfl
      rw [hentry, List.forall_mem_cons] at hstart
      have hcount : count ⟨m, total, c⟩ (FileLine.start e x).text =
          ⟨(max m e.process : Nat), total + 1, e.process⟩ := by
        rw [count, text, isStart_recorded, tokenize_prefix]
        simp only [if_true, List.getElem?_cons_succ, List.getElem?_cons_zero, List.drop_succ_cons,
          List.drop_zero, parseInt_decimal hstart.1, Option.getD_some, Counts.mk.injEq, and_true]
        omega
      obtain ⟨c', hc', hfold⟩ := ih hmore' hstart.2 (max m e.process) e.process
        (Nat.le_max_right _ _) (total + 1)
      have hmax : max (max m e.process) (maxProcess (starts L)) =
          max m (maxProcess (e :: starts L)) := by
        simp [maxProcess, Nat.max_assoc]
      rw [hmax] at hc' hfold
      refine ⟨c', hc', ?_⟩
      have hlen : total + 1 + L.length = total + (FileLine.start e x :: L).length := by
        rw [List.length_cons]
        omega
      rw [List.map_cons, List.foldl_cons, hcount, hfold, hentry, hlen]
    | more line =>
      have hcount : count ⟨m, total, c⟩ (FileLine.more line).text = ⟨m, total + 1, c⟩ := by
        simp [count, text, hmore line List.mem_cons_self]
      obtain ⟨c', hc', hfold⟩ := ih hmore' hstart m c hc (total + 1)
      refine ⟨c', hc', ?_⟩
      have hentry : starts (.more line :: L) = starts L := rfl
      have hlen : total + 1 + L.length = total + (FileLine.more line :: L).length := by
        rw [List.length_cons]
        omega
      rw [List.map_cons, List.foldl_cons, hcount, hfold, hentry, hlen]

theorem le_maxProcess {es : List Entry} {e : Entry} (he : e ∈ es) :
    e.process ≤ maxProcess es := by
  induction es with
  | nil => cases he
  | cons e' es ih =>
    rcases List.mem_cons.mp he with rfl | he
    · exact Nat.le_max_left _ _
    · exact (ih he).trans (Nat.le_max_right _ _)

end Count

end Natc.Ecm
