import Natc.Isql.Lexer
import Natc.Lib.Text

/-!
# Words, numbers and signs in the scanner

What stands next to a blank or a sign of the grammar is cut off there, unless it begins an SQL
statement.
-/

namespace Natc.Isql.Parse

open Lib Lib.Scanner

/-! ## Steps of the scanner -/

section steps

variable {t rest : Text} {regex : Regex Char} {kind : Kind} {condition : Condition}

theorem lexFrom_skip (condition : Condition) (k : Nat) (s : Text) :
    lexFrom condition k s = lexFrom condition 0 (s.drop k) := by
  induction s generalizing k with
  | nil => cases k <;> simp [lexFrom]
  | cons c s ih =>
    cases k with
    | zero => rfl
    | succ k => exact ih k

/-- One match of the scanner. -/
theorem lexFrom_pick {action : Action} {s : Text} {n : Nat} (hpos : 0 < n)
    (h : pick condition.rules s = some (⟨regex, some action⟩, n)) :
    lexFrom condition 0 s =
      (action.token? (s.take n)).toList ++ lexFrom (action.next condition) 0 (s.drop n) := by
  have hle := pick_le h
  cases s with
  | nil => exact absurd hpos (Nat.not_lt.mpr hle)
  | cons c s =>
    obtain ⟨m, rfl⟩ := Nat.exists_eq_succ_of_ne_zero (Nat.ne_of_gt hpos)
    rw [lexFrom, h]
    dsimp only
    rw [lexFrom_skip]
    rfl

theorem lex_token (ht : t ≠ [])
    (h : pick lexRules (t ++ rest) = some (LexRule.of regex kind, t.length)) :
    lex (t ++ rest) = ⟨kind, t⟩ :: lex rest := by
  have hstep := @lexFrom_pick regex .initial _ _ _ (List.length_pos_iff.mpr ht) h
  rw [List.take_left, List.drop_left] at hstep
  exact hstep

end steps

/-! ## Words of patterns -/

section words

/-- Upper and lower case are the same. -/
def upper (t : Text) : Text := t.map Char.toUpper

theorem all_matches (f : Char → Char) {l t : Text} :
    (Regex.all (l.map fun c => .one (f · == c))).Matches t ↔ t.map f = l := by
  induction l generalizing t with
  | nil => exact List.map_eq_nil_iff.symm
  | cons c l ih =>
    constructor
    · rintro ⟨u, v, rfl, ⟨d, hd, rfl⟩, hv⟩
      rw [List.map_append, ih.mp hv, List.map_singleton, beq_iff_eq.mp hd]
      rfl
    · intro h
      obtain ⟨d, v, rfl, rfl, hv⟩ := List.map_eq_cons_iff.mp h
      exact ⟨[d], v, rfl, ⟨d, beq_iff_eq.mpr rfl, rfl⟩, ih.mpr hv⟩

theorem word_matches {s : String} {t : Text} : (word s).Matches t ↔ upper t = s.toList :=
  all_matches Char.toUpper

theorem sign_matches {s : String} {t : Text} : (sign s).Matches t ↔ t = s.toList := by
  have h := @all_matches id s.toList t
  rwa [List.map_id] at h

end words

/-! ## What the tables of rules say -/

section tables

/-- What cuts off a word: blanks and the signs of a declaration. -/
def stops : Text := [' ', '\t', '\n', '\r', '(', ')', ',', ';']

/-- With one of these words in front, the scanner reads on to the end of the line or the text. -/
def heads : List String := statements.map (·.1) ++ ["SELECT", "CONNECT"]

def frontRules : List LexRule :=
  symbolRules ++ keywordRules ++ statementRules ++ [.of (word "PREPARE") .tPrepare] ++ openRules ++
    valueRules.take 12

def hisrunRule : LexRule :=
  .of (Regex.all [digits, lineBlanks, sign "/", lineBlanks, .opt (sign ";")]) .tHisrun

def hiseditRule : LexRule :=
  .of (Regex.all [digits, lineBlanks, .alt (word "ED") (word "EDIT"), lineBlanks,
    .opt (sign ";")]) .tHisedit

/-- The rules in front of those for numbers begin with no digit, but for two. -/
def noNumberRules : List LexRule :=
  symbolRules ++ keywordRules ++ statementRules ++ [.of (word "PREPARE") .tPrepare] ++ openRules ++
    valueRules.take 2

/-- The checks of the rules, character by character. -/
structure Tables : Prop where
  symbol : (((List.range 256).map Char.ofNat).all fun c => !isInitial c ||
    symbolRules.all fun r => !r.regex.starts c) = true
  head : (("EXECUTE" :: "EXEC" :: "SET" :: heads).all fun k => k.toList ≠ [] ∧ stops.all fun c =>
    !k.toList.contains c.toUpper) = true
  value : (((List.range 256).map Char.ofNat).all fun c => !isInitial c ||
    ((valueRules.drop 1).take 7).all fun r => !r.regex.starts c) = true
  shortValue : (((List.range 256).map Char.ofNat).all fun c => !isInitial c ||
    stops.all fun d => (valueRules.drop 8).all fun r =>
      !r.regex.starts c || !r.regex.uses d || r.regex.maxLength == some 1) = true
  shortKeyword : (stops.all fun d => (keywordRules ++ [LexRule.of (word "PREPARE") .tPrepare]).all
    fun r => !r.regex.uses d) = true
  space : ([' ', '\t', '\n', '\r'].all fun c => frontRules.all fun r =>
    !r.regex.starts c) = true
  sign : ([',', ')', '+', ';'].all fun c => lexRules.all fun r =>
    !r.regex.starts c || r.regex.maxLength == some 1) = true
  paren : ((symbolRules ++ keywordRules ++ statementRules.take 13 ++ statementRules.drop 14 ++
    [LexRule.of (word "PREPARE") .tPrepare] ++ openRules ++ valueRules).all fun r =>
      !r.regex.starts '(' || r.regex.maxLength == some 1) = true
  minus : (lexRules.all fun r => [' ', '\t'].all fun e => !(r.regex.deriv '-').starts e) = true
  digit : (((List.range' 48 10).map Char.ofNat).all fun d =>
    (noNumberRules ++ (valueRules.drop 3).take 2).all fun r => !r.regex.starts d) = true
  shortNumber : (((List.range' 48 10).map Char.ofNat).all fun d => [' ', '\t', ',', ')'].all fun f =>
    (LexRule.of digits .tNaturalnum :: valueRules.drop 7).all fun r => !r.regex.starts d ||
      !r.regex.uses f || r.regex.maxLength == some 1) = true
  history : ([hisrunRule, hiseditRule].all fun r => [',', ')'].all fun e =>
    !r.regex.uses e) = true
  kind : (lexRules.all fun r => r.kind.isSome) = true
  negative : (((List.range' 48 10).map Char.ofNat).all fun d => lexRules.all fun r =>
    !(r.regex.deriv '-').starts d || r.kind == some (.token .tRealnum)) = true

instance tables : Fact Tables := ⟨by constructor <;> decide +kernel⟩

end tables

/-! ## What can stand at the front of a word -/

section initials

theorem isAlpha_eq (c : Char) : c.isAlpha = (c.isUpper || c.isLower) := rfl

theorem isUpper_eq (c : Char) :
    c.isUpper = decide ('A'.val ≤ c.val ∧ c.val ≤ 'Z'.val) := rfl

theorem isLower_eq (c : Char) :
    c.isLower = (decide ('a'.val ≤ c.val) && decide (c.val ≤ 'z'.val)) := rfl

theorem toNat_lt_of_isInitial {c : Char} (hc : isInitial c = true) : c.toNat < 256 := by
  simp only [isInitial, isLetter, isAlpha_eq, isUpper_eq, isLower_eq, Bool.or_eq_true,
    Bool.and_eq_true, decide_eq_true_eq, beq_iff_eq, UInt32.le_iff_toNat_le] at hc
  rcases hc with ((hc | hc) | rfl) | hc
  · exact Nat.lt_of_le_of_lt hc.2 (by decide)
  · exact Nat.lt_of_le_of_lt hc.2 (by decide)
  · decide
  · omega

/-- What is checked for every byte holds of the first character of a word. -/
theorem forall_isInitial {P : Char → Bool}
    (h : (((List.range 256).map Char.ofNat).all fun c => !isInitial c || P c) = true) {c : Char}
    (hc : isInitial c = true) : P c = true := by
  have hmem : c ∈ (List.range 256).map Char.ofNat := by
    rw [List.mem_map]
    exact ⟨c.toNat, List.mem_range.mpr (toNat_lt_of_isInitial hc), Char.ofNat_toNat c⟩
  simpa [hc] using List.all_eq_true.mp h c hmem

/-- `[_A-Z\200-\377][_A-Z\200-\3770-9]*` -/
structure IsWord (w : Text) : Prop where
  ne_nil : w ≠ []
  initial : ∀ c ∈ w.head?, isInitial c = true
  inner : ∀ c ∈ w, isInner c = true

theorem IsWord.identifier {w : Text} (h : IsWord w) : identifier.Matches w := by
  obtain ⟨c, cs, rfl⟩ := List.exists_cons_of_ne_nil h.ne_nil
  have hc : isInitial c = true := h.initial c rfl
  have hcs : (Regex.star (.one isInner)).Matches cs :=
    Regex.star_one_matches.mpr fun d hd => h.inner d (List.mem_cons_of_mem c hd)
  exact ⟨[c], cs, rfl, ⟨c, hc, rfl⟩, hcs⟩

theorem starts_symbol {c : Char} (hc : isInitial c = true) :
    (symbolRules.all fun r => !r.regex.starts c) = true :=
  @forall_isInitial (fun c => symbolRules.all fun r => !r.regex.starts c) tables.out.symbol c hc

end initials

/-! ## Statements -/

section statements

def swallowed (w : Text) : Bool := heads.any fun k => k.toList.isPrefixOf (upper w)

def isBlank (c : Char) : Bool := [' ', '\t', '\n'].contains c

/-- How a statement begins. -/
inductive Lead : Text → Prop where
  | head {k : String} {u : Text} (v : Text) (hk : k ∈ heads) (hu : upper u = k.toList) :
      Lead (u ++ v)
  | exec {u : Text} {b : Char} (v : Text) (hu : upper u ∈ ["EXECUTE".toList, "EXEC".toList])
      (hb : isBlank b = true) : Lead (u ++ b :: v)
  | set {u bs t : Text} (v : Text) (hu : upper u = "SET".toList) (hne : bs ≠ [])
      (hbs : ∀ b ∈ bs, isBlank b = true) (ht : upper t = "TRANSACTION".toList) :
      Lead (u ++ (bs ++ (t ++ v)))

def connectRule : LexRule := .of (.seq (word "CONNECT") restOfLine) .tConnect

def sqlRules : List LexRule := statementRules ++ openRules ++ [connectRule]

theorem someBlanks_matches {t : Text} :
    someBlanks.Matches t ↔ t ≠ [] ∧ ∀ b ∈ t, isBlank b = true :=
  Regex.plus_one_matches

theorem lead_execute {tail : Regex Char} {x : Text}
    (h : (Regex.seq execute (.seq someBlanks tail)).Matches x) : Lead x := by
  obtain ⟨u, _, rfl, hu, v, w, rfl, hv, -⟩ := h
  obtain ⟨hne, hblank⟩ := someBlanks_matches.mp hv
  obtain ⟨b, bs, rfl⟩ := List.exists_cons_of_ne_nil hne
  have hword : upper u ∈ ["EXECUTE".toList, "EXEC".toList] := by
    rcases hu with hu | hu
    · rw [word_matches.mp hu]
      exact List.mem_cons_self
    · rw [word_matches.mp hu]
      exact List.mem_cons_of_mem _ List.mem_cons_self
  exact .exec (bs ++ w) hword (hblank b List.mem_cons_self)

theorem lead_word {k : String} {tail : Regex Char} {x : Text} (hk : k ∈ heads)
    (h : (Regex.seq (word k) tail).Matches x) : Lead x := by
  obtain ⟨u, v, rfl, hu, -⟩ := h
  exact .head v hk (word_matches.mp hu)

theorem lead_of_matches {r : LexRule} {x : Text} (hr : r ∈ sqlRules) (h : r.regex.Matches x)
    (hx : x.head? ≠ some '(') : Lead x := by
  rw [sqlRules, List.mem_append, List.mem_append, List.mem_singleton, openRules, List.mem_map] at hr
  rcases hr with (hr | ⟨s, hs, rfl⟩) | rfl
  · simp only [statementRules, List.mem_cons, List.not_mem_nil, or_false] at hr
    rcases hr with rfl | rfl | rfl | rfl | rfl | rfl | rfl | rfl | rfl | rfl | rfl | rfl | rfl |
      rfl | rfl
    · exact lead_word (k := "ALTER") (by decide) h
    · exact lead_word (k := "ALTER") (by decide) h
    · exact lead_word (k := "ALTER") (by decide) h
    · exact lead_word (k := "CREATE") (by decide) h
    · exact lead_word (k := "CREATE") (by decide) h
    · exact lead_word (k := "CREATE") (by decide) h
    · exact lead_execute h
    · exact lead_execute h
    · exact lead_execute h
    · exact lead_word (k := "SELECT") (by decide) h
    · exact lead_word (k := "SELECT") (by decide) h
    · exact lead_word (k := "SELECT") (by decide) h
    · exact lead_word (k := "SELECT") (by decide) h
    · obtain ⟨_, y, rfl, ⟨us, rfl, hus⟩, hy⟩ := h
      have hnil : us.flatten = [] := by
        cases us with
        | nil => rfl
        | cons u us =>
          obtain ⟨a, b, rfl, ha, -⟩ := hus u List.mem_cons_self
          rw [sign_matches.mp ha] at hx
          exact absurd rfl hx
      rw [hnil]
      exact lead_word (k := "SELECT") (by decide) hy
    · obtain ⟨u, _, rfl, hu, bs, _, rfl, hbs, t, v, rfl, ht, -⟩ := h
      obtain ⟨hne, hblank⟩ := someBlanks_matches.mp hbs
      exact .set v (word_matches.mp hu) hne hblank (word_matches.mp ht)
  · refine lead_word (k := s.1) ?_ h
    exact List.mem_append_left _ (List.mem_map_of_mem hs)
  · exact lead_word (k := "CONNECT") (by decide) h

end statements

section leads

variable {w tail u v : Text}

/-- What is checked for the three blanks holds of a blank. -/
theorem forall_isBlank {P : Char → Bool} (h : [' ', '\t', '\n'].all P = true) {b : Char}
    (hb : isBlank b = true) : P b = true :=
  List.all_eq_true.mp h b (List.contains_iff_mem.mp hb)

theorem not_isInner_of_isBlank {b : Char} (hb : isBlank b = true) : isInner b = false := by
  simpa using @forall_isBlank (fun b => !isInner b) (by decide) b hb

/-- The first word of a statement ends where a word ends. -/
theorem prefix_of_upper {k : String} (hk : k ∈ "EXECUTE" :: "EXEC" :: "SET" :: heads)
    (hu : upper u = k.toList) (ht : ∀ c ∈ tail.head?, c ∈ stops) (heq : u ++ v = w ++ tail) :
    ∃ a, w = u ++ a ∧ v = a ++ tail := by
  rcases List.append_eq_append_iff.mp heq with ⟨a, rfl, hv⟩ | ⟨a, rfl, htail⟩
  · exact ⟨a, rfl, hv⟩
  · cases a with
    | nil => exact ⟨[], by simp, htail.symm⟩
    | cons c a =>
      have hc : c ∈ stops := ht c (by rw [htail]; rfl)
      have hmem : c.toUpper ∈ k.toList := by
        rw [← hu]
        exact List.mem_map_of_mem (by simp)
      have hall := of_decide_eq_true (List.all_eq_true.mp tables.out.head k hk)
      have hnot := List.all_eq_true.mp hall.2 c hc
      simp [hmem] at hnot

/-- A word that begins a statement is one of the words in front, or it goes on behind a blank. -/
theorem lead_split (hw : IsWord w) (ht : ∀ c ∈ tail.head?, c ∈ stops) (h : Lead (w ++ tail)) :
    swallowed w = true ∨
      (upper w ∈ ["EXECUTE".toList, "EXEC".toList] ∧ ∃ b ∈ tail.head?, isBlank b = true) ∨
      upper w = "SET".toList ∧ ∃ c ∈ (tail.dropWhile isBlank).head?, c.toUpper = 'T' := by
  have hwhole : ∀ {u a rest : Text} {b : Char}, isBlank b = true → w = u ++ a →
      b :: rest = a ++ tail → w = u ∧ tail = b :: rest := by
    intro u a rest b hb hwu hrest
    cases a with
    | nil => exact ⟨by simpa using hwu, hrest.symm⟩
    | cons c a =>
      obtain ⟨rfl, -⟩ := List.cons.inj hrest
      have hinner := hw.inner b (by simp [hwu])
      rw [not_isInner_of_isBlank hb] at hinner
      cases hinner
  generalize hx : w ++ tail = x at h
  cases h with
  | head v hk hu =>
    rename_i k u
    obtain ⟨a, rfl, -⟩ := prefix_of_upper (List.mem_cons_of_mem _ (List.mem_cons_of_mem _
      (List.mem_cons_of_mem _ hk))) hu ht hx.symm
    refine .inl (List.any_eq_true.mpr ⟨k, hk, ?_⟩)
    rw [List.isPrefixOf_iff_prefix, ← hu, upper, upper, List.map_append]
    exact List.prefix_append _ _
  | exec v hu hb =>
    rename_i u b
    obtain ⟨a, hwu, hrest⟩ : ∃ a, w = u ++ a ∧ b :: v = a ++ tail := by
      rcases List.mem_pair.mp hu with hu | hu
      · exact prefix_of_upper (by simp) hu ht hx.symm
      · exact prefix_of_upper (by simp) hu ht hx.symm
    obtain ⟨rfl, rfl⟩ := hwhole hb hwu hrest
    exact .inr (.inl ⟨hu, b, rfl, hb⟩)
  | set v hu hne hbs ht' =>
    rename_i u bs t
    obtain ⟨a, hwu, hrest⟩ := prefix_of_upper (by simp) hu ht hx.symm
    obtain ⟨b, bs, rfl⟩ := List.exists_cons_of_ne_nil hne
    obtain ⟨rfl, rfl⟩ := hwhole (hbs b List.mem_cons_self) hwu hrest
    refine .inr (.inr ⟨hu, ?_⟩)
    cases t with
    | nil => cases ht'
    | cons c t =>
      have hc : c.toUpper = 'T' := (List.cons.inj ht').1
      have hnot : isBlank c = false := by
        by_contra hb
        have hne := @forall_isBlank (fun c => c.toUpper != 'T') (by decide) c (by simpa using hb)
        simp [hc] at hne
      have htail : b :: bs.append (c :: t ++ v) = (b :: bs) ++ (c :: t ++ v) := rfl
      refine ⟨c, ?_, hc⟩
      rw [htail, List.dropWhile_append_of_pos hbs, List.cons_append,
        List.dropWhile_cons_of_neg (by simp [hnot])]
      rfl

end leads

/-! ## A word by itself -/

section alone

variable {w tail : Text}

/-- A word that begins no statement, with what follows it. -/
structure Alone (w tail : Text) : Prop where
  word : IsWord w
  stop : ∀ c ∈ tail.head?, c ∈ stops
  swallowed : swallowed w = false
  exec : upper w ∈ ["EXECUTE".toList, "EXEC".toList] → ∀ b ∈ tail.head?, isBlank b = false
  set : upper w = "SET".toList → ∀ c ∈ (tail.dropWhile isBlank).head?, c.toUpper ≠ 'T'

theorem Alone.not_lead (h : Alone w tail) (k : Nat) : ¬ Lead (w ++ tail.take k) := by
  intro hlead
  have hhead : ∀ c ∈ (tail.take k).head?, c ∈ tail.head? := by
    intro c hc
    obtain ⟨u, hu⟩ := List.head?_eq_some_iff.mp hc
    rw [← List.take_append_drop k tail, hu]
    rfl
  rcases lead_split h.word (fun c hc => h.stop c (hhead c hc)) hlead with hs | ⟨he, b, hb, hblank⟩ |
    ⟨hset, c, hc, ht⟩
  · rw [h.swallowed] at hs
    cases hs
  · rw [h.exec he b (hhead b hb)] at hblank
    cases hblank
  · exact h.set hset c (mem_head?_dropWhile_of_isPrefix (List.take_prefix k tail) hc) ht

/-- The token of a word. -/
def kindOf (w : Text) : Kind :=
  match keywords.find? fun k => k.1.toList = upper w with
  | some k => k.2
  | none => if upper w = "PREPARE".toList then .tPrepare else .tIdentifier

theorem IsWord.starts {r : LexRule} (hw : IsWord w) (h : r.regex.Matches (w ++ tail)) :
    ∃ c, isInitial c = true ∧ r.regex.starts c = true := by
  obtain ⟨c, w, rfl⟩ := List.exists_cons_of_ne_nil hw.ne_nil
  exact ⟨c, hw.initial c rfl, Regex.starts_of_matches h⟩

theorem IsWord.head?_ne (hw : IsWord w) (t : Text) : (w ++ t).head? ≠ some '(' := by
  rw [List.head?_append_of_ne_nil _ hw.ne_nil]
  intro h
  exact absurd (hw.initial '(' h) (by decide)

theorem not_matches_symbol {r : LexRule} (hw : IsWord w) (hr : r ∈ symbolRules) :
    ¬ r.regex.Matches (w ++ tail) := by
  intro h
  obtain ⟨c, hc, hstart⟩ := hw.starts h
  have hnot := List.all_eq_true.mp (starts_symbol hc) r hr
  rw [hstart] at hnot
  cases hnot

theorem starts_value {c : Char} (hc : isInitial c = true) :
    (((valueRules.drop 1).take 7).all fun r => !r.regex.starts c) = true :=
  @forall_isInitial (fun c => ((valueRules.drop 1).take 7).all fun r => !r.regex.starts c)
    tables.out.value c hc

theorem not_matches_value {r : LexRule} (hw : IsWord w) (hr : r ∈ (valueRules.drop 1).take 7) :
    ¬ r.regex.Matches (w ++ tail) := by
  intro h
  obtain ⟨c, hc, hstart⟩ := hw.starts h
  have hnot := List.all_eq_true.mp (starts_value hc) r hr
  rw [hstart] at hnot
  cases hnot

/-- The rules for words do not go on behind one; those behind them begin with no letter, or are for
a single character. -/
theorem short_value {c d : Char} (hc : isInitial c = true) (hd : d ∈ stops) :
    ((valueRules.drop 8).all fun r => !r.regex.starts c || !r.regex.uses d ||
      r.regex.maxLength == some 1) = true := by
  have hall := @forall_isInitial (fun c => stops.all fun d => (valueRules.drop 8).all fun r =>
    !r.regex.starts c || !r.regex.uses d || r.regex.maxLength == some 1) tables.out.shortValue c hc
  exact List.all_eq_true.mp hall d hd

theorem short_keyword {d : Char} (hd : d ∈ stops) :
    ((keywordRules ++ [LexRule.of (word "PREPARE") .tPrepare]).all fun r => !r.regex.uses d) =
      true :=
  List.all_eq_true.mp tables.out.shortKeyword d hd

theorem valueRules_eq :
    valueRules = [connectRule] ++ (valueRules.drop 1).take 7 ++ valueRules.drop 8 := rfl

theorem mem_lexRules {r : LexRule} (hr : r ∈ lexRules) : r ∈ symbolRules ∨
    r ∈ keywordRules ++ [LexRule.of (word "PREPARE") .tPrepare] ∨ r ∈ sqlRules ∨
      r ∈ (valueRules.drop 1).take 7 ∨ r ∈ valueRules.drop 8 := by
  simp only [lexRules, List.mem_append] at hr
  rcases hr with ((((hr | hr) | hr) | hr) | hr) | hr
  · exact .inl hr
  · exact .inr (.inl (List.mem_append_left _ hr))
  · exact .inr (.inr (.inl (by simp [sqlRules, hr])))
  · exact .inr (.inl (List.mem_append_right _ hr))
  · refine .inr (.inr (.inl ?_))
    exact List.mem_append_left _ (List.mem_append_right _ hr)
  · rw [valueRules_eq, List.mem_append, List.mem_append, List.mem_singleton] at hr
    rcases hr with (rfl | hr) | hr
    · exact .inr (.inr (.inl (by simp [sqlRules])))
    · exact .inr (.inr (.inr (.inl hr)))
    · exact .inr (.inr (.inr (.inr hr)))

theorem Alone.longest (h : Alone w tail) {r : LexRule} (hr : r ∈ lexRules) {m : Nat}
    (hm : m ≤ (w ++ tail).length) (hmatch : r.regex.Matches ((w ++ tail).take m)) :
    m ≤ w.length := by
  by_contra hlt
  rw [not_le] at hlt
  obtain ⟨k, rfl⟩ := Nat.exists_eq_add_of_lt hlt
  have htake : (w ++ tail).take (w.length + k + 1) = w ++ tail.take (k + 1) := by
    rw [Nat.add_assoc, List.take_length_add_append]
  rw [htake] at hmatch
  obtain ⟨d, tail, rfl⟩ : ∃ d rest, tail = d :: rest := by
    cases tail with
    | nil =>
      rw [List.append_nil] at hm
      omega
    | cons d rest => exact ⟨d, rest, rfl⟩
  have hd : d ∈ stops := h.stop d rfl
  have hmem : d ∈ w ++ (d :: tail).take (k + 1) := by simp
  have huses := Regex.uses_of_matches hmatch hmem
  rcases mem_lexRules hr with hr | hr | hr | hr | hr
  · exact not_matches_symbol h.word hr hmatch
  · have hnot := List.all_eq_true.mp (short_keyword hd) r hr
    rw [huses] at hnot
    cases hnot
  · exact h.not_lead (k + 1) (lead_of_matches hr hmatch (h.word.head?_ne _))
  · exact not_matches_value h.word hr hmatch
  · obtain ⟨c, hc, hstart⟩ := h.word.starts hmatch
    have hshort := List.all_eq_true.mp (short_value hc hd) r hr
    rw [hstart, huses, Bool.not_true, Bool.false_or, Bool.false_or, beq_iff_eq] at hshort
    have hle := Regex.length_le hmatch hshort
    have hpos := List.length_pos_iff.mpr h.word.ne_nil
    rw [List.length_append, List.take_succ_cons, List.length_cons] at hle
    omega

/-- A word matches the rule of its token, and none in front of it. -/
theorem Alone.first (h : Alone w tail) :
    ∃ regex, lexRules.find? (·.regex.accepts w) = some (LexRule.of regex (kindOf w)) := by
  have hnone : ∀ rules : List LexRule, (∀ r ∈ rules, ¬ r.regex.Matches w) →
      rules.find? (·.regex.accepts w) = none := by
    intro rules hrules
    rw [List.find?_eq_none]
    exact fun r hr hacc => hrules r hr (Regex.accepts_iff.mp hacc)
  have hsql : ∀ r ∈ sqlRules, ¬ r.regex.Matches w := by
    intro r hr hmatch
    have hlead := h.not_lead 0
    rw [List.take_zero, List.append_nil] at hlead
    have hhead := h.word.head?_ne []
    rw [List.append_nil] at hhead
    exact hlead (lead_of_matches hr hmatch hhead)
  have hkeyword : keywordRules.find? (·.regex.accepts w) =
      (keywords.find? fun k => k.1.toList = upper w).map
        fun k => LexRule.of (Parse.word k.1) k.2 := by
    rw [keywordRules, List.find?_map]
    congr 2
    funext k
    rw [Function.comp_apply, Bool.eq_iff_iff, LexRule.of, Regex.accepts_iff, word_matches,
      decide_eq_true_eq, eq_comm]
  have hsymbol := hnone symbolRules fun r hr hmatch =>
    @not_matches_symbol w [] _ h.word hr (by rwa [List.append_nil])
  have hvalue : valueRules.find? (·.regex.accepts w) =
      some (LexRule.of identifier .tIdentifier) := by
    have hdrop : valueRules.drop 8 = LexRule.of identifier .tIdentifier :: valueRules.drop 9 := rfl
    have hconnect := hnone [connectRule] fun r hr => hsql r (List.mem_append_right _ hr)
    have hfront := hnone ((valueRules.drop 1).take 7) fun r hr hmatch =>
      @not_matches_value w [] _ h.word hr (by rwa [List.append_nil])
    have hid : identifier.accepts w = true := Regex.accepts_iff.mpr h.word.identifier
    rw [valueRules_eq, List.find?_append, List.find?_append, hconnect, hfront, hdrop,
      Option.or_none, Option.none_or, List.find?_cons_of_pos (by exact hid)]
  have hstatements := hnone statementRules fun r hr => hsql r (by simp [sqlRules, hr])
  have hopen := hnone openRules fun r hr => hsql r (by simp [sqlRules, hr])
  rw [lexRules, List.find?_append, List.find?_append, List.find?_append, List.find?_append,
    List.find?_append, hsymbol, hkeyword, hstatements, hopen, hvalue, Option.none_or,
    Option.or_none, Option.or_none, kindOf]
  cases keywords.find? fun k => k.1.toList = upper w with
  | some k => exact ⟨_, rfl⟩
  | none =>
    by_cases hprepare : upper w = "PREPARE".toList
    · have hacc : (Parse.word "PREPARE").accepts w = true :=
        Regex.accepts_iff.mpr (word_matches.mpr hprepare)
      rw [List.find?_cons_of_pos (by exact hacc)]
      exact ⟨_, by rw [if_pos hprepare]; rfl⟩
    · have hacc : ¬ (Parse.word "PREPARE").accepts w = true := fun hacc =>
        hprepare (word_matches.mp (Regex.accepts_iff.mp hacc))
      rw [List.find?_cons_of_neg (by exact hacc), List.find?_nil]
      exact ⟨_, by rw [if_neg hprepare]; rfl⟩

theorem lex_word (h : Alone w tail) : lex (w ++ tail) = ⟨kindOf w, w⟩ :: lex tail := by
  obtain ⟨regex, hfirst⟩ := h.first
  have hpos : 0 < w.length := List.length_pos_iff.mpr h.word.ne_nil
  have hle : w.length ≤ (w ++ tail).length := by
    rw [List.length_append]
    exact Nat.le_add_right _ _
  have htake : lexRules.find? (·.regex.accepts ((w ++ tail).take w.length)) =
      some (LexRule.of regex (kindOf w)) := by
    rwa [List.take_left]
  have hpick := pick_eq hpos hle htake fun r hr m hm hmatch => h.longest hr hm hmatch
  exact lex_token h.word.ne_nil hpick

end alone

/-! ## Blanks -/

section blanks

variable {bs tail : Text}

/-- `[ \t\n\r]`, what the scanner drops. -/
def isSpace (c : Char) : Bool := [' ', '\t', '\n', '\r'].contains c

def spaceRule : LexRule := ⟨.plus (oneOf " \t\n\r"), some .skip⟩

def anyRule : LexRule := ⟨.one (· != '\n'), some .char⟩

theorem lexRules_eq : lexRules = frontRules ++ [spaceRule, anyRule] := by
  have hvalue : valueRules = valueRules.take 12 ++ [spaceRule, anyRule] := rfl
  rw [lexRules, hvalue, frontRules, List.append_assoc _ (valueRules.take 12)]

theorem not_starts_space {c : Char} (hc : isSpace c = true) :
    (frontRules.all fun r => !r.regex.starts c) = true :=
  List.all_eq_true.mp tables.out.space c (List.contains_iff_mem.mp hc)

theorem lex_space (hbs : ∀ b ∈ bs, isSpace b = true)
    (htail : ∀ c ∈ tail.head?, isSpace c = false) : lex (bs ++ tail) = lex tail := by
  cases bs with
  | nil => rfl
  | cons b bs =>
    have hb : isSpace b = true := hbs b List.mem_cons_self
    have hfront : ∀ r ∈ frontRules, ∀ y, ¬ r.regex.Matches (b :: y) := by
      intro r hr y hmatch
      have hnot := List.all_eq_true.mp (not_starts_space hb) r hr
      rw [Regex.starts_of_matches hmatch] at hnot
      cases hnot
    have hspace : spaceRule.regex.Matches (b :: bs) :=
      Regex.plus_one_matches.mpr ⟨List.cons_ne_nil b bs, hbs⟩
    have hpick : pick lexRules (b :: bs ++ tail) = some (spaceRule, (b :: bs).length) := by
      refine pick_eq (Nat.zero_lt_succ _) (by simp) ?_ ?_
      · rw [List.take_left, lexRules_eq, List.find?_append,
          List.find?_eq_none.mpr fun r hr hacc => hfront r hr bs (Regex.accepts_iff.mp hacc),
          Option.none_or, List.find?_cons_of_pos (by exact Regex.accepts_iff.mpr hspace)]
      · intro r hr m hm hmatch
        rw [lexRules_eq, List.mem_append] at hr
        by_contra hlt
        rw [not_le] at hlt
        obtain ⟨k, rfl⟩ := Nat.exists_eq_add_of_lt hlt
        rw [Nat.add_assoc, List.take_length_add_append] at hmatch
        obtain ⟨d, tail, rfl⟩ : ∃ d rest, tail = d :: rest := by
          cases tail with
          | nil =>
            rw [List.append_nil] at hm
            omega
          | cons d rest => exact ⟨d, rest, rfl⟩
        rcases hr with hr | hr
        · exact hfront r hr _ hmatch
        · rcases List.mem_pair.mp hr with rfl | rfl
          · have hd := (Regex.plus_one_matches.mp hmatch).2 d (by simp)
            have hnot : isSpace d = false := htail d rfl
            rw [show (" \t\n\r".toList.contains d) = isSpace d from rfl, hnot] at hd
            cases hd
          · have hle := Regex.length_le hmatch rfl
            simp at hle
    have hdrop : (b :: bs ++ tail).drop (b :: bs).length = tail := List.drop_left
    have hstep := @lexFrom_pick _ .initial _ _ _ (Nat.zero_lt_succ _) hpick
    exact hstep.trans (congrArg (lexFrom .initial 0) hdrop)

end blanks

/-! ## Signs and numbers -/

section signs

variable {c : Char} {tail : Text} (regex : Regex Char) {kind : Kind}

/-- A sign is a token if no match goes on behind it. -/
theorem lex_sign (hfirst : lexRules.find? (·.regex.accepts [c]) = some (LexRule.of regex kind))
    (hnext : ∀ r ∈ lexRules, ∀ d y, d :: y <+: tail → ¬ r.regex.Matches (c :: d :: y)) :
    lex (c :: tail) = ⟨kind, [c]⟩ :: lex tail := by
  refine @lex_token [c] tail regex kind (List.cons_ne_nil _ _) (pick_eq Nat.one_pos (by simp) ?_
    fun r hr m hm hmatch => ?_)
  · rwa [List.take_left]
  by_contra hlt
  rw [List.length_singleton, not_le] at hlt
  obtain ⟨k, rfl⟩ := Nat.exists_eq_add_of_lt hlt
  cases tail with
  | nil =>
    simp at hm
  | cons d tail =>
    have htake : ([c] ++ d :: tail).take (1 + k + 1) = c :: d :: tail.take k := by
      rw [Nat.add_comm 1 k]
      rfl
    rw [htake] at hmatch
    exact hnext r hr d _ (List.cons_prefix_cons.mpr ⟨rfl, List.take_prefix k tail⟩) hmatch

/-- Where all matches are of one character, whatever follows. -/
theorem lex_single (hfirst : lexRules.find? (·.regex.accepts [c]) = some (LexRule.of regex kind))
    (hc : c ∈ [',', ')', '+', ';']) (tail : Text) :
    lex (c :: tail) = ⟨kind, [c]⟩ :: lex tail := by
  refine lex_sign regex hfirst fun r hr d y _ hmatch => ?_
  have hone := List.all_eq_true.mp (List.all_eq_true.mp tables.out.sign c hc) r hr
  rw [Regex.starts_of_matches hmatch, Bool.not_true, Bool.false_or, beq_iff_eq] at hone
  have hle := Regex.length_le hmatch hone
  simp at hle

theorem lex_comma (tail : Text) : lex (',' :: tail) = ⟨.sComma, [',']⟩ :: lex tail :=
  lex_single (sign ",") rfl (by simp) tail

theorem lex_rparen (tail : Text) : lex (')' :: tail) = ⟨.sRparen, [')']⟩ :: lex tail :=
  lex_single (sign ")") rfl (by simp) tail

theorem lex_plus (tail : Text) : lex ('+' :: tail) = ⟨.sPlus, ['+']⟩ :: lex tail :=
  lex_single (sign "+") rfl (by simp) tail

theorem lex_semicolon (tail : Text) : lex (';' :: tail) = ⟨.sSemicolon, [';']⟩ :: lex tail :=
  lex_single (sign ";") rfl (by simp) tail

/-- What is checked for the ten digits holds of a digit. -/
theorem forall_isDigit {P : Char → Bool} (h : ((List.range' 48 10).map Char.ofNat).all P = true)
    {d : Char} (hd : d.isDigit = true) : P d = true := by
  simp only [Char.isDigit, Bool.and_eq_true, decide_eq_true_eq, ge_iff_le,
    UInt32.le_iff_toNat_le] at hd
  have hrange : 48 ≤ d.toNat ∧ d.toNat ≤ 57 := hd
  have hmem : d ∈ (List.range' 48 10).map Char.ofNat := by
    rw [List.mem_map]
    exact ⟨d.toNat, by rw [List.mem_range'_1]; omega, Char.ofNat_toNat d⟩
  exact List.all_eq_true.mp h d hmem

theorem not_paren_of_isDigit {d : Char} (hd : d.isDigit = true) :
    (d == '(' || isBlank d) = false := by
  simpa using @forall_isDigit (fun d => !(d == '(' || isBlank d)) (by decide) d hd

def selectRule : LexRule :=
  .of (Regex.all [.star (.seq (sign "(") blanks), word "SELECT", anything]) .tSelect

/-- Parentheses and blanks in front of `SELECT` belong to it. -/
theorem head_of_select {x : Text} (h : selectRule.regex.Matches x) :
    ∃ s ∈ (x.dropWhile fun c => c == '(' || isBlank c).head?, s.toUpper = 'S' := by
  obtain ⟨_, _, rfl, ⟨us, rfl, hus⟩, u, v, rfl, hu, -⟩ := h
  have hfront : ∀ c ∈ us.flatten, (c == '(' || isBlank c) = true := by
    intro c hc
    obtain ⟨w, hw, hcw⟩ := List.mem_flatten.mp hc
    obtain ⟨a, b, rfl, ha, hb⟩ := hus w hw
    rw [Bool.or_eq_true]
    rcases List.mem_append.mp hcw with hcw | hcw
    · rw [sign_matches.mp ha] at hcw
      exact .inl (beq_iff_eq.mpr (List.mem_singleton.mp hcw))
    · exact .inr (Regex.star_one_matches.mp hb c hcw)
  have hword := word_matches.mp hu
  cases u with
  | nil => cases hword
  | cons s u =>
    have hs : s.toUpper = 'S' := (List.cons.inj hword).1
    have hnot : (s == '(' || isBlank s) = false := by
      rw [Bool.or_eq_false_iff, beq_eq_false_iff_ne]
      constructor
      · rintro rfl
        revert hs
        decide
      · by_contra hb
        have hne := @forall_isBlank (fun c => c.toUpper != 'S') (by decide) s (by simpa using hb)
        simp [hs] at hne
    refine ⟨s, ?_, hs⟩
    rw [List.dropWhile_append_of_pos hfront, List.cons_append,
      List.dropWhile_cons_of_neg (by simp [hnot])]
    rfl

theorem lex_lparen {bs rest : Text} (hbs : ∀ b ∈ bs, isBlank b = true) {d : Char}
    (hd : d.isDigit = true) :
    lex ('(' :: (bs ++ d :: rest)) = ⟨.sLparen, ['(']⟩ :: lex (bs ++ d :: rest) := by
  refine lex_sign (sign "(") rfl fun r hr e y hy hmatch => ?_
  have hsplit : statementRules = statementRules.take 13 ++ selectRule :: statementRules.drop 14 := rfl
  have hmem : r = selectRule ∨ r ∈ symbolRules ++ keywordRules ++ statementRules.take 13 ++
      statementRules.drop 14 ++ [LexRule.of (word "PREPARE") .tPrepare] ++ openRules ++
        valueRules := by
    rw [lexRules, hsplit] at hr
    simp only [List.mem_append, List.mem_cons] at hr ⊢
    tauto
  rcases hmem with rfl | hr
  · obtain ⟨s, hs, hupper⟩ := head_of_select hmatch
    rw [List.dropWhile_cons_of_pos (by rfl)] at hs
    have hhead := mem_head?_dropWhile_of_isPrefix hy hs
    rw [List.dropWhile_append_of_pos fun b hb => by rw [hbs b hb, Bool.or_true],
      List.dropWhile_cons_of_neg (by simp [not_paren_of_isDigit hd])] at hhead
    obtain rfl : d = s := Option.some.inj hhead
    have hne := @forall_isDigit (fun d => d.toUpper != 'S') (by decide) d hd
    simp [hupper] at hne
  · have hone := List.all_eq_true.mp tables.out.paren r hr
    rw [Regex.starts_of_matches hmatch, Bool.not_true, Bool.false_or, beq_iff_eq] at hone
    have hle := Regex.length_le hmatch hone
    simp at hle

theorem lex_minus {b : Char} (hb : b = ' ' ∨ b = '\t') (tail : Text) :
    lex ('-' :: b :: tail) = ⟨.sMinus, ['-']⟩ :: lex (b :: tail) := by
  refine lex_sign (sign "-") rfl fun r hr d y hy hmatch => ?_
  have hnot := List.all_eq_true.mp (List.all_eq_true.mp tables.out.minus r hr) b (List.mem_pair.mpr hb)
  obtain rfl : d = b := (List.cons_prefix_cons.mp hy).1
  rw [Regex.starts_of_matches (Regex.matches_deriv hmatch)] at hnot
  cases hnot

end signs

section numbers

variable {ds bs rest : Text} {e : Char}

theorem mem_of_hisrun {x : Text} (h : hisrunRule.regex.Matches x) : '/' ∈ x := by
  obtain ⟨a, _, rfl, -, b, _, rfl, -, c, d, rfl, hc, -⟩ := h
  rw [sign_matches.mp hc]
  simp

theorem mem_of_hisedit {x : Text} (h : hiseditRule.regex.Matches x) : ∃ c ∈ x, c.toUpper = 'E' := by
  obtain ⟨a, _, rfl, -, b, _, rfl, -, w, d, rfl, hw, -⟩ := h
  have hhead : ∃ t, upper w = 'E' :: t := by
    rcases hw with hw | hw
    · exact ⟨_, word_matches.mp hw⟩
    · exact ⟨_, word_matches.mp hw⟩
  obtain ⟨t, ht⟩ := hhead
  obtain ⟨c, w, rfl, hc, -⟩ := List.map_eq_cons_iff.mp ht
  exact ⟨c, by simp, hc⟩

theorem not_starts_digit {d : Char} (hd : d.isDigit = true) :
    ((noNumberRules ++ (valueRules.drop 3).take 2).all fun r => !r.regex.starts d) = true :=
  @forall_isDigit (fun d => (noNumberRules ++ (valueRules.drop 3).take 2).all fun r =>
    !r.regex.starts d) tables.out.digit d hd

theorem lexRules_number : lexRules = noNumberRules ++ hisrunRule :: ((valueRules.drop 3).take 2 ++
    hiseditRule :: LexRule.of digits .tNaturalnum :: valueRules.drop 7) := by
  have hvalue : valueRules = valueRules.take 2 ++ hisrunRule :: ((valueRules.drop 3).take 2 ++
    hiseditRule :: LexRule.of digits .tNaturalnum :: valueRules.drop 7) := rfl
  rw [lexRules, noNumberRules, List.append_assoc _ (valueRules.take 2), ← hvalue]

/-- The rules for numbers and those behind them do not go on over a blank or a sign, or are for a
single character. -/
theorem short_number {d f : Char} (hd : d.isDigit = true) (hf : f ∈ [' ', '\t', ',', ')']) :
    ((LexRule.of digits .tNaturalnum :: valueRules.drop 7).all fun r => !r.regex.starts d ||
      !r.regex.uses f || r.regex.maxLength == some 1) = true := by
  have hall := @forall_isDigit (fun d => [' ', '\t', ',', ')'].all fun f =>
    (LexRule.of digits .tNaturalnum :: valueRules.drop 7).all fun r => !r.regex.starts d ||
      !r.regex.uses f || r.regex.maxLength == some 1) tables.out.shortNumber d hd
  exact List.all_eq_true.mp hall f hf

/-- A number up to a comma or a parenthesis, with blanks in between. -/
structure Number (ds bs : Text) (e : Char) : Prop where
  ne_nil : ds ≠ []
  digit : ∀ d ∈ ds, d.isDigit = true
  blank : ∀ b ∈ bs, b = ' ' ∨ b = '\t'
  sign : e = ',' ∨ e = ')'

theorem Number.not_history (h : Number ds bs e) {r : LexRule}
    (hr : r = hisrunRule ∨ r = hiseditRule) {x : Text} (hx : x <+: ds ++ (bs ++ e :: rest)) :
    ¬ r.regex.Matches x := by
  intro hmatch
  have huses : r.regex.uses e = false := by
    simpa using List.all_eq_true.mp (List.all_eq_true.mp tables.out.history r (List.mem_pair.mpr hr)) e
      (List.mem_pair.mpr h.sign)
  have he : e ∉ x := by
    intro hmem
    rw [Regex.uses_of_matches hmatch hmem] at huses
    cases huses
  rw [← List.append_assoc] at hx
  have hsub := (prefix_append_cons he hx).subset
  have hchar : ∀ c ∈ x, c ≠ '/' ∧ c.toUpper ≠ 'E' := by
    intro c hc
    rcases List.mem_append.mp (hsub hc) with hc | hc
    · simpa using @forall_isDigit (fun c => c != '/' && c.toUpper != 'E') (by decide) c
        (h.digit c hc)
    · rcases h.blank c hc with rfl | rfl <;> decide
  rcases hr with rfl | rfl
  · exact (hchar '/' (mem_of_hisrun hmatch)).1 rfl
  · obtain ⟨c, hc, hupper⟩ := mem_of_hisedit hmatch
    exact (hchar c hc).2 hupper

theorem Number.starts (h : Number ds bs e) {r : LexRule} {y : Text}
    (hmatch : r.regex.Matches (ds ++ y)) : ∃ d, d.isDigit = true ∧ r.regex.starts d = true := by
  obtain ⟨d, ds, rfl⟩ := List.exists_cons_of_ne_nil h.ne_nil
  exact ⟨d, h.digit d List.mem_cons_self, Regex.starts_of_matches hmatch⟩

theorem Number.not_front (h : Number ds bs e) {r : LexRule}
    (hr : r ∈ noNumberRules ++ (valueRules.drop 3).take 2) (y : Text) :
    ¬ r.regex.Matches (ds ++ y) := by
  intro hmatch
  obtain ⟨d, hd, hstart⟩ := h.starts hmatch
  have hnot := List.all_eq_true.mp (not_starts_digit hd) r hr
  rw [hstart] at hnot
  cases hnot

theorem lex_natural (h : Number ds bs e) :
    lex (ds ++ (bs ++ e :: rest)) = ⟨.tNaturalnum, ds⟩ :: lex (bs ++ e :: rest) := by
  have hpos : 0 < ds.length := List.length_pos_iff.mpr h.ne_nil
  have hle : ds.length ≤ (ds ++ (bs ++ e :: rest)).length := by
    rw [List.length_append]
    exact Nat.le_add_right _ _
  have hfirst : lexRules.find? (·.regex.accepts ((ds ++ (bs ++ e :: rest)).take ds.length)) =
      some (LexRule.of digits .tNaturalnum) := by
    have hnone : ∀ rules : List LexRule, (∀ r ∈ rules, ¬ r.regex.Matches ds) →
        rules.find? (·.regex.accepts ds) = none := by
      intro rules hrules
      rw [List.find?_eq_none]
      exact fun r hr hacc => hrules r hr (Regex.accepts_iff.mp hacc)
    have hfront : ∀ r ∈ noNumberRules ++ (valueRules.drop 3).take 2, ¬ r.regex.Matches ds := by
      intro r hr hmatch
      exact h.not_front hr [] (by rwa [List.append_nil])
    have hpre : ds <+: ds ++ (bs ++ e :: rest) := List.prefix_append _ _
    have hhisrun : ¬ hisrunRule.regex.accepts ds = true := fun hacc =>
      h.not_history (.inl rfl) hpre (Regex.accepts_iff.mp hacc)
    have hhisedit : ¬ hiseditRule.regex.accepts ds = true := fun hacc =>
      h.not_history (.inr rfl) hpre (Regex.accepts_iff.mp hacc)
    have hdigits : digits.accepts ds = true :=
      Regex.accepts_iff.mpr (Regex.plus_one_matches.mpr ⟨h.ne_nil, h.digit⟩)
    rw [List.take_left, lexRules_number, List.find?_append,
      hnone _ fun r hr => hfront r (List.mem_append_left _ hr), Option.none_or,
      List.find?_cons_of_neg (by exact hhisrun), List.find?_append,
      hnone _ fun r hr => hfront r (List.mem_append_right _ hr), Option.none_or,
      List.find?_cons_of_neg (by exact hhisedit), List.find?_cons_of_pos (by exact hdigits)]
  refine lex_token h.ne_nil (pick_eq hpos hle hfirst fun r hr m hm hmatch => ?_)
  by_contra hlt
  rw [not_le] at hlt
  have hhistory : ∀ hr : r = hisrunRule ∨ r = hiseditRule, False := fun hr =>
    h.not_history hr (List.take_prefix m _) hmatch
  obtain ⟨k, rfl⟩ := Nat.exists_eq_add_of_lt hlt
  rw [Nat.add_assoc, List.take_length_add_append] at hmatch
  obtain ⟨f, tail, htail, hf⟩ : ∃ f tail, bs ++ e :: rest = f :: tail ∧
      f ∈ [' ', '\t', ',', ')'] := by
    cases bs with
    | nil => exact ⟨e, rest, rfl, by rcases h.sign with rfl | rfl <;> decide⟩
    | cons b bs =>
      refine ⟨b, bs ++ e :: rest, rfl, ?_⟩
      rcases h.blank b List.mem_cons_self with rfl | rfl <;> decide
  rw [htail] at hmatch
  rw [lexRules_number, List.mem_append, List.mem_cons, List.mem_append, List.mem_cons] at hr
  rcases hr with hr | rfl | hr | rfl | hr
  · exact h.not_front (List.mem_append_left _ hr) _ hmatch
  · exact hhistory (.inl rfl)
  · exact h.not_front (List.mem_append_right _ hr) _ hmatch
  · exact hhistory (.inr rfl)
  · obtain ⟨d, hd, hstart⟩ := h.starts hmatch
    have hmem : f ∈ ds ++ (f :: tail).take (k + 1) := by simp
    have hshort := List.all_eq_true.mp (short_number hd hf) r hr
    rw [hstart, Regex.uses_of_matches hmatch hmem, Bool.not_true, Bool.false_or, Bool.false_or,
      beq_iff_eq] at hshort
    have hone := Regex.length_le hmatch hshort
    rw [List.length_append, List.take_succ_cons, List.length_cons] at hone
    omega

end numbers

/-! ## What the grammar does not get to see -/

section swallows

variable {s w : Text}

theorem kind_isSome {r : LexRule} (hr : r ∈ lexRules) : ∃ action, r.kind = some action :=
  Option.isSome_iff_exists.mp (List.all_eq_true.mp tables.out.kind r hr)

/-- A rule that matches up to the end of the text or of the line leaves no other token. -/
theorem length_lex_le {r : LexRule} {m : Nat} (hr : r ∈ lexRules) (hpos : 0 < m)
    (hm : m ≤ s.length) (h : r.regex.Matches (s.take m)) (hrest : s.drop m <+: ['\n']) :
    (lex s).length ≤ 1 := by
  obtain ⟨rule, n, hpick, hmn⟩ := exists_pick hr hpos hm h
  obtain ⟨action, haction⟩ := kind_isSome (pick_spec hpick).1
  have hrule : rule = ⟨rule.regex, some action⟩ := by rw [← haction]
  have hend : ∀ condition, lexFrom condition 0 (s.drop n) = [] := by
    have hdrop : s.drop n = (s.drop m).drop (n - m) := by
      rw [List.drop_drop, Nat.add_sub_cancel' hmn]
    intro condition
    rcases List.prefix_cons_iff.mp hrest with hnil | ⟨t, ht, hpre⟩
    · rw [hdrop, hnil, List.drop_nil]
      rfl
    · rw [hdrop, ht, List.prefix_nil.mp hpre]
      cases n - m with
      | zero => cases condition <;> decide +kernel
      | succ k =>
        rw [List.drop_succ_cons, List.drop_nil]
        rfl
  have htoken : ((action.token? (s.take n)).toList).length ≤ 1 := by
    cases action.token? (s.take n) <;> simp
  rw [hrule] at hpick
  have hstep := @lexFrom_pick rule.regex .initial action s n (Nat.lt_of_lt_of_le hpos hmn) hpick
  rw [lex, hstep, hend, List.append_nil]
  exact htoken

theorem anything_matches (t : Text) : anything.Matches t :=
  Regex.star_one_matches.mpr fun _ _ => rfl

theorem open_mem {k : String × Kind} (hk : k ∈ statements) :
    LexRule.of (.seq (word k.1) anything) k.2 ∈ lexRules := by
  have hopen : LexRule.of (.seq (word k.1) anything) k.2 ∈ openRules := List.mem_map_of_mem hk
  simp [lexRules, hopen]

/-- A word that begins a statement takes the rest of the line with it. -/
theorem length_lex_swallowed (h : swallowed w = true) {line : Text} (hline : '\n' ∉ line)
    (hw : '\n' ∉ w) : (lex (w ++ (line ++ ['\n']))).length ≤ 1 := by
  obtain ⟨k, hk, hpre⟩ := List.any_eq_true.mp h
  obtain ⟨v, hv⟩ := List.isPrefixOf_iff_prefix.mp hpre
  obtain ⟨u, t, rfl, hu, -⟩ := List.map_eq_append_iff.mp hv.symm
  have hne : u ≠ [] := by
    rintro rfl
    have hall := of_decide_eq_true (List.all_eq_true.mp tables.out.head k (by simp [hk]))
    exact hall.1 hu.symm
  have hpos : ∀ t : Text, 0 < (u ++ t).length := fun t =>
    List.length_pos_iff.mpr (List.append_ne_nil_of_left_ne_nil hne t)
  have hword : (word k).Matches u := word_matches.mpr hu
  have hwhole : ∀ r ∈ lexRules, r.regex.Matches (u ++ t ++ (line ++ ['\n'])) →
      (lex (u ++ t ++ (line ++ ['\n']))).length ≤ 1 := by
    intro r hr hmatch
    refine length_lex_le hr (by rw [List.append_assoc]; exact hpos _) (Nat.le_refl _) ?_ ?_
    · rwa [List.take_length]
    · rw [List.drop_length]
      exact List.nil_prefix
  rw [heads, List.mem_append, List.mem_pair] at hk
  rcases hk with hk | rfl | rfl
  · obtain ⟨s, hs, rfl⟩ := List.mem_map.mp hk
    refine hwhole _ (open_mem hs) ?_
    rw [List.append_assoc]
    exact ⟨u, _, rfl, hword, anything_matches _⟩
  · refine hwhole selectRule (by simp [lexRules, statementRules, selectRule]) ?_
    rw [List.append_assoc]
    exact ⟨[], _, rfl, ⟨[], rfl, by simp⟩, u, _, rfl, hword, _, [], (List.append_nil _).symm,
      anything_matches _, rfl⟩
  · have hconnect : connectRule ∈ lexRules := by simp [lexRules, valueRules, connectRule]
    have hmatch : connectRule.regex.Matches (u ++ t ++ line) := by
      rw [List.append_assoc]
      refine ⟨u, _, rfl, hword, Regex.star_one_matches.mpr fun c hc => ?_⟩
      rw [bne_iff_ne]
      rintro rfl
      rcases List.mem_append.mp hc with hc | hc
      · exact hw (List.mem_append_right _ hc)
      · exact hline hc
    rw [← List.append_assoc]
    refine @length_lex_le _ _ (u ++ t ++ line).length hconnect ?_ ?_ ?_ ?_
    · rw [List.append_assoc]
      exact hpos _
    · rw [@List.length_append _ _ ['\n']]
      exact Nat.le_add_right _ _
    · rwa [List.take_left]
    · rw [List.drop_left]

/-- `EXEC` in front of a word takes the rest of the text with it. -/
theorem length_lex_execute {bs t rest : Text} (h : upper w ∈ ["EXECUTE".toList, "EXEC".toList])
    (hne : bs ≠ []) (hbs : ∀ b ∈ bs, isBlank b = true) (ht : IsWord t) :
    (lex (w ++ (bs ++ (t ++ rest)))).length ≤ 1 := by
  have hpos : 0 < (w ++ (bs ++ (t ++ rest))).length := by
    have hlen := List.length_pos_iff.mpr hne
    rw [List.length_append, List.length_append]
    omega
  have hword : execute.Matches w := by
    rcases List.mem_pair.mp h with h | h
    · exact .inl (word_matches.mpr h)
    · exact .inr (word_matches.mpr h)
  have hid : identifier.Matches t := ht.identifier
  have hrule : LexRule.of (Regex.all [execute, someBlanks, identifier, anything]) .tExecProc ∈
      lexRules := by
    simp [lexRules, statementRules]
  refine length_lex_le hrule hpos (Nat.le_refl _) ?_ ?_
  · rw [List.take_length]
    exact ⟨w, _, rfl, hword, bs, _, rfl, someBlanks_matches.mpr ⟨hne, hbs⟩, t, rest, rfl, hid,
      rest, [], by simp, anything_matches rest, rfl⟩
  · rw [List.drop_length]
    exact List.nil_prefix

def realnum : Regex Char :=
  .alt
    (Regex.all [.opt (sign "-"), digits,
      .opt (.seq (sign ".") (.star (.one Char.isDigit))), .opt exponent])
    (Regex.all [sign ".", digits, .opt exponent])

/-- A sign that stands directly in front of a digit belongs to the number. -/
theorem lex_negative {d : Char} (hd : d.isDigit = true) (rest : Text) :
    ∃ text tokens, lex ('-' :: d :: rest) = ⟨.tRealnum, text⟩ :: tokens := by
  have hmem : LexRule.of realnum .tRealnum ∈ lexRules := by
    simp [lexRules, valueRules, realnum]
  have hmatch : realnum.Matches ['-', d] := by
    refine .inl ⟨['-'], [d], rfl, .inl (sign_matches.mpr rfl), [d], [], rfl, ?_, [], [], rfl, .inr rfl, [],
      [], rfl, .inr rfl, rfl⟩
    exact Regex.plus_one_matches.mpr ⟨by simp, by simpa using hd⟩
  obtain ⟨rule, n, hpick, hn⟩ := exists_pick hmem (Nat.zero_lt_two) (s := '-' :: d :: rest)
    (by simp) hmatch
  obtain ⟨hrule, htake⟩ := pick_spec hpick
  obtain ⟨k, rfl⟩ := Nat.exists_eq_add_of_le hn
  have hstart : (rule.regex.deriv '-').starts d = true := by
    rw [Nat.add_comm, List.take_succ_cons, List.take_succ_cons] at htake
    exact Regex.starts_of_matches (Regex.matches_deriv htake)
  have hkind : rule.kind = some (.token .tRealnum) := by
    have hall := @forall_isDigit (fun d => lexRules.all fun r =>
      !(r.regex.deriv '-').starts d || r.kind == some (.token .tRealnum)) tables.out.negative d hd
    have hone := List.all_eq_true.mp hall rule hrule
    rwa [hstart, Bool.not_true, Bool.false_or, beq_iff_eq] at hone
  have heq : rule = LexRule.of rule.regex .tRealnum := by rw [LexRule.of, ← hkind]
  rw [heq] at hpick
  have hstep := @lexFrom_pick rule.regex .initial _ _ _ (by omega) hpick
  exact ⟨_, _, hstep⟩

end swallows

end Natc.Isql.Parse
