import Natc.Ats.ScriptActions

/-!
# The copies of the parser

A script is parsed without an access out of bounds exactly if each of its lines has something
besides blanks and the tokens that the actions copy fit: they are not too long, `SECTOR` and
`PREPARE` are not bare, a command with an argument has one, and `CONNECT` has a password behind its
slash.
-/

namespace Natc.Ats.Script

open Lib Lib.Scanner SetEnv

/-- No access is out of bounds. -/
def InBounds {β : Type} (run : Checked β) : Prop := ∃ b, run = .ok b

/-! ## What fits -/

/-- The characters of a token that the grammar does not copy with it. -/
def Kind.skip : Kind → Nat
  | .tSetEnv | .tSystem | .tRsystem | .tSector => 7
  | .tUnsetEnv => 9
  | .tAppendLst => 10
  | .tComment | .tShell => 1
  | _ => 0

/-- The length below which a copy has a negative length. -/
def Kind.least : Kind → Nat
  | .tSector => 7
  | .tPrepare => 8
  | _ => 0

/-- A command whose last character is looked at behind its name. -/
def Kind.hasArgument : Kind → Bool
  | .tSetEnv | .tUnsetEnv | .tSystem | .tRsystem | .tAppendLst => true
  | _ => false

section Fits

variable (w : StafWords)

/-- What `CONNECT` has behind its first slash. -/
def password (aData : Text) : Option Text :=
  ((logonData aData).filter fun pos1 => '/' ∈ pos1).map fun pos1 =>
    (pos1.dropWhile (· ≠ '/')).drop 1

structure TokenFits (t : LexToken) : Prop where
  short : t.text.length < BUFFER_SIZE + t.kind.skip
  notBare : t.kind.least ≤ t.text.length
  argument : t.kind.hasArgument = true → ∃ c ∈ t.text.drop t.kind.skip, blank c = false
  logon : t.kind = .tLogon → ∀ s ∈ password (Ats.replace w.staf (stripWith blank t.text)),
    ∃ c ∈ s, blank c = false

end Fits

/-! ## Checked computations -/

section Checked

variable {β γ : Type} {x : Checked β} {f : β → Checked γ} {a : β} {b : γ}

theorem bind_ok : (x >>= f) = .ok b ↔ ∃ a, x = .ok a ∧ f a = .ok b := by
  constructor
  · intro h
    cases x with
    | error e => cases h
    | ok a => exact ⟨a, rfl, h⟩
  · rintro ⟨a, rfl, h⟩
    exact h

theorem pure_ok {c : β} : (pure c : Checked β) = .ok a ↔ c = a := by
  constructor
  · intro h
    cases h
    rfl
  · rintro rfl
    rfl

theorem check_ok {access : Access} {u : Unit} :
    check access = .ok u ↔ access.inBounds = true := by
  unfold check
  by_cases h : access.inBounds = true
  · rw [if_pos h]
    exact iff_of_true rfl h
  · rw [if_neg h]
    refine iff_of_false ?_ h
    intro hok
    cases hok

variable {text t : Text} {front back : Nat}

theorem copyData_ok : copyData text front back = .ok t ↔
    (front + back ≤ text.length ∧ text.length < BUFFER_SIZE + front + back) ∧
      (text.drop front).take (text.length - front - back) = t := by
  have hbounds : (Access.copy (text.length - front - back)).inBounds = true ↔
      front + back ≤ text.length ∧ text.length < BUFFER_SIZE + front + back := by
    simp only [Access.inBounds, Bool.and_eq_true, decide_eq_true_eq]
    omega
  unfold copyData
  simp only [bind_ok, check_ok, pure_ok, hbounds, exists_and_left, exists_const]

theorem copyData_whole : copyData text 0 0 = .ok t ↔ text.length < BUFFER_SIZE ∧ text = t := by
  rw [copyData_ok, List.drop_zero, Nat.sub_zero, Nat.sub_zero, List.take_length]
  simp only [Nat.add_zero, Nat.zero_le, true_and]

theorem copyData_front : copyData text front 0 = .ok t ↔
    (front ≤ text.length ∧ text.length < BUFFER_SIZE + front) ∧ text.drop front = t := by
  rw [copyData_ok, Nat.sub_zero, Nat.add_zero, Nat.add_zero, List.take_of_length_le]
  rw [List.length_drop]

theorem cutSemicolon_ok : cutSemicolon text = .ok t ↔ text ≠ [] ∧ withoutSemicolon text = t := by
  have hbounds : (Access.index (text.length - 1)).inBounds = true ↔ text ≠ [] := by
    cases text with
    | nil => decide
    | cons c cs => simp [Access.inBounds]
  unfold cutSemicolon
  simp only [bind_ok, check_ok, pure_ok, hbounds, exists_and_left, exists_const]

/-- The loop finds a character that is not blank. -/
theorem trimEnd_eq {white : Char → Bool} (h : ∃ c ∈ text, white c = false) :
    trimEnd white text.reverse = .ok (text.rdropWhile white) := by
  induction text using List.reverseRecOn with
  | nil =>
    obtain ⟨c, hc, _⟩ := h
    cases hc
  | append_singleton cs c ih =>
    have hindex : ∀ u, check (.index cs.reverse.length) = .ok u := by
      intro u
      rw [check_ok]
      show decide ((0 : Int) ≤ cs.reverse.length) = true
      exact decide_eq_true (Int.natCast_nonneg _)
    rw [List.reverse_append, List.reverse_singleton, List.singleton_append, trimEnd, bind_ok]
    refine ⟨(), hindex _, ?_⟩
    by_cases hc : white c = true
    · rw [if_pos hc, List.rdropWhile_concat_pos _ _ _ hc]
      apply ih
      obtain ⟨d, hd, hwhite⟩ := h
      rcases List.mem_append.mp hd with hd | hd
      · exact ⟨d, hd, hwhite⟩
      · rw [List.mem_singleton.mp hd, hc] at hwhite
        cases hwhite
    · rw [if_neg hc, List.rdropWhile_concat_neg _ _ _ hc, List.reverse_cons, List.reverse_reverse]
      rfl

theorem head_not_white {white : Char → Bool} (h : text.dropWhile white ≠ []) :
    ∃ c ∈ text.dropWhile white, white c = false :=
  ⟨_, List.head_mem h, Bool.eq_false_iff.mpr (by simpa using List.head_dropWhile_not white h)⟩

theorem stripData_eq (white : Char → Bool) (text : Text) :
    stripData white text = .ok (stripWith white text) := by
  unfold stripData
  by_cases hnil : text = []
  · rw [if_pos hnil, hnil]
    rfl
  · rw [if_neg hnil]
    by_cases hblank : text.dropWhile white = []
    · show (if text.dropWhile white = [] then _ else _) = _
      rw [if_pos hblank, stripWith, hblank]
      rfl
    · show (if text.dropWhile white = [] then _ else trimEnd white (text.dropWhile white).reverse) = _
      rw [if_neg hblank, stripWith, trimEnd_eq (head_not_white hblank)]

theorem stripWith_ne_nil {white : Char → Bool} :
    stripWith white text ≠ [] ↔ ∃ c ∈ text, white c = false := by
  constructor
  · intro h
    by_contra hall
    apply h
    have hblank : text.dropWhile white = [] := by
      rw [List.dropWhile_eq_nil_iff]
      intro c hc
      by_contra hwhite
      exact hall ⟨c, hc, Bool.eq_false_iff.mpr hwhite⟩
    rw [stripWith, hblank]
    rfl
  · intro h
    have hblank : text.dropWhile white ≠ [] := by
      rw [ne_eq, List.dropWhile_eq_nil_iff]
      intro hall
      obtain ⟨c, hc, hwhite⟩ := h
      rw [hall c hc] at hwhite
      cases hwhite
    rw [stripWith, ne_eq, List.rdropWhile_eq_nil_iff]
    intro hall
    obtain ⟨c, hc, hwhite⟩ := head_not_white hblank
    rw [hall c hc] at hwhite
    cases hwhite

end Checked

/-! ## Actions -/

section Actions

variable {w : StafWords} {known : Text → Bool} {tokens : List LexToken} {b : Bool}

/-- Whether the parser goes on behind `recptr_rule`. -/
def recptrFound (w : StafWords) (known : Text → Bool) (sData1 : Text) : Bool :=
  (recptrCommands.any fun word => word = w.staf.upperCase (w.staf.word sData1 1)) &&
    (decide ('\'' ∉ sData1) || known (recptrName w (sData1.takeWhile (· ≠ '\'') ++
      stripWith blank (sData1.dropWhile (· ≠ '\'')))))

theorem runRecptr_eq (sData1 : Text) :
    runRecptr w known sData1 = .ok (recptrFound w known sData1) := by
  unfold runRecptr recptrFound
  cases recptrCommands.any fun word => word = w.staf.upperCase (w.staf.word sData1 1) with
  | false => rfl
  | true =>
    rw [if_pos rfl, Bool.true_and]
    by_cases hquote : '\'' ∈ sData1
    · rw [if_pos hquote, strip, stripData_eq, decide_eq_false (not_not.mpr hquote), Bool.false_or]
      rfl
    · rw [if_neg hquote, decide_eq_true hquote, Bool.true_or]
      rfl

/-- A stretch has room in the buffer. -/
def Part.Fits (tokens : List LexToken) (part : Part) : Prop :=
  part.front + part.back ≤ (textAt tokens part.token).length ∧
    (textAt tokens part.token).length < BUFFER_SIZE + part.front + part.back

theorem copyParts_ok {parts : List Part} {u : Unit} :
    copyParts tokens parts = .ok u ↔ ∀ part ∈ parts, part.Fits tokens := by
  induction parts with
  | nil => exact iff_of_true rfl (List.forall_mem_nil _)
  | cons part parts ih =>
    rw [copyParts, List.forall_mem_cons, ← ih]
    simp only [bind_ok, Part.copy, copyData_ok, Part.Fits, and_assoc, exists_and_left, exists_and_right,
      exists_eq', true_and]

theorem parseLogonRule_ok (aData : Text) :
    (∃ b, parseLogonRule aData = .ok b) ↔ ∀ s ∈ password aData, ∃ c ∈ s, blank c = false := by
  unfold parseLogonRule password
  cases logonData aData with
  | none =>
    refine iff_of_true ⟨false, rfl⟩ ?_
    intro s hs
    cases hs
  | some pos1 =>
    by_cases hslash : '/' ∈ pos1
    · simp only [strip, stripData_eq, bind_ok, Except.ok.injEq, exists_eq_left',
        cutSemicolon_ok, pure_ok, and_assoc, exists_and_left, exists_eq', and_true,
        stripWith_ne_nil, Option.filter_some, hslash, decide_true, if_true, Option.map_some,
        Option.mem_some_iff, forall_eq']
    · refine iff_of_true ⟨false, if_neg hslash⟩ ?_
      intro s hs
      rw [Option.filter_some, decide_eq_false hslash] at hs
      cases hs

theorem run_copies {parts : List Part} :
    (Action.copies parts).run w known tokens = .ok b ↔
      (∀ part ∈ parts, part.Fits tokens) ∧ true = b := by
  simp only [Action.run, bind_ok, copyParts_ok, pure_ok, exists_const]

theorem run_line {part : Part} (hback : part.back = 0) :
    (Action.line part).run w known tokens = .ok b ↔
      (part.Fits tokens ∧ ∃ c ∈ (textAt tokens part.token).drop part.front, blank c = false) ∧
        true = b := by
  simp only [Action.run, Part.copy, Part.Fits, hback, strip, stripData_eq, bind_ok, copyData_front,
    cutSemicolon_ok, pure_ok, Except.ok.injEq, exists_eq_left', and_assoc, exists_and_left,
    stripWith_ne_nil, Nat.add_zero]

theorem run_sector : Action.sector.run w known tokens = .ok b ↔
    (7 ≤ (textAt tokens 2).length ∧ (textAt tokens 2).length < BUFFER_SIZE + 7) ∧ true = b := by
  have hname : (Access.copy 6).inBounds = true := by decide
  simp only [Action.run, bind_ok, copyData_front, check_ok, hname, pure_ok, and_assoc,
    exists_and_left, exists_eq_left', true_and, exists_const]

theorem run_recptr : Action.recptr.run w known tokens = .ok b ↔
    ((textAt tokens 2).length < BUFFER_SIZE ∧ ∃ c ∈ textAt tokens 2, blank c = false) ∧
      recptrFound w known (withoutSemicolon (stripWith blank (textAt tokens 2))) = b := by
  simp only [Action.run, bind_ok, copyData_whole, strip, stripData_eq, cutSemicolon_ok,
    runRecptr_eq, Except.ok.injEq, exists_eq_left', and_assoc, exists_and_left, stripWith_ne_nil]

theorem run_object : Action.object.run w known tokens = .ok b ↔
    (1 ≤ (textAt tokens 1).length ∧ (textAt tokens 1).length < BUFFER_SIZE ∧
      ∃ c ∈ (textAt tokens 1).take ((textAt tokens 1).length - 1), blank3 c = false) ∧
        true = b := by
  simp only [Action.run, bind_ok, copyData_ok, strip3, stripData_eq,
    cutSemicolon_ok, pure_ok, Except.ok.injEq, exists_eq_left', and_assoc, exists_and_left,
    stripWith_ne_nil, List.drop_zero, Nat.sub_zero, Nat.zero_add, Nat.add_zero]
  constructor
  · intro ⟨_, hsize, hone, _, hblank, hb⟩
    exact ⟨hone, hsize, hblank, hb⟩
  · intro ⟨hone, hsize, hblank, hb⟩
    exact ⟨Nat.zero_le _, hsize, hone, Nat.lt_succ_of_lt hsize, hblank, hb⟩

theorem run_connect : Action.connect.run w known tokens = .ok b ↔
    ((textAt tokens 1).length < BUFFER_SIZE ∧
      (Ats.replace w.staf (stripWith blank (textAt tokens 1))).length < BUFFER_SIZE ∧
      ∀ s ∈ password (Ats.replace w.staf (stripWith blank (textAt tokens 1))),
        ∃ c ∈ s, blank c = false) ∧ true = b := by
  rw [← parseLogonRule_ok]
  simp only [Action.run, bind_ok, copyData_whole, strip, stripData_eq, pure_ok, Except.ok.injEq,
    exists_eq_left', and_assoc, exists_and_left, exists_and_right]

end Actions

/-! ## Tokens -/

section Tokens

theorem token_nonempty (t : LexToken) : 1 ≤ t.text.length := by
  have hrules : ∀ rule ∈ lexRules, 1 ≤ rule.regex.minLength := by decide +kernel
  obtain ⟨rule, hrule, _, hmatch⟩ := t.matched
  exact Nat.le_trans (hrules rule hrule) (Regex.minLength_le hmatch)

/-- The tokens in which the actions look for a last character begin with a letter. -/
theorem token_starts (t : LexToken)
    (hkind : t.kind ∈ [Kind.tCheck2, .tSet, .tTestRecptr, .tObject]) :
    2 ≤ t.text.length ∧ ∀ c ∈ t.text.head?, blank3 c = false := by
  have hrules : ∀ rule ∈ lexRules,
      (∃ kind ∈ [Kind.tCheck2, .tSet, .tTestRecptr, .tObject], rule.kind = some kind) →
        2 ≤ rule.regex.minLength ∧ rule.regex.starts ' ' = false ∧
          rule.regex.starts '\n' = false := by decide +kernel
  obtain ⟨rule, hrule, hkinds, hmatch⟩ := t.matched
  obtain ⟨hlength, hspace, hbreak⟩ := hrules rule hrule ⟨_, hkind, hkinds⟩
  refine ⟨Nat.le_trans hlength (Regex.minLength_le hmatch), ?_⟩
  intro c hc
  obtain ⟨cs, hcs⟩ := List.head?_eq_some_iff.mp hc
  rw [hcs] at hmatch
  have hstarts := Regex.starts_of_matches hmatch
  rw [blank3, Bool.or_eq_false_iff, decide_eq_false_iff_not, decide_eq_false_iff_not]
  constructor
  · rintro rfl
    rw [hspace] at hstarts
    cases hstarts
  · rintro rfl
    rw [hbreak] at hstarts
    cases hstarts

/-- A logon is in one line. -/
theorem token_line (t : LexToken) (hkind : t.kind = .tLogon) : '\n' ∉ t.text := by
  have hrules : ∀ rule ∈ lexRules, rule.kind = some .tLogon → rule.regex.uses '\n' = false := by
    decide +kernel
  obtain ⟨rule, hrule, hkinds, hmatch⟩ := t.matched
  intro hmem
  have huses := Regex.uses_of_matches hmatch hmem
  rw [hrules rule hrule (hkind ▸ hkinds)] at huses
  cases huses

end Tokens

/-! ## Alternatives -/

section Reductions

variable {w : StafWords} {known : Text → Bool} {b : Bool}

/-- The tokens that an action copies. -/
def Action.positions : Action → List Nat
  | copies parts => parts.map Part.token
  | line part => [part.token]
  | sector | recptr => [2]
  | object | connect => [1]

def Reduction.copied (r : Reduction) : List LexToken :=
  r.production.action.positions.filterMap fun i => r.tokens[i - 1]?

/-- The parser goes on behind the action. -/
def Reduction.goesOn (w : StafWords) (known : Text → Bool) (r : Reduction) : Bool :=
  if r.production.action = .recptr then
    recptrFound w known (withoutSemicolon (stripWith blank (textAt r.tokens 2)))
  else true

/-- How an action that only copies treats a kind of token: it asks for no more than what every
token of the kind has or `Kind.least` says, and for that much. -/
def Part.Suits (parts : List Part) (part : Part) (kind : Kind) : Prop :=
  (kind.hasArgument = false ∧ kind ≠ .tLogon) ∧
    (kind.skip ≤ part.front + part.back ∧ part.front + part.back ≤ max kind.least 1) ∧
    (∃ other ∈ parts, other.token = part.token ∧ other.front + other.back = kind.skip) ∧
    (kind.least = 0 ∨
      ∃ other ∈ parts, other.token = part.token ∧ other.front + other.back = kind.least)

instance (parts : List Part) (part : Part) (kind : Kind) : Decidable (part.Suits parts kind) :=
  inferInstanceAs (Decidable (_ ∧ _))

/-- How an action that looks at the last character treats a kind. -/
def Part.SuitsLine (part : Part) (kind : Kind) : Prop :=
  (part.back = 0 ∧ part.front = kind.skip ∧ kind.least = 0 ∧ kind ≠ .tLogon) ∧
    (kind.hasArgument = true ∨ part.front = 0 ∧ kind ∈ [Kind.tCheck2, .tSet])

instance (part : Part) (kind : Kind) : Decidable (part.SuitsLine kind) :=
  inferInstanceAs (Decidable (_ ∧ _))

/-- An alternative treats each of its tokens as their kinds want it. -/
def Production.agrees (p : Production) : Bool :=
  match p.action with
  | .copies parts =>
      parts.all fun part => (p.rhs[part.token - 1]?).any fun kind => part.Suits parts kind
  | .line part => (p.rhs[part.token - 1]?).any fun kind => part.SuitsLine kind
  | .sector => p.rhs = [.tCommand, .tSector]
  | .recptr => p.rhs = [.tCommand, .tTestRecptr]
  | .object => p.rhs = [.tObject]
  | .connect => p.rhs = [.tLogon]

theorem agrees_all : ∀ p ∈ ruleProductions ++ typeProductions, p.agrees = true := by
  decide +kernel

variable {r : Reduction}

theorem exists_token {i : Nat} {kind : Kind} (h : r.production.rhs[i]? = some kind) :
    ∃ t, r.tokens[i]? = some t ∧ t.kind = kind := by
  rw [← r.rhs_eq, List.getElem?_map] at h
  exact Option.map_eq_some_iff.mp h

theorem textAt_eq {i : Nat} {t : LexToken} (h : r.tokens[i - 1]? = some t) :
    textAt r.tokens i = t.text := by
  rw [textAt, h]
  rfl

theorem mem_copied {t : LexToken} :
    t ∈ r.copied ↔ ∃ i ∈ r.production.action.positions, r.tokens[i - 1]? = some t :=
  List.mem_filterMap

theorem copies_suit {parts : List Part} (haction : r.production.action = .copies parts)
    {part : Part} (hpart : part ∈ parts) :
    ∃ t, r.tokens[part.token - 1]? = some t ∧ part.Suits parts t.kind := by
  have hagrees := agrees_all r.production r.mem
  rw [Production.agrees, haction, List.all_eq_true] at hagrees
  obtain ⟨kind, hkind, hsuits⟩ := (Option.any_eq_true _ _).mp (hagrees part hpart)
  obtain ⟨t, ht, rfl⟩ := exists_token hkind
  exact ⟨t, ht, of_decide_eq_true hsuits⟩

theorem copies_iff {parts : List Part} (haction : r.production.action = .copies parts) :
    (∀ part ∈ parts, part.Fits r.tokens) ↔ ∀ t ∈ r.copied, TokenFits w t := by
  constructor
  · intro h t ht
    obtain ⟨i, hi, ht⟩ := mem_copied.mp ht
    rw [haction] at hi
    obtain ⟨part, hpart, rfl⟩ := List.mem_map.mp hi
    obtain ⟨u, hu, ⟨hplain, hlogon⟩, _, hskip, hleast⟩ := copies_suit haction hpart
    obtain rfl : t = u := Option.some.inj (ht.symm.trans hu)
    have hfits : ∀ other ∈ parts, other.token = part.token →
        other.front + other.back ≤ t.text.length ∧
          t.text.length < BUFFER_SIZE + other.front + other.back := by
      intro other hother htoken
      have hroom := h other hother
      rwa [Part.Fits, htoken, textAt_eq ht] at hroom
    constructor
    · obtain ⟨other, hother, htoken, hsum⟩ := hskip
      have hroom := (hfits other hother htoken).2
      omega
    · rcases hleast with hzero | ⟨other, hother, htoken, hsum⟩
      · omega
      · have hroom := (hfits other hother htoken).1
        omega
    · intro hargument
      rw [hplain] at hargument
      cases hargument
    · exact fun hkind => absurd hkind hlogon
  · intro h part hpart
    obtain ⟨t, ht, _, ⟨hskip, hleast⟩, _, _⟩ := copies_suit haction hpart
    have hfits := h t (mem_copied.mpr ⟨part.token, by
      rw [haction]
      exact List.mem_map_of_mem hpart, ht⟩)
    have hone := token_nonempty t
    have hshort := hfits.short
    have hnotBare := hfits.notBare
    rw [Part.Fits, textAt_eq ht]
    omega

/-- An action that copies one token. -/
theorem forall_copied {i : Nat} {t : LexToken} {P : LexToken → Prop}
    (hpositions : r.production.action.positions = [i]) (ht : r.tokens[i - 1]? = some t) :
    (∀ t ∈ r.copied, P t) ↔ P t := by
  simp [mem_copied, hpositions, ht]

theorem exists_not_blank {t : LexToken}
    (hkind : t.kind ∈ [Kind.tCheck2, .tSet, .tTestRecptr, .tObject]) :
    ∃ c ∈ t.text, blank c = false := by
  obtain ⟨hlength, hhead⟩ := token_starts t hkind
  cases htext : t.text with
  | nil =>
    rw [htext] at hlength
    cases hlength
  | cons c cs =>
    rw [htext] at hhead
    exact ⟨c, List.mem_cons_self, (Bool.or_eq_false_iff.mp (hhead c rfl)).1⟩

theorem line_iff {part : Part} (haction : r.production.action = .line part) :
    part.back = 0 ∧ ((part.Fits r.tokens ∧
      ∃ c ∈ (textAt r.tokens part.token).drop part.front, blank c = false) ↔
        ∀ t ∈ r.copied, TokenFits w t) := by
  have hagrees := agrees_all r.production r.mem
  rw [Production.agrees, haction] at hagrees
  obtain ⟨kind, hkind, hsuits⟩ := (Option.any_eq_true _ _).mp hagrees
  obtain ⟨t, ht, rfl⟩ := exists_token hkind
  obtain ⟨⟨hback, hfront, hleast, hlogon⟩, hcases⟩ := of_decide_eq_true hsuits
  refine ⟨hback, ?_⟩
  rw [forall_copied (by rw [haction]; rfl) ht, Part.Fits, textAt_eq ht, hback, hfront]
  constructor
  · intro ⟨hroom, hblank⟩
    exact ⟨hroom.2, hleast ▸ Nat.zero_le _, fun _ => hblank, fun h => absurd h hlogon⟩
  · intro hfits
    have hblank : ∃ c ∈ t.text.drop t.kind.skip, blank c = false := by
      rcases hcases with hargument | ⟨hzero, hstarts⟩
      · exact hfits.argument hargument
      · rw [← hfront, hzero]
        exact exists_not_blank (by simp only [List.mem_cons] at hstarts ⊢; tauto)
    have hlength : t.kind.skip ≤ t.text.length := by
      obtain ⟨c, hc, _⟩ := hblank
      have hpos := List.length_pos_of_mem hc
      rw [List.length_drop] at hpos
      omega
    exact ⟨⟨hlength, hfits.short⟩, hblank⟩

/-- The token of an action for a single alternative. -/
theorem single_token {i : Nat} {kinds : List Kind} {kind : Kind}
    (hrhs : r.production.rhs = kinds) (hkind : kinds[i - 1]? = some kind) :
    ∃ t, r.tokens[i - 1]? = some t ∧ t.kind = kind :=
  exists_token (hrhs ▸ hkind)

/-- A kind of which the whole token is copied. -/
theorem tokenFits_iff_short {t : LexToken} (hskip : t.kind.skip = 0) (hleast : t.kind.least = 0)
    (hargument : t.kind.hasArgument = false) (hlogon : t.kind ≠ .tLogon) :
    TokenFits w t ↔ t.text.length < BUFFER_SIZE := by
  constructor
  · intro hfits
    have hshort := hfits.short
    rwa [hskip] at hshort
  · intro hshort
    refine ⟨by rwa [hskip], hleast ▸ Nat.zero_le _, ?_, fun h => absurd h hlogon⟩
    intro h
    rw [hargument] at h
    cases h

/-- The placeholders are longer than what stands for them. -/
theorem replace_length_le {text : Text} (hline : '\n' ∉ text) :
    (Ats.replace w.staf text).length ≤ text.length := by
  have hindent : indent w.staf text = text := by
    rw [indent, w.staf.replace_eq _ _ _ (by decide), replaceAll_of_absent]
    intro h
    exact hline (h.subset (by decide))
  rw [Ats.replace, hindent, w.staf.replace_eq _ _ _ (by decide), w.staf.replace_eq _ _ _ (by decide)]
  calc (replaceAll innerSlash _ _).length
      ≤ (replaceAll innerSemicolon ";".toList text).length :=
        replaceAll_length_le (by decide) (by decide) _
    _ ≤ text.length := replaceAll_length_le (by decide) (by decide) _

theorem sector_iff {t : LexToken} (hkind : t.kind = .tSector) :
    (7 ≤ t.text.length ∧ t.text.length < BUFFER_SIZE + 7) ↔ TokenFits w t := by
  constructor
  · intro ⟨hleast, hshort⟩
    refine ⟨by rwa [hkind], by rwa [hkind], ?_, ?_⟩
    · intro hargument
      rw [hkind] at hargument
      cases hargument
    · intro hlogon
      rw [hkind] at hlogon
      cases hlogon
  · intro hfits
    have hshort := hfits.short
    have hleast := hfits.notBare
    rw [hkind] at hshort hleast
    exact ⟨hleast, hshort⟩

theorem object_iff {t : LexToken} (hkind : t.kind = .tObject) :
    (1 ≤ t.text.length ∧ t.text.length < BUFFER_SIZE ∧
      ∃ c ∈ t.text.take (t.text.length - 1), blank3 c = false) ↔ TokenFits w t := by
  obtain ⟨hlength, hhead⟩ := token_starts t (by rw [hkind]; decide)
  have hblank : ∃ c ∈ t.text.take (t.text.length - 1), blank3 c = false := by
    cases htext : t.text with
    | nil =>
      rw [htext] at hlength
      cases hlength
    | cons c cs =>
      rw [htext] at hlength hhead
      refine ⟨c, ?_, hhead c rfl⟩
      rw [show (c :: cs).length - 1 = cs.length - 1 + 1 by simp at hlength ⊢; omega,
        List.take_succ_cons]
      exact List.mem_cons_self
  rw [tokenFits_iff_short (by rw [hkind]; rfl) (by rw [hkind]; rfl) (by rw [hkind]; rfl)
    (by rw [hkind]; decide)]
  constructor
  · intro ⟨_, hshort, _⟩
    exact hshort
  · intro hshort
    exact ⟨Nat.le_of_succ_le hlength, hshort, hblank⟩

theorem connect_iff {t : LexToken} (hkind : t.kind = .tLogon) :
    (t.text.length < BUFFER_SIZE ∧
      (Ats.replace w.staf (stripWith blank t.text)).length < BUFFER_SIZE ∧
      ∀ s ∈ password (Ats.replace w.staf (stripWith blank t.text)), ∃ c ∈ s, blank c = false) ↔
        TokenFits w t := by
  have hsub : stripWith blank t.text <:+: t.text :=
    (List.rdropWhile_prefix _ _).isInfix.trans (List.dropWhile_suffix _).isInfix
  have hlength : (Ats.replace w.staf (stripWith blank t.text)).length ≤ t.text.length :=
    (replace_length_le fun h => token_line t hkind (hsub.subset h)).trans hsub.length_le
  constructor
  · intro ⟨hshort, _, hpassword⟩
    refine ⟨by rwa [hkind], hkind ▸ Nat.zero_le _, ?_, fun _ => hpassword⟩
    intro hargument
    rw [hkind] at hargument
    cases hargument
  · intro hfits
    have hshort := hfits.short
    rw [hkind] at hshort
    exact ⟨hshort, hlength.trans_lt hshort, hfits.logon hkind⟩

/-- What an action needs, and what it gives. -/
theorem Reduction.run_ok (r : Reduction) : r.production.action.run w known r.tokens = .ok b ↔
    (∀ t ∈ r.copied, TokenFits w t) ∧ r.goesOn w known = b := by
  have hagrees := agrees_all r.production r.mem
  unfold Reduction.goesOn
  cases haction : r.production.action with
  | copies parts => rw [run_copies, copies_iff haction, if_neg (by simp)]
  | line part =>
    obtain ⟨hback, hiff⟩ := line_iff (w := w) haction
    rw [run_line hback, hiff, if_neg (by simp)]
  | sector =>
    rw [Production.agrees, haction] at hagrees
    obtain ⟨t, ht, hkind⟩ := single_token (i := 2) (of_decide_eq_true hagrees) rfl
    rw [run_sector, forall_copied (by rw [haction]; rfl) ht, textAt_eq ht, sector_iff hkind,
      if_neg (by simp)]
  | recptr =>
    rw [Production.agrees, haction] at hagrees
    obtain ⟨t, ht, hkind⟩ := single_token (i := 2) (of_decide_eq_true hagrees) rfl
    rw [run_recptr, forall_copied (by rw [haction]; rfl) ht, textAt_eq ht, if_pos rfl,
      tokenFits_iff_short (by rw [hkind]; rfl) (by rw [hkind]; rfl) (by rw [hkind]; rfl)
        (by rw [hkind]; decide),
      and_iff_left (exists_not_blank (by rw [hkind]; decide))]
  | object =>
    rw [Production.agrees, haction] at hagrees
    obtain ⟨t, ht, hkind⟩ := single_token (i := 1) (of_decide_eq_true hagrees) rfl
    rw [run_object, forall_copied (by rw [haction]; rfl) ht, textAt_eq ht, object_iff hkind,
      if_neg (by simp)]
  | connect =>
    rw [Production.agrees, haction] at hagrees
    obtain ⟨t, ht, hkind⟩ := single_token (i := 1) (of_decide_eq_true hagrees) rfl
    rw [run_connect, forall_copied (by rw [haction]; rfl) ht, textAt_eq ht, connect_iff hkind,
      if_neg (by simp)]

end Reductions

/-! ## Scripts -/

section TestCase

variable (w : StafWords) (known : Text → Bool)

/-- The reductions up to the first behind which the parser gives up. -/
def performed : List Reduction → List Reduction
  | [] => []
  | r :: rs => r :: if r.goesOn w known = true then performed rs else []

/-- The text of a script as it is parsed. -/
def TestCase.text : TestCase → Text
  | done => []
  | line sLine loaded rest =>
      (if sLine.isLoad = true then
        sLine.loadMark w "BEGIN" ++ loaded.text ++ sLine.loadMark w "END"
      else loadLine w.staf sLine.text) ++ rest.text

/-- The lines that go through `parseInnerSC`. -/
def TestCase.innerLines : TestCase → List Line
  | done => []
  | line sLine loaded rest =>
      (if sLine.isLoad = true then loaded.innerLines
      else if isComment w.staf sLine.text = true then [] else [sLine]) ++ rest.innerLines

/-- What has to hold of a script. -/
structure TestCase.Fits (s : TestCase) : Prop where
  lines : ∀ sLine ∈ s.innerLines w, w.staf.strip sLine.text ≠ []
  tokens : ∀ r ∈ performed w known (psparse (psLexer (s.text w))), ∀ t ∈ r.copied, TokenFits w t

variable {w known}

theorem runReductions_ok (rs : List Reduction) : (∃ b, runReductions w known rs = .ok b) ↔
    ∀ r ∈ performed w known rs, ∀ t ∈ r.copied, TokenFits w t := by
  induction rs with
  | nil => exact iff_of_true ⟨true, rfl⟩ (List.forall_mem_nil _)
  | cons r rs ih =>
    rw [performed, List.forall_mem_cons]
    simp only [runReductions, bind_ok, r.run_ok]
    cases hgoes : r.goesOn w known with
    | true =>
      rw [if_pos rfl, ← ih]
      simp
    | false => simp [pure_ok]

theorem strip_short (sLine : Line) : (w.staf.strip sLine.text).length < BUFFER_SIZE := by
  rw [w.staf.strip_eq]
  exact ((List.rdropWhile_prefix _ _).length_le.trans
    (List.dropWhile_suffix _).length_le).trans_lt sLine.short

theorem parseInnerSC_ok (sLine : Line) (t : Text) : parseInnerSC w sLine.text = .ok t ↔
    w.staf.strip sLine.text ≠ [] ∧ Ats.parseInnerSC w.staf sLine.text = t := by
  have hshort : sLine.text.length < BUFFER_SIZE := sLine.short
  simp only [parseInnerSC, bind_ok, copyData_whole, cutSemicolon_ok, pure_ok, hshort,
    strip_short sLine, true_and, exists_eq_left', and_assoc, exists_and_left]

theorem load_ok (s : TestCase) (t : Text) : s.load w = .ok t ↔
    (∀ sLine ∈ s.innerLines w, w.staf.strip sLine.text ≠ []) ∧ s.text w = t := by
  induction s generalizing t with
  | done => exact Iff.trans pure_ok (by simp [TestCase.innerLines, TestCase.text])
  | line sLine loaded rest hloaded hrest =>
    rw [TestCase.load, TestCase.innerLines, TestCase.text, List.forall_mem_append]
    by_cases hload : sLine.isLoad = true
    · simp only [if_pos hload, bind_ok, hloaded, hrest, pure_ok, and_assoc, exists_and_left,
        exists_eq_left']
    · by_cases hcomment : isComment w.staf sLine.text = true
      · have hline : loadLine w.staf sLine.text = sLine.text := if_pos hcomment
        simp only [if_neg hload, if_pos hcomment, hline, bind_ok, hrest, pure_ok, and_assoc,
          exists_and_left, exists_eq_left']
        exact (and_iff_right (List.forall_mem_nil _)).symm
      · simp only [if_neg hload, if_neg hcomment, bind_ok, parseInnerSC_ok, hrest, pure_ok,
          and_assoc, exists_and_left, exists_eq_left', List.forall_mem_singleton]

/-- A script is parsed within bounds exactly if it fits. -/
theorem inBounds_iff (w : StafWords) (known : Text → Bool) (s : TestCase) :
    InBounds (s.run w known) ↔ s.Fits w known := by
  unfold InBounds TestCase.run
  simp only [bind_ok, load_ok]
  constructor
  · intro ⟨b, mInData, ⟨hlines, htext⟩, hrun⟩
    subst htext
    exact ⟨hlines, (runReductions_ok _).mp ⟨b, hrun⟩⟩
  · intro hfits
    obtain ⟨b, hrun⟩ := (runReductions_ok _).mpr hfits.tokens
    exact ⟨b, s.text w, ⟨hfits.lines, rfl⟩, hrun⟩

/-- A script with nothing but a bare `SYSTEM`. -/
def bareSystem : TestCase := .line ⟨"--+SYSTEM\n".toList, by decide, by decide⟩ .done .done

theorem not_inBounds_bareSystem :
    ¬∀ (w : StafWords) (known : Text → Bool) (s : TestCase), InBounds (s.run w known) := by
  intro h
  obtain ⟨b, hb⟩ := h asciiWords (fun _ => true) bareSystem
  have hrun : (bareSystem.run asciiWords fun _ => true).isOk = false := by decide +kernel
  rw [hb] at hrun
  cases hrun

end TestCase

end Natc.Ats.Script
