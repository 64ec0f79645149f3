import Natc.Isql.BindCalls

/-!
# Host variables of a prepared statement

`ParsingPrepareSQL` ends the name of a host variable at the first of five characters, and numbers
the variables with a counter that it reads and increments among the arguments of one call.
-/

namespace Natc.Isql.PrepareBind

open HostVarMgr (quote)

/-! ## The scan -/

/-- The order in which the compiled program evaluates the arguments of a call, which the language
leaves open. -/
inductive Evaluation where
  | leftToRight | rightToLeft
  deriving DecidableEq, Repr

/-- The value of the argument `order` beside the argument `order++`. -/
def Evaluation.argument : Evaluation → Nat → Nat
  | leftToRight, order => order
  | rightToLeft, order => order + 1

/-- The characters that end a name. -/
def isStop (c : UInt8) : Bool :=
  isBlank c || c = closeParen || c = comma

/-- The text in front of the first such character. -/
def pieceOf (text : Bytes) : Bytes :=
  text.takeWhile fun c => !isStop c

/-- The loop on the text that begins at `place`, whose first `skip` characters `pos` has passed
already: the calls of `putBindList`. -/
def prepareLoop (e : Evaluation) (place skip order : Nat) (inString : Bool) :
    Bytes → List BindCall
  | [] => []
  | c :: text =>
      match skip with
      | skip + 1 => prepareLoop e (place + 1) skip order inString text
      | 0 =>
          if inString then prepareLoop e (place + 1) 0 order (c ≠ quote) text
          else if c = quote then prepareLoop e (place + 1) 0 order true text
          else if c = colon then
            ⟨place, bindName (pieceOf text), e.argument order, order⟩ ::
              prepareLoop e (place + 1) ((pieceOf text).length + 1) (order + 1) false text
          else prepareLoop e (place + 1) 0 order false text

/-- All calls of `putBindList`, if none of them fails. -/
def prepareCalls (e : Evaluation) (tmpBuf : Bytes) : List BindCall :=
  prepareLoop e 0 0 1 false tmpBuf

/-- `iSQLCompiler::ParsingPrepareSQL`. The copy has the size of the buffer of the query. -/
def parsingPrepareSQL (e : Evaluation) (m : HostVarMgr) (a_Buf : Bytes) : ParseEnd :=
  parseEnd m.initBindList (prepareCalls e (eraseWhiteSpace a_Buf)) true

/-! ## Statements -/

/-- A part of a statement: a character, a string, or a host variable. -/
inductive Part where
  | char (c : UInt8)
  | string (s : Bytes)
  | var (name : Bytes)

namespace Part

def text : Part → Bytes
  | char c => [c]
  | string s => quote :: (s ++ [quote])
  | var name => colon :: name

/-- The characters of a name. -/
def isNameChar (c : UInt8) : Bool :=
  (48 ≤ c && c ≤ 57) || (65 ≤ c && c ≤ 90) || (97 ≤ c && c ≤ 122) || c = 95

def Ok : Part → Prop
  | char c => c ≠ quote ∧ c ≠ colon
  | string s => quote ∉ s
  | var name => name ≠ [] ∧ ∀ c ∈ name, isNameChar c

end Part

/-- The text of a statement. -/
def textOf (parts : List Part) : Bytes :=
  parts.flatMap Part.text

/-- Behind each variable there is such a character or the end. -/
def Behind (p : UInt8 → Bool) : List Part → Prop
  | [] => True
  | .char _ :: parts => Behind p parts
  | .string _ :: parts => Behind p parts
  | .var _ :: parts => (∀ c ∈ (textOf parts).head?, p c) ∧ Behind p parts

/-- A statement: it does not begin with a space, and its names end where they are said to end. -/
structure Statement (parts : List Part) : Prop where
  part : ∀ p ∈ parts, p.Ok
  head : (textOf parts).head? ≠ some space
  ends : Behind (fun c => !Part.isNameChar c) parts

/-- The host variables of a statement that begins at `place`: the k-th has the number k. -/
def hostVars (place order : Nat) : List Part → List BindCall
  | [] => []
  | .char _ :: parts => hostVars (place + 1) order parts
  | .string s :: parts => hostVars (place + (s.length + 2)) order parts
  | .var name :: parts =>
      ⟨place, toUpper name, order, order⟩ ::
        hostVars (place + (name.length + 1)) (order + 1) parts

/-- When the variables are bound: there are none, or the arguments are evaluated from the left and
one of the five characters or the end follows each. -/
def Fits (e : Evaluation) (parts : List Part) : Prop :=
  hostVars 0 1 parts = [] ∨ e = .leftToRight ∧ Behind isStop parts

section scan

variable {e : Evaluation} {place skip order : Nat} {text rest spaces : Bytes} {name : Bytes}
  {parts : List Part}

attribute [grind =] prepareLoop

theorem prepareLoop_skip {inString : Bool} :
    prepareLoop e place (text.length + skip) order inString (text ++ rest) =
      prepareLoop e (place + text.length) skip order inString rest := by
  induction text generalizing place with
  | nil => rw [List.length_nil, Nat.zero_add, List.nil_append, Nat.add_zero]
  | cons c text ih =>
    rw [List.cons_append, List.length_cons, Nat.add_right_comm, prepareLoop, ih,
      Nat.add_right_comm, Nat.add_assoc]

theorem prepareLoop_inString (h : quote ∉ text) :
    prepareLoop e place 0 order true (text ++ quote :: rest) =
      prepareLoop e (place + (text.length + 1)) 0 order false rest := by
  induction text generalizing place with
  | nil => rfl
  | cons c text ih =>
    rw [List.mem_cons, not_or] at h
    rw [List.cons_append, prepareLoop, if_pos rfl, decide_eq_true (Ne.symm h.1), ih h.2,
      List.length_cons, Nat.add_assoc, Nat.add_comm 1]

theorem prepareLoop_string (h : quote ∉ text) :
    prepareLoop e place 0 order false ((Part.string text).text ++ rest) =
      prepareLoop e (place + (text.length + 2)) 0 order false rest := by
  have hplace : place + 1 + (text.length + 1) = place + (text.length + 2) := by omega
  rw [Part.text, List.cons_append, List.append_assoc, List.singleton_append, prepareLoop,
    if_neg Bool.false_ne_true, if_pos rfl, prepareLoop_inString h, hplace]

theorem prepareLoop_char {c : UInt8} (h : (Part.char c).Ok) :
    prepareLoop e place 0 order false (c :: rest) =
      prepareLoop e (place + 1) 0 order false rest := by
  rw [prepareLoop, if_neg Bool.false_ne_true, if_neg h.1, if_neg h.2]

theorem prepareLoop_var : prepareLoop e place 0 order false (colon :: rest) =
    ⟨place, bindName (pieceOf rest), e.argument order, order⟩ ::
      prepareLoop e (place + 1) ((pieceOf rest).length + 1) (order + 1) false rest := by
  rw [prepareLoop, if_neg Bool.false_ne_true, if_neg (by decide), if_pos rfl]

theorem pieceOf_spaces (h : ∀ c ∈ spaces, c = space) :
    pieceOf (text ++ spaces) = pieceOf text := by
  induction text with
  | nil =>
    cases spaces with
    | nil => rfl
    | cons c spaces =>
      rw [h c List.mem_cons_self]
      rfl
  | cons c text ih =>
    rw [pieceOf, pieceOf, List.cons_append, List.takeWhile_cons, List.takeWhile_cons]
    rw [pieceOf, pieceOf] at ih
    rw [ih]

/-- The spaces behind the text do not matter. -/
theorem prepareLoop_spaces (h : ∀ c ∈ spaces, c = space) {inString : Bool} :
    prepareLoop e place skip order inString (text ++ spaces) =
      prepareLoop e place skip order inString text := by
  induction text generalizing place skip order inString with
  | nil =>
    induction spaces generalizing place skip with
    | nil => rfl
    | cons c spaces ih =>
      have hspaces := fun d hd => h d (List.mem_cons_of_mem c hd)
      have hc := h c List.mem_cons_self
      cases skip with
      | succ skip => exact ih hspaces
      | zero =>
        have hloop : prepareLoop e place 0 order inString (c :: spaces) =
            prepareLoop e (place + 1) 0 order inString spaces := by
          rw [hc]
          cases inString <;> rfl
        exact hloop.trans (ih hspaces)
  | cons c text ih =>
    cases skip with
    | succ skip => exact ih
    | zero =>
      rw [List.cons_append, prepareLoop, prepareLoop, pieceOf_spaces h]
      simp only [ih]

/-! ### Names -/

theorem isName (h : (Part.var name).Ok) : IsName name := by
  refine ⟨h.1, fun c hc => ?_⟩
  have hne : ∀ d, Part.isNameChar d = false → c ≠ d := by
    rintro d hd rfl
    rw [h.2 c hc] at hd
    cases hd
  simp [isBlank, hne space (by decide), hne tab (by decide), hne newline (by decide),
    hne quote (by decide), hne openParen (by decide), hne closeParen (by decide),
    hne comma (by decide), hne colon (by decide)]

theorem isStop_eq_false (h : (Part.var name).Ok) : ∀ c ∈ name, isStop c = false := by
  intro c hc
  have hchar := (isName h).char c hc
  simp only [Bool.and_eq_true, Bool.not_eq_true', decide_eq_true_eq] at hchar
  simp [isStop, hchar]

theorem pieceOf_append (h : (Part.var name).Ok) :
    pieceOf (name ++ rest) = name ++ pieceOf rest := by
  rw [pieceOf, List.takeWhile_append_of_pos, pieceOf]
  intro c hc
  rw [isStop_eq_false h c hc, Bool.not_false]

theorem pieceOf_eq_nil_iff : pieceOf rest = [] ↔ ∀ c ∈ rest.head?, isStop c := by
  cases rest with
  | nil => exact iff_of_true rfl fun c hc => absurd hc (Option.not_mem_none c)
  | cons c rest =>
    rw [pieceOf, List.takeWhile_cons, List.head?_cons]
    cases hc : isStop c <;> simp [hc]

/-- The piece behind a colon is the name exactly if it ends where the name ends. -/
theorem bindName_pieceOf (h : (Part.var name).Ok) :
    bindName (pieceOf (name ++ rest)) = toUpper name ↔ ∀ c ∈ rest.head?, isStop c := by
  have hblank : ∀ c ∈ pieceOf (name ++ rest), isBlank c = false := by
    intro c hc
    have hstop := List.mem_takeWhile_imp hc
    simp only [isStop, Bool.not_or, Bool.and_eq_true, Bool.not_eq_true'] at hstop
    exact hstop.1.1
  rw [bindName_of_noBlank hblank, pieceOf_append h, toUpper_eq, toUpper_eq, List.map_append,
    List.append_right_eq_self, List.map_eq_nil_iff, pieceOf_eq_nil_iff]

/-- A character that ends a name is none that the loop looks for. -/
theorem prepareLoop_stop (h : ∀ c ∈ rest.head?, isStop c) :
    prepareLoop e place 1 order false rest = prepareLoop e place 0 order false rest := by
  cases rest with
  | nil => rfl
  | cons c rest =>
    have hstop := h c rfl
    have hok : (Part.char c).Ok := by
      constructor <;> rintro rfl <;> exact absurd hstop (by decide)
    rw [prepareLoop_char hok, prepareLoop]

theorem argument_eq_iff : e.argument order = order ↔ e = .leftToRight := by
  cases e with
  | leftToRight => exact iff_of_true rfl rfl
  | rightToLeft => exact iff_of_false (Nat.succ_ne_self order) nofun

theorem textOf_cons (p : Part) (parts : List Part) : textOf (p :: parts) = p.text ++ textOf parts :=
  List.flatMap_cons

/-- Without variables nothing is asked of what follows them. -/
theorem behind_of_hostVars (p : UInt8 → Bool) (h : hostVars place order parts = []) :
    Behind p parts := by
  induction parts generalizing place with
  | nil => trivial
  | cons part parts ih =>
    cases part with
    | char c => exact ih h
    | string s => exact ih h
    | var name => cases h

/-- The call for a variable and those behind it. -/
theorem prepareLoop_var_iff (h : (Part.var name).Ok) :
    prepareLoop e place 0 order false ((Part.var name).text ++ textOf parts) =
        ⟨place, toUpper name, order, order⟩ ::
          hostVars (place + (name.length + 1)) (order + 1) parts ↔
      (∀ c ∈ (textOf parts).head?, isStop c) ∧ e = .leftToRight ∧
        prepareLoop e (place + (name.length + 1)) 0 (order + 1) false (textOf parts) =
          hostVars (place + (name.length + 1)) (order + 1) parts := by
  rw [Part.text, List.cons_append, prepareLoop_var, List.cons.injEq, BindCall.mk.injEq,
    bindName_pieceOf h, argument_eq_iff]
  by_cases hstop : ∀ c ∈ (textOf parts).head?, isStop c
  · have hplace : place + 1 + name.length = place + (name.length + 1) := by omega
    have hskip : prepareLoop e (place + 1) ((pieceOf (name ++ textOf parts)).length + 1)
        (order + 1) false (name ++ textOf parts) =
        prepareLoop e (place + (name.length + 1)) 0 (order + 1) false (textOf parts) := by
      rw [pieceOf_append h, pieceOf_eq_nil_iff.mpr hstop, List.append_nil, prepareLoop_skip,
        prepareLoop_stop hstop, hplace]
    rw [hskip]
    tauto
  · exact iff_of_false (fun hall => hstop hall.1.2.1) fun hall => hstop hall.1

/-- The loop makes the calls for the variables exactly if it finds their ends and reads the counter
before it increments it. -/
theorem prepareLoop_iff (h : ∀ p ∈ parts, p.Ok) :
    prepareLoop e place 0 order false (textOf parts) = hostVars place order parts ↔
      hostVars place order parts = [] ∨ e = .leftToRight ∧ Behind isStop parts := by
  induction parts generalizing place order with
  | nil => exact iff_of_true rfl (Or.inl rfl)
  | cons part parts ih =>
    have hpart := h part List.mem_cons_self
    have hparts := fun p hp => h p (List.mem_cons_of_mem part hp)
    rw [textOf_cons]
    cases part with
    | char c =>
      rw [Part.text, List.singleton_append, prepareLoop_char hpart]
      exact ih hparts
    | string s =>
      rw [prepareLoop_string hpart]
      exact ih hparts
    | var name =>
      rw [hostVars, prepareLoop_var_iff hpart, ih hparts, Behind]
      have hnone := @behind_of_hostVars (place + (name.length + 1)) (order + 1) parts isStop
      have hcons := List.cons_ne_nil (⟨place, toUpper name, order, order⟩ : BindCall)
        (hostVars (place + (name.length + 1)) (order + 1) parts)
      tauto

end scan

/-- The variables of a statement are bound exactly if it fits and they are declared. -/
theorem parsingPrepareSQL_iff (e : Evaluation) (m : HostVarMgr) (parts : List Part)
    (h : Statement parts) :
    Binds m (parsingPrepareSQL e m (textOf parts)) (prepareCalls e (eraseWhiteSpace (textOf parts)))
        (hostVars 0 1 parts) ↔
      Fits e parts ∧ ∀ c ∈ hostVars 0 1 parts, c.Ok m := by
  have herase : prepareCalls e (eraseWhiteSpace (textOf parts)) =
      prepareCalls e (textOf parts) := by
    cases htext : textOf parts with
    | nil => rfl
    | cons c text =>
      have hspace : c ≠ space := by
        rintro rfl
        exact h.head (by rw [htext, List.head?_cons])
      obtain ⟨spaces, hspaces, heq⟩ := @exists_eraseWhiteSpace text c hspace
      rw [prepareCalls, ← prepareLoop_spaces hspaces, ← heq, prepareCalls]
  rw [parsingPrepareSQL, herase, binds_iff, prepareCalls, prepareLoop_iff h.part, and_iff_left rfl,
    Fits]

instance : (p : Part) → Decidable p.Ok
  | .char _ => inferInstanceAs (Decidable (_ ∧ _))
  | .string _ => inferInstanceAs (Decidable (_ ∉ _))
  | .var _ => @instDecidableAnd _ _ inferInstance (List.decidableBAll _ _)

/-- `S :a`, and what follows. -/
def selectA (behind : List Part) : List Part :=
  .char 83 :: .char 32 :: .var [97] :: behind

theorem parsingPrepareSQL_atEnd :
    Binds declaredA (parsingPrepareSQL .leftToRight declaredA (textOf (selectA [])))
      (prepareCalls .leftToRight (eraseWhiteSpace (textOf (selectA []))))
      (hostVars 0 1 (selectA [])) := by
  have hstatement : Statement (selectA []) := ⟨by decide, by decide, nofun, trivial⟩
  refine (parsingPrepareSQL_iff .leftToRight declaredA (selectA []) hstatement).mpr
    ⟨Or.inr ⟨rfl, nofun, trivial⟩, fun c hc => ?_⟩
  rcases List.mem_singleton.mp hc with rfl
  exact ⟨by decide, by decide, by decide⟩

/-- `S :a+1`: the operator is taken into the name, whatever the order of evaluation. -/
theorem not_binds_in_sum :
    Statement (selectA [.char 43, .char 49]) ∧
    (∀ c ∈ hostVars 0 1 (selectA [.char 43, .char 49]), c.Ok declaredA) ∧
    ∀ e, ¬Binds declaredA (parsingPrepareSQL e declaredA (textOf (selectA [.char 43, .char 49])))
      (prepareCalls e (eraseWhiteSpace (textOf (selectA [.char 43, .char 49]))))
      (hostVars 0 1 (selectA [.char 43, .char 49])) := by
  refine ⟨⟨by decide, by decide, ?_, trivial⟩, fun c hc => ?_, fun e h => ?_⟩
  · rintro c ⟨⟩
    decide
  · rcases List.mem_singleton.mp hc with rfl
    exact ⟨by decide, by decide, by decide⟩
  · cases e with
    | leftToRight => exact absurd h.calls (by decide)
    | rightToLeft => exact absurd h.calls (by decide)

end Natc.Isql.PrepareBind
