import Natc.Isql.BindCalls

/-!
# Host variables of a procedure call

`ParsingExecProc` reads the arguments of `EXEC` character by character. A host variable that it
meets outside of strings and parentheses reaches to the next comma of the whole rest, or else to the
next closing parenthesis.
-/

namespace Natc.Isql.ExecBind

open HostVarMgr (quote)

/-! ## The scan -/

/-- The flag and the counters of the loop. -/
structure Nesting where
  inString : Bool
  brace_cnt : Nat
  para_order : Nat
  deriving DecidableEq, Repr

namespace Nesting

variable (s : Nesting)

def start : Nesting :=
  ⟨false, 0, 1⟩

def outside : Bool :=
  !s.inString && s.brace_cnt = 0

/-- A character that does not begin a host variable. -/
def read (c : UInt8) : Nesting :=
  if s.inString then
    if c = quote then { s with inString := false } else s
  else if 0 < s.brace_cnt then
    if c = closeParen then { s with brace_cnt := s.brace_cnt - 1 }
    else if c = openParen then { s with brace_cnt := s.brace_cnt + 1 }
    else s
  else if c = quote then { s with inString := true }
  else if c = openParen then { s with brace_cnt := s.brace_cnt + 1 }
  else if c = comma then { s with para_order := s.para_order + 1 }
  else s

def reads (text : Bytes) : Nesting :=
  text.foldl read s

end Nesting

/-- The end of the variable whose colon lies in front of this text. -/
def nameEnd (text : Bytes) : Option Nat :=
  (strchr text comma).or (strchr text closeParen)

/-- The loop on the text that begins at `place`, whose first `skip` characters `pos` has passed
already: the calls of `putBindList`, and whether `pos` stays in the copy. Where a variable has no
end, `pos` becomes NULL. -/
def execLoop (place skip order : Nat) (s : Nesting) : Bytes → List BindCall × Bool
  | [] => ([], true)
  | c :: text =>
      match skip with
      | skip + 1 => execLoop (place + 1) skip order s text
      | 0 =>
          if s.outside && c = colon then
            match nameEnd text with
            | some n =>
                let (calls, inside) := execLoop (place + 1) (n + 1) (order + 1)
                  { s with para_order := s.para_order + 1 } text
                (⟨place, bindName (text.take n), order, s.para_order⟩ :: calls, inside)
            | none => ([⟨place, bindName text, order, s.para_order⟩], false)
          else execLoop (place + 1) 0 order (s.read c) text

/-- The part of the copy that begins at `place` and in which the call is looked for. -/
def execArguments (place order : Nat) (text : Bytes) : List BindCall × Bool :=
  match strchr text openParen with
  | none => ([], true)
  | some n => execLoop (place + (n + 1)) 0 order Nesting.start (text.drop (n + 1))

/-- All calls of `putBindList`, if none of them fails. -/
def execCalls (tmpBuf : Bytes) (a_IsFunc : Bool) : List BindCall × Bool :=
  if a_IsFunc then
    match strchr tmpBuf colon with
    | none => ([], false)
    | some pos1 =>
        let behind := tmpBuf.drop (pos1 + 1)
        match strchr behind colon with
        | none => ([], false)
        | some n =>
            let (calls, inside) := execArguments (pos1 + 1 + (n + 1)) 2 (behind.drop (n + 1))
            (⟨pos1, bindName (behind.take n), 1, 1⟩ :: calls, inside)
  else execArguments 0 1 tmpBuf

/-- `iSQLCompiler::ParsingExecProc`. The copy has the size of the buffer of the query. -/
def parsingExecProc (m : HostVarMgr) (a_Buf : Bytes) (a_IsFunc : Bool) : ParseEnd :=
  let (calls, inside) := execCalls (eraseWhiteSpace a_Buf) a_IsFunc
  parseEnd m.initBindList calls inside

/-! ## Call texts -/

/-- An expression: outside of its strings the parentheses are balanced, and a comma stands in
parentheses (`nested`) only. -/
inductive Expr : Bool → Bytes → Prop where
  | nil {nested : Bool} : Expr nested []
  | char {nested : Bool} {c : UInt8} {e : Bytes} :
      c ≠ quote → c ≠ openParen → c ≠ closeParen → (c = comma → nested) →
      Expr nested e → Expr nested (c :: e)
  | string {nested : Bool} {text e : Bytes} :
      quote ∉ text → Expr nested e → Expr nested (quote :: (text ++ quote :: e))
  | group {nested : Bool} {text e : Bytes} :
      Expr true text → Expr nested e → Expr nested (openParen :: (text ++ closeParen :: e))

/-- A host variable with the blanks around it. -/
structure Host where
  front : Bytes
  name : Bytes
  behind : Bytes

namespace Host

def text (v : Host) : Bytes :=
  v.front ++ colon :: (v.name ++ v.behind)

structure Ok (v : Host) : Prop where
  front : ∀ c ∈ v.front, isBlank c
  name : IsName v.name
  behind : ∀ c ∈ v.behind, isBlank c

end Host

/-- An argument: a host variable, or a literal or an expression. -/
inductive Arg where
  | host (v : Host)
  | other (text : Bytes)

namespace Arg

def text : Arg → Bytes
  | host v => v.text
  | other text => text

def Ok : Arg → Prop
  | host v => v.Ok
  | other text => Expr false text ∧ ∀ v : Host, v.Ok → text ≠ v.text

end Arg

def argsText : List Arg → Bytes
  | [] => []
  | [a] => a.text
  | a :: args => a.text ++ comma :: argsText args

/-- The closing parenthesis and what follows it. -/
def closerText : Option Bytes → Bytes
  | none => []
  | some tail => closeParen :: tail

/-- The text of a call. `front` is `EXEC` with the blanks behind it, a function has a variable for
its result, and the closing parenthesis may be missing. -/
structure ExecText where
  front : Bytes
  result : Option Host
  procedure : Bytes
  params : Option (List Arg × Option Bytes)

namespace ExecText

variable (t : ExecText)

def paramsText : Bytes :=
  match t.params with
  | none => []
  | some (args, closer) => openParen :: (argsText args ++ closerText closer)

def text : Bytes :=
  match t.result with
  | none => t.front ++ (t.procedure ++ t.paramsText)
  | some v => t.front ++ (v.text ++ colon :: (t.procedure ++ t.paramsText))

structure Ok : Prop where
  front : ∃ c front, t.front = c :: front ∧ c ≠ space ∧ colon ∉ t.front ∧ openParen ∉ t.front
  result : ∀ v ∈ t.result, v.Ok
  procedure : colon ∉ t.procedure ∧ openParen ∉ t.procedure
  args : ∀ p ∈ t.params, ∀ a ∈ p.1, a.Ok
  closer : ∀ p ∈ t.params, ∀ tail ∈ p.2, colon ∉ tail ∧ comma ∉ tail

end ExecText

/-! ## What is to be bound -/

/-- The host variables among the arguments that begin at `place`. -/
def arguments (place order para_order : Nat) : List Arg → List BindCall
  | [] => []
  | .host v :: args =>
      ⟨place + v.front.length, toUpper v.name, order, para_order⟩ ::
        arguments (place + (v.text.length + 1)) (order + 1) (para_order + 1) args
  | .other text :: args =>
      arguments (place + (text.length + 1)) order (para_order + 1) args

namespace ExecText

variable (t : ExecText)

def paramsCalls (place order : Nat) : List BindCall :=
  match t.params with
  | none => []
  | some (args, _) => arguments (place + (t.procedure.length + 1)) order 1 args

/-- The variable for the result of a function, then the arguments. -/
def calls : List BindCall :=
  match t.result with
  | none => t.paramsCalls t.front.length 1
  | some v =>
      ⟨t.front.length + v.front.length, toUpper v.name, 1, 1⟩ ::
        t.paramsCalls (t.front.length + (v.text.length + 1)) 2

end ExecText

/-! ## When they are bound -/

/-- No colon of the text is met outside. -/
def Silent (s : Nesting) : Bytes → Prop
  | [] => True
  | c :: text => ¬(s.outside = true ∧ c = colon) ∧ Silent (s.read c) text

/-- Each host variable is met outside, behind as many commas as there are arguments in front of it;
the blanks behind it are trimmed, and the last one has a closing parenthesis. No other colon is met
outside. -/
def Meets (closed : Prop) (s : Nesting) (para_order : Nat) : List Arg → Prop
  | [] => True
  | .host v :: args =>
      s.outside = true ∧ s.para_order = para_order ∧ Trimmed v.behind ∧ (args = [] → closed) ∧
        Meets closed { s with para_order := s.para_order + 1 } (para_order + 1) args
  | .other text :: args =>
      Silent s text ∧ Meets closed ((s.reads text).read comma) (para_order + 1) args

/-- The texts whose variables are bound. -/
structure ExecText.Fits (t : ExecText) : Prop where
  result : ∀ v ∈ t.result, Trimmed v.behind
  args : ∀ p ∈ t.params, Meets (p.2.isSome = true) Nesting.start 1 p.1

section scan

variable {s : Nesting} {c : UInt8} {text rest tail spaces : Bytes} {place skip order n : Nat}

theorem Nesting.read_blank (h : isBlank c) : s.read c = s := by
  have hchar : c = space ∨ c = tab ∨ c = newline := by
    simpa only [isBlank, Bool.or_eq_true, decide_eq_true_eq, or_assoc] using h
  rcases hchar with rfl | rfl | rfl <;>
    simp [read, quote, closeParen, openParen, comma, space, tab, newline]

theorem Nesting.reads_blanks (h : ∀ c ∈ text, isBlank c) : s.reads text = s := by
  induction text with
  | nil => rfl
  | cons c text ih =>
    rw [reads, List.foldl_cons, read_blank (h c List.mem_cons_self)]
    exact ih fun d hd => h d (List.mem_cons_of_mem c hd)

theorem silent_of_colon_notMem (h : colon ∉ text) : Silent s text := by
  induction text generalizing s with
  | nil => trivial
  | cons c text ih =>
    rw [List.mem_cons, not_or] at h
    exact ⟨fun hc => h.1 hc.2.symm, ih h.2⟩

theorem silent_blanks (h : ∀ c ∈ text, isBlank c) : Silent s text := by
  apply silent_of_colon_notMem
  intro hmem
  exact absurd (h colon hmem) (by decide)

/-! ### Steps of the loop -/

attribute [grind =] execLoop

theorem execLoop_silent (h : Silent s text) :
    execLoop place 0 order s (text ++ rest) =
      execLoop (place + text.length) 0 order (s.reads text) rest := by
  induction text generalizing place s with
  | nil => rfl
  | cons c text ih =>
    have hquiet : (s.outside && decide (c = colon)) = false := by
      rw [Bool.eq_false_iff, ne_eq, Bool.and_eq_true, decide_eq_true_eq]
      exact h.1
    rw [List.cons_append, execLoop, hquiet, if_neg Bool.false_ne_true, ih h.2, List.length_cons,
      Nat.add_right_comm, Nat.add_assoc]
    rfl

theorem execLoop_skip : execLoop place text.length order s (text ++ rest) =
    execLoop (place + text.length) 0 order s rest := by
  induction text generalizing place with
  | nil => rfl
  | cons c text ih =>
    rw [List.cons_append, List.length_cons, execLoop, ih, Nat.add_right_comm, Nat.add_assoc]

/-- A variable that is met outside and has an end. -/
theorem execLoop_host (h : s.outside = true)
    (hend : nameEnd (text ++ c :: rest) = some text.length) :
    execLoop place 0 order s (colon :: (text ++ c :: rest)) =
      (⟨place, bindName text, order, s.para_order⟩ ::
        (execLoop (place + (text.length + 2)) 0 (order + 1)
          { s with para_order := s.para_order + 1 } rest).1,
      (execLoop (place + (text.length + 2)) 0 (order + 1)
          { s with para_order := s.para_order + 1 } rest).2) := by
  have hplace : place + 1 + (text.length + 1) = place + (text.length + 2) := by omega
  have hskip := @execLoop_skip { s with para_order := s.para_order + 1 } (text ++ [c]) rest
    (place + 1) (order + 1)
  rw [List.append_assoc, List.singleton_append, List.length_append, List.length_singleton,
    hplace] at hskip
  rw [execLoop, h, decide_eq_true rfl, Bool.and_self, if_pos rfl, hend]
  simp only [hskip, List.take_left]

/-- A variable without an end. -/
theorem execLoop_endless (h : s.outside = true) (hend : nameEnd text = none) :
    execLoop place 0 order s (colon :: text) =
      ([⟨place, bindName text, order, s.para_order⟩], false) := by
  rw [execLoop, h, decide_eq_true rfl, Bool.and_self, if_pos rfl, hend]

/-- A colon that is not met outside. -/
theorem execLoop_inside (h : ¬s.outside = true) :
    execLoop place 0 order s (colon :: text) =
      execLoop (place + 1) 0 order (s.read colon) text := by
  rw [execLoop, Bool.eq_false_iff.mpr h, Bool.false_and, if_neg Bool.false_ne_true]

/-! ### Places -/

theorem place_le {b : BindCall} (h : b ∈ (execLoop place skip order s text).1) :
    place ≤ b.place := by
  induction text generalizing place skip order s with
  | nil => exact absurd h List.not_mem_nil
  | cons c text ih =>
    cases skip with
    | succ skip => exact Nat.le_of_succ_le (ih h)
    | zero =>
      rw [execLoop] at h
      split at h
      · split at h
        · rcases List.mem_cons.mp h with rfl | h
          · exact Nat.le_refl place
          · exact Nat.le_of_succ_le (ih h)
        · rcases List.mem_singleton.mp h with rfl
          exact Nat.le_refl place
      · exact Nat.le_of_succ_le (ih h)

/-- A colon that is met outside is a call. -/
theorem exists_call (h : ¬Silent s text) :
    ∃ b calls inside, execLoop place 0 order s (text ++ rest) = (b :: calls, inside) ∧
      b.place < place + text.length := by
  induction text generalizing place s with
  | nil => exact absurd trivial h
  | cons c text ih =>
    rw [List.cons_append, execLoop, List.length_cons]
    by_cases hmet : s.outside = true ∧ c = colon
    · rw [hmet.1, decide_eq_true hmet.2, Bool.and_self, if_pos rfl]
      split
      · exact ⟨_, _, _, rfl, Nat.lt_add_of_pos_right (Nat.succ_pos _)⟩
      · exact ⟨_, _, _, rfl, Nat.lt_add_of_pos_right (Nat.succ_pos _)⟩
    · have hquiet : (s.outside && decide (c = colon)) = false := by
        rw [Bool.eq_false_iff, ne_eq, Bool.and_eq_true, decide_eq_true_eq]
        exact hmet
      rw [hquiet, if_neg Bool.false_ne_true]
      obtain ⟨b, calls, inside, heq, hlt⟩ := @ih (s.read c) (place + 1) fun hs => h ⟨hmet, hs⟩
      exact ⟨b, calls, inside, heq, by omega⟩

theorem arguments_place_le {args : List Arg} {para_order : Nat} {b : BindCall}
    (h : b ∈ arguments place order para_order args) : place ≤ b.place := by
  induction args generalizing place order para_order with
  | nil => exact absurd h List.not_mem_nil
  | cons a args ih =>
    cases a with
    | host v =>
      rcases List.mem_cons.mp h with rfl | h
      · exact Nat.le_add_right _ _
      · exact (Nat.le_add_right _ _).trans (ih h)
    | other text => exact (Nat.le_add_right _ _).trans (ih h)

/-- Calls that differ in the place of the first. -/
theorem calls_ne {b : BindCall} {calls expected : List BindCall} (hb : b.place < n)
    (h : ∀ c ∈ expected, n ≤ c.place) : b :: calls ≠ expected := by
  rintro rfl
  exact absurd (h b List.mem_cons_self) (Nat.not_le_of_lt hb)

end scan

/-! ### Arguments -/

section arguments

variable {s : Nesting} {v : Host} {c d : UInt8} {text rest : Bytes} {place order para_order : Nat}
  {args : List Arg} {closer : Option Bytes} {expected : List BindCall}

theorem Host.Ok.notMem (h : v.Ok) (hc : c = comma ∨ c = closeParen ∨ c = colon) :
    c ∉ v.name ++ v.behind := by
  have hname : c ∉ v.name := by
    intro hmem
    have hchar := h.name.char c hmem
    rcases hc with rfl | rfl | rfl <;> simp at hchar
  have hbehind : c ∉ v.behind := by
    intro hmem
    have hblank := h.behind c hmem
    rcases hc with rfl | rfl | rfl <;> exact absurd hblank (by decide)
  rw [List.mem_append, not_or]
  exact ⟨hname, hbehind⟩

theorem nameEnd_comma (h : v.Ok) :
    nameEnd (v.name ++ v.behind ++ comma :: rest) = some (v.name ++ v.behind).length := by
  rw [nameEnd, strchr_append (h.notMem (Or.inl rfl)), Option.some_or]

theorem nameEnd_closer (h : v.Ok) (hrest : comma ∉ rest) :
    nameEnd (v.name ++ v.behind ++ closeParen :: rest) = some (v.name ++ v.behind).length := by
  have hcomma : comma ∉ v.name ++ v.behind ++ closeParen :: rest := by
    rw [List.mem_append, List.mem_cons, not_or, not_or]
    exact ⟨h.notMem (Or.inl rfl), by decide, hrest⟩
  rw [nameEnd, strchr_eq_none hcomma, strchr_append (h.notMem (Or.inr (Or.inl rfl))),
    Option.none_or]

theorem nameEnd_none (h : v.Ok) : nameEnd (v.name ++ v.behind) = none := by
  rw [nameEnd, strchr_eq_none (h.notMem (Or.inl rfl)),
    strchr_eq_none (h.notMem (Or.inr (Or.inl rfl))), Option.none_or]

theorem Host.text_append (v : Host) (rest : Bytes) :
    v.text ++ rest = v.front ++ colon :: (v.name ++ v.behind ++ rest) := by
  rw [Host.text, List.append_assoc, List.cons_append]

theorem execLoop_front (h : v.Ok) : execLoop place 0 order s (v.text ++ rest) =
    execLoop (place + v.front.length) 0 order s (colon :: (v.name ++ v.behind ++ rest)) := by
  rw [Host.text_append, execLoop_silent (silent_blanks h.front), Nesting.reads_blanks h.front]

/-- A host variable that is not met outside. -/
theorem hidden_ne (h : v.Ok) (hs : ¬s.outside = true) {name : Bytes} {i j : Nat} {inside : Bool} :
    execLoop place 0 order s (v.text ++ rest) ≠
      (⟨place + v.front.length, name, i, j⟩ :: expected, inside) := by
  intro heq
  rw [execLoop_front h, execLoop_inside hs] at heq
  have hmem : (⟨place + v.front.length, name, i, j⟩ : BindCall) ∈
      (execLoop (place + v.front.length + 1) 0 order (s.read colon)
        (v.name ++ v.behind ++ rest)).1 := by
    rw [heq]
    exact List.mem_cons_self
  exact absurd (place_le hmem) (Nat.not_succ_le_self _)

/-- A host variable that has an end. -/
theorem host_iff (h : v.Ok)
    (hend : nameEnd (v.name ++ v.behind ++ c :: rest) = some (v.name ++ v.behind).length) :
    execLoop place 0 order s (v.text ++ c :: rest) =
        (⟨place + v.front.length, toUpper v.name, order, para_order⟩ :: expected, true) ↔
      s.outside = true ∧ s.para_order = para_order ∧ Trimmed v.behind ∧
        execLoop (place + (v.text.length + 1)) 0 (order + 1)
          { s with para_order := s.para_order + 1 } rest = (expected, true) := by
  by_cases hs : s.outside = true
  · have hplace : place + v.front.length + ((v.name ++ v.behind).length + 2) =
        place + (v.text.length + 1) := by
      simp only [Host.text, List.length_append, List.length_cons]
      omega
    rw [execLoop_front h, execLoop_host hs hend, hplace, Prod.mk.injEq, List.cons.injEq,
      BindCall.mk.injEq, bindName_eq_iff h.name h.behind, Prod.ext_iff]
    tauto
  · exact iff_of_false (hidden_ne h hs) fun hall => hs hall.1

/-- An argument of another kind. -/
theorem other_iff (hexpected : ∀ b ∈ expected, place + text.length ≤ b.place) :
    execLoop place 0 order s (text ++ rest) = (expected, true) ↔
      Silent s text ∧ execLoop (place + text.length) 0 order (s.reads text) rest =
        (expected, true) := by
  by_cases hs : Silent s text
  · rw [execLoop_silent hs]
    exact (and_iff_right hs).symm
  · refine iff_of_false ?_ fun hall => hs hall.1
    obtain ⟨b, calls, inside, heq, hlt⟩ := @exists_call s text rest place order hs
    rw [heq, Prod.mk.injEq]
    exact fun hall => calls_ne hlt hexpected hall.1

theorem execLoop_quiet (h : colon ∉ text) : execLoop place 0 order s text = ([], true) := by
  have hloop := @execLoop_silent s text [] place order (silent_of_colon_notMem h)
  rw [List.append_nil] at hloop
  rw [hloop, execLoop]

theorem execLoop_closer (h : ∀ tail ∈ closer, colon ∉ tail ∧ comma ∉ tail) :
    execLoop place 0 order s (closerText closer) = ([], true) := by
  apply execLoop_quiet
  cases closer with
  | none => exact List.not_mem_nil
  | some tail =>
    rw [closerText, List.mem_cons, not_or]
    exact ⟨by decide, (h tail rfl).1⟩

/-- The last host variable, with the end of the text. -/
theorem last_host_iff (h : v.Ok) (hcloser : ∀ tail ∈ closer, colon ∉ tail ∧ comma ∉ tail) :
    execLoop place 0 order s (v.text ++ closerText closer) =
        ([⟨place + v.front.length, toUpper v.name, order, para_order⟩], true) ↔
      s.outside = true ∧ s.para_order = para_order ∧ Trimmed v.behind ∧ closer.isSome = true := by
  cases closer with
  | none =>
    refine iff_of_false ?_ fun hall => Bool.false_ne_true hall.2.2.2
    by_cases hs : s.outside = true
    · rw [closerText, execLoop_front h, List.append_nil, execLoop_endless hs (nameEnd_none h),
        Prod.mk.injEq]
      exact fun hall => Bool.false_ne_true hall.2
    · exact hidden_ne h hs
  | some tail =>
    obtain ⟨hcolon, hcomma⟩ := hcloser tail rfl
    rw [closerText, host_iff h (nameEnd_closer h hcomma), execLoop_quiet hcolon]
    simp only [Option.isSome_some]

/-- The loop on the arguments makes the calls for the host variables exactly if it meets them. -/
theorem execLoop_args (hargs : ∀ a ∈ args, a.Ok)
    (hcloser : ∀ tail ∈ closer, colon ∉ tail ∧ comma ∉ tail) :
    execLoop place 0 order s (argsText args ++ closerText closer) =
        (arguments place order para_order args, true) ↔
      Meets (closer.isSome = true) s para_order args := by
  induction args generalizing place order para_order s with
  | nil => exact iff_of_true (execLoop_closer hcloser) trivial
  | cons a args ih =>
    have ha := hargs a List.mem_cons_self
    have hrest := fun b hb => hargs b (List.mem_cons_of_mem a hb)
    cases args with
    | nil =>
      cases a with
      | host v =>
        rw [argsText, Arg.text, arguments, arguments, last_host_iff ha hcloser, Meets, Meets]
        tauto
      | other text =>
        rw [argsText, Arg.text, arguments, arguments, other_iff fun b hb => absurd hb
          List.not_mem_nil, execLoop_closer hcloser, Meets, Meets]
        tauto
    | cons b args =>
      have htext : argsText (a :: b :: args) ++ closerText closer =
          a.text ++ comma :: (argsText (b :: args) ++ closerText closer) := by
        rw [argsText, List.append_assoc, List.cons_append]
        exact List.cons_ne_nil b args
      rw [htext]
      cases a with
      | host v =>
        rw [Arg.text, arguments, host_iff ha (nameEnd_comma ha), ih hrest, Meets]
        have hmore : b :: args = [] → closer.isSome = true := fun hnil => by cases hnil
        tauto
      | other text =>
        have hcomma := @execLoop_silent (s.reads text) [comma]
          (argsText (b :: args) ++ closerText closer) (place + text.length) order
          (silent_of_colon_notMem (by decide))
        rw [List.singleton_append, List.length_singleton, Nat.add_assoc] at hcomma
        have hplace : ∀ c ∈ arguments (place + (text.length + 1)) order (para_order + 1)
            (b :: args), place + text.length ≤ c.place := by
          intro c hc
          have hle := arguments_place_le hc
          omega
        rw [Arg.text, arguments, other_iff hplace, hcomma, ih hrest, Meets]
        rfl

end arguments

/-! ### Texts -/

section texts

variable {text spaces : Bytes} {place skip order : Nat} {s : Nesting}

theorem nameEnd_spaces (h : ∀ c ∈ spaces, c = space) :
    nameEnd (text ++ spaces) = nameEnd text := by
  rw [nameEnd, strchr_spaces h (by decide), strchr_spaces h (by decide), nameEnd]

theorem strchr_lt {c : UInt8} {n : Nat} (h : strchr text c = some n) : n < text.length :=
  (List.findIdx?_eq_some_iff_findIdx_eq.mp h).1

theorem nameEnd_lt {n : Nat} (h : nameEnd text = some n) : n < text.length := by
  rcases Option.or_eq_some_iff.mp h with h | ⟨-, h⟩
  · exact strchr_lt h
  · exact strchr_lt h

theorem execLoop_spaces (h : ∀ c ∈ spaces, c = space) :
    execLoop place skip order s (text ++ spaces) = execLoop place skip order s text := by
  induction text generalizing place skip order s with
  | nil =>
    induction spaces generalizing place skip s with
    | nil => rfl
    | cons c spaces ih =>
      have hspaces := fun d hd => h d (List.mem_cons_of_mem c hd)
      cases skip with
      | succ skip => exact ih hspaces
      | zero =>
        have hcolon : (s.outside && decide (c = colon)) = false := by
          rw [h c List.mem_cons_self, decide_eq_false (by decide), Bool.and_false]
        have hloop : execLoop place 0 order s (c :: spaces) =
            execLoop (place + 1) 0 order (s.read c) spaces := by
          rw [execLoop, hcolon, if_neg Bool.false_ne_true]
        exact hloop.trans (ih hspaces)
  | cons c text ih =>
    cases skip with
    | succ skip => exact ih
    | zero =>
      rw [List.cons_append, execLoop, execLoop, nameEnd_spaces h]
      split
      · cases hend : nameEnd text with
        | none => rw [bindName_spaces h]
        | some n =>
          simp only [ih, List.take_append_of_le_length (nameEnd_lt hend).le]
      · exact ih

theorem execArguments_spaces (h : ∀ c ∈ spaces, c = space) :
    execArguments place order (text ++ spaces) = execArguments place order text := by
  rw [execArguments, execArguments, strchr_spaces h (by decide)]
  cases hparen : strchr text openParen with
  | none => rfl
  | some n =>
    simp only [List.drop_append_of_le_length (Nat.succ_le_of_lt (strchr_lt hparen)),
      execLoop_spaces h]

/-- The spaces behind the text do not matter. -/
theorem execCalls_spaces (h : ∀ c ∈ spaces, c = space) (a_IsFunc : Bool) :
    execCalls (text ++ spaces) a_IsFunc = execCalls text a_IsFunc := by
  cases a_IsFunc with
  | false => exact execArguments_spaces h
  | true =>
    simp only [execCalls, if_true, strchr_spaces h (show colon ≠ space by decide)]
    cases hfirst : strchr text colon with
    | none => rfl
    | some pos1 =>
      simp only [List.drop_append_of_le_length (Nat.succ_le_of_lt (strchr_lt hfirst)),
        strchr_spaces h (show colon ≠ space by decide)]
      cases hsecond : strchr (text.drop (pos1 + 1)) colon with
      | none => rfl
      | some n =>
        simp only [List.drop_append_of_le_length (Nat.succ_le_of_lt (strchr_lt hsecond)),
          List.take_append_of_le_length (strchr_lt hsecond).le, execArguments_spaces h]

end texts

namespace ExecText

variable {t : ExecText} {m : HostVarMgr} {front : Bytes} {place k order : Nat}

theorem execArguments_iff (ht : t.Ok) (hfront : openParen ∉ front)
    (hplace : place + front.length = k + t.procedure.length) :
    execArguments place order (front ++ t.paramsText) = (t.paramsCalls k order, true) ↔
      ∀ p ∈ t.params, Meets (p.2.isSome = true) Nesting.start 1 p.1 := by
  cases hparams : t.params with
  | none =>
    rw [paramsText, paramsCalls, hparams, List.append_nil, execArguments, strchr_eq_none hfront]
    exact iff_of_true rfl fun p hp => absurd hp (Option.not_mem_none p)
  | some p =>
    obtain ⟨args, closer⟩ := p
    have hloop := @execLoop_args Nesting.start (k + (t.procedure.length + 1)) order 1 args closer
      (ht.args _ hparams) (ht.closer _ hparams)
    have hdrop : (front ++ openParen :: (argsText args ++ closerText closer)).drop
        (front.length + 1) = argsText args ++ closerText closer := by
      rw [List.drop_length_add_append]
      rfl
    have hat : place + (front.length + 1) = k + (t.procedure.length + 1) := by omega
    rw [paramsText, paramsCalls, hparams, execArguments, strchr_append hfront]
    simp only [hdrop, hat, hloop, Option.mem_some_iff, forall_eq']

/-- The call of a procedure. -/
theorem execCalls_procedure (ht : t.Ok) (h : t.result = none) :
    execCalls t.text false = (t.calls, true) ↔ t.Fits := by
  have hfront : openParen ∉ t.front ++ t.procedure := by
    obtain ⟨-, -, -, -, -, hparen⟩ := ht.front
    rw [List.mem_append, not_or]
    exact ⟨hparen, ht.procedure.2⟩
  have hargs := @execArguments_iff t _ 0 t.front.length 1 ht hfront
    (by rw [List.length_append, Nat.zero_add])
  have htext : t.text = t.front ++ t.procedure ++ t.paramsText := by
    rw [text, h, List.append_assoc]
  have hcalls : t.calls = t.paramsCalls t.front.length 1 := by
    rw [calls, h]
  rw [htext, hcalls]
  refine hargs.trans ⟨fun hmeets => ⟨?_, hmeets⟩, Fits.args⟩
  intro v hv
  rw [h] at hv
  exact absurd hv (Option.not_mem_none v)

/-- The call of a function. -/
theorem execCalls_function (ht : t.Ok) {v : Host} (h : t.result = some v) :
    execCalls t.text true = (t.calls, true) ↔ t.Fits := by
  obtain ⟨-, -, -, -, hcolon, -⟩ := ht.front
  have hv := ht.result v h
  have hfront : colon ∉ t.front ++ v.front := by
    rw [List.mem_append, not_or]
    exact ⟨hcolon, fun hmem => absurd (hv.front colon hmem) (by decide)⟩
  have hname : colon ∉ v.name ++ v.behind := hv.notMem (Or.inr (Or.inr rfl))
  have htext : t.text = t.front ++ v.front ++
      colon :: (v.name ++ v.behind ++ colon :: (t.procedure ++ t.paramsText)) := by
    rw [text, h]
    simp only [Host.text_append, List.append_assoc]
  have hdrop : ∀ s rest : Bytes, (s ++ colon :: rest).drop (s.length + 1) = rest := by
    intro s rest
    rw [List.drop_length_add_append]
    rfl
  have hplace : (t.front ++ v.front).length + 1 + ((v.name ++ v.behind).length + 1) +
      t.procedure.length = t.front.length + (v.text.length + 1) + t.procedure.length := by
    simp only [Host.text, List.length_append, List.length_cons]
    omega
  have hargs := @execArguments_iff t _ _ _ 2 ht ht.procedure.2 hplace
  have hcalls : t.calls = ⟨(t.front ++ v.front).length, toUpper v.name, 1, 1⟩ ::
      t.paramsCalls (t.front.length + (v.text.length + 1)) 2 := by
    rw [calls, h, List.length_append]
  rw [htext, hcalls]
  simp only [execCalls, if_true, strchr_append hfront, hdrop, strchr_append hname, List.take_left,
    Prod.mk.injEq, List.cons.injEq, BindCall.mk.injEq, true_and, and_true,
    bindName_eq_iff hv.name hv.behind]
  rw [Prod.ext_iff] at hargs
  rw [and_assoc, hargs]
  constructor
  · rintro ⟨htrim, hmeets⟩
    refine ⟨fun w hw => ?_, hmeets⟩
    rw [h, Option.mem_some_iff] at hw
    exact hw ▸ htrim
  · exact fun hfits => ⟨hfits.result v h, hfits.args⟩

/-- The variables of a call are bound exactly if the scan meets them and they are declared. -/
theorem parsingExecProc_iff (m : HostVarMgr) (t : ExecText) (ht : t.Ok) :
    Binds m (parsingExecProc m t.text t.result.isSome)
        (execCalls (eraseWhiteSpace t.text) t.result.isSome).1 t.calls ↔
      t.Fits ∧ ∀ c ∈ t.calls, c.Ok m := by
  obtain ⟨c, front, hfront, hspace, -, -⟩ := ht.front
  have hhead : ∃ text, t.text = c :: text := by
    rw [text]
    split <;> exact ⟨_, congrArg (· ++ _) hfront⟩
  obtain ⟨text, htext⟩ := hhead
  obtain ⟨spaces, hspaces, heq⟩ := @exists_eraseWhiteSpace text c hspace
  have herase : execCalls (eraseWhiteSpace t.text) t.result.isSome =
      execCalls t.text t.result.isSome := by
    rw [htext, ← execCalls_spaces hspaces, ← heq]
  have hcalls : execCalls t.text t.result.isSome = (t.calls, true) ↔ t.Fits := by
    cases hresult : t.result with
    | none => exact execCalls_procedure ht hresult
    | some v => exact execCalls_function ht hresult
  rw [parsingExecProc, herase]
  simp only
  rw [binds_iff, ← hcalls, Prod.ext_iff]

end ExecText

instance (blanks : Bytes) : Decidable (Trimmed blanks) :=
  inferInstanceAs (Decidable (_ ∉ _))

instance decidableSilent : ∀ s text, Decidable (Silent s text)
  | _, [] => isTrue trivial
  | s, c :: text =>
      have := decidableSilent (s.read c) text
      inferInstanceAs (Decidable (_ ∧ _))

/-- `EXEC P(..)` with these arguments. -/
def callP (args : List Arg) : ExecText where
  front := [69, 88, 69, 67, 32]
  result := none
  procedure := [80]
  params := some (args, some [])

/-- `:a`. -/
def hostA : Arg :=
  .host ⟨[], [97], []⟩

theorem hostA_ok : hostA.Ok where
  front := fun c hc => absurd hc List.not_mem_nil
  name := ⟨List.cons_ne_nil _ _, List.forall_mem_singleton.mpr (by decide)⟩
  behind := fun c hc => absurd hc List.not_mem_nil

theorem other_ok {text : Bytes} (h : Expr false text) (hcolon : colon ∉ text) :
    (Arg.other text).Ok := by
  refine ⟨h, fun v _ heq => hcolon ?_⟩
  rw [heq, Host.text, List.mem_append]
  exact Or.inr List.mem_cons_self

theorem callP_ok {a b : Arg} (ha : a.Ok) (hb : b.Ok) : (callP [a, b]).Ok where
  front := ⟨69, [88, 69, 67, 32], rfl, by decide, (by decide : colon ∉ [69, 88, 69, 67, 32]),
    (by decide : openParen ∉ [69, 88, 69, 67, 32])⟩
  result := fun v hv => absurd hv (Option.not_mem_none v)
  procedure := (by decide : colon ∉ [80] ∧ openParen ∉ [80])
  args := by
    rintro p ⟨⟩ c hc
    rcases List.mem_pair.mp hc with rfl | rfl
    · exact ha
    · exact hb
  closer := by
    rintro p ⟨⟩ tail ⟨⟩
    decide

/-- `EXEC P(:a,',)')`. -/
theorem parsingExecProc_string :
    Binds declaredA (parsingExecProc declaredA (callP [hostA, .other [39, 44, 41, 39]]).text false)
      (execCalls (eraseWhiteSpace (callP [hostA, .other [39, 44, 41, 39]]).text) false).1
      (callP [hostA, .other [39, 44, 41, 39]]).calls := by
  have hexpr : Expr false [39, 44, 41, 39] :=
    @Expr.string false [44, 41] [] (by decide) Expr.nil
  have hok := callP_ok hostA_ok (other_ok hexpr (by decide))
  refine (ExecText.parsingExecProc_iff declaredA _ hok).mpr
    ⟨⟨fun v hv => absurd hv (Option.not_mem_none v), ?_⟩, ?_⟩
  · rintro p ⟨⟩
    exact ⟨rfl, rfl, by decide, fun _ => rfl, by decide, trivial⟩
  · intro c hc
    rcases List.mem_singleton.mp hc with rfl
    exact ⟨by decide, by decide, by decide⟩

/-- `EXEC P(G(')'),:a)`: the parenthesis in the string is counted, its second quote begins another
string, and the variable is not bound. -/
theorem not_binds_behind_string :
    (callP [.other [71, 40, 39, 41, 39, 41], hostA]).Ok ∧
    (∀ c ∈ (callP [.other [71, 40, 39, 41, 39, 41], hostA]).calls, c.Ok declaredA) ∧
    ¬Binds declaredA
      (parsingExecProc declaredA (callP [.other [71, 40, 39, 41, 39, 41], hostA]).text false)
      (execCalls (eraseWhiteSpace (callP [.other [71, 40, 39, 41, 39, 41], hostA]).text) false).1
      (callP [.other [71, 40, 39, 41, 39, 41], hostA]).calls := by
  have hexpr : Expr false [71, 40, 39, 41, 39, 41] :=
    .char (by decide) (by decide) (by decide) (by decide)
      (@Expr.group false [39, 41, 39] [] (@Expr.string true [41] [] (by decide) Expr.nil) Expr.nil)
  refine ⟨callP_ok (other_ok hexpr (by decide)) hostA_ok, ?_, fun h => absurd h.calls (by decide)⟩
  intro c hc
  rcases List.mem_singleton.mp hc with rfl
  exact ⟨by decide, by decide, by decide⟩

end Natc.Isql.ExecBind
