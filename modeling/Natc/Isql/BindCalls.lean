import Mathlib.Data.List.DropRight
import Natc.Isql.SymbolTable

/-!
# Host variables of a statement

`ParsingExecProc` and `ParsingPrepareSQL` cut the names of the host variables out of a copy of the
statement and put the variables into the bind list, one after the other.
-/

namespace Natc.Isql

open HostVarMgr (quote)

/-! ## Texts -/

def space : UInt8 := 32
def tab : UInt8 := 9
def newline : UInt8 := 10
def openParen : UInt8 := 40
def closeParen : UInt8 := 41
def comma : UInt8 := 44
def colon : UInt8 := 58

/-- `utString::eraseWhiteSpace`: the spaces in front of the text and behind it. -/
def eraseWhiteSpace (a_Str : Bytes) : Bytes :=
  (a_Str.dropWhile fun c => c = space).rdropWhile fun c => c = space

/-- `utString::removeLastCR`. -/
def removeLastCR (a_Str : Bytes) : Bytes :=
  a_Str.rdropWhile fun c => c = newline ∨ c = tab

/-- The name that is looked up for a piece of the statement. -/
def bindName (text : Bytes) : Bytes :=
  toUpper (removeLastCR (eraseWhiteSpace text))

/-- The index that `strchr` finds. -/
def strchr (s : Bytes) (c : UInt8) : Option Nat :=
  s.findIdx? fun d => d = c

/-! ## Names -/

def isBlank (c : UInt8) : Bool :=
  c = space || c = tab || c = newline

/-- What may follow the colon of a host variable. -/
structure IsName (name : Bytes) : Prop where
  ne_nil : name ≠ []
  char : ∀ c ∈ name, !isBlank c && c ≠ quote && c ≠ openParen && c ≠ closeParen && c ≠ comma &&
    c ≠ colon

/-- Blanks of which the two functions leave none: there is no space in front of a tab or a
newline. -/
def Trimmed (blanks : Bytes) : Prop :=
  space ∉ blanks.rdropWhile fun c => c = space

section names

variable {name blanks spaces s t : Bytes} {c : UInt8}

private theorem rdropWhile_append {p : UInt8 → Bool} (hp : ∀ c ∈ s, ¬p c) :
    (s ++ t).rdropWhile p = s ++ t.rdropWhile p := by
  induction t using List.reverseRecOn with
  | nil =>
    rw [List.rdropWhile_nil, List.append_nil]
    exact List.rdropWhile_eq_self_iff.mpr fun hne => hp _ (List.getLast_mem hne)
  | append_singleton t c ih =>
    rw [← List.append_assoc, List.rdropWhile_concat, List.rdropWhile_concat, ih]
    split
    · rfl
    · exact List.append_assoc _ _ _

theorem IsName.isBlank (h : IsName name) (hc : c ∈ name) : isBlank c = false := by
  have hchar := h.char c hc
  simp only [Bool.and_eq_true, Bool.not_eq_true'] at hchar
  exact hchar.1.1.1.1.1

/-- The spaces behind a piece do not matter. -/
theorem eraseWhiteSpace_append (h : ∀ c ∈ spaces, c = space) :
    eraseWhiteSpace (s ++ spaces) = eraseWhiteSpace s := by
  have hdrop : spaces.dropWhile (fun c => c = space) = [] :=
    List.dropWhile_eq_nil_iff.mpr fun c hc => decide_eq_true (h c hc)
  rw [eraseWhiteSpace, eraseWhiteSpace, List.dropWhile_append]
  split
  · next hempty => rw [hdrop, List.isEmpty_iff.mp hempty]
  · rw [List.rdropWhile, List.reverse_append, List.dropWhile_append_of_pos, List.rdropWhile]
    exact fun c hc => decide_eq_true (h c (List.mem_reverse.mp hc))

theorem bindName_spaces (h : ∀ c ∈ spaces, c = space) :
    bindName (s ++ spaces) = bindName s := by
  rw [bindName, eraseWhiteSpace_append h, bindName]

/-- `eraseWhiteSpace` takes spaces from the end of a text that does not begin with one. -/
theorem exists_eraseWhiteSpace (hc : c ≠ space) :
    ∃ spaces, (∀ d ∈ spaces, d = space) ∧ c :: s = eraseWhiteSpace (c :: s) ++ spaces := by
  refine ⟨(c :: s).rtakeWhile fun d => d = space, fun d hd => ?_, ?_⟩
  · have hspace := @List.mem_rtakeWhile_imp _ (fun d => decide (d = space)) (c :: s) d hd
    exact of_decide_eq_true hspace
  · have hfirst := @List.dropWhile_cons_of_neg _ (fun d => decide (d = space)) c s
      (by rw [decide_eq_true_eq]; exact hc)
    rw [eraseWhiteSpace, hfirst, List.rdropWhile_append_rtakeWhile]

theorem ne_space (h : isBlank c = false) : ¬(decide (c = space) = true) := by
  intro heq
  rw [of_decide_eq_true heq] at h
  exact absurd h (by decide)

theorem ne_newline (h : isBlank c = false) : ¬(decide (c = newline ∨ c = tab) = true) := by
  intro heq
  rcases of_decide_eq_true heq with rfl | rfl <;> exact absurd h (by decide)

/-- A piece without blanks is a name as it is. -/
theorem bindName_of_noBlank (h : ∀ c ∈ s, isBlank c = false) : bindName s = toUpper s := by
  have hspace := @rdropWhile_append s [] _ fun c hc => ne_space (h c hc)
  have hother := @rdropWhile_append s [] _ fun c hc => ne_newline (h c hc)
  have hdrop : s.dropWhile (fun c => decide (c = space)) = s := by
    cases s with
    | nil => rfl
    | cons c s => exact List.dropWhile_cons_of_neg (ne_space (h c List.mem_cons_self))
  rw [List.rdropWhile_nil, List.append_nil] at hspace hother
  rw [bindName, eraseWhiteSpace, hdrop, hspace, removeLastCR, hother]

/-- A name is found exactly if the blanks behind it are trimmed. -/
theorem bindName_eq_iff (h : IsName name) (hblanks : ∀ c ∈ blanks, isBlank c) :
    bindName (name ++ blanks) = toUpper name ↔ Trimmed blanks := by
  have hspace : ∀ c ∈ name, ¬(decide (c = space) = true) := fun c hc => ne_space (h.isBlank hc)
  have hother : ∀ c ∈ name, ¬(decide (c = newline ∨ c = tab) = true) :=
    fun c hc => ne_newline (h.isBlank hc)
  have herase : eraseWhiteSpace (name ++ blanks) =
      name ++ blanks.rdropWhile fun c => c = space := by
    obtain ⟨c, name, rfl⟩ := List.exists_cons_of_ne_nil h.ne_nil
    have hfirst := @List.dropWhile_cons_of_neg _ (fun c => decide (c = space)) c (name ++ blanks)
      (hspace c List.mem_cons_self)
    rw [eraseWhiteSpace, List.cons_append, hfirst, ← List.cons_append]
    exact rdropWhile_append hspace
  rw [bindName, herase, removeLastCR, rdropWhile_append hother, toUpper_eq, toUpper_eq,
    List.map_append, List.append_right_eq_self, List.map_eq_nil_iff, List.rdropWhile_eq_nil_iff,
    Trimmed]
  constructor
  · intro hall hmem
    exact absurd (hall space hmem) (by decide)
  · intro hmem c hc
    have hblank := hblanks c ((List.rdropWhile_prefix _ _).subset hc)
    have hne : c ≠ space := fun heq => hmem (heq ▸ hc)
    simp only [isBlank, Bool.or_eq_true, decide_eq_true_eq] at hblank ⊢
    tauto

theorem strchr_eq_none (h : c ∉ s) : strchr s c = none := by
  rw [strchr, List.findIdx?_eq_none_iff]
  intro d hd
  exact decide_eq_false fun hdc => h (hdc ▸ hd)

theorem strchr_append (h : c ∉ s) : strchr (s ++ c :: t) c = some s.length := by
  rw [strchr, List.findIdx?_append, ← strchr, strchr_eq_none h, List.findIdx?_cons,
    decide_eq_true rfl]
  simp

theorem strchr_spaces (h : ∀ c ∈ spaces, c = space) (hc : c ≠ space) :
    strchr (s ++ spaces) c = strchr s c := by
  have hnone : strchr spaces c = none := strchr_eq_none fun hmem => hc (h c hmem)
  rw [strchr, List.findIdx?_append, ← strchr, ← strchr, hnone, Option.map_none, Option.or_none]

end names

/-! ## Calls of `putBindList` -/

/-- A call for the variable whose colon lies at `place`. -/
structure BindCall where
  place : Nat
  name : Bytes
  order : Nat
  para_order : Nat
  deriving DecidableEq, Repr

/-- What a parser leaves, unless it reads outside of its copy. -/
inductive ParseEnd where
  | returns (r : Reply) (m : HostVarMgr)
  | outside

/-- A number that is stored in a `short`. -/
def toShort (k : Nat) : Int :=
  if k % 65536 < 32768 then k % 65536 else k % 65536 - 65536

/-- The calls one after the other; the first that fails is the last. The members `order` and
`para_order` of a node are of type `short`. -/
def bindCalls (m : HostVarMgr) : List BindCall → Option (Reply × HostVarMgr)
  | [] => some (.done, m)
  | c :: calls =>
      match m.putBindList c.name (toShort c.order) (toShort c.para_order) with
      | none => none
      | some (r, m) => if r.isSuccess then bindCalls m calls else some (r, m)

/-- The end of a parser that makes these calls and then, if not `inside`, leaves its copy. -/
def parseEnd (m : HostVarMgr) (calls : List BindCall) (inside : Bool) : ParseEnd :=
  match bindCalls m calls with
  | none => .outside
  | some (r, m) => if r.isSuccess && !inside then .outside else .returns r m

/-- The node for a variable. -/
def HostVarMgr.node (m : HostVarMgr) (name : Bytes) (order para_order : Int) :
    Option HostVarElement :=
  (m.getVar name).bind fun t_node => HostVarMgr.boundCopy t_node order para_order

/-- A parser has bound exactly these variables: it has called `putBindList` for them and for nothing
else, it has returned, and the bind list holds their nodes. -/
structure Binds (m : HostVarMgr) (result : ParseEnd) (calls expected : List BindCall) : Prop where
  calls : calls = expected
  list : ∃ m', result = .returns .done m' ∧
    m'.m_Head.map some = expected.map fun c => m.node c.name c.order c.para_order

section binds

variable {m : HostVarMgr} {c : BindCall} {calls expected : List BindCall}

theorem boundCopy_eq {t_node s_node : HostVarElement} {a_order a_para_order : Int}
    (h : HostVarMgr.boundCopy t_node a_order a_para_order = some s_node) (i j : Int) :
    HostVarMgr.boundCopy t_node i j = some { s_node with order := i, para_order := j } := by
  simp only [HostVarMgr.boundCopy] at h ⊢
  split_ifs at h ⊢
  all_goals try cases h; rfl
  obtain ⟨c_value, hvalue, rfl⟩ := Option.map_eq_some_iff.mp h
  rw [hvalue]
  rfl

/-- A variable that can be bound, at whatever place. -/
theorem node_eq {name : Bytes} {s_node : HostVarElement} {a_order a_para_order : Int}
    (h : m.node name a_order a_para_order = some s_node) (i j : Int) :
    m.node name i j = some { s_node with order := i, para_order := j } := by
  obtain ⟨t_node, hvar, hcopy⟩ := Option.bind_eq_some_iff.mp h
  rw [HostVarMgr.node, hvar, Option.bind_some, boundCopy_eq hcopy i j]

theorem node_order {name : Bytes} {s_node : HostVarElement} {i j : Int}
    (h : m.node name i j = some s_node) : s_node.order = i ∧ s_node.para_order = j := by
  have hself := node_eq h i j
  rw [h, Option.some.injEq] at hself
  rw [hself]
  exact ⟨rfl, rfl⟩

theorem putBindList_node {name : Bytes} {s_node : HostVarElement} {i j : Int}
    (h : m.node name i j = some s_node) : m.putBindList name i j = some (.done, { m with
      m_Head := m.m_Head ++ [s_node], m_BindListCnt := m.m_BindListCnt + 1 }) := by
  obtain ⟨t_node, hvar, hcopy⟩ := Option.bind_eq_some_iff.mp h
  simp only [HostVarMgr.putBindList, hvar, hcopy, Option.map_some]

/-- Variables that can be bound are bound in the order of the calls. -/
theorem bindCalls_done
    (h : ∀ c ∈ calls, (m.node c.name (toShort c.order) (toShort c.para_order)).isSome) :
    ∃ m', bindCalls m calls = some (.done, m') ∧ m'.m_Head.map some =
      m.m_Head.map some ++
        calls.map fun c => m.node c.name (toShort c.order) (toShort c.para_order) := by
  induction calls generalizing m with
  | nil => exact ⟨m, rfl, (List.append_nil _).symm⟩
  | cons c calls ih =>
    obtain ⟨s_node, hnode⟩ := Option.isSome_iff_exists.mp (h c List.mem_cons_self)
    obtain ⟨m', hcalls, hlist⟩ := @ih { m with
        m_Head := m.m_Head ++ [s_node], m_BindListCnt := m.m_BindListCnt + 1 }
      fun c hc => h c (List.mem_cons_of_mem _ hc)
    refine ⟨m', ?_, hlist.trans ?_⟩
    · rw [bindCalls, putBindList_node hnode]
      exact hcalls
    · rw [List.map_append, List.map_singleton, List.append_assoc, ← hnode]
      rfl

theorem toShort_eq_iff {k : Nat} : toShort k = k ↔ k < 32768 := by
  rw [toShort]
  split <;> omega

/-- A call that can be made, with numbers that are `short`s. -/
def BindCall.Ok (m : HostVarMgr) (c : BindCall) : Prop :=
  (m.node c.name c.order c.para_order).isSome ∧ c.order < 32768 ∧ c.para_order < 32768

/-- The end of a parser whose variables can be bound. -/
theorem parseEnd_done {inside : Bool}
    (h : ∀ c ∈ calls, (m.node c.name (toShort c.order) (toShort c.para_order)).isSome) :
    ∃ m', (parseEnd m.initBindList calls inside = if inside then .returns .done m' else .outside) ∧
      m'.m_Head.map some =
        calls.map fun c => m.node c.name (toShort c.order) (toShort c.para_order) := by
  obtain ⟨m', hput, hlist⟩ := @bindCalls_done m.initBindList calls h
  refine ⟨m', ?_, hlist⟩
  cases inside <;> simp [parseEnd, hput, Reply.isSuccess]

/-- The variables are bound exactly if the calls are the right ones, the copy is not left, and each
call can be made. -/
theorem binds_iff {inside : Bool} :
    Binds m (parseEnd m.initBindList calls inside) calls expected ↔
      (calls = expected ∧ inside = true) ∧ ∀ c ∈ expected, c.Ok m := by
  constructor
  · rintro ⟨rfl, m', hreturns, hnodes⟩
    have hnode : ∀ c ∈ calls, ∃ s_node, m.node c.name c.order c.para_order = some s_node := by
      intro c hc
      have hmem : m.node c.name c.order c.para_order ∈ m'.m_Head.map some := by
        rw [hnodes]
        exact List.mem_map.mpr ⟨c, hc, rfl⟩
      obtain ⟨e, -, he⟩ := List.mem_map.mp hmem
      exact ⟨e, he.symm⟩
    have hsome : ∀ c ∈ calls,
        (m.node c.name (toShort c.order) (toShort c.para_order)).isSome := by
      intro c hc
      obtain ⟨s_node, hs_node⟩ := hnode c hc
      rw [node_eq hs_node]
      rfl
    obtain ⟨m'', hend, hlist⟩ := @parseEnd_done m calls inside hsome
    rw [hend] at hreturns
    cases inside with
    | false => cases hreturns
    | true =>
      cases hreturns
      refine ⟨⟨rfl, rfl⟩, fun c hc => ?_⟩
      obtain ⟨s_node, hs_node⟩ := hnode c hc
      have hsame := List.map_inj_left.mp (hlist.symm.trans hnodes) c hc
      have hshort := node_order (hsame.trans hs_node)
      have hlong := node_order hs_node
      exact ⟨Option.isSome_iff_exists.mpr ⟨s_node, hs_node⟩,
        toShort_eq_iff.mp (hshort.1.symm.trans hlong.1),
        toShort_eq_iff.mp (hshort.2.symm.trans hlong.2)⟩
  · rintro ⟨⟨rfl, rfl⟩, hok⟩
    have hshort : ∀ c ∈ calls, m.node c.name (toShort c.order) (toShort c.para_order) =
        m.node c.name c.order c.para_order := by
      intro c hc
      rw [toShort_eq_iff.mpr (hok c hc).2.1, toShort_eq_iff.mpr (hok c hc).2.2]
    obtain ⟨m', hend, hlist⟩ := @parseEnd_done m calls true fun c hc => by
      rw [hshort c hc]
      exact (hok c hc).1
    exact ⟨rfl, m', hend, hlist.trans (List.map_congr_left hshort)⟩

end binds

/-- A variable `A`. -/
def declaredA : HostVarMgr :=
  (HostVarMgr.empty.add [65] .integer 0 []).2

end Natc.Isql
