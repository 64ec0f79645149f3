import Natc.Harness.TestPlan
import Mathlib.Data.List.Forall2

/-!
# Scopes of the plan walk

A declaration goes to the innermost suite or list around the running case, which `get_tc` keeps in
`current_ts` and `current_tl`. Both are set when a suite or a list begins and meant to be set again
from the stack when one ends; the stack is looked at one place too far, so that they stay.
-/

namespace Natc.Harness

open Lib

/-- The innermost node of a type in a chain of nodes, the outermost one first. -/
def innermost (k : NodeType) (chain : List Node) : Option Node :=
  (chain.filter (·.type = k)).getLast?

/-- Where a declaration of the case belongs: to the innermost list, or else the innermost suite, or
else the case. -/
def enclosing (chain : List Node) (tc : TestCase) : TestPlan.Scope → Option (Node ⊕ TestCase)
  | .TL => ((innermost .TL chain).map Sum.inl).or
      (((innermost .TS chain).map Sum.inl).or (some (.inr tc)))
  | .TS => ((innermost .TS chain).map Sum.inl).or (some (.inr tc))
  | .TC => some (.inr tc)

/-- The plan object knows the scopes of the case it returns. -/
structure Located (chain : List Node) (r : TestCase × TestPlan) : Prop where
  current_ts : r.2.current_ts = innermost .TS chain
  current_tl : r.2.current_tl = innermost .TL chain
  stack : r.2.stack = chain
  declared : ∀ scope, r.2.container scope = enclosing chain r.1 scope

namespace Plan

/-- For each case the chain of the nodes around it, below the given one. -/
def scopes : {p : Place} → Nat → List Node → Plan p → List (List Node)
  | _, _, _, nil => []
  | _, n, chain, case _ _ rest => chain :: rest.scopes (n + 1) chain
  | _, n, chain, suite Name inner rest =>
    inner.scopes (n + 1) (chain ++ [⟨n, .TS, Name⟩]) ++ rest.scopes (n + inner.size + 2) chain
  | _, n, chain, list _ Name inner rest =>
    inner.scopes (n + 1) (chain ++ [⟨n, .TL, Name⟩]) ++ rest.scopes (n + inner.size + 2) chain

/-- A suite or a list of the type stands somewhere in the plan. -/
def has (k : NodeType) : {p : Place} → Plan p → Bool
  | _, nil => false
  | _, case _ _ rest => rest.has k
  | _, suite _ inner rest => decide (k = .TS) || inner.has k || rest.has k
  | _, list _ _ inner rest => decide (k = .TL) || inner.has k || rest.has k

/-- No case stands behind a suite that ended inside the innermost suite around the case, or behind
a list that ended inside the innermost list around it; `done` tells the types of which a node has
ended so far. -/
def Tidy : {p : Place} → (done : NodeType → Bool) → Plan p → Prop
  | _, _, nil => True
  | _, done, case _ _ rest => (∀ k, done k = false) ∧ rest.Tidy done
  | _, done, suite _ inner rest =>
    inner.Tidy (Function.update done .TS false) ∧
      rest.Tidy fun k => done k || (decide (k = .TS) || inner.has k)
  | _, done, list _ _ inner rest =>
    inner.Tidy (Function.update done .TL false) ∧
      rest.Tidy fun k => done k || (decide (k = .TL) || inner.has k)

/-- In the run of a plan each case is returned with its scopes known. -/
def Tracked (q : Plan .argv) : Prop :=
  let r := TestPlan.run ((q.items 0).length + 1) .new (q.items 0)
  r.2.isSome ∧ List.Forall₂ Located (q.scopes 0 []) r.1

end Plan

namespace TestPlan

variable (s : TestPlan)

/-- The pointer of a type. -/
def current : NodeType → Option Node
  | .TS => s.current_ts
  | .TL => s.current_tl

section Pointers

variable (node : Node) (k : NodeType)

theorem enter_current : (s.enter node).current k = if node.type = k then some node else s.current k := by
  obtain ⟨id, t, Name⟩ := node
  cases t <;> cases k <;> rfl

@[simp] theorem enter_stack : (s.enter node).stack = s.stack ++ [node] := by
  obtain ⟨tl, ts, h⟩ := s.enter_eq node
  rw [h]

@[simp] theorem leave_current : (s.leave node).current k = s.current k := by
  rw [leave_eq]
  obtain ⟨_, _, _, _, _, h⟩ := bottom_eq { s with stack := s.stack.dropLast } node
  rw [h]
  cases k <;> rfl

@[simp] theorem leave_stack : (s.leave node).stack = s.stack.dropLast := by
  rw [leave_eq]
  obtain ⟨_, _, _, _, _, h⟩ := bottom_eq { s with stack := s.stack.dropLast } node
  rw [h]

@[simp] theorem report_TC_current (tc : TestCase) : (s.report_TC tc).current k = s.current k := by
  obtain ⟨_, _, _, _, h⟩ := s.report_TC_eq tc
  rw [h]
  cases k <;> rfl

@[simp] theorem report_TC_stack (tc : TestCase) : (s.report_TC tc).stack = s.stack := by
  obtain ⟨_, _, _, _, h⟩ := s.report_TC_eq tc
  rw [h]

@[simp] theorem fetched_current (tc : TestCase) : (s.fetched tc).current k = s.current k := by
  cases k <;> rfl

@[simp] theorem fetched_stack (tc : TestCase) : (s.fetched tc).stack = s.stack := rfl

end Pointers

variable {s}

/-- The walk along a plan leaves the stack as it was. -/
theorem walk_stack {p : Place} (q : Plan p) (n : Nat) :
    (s.visits (q.items n)).stack = s.stack := by
  induction q generalizing s n with
  | nil => rfl
  | case _ tc rest ih => simp [Plan.items, visits_cons, visit, ih]
  | suite Name inner rest ihi ih => simp [Plan.items, visits_cons, visits_append, visit, ihi, ih]
  | list _ Name inner rest ihi ih => simp [Plan.items, visits_cons, visits_append, visit, ihi, ih]

/-- The pointer of a type moves to an address from `n` on, or else it stays. -/
structure Moves (b : Bool) (s t : TestPlan) (n : Nat) (k : NodeType) : Prop where
  stays : b = false → t.current k = s.current k
  goes : b = true → ∃ x, t.current k = some x ∧ n ≤ x.id

theorem Moves.trans {b b' : Bool} {t u : TestPlan} {n m : Nat} {k : NodeType}
    (h : Moves b s t n k) (h' : Moves b' t u m k) (hn : n ≤ m) : Moves (b || b') s u n k := by
  constructor
  · intro hb
    rw [Bool.or_eq_false_iff] at hb
    exact (h'.stays hb.2).trans (h.stays hb.1)
  · intro hb
    cases hb' : b' with
    | true =>
      obtain ⟨x, hx, hm⟩ := h'.goes hb'
      exact ⟨x, hx, le_trans hn hm⟩
    | false =>
      rw [h'.stays hb']
      exact h.goes (by simpa [hb'] using hb)

/-- A node from its beginning to its end. -/
theorem node_current (node : Node) {l : List CaseItem} {b : Bool} {n : Nat} {k : NodeType}
    (hnode : node.id = n) (h : Moves b (s.enter node) ((s.enter node).visits l) (n + 1) k) :
    Moves (decide (k = node.type) || b) s (((s.enter node).visits l).leave node) n k := by
  have henter : Moves (decide (k = node.type)) s (s.enter node) n k := by
    constructor
    · intro hk
      rw [enter_current, if_neg]
      exact fun heq => of_decide_eq_false hk heq.symm
    · intro hk
      rw [enter_current, if_pos (of_decide_eq_true hk).symm]
      exact ⟨node, rfl, hnode.ge⟩
  have hall := henter.trans h (Nat.le_succ n)
  exact ⟨by simpa using hall.stays, by simpa using hall.goes⟩

/-- The pointer of a type moves just if the plan has a node of the type. -/
theorem walk_current {p : Place} (q : Plan p) (s : TestPlan) (n : Nat) (k : NodeType) :
    Moves (q.has k) s (s.visits (q.items n)) n k := by
  induction q generalizing s n with
  | nil => exact ⟨fun _ => rfl, by simp [Plan.has]⟩
  | case _ tc rest ih =>
    have hrest := ih ((s.fetched tc).report_TC tc) (n + 1)
    have hcase : Moves false s ((s.fetched tc).report_TC tc) n k := ⟨by simp, by simp⟩
    exact hcase.trans hrest (Nat.le_succ n)
  | suite Name inner rest ihi ih =>
    have hinner := node_current (n := n) ⟨n, .TS, Name⟩ rfl (ihi (s.enter ⟨n, .TS, Name⟩) (n + 1))
    have hall := hinner.trans (ih _ (n + inner.size + 2)) (by omega)
    simpa [Plan.items, visits_cons, visits_append, visit, Plan.has] using hall
  | list _ Name inner rest ihi ih =>
    have hinner := node_current (n := n) ⟨n, .TL, Name⟩ rfl (ihi (s.enter ⟨n, .TL, Name⟩) (n + 1))
    have hall := hinner.trans (ih _ (n + inner.size + 2)) (by omega)
    simpa [Plan.items, visits_cons, visits_append, visit, Plan.has] using hall

/-- Where a walk stands: the open nodes, and for each type whether the pointer is still that of
the innermost one. -/
structure Stands (s : TestPlan) (n : Nat) (chain : List Node) (done : NodeType → Bool) : Prop where
  stack : s.stack = chain
  chain_below : ∀ x ∈ chain, x.id < n
  current : ∀ k, s.current k = innermost k chain ↔ done k = false

theorem innermost_mem {k : NodeType} {chain : List Node} {x : Node}
    (h : innermost k chain = some x) : x ∈ chain :=
  (List.mem_filter.mp (List.mem_of_getLast? h)).1

theorem innermost_concat (k : NodeType) (chain : List Node) (node : Node) :
    innermost k (chain ++ [node]) = if node.type = k then some node else innermost k chain := by
  rw [innermost, List.filter_append]
  by_cases hk : node.type = k <;> simp [hk, innermost]

/-- A case is located just if both pointers are right. -/
theorem Stands.located_iff {n : Nat} {chain : List Node} {done : NodeType → Bool}
    (h : Stands s n chain done) (tc : TestCase) :
    Located chain (tc, s.fetched tc) ↔ ∀ k, done k = false := by
  constructor
  · intro hl k
    apply (h.current k).mp
    cases k with
    | TS => exact hl.current_ts
    | TL => exact hl.current_tl
  · intro hdone
    have hts : s.current_ts = innermost .TS chain := (h.current .TS).mpr (hdone .TS)
    have htl : s.current_tl = innermost .TL chain := (h.current .TL).mpr (hdone .TL)
    refine ⟨hts, htl, h.stack, ?_⟩
    intro scope
    cases scope <;> simp [container, enclosing, fetched, hts, htl]

theorem Stands.case {n : Nat} {chain : List Node} {done : NodeType → Bool}
    (h : Stands s n chain done) (tc : TestCase) :
    Stands ((s.fetched tc).report_TC tc) (n + 1) chain done where
  stack := by simpa using h.stack
  chain_below := fun x hx => Nat.lt_succ_of_lt (h.chain_below x hx)
  current := by simpa using h.current

theorem Stands.enter {n : Nat} {chain : List Node} {done : NodeType → Bool}
    (h : Stands s n chain done) {node : Node} (hnode : node.id = n) :
    Stands (s.enter node) (n + 1) (chain ++ [node]) (Function.update done node.type false) where
  stack := by rw [enter_stack, h.stack]
  chain_below := by
    intro x hx
    rcases List.mem_append.mp hx with hx | hx
    · exact Nat.lt_succ_of_lt (h.chain_below x hx)
    · rw [List.mem_singleton.mp hx, hnode]
      exact Nat.lt_succ_self n
  current := by
    intro k
    rw [enter_current, innermost_concat]
    by_cases hk : node.type = k
    · simp [hk]
    · simpa [hk, Function.update_of_ne (Ne.symm hk)] using h.current k

/-- Behind a node the pointers it moved are off its surroundings. -/
theorem Stands.node {n m : Nat} {chain : List Node} {done : NodeType → Bool}
    (h : Stands s n chain done) (node : Node) (hnode : node.id = n) {p : Place} (inner : Plan p)
    (hm : n ≤ m) :
    Stands (((s.enter node).visits (inner.items (n + 1))).leave node) m chain
      fun k => done k || (decide (k = node.type) || inner.has k) where
  stack := by simp [walk_stack, h.stack]
  chain_below := fun x hx => lt_of_lt_of_le (h.chain_below x hx) hm
  current := by
    intro k
    have hmoves := node_current node hnode (walk_current inner (s.enter node) (n + 1) k)
    cases hb : decide (k = node.type) || inner.has k with
    | true =>
      obtain ⟨x, hx, hn⟩ := hmoves.goes hb
      have hne : some x ≠ innermost k chain := by
        intro heq
        have := h.chain_below x (innermost_mem heq.symm)
        omega
      simp [hx, hne]
    | false =>
      rw [hmoves.stays hb, Bool.or_false]
      exact h.current k

end TestPlan

namespace Plan

theorem length_scopes {p : Place} (q : Plan p) (n : Nat) (chain : List Node) (s : TestPlan) :
    (q.scopes n chain).length = (s.fetches (q.items n)).length := by
  induction q generalizing n chain s with
  | nil => rfl
  | case _ tc rest ih => exact congrArg (· + 1) (ih _ _ _)
  | suite Name inner rest ihi ih =>
    simp only [scopes, items, TestPlan.fetches, TestPlan.fetches_append, List.length_append]
    exact congrArg₂ (· + ·) (ihi _ _ _) (ih _ _ _)
  | list _ Name inner rest ihi ih =>
    simp only [scopes, items, TestPlan.fetches, TestPlan.fetches_append, List.length_append]
    exact congrArg₂ (· + ·) (ihi _ _ _) (ih _ _ _)

theorem forall₂_append_iff {α β : Type*} {R : α → β → Prop} {as as' : List α} {bs bs' : List β}
    (h : as.length = bs.length) :
    List.Forall₂ R (as ++ as') (bs ++ bs') ↔ List.Forall₂ R as bs ∧ List.Forall₂ R as' bs' := by
  induction as generalizing bs with
  | nil =>
    cases bs with
    | nil => simp
    | cons b bs => simp at h
  | cons a as ih =>
    cases bs with
    | nil => simp at h
    | cons b bs =>
      have ih := ih (Nat.succ.inj h)
      simp [ih, and_assoc]

/-- From a place where the pointers are right as far as `done` says, the cases of a plan are all
located just if the plan is tidy. -/
theorem located_iff {p : Place} (q : Plan p) {n : Nat} {chain : List Node}
    {done : NodeType → Bool} {s : TestPlan} (h : s.Stands n chain done) :
    List.Forall₂ Located (q.scopes n chain) (s.fetches (q.items n)) ↔ q.Tidy done := by
  induction q generalizing n chain done s with
  | nil => simp [scopes, items, TestPlan.fetches, Tidy]
  | case _ tc rest ih =>
    simp only [scopes, items, TestPlan.fetches, List.forall₂_cons, Tidy]
    rw [h.located_iff tc, ih (h.case tc)]
  | suite Name inner rest ihi ih =>
    simp only [scopes, items, TestPlan.fetches, TestPlan.fetches_append, Tidy]
    rw [forall₂_append_iff (inner.length_scopes _ _ _), ihi (h.enter rfl)]
    rw [ih (h.node ⟨n, .TS, Name⟩ rfl inner (by omega))]
  | list _ Name inner rest ihi ih =>
    simp only [scopes, items, TestPlan.fetches, TestPlan.fetches_append, Tidy]
    rw [forall₂_append_iff (inner.length_scopes _ _ _), ihi (h.enter rfl)]
    rw [ih (h.node ⟨n, .TL, Name⟩ rfl inner (by omega))]

theorem new_stands : TestPlan.new.Stands 0 [] fun _ => false := by
  refine ⟨rfl, by simp, ?_⟩
  intro k
  cases k <;> simp [TestPlan.current, TestPlan.new, innermost]

theorem tracked_iff_fetches (q : Plan .argv) :
    q.Tracked ↔ List.Forall₂ Located (q.scopes 0 []) (TestPlan.new.fetches (q.items 0)) := by
  simp [Tracked, TestPlan.run_eq _ _ _ (Nat.lt_succ_self _)]

/-- The scopes of every case of a plan are known when it is returned, exactly if no case follows a
suite that ended inside the innermost suite around the case, or a list that ended inside the
innermost list around it. -/
theorem scopes_tracked_iff (q : Plan .argv) : q.Tracked ↔ q.Tidy fun _ => false :=
  q.tracked_iff_fetches.trans (q.located_iff new_stands)

/-- A case behind an inner suite. -/
def behindSuite : Plan .argv :=
  .suite "outer.ts".toList
    (.suite "inner.ts".toList .nil
      (.case Place.ts_ne_tl ⟨"a.sql".toList, 1, 1, false⟩ .nil)) .nil

/-- The case is returned with the inner suite as the current one. -/
theorem behindSuite_not_tracked : ¬∀ q : Plan .argv, q.Tracked := by
  intro hall
  have hlocated := behindSuite.tracked_iff_fetches.mp (hall behindSuite)
  have htidy := (behindSuite.located_iff new_stands).mp hlocated
  exact absurd (htidy.1.2.1 .TS) (by decide)

end Plan

end Natc.Harness
