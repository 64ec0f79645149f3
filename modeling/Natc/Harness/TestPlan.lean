import Natc.Lib.Text
import Mathlib.Logic.Function.Basic

/-!
# The plan walk of the Perl harness

`TestPlan.pm` reads test lists, suites and cases into one flat list of items, in which a list or a
suite stands twice, where it begins and where it ends. `get_tc` walks along that list up to the
next case; on its way it keeps the stack of the open lists and suites, and reports those that end.
-/

namespace Natc.Harness

open Lib

/-- Where a plan is written: on the command line, in a list file or in a suite file. -/
inductive Place where
  | argv | tl | ts
  deriving DecidableEq, Repr

theorem Place.ts_ne_tl : Place.ts ≠ .tl := by decide

/-- A test case and what came of its run: the number of its sectors, the number of those that
passed, and whether expected sectors were left over. -/
structure TestCase where
  Name : Text
  plan : Nat
  ok : Nat
  remain : Bool
  deriving DecidableEq, Repr

/-- What a place may hold. Cases stand in suites and on the command line, lists in lists and on the
command line. -/
inductive Plan : Place → Type where
  | nil {p : Place} : Plan p
  | case {p : Place} (hp : p ≠ .tl) (tc : TestCase) (rest : Plan p) : Plan p
  | suite {p : Place} (Name : Text) (inner : Plan .ts) (rest : Plan p) : Plan p
  | list {p : Place} (hp : p ≠ .ts) (Name : Text) (inner : Plan .tl) (rest : Plan p) : Plan p

inductive NodeType where
  | TL | TS
  deriving DecidableEq, Repr

/-- The hash of a list or a suite. Its address is the position at which it was first pushed. -/
structure Node where
  id : Nat
  type : NodeType
  Name : Text
  deriving DecidableEq, Repr

/-- An entry of `List`. -/
inductive CaseItem where
  | S (n : Node)
  | E (n : Node)
  | TC (tc : TestCase)
  deriving DecidableEq, Repr

namespace Plan

variable {p : Place}

/-- The number of items a plan is flattened to. -/
def size : {p : Place} → Plan p → Nat
  | _, nil => 0
  | _, case _ _ rest => rest.size + 1
  | _, suite _ inner rest => inner.size + rest.size + 2
  | _, list _ _ inner rest => inner.size + rest.size + 2

/-- `_parse_TL`, `_parse_TS` and `_parse_TC`, which push the items from position `n` on. -/
def items : {p : Place} → Nat → Plan p → List CaseItem
  | _, _, nil => []
  | _, n, case _ tc rest => .TC tc :: rest.items (n + 1)
  | _, n, suite Name inner rest =>
    .S ⟨n, .TS, Name⟩ :: (inner.items (n + 1) ++
      .E ⟨n, .TS, Name⟩ :: rest.items (n + inner.size + 2))
  | _, n, list _ Name inner rest =>
    .S ⟨n, .TL, Name⟩ :: (inner.items (n + 1) ++
      .E ⟨n, .TL, Name⟩ :: rest.items (n + inner.size + 2))

end Plan

/-- An entry of a `failed_list`. -/
inductive Failed where
  | tc (tc : TestCase)
  | node (n : Node)
  deriving DecidableEq, Repr

namespace Failed

/-- Cases that `report_TS_bottom` counts as failed. -/
def short : Failed → Bool
  | .tc c => c.plan != c.ok
  | .node _ => false

def isType (k : NodeType) : Failed → Bool
  | .tc _ => false
  | .node n => n.type = k

end Failed

/-- The line of a list or a suite in the report, with the counts it prints. -/
structure Report where
  node : Node
  fail : Bool
  sub_fail : Nat
  tc_fail : Nat
  deriving DecidableEq, Repr

structure TestPlan where
  /-- The open lists and suites, the innermost one last. -/
  stack : List Node
  current_tl : Option Node
  current_ts : Option Node
  current_tc : Option TestCase
  tl_fail_count : Nat
  ts_fail_count : Nat
  tc_fail_count : Nat
  doing_tc_cnt : Nat
  /-- The `failed_list` at each address. -/
  failed_list : Nat → List Failed
  reports : List Report

namespace TestPlan

/-- A plan object before the walk. -/
def new : TestPlan := ⟨[], none, none, none, 0, 0, 0, 0, fun _ => [], []⟩

/-- The failed list of the innermost open node grows. -/
def push_failed (s : TestPlan) (t : Failed) : TestPlan :=
  if 0 < s.stack.length then
    match s.stack[s.stack.length - 1]? with
    | some parent =>
      { s with failed_list :=
          Function.update s.failed_list parent.id (s.failed_list parent.id ++ [t]) }
    | none => s
  else s

def put_failed_test (s : TestPlan) (t : Failed) : TestPlan :=
  let s := s.push_failed t
  match t with
  | .node ⟨_, .TL, _⟩ => { s with tl_fail_count := s.tl_fail_count + 1 }
  | .node ⟨_, .TS, _⟩ => { s with ts_fail_count := s.ts_fail_count + 1 }
  | .tc _ => { s with tc_fail_count := s.tc_fail_count + 1 }

def report_TS_bottom (s : TestPlan) (ts : Node) : TestPlan :=
  let failed := s.failed_list ts.id
  let tc_fail := failed.countP Failed.short
  let ts_fail := failed.countP (Failed.isType .TS)
  let fail := decide (0 < tc_fail) || decide (0 < ts_fail)
  let s := if fail then s.put_failed_test (.node ts) else s
  { s with reports := s.reports ++ [⟨ts, fail, ts_fail, tc_fail⟩] }

def report_TL_bottom (s : TestPlan) (tl : Node) : TestPlan :=
  let failed := s.failed_list tl.id
  let ts_fail := failed.countP (Failed.isType .TS)
  let tl_fail := failed.countP (Failed.isType .TL)
  -- every entry counts for the verdict, also one that neither number counts
  let fail := !failed.isEmpty
  let s := if fail then s.put_failed_test (.node tl) else s
  { s with reports := s.reports ++ [⟨tl, fail, tl_fail, ts_fail⟩] }

/-- The pointer of a node's own type is set to it. -/
def setCurrent (s : TestPlan) (n : Node) : TestPlan :=
  match n.type with
  | .TS => { s with current_ts := some n }
  | .TL => { s with current_tl := some n }

/-- A list or a suite begins. -/
def enter (s : TestPlan) (n : Node) : TestPlan :=
  { s with stack := s.stack ++ [n] }.setCurrent n

/-- A list or a suite ends. The pointers are to be set from the stack, with the size of the stack
as the index. -/
def leave (s : TestPlan) (n : Node) : TestPlan :=
  let s := { s with stack := s.stack.dropLast }
  let s := match n.type with
    | .TS => s.report_TS_bottom n
    | .TL => s.report_TL_bottom n
  match s.stack[s.stack.length]? with
  | some top_test => s.setCurrent top_test
  | none => s

/-- `get_tc`, from the given items on: the next case with the items behind it. -/
def get_tc (s : TestPlan) : List CaseItem → TestPlan × Option (TestCase × List CaseItem)
  | [] => ({ s with current_tc := none }, none)
  | .TC tc :: rest =>
    ({ s with current_tc := some tc, doing_tc_cnt := s.doing_tc_cnt + 1 }, some (tc, rest))
  | .S n :: rest => (s.enter n).get_tc rest
  | .E n :: rest => (s.leave n).get_tc rest

/-- The end of a case: `RepTL::report_TC`. -/
def report_TC (s : TestPlan) (tc : TestCase) : TestPlan :=
  if tc.plan ≠ tc.ok ∨ tc.remain = true then s.put_failed_test (.tc tc) else s

/-- Case after case is fetched, run and reported, until there is none; at most `fuel` times. The
result is the state of the plan object at each fetch, and at the end. -/
def run : Nat → TestPlan → List CaseItem → List (TestCase × TestPlan) × Option TestPlan
  | 0, _, _ => ([], none)
  | fuel + 1, s, l =>
    match s.get_tc l with
    | (s, none) => ([], some s)
    | (s, some (tc, rest)) =>
      let r := run fuel (s.report_TC tc) rest
      ((tc, s) :: r.1, r.2)

/-- The scope of a DECLARE. -/
inductive Scope where
  | TL | TS | TC
  deriving DecidableEq, Repr

/-- The container `makeContextList` of `ParseSQL.pm` stores a declaration in: without a list that
of the suite, without a suite that of the case. -/
def container (s : TestPlan) (scope : Scope) : Option (Node ⊕ TestCase) :=
  let tc := s.current_tc.map Sum.inr
  let ts := (s.current_ts.map Sum.inl).or tc
  match scope with
  | .TL => (s.current_tl.map Sum.inl).or ts
  | .TS => ts
  | .TC => tc

section Frames

variable (s : TestPlan)

/-- Only the failed lists change. -/
theorem push_failed_eq (f : Failed) : ∃ l, s.push_failed f = { s with failed_list := l } := by
  unfold push_failed
  split
  · split
    · exact ⟨_, rfl⟩
    · exact ⟨s.failed_list, rfl⟩
  · exact ⟨s.failed_list, rfl⟩

theorem put_failed_test_eq (f : Failed) : ∃ l tl ts tc, s.put_failed_test f =
    { s with failed_list := l, tl_fail_count := tl, ts_fail_count := ts, tc_fail_count := tc } := by
  obtain ⟨l, hl⟩ := s.push_failed_eq f
  unfold put_failed_test
  rw [hl]
  split <;> exact ⟨_, _, _, _, rfl⟩

theorem report_TC_eq (tc : TestCase) : ∃ l tl ts tc', s.report_TC tc =
    { s with failed_list := l, tl_fail_count := tl, ts_fail_count := ts, tc_fail_count := tc' } := by
  unfold report_TC
  split
  · exact s.put_failed_test_eq _
  · exact ⟨_, _, _, _, rfl⟩

/-- The report at the end of a node. -/
def bottom (node : Node) : TestPlan :=
  match node.type with
  | .TS => s.report_TS_bottom node
  | .TL => s.report_TL_bottom node

theorem bottom_eq (node : Node) : ∃ l r tl ts tc, s.bottom node =
    { s with
      failed_list := l, reports := r
      tl_fail_count := tl, ts_fail_count := ts, tc_fail_count := tc } := by
  obtain ⟨l, tl, ts, tc, hput⟩ := s.put_failed_test_eq (.node node)
  unfold bottom report_TS_bottom report_TL_bottom
  rw [hput]
  cases node.type <;> dsimp only <;> split <;> exact ⟨_, _, _, _, _, rfl⟩

/-- The index behind the top of the stack finds nothing. -/
theorem leave_eq (node : Node) :
    s.leave node = bottom { s with stack := s.stack.dropLast } node := by
  rw [leave, bottom]
  cases node.type <;> simp

/-- Entering a node changes the stack and the pointers only. -/
theorem enter_eq (node : Node) : ∃ tl ts, s.enter node =
    { s with stack := s.stack ++ [node], current_tl := tl, current_ts := ts } := by
  rw [enter, setCurrent]
  cases node.type with
  | TL => exact ⟨some node, s.current_ts, rfl⟩
  | TS => exact ⟨s.current_tl, some node, rfl⟩

end Frames

section Walk

/-- The state in which `get_tc` returns a case. -/
def fetched (s : TestPlan) (tc : TestCase) : TestPlan :=
  { s with current_tc := some tc, doing_tc_cnt := s.doing_tc_cnt + 1 }

def visit (s : TestPlan) : CaseItem → TestPlan
  | .S n => s.enter n
  | .E n => s.leave n
  | .TC tc => (s.fetched tc).report_TC tc

/-- Item after item. -/
def visits (s : TestPlan) (l : List CaseItem) : TestPlan := l.foldl visit s

/-- The cases among the items, each with the state in which it is fetched. -/
def fetches : TestPlan → List CaseItem → List (TestCase × TestPlan)
  | _, [] => []
  | s, .S n :: rest => fetches (s.enter n) rest
  | s, .E n :: rest => fetches (s.leave n) rest
  | s, .TC tc :: rest => (tc, s.fetched tc) :: fetches ((s.fetched tc).report_TC tc) rest

theorem visits_cons (s : TestPlan) (i : CaseItem) (l : List CaseItem) :
    s.visits (i :: l) = (s.visit i).visits l := rfl

theorem visits_append (s : TestPlan) (l l' : List CaseItem) :
    s.visits (l ++ l') = (s.visits l).visits l' := List.foldl_append

theorem fetches_append (s : TestPlan) (l l' : List CaseItem) :
    s.fetches (l ++ l') = s.fetches l ++ (s.visits l).fetches l' := by
  induction l generalizing s with
  | nil => rfl
  | cons i l ih => cases i <;> simp [fetches, visits_cons, visit, ih]

/-- Each call of `get_tc` goes through the items up to the next case; so the whole run goes
through all of them once. -/
theorem run_eq (l : List CaseItem) (s : TestPlan) (fuel : Nat) (h : l.length < fuel) :
    run fuel s l = (s.fetches l, some { s.visits l with current_tc := none }) := by
  obtain ⟨fuel, rfl⟩ := Nat.exists_eq_succ_of_ne_zero (Nat.ne_of_gt (Nat.zero_lt_of_lt h))
  induction l generalizing s fuel with
  | nil => rfl
  | cons i l ih =>
    rw [List.length_cons] at h
    cases i with
    | S n => exact ih (s.enter n) fuel (by omega)
    | E n => exact ih (s.leave n) fuel (by omega)
    | TC tc =>
      obtain ⟨fuel, rfl⟩ := Nat.exists_eq_succ_of_ne_zero (show fuel ≠ 0 by omega)
      simp only [run, get_tc, fetches, visits_cons, visit]
      have := ih ((s.fetched tc).report_TC tc) fuel (by omega)
      simp only [run, fetched] at this ⊢
      rw [this]

end Walk

end TestPlan

end Natc.Harness
