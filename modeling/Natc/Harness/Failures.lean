import Natc.Harness.TestPlan

/-!
# Failures on their way up

A failed case enters the failed list of its suite, a failed suite that of its parent. The suites
count the cases whose passed sectors differ from the plan; a case that failed only because expected
sectors were left over is in the list without being counted.
-/

namespace Natc.Harness

open Lib

/-- A case fails when its passed sectors differ from its plan or expected sectors remain. -/
def TestCase.failing (tc : TestCase) : Bool := tc.plan != tc.ok || tc.remain

/-- The passed sectors differ from the plan. -/
def TestCase.short (tc : TestCase) : Bool := tc.plan != tc.ok

/-- The pair of a report that the verdict is about. -/
def Report.verdict (r : Report) : Node × Bool := (r.node, r.fail)

namespace Plan

variable {p : Place}

/-- Some case, at any depth, has the property. -/
def someCase (f : TestCase → Bool) : {p : Place} → Plan p → Bool
  | _, nil => false
  | _, case _ tc rest => f tc || rest.someCase f
  | _, suite _ inner rest => inner.someCase f || rest.someCase f
  | _, list _ _ inner rest => inner.someCase f || rest.someCase f

/-- The cases with the property. -/
def countCases (f : TestCase → Bool) : {p : Place} → Plan p → Nat
  | _, nil => 0
  | _, case _ tc rest => (if f tc then 1 else 0) + rest.countCases f
  | _, suite _ inner rest => inner.countCases f + rest.countCases f
  | _, list _ _ inner rest => inner.countCases f + rest.countCases f

/-- The lists and suites as they end, each with whether some case below it has the property. -/
def verdicts (f : TestCase → Bool) : {p : Place} → Nat → Plan p → List (Node × Bool)
  | _, _, nil => []
  | _, n, case _ _ rest => rest.verdicts f (n + 1)
  | _, n, suite Name inner rest =>
    inner.verdicts f (n + 1) ++ (⟨n, .TS, Name⟩, inner.someCase f) ::
      rest.verdicts f (n + inner.size + 2)
  | _, n, list _ Name inner rest =>
    inner.verdicts f (n + 1) ++ (⟨n, .TL, Name⟩, inner.someCase f) ::
      rest.verdicts f (n + inner.size + 2)

/-- Below every suite with a failed case there is one whose passed sectors differ from its plan. -/
def Shown : {p : Place} → Plan p → Prop
  | _, nil => True
  | _, case _ _ rest => rest.Shown
  | _, suite _ inner rest =>
    (inner.someCase TestCase.failing = true → inner.someCase TestCase.short = true) ∧
      inner.Shown ∧ rest.Shown
  | _, list _ _ inner rest => inner.Shown ∧ rest.Shown

/-- What the parts of a plan add to the failed list of the node around it. -/
def failed : {p : Place} → Nat → Plan p → List Failed
  | _, _, nil => []
  | _, n, case _ tc rest => (if tc.failing then [.tc tc] else []) ++ rest.failed (n + 1)
  | _, n, suite Name inner rest =>
    (if inner.someCase TestCase.short then [.node ⟨n, .TS, Name⟩] else []) ++
      rest.failed (n + inner.size + 2)
  | _, n, list _ Name inner rest =>
    (if inner.someCase TestCase.short then [.node ⟨n, .TL, Name⟩] else []) ++
      rest.failed (n + inner.size + 2)

/-- A suite counts something in its failed list just if some case below it is short. -/
theorem any_failed_suite {p : Place} (q : Plan p) (hp : p = .ts) (n : Nat) :
    ((q.failed n).any fun f => f.short || f.isType .TS) = q.someCase TestCase.short := by
  induction q generalizing n with
  | nil => rfl
  | case _ tc rest ih =>
    rw [failed, List.any_append, ih hp, someCase]
    cases hs : tc.short <;> cases hr : tc.remain <;>
      simp_all [TestCase.failing, TestCase.short, Failed.short, Failed.isType]
  | suite Name inner rest _ ih =>
    rw [failed, List.any_append, ih hp, someCase]
    cases inner.someCase TestCase.short <;> simp [Failed.isType]
  | list hts _ _ _ _ _ => exact absurd hp hts

/-- The failed list of a list is empty just if no case below it is short. -/
theorem failed_list_ne_nil {p : Place} (q : Plan p) (hp : p = .tl) (n : Nat) :
    (!(q.failed n).isEmpty) = q.someCase TestCase.short := by
  induction q generalizing n with
  | nil => rfl
  | case htl _ _ _ => exact absurd hp htl
  | suite Name inner rest _ ih =>
    have ih := ih hp (n + inner.size + 2)
    rw [failed, someCase]
    cases inner.someCase TestCase.short <;> simp_all
  | list _ Name inner rest _ ih =>
    have ih := ih hp (n + inner.size + 2)
    rw [failed, someCase]
    cases inner.someCase TestCase.short <;> simp_all

end Plan

/-- The verdicts of the given type that say that it failed. -/
def failedOf (k : NodeType) (vs : List (Node × Bool)) : Nat :=
  vs.countP fun v => v.1.type = k && v.2

namespace TestPlan

variable {s t u : TestPlan} {n m l : Nat}

/-- The address of the innermost open node. -/
def top (s : TestPlan) : Option Nat := s.stack.getLast?.map (·.id)

/-- What walking along the items from address `n` to `m` does: it adds `fs` to the failed list of
the innermost open node, the verdicts `vs` to the report, and `k` failed cases. -/
structure Effect (s t : TestPlan) (n m : Nat) (fs : List Failed) (vs : List (Node × Bool))
    (k : Nat) : Prop where
  stack : t.stack = s.stack
  failed : ∀ i, i < n ∨ m ≤ i →
    t.failed_list i = s.failed_list i ++ (if s.top = some i then fs else [])
  reports : t.reports.map Report.verdict = s.reports.map Report.verdict ++ vs
  tl_count : t.tl_fail_count = s.tl_fail_count + failedOf .TL vs
  ts_count : t.ts_fail_count = s.ts_fail_count + failedOf .TS vs
  tc_count : t.tc_fail_count = s.tc_fail_count + k

theorem Effect.trans {fs fs' : List Failed} {vs vs' : List (Node × Bool)} {k k' : Nat}
    (h : Effect s t n m fs vs k) (h' : Effect t u m l fs' vs' k') (hn : n ≤ m) (hm : m ≤ l) :
    Effect s u n l (fs ++ fs') (vs ++ vs') (k + k') where
  stack := h'.stack.trans h.stack
  failed := by
    intro i hi
    have htop : t.top = s.top := by rw [top, top, h.stack]
    rw [h'.failed i (by omega), h.failed i (by omega), htop]
    split <;> simp
  reports := by rw [h'.reports, h.reports, List.append_assoc]
  tl_count := by
    rw [h'.tl_count, h.tl_count, failedOf, failedOf, failedOf, List.countP_append, Nat.add_assoc]
  ts_count := by
    rw [h'.ts_count, h.ts_count, failedOf, failedOf, failedOf, List.countP_append, Nat.add_assoc]
  tc_count := by rw [h'.tc_count, h.tc_count, Nat.add_assoc]

theorem Effect.refl (s : TestPlan) (n : Nat) : Effect s s n n [] [] 0 :=
  ⟨rfl, by simp, by simp, rfl, rfl, rfl⟩

/-- Nothing has been pushed to the addresses from `n` on, and the innermost open node is below. -/
structure Fresh (s : TestPlan) (n : Nat) : Prop where
  empty : ∀ i, n ≤ i → s.failed_list i = []
  below : ∀ i, s.top = some i → i < n

theorem Effect.fresh {fs : List Failed} {vs : List (Node × Bool)} {k : Nat}
    (h : Effect s t n m fs vs k) (hs : s.Fresh n) (hn : n ≤ m) : t.Fresh m where
  empty := by
    intro i hi
    rw [h.failed i (.inr hi), hs.empty i (by omega), if_neg]
    · rfl
    · intro htop
      have := hs.below i htop
      omega
  below := by
    intro i hi
    rw [top, h.stack] at hi
    have := hs.below i hi
    omega

section Push

variable (s) (f : Failed)

theorem push_failed_list (i : Nat) : (s.push_failed f).failed_list i =
    s.failed_list i ++ (if s.top = some i then [f] else []) := by
  rw [push_failed, ← List.getLast?_eq_getElem?]
  cases hlast : s.stack.getLast? with
  | none => simp [top, hlast]
  | some parent =>
    have hpos : 0 < s.stack.length := by
      apply List.length_pos_iff.mpr
      intro hnil
      simp [hnil] at hlast
    simp only [hpos, if_true, top, hlast, Option.map_some, Option.some.injEq]
    by_cases hi : parent.id = i
    · subst hi
      simp
    · simp [hi, Function.update_of_ne (Ne.symm hi)]

end Push

section Steps

variable (s) (n m)

/-- What `report_TS_bottom` and `report_TL_bottom` make of a failed list. -/
def fails (k : NodeType) (fs : List Failed) : Bool :=
  match k with
  | .TS => fs.any fun f => f.short || f.isType .TS
  | .TL => !fs.isEmpty

theorem put_tc_effect (tc : TestCase) :
    Effect s (s.put_failed_test (.tc tc)) n m [.tc tc] [] 1 := by
  obtain ⟨l, hl⟩ := push_failed_eq s (.tc tc)
  have hlist := push_failed_list s (.tc tc)
  rw [hl] at hlist
  rw [put_failed_test, hl]
  exact ⟨rfl, fun i _ => hlist i, by simp, rfl, rfl, rfl⟩

theorem report_tc_effect (tc : TestCase) :
    Effect s ((s.fetched tc).report_TC tc) n m (if tc.failing then [.tc tc] else []) []
      (if tc.failing then 1 else 0) := by
  have hfail : (tc.plan ≠ tc.ok ∨ tc.remain = true) ↔ tc.failing = true := by
    simp [TestCase.failing]
  rw [report_TC]
  by_cases hf : tc.failing = true
  · have := put_tc_effect (s.fetched tc) n m tc
    rw [if_pos (hfail.mpr hf), if_pos hf, if_pos hf]
    exact ⟨this.stack, this.failed, this.reports, this.tl_count, this.ts_count, this.tc_count⟩
  · rw [if_neg (mt hfail.mp hf), if_neg hf, if_neg hf]
    exact ⟨rfl, by simp [fetched], by simp [fetched], rfl, rfl, rfl⟩

theorem bottom_effect (node : Node) : Effect s (s.bottom node) n m
    (if fails node.type (s.failed_list node.id) then [.node node] else [])
    [(node, fails node.type (s.failed_list node.id))] 0 := by
  obtain ⟨l, hl⟩ := push_failed_eq s (.node node)
  have hlist := push_failed_list s (.node node)
  rw [hl] at hlist
  obtain ⟨id, k, Name⟩ := node
  cases k with
  | TS =>
    have hfail : (decide (0 < (s.failed_list id).countP Failed.short) ||
        decide (0 < (s.failed_list id).countP (Failed.isType .TS))) =
          fails .TS (s.failed_list id) := by
      rw [fails, Bool.eq_iff_iff]
      simp only [Bool.or_eq_true, decide_eq_true_eq, List.countP_pos_iff, List.any_eq_true]
      grind
    simp only [bottom, report_TS_bottom, hfail]
    cases fails .TS (s.failed_list id) with
    | true =>
      simp only [put_failed_test, hl, if_true]
      exact ⟨rfl, fun i _ => hlist i, by simp [Report.verdict], rfl, rfl, rfl⟩
    | false => exact ⟨rfl, by simp, by simp [Report.verdict], rfl, rfl, rfl⟩
  | TL =>
    have hfail : (!(s.failed_list id).isEmpty) = fails .TL (s.failed_list id) := rfl
    simp only [bottom, report_TL_bottom, hfail]
    cases fails .TL (s.failed_list id) with
    | true =>
      simp only [put_failed_test, hl, if_true]
      exact ⟨rfl, fun i _ => hlist i, by simp [Report.verdict], rfl, rfl, rfl⟩
    | false => exact ⟨rfl, by simp, by simp [Report.verdict], rfl, rfl, rfl⟩

end Steps

/-- A node from its beginning to its end. -/
theorem node_effect {node : Node} {fs : List Failed} {vs : List (Node × Bool)} {k : Nat}
    (hs : s.Fresh n) (hnode : node.id = n) (hm : n < m)
    (h : Effect (s.enter node) t (n + 1) m fs vs k) :
    Effect s (t.leave node) n (m + 1) (if fails node.type fs then [.node node] else [])
      (vs ++ [(node, fails node.type fs)]) k := by
  obtain ⟨tl, ts, henter⟩ := enter_eq s node
  rw [henter] at h
  have hstack : t.stack.dropLast = s.stack := by simp [h.stack]
  have hlist : t.failed_list node.id = fs := by
    rw [hnode, h.failed n (.inl (Nat.lt_succ_self n))]
    simp [top, hs.empty n (le_refl n), hnode]
  have hbottom := bottom_effect { t with stack := t.stack.dropLast } n (m + 1) node
  rw [leave_eq]
  rw [hlist] at hbottom
  constructor
  case stack => exact hbottom.stack.trans hstack
  case failed =>
    intro i hi
    rw [hbottom.failed i hi]
    have htop : top { t with stack := t.stack.dropLast } = s.top := by rw [top, top, hstack]
    have hne : n ≠ i := by omega
    have hinner : t.failed_list i = s.failed_list i := by
      rw [h.failed i (by omega)]
      simp [top, hnode, hne]
    rw [htop, hinner]
  case reports =>
    rw [hbottom.reports, ← List.append_assoc]
    exact congrArg (· ++ _) h.reports
  case tl_count =>
    rw [hbottom.tl_count, failedOf, failedOf, List.countP_append, ← Nat.add_assoc]
    exact congrArg (· + _) h.tl_count
  case ts_count =>
    rw [hbottom.ts_count, failedOf, failedOf, List.countP_append, ← Nat.add_assoc]
    exact congrArg (· + _) h.ts_count
  case tc_count => exact hbottom.tc_count.trans h.tc_count

theorem enter_fresh {node : Node} (hs : s.Fresh n) (hnode : node.id = n) :
    (s.enter node).Fresh (n + 1) := by
  obtain ⟨tl, ts, henter⟩ := enter_eq s node
  rw [henter]
  constructor
  · exact fun i hi => hs.empty i (by omega)
  · intro i hi
    simp only [top, List.getLast?_concat, Option.map_some, Option.some.injEq] at hi
    omega

/-- A node with its parts, and what stands behind it. -/
theorem walk_node {p r : Place} (node : Node) {inner : Plan p} {rest : Plan r} (hs : s.Fresh n)
    (hnode : node.id = n)
    (hfails : fails node.type (inner.failed (n + 1)) = inner.someCase TestCase.short)
    (hinner : Effect (s.enter node) ((s.enter node).visits (inner.items (n + 1))) (n + 1)
      (n + 1 + inner.size) (inner.failed (n + 1)) (inner.verdicts TestCase.short (n + 1))
      (inner.countCases TestCase.failing))
    (hrest : ∀ t : TestPlan, t.Fresh m → Effect t (t.visits (rest.items m)) m (m + rest.size)
      (rest.failed m) (rest.verdicts TestCase.short m) (rest.countCases TestCase.failing))
    (hm : m = n + inner.size + 2) :
    Effect s (s.visits (.S node :: (inner.items (n + 1) ++ .E node :: rest.items m))) n
      (n + (inner.size + rest.size + 2))
      ((if inner.someCase TestCase.short then [.node node] else []) ++ rest.failed m)
      (inner.verdicts TestCase.short (n + 1) ++ (node, inner.someCase TestCase.short) ::
        rest.verdicts TestCase.short m)
      (inner.countCases TestCase.failing + rest.countCases TestCase.failing) := by
  have hnode := node_effect hs hnode (by omega) hinner
  have hend : n + 1 + inner.size + 1 = m := by omega
  rw [hfails, hend] at hnode
  have hall := hnode.trans (hrest _ (hnode.fresh hs (by omega))) (by omega) (Nat.le_add_right _ _)
  have hsize : m + rest.size = n + (inner.size + rest.size + 2) := by omega
  rw [hsize] at hall
  simpa [visits_cons, visits_append, visit] using hall

/-- Walking along the items of a plan. -/
theorem walk_effect {p : Place} (q : Plan p) {s : TestPlan} {n : Nat} (hs : s.Fresh n) :
    Effect s (s.visits (q.items n)) n (n + q.size) (q.failed n) (q.verdicts TestCase.short n)
      (q.countCases TestCase.failing) := by
  induction q generalizing s n with
  | nil => exact .refl s n
  | case _ tc rest ih =>
    have htc := report_tc_effect s n (n + 1) tc
    have hrest := ih (htc.fresh hs (Nat.le_succ n))
    have hall := htc.trans hrest (by omega) (by omega)
    rw [Plan.size, Nat.add_comm rest.size 1, ← Nat.add_assoc]
    exact hall
  | suite Name inner rest ihi ih =>
    exact walk_node ⟨n, .TS, Name⟩ hs rfl (inner.any_failed_suite rfl (n + 1))
      (ihi (enter_fresh hs rfl)) (fun _ ht => ih ht) rfl
  | list _ Name inner rest ihi ih =>
    exact walk_node ⟨n, .TL, Name⟩ hs rfl (inner.failed_list_ne_nil rfl (n + 1))
      (ihi (enter_fresh hs rfl)) (fun _ ht => ih ht) rfl

end TestPlan

namespace Plan

variable {p : Place}

/-- A whole run of a plan from the command line. -/
def report (q : Plan .argv) : Option TestPlan :=
  (TestPlan.run ((q.items 0).length + 1) .new (q.items 0)).2

/-- Lists and suites are reported as failed just if some case below them failed, and the counts are
those of the failed cases, suites and lists. -/
def Propagated (q : Plan .argv) : Prop :=
  ∃ t, q.report = some t ∧
    t.reports.map Report.verdict = q.verdicts TestCase.failing 0 ∧
    t.tc_fail_count = q.countCases TestCase.failing ∧
    t.ts_fail_count = failedOf .TS (q.verdicts TestCase.failing 0) ∧
    t.tl_fail_count = failedOf .TL (q.verdicts TestCase.failing 0)

theorem report_eq (q : Plan .argv) : ∃ t, q.report = some t ∧
    t.reports.map Report.verdict = q.verdicts TestCase.short 0 ∧
    t.tc_fail_count = q.countCases TestCase.failing ∧
    t.ts_fail_count = failedOf .TS (q.verdicts TestCase.short 0) ∧
    t.tl_fail_count = failedOf .TL (q.verdicts TestCase.short 0) := by
  have hfresh : TestPlan.new.Fresh 0 := ⟨fun _ _ => rfl, by simp [TestPlan.top, TestPlan.new]⟩
  have h := TestPlan.walk_effect q hfresh
  refine ⟨_, by rw [report, TestPlan.run_eq _ _ _ (Nat.lt_succ_self _)], ?_⟩
  exact ⟨by simpa [TestPlan.new] using h.reports, by simpa [TestPlan.new] using h.tc_count,
    by simpa [TestPlan.new] using h.ts_count, by simpa [TestPlan.new] using h.tl_count⟩

theorem someCase_failing {p : Place} (q : Plan p) (h : q.someCase TestCase.short = true) :
    q.someCase TestCase.failing = true := by
  induction q with
  | nil => exact h
  | case _ tc rest ih => grind [someCase, TestCase.short, TestCase.failing]
  | suite Name inner rest ihi ih => grind [someCase]
  | list _ Name inner rest ihi ih => grind [someCase]

/-- Inside a list all cases stand in suites. -/
theorem Shown.someCase_eq {p : Place} {q : Plan p} (h : q.Shown) (hp : p = .tl) :
    q.someCase TestCase.failing = true → q.someCase TestCase.short = true := by
  induction q with
  | nil => exact id
  | case htl _ _ _ => exact absurd hp htl
  | suite Name inner rest _ ih =>
    have := ih h.2.2 hp
    have := h.1
    grind [someCase]
  | list _ Name inner rest ihi ih =>
    have := ihi h.1 rfl
    have := ih h.2 hp
    grind [someCase]

theorem length_verdicts (f g : TestCase → Bool) {p : Place} (q : Plan p) (n : Nat) :
    (q.verdicts f n).length = (q.verdicts g n).length := by
  induction q generalizing n with
  | nil => rfl
  | case _ tc rest ih => exact ih (n + 1)
  | suite Name inner rest ihi ih =>
    simp [verdicts, ihi (n + 1), ih (n + inner.size + 2)]
  | list _ Name inner rest ihi ih =>
    simp [verdicts, ihi (n + 1), ih (n + inner.size + 2)]

theorem someCase_eq_iff {p : Place} (q : Plan p) :
    q.someCase TestCase.short = q.someCase TestCase.failing ↔
      (q.someCase TestCase.failing = true → q.someCase TestCase.short = true) := by
  have := q.someCase_failing
  rw [Bool.eq_iff_iff]
  grind

/-- The verdicts of a node, of its parts and of what stands behind it agree one by one. -/
theorem verdicts_node_iff {p r : Place} {node : Node} (inner : Plan p) (rest : Plan r)
    (n m : Nat) :
    inner.verdicts TestCase.short n ++ (node, inner.someCase TestCase.short) ::
        rest.verdicts TestCase.short m =
      inner.verdicts TestCase.failing n ++ (node, inner.someCase TestCase.failing) ::
        rest.verdicts TestCase.failing m ↔
    inner.verdicts TestCase.short n = inner.verdicts TestCase.failing n ∧
      inner.someCase TestCase.short = inner.someCase TestCase.failing ∧
      rest.verdicts TestCase.short m = rest.verdicts TestCase.failing m := by
  constructor
  · intro h
    obtain ⟨hinner, hrest⟩ := List.append_inj h (inner.length_verdicts _ _ n)
    obtain ⟨hnode, hrest⟩ := List.cons.inj hrest
    exact ⟨hinner, congrArg Prod.snd hnode, hrest⟩
  · rintro ⟨hinner, hnode, hrest⟩
    rw [hinner, hnode, hrest]

theorem verdicts_eq_iff {p : Place} (q : Plan p) (n : Nat) :
    q.verdicts TestCase.short n = q.verdicts TestCase.failing n ↔ q.Shown := by
  induction q generalizing n with
  | nil => simp [verdicts, Shown]
  | case _ tc rest ih => simpa [verdicts, Shown] using ih (n + 1)
  | suite Name inner rest ihi ih =>
    rw [verdicts, verdicts, verdicts_node_iff, ihi, ih, someCase_eq_iff, Shown]
    grind
  | list _ Name inner rest ihi ih =>
    rw [verdicts, verdicts, verdicts_node_iff, ihi, ih, someCase_eq_iff, Shown]
    constructor
    · exact fun h => ⟨h.1, h.2.2⟩
    · exact fun h => ⟨h.1, h.1.someCase_eq rfl, h.2⟩

theorem propagated_iff (q : Plan .argv) :
    q.Propagated ↔ q.verdicts TestCase.short 0 = q.verdicts TestCase.failing 0 := by
  obtain ⟨t, hrun, hreports, htc, hts, htl⟩ := q.report_eq
  constructor
  · rintro ⟨t', hrun', hreports', _⟩
    have ht : t' = t := Option.some.inj (hrun'.symm.trans hrun)
    rw [← hreports, ← hreports', ht]
  · intro h
    rw [h] at hreports hts htl
    exact ⟨t, hrun, hreports, htc, hts, htl⟩

/-- The report says of each list and suite whether some case below it failed, and the counts are
right, exactly when below every suite with a failed case there is one whose passed sectors differ
from its plan. -/
theorem failures_propagate_iff (q : Plan .argv) : q.Propagated ↔ q.Shown :=
  q.propagated_iff.trans (q.verdicts_eq_iff 0)

/-- A suite whose only case passes all its sectors, while an expected sector remains. -/
def leftOver : Plan .argv :=
  .suite "a.ts".toList (.case Place.ts_ne_tl ⟨"a.sql".toList, 2, 2, true⟩ .nil) .nil

/-- The case is counted as failed, and its suite reported as passed. -/
theorem leftOver_not_propagated : ¬∀ q : Plan .argv, q.Propagated := by
  intro hall
  have hsame := leftOver.propagated_iff.mp (hall leftOver)
  exact absurd hsame (by decide)

end Plan

end Natc.Harness
