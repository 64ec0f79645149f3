import Natc.Harness.Scopes
import Natc.Lib.Branches
import Natc.Lib.Loops
import Mathlib.Data.List.Nodup

/-!
# Looking definitions up

Servers and clients are defined in cases, suites and lists. `get_nearest_scope` looks for a
definition in the running case and then outwards along the stack; `get_higher_scope` is to look
outside of a suite or a list. It finds the place of that one on the stack by its name.
-/

namespace Natc.Harness

open Lib

inductive WhichList where
  | server_list | client_list
  deriving DecidableEq, Repr

def ALL : Text := ['A', 'L', 'L']

/-- A definition: where it is, and under which name. -/
inductive Found where
  | defined (container : Node ⊕ TestCase) (name : Text)
  /-- The entry `DEFAULT` of the server or the client templates. -/
  | DEFAULT (which_list : WhichList)
  deriving DecidableEq

/-- The names that are defined in each case, suite and list. -/
abbrev Definitions := Node ⊕ TestCase → WhichList → Text → Bool

/-- An element of a Perl array, counted from its end if the index is negative. -/
def element {α : Type} (l : List α) (i : Int) : Option α :=
  if 0 ≤ i then l[i.toNat]? else if -l.length ≤ i then l[(i + l.length).toNat]? else none

/-- The definition of the name in one place, or else that of `ALL`. -/
def Definitions.find (d : Definitions) (which_list : WhichList) (find_name : Text)
    (container : Node ⊕ TestCase) : Option Found :=
  if d container which_list find_name then some (.defined container find_name)
  else if d container which_list ALL then some (.defined container ALL)
  else none

namespace TestPlan

variable (s : TestPlan) (d : Definitions) (which_list : WhichList) (find_name : Text)

/-- `while ($stack_ptr > 0)`. -/
def searchStack : Nat → Option Found
  | 0 => none
  | stack_ptr + 1 =>
    match s.stack[stack_ptr]?.bind fun n => d.find which_list find_name (.inl n) with
    | some found => some found
    | none => searchStack stack_ptr

def get_nearest_scope : Found :=
  match s.current_tc.bind fun tc => d.find which_list find_name (.inr tc) with
  | some found => found
  | none => (s.searchStack d which_list find_name s.stack.length).getD (.DEFAULT which_list)

/-- The index goes down from the top of the stack to a node with the name; nothing keeps it from
going on below the bottom. -/
def findPosition (Name : Text) (fuel : Nat) : Option Int :=
  loop (fun stack_ptr => ((element s.stack stack_ptr).map Node.Name).getD [] ≠ Name)
    (fun stack_ptr => some (stack_ptr - 1)) fuel (s.stack.length - 1)

def get_higher_scope (current_scope_obj : Node ⊕ TestCase) (fuel : Nat) : Option Found :=
  match s.current_tc.filter fun tc => !decide (ALL <:+: find_name) && d (.inr tc) which_list ALL with
  | some tc => some (.defined (.inr tc) ALL)
  | none =>
    let stack_ptr := match current_scope_obj with
      | .inl obj => if 0 < s.stack.length then s.findPosition obj.Name fuel else some 0
      | .inr _ => some (s.stack.length : Int)
    stack_ptr.map fun p =>
      (s.searchStack d which_list find_name p.toNat).getD (.DEFAULT which_list)

end TestPlan

/-! ## The tree of a plan -/

namespace Plan

/-- The suites and lists of a plan, each with those around it. -/
def nodes : {p : Place} → Nat → List Node → Plan p → List (Node × List Node)
  | _, _, _, nil => []
  | _, n, chain, case _ _ rest => rest.nodes (n + 1) chain
  | _, n, chain, suite Name inner rest =>
    (⟨n, .TS, Name⟩, chain) :: (inner.nodes (n + 1) (chain ++ [⟨n, .TS, Name⟩]) ++
      rest.nodes (n + inner.size + 2) chain)
  | _, n, chain, list _ Name inner rest =>
    (⟨n, .TL, Name⟩, chain) :: (inner.nodes (n + 1) (chain ++ [⟨n, .TL, Name⟩]) ++
      rest.nodes (n + inner.size + 2) chain)

/-- The nodes around a node of a plan. -/
def Around (q : Plan .argv) (x : Node) (chain : List Node) : Prop := (x, chain) ∈ q.nodes 0 []

/-- The states of the walk along a plan: between two items, while a case is running, and at the
end. -/
def Walked (q : Plan .argv) (s : TestPlan) : Prop :=
  ∃ before behind, q.items 0 = before ++ behind ∧
    (s = TestPlan.new.visits before ∨
      (∃ tc rest, behind = .TC tc :: rest ∧ s = (TestPlan.new.visits before).fetched tc) ∨
      (behind = [] ∧ s = { TestPlan.new.visits before with current_tc := none }))

end Plan

/-- The part of the stack below the innermost node with the name. -/
def below (stack : List Node) (Name : Text) : List Node :=
  (stack.reverse.dropWhile fun n => n.Name ≠ Name).tail.reverse

section purpose

variable (q : Plan .argv) (s : TestPlan) (d : Definitions) (which_list : WhichList)
  (find_name : Text) (obj : Node)

/-- The cases, suites and lists around the place of the walk, the outermost one first. -/
def TestPlan.around : List (Node ⊕ TestCase) :=
  s.stack.map Sum.inl ++ s.current_tc.toList.map Sum.inr

/-- The definition that counts in the given scopes. -/
def Definitions.nearest (scopes : List (Node ⊕ TestCase)) : Found :=
  (Lib.nearest (d.find which_list find_name) scopes).getD (.DEFAULT which_list)

/-- The searches find what they are to find. -/
structure Answers : Prop where
  nearest : s.get_nearest_scope d which_list find_name = d.nearest which_list find_name s.around
  /-- With a case as the current scope object the search ends. -/
  case_ends : ∀ tc, ∃ fuel found,
    s.get_higher_scope d which_list find_name (.inr tc) fuel = some found
  higher : ∃ chain, q.Around obj chain ∧ ∃ fuel,
    s.get_higher_scope d which_list find_name (.inl obj) fuel =
      some (d.nearest which_list find_name (chain.map Sum.inl))

/-- The running case has no definition for all names, unless the name has `ALL` in it; the name of
the current scope object is on the stack; and the name is not defined in a scope that is only
around that object, or only below the innermost node of that name on the stack. -/
structure Sees : Prop where
  case_ALL : ∀ tc ∈ s.current_tc, d (.inr tc) which_list ALL = true → ALL <:+: find_name
  on_stack : s.stack = [] ∨ obj.Name = [] ∨ ∃ n ∈ s.stack, n.Name = obj.Name
  around : ∀ chain, q.Around obj chain → ∀ n,
    (n ∈ chain ∧ n ∉ below s.stack obj.Name ∨ n ∈ below s.stack obj.Name ∧ n ∉ chain) →
      d (.inl n) which_list find_name = false ∧ d (.inl n) which_list ALL = false

end purpose

/-! ## The searches -/

section search

variable {s : TestPlan} {d : Definitions} {which_list : WhichList} {find_name : Text}

theorem find_eq_none_iff {c : Node ⊕ TestCase} : d.find which_list find_name c = none ↔
    d c which_list find_name = false ∧ d c which_list ALL = false := by
  rw [Definitions.find]
  cases d c which_list find_name <;> cases d c which_list ALL <;> simp

/-- A definition tells where it is. -/
theorem find_container {c : Node ⊕ TestCase} {found : Found}
    (h : d.find which_list find_name c = some found) : ∃ name, found = .defined c name := by
  rw [Definitions.find] at h
  split at h
  · exact ⟨_, (Option.some.inj h).symm⟩
  · split at h
    · exact ⟨_, (Option.some.inj h).symm⟩
    · cases h

theorem searchStack_eq {n : Nat} (h : n ≤ s.stack.length) :
    s.searchStack d which_list find_name n =
      nearest (d.find which_list find_name) ((s.stack.take n).map Sum.inl) := by
  induction n with
  | zero => rfl
  | succ n ih =>
    have hget : s.stack[n]? = some s.stack[n] := List.getElem?_eq_getElem h
    rw [TestPlan.searchStack, ih (Nat.le_of_succ_le h), hget, Option.bind_some,
      List.take_add_one, hget, Option.toList_some, List.map_append, List.map_singleton,
      nearest_concat]
    cases d.find which_list find_name (.inl s.stack[n]) <;> rfl

theorem get_nearest_scope_eq : s.get_nearest_scope d which_list find_name =
    d.nearest which_list find_name s.around := by
  rw [TestPlan.get_nearest_scope, searchStack_eq le_rfl, List.take_length, Definitions.nearest,
    TestPlan.around]
  cases s.current_tc with
  | none => simp
  | some tc =>
    simp only [Option.toList_some, List.map_singleton, nearest_concat, Option.bind_some]
    cases d.find which_list find_name (.inr tc) <;> rfl

end search

section position

variable {s : TestPlan} {Name : Text} {stack A B : List Node} {x : Node}

theorem below_split (hx : x.Name = Name) (hB : ∀ b ∈ B, b.Name ≠ Name) :
    below (A ++ x :: B) Name = A := by
  have hrev : ∀ b ∈ B.reverse, (decide (b.Name ≠ Name)) = true := by
    intro b hb
    simpa using hB b (List.mem_reverse.mp hb)
  rw [below, List.reverse_append, List.reverse_cons, List.append_assoc,
    List.dropWhile_append_of_pos hrev]
  simp [hx]

theorem below_of_not_mem (h : ∀ b ∈ stack, b.Name ≠ Name) : below stack Name = [] := by
  have hnil : stack.reverse.dropWhile (fun n => n.Name ≠ Name) = [] := by
    rw [List.dropWhile_eq_nil_iff]
    intro b hb
    simpa using h b (List.mem_reverse.mp hb)
  rw [below, hnil]
  rfl

/-- The last element of its name. -/
theorem exists_last_named (h : ∃ n ∈ stack, n.Name = Name) :
    ∃ A x B, stack = A ++ x :: B ∧ x.Name = Name ∧ ∀ b ∈ B, b.Name ≠ Name := by
  induction stack with
  | nil => simp at h
  | cons y ys ih =>
    by_cases hys : ∃ n ∈ ys, n.Name = Name
    · obtain ⟨A, x, B, rfl, hx, hB⟩ := ih hys
      exact ⟨y :: A, x, B, rfl, hx, hB⟩
    · have hy : y.Name = Name := by simpa [hys] using h
      exact ⟨[], y, ys, rfl, hy, fun b hb hname => hys ⟨b, hb, hname⟩⟩

theorem below_prefix (stack : List Node) (Name : Text) : below stack Name <+: stack := by
  by_cases h : ∃ n ∈ stack, n.Name = Name
  · obtain ⟨A, x, B, rfl, hx, hB⟩ := exists_last_named h
    rw [below_split hx hB]
    exact List.prefix_append A _
  · rw [below_of_not_mem fun b hb hname => h ⟨b, hb, hname⟩]
    exact List.nil_prefix

/-- The search from any index on. -/
def Descends (s : TestPlan) (Name : Text) : Int → Int → Prop :=
  Ends fun fuel => loop
    (fun stack_ptr => ((element s.stack stack_ptr).map Node.Name).getD [] ≠ Name)
    (fun stack_ptr => some (stack_ptr - 1)) fuel

theorem descends_of_eq {p t : Int} (h : ((element s.stack p).map Node.Name).getD [] = Name) :
    Descends s Name p t ↔ t = p := ends_loop_of_not (by simpa using h)

theorem descends_of_ne {p t : Int} (h : ((element s.stack p).map Node.Name).getD [] ≠ Name) :
    Descends s Name p t ↔ Descends s Name (p - 1) t := by
  have hround := @ends_loop _
    (fun stack_ptr : Int => decide (((element s.stack stack_ptr).map Node.Name).getD [] ≠ Name))
    (fun _ stack_ptr => some (stack_ptr - 1)) (Grows.const _) p t (by simpa using h)
  simp only [ends_const, Option.some.injEq, exists_eq_left'] at hround
  exact hround

theorem element_natCast {α : Type} (l : List α) (n : Nat) : element l n = l[n]? := by
  simp [element]

/-- On its way to the last node of the name the search passes the nodes behind. -/
theorem descends_last (hs : s.stack = A ++ x :: B) (hx : x.Name = Name)
    (hB : ∀ b ∈ B, b.Name ≠ Name) {k : Nat} (hk : k ≤ B.length) :
    Descends s Name (A.length + k : Nat) A.length := by
  induction k with
  | zero =>
    refine (descends_of_eq ?_).mpr rfl
    simp [element_natCast, hs, hx]
  | succ k ih =>
    have hget : s.stack[A.length + (k + 1)]? = some B[k] := by
      simp [hs, List.getElem?_append_right]
    refine (descends_of_ne ?_).mpr ?_
    · rw [element_natCast, hget]
      exact hB _ (List.getElem_mem _)
    · have hcast : ((A.length + (k + 1) : Nat) : Int) - 1 = (A.length + k : Nat) := by omega
      rw [hcast]
      exact ih (by omega)

theorem element_mem {α : Type} {l : List α} {p : Int} {y : α} (h : element l p = some y) :
    y ∈ l := by
  rw [element] at h
  split at h
  · exact List.mem_of_getElem? h
  · split at h
    · exact List.mem_of_getElem? h
    · cases h

/-- Without a node of the name the search goes on below the bottom of the stack for ever. -/
theorem not_descends (hne : Name ≠ []) (h : ∀ n ∈ s.stack, n.Name ≠ Name) (p t : Int) :
    ¬ Descends s Name p t := by
  refine not_ends_loop (I := fun _ => True) ?_ (fun _ _ _ _ _ => trivial) trivial t
  intro p _
  cases he : element s.stack p with
  | none => simpa [he] using hne.symm
  | some y => simpa [he] using h y (element_mem he)

theorem element_isSome {α : Type} {l : List α} {p : Int} (hlow : -l.length ≤ p)
    (hhigh : p < l.length) : (element l p).isSome := by
  rw [element]
  split
  · rw [List.getElem?_eq_getElem (by omega)]
    rfl
  · rw [List.getElem?_eq_getElem (by omega)]
    rfl

/-- What lies below the bottom has the empty name. -/
theorem descends_bottom (h : ∀ n ∈ s.stack, n.Name ≠ []) {k : Nat}
    (hk : k ≤ 2 * s.stack.length) :
    Descends s [] (k - s.stack.length - 1) (-s.stack.length - 1) := by
  induction k with
  | zero =>
    refine (descends_of_eq ?_).mpr (by omega)
    have hnone : element s.stack (-s.stack.length - 1) = none := by
      rw [element, if_neg (by omega), if_neg (by omega)]
    simp [hnone]
  | succ k ih =>
    have hsome := @element_isSome _ s.stack ((k + 1 : Nat) - s.stack.length - 1) (by omega)
      (by omega)
    obtain ⟨y, hy⟩ := Option.isSome_iff_exists.mp hsome
    refine (descends_of_ne ?_).mpr ?_
    · rw [hy]
      exact h y (element_mem hy)
    · have hcast : ((k + 1 : Nat) : Int) - s.stack.length - 1 - 1 =
          k - s.stack.length - 1 := by omega
      rw [hcast]
      exact ih (by omega)

/-- The search ends if the name is on the stack, or empty; what it leaves to look through is the
part of the stack below the name. -/
theorem findPosition_ends (h : Name = [] ∨ ∃ n ∈ s.stack, n.Name = Name) :
    ∃ fuel p, s.findPosition Name fuel = some p ∧ p.toNat ≤ s.stack.length ∧
      s.stack.take p.toNat = below s.stack Name := by
  by_cases hon : ∃ n ∈ s.stack, n.Name = Name
  · obtain ⟨A, x, B, hs, hx, hB⟩ := exists_last_named hon
    obtain ⟨fuel, hfuel⟩ := descends_last hs hx hB le_rfl
    have hstart : ((A.length + B.length : Nat) : Int) = s.stack.length - 1 := by
      simp [hs]
      omega
    rw [hstart] at hfuel
    refine ⟨fuel, A.length, hfuel, ?_, ?_⟩
    · simp [hs]
    · rw [hs, below_split hx hB]
      simp
  · have hall : ∀ n ∈ s.stack, n.Name ≠ Name := fun n hn hname => hon ⟨n, hn, hname⟩
    obtain rfl : Name = [] := h.resolve_right hon
    obtain ⟨fuel, hfuel⟩ := descends_bottom hall le_rfl
    have hstart : ((2 * s.stack.length : Nat) : Int) - s.stack.length - 1 =
      s.stack.length - 1 := by omega
    rw [hstart] at hfuel
    refine ⟨fuel, -s.stack.length - 1, hfuel, by omega, ?_⟩
    rw [below_of_not_mem hall, Int.toNat_of_nonpos (by omega)]
    rfl

theorem findPosition_none (hne : Name ≠ []) (h : ∀ n ∈ s.stack, n.Name ≠ Name) (fuel : Nat) :
    s.findPosition Name fuel = none := by
  rw [Option.eq_none_iff_forall_ne_some]
  intro p hp
  exact not_descends hne h _ p ⟨fuel, hp⟩

theorem findPosition_unique {fuel fuel' : Nat} {p t : Int}
    (h : s.findPosition Name fuel = some p) (h' : s.findPosition Name fuel' = some t) : p = t :=
  Ends.unique (Grows.loop (Grows.const _)) ⟨fuel, h⟩ ⟨fuel', h'⟩

end position

section higher

variable {s : TestPlan} {d : Definitions} {which_list : WhichList} {find_name : Text} {obj : Node}

/-- A definition of the running case for all names is found in place of all others. -/
theorem get_higher_scope_case {tc : TestCase} (htc : s.current_tc = some tc)
    (hALL : d (.inr tc) which_list ALL = true) (hname : ¬ ALL <:+: find_name)
    (c : Node ⊕ TestCase) (fuel : Nat) :
    s.get_higher_scope d which_list find_name c fuel = some (.defined (.inr tc) ALL) := by
  have hfilter : (s.current_tc.filter fun tc =>
      !decide (ALL <:+: find_name) && d (.inr tc) which_list ALL) = some tc := by
    simp [htc, Option.filter, hALL, hname]
  simp only [TestPlan.get_higher_scope, hfilter]

theorem get_higher_scope_stack
    (hcase : ∀ tc ∈ s.current_tc, d (.inr tc) which_list ALL = true → ALL <:+: find_name)
    (fuel : Nat) : s.get_higher_scope d which_list find_name (.inl obj) fuel =
      (if 0 < s.stack.length then s.findPosition obj.Name fuel else some 0).map fun p =>
        (s.searchStack d which_list find_name p.toNat).getD (.DEFAULT which_list) := by
  have hfilter : (s.current_tc.filter fun tc =>
      !decide (ALL <:+: find_name) && d (.inr tc) which_list ALL) = none := by
    cases htc : s.current_tc with
    | none => rfl
    | some tc =>
      cases hALL : d (.inr tc) which_list ALL with
      | false => simp [hALL]
      | true => simp [hcase tc htc hALL]
  simp only [TestPlan.get_higher_scope, hfilter]

theorem get_higher_scope_ends (tc : TestCase) : ∃ fuel found,
    s.get_higher_scope d which_list find_name (.inr tc) fuel = some found := by
  refine ⟨0, ?_⟩
  rw [TestPlan.get_higher_scope]
  split <;> exact ⟨_, rfl⟩

/-- Otherwise the search looks through the stack below the name of the object. -/
theorem get_higher_scope_iff
    (hcase : ∀ tc ∈ s.current_tc, d (.inr tc) which_list ALL = true → ALL <:+: find_name)
    (found : Found) :
    (∃ fuel, s.get_higher_scope d which_list find_name (.inl obj) fuel = some found) ↔
      (s.stack = [] ∨ obj.Name = [] ∨ ∃ n ∈ s.stack, n.Name = obj.Name) ∧
        d.nearest which_list find_name ((below s.stack obj.Name).map Sum.inl) = found := by
  simp only [get_higher_scope_stack hcase]
  by_cases hnil : s.stack = []
  · simp [hnil, below, Definitions.nearest, TestPlan.searchStack, nearest]
  simp only [if_pos (List.length_pos_iff.mpr hnil), or_iff_right hnil]
  by_cases hon : obj.Name = [] ∨ ∃ n ∈ s.stack, n.Name = obj.Name
  · obtain ⟨fuel, p, hp, hle, htake⟩ := findPosition_ends hon
    have hfound : (s.searchStack d which_list find_name p.toNat).getD (.DEFAULT which_list) =
        d.nearest which_list find_name ((below s.stack obj.Name).map Sum.inl) := by
      rw [searchStack_eq hle, htake, Definitions.nearest]
    rw [and_iff_right hon, ← hfound]
    constructor
    · rintro ⟨fuel', h⟩
      obtain ⟨t, ht, h⟩ := Option.map_eq_some_iff.mp h
      rw [findPosition_unique hp ht]
      exact h
    · intro h
      exact ⟨fuel, Option.map_eq_some_iff.mpr ⟨p, hp, h⟩⟩
  · have hnone := findPosition_none (fun h => hon (.inl h)) fun n hn h => hon (.inr ⟨n, hn, h⟩)
    simp [hnone, hon]

end higher

/-! ## The walk -/

section walk

variable {s : TestPlan} {N : Node → List Node → Prop}

/-- The nodes that begin in a walk, with the stack on which each is put. -/
def TestPlan.begins (s : TestPlan) : List CaseItem → List (Node × List Node)
  | [] => []
  | .S x :: l => (x, s.stack) :: (s.enter x).begins l
  | .E x :: l => (s.leave x).begins l
  | .TC tc :: l => ((s.fetched tc).report_TC tc).begins l

theorem begins_append (s : TestPlan) (l l' : List CaseItem) :
    s.begins (l ++ l') = s.begins l ++ (s.visits l).begins l' := by
  induction l generalizing s with
  | nil => rfl
  | cons i l ih => cases i <;> simp [TestPlan.begins, TestPlan.visits_cons, TestPlan.visit, ih]

/-- The nodes of a plan begin on the stack of those around them. -/
theorem begins_items {p : Place} (q : Plan p) (n : Nat) (s : TestPlan) :
    s.begins (q.items n) = q.nodes n s.stack := by
  induction q generalizing n s with
  | nil => rfl
  | case _ tc rest ih => simp [Plan.items, Plan.nodes, TestPlan.begins, ih]
  | suite Name inner rest ihi ih =>
    simp [Plan.items, Plan.nodes, TestPlan.begins, begins_append, ihi, ih, TestPlan.walk_stack]
  | list _ Name inner rest ihi ih =>
    simp [Plan.items, Plan.nodes, TestPlan.begins, begins_append, ihi, ih, TestPlan.walk_stack]

/-- The stack is a branch of the tree, and the pointers are at nodes of it. -/
structure Climbs (N : Node → List Node → Prop) (s : TestPlan) : Prop where
  stack : Branch N s.stack
  current : ∀ k x, s.current k = some x → ∃ chain, N x chain ∧ Branch N chain

theorem Climbs.visits {l : List CaseItem} (h : Climbs N s)
    (hN : ∀ p ∈ s.begins l, N p.1 p.2) : Climbs N (s.visits l) := by
  induction l generalizing s with
  | nil => exact h
  | cons i l ih =>
    rw [TestPlan.visits_cons]
    cases i with
    | S x =>
      have hx : N x s.stack := hN (x, s.stack) List.mem_cons_self
      refine ih ⟨?_, ?_⟩ fun p hp => hN p (List.mem_cons_of_mem _ hp)
      · rw [TestPlan.visit, TestPlan.enter_stack]
        exact h.stack.concat hx
      · intro k y hy
        rw [TestPlan.visit, TestPlan.enter_current] at hy
        split at hy
        · rw [← Option.some.inj hy]
          exact ⟨s.stack, hx, h.stack⟩
        · exact h.current k y hy
    | E x =>
      refine ih ⟨?_, ?_⟩ hN
      · rw [TestPlan.visit, TestPlan.leave_stack]
        exact h.stack.dropLast
      · intro k y hy
        rw [TestPlan.visit, TestPlan.leave_current] at hy
        exact h.current k y hy
    | TC tc =>
      refine ih ⟨?_, ?_⟩ hN
      · rw [TestPlan.visit, TestPlan.report_TC_stack]
        exact h.stack
      · intro k y hy
        rw [TestPlan.visit, TestPlan.report_TC_current, TestPlan.fetched_current] at hy
        exact h.current k y hy

theorem Climbs.of_eq {t : TestPlan} (h : Climbs N s) (hstack : t.stack = s.stack)
    (hts : t.current_ts = s.current_ts) (htl : t.current_tl = s.current_tl) : Climbs N t := by
  refine ⟨hstack ▸ h.stack, ?_⟩
  intro k x hx
  cases k with
  | TS => exact h.current .TS x (hts.symm.trans hx)
  | TL => exact h.current .TL x (htl.symm.trans hx)

theorem Plan.Walked.climbs {q : Plan .argv} (h : q.Walked s) : Climbs q.Around s := by
  obtain ⟨before, behind, hsplit, hs⟩ := h
  have hnew : Climbs q.Around TestPlan.new := by
    refine ⟨Branch.nil, ?_⟩
    intro k x hx
    cases k <;> cases hx
  have hvisits : Climbs q.Around (TestPlan.new.visits before) := by
    apply hnew.visits
    intro p hp
    have hall : p ∈ TestPlan.new.begins (q.items 0) := by
      rw [hsplit, begins_append]
      exact List.mem_append_left _ hp
    rw [begins_items] at hall
    exact hall
  obtain rfl | ⟨tc, rest, _, rfl⟩ | ⟨_, rfl⟩ := hs
  · exact hvisits
  · exact hvisits.of_eq rfl rfl rfl
  · exact hvisits.of_eq rfl rfl rfl

theorem mem_nodes {p : Place} (q : Plan p) {n : Nat} {chain : List Node} {x : Node × List Node}
    (h : x ∈ q.nodes n chain) : n ≤ x.1.id ∧ x.1.id < n + q.size := by
  induction q generalizing n chain with
  | nil => simp [Plan.nodes] at h
  | case _ tc rest ih =>
    have hrest := ih h
    simp only [Plan.size]
    omega
  | suite Name inner rest ihi ih | list _ Name inner rest ihi ih =>
    rw [Plan.nodes, List.mem_cons, List.mem_append] at h
    rw [Plan.size]
    rcases h with rfl | h | h
    · dsimp only
      omega
    · have hinner := ihi h
      omega
    · have hrest := ih h
      omega

theorem nodes_pairwise {p : Place} (q : Plan p) (n : Nat) (chain : List Node) :
    (q.nodes n chain).Pairwise fun x y => x.1.id < y.1.id := by
  induction q generalizing n chain with
  | nil => exact List.Pairwise.nil
  | case _ tc rest ih => exact ih _ _
  | suite Name inner rest ihi ih | list _ Name inner rest ihi ih =>
    rw [Plan.nodes, List.pairwise_cons, List.pairwise_append]
    refine ⟨?_, ihi _ _, ih _ _, ?_⟩
    · intro y hy
      rcases List.mem_append.mp hy with hy | hy
      · exact (mem_nodes inner hy).1
      · exact lt_of_lt_of_le (show n < n + inner.size + 2 by omega) (mem_nodes rest hy).1
    · intro x hx y hy
      have hlow := (mem_nodes inner hx).2
      have hhigh := (mem_nodes rest hy).1
      omega

theorem onePlace (q : Plan .argv) : OnePlace q.Around := by
  intro x A B hA hB
  have hnodup : ((q.nodes 0 []).map fun y => y.1.id).Nodup :=
    List.pairwise_map.mpr ((nodes_pairwise q 0 []).imp ne_of_lt)
  have heq := List.inj_on_of_nodup_map hnodup hA hB rfl
  exact congrArg Prod.snd heq

end walk

section answers

variable {q : Plan .argv} {s : TestPlan} {d : Definitions} {which_list : WhichList}
  {find_name : Text} {obj : Node} {scope : TestPlan.Scope}

/-- The current scope object is a node of the plan. -/
theorem exists_around (h : q.Walked s) (hobj : s.container scope = some (.inl obj)) :
    ∃ chain, q.Around obj chain ∧ Branch q.Around chain := by
  have hcurrent : s.current .TL = some obj ∨ s.current .TS = some obj := by
    cases scope <;> cases htl : s.current_tl <;> cases hts : s.current_ts <;>
      cases htc : s.current_tc <;> simp_all [TestPlan.container, TestPlan.current]
  rcases hcurrent with hc | hc
  · exact h.climbs.current .TL obj hc
  · exact h.climbs.current .TS obj hc

/-- What is found in suites and lists is defined in one of them. -/
theorem nearest_inl {l : List Node} {found : Found}
    (h : nearest (fun n => d.find which_list find_name (.inl n)) l = some found) :
    ∃ n name, found = .defined (.inl n) name := by
  obtain ⟨A, n, B, _, hn, _⟩ := nearest_eq_some_iff.mp h
  obtain ⟨name, hname⟩ := find_container hn
  exact ⟨n, name, hname⟩

theorem definitions_nearest (l : List Node) :
    d.nearest which_list find_name (l.map Sum.inl) =
      (nearest (fun n => d.find which_list find_name (.inl n)) l).getD (.DEFAULT which_list) := by
  rw [Definitions.nearest, nearest_map]

theorem nearest_ne_case (l : List Node) (tc : TestCase) (name : Text) :
    d.nearest which_list find_name (l.map Sum.inl) ≠ .defined (.inr tc) name := by
  rw [definitions_nearest]
  cases h : nearest (fun n => d.find which_list find_name (.inl n)) l with
  | none => simp
  | some found =>
    obtain ⟨n, name, rfl⟩ := nearest_inl h
    simp

theorem definitions_nearest_inj {X Y : List Node} :
    d.nearest which_list find_name (X.map Sum.inl) =
        d.nearest which_list find_name (Y.map Sum.inl) ↔
      nearest (fun n => d.find which_list find_name (.inl n)) X =
        nearest (fun n => d.find which_list find_name (.inl n)) Y := by
  rw [definitions_nearest, definitions_nearest]
  cases hX : nearest (fun n => d.find which_list find_name (.inl n)) X with
  | none =>
    cases hY : nearest (fun n => d.find which_list find_name (.inl n)) Y with
    | none => simp
    | some found =>
      obtain ⟨n, name, rfl⟩ := nearest_inl hY
      simp
  | some found =>
    cases hY : nearest (fun n => d.find which_list find_name (.inl n)) Y with
    | none =>
      obtain ⟨n, name, rfl⟩ := nearest_inl hX
      simp
    | some found' => simp

/-- What is defined in different scopes is different. -/
theorem find_inj (x y : Node) (r : Found) (hx : d.find which_list find_name (.inl x) = some r)
    (hy : d.find which_list find_name (.inl y) = some r) : x = y := by
  obtain ⟨name, rfl⟩ := find_container hx
  obtain ⟨name', h⟩ := find_container hy
  exact Sum.inl.inj (Found.defined.inj h).1

/-- Where the search looks is as good as the nodes around the object. -/
theorem nearest_below_iff (h : q.Walked s) {chain : List Node} (hchain : Branch q.Around chain) :
    d.nearest which_list find_name ((below s.stack obj.Name).map Sum.inl) =
        d.nearest which_list find_name (chain.map Sum.inl) ↔
      ∀ n, (n ∈ chain ∧ n ∉ below s.stack obj.Name ∨ n ∈ below s.stack obj.Name ∧ n ∉ chain) →
        d (.inl n) which_list find_name = false ∧ d (.inl n) which_list ALL = false := by
  obtain ⟨rest, hrest⟩ := below_prefix s.stack obj.Name
  have hbelow : Branch q.Around (below s.stack obj.Name) := by
    have hstack := h.climbs.stack
    rw [← hrest] at hstack
    exact hstack.of_append
  rw [definitions_nearest_inj, Branch.nearest_eq_iff (onePlace q) find_inj hbelow hchain]
  simp only [find_eq_none_iff]
  constructor
  · rintro ⟨hX, hY⟩ n (⟨hn, hn'⟩ | ⟨hn, hn'⟩)
    · exact hY n hn hn'
    · exact hX n hn hn'
  · intro hall
    exact ⟨fun n hn hn' => hall n (.inr ⟨hn, hn'⟩), fun n hn hn' => hall n (.inl ⟨hn, hn'⟩)⟩

/-- In which states the searches find what they are to find. -/
theorem answers_iff (h : q.Walked s) (hobj : s.container scope = some (.inl obj)) :
    Answers q s d which_list find_name obj ↔ Sees q s d which_list find_name obj := by
  obtain ⟨chain, hchain, hbranch⟩ := exists_around h hobj
  constructor
  · rintro ⟨-, -, chain', hchain', fuel, hfound⟩
    obtain rfl := onePlace q obj chain' chain hchain' hchain
    have hcase : ∀ tc ∈ s.current_tc, d (.inr tc) which_list ALL = true → ALL <:+: find_name := by
      intro tc htc hALL
      by_contra hname
      rw [get_higher_scope_case htc hALL hname, Option.some.injEq] at hfound
      exact nearest_ne_case chain' tc ALL hfound.symm
    obtain ⟨hon, hvalue⟩ := (get_higher_scope_iff hcase _).mp ⟨fuel, hfound⟩
    refine ⟨hcase, hon, ?_⟩
    intro chain hchain
    obtain rfl := onePlace q obj chain' chain hchain' hchain
    exact (nearest_below_iff h hbranch).mp hvalue
  · rintro ⟨hcase, hon, haround⟩
    refine ⟨get_nearest_scope_eq, get_higher_scope_ends, chain, hchain, ?_⟩
    rw [get_higher_scope_iff hcase]
    exact ⟨hon, (nearest_below_iff h hbranch).mpr (haround chain hchain)⟩

/-- A suite with one case. -/
def oneCase : Plan .argv :=
  .suite "a.ts".toList (.case Place.ts_ne_tl ⟨"a.sql".toList, 1, 1, false⟩ .nil) .nil

/-- In the suite, outside of which nothing is defined, the searches find the defaults. -/
theorem answers_oneCase :
    Answers oneCase ((TestPlan.new.visits ((oneCase.items 0).take 1)).fetched
      ⟨"a.sql".toList, 1, 1, false⟩) (fun _ _ _ => false) .server_list "S".toList
      ⟨0, .TS, "a.ts".toList⟩ := by
  refine (@answers_iff _ _ _ _ _ _ .TS ?_ rfl).mpr ⟨?_, .inr (.inr ?_), ?_⟩
  · exact ⟨(oneCase.items 0).take 1, (oneCase.items 0).drop 1, rfl, .inr (.inl ⟨_, _, rfl, rfl⟩)⟩
  · intro tc _ h
    cases h
  · exact ⟨⟨0, .TS, "a.ts".toList⟩, List.mem_singleton.mpr rfl, rfl⟩
  · intro chain _ n _
    exact ⟨rfl, rfl⟩

/-- Behind a suite that has ended, a search outside of the current suite does not end. -/
theorem not_answers_behindSuite :
    ¬ ∀ q s d which_list find_name scope obj, Plan.Walked q s →
      s.container scope = some (.inl obj) → Answers q s d which_list find_name obj := by
  intro hall
  have h := hall Plan.behindSuite ((TestPlan.new.visits ((Plan.behindSuite.items 0).take 3)).fetched
    ⟨"a.sql".toList, 1, 1, false⟩) (fun _ _ _ => false) .server_list "S".toList .TS
    ⟨1, .TS, "inner.ts".toList⟩
    ⟨(Plan.behindSuite.items 0).take 3, (Plan.behindSuite.items 0).drop 3, rfl,
      .inr (.inl ⟨_, _, rfl, rfl⟩)⟩ rfl
  obtain ⟨chain, _, fuel, hfuel⟩ := h.higher
  have hcase : ∀ tc ∈ ((TestPlan.new.visits ((Plan.behindSuite.items 0).take 3)).fetched
      ⟨"a.sql".toList, 1, 1, false⟩).current_tc, (fun _ _ _ => false : Definitions) (.inr tc)
        .server_list ALL = true → ALL <:+: "S".toList := by
    intro tc _ h
    cases h
  have hon := ((get_higher_scope_iff hcase _).mp ⟨fuel, hfuel⟩).1
  revert hon
  decide

end answers

end Natc.Harness
