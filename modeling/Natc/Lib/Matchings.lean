import Mathlib.Data.List.NodupEquivFin
import Mathlib.Data.List.Sort
import Mathlib.Data.Nat.Basic

/-!
# Common subsequences and edits

A matching pairs positions of two lists that hold the same element, in the order of both lists. A
common subsequence is the list of elements of a matching. Edits turn one list into the other; they
keep a common subsequence and change all other elements.
-/

namespace Natc.Lib

variable {κ : Type*} {x y c : List κ} {ps qs : List (Nat × Nat)} {n m : Nat}

/-! ## Increasing positions -/

/-- The entries of an increasing list are at least as high as their positions. -/
theorem le_of_mem_drop {l : List Nat} (h : l.Pairwise (· < ·)) (hm : ∀ i ∈ l, m ≤ i) :
    ∀ i ∈ l.drop n, m + n ≤ i := by
  induction n generalizing l m with
  | zero => simpa using hm
  | succ n ih =>
    cases l with
    | nil => simp
    | cons a l =>
      rw [List.pairwise_cons] at h
      have hstep : ∀ i ∈ l, m + 1 ≤ i :=
        fun i hi => (hm a List.mem_cons_self).trans_lt (h.1 i hi)
      intro i hi
      have := ih h.2 hstep i (by simpa using hi)
      omega

/-- The same from the end, for a list that decreases. -/
theorem lt_of_mem_drop {l : List Nat} (h : l.Pairwise (· > ·)) (hm : ∀ i ∈ l, i < m) :
    ∀ i ∈ l.drop n, i + n < m := by
  induction n generalizing l m with
  | zero => simpa using hm
  | succ n ih =>
    cases l with
    | nil => simp
    | cons a l =>
      rw [List.pairwise_cons] at h
      have hstep : ∀ i ∈ l, i < m - 1 := by
        intro i hi
        have ha := hm a List.mem_cons_self
        have := h.1 i hi
        omega
      intro i hi
      have := ih h.2 hstep i (by simpa using hi)
      omega

theorem lt_of_mem_take {l : List Nat} (h : l.Pairwise (· < ·)) (hm : ∀ i ∈ l, i < m) :
    ∀ i ∈ l.take (l.length - n), i + n < m := by
  intro i hi
  have hdrop : i ∈ l.reverse.drop n := by
    rw [List.drop_reverse]
    exact List.mem_reverse.mpr hi
  exact lt_of_mem_drop (List.pairwise_reverse.mpr h) (fun i hi => hm i (List.mem_reverse.mp hi))
    i hdrop

/-- The entries at increasing positions are a subsequence. -/
theorem filterMap_sublist_drop {is : List Nat} (h : is.Pairwise (· < ·)) (hn : ∀ i ∈ is, n ≤ i) :
    (is.filterMap (x[·]?)).Sublist (x.drop n) := by
  induction is generalizing n with
  | nil => exact List.nil_sublist _
  | cons i is ih =>
    rw [List.pairwise_cons] at h
    have hrest := ih h.2 (n := i + 1) h.1
    have hle : (x.drop i).Sublist (x.drop n) := List.drop_sublist_drop_left x (hn i List.mem_cons_self)
    refine List.Sublist.trans ?_ hle
    cases hx : x[i]? with
    | none =>
      rw [List.filterMap_cons_none hx]
      exact hrest.trans (List.drop_sublist_drop_left x (Nat.le_succ i))
    | some a =>
      obtain ⟨hlt, rfl⟩ := List.getElem?_eq_some_iff.mp hx
      rw [List.filterMap_cons_some hx, List.drop_eq_getElem_cons hlt]
      exact hrest.cons_cons _

theorem filterMap_sublist {is : List Nat} (h : is.Pairwise (· < ·)) :
    (is.filterMap (x[·]?)).Sublist x :=
  filterMap_sublist_drop (n := 0) h fun i _ => Nat.zero_le i

/-! ## Matchings -/

/-- Pairs of positions that increase in both lists. -/
def Rising (ps : List (Nat × Nat)) : Prop := ps.Pairwise fun p q => p.1 < q.1 ∧ p.2 < q.2

/-- Pairs of positions with the same element, in the order of both lists. -/
structure Matching (x y : List κ) (ps : List (Nat × Nat)) : Prop where
  rising : Rising ps
  same : ∀ p ∈ ps, ∃ a, x[p.1]? = some a ∧ y[p.2]? = some a

theorem Rising.fst (h : Rising ps) : (ps.map Prod.fst).Pairwise (· < ·) :=
  List.pairwise_map.mpr (h.imp And.left)

theorem Rising.snd (h : Rising ps) : (ps.map Prod.snd).Pairwise (· < ·) :=
  List.pairwise_map.mpr (h.imp And.right)

theorem Rising.snd_lt (h : Rising ps) {p q : Nat × Nat} (hp : p ∈ ps) (hq : q ∈ ps)
    (hlt : p.1 < q.1) : p.2 < q.2 := by
  induction ps with
  | nil => exact absurd hp List.not_mem_nil
  | cons r ps ih =>
    obtain ⟨hr, h⟩ := List.pairwise_cons.mp h
    rcases List.mem_cons.mp hp with rfl | hp' <;> rcases List.mem_cons.mp hq with rfl | hq'
    · exact absurd hlt (Nat.lt_irrefl _)
    · exact (hr q hq').2
    · exact absurd hlt (hr p hp').1.asymm
    · exact ih h hp' hq'

theorem Matching.sublist (h : Matching x y ps) (hqs : qs.Sublist ps) : Matching x y qs :=
  ⟨h.rising.sublist hqs, fun p hp => h.same p (hqs.subset hp)⟩

theorem Matching.lt_length (h : Matching x y ps) : ∀ p ∈ ps, p.1 < x.length ∧ p.2 < y.length := by
  intro p hp
  obtain ⟨a, hx, hy⟩ := h.same p hp
  exact ⟨(List.getElem?_eq_some_iff.mp hx).1, (List.getElem?_eq_some_iff.mp hy).1⟩

theorem Matching.swap (h : Matching x y ps) : Matching y x (ps.map Prod.swap) where
  rising := List.pairwise_map.mpr (h.rising.imp And.symm)
  same p hp := by
    obtain ⟨q, hq, rfl⟩ := List.mem_map.mp hp
    obtain ⟨a, hx, hy⟩ := h.same q hq
    exact ⟨a, hy, hx⟩

/-- The elements that are matched. -/
def matched (x : List κ) (ps : List (Nat × Nat)) : List κ := ps.filterMap (x[·.1]?)

theorem Matching.length_matched (h : Matching x y ps) : (matched x ps).length = ps.length := by
  have hall : ∀ p ∈ ps, (x[p.1]?).isSome = true := by
    intro p hp
    obtain ⟨a, hx, -⟩ := h.same p hp
    rw [hx, Option.isSome_some]
  rw [matched, List.length_filterMap_eq_countP, List.countP_eq_length]
  exact hall

theorem Matching.matched_sublist (h : Matching x y ps) : (matched x ps).Sublist x := by
  have heq : matched x ps = (ps.map Prod.fst).filterMap (x[·]?) := by
    rw [matched, List.filterMap_map]
    rfl
  rw [heq]
  exact filterMap_sublist h.rising.fst

theorem Matching.matched_swap (h : Matching x y ps) :
    matched y (ps.map Prod.swap) = matched x ps := by
  rw [matched, matched, List.filterMap_map]
  refine List.filterMap_congr fun p hp => ?_
  obtain ⟨a, hx, hy⟩ := h.same p hp
  exact hy.trans hx.symm

/-- The matched elements are a common subsequence. -/
theorem Matching.matched_sublist_right (h : Matching x y ps) : (matched x ps).Sublist y :=
  h.matched_swap ▸ h.swap.matched_sublist

/-- Every common subsequence is that of a matching. -/
theorem exists_matching (hx : c.Sublist x) (hy : c.Sublist y) :
    ∃ ps, Matching x y ps ∧ ps.length = c.length := by
  obtain ⟨f, hf⟩ := List.sublist_iff_exists_orderEmbedding_getElem?_eq.mp hx
  obtain ⟨g, hg⟩ := List.sublist_iff_exists_orderEmbedding_getElem?_eq.mp hy
  refine ⟨(List.range c.length).map fun k => (f k, g k), ⟨?_, fun p hp => ?_⟩, by simp⟩
  · exact List.pairwise_map.mpr (List.pairwise_lt_range.imp fun hlt =>
      ⟨f.lt_iff_lt.mpr hlt, g.lt_iff_lt.mpr hlt⟩)
  · obtain ⟨k, hk, rfl⟩ := List.mem_map.mp hp
    have hget := List.getElem?_eq_getElem (List.mem_range.mp hk)
    exact ⟨c.get ⟨k, List.mem_range.mp hk⟩, (hf k).symm.trans hget, (hg k).symm.trans hget⟩

theorem mem_window {pos : Nat × Nat → Nat} {len : Nat} (h : (ps.map pos).Pairwise (· < ·))
    (hlt : ∀ p ∈ ps, pos p < len) {q : Nat × Nat} (hq : q ∈ (ps.take (ps.length - m)).drop n) :
    n ≤ pos q ∧ pos q + m < len := by
  have htake : (ps.map pos).take (ps.length - m) = (ps.take (ps.length - m)).map pos :=
    List.map_take.symm
  constructor
  · have hmem : pos q ∈ ((ps.take (ps.length - m)).map pos).drop n := by
      rw [← List.map_drop]
      exact List.mem_map_of_mem hq
    have hrising := htake ▸ h.sublist (List.take_sublist (ps.length - m) _)
    simpa using le_of_mem_drop (m := 0) hrising (fun i _ => Nat.zero_le i) _ hmem
  · have hmem : pos q ∈ (ps.map pos).take ((ps.map pos).length - m) := by
      rw [List.length_map, htake]
      exact List.mem_map_of_mem (List.mem_of_mem_drop hq)
    exact lt_of_mem_take h (List.forall_mem_map.mpr hlt) _ hmem

/-- The first `n` and the last `m` pairs left out, a matching lies between the positions that are
`n` from the start and `m` from the end. -/
theorem Matching.window (h : Matching x y ps) (n m : Nat) :
    ∃ qs, Matching x y qs ∧ ps.length ≤ n + qs.length + m ∧
      ∀ q ∈ qs, (n ≤ q.1 ∧ n ≤ q.2) ∧ q.1 + m < x.length ∧ q.2 + m < y.length := by
  refine ⟨(ps.take (ps.length - m)).drop n, h.sublist ((List.drop_sublist _ _).trans
    (List.take_sublist _ _)), ?_, fun q hq => ?_⟩
  · rw [List.length_drop, List.length_take]
    omega
  · have hfst := mem_window h.rising.fst (fun p hp => (h.lt_length p hp).1) hq
    have hsnd := mem_window h.rising.snd (fun p hp => (h.lt_length p hp).2) hq
    exact ⟨⟨hfst.1, hsnd.1⟩, hfst.2, hsnd.2⟩

/-- One matching behind the other. -/
theorem Matching.append (hps : Matching x y ps) (hqs : Matching x y qs)
    (h : ∀ p ∈ ps, ∀ q ∈ qs, p.1 < q.1 ∧ p.2 < q.2) : Matching x y (ps ++ qs) :=
  ⟨List.pairwise_append.mpr ⟨hps.rising, hqs.rising, h⟩,
    fun p hp => (List.mem_append.mp hp).elim (hps.same p) (hqs.same p)⟩

/-! ## Edits -/

/-- What becomes of an element: it is removed, inserted or kept. -/
inductive Edit where
  | remove | insert | keep
  deriving DecidableEq, Repr

/-- Edits that turn one list into the other. -/
inductive Transforms : List κ → List κ → List Edit → Prop
  | nil : Transforms [] [] []
  | remove {a : κ} {x y : List κ} {es : List Edit} :
      Transforms x y es → Transforms (a :: x) y (.remove :: es)
  | insert {a : κ} {x y : List κ} {es : List Edit} :
      Transforms x y es → Transforms x (a :: y) (.insert :: es)
  | keep {a : κ} {x y : List κ} {es : List Edit} :
      Transforms x y es → Transforms (a :: x) (a :: y) (.keep :: es)

/-- The number of elements that are not kept. -/
def changes (es : List Edit) : Nat := es.countP (· ≠ .keep)

/-- What is kept is a common subsequence, and all else is changed. -/
theorem Transforms.exists_common {es : List Edit} (h : Transforms x y es) :
    ∃ c : List κ, c.Sublist x ∧ c.Sublist y ∧ c.length = es.count .keep ∧
      changes es + 2 * c.length = x.length + y.length := by
  induction h with
  | nil => exact ⟨[], .slnil, .slnil, rfl, rfl⟩
  | remove h ih =>
    obtain ⟨c, hx, hy, hkept, hcount⟩ := ih
    refine ⟨c, hx.cons _, hy, by simpa using hkept, ?_⟩
    rw [changes] at hcount ⊢
    rw [List.countP_cons_of_pos (by decide), List.length_cons]
    omega
  | insert h ih =>
    obtain ⟨c, hx, hy, hkept, hcount⟩ := ih
    refine ⟨c, hx, hy.cons _, by simpa using hkept, ?_⟩
    rw [changes] at hcount ⊢
    rw [List.countP_cons_of_pos (by decide), List.length_cons]
    omega
  | keep h ih =>
    obtain ⟨c, hx, hy, hkept, hcount⟩ := ih
    refine ⟨_ :: c, hx.cons_cons _, hy.cons_cons _, by simpa using hkept, ?_⟩
    rw [changes] at hcount ⊢
    rw [List.countP_cons_of_neg (by decide), List.length_cons, List.length_cons, List.length_cons]
    omega

/-- Nothing is changed between equal lists only. -/
theorem Transforms.eq_of_changes {es : List Edit} (h : Transforms x y es) (hzero : changes es = 0) :
    x = y := by
  induction h with
  | nil => rfl
  | remove h ih =>
    rw [changes, List.countP_cons_of_pos (by decide)] at hzero
    omega
  | insert h ih =>
    rw [changes, List.countP_cons_of_pos (by decide)] at hzero
    omega
  | keep h ih =>
    rw [changes, List.countP_cons_of_neg (by decide)] at hzero
    rw [ih hzero]

/-- All is kept. -/
theorem transforms_self (x : List κ) : Transforms x x (List.replicate x.length .keep) := by
  induction x with
  | nil => exact .nil
  | cons a x ih => exact .keep ih

theorem changes_replicate_keep (n : Nat) : changes (List.replicate n .keep) = 0 :=
  List.countP_eq_zero.mpr fun e he => by rw [List.eq_of_mem_replicate he]; decide

end Natc.Lib
