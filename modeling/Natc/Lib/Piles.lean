import Mathlib

/-!
# Longest increasing subsequences by piles

The elements of a list are put on piles, one after the other. The pile with number `k` is an
increasing subsequence of `k + 1` elements, and no other one of this length has a lower end. So the
number of piles is the length of a longest increasing subsequence, and the last pile is one.

A subsequence stands with its last element first, as it is built.
-/

namespace Natc.Lib

variable {β κ : Type*} [LinearOrder κ] {f : β → κ} {l c p q : List β} {piles piles' : List (List β)}
  {x y : β} {k : Nat}

/-- A subsequence that increases. -/
structure Climb (f : β → κ) (l c : List β) : Prop where
  sublist : c.Sublist l
  increasing : c.Pairwise fun x y => f y < f x

/-- Each pile is an increasing subsequence of its length with the least end. -/
structure Piles (f : β → κ) (l : List β) (piles : List (List β)) : Prop where
  climb : ∀ k p, piles[k]? = some p → Climb f l p ∧ p.length = k + 1
  least : ∀ x c, Climb f l (x :: c) → ∃ y p, piles[c.length]? = some (y :: p) ∧ f y ≤ f x

theorem Climb.tail (h : Climb f l (x :: c)) : Climb f l c :=
  ⟨(List.sublist_cons_self x c).trans h.sublist, (List.pairwise_cons.mp h.increasing).2⟩

theorem Climb.head_lt (h : Climb f l (x :: y :: c)) : f y < f x :=
  (List.pairwise_cons.mp h.increasing).1 y List.mem_cons_self

theorem Climb.cons (h : Climb f l c) : Climb f (x :: l) c :=
  ⟨h.sublist.cons x, h.increasing⟩

/-- A new element goes behind a subsequence that ends lower. -/
theorem Climb.push (h : Climb f l c) (hlt : ∀ y ∈ c.head?, f y < f x) : Climb f (x :: l) (x :: c) := by
  refine ⟨h.sublist.cons_cons x, List.pairwise_cons.mpr ⟨fun z hz => ?_, h.increasing⟩⟩
  cases c with
  | nil => exact absurd hz List.not_mem_nil
  | cons y c =>
    have hy : f y < f x := hlt y rfl
    rcases List.mem_cons.mp hz with rfl | hz
    · exact hy
    · exact ((List.pairwise_cons.mp h.increasing).1 z hz).trans hy

/-- A subsequence of the longer list has the new element at its end, or is one of the old list. -/
theorem Climb.of_cons (h : Climb f (x :: l) (y :: c)) :
    Climb f l (y :: c) ∨ y = x ∧ Climb f l c ∧ ∀ z ∈ c.head?, f z < f x := by
  rcases List.sublist_cons_iff.mp h.sublist with hold | ⟨r, hr, hsub⟩
  · exact .inl ⟨hold, h.increasing⟩
  · obtain ⟨rfl, rfl⟩ := List.cons.inj hr
    refine .inr ⟨rfl, ⟨hsub, (List.pairwise_cons.mp h.increasing).2⟩, fun z hz => ?_⟩
    exact (List.pairwise_cons.mp h.increasing).1 z (List.mem_of_mem_head? hz)

theorem Piles.nil : Piles f [] [] where
  climb k p h := by simp at h
  least x c h := absurd h.sublist.length_le (by simp)

theorem Piles.exists_top (h : Piles f l piles) (hp : piles[k]? = some p) : ∃ y q, p = y :: q :=
  List.exists_cons_of_length_eq_add_one (h.climb k p hp).2

/-- The tops increase from pile to pile. -/
theorem Piles.top_lt_succ (h : Piles f l piles) (hx : piles[k]? = some (x :: p))
    (hy : piles[k + 1]? = some (y :: q)) : f x < f y := by
  obtain ⟨hclimb, hlength⟩ := h.climb _ _ hy
  obtain ⟨z, r, rfl⟩ : ∃ z r, q = z :: r :=
    List.exists_cons_of_length_eq_add_one (Nat.succ.inj hlength)
  have hr : r.length = k := by simpa using hlength
  obtain ⟨x', p', hx', hle⟩ := h.least z r hclimb.tail
  rw [hr, hx] at hx'
  obtain ⟨rfl, -⟩ := List.cons.inj (Option.some.inj hx')
  exact hle.trans_lt hclimb.head_lt

theorem Piles.top_lt (h : Piles f l piles) {j : Nat} (hjk : j < k)
    (hx : piles[j]? = some (x :: p)) (hy : piles[k]? = some (y :: q)) : f x < f y := by
  induction k generalizing y q with
  | zero => exact absurd hjk (Nat.not_lt_zero j)
  | succ k ih =>
    obtain ⟨hlt, -⟩ := List.getElem?_eq_some_iff.mp hy
    have hk := List.getElem?_eq_getElem (Nat.lt_of_succ_lt hlt)
    obtain ⟨z, r, hz⟩ := h.exists_top hk
    rw [hz] at hk
    have hstep := h.top_lt_succ hk hy
    rcases Nat.lt_succ_iff_lt_or_eq.mp hjk with hjk | rfl
    · exact (ih hjk hk).trans hstep
    · rw [hx] at hk
      obtain ⟨rfl, -⟩ := List.cons.inj (Option.some.inj hk)
      exact hstep

/-- What ends below an element that is at most the top of a pile is no longer than those under
that pile. -/
theorem Piles.length_le (h : Piles f l piles) (hc : Climb f l c)
    (hlt : ∀ z ∈ c.head?, f z < f x) (hk : piles[k]? = some (y :: p)) (hxy : f x ≤ f y) :
    c.length ≤ k := by
  cases c with
  | nil => exact Nat.zero_le k
  | cons z c =>
    obtain ⟨w, r, hw, hle⟩ := h.least z c hc
    by_contra hlong
    have hwx : f w < f x := hle.trans_lt (hlt z rfl)
    rcases Nat.lt_or_ge k c.length with hkc | hkc
    · exact absurd ((h.top_lt hkc hk hw).trans hwx) hxy.not_gt
    · have heq : c.length = k := by
        rw [List.length_cons] at hlong
        omega
      rw [heq, hk] at hw
      obtain ⟨rfl, -⟩ := List.cons.inj (Option.some.inj hw)
      exact absurd hwx hxy.not_gt

/-- The pile below. -/
def under (piles : List (List β)) : Nat → List β
  | 0 => []
  | k + 1 => piles.getD k []

/-- Where an element goes: above all tops before, and not above the top that is there. -/
structure Fits (f : β → κ) (piles : List (List β)) (x : β) (k : Nat) : Prop where
  le_length : k ≤ piles.length
  above : ∀ j < k, ∀ y p, piles[j]? = some (y :: p) → f y < f x
  below : ∀ y p, piles[k]? = some (y :: p) → f x ≤ f y

/-- What ends below an element is at most as long as those under the place where it goes. -/
theorem Piles.length_le_of_fits (h : Piles f l piles) (hfits : Fits f piles x k)
    (hc : Climb f l c) (hlt : ∀ z ∈ c.head?, f z < f x) : c.length ≤ k := by
  rcases hfits.le_length.lt_or_eq with hk | rfl
  · obtain ⟨y, p, hp⟩ := h.exists_top (List.getElem?_eq_getElem hk)
    have hk := List.getElem?_eq_getElem hk
    rw [hp] at hk
    exact h.length_le hc hlt hk (hfits.below y p hk)
  · cases c with
    | nil => exact Nat.zero_le _
    | cons z c =>
      obtain ⟨w, r, hw, -⟩ := h.least z c hc
      exact (List.getElem?_eq_some_iff.mp hw).1

/-- The new element is put behind the pile below its place. -/
theorem Piles.place (h : Piles f l piles) (hfits : Fits f piles x k)
    (hself : piles'[k]? = some (x :: under piles k))
    (hother : ∀ j ≠ k, piles'[j]? = piles[j]?) : Piles f (x :: l) piles' where
  climb j p hp := by
    by_cases hj : j = k
    · subst hj
      obtain rfl := Option.some.inj (hself.symm.trans hp)
      cases j with
      | zero => exact ⟨Climb.push ⟨List.nil_sublist l, .nil⟩ (by simp [under]), rfl⟩
      | succ j =>
        have hget := List.getElem?_eq_getElem (Nat.lt_of_succ_le hfits.le_length)
        obtain ⟨y, q, hq⟩ := h.exists_top hget
        rw [hq] at hget
        obtain ⟨hclimb, hlength⟩ := h.climb _ _ hget
        rw [under, List.getD_eq_getElem?_getD, hget, Option.getD_some]
        refine ⟨hclimb.push fun z hz => ?_, congrArg (· + 1) hlength⟩
        obtain rfl := Option.some.inj hz
        exact hfits.above j (Nat.lt_succ_self j) _ _ hget
    · rw [hother j hj] at hp
      exact ⟨(h.climb j p hp).1.cons, (h.climb j p hp).2⟩
  least y c hc := by
    rcases hc.of_cons with hold | ⟨rfl, hc, hlt⟩
    · obtain ⟨z, p, hz, hle⟩ := h.least y c hold
      by_cases hk : c.length = k
      · exact ⟨x, _, hk ▸ hself, (hfits.below z p (hk ▸ hz)).trans hle⟩
      · exact ⟨z, p, (hother _ hk).trans hz, hle⟩
    · rcases (h.length_le_of_fits hfits hc hlt).lt_or_eq with hk | hk
      · have hget := List.getElem?_eq_getElem (hk.trans_le hfits.le_length)
        obtain ⟨z, p, hz⟩ := h.exists_top hget
        rw [hz] at hget
        exact ⟨z, p, (hother _ hk.ne).trans hget, (hfits.above _ hk z p hget).le⟩
      · exact ⟨y, _, hk ▸ hself, le_rfl⟩

/-- An element that is as high as the top of a pile may be left out. -/
theorem Piles.skip (h : Piles f l piles) (hk : piles[k]? = some (y :: p)) (hxy : f x = f y) :
    Piles f (x :: l) piles where
  climb j p hp := ⟨(h.climb j p hp).1.cons, (h.climb j p hp).2⟩
  least z c hc := by
    rcases hc.of_cons with hold | ⟨rfl, hc, hlt⟩
    · exact h.least z c hold
    · have hlength := h.length_le hc hlt hk hxy.le
      have hget := List.getElem?_eq_getElem (hlength.trans_lt (List.getElem?_eq_some_iff.mp hk).1)
      obtain ⟨w, r, hw⟩ := h.exists_top hget
      rw [hw] at hget
      refine ⟨w, r, hget, ?_⟩
      rcases hlength.lt_or_eq with hlt | heq
      · exact ((h.top_lt hlt hget hk).trans_eq hxy.symm).le
      · rw [heq, hk] at hget
        obtain ⟨rfl, -⟩ := List.cons.inj (Option.some.inj hget)
        exact hxy.ge

/-- No increasing subsequence is longer than there are piles. -/
theorem Piles.length_le_length (h : Piles f l piles) (hc : Climb f l c) :
    c.length ≤ piles.length := by
  cases c with
  | nil => exact Nat.zero_le _
  | cons x c =>
    obtain ⟨y, p, hy, -⟩ := h.least x c hc
    exact (List.getElem?_eq_some_iff.mp hy).1

/-- The last pile is a longest increasing subsequence. -/
theorem Piles.last (h : Piles f l piles) :
    Climb f l (piles.getLast?.getD []) ∧ (piles.getLast?.getD []).length = piles.length := by
  rcases List.eq_nil_or_concat piles with rfl | ⟨ps, p, rfl⟩
  · exact ⟨⟨List.nil_sublist l, .nil⟩, rfl⟩
  · have hp : (ps.concat p)[ps.length]? = some p := by simp
    simpa using h.climb ps.length p hp

end Natc.Lib
