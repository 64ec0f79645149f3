import Mathlib.Data.List.Basic

/-!
# Stable merging

A list that is in an order is sorted by a comparison. A stable sort puts what is even with respect
to the comparison in the order that the list had. Merging two lists that are in such an order gives
one that is, if all of the first list was in front of the second.
-/

namespace Natc.Lib

variable {ι : Type*} {le : ι → ι → Bool} {R : ι → ι → Prop} {l₁ l₂ : List ι} {x y z : ι}

/-- Lower than the other, or even with it and in front of it. -/
def Ahead (le : ι → ι → Bool) (R : ι → ι → Prop) (x y : ι) : Prop :=
  le x y = true ∧ (le y x = true → R x y)

/-- A comparison that compares any two and is transitive. -/
structure Compares (le : ι → ι → Bool) : Prop where
  trans : ∀ x y z, le x y = true → le y z = true → le x z = true
  total : ∀ x y, le x y = true ∨ le y x = true

theorem Compares.refl (h : Compares le) (x : ι) : le x x = true :=
  (h.total x x).elim id id

theorem Compares.of_not (h : Compares le) (hxy : ¬ le x y = true) : le y x = true :=
  (h.total x y).resolve_left hxy

theorem Ahead.le_of_le (h : Compares le) (hxy : le x y = true) (hyz : Ahead le R y z) :
    le x z = true :=
  h.trans x y z hxy hyz.1

/-- Merging keeps the order, in which each element of the first list is before the second one. -/
theorem pairwise_ahead_merge (h : Compares le) (h₁ : l₁.Pairwise (Ahead le R))
    (h₂ : l₂.Pairwise (Ahead le R)) (hR : ∀ x ∈ l₁, ∀ y ∈ l₂, R x y) :
    (List.merge l₁ l₂ le).Pairwise (Ahead le R) := by
  induction l₁ generalizing l₂ with
  | nil => rwa [List.nil_merge]
  | cons x l₁ ih₁ =>
    induction l₂ with
    | nil => rwa [List.merge_right]
    | cons y l₂ ih₂ =>
      obtain ⟨hx, hl₁⟩ := List.pairwise_cons.mp h₁
      obtain ⟨hy, hl₂⟩ := List.pairwise_cons.mp h₂
      rw [List.cons_merge_cons]
      split
      · next hxy =>
        refine List.pairwise_cons.mpr ⟨fun z hz => ?_, ih₁ hl₁ h₂ fun a ha =>
          hR a (List.mem_cons_of_mem _ ha)⟩
        rcases List.mem_merge.mp hz with hz | hz
        · exact hx z hz
        · refine ⟨?_, fun _ => hR x List.mem_cons_self z hz⟩
          rcases List.mem_cons.mp hz with rfl | hz
          · exact hxy
          · exact (hy z hz).le_of_le h hxy
      · next hxy =>
        have hyx : le y x = true := h.of_not hxy
        refine List.pairwise_cons.mpr ⟨fun z hz => ?_, ih₂ hl₂ fun a ha b hb =>
          hR a ha b (List.mem_cons_of_mem _ hb)⟩
        rcases List.mem_merge.mp hz with hz | hz
        · have hxz : le x z = true := by
            rcases List.mem_cons.mp hz with rfl | hz
            · exact h.refl _
            · exact (hx z hz).1
          refine ⟨h.trans y x z hyx hxz, fun hzy => absurd (h.trans x z y hxz hzy) hxy⟩
        · exact hy z hz

/-- A list that is in order already is its own merge: all of the first part is before the second if
its last element is not above the first one of the second. -/
theorem pairwise_ahead_append (h : Compares le) (h₁ : (l₁ ++ [x]).Pairwise (Ahead le R))
    (h₂ : (y :: l₂).Pairwise (Ahead le R)) (hxy : le x y = true)
    (hR : ∀ a ∈ l₁ ++ [x], ∀ b ∈ y :: l₂, R a b) :
    ((l₁ ++ [x]) ++ y :: l₂).Pairwise (Ahead le R) := by
  refine List.pairwise_append.mpr ⟨h₁, h₂, fun a ha b hb => ⟨?_, fun _ => hR a ha b hb⟩⟩
  have hax : le a x = true := by
    rcases List.mem_append.mp ha with ha' | ha'
    · exact ((List.pairwise_append.mp h₁).2.2 a ha' x List.mem_cons_self).1
    · rw [List.mem_singleton.mp ha']
      exact h.refl x
  have hyb : le y b = true := by
    rcases List.mem_cons.mp hb with rfl | hb'
    · exact h.refl b
    · exact ((List.pairwise_cons.mp h₂).1 b hb').1
  exact h.trans a y b (h.trans a x y hax hxy) hyb

/-- A permutation of a list that puts it into the order of the comparison, and what is even into
any order that the list was in. -/
structure Sorts (le : ι → ι → Bool) (l l' : List ι) : Prop where
  perm : l'.Perm l
  ahead : ∀ R : ι → ι → Prop, l.Pairwise R → l'.Pairwise (Ahead le R)

theorem Sorts.short {l : List ι} (hl : l.length < 2) : Sorts le l l where
  perm := .refl l
  ahead R _ := by
    match l, hl with
    | [], _ => exact .nil
    | [x], _ => exact List.pairwise_singleton _ x

/-- Only the comparisons of elements of the list matter. -/
theorem Sorts.congr {le' : ι → ι → Bool} {l l' : List ι} (h : Sorts le l l')
    (hle : ∀ x ∈ l, ∀ y ∈ l, le x y = le' x y) : Sorts le' l l' where
  perm := h.perm
  ahead R hR := (h.ahead R hR).imp_of_mem fun {x y} hx hy hxy => by
    have hx := h.perm.subset hx
    have hy := h.perm.subset hy
    exact ⟨hle x hx y hy ▸ hxy.1, fun hyx => hxy.2 ((hle y hy x hx).trans hyx)⟩

variable {l₁' l₂' : List ι}

theorem Sorts.merge (h : Compares le) (h₁ : Sorts le l₁ l₁') (h₂ : Sorts le l₂ l₂') :
    Sorts le (l₁ ++ l₂) (List.merge l₁' l₂' le) where
  perm := (List.merge_perm_append le).trans (h₁.perm.append h₂.perm)
  ahead R hR := by
    obtain ⟨hl₁, hl₂, hcross⟩ := List.pairwise_append.mp hR
    exact pairwise_ahead_merge h (h₁.ahead R hl₁) (h₂.ahead R hl₂) fun x hx y hy =>
      hcross x (h₁.perm.subset hx) y (h₂.perm.subset hy)

/-- Two sorted parts need not be merged if the first one ends no higher than the second begins. -/
theorem Sorts.append (h : Compares le) (h₁ : Sorts le l₁ l₁') (h₂ : Sorts le l₂ l₂')
    (hlast : l₁'.getLast? = some x) (hhead : l₂'.head? = some y) (hxy : le x y = true) :
    Sorts le (l₁ ++ l₂) (l₁' ++ l₂') where
  perm := h₁.perm.append h₂.perm
  ahead R hR := by
    obtain ⟨hl₁, hl₂, hcross⟩ := List.pairwise_append.mp hR
    obtain ⟨r, hr⟩ := List.getLast?_eq_some_iff.mp hlast
    obtain ⟨s, hs⟩ := List.head?_eq_some_iff.mp hhead
    have hl₁' := h₁.ahead R hl₁
    have hl₂' := h₂.ahead R hl₂
    have hcross' : ∀ a ∈ l₁', ∀ b ∈ l₂', R a b := fun a ha b hb =>
      hcross a (h₁.perm.subset ha) b (h₂.perm.subset hb)
    rw [hr] at hl₁' hcross' ⊢
    rw [hs] at hl₂' hcross' ⊢
    exact pairwise_ahead_append h hl₁' hl₂' hxy hcross'

/-- A list without duplicates is sorted in one way only. -/
theorem Sorts.eq {l l' l'' : List ι} (hl : l.Nodup) (h' : Sorts le l l') (h'' : Sorts le l l'') :
    l' = l'' := by
  classical
  have hindex : l.Pairwise fun x y => l.idxOf x < l.idxOf y := by
    rw [List.pairwise_iff_getElem]
    intro i j hi hj hij
    rwa [hl.idxOf_getElem, hl.idxOf_getElem]
  refine (h'.perm.trans h''.perm.symm).eq_of_pairwise (fun x y _ _ hxy hyx => ?_)
    (h'.ahead _ hindex) (h''.ahead _ hindex)
  exact absurd (hxy.2 hyx.1) (Nat.lt_asymm (hyx.2 hxy.1))

/-- `mergeSort` sorts so. -/
theorem sorts_mergeSort (h : Compares le) : ∀ l : List ι, Sorts le l (l.mergeSort le)
  | [] => by
    rw [List.mergeSort_nil]
    exact Sorts.short (Nat.zero_lt_succ 1)
  | [x] => by
    rw [List.mergeSort_singleton]
    exact Sorts.short (Nat.lt_succ_self 1)
  | x :: y :: l => by
    let halves := List.MergeSort.Internal.splitInTwo ⟨x :: y :: l, rfl⟩
    have hfst : halves.1.1.length < (x :: y :: l).length := by
      simp [halves]
      omega
    have hsnd : halves.2.1.length < (x :: y :: l).length := by
      simp [halves]
      omega
    have hmerge := (sorts_mergeSort h halves.1.1).merge h (sorts_mergeSort h halves.2.1)
    rw [List.mergeSort]
    rwa [List.MergeSort.Internal.splitInTwo_fst_append_splitInTwo_snd] at hmerge
termination_by l => l.length

theorem sorts_mergeSort_of (h : Compares le) {le' : ι → ι → Bool} {l : List ι}
    (hle : ∀ x ∈ l, ∀ y ∈ l, le x y = le' x y) : Sorts le' l (l.mergeSort le') := by
  have hsame : l.mergeSort le = l.mergeSort le' := by
    simpa using List.map_mergeSort (f := id) (s := le') hle
  exact hsame ▸ (sorts_mergeSort h l).congr hle

end Natc.Lib
