import Mathlib.Data.List.Induction

/-!
# Branches of a tree

A tree is given by the nodes around each of its nodes, the outermost one first. A branch is a list
of nodes in which each stands behind those around it. The nearest node of two branches at which a
partial function is defined is the same just if it is defined nowhere on one of them alone.
-/

namespace Natc.Lib

variable {α β : Type*}

/-- The value at the last element of the list that has one. -/
def nearest (f : α → Option β) (l : List α) : Option β := l.reverse.findSome? f

theorem nearest_eq_none_iff {f : α → Option β} {l : List α} :
    nearest f l = none ↔ ∀ x ∈ l, f x = none := by
  simp [nearest, List.findSome?_eq_none_iff]

theorem nearest_eq_some_iff {f : α → Option β} {l : List α} {r : β} :
    nearest f l = some r ↔ ∃ A x B, l = A ++ x :: B ∧ f x = some r ∧ ∀ b ∈ B, f b = none := by
  rw [nearest, List.findSome?_eq_some_iff]
  constructor
  · rintro ⟨A, x, B, hl, hx, hA⟩
    refine ⟨B.reverse, x, A.reverse, ?_, hx, by simpa using hA⟩
    have hrev := congrArg List.reverse hl
    simpa using hrev
  · rintro ⟨A, x, B, rfl, hx, hB⟩
    exact ⟨B.reverse, x, A.reverse, by simp, hx, by simpa using hB⟩

theorem nearest_concat (f : α → Option β) (l : List α) (x : α) :
    nearest f (l ++ [x]) = (f x).or (nearest f l) := by
  cases h : f x <;> simp [nearest, h]

theorem nearest_map {γ : Type*} (f : α → Option β) (g : γ → α) (l : List γ) :
    nearest f (l.map g) = nearest (fun x => f (g x)) l := by
  rw [nearest, nearest, ← List.map_reverse, List.findSome?_map]
  rfl

/-- No node has two places in the tree. -/
def OnePlace (around : α → List α → Prop) : Prop :=
  ∀ x A B, around x A → around x B → A = B

/-- Each node of the list stands behind those around it. -/
def Branch (around : α → List α → Prop) (l : List α) : Prop :=
  ∀ A x B, l = A ++ x :: B → around x A

namespace Branch

variable {around : α → List α → Prop} {X Y : List α}

theorem nil : Branch around [] := by
  intro A x B h
  simp at h

theorem of_append (h : Branch around (X ++ Y)) : Branch around X := by
  rintro A x B rfl
  exact h A x (B ++ Y) (by simp)

theorem concat (h : Branch around X) {x : α} (hx : around x X) : Branch around (X ++ [x]) := by
  intro A y B heq
  induction B using List.reverseRecOn with
  | nil =>
    obtain ⟨rfl, hxy⟩ := List.append_inj' heq rfl
    obtain rfl : x = y := by simpa using hxy
    exact hx
  | append_singleton B z _ =>
    have hinit := congrArg List.dropLast heq
    rw [List.dropLast_concat, ← List.cons_append, ← List.append_assoc,
      List.dropLast_concat] at hinit
    exact h A y B hinit

theorem dropLast (h : Branch around X) : Branch around X.dropLast := by
  induction X using List.reverseRecOn with
  | nil => exact h
  | append_singleton X x _ =>
    rw [List.dropLast_concat]
    exact h.of_append

variable (hone : OnePlace around)
include hone

/-- Two branches with a common node have the same nodes around it. -/
theorem common (hX : Branch around X) (hY : Branch around Y) {A B : List α} {x : α}
    (h : X = A ++ x :: B) (hx : x ∈ Y) : ∃ C, Y = A ++ x :: C := by
  obtain ⟨D, C, hsplit⟩ := List.append_of_mem hx
  have hAD := hone x A D (hX A x B h) (hY D x C hsplit)
  exact ⟨C, hAD ▸ hsplit⟩

theorem not_mem_behind (hX : Branch around X) {A B : List α} {x : α} (h : X = A ++ x :: B) :
    ∀ b ∈ B, b ∉ A ∧ b ≠ x := by
  intro b hb
  obtain ⟨C, D, rfl⟩ := List.append_of_mem hb
  have hlong := hX (A ++ x :: C) b D (by simp [h])
  constructor
  · intro hA
    obtain ⟨E, F, rfl⟩ := List.append_of_mem hA
    have hshort := hX E b (F ++ x :: (C ++ b :: D)) (by simp [h])
    have hlen := congrArg List.length (hone b _ _ hlong hshort)
    simp at hlen
  · rintro rfl
    have hlen := congrArg List.length (hone b _ _ hlong (hX A b _ h))
    simp at hlen

variable {f : α → Option β}

theorem nearest_of_agree (hX : Branch around X) (hY : Branch around Y)
    (hXY : ∀ x ∈ X, x ∉ Y → f x = none) (hYX : ∀ y ∈ Y, y ∉ X → f y = none) :
    nearest f X = nearest f Y := by
  cases h : nearest f X with
  | none =>
    have hnone := nearest_eq_none_iff.mp h
    refine (nearest_eq_none_iff.mpr ?_).symm
    intro y hy
    by_cases hyX : y ∈ X
    · exact hnone y hyX
    · exact hYX y hy hyX
  | some r =>
    obtain ⟨A, x, B, hsplit, hx, hB⟩ := nearest_eq_some_iff.mp h
    have hxY : x ∈ Y := by
      by_contra hxY
      rw [hXY x (by simp [hsplit]) hxY] at hx
      cases hx
    obtain ⟨C, hC⟩ := common hone hX hY hsplit hxY
    refine (nearest_eq_some_iff.mpr ⟨A, x, C, hC, hx, ?_⟩).symm
    intro c hc
    by_cases hcX : c ∈ X
    · have hfar := not_mem_behind hone hY hC c hc
      rw [hsplit, List.mem_append, List.mem_cons] at hcX
      exact hB c ((hcX.resolve_left hfar.1).resolve_left hfar.2)
    · exact hYX c (by simp [hC, hc]) hcX

theorem none_of_nearest_eq (hf : ∀ x y r, f x = some r → f y = some r → x = y)
    (hX : Branch around X) (hY : Branch around Y) (heq : nearest f X = nearest f Y) :
    ∀ x ∈ X, x ∉ Y → f x = none := by
  intro x hxX hxY
  by_contra hdef
  obtain ⟨r, hr⟩ : ∃ r, nearest f X = some r := by
    rw [← Option.ne_none_iff_exists']
    exact fun hnone => hdef (nearest_eq_none_iff.mp hnone x hxX)
  obtain ⟨A, z, B, hsplit, hz, hB⟩ := nearest_eq_some_iff.mp hr
  obtain ⟨C, w, D, hsplit', hw, -⟩ := nearest_eq_some_iff.mp (heq ▸ hr)
  obtain rfl := hf z w r hz hw
  have hAC := hone z A C (hX A z B hsplit) (hY C z D hsplit')
  rw [hsplit, List.mem_append, List.mem_cons] at hxX
  rcases hxX with hA | rfl | hxB
  · exact hxY (by simp [hsplit', ← hAC, hA])
  · exact hxY (by simp [hsplit'])
  · exact hdef (hB x hxB)

/-- The nearest values of two branches are equal just if no node of one alone has a value. -/
theorem nearest_eq_iff (hf : ∀ x y r, f x = some r → f y = some r → x = y)
    (hX : Branch around X) (hY : Branch around Y) :
    nearest f X = nearest f Y ↔
      (∀ x ∈ X, x ∉ Y → f x = none) ∧ ∀ y ∈ Y, y ∉ X → f y = none := by
  constructor
  · intro heq
    exact ⟨none_of_nearest_eq hone hf hX hY heq, none_of_nearest_eq hone hf hY hX heq.symm⟩
  · rintro ⟨hXY, hYX⟩
    exact nearest_of_agree hone hX hY hXY hYX

end Branch

end Natc.Lib
