import Mathlib.Data.List.Basic

/-!
# Greedy patterns

A pattern gives the ways in which it can match at the front of a list, each with what is left, in
the order in which a backtracking matcher tries them: the longest one first. The first way with
which the rest of the pattern matches is taken, which is `List.findSome?`.
-/

namespace Natc.Lib

variable {α β : Type*}

/-- Any number of elements with the property. -/
def star (p : α → Bool) : List α → List (List α × List α)
  | [] => [([], [])]
  | c :: cs =>
    if p c then (star p cs).map (fun m => (c :: m.1, m.2)) ++ [([], c :: cs)]
    else [([], c :: cs)]

/-- At least one. -/
def plus (p : α → Bool) : List α → List (List α × List α)
  | [] => []
  | c :: cs => if p c then (star p cs).map fun m => (c :: m.1, m.2) else []

variable {p : α → Bool} {l x y : List α} {f : List α × List α → Option β}

/-- The longest way is tried first. -/
theorem exists_star_eq (p : α → Bool) (l : List α) :
    ∃ ms, star p l = (l.takeWhile p, l.dropWhile p) :: ms := by
  induction l with
  | nil => exact ⟨[], rfl⟩
  | cons c cs ih =>
    obtain ⟨ms, hms⟩ := ih
    rw [star]
    cases hc : p c with
    | true =>
      refine ⟨ms.map (fun m => (c :: m.1, m.2)) ++ [([], c :: cs)], ?_⟩
      rw [if_pos rfl, hms]
      simp [hc]
    | false => exact ⟨[], by simp [hc]⟩

theorem findSome?_star {r : β} (h : f (l.takeWhile p, l.dropWhile p) = some r) :
    (star p l).findSome? f = some r := by
  obtain ⟨ms, hms⟩ := exists_star_eq p l
  rw [hms, List.findSome?_cons, h]

theorem append_of_mem_star {m : List α × List α} (h : m ∈ star p l) : m.1 ++ m.2 = l := by
  induction l generalizing m with
  | nil =>
    rw [star, List.mem_singleton] at h
    rw [h]
    rfl
  | cons c cs ih =>
    rw [star] at h
    split at h
    · rcases List.mem_append.mp h with h | h
      · obtain ⟨m', hm', rfl⟩ := List.mem_map.mp h
        exact congrArg (c :: ·) (ih hm')
      · rw [List.mem_singleton.mp h]
        rfl
    · rw [List.mem_singleton.mp h]
      rfl

theorem append_of_mem_plus {m : List α × List α} (h : m ∈ plus p l) : m.1 ++ m.2 = l := by
  cases l with
  | nil => cases h
  | cons c cs =>
    rw [plus] at h
    split at h
    · obtain ⟨m', hm', rfl⟩ := List.mem_map.mp h
      exact congrArg (c :: ·) (append_of_mem_star hm')
    · cases h

theorem findSome?_plus {c : α} {cs : List α} {r : β} (hc : p c = true)
    (h : f (c :: cs.takeWhile p, cs.dropWhile p) = some r) :
    (plus p (c :: cs)).findSome? f = some r := by
  rw [plus, if_pos hc, List.findSome?_map]
  exact findSome?_star h

/-- Where no way goes on into `y`, the match ends in front of it. -/
theorem findSome?_star_append {r : β}
    (hnone : ∀ u v, y = u ++ v → u ≠ [] → f (x ++ u, v) = none) (h : f (x, y) = some r) :
    (star (fun _ => true) (x ++ y)).findSome? f = some r := by
  have hrest : ∀ (y : List α) (g : List α × List α → Option β),
      (∀ u v, y = u ++ v → u ≠ [] → g (u, v) = none) →
        (star (fun _ => true) y).findSome? g = g ([], y) := by
    intro y
    induction y with
    | nil =>
      intro g _
      simp [star]
    | cons c cs ih =>
      intro g hg
      have hmap := ih (fun m => g (c :: m.1, m.2)) fun u v huv _ =>
        hg (c :: u) v (by rw [huv]; rfl) (List.cons_ne_nil c u)
      rw [star, if_pos rfl, List.findSome?_append, List.findSome?_map]
      simp only [Function.comp_def, hmap, hg [c] cs rfl (List.cons_ne_nil c [])]
      simp
  induction x generalizing f with
  | nil => rw [List.nil_append, hrest y f hnone, h]
  | cons c cs ih =>
    have hmap := @ih (fun m => f (c :: m.1, m.2)) hnone h
    rw [List.cons_append, star, if_pos rfl, List.findSome?_append, List.findSome?_map]
    simp only [Function.comp_def, hmap, Option.some_or]

theorem findSome?_plus_append {c : α} {r : β}
    (hnone : ∀ u v, y = u ++ v → u ≠ [] → f (c :: x ++ u, v) = none)
    (h : f (c :: x, y) = some r) :
    (plus (fun _ => true) (c :: x ++ y)).findSome? f = some r := by
  rw [List.cons_append, plus, if_pos rfl, List.findSome?_map]
  exact @findSome?_star_append _ _ _ _ (fun m => f (c :: m.1, m.2)) _ hnone h

end Natc.Lib
