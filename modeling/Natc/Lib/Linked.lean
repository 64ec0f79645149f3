import Mathlib.Data.List.Nodup

/-!
# Singly linked lists

The cells of a list are known by their addresses, and each names the next one. A list is read off
from a first cell on; a new cell behind an inner one cuts off what was there.
-/

namespace Natc.Lib

variable {α : Type*} {next next' : α → Option α} {first : Option α} {a c : α} {l : List α}

/-- The cells from a first one on; the last one names none. -/
inductive Linked (next : α → Option α) : Option α → List α → Prop
  | nil : Linked next none []
  | cons {a : α} {l : List α} : Linked next (next a) l → Linked next (some a) (a :: l)

/-- A cell that is found from a first one on. -/
inductive Reaches (next : α → Option α) : Option α → α → Prop
  | here {a : α} : Reaches next (some a) a
  | behind {a b : α} : Reaches next (next a) b → Reaches next (some a) b

namespace Linked

theorem unique {l' : List α} (h : Linked next first l) (h' : Linked next first l') : l = l' := by
  induction h generalizing l' with
  | nil =>
    cases h'
    rfl
  | cons _ ih =>
    cases h' with
    | cons h' => rw [ih h']

theorem first_eq (h : Linked next first l) : first = l.head? := by
  cases h <;> rfl

theorem drop {front back : List α} (h : Linked next first (front ++ c :: back)) :
    Linked next (some c) (c :: back) := by
  induction front generalizing first with
  | nil =>
    cases h with
    | cons h => exact .cons h
  | cons b front ih =>
    cases h with
    | cons h => exact ih h

/-- A list that ends goes through no cell twice. -/
theorem nodup (h : Linked next first l) : l.Nodup := by
  induction h with
  | nil => exact List.nodup_nil
  | @cons a l h ih =>
    refine List.nodup_cons.mpr ⟨fun hmem => ?_, ih⟩
    obtain ⟨front, back, rfl⟩ := List.append_of_mem hmem
    have heq : front ++ a :: back = back := by
      have hlists := (Linked.cons h).unique h.drop
      exact List.tail_eq_of_cons_eq hlists
    have hlength := congrArg List.length heq
    rw [List.length_append, List.length_cons] at hlength
    omega

theorem reaches_iff (h : Linked next first l) : Reaches next first a ↔ a ∈ l := by
  induction h with
  | nil => exact iff_of_false (fun h => by cases h) List.not_mem_nil
  | @cons b l _ ih =>
    rw [List.mem_cons, ← ih]
    constructor
    · intro h
      cases h with
      | here => exact .inl rfl
      | behind h => exact .inr h
    · rintro (rfl | h)
      · exact .here
      · exact .behind h

/-- What the cells name decides the list. -/
theorem congr (h : Linked next first l) (heq : ∀ a ∈ l, next' a = next a) :
    Linked next' first l := by
  induction h with
  | nil => exact .nil
  | @cons a l _ ih =>
    refine .cons ?_
    rw [heq a List.mem_cons_self]
    exact ih fun b hb => heq b (List.mem_cons_of_mem a hb)

/-- A new cell behind the cell `c`: what `c` named so far is cut off. -/
theorem link {front back : List α} (h : Linked next first (front ++ c :: back))
    (heq : ∀ b ∈ front, next' b = next b) (hc : next' c = some a) (ha : next' a = none) :
    Linked next' first (front ++ [c, a]) := by
  induction front generalizing first with
  | nil =>
    cases h
    refine .cons ?_
    rw [hc]
    refine .cons ?_
    rw [ha]
    exact .nil
  | cons b front ih =>
    cases h with
    | cons h =>
      refine .cons ?_
      rw [heq b List.mem_cons_self]
      exact ih h fun d hd => heq d (List.mem_cons_of_mem b hd)

end Linked

/-- No more than `n` cells of a list, from a first one on. -/
def walk (next : α → Option α) : Nat → Option α → List α
  | n + 1, some a => a :: walk next n (next a)
  | _, _ => []

theorem Linked.walk_eq {n : Nat} (h : Linked next first l) (hn : l.length ≤ n) :
    walk next n first = l := by
  induction h generalizing n with
  | nil => cases n <;> rfl
  | @cons a l _ ih =>
    cases n with
    | zero => cases hn
    | succ n => rw [walk, ih (Nat.le_of_succ_le_succ hn)]

/-- What stands behind an element of a list. -/
def behind [DecidableEq α] (l : List α) (c : α) : List α := (l.dropWhile (· ≠ c)).tail

theorem behind_append [DecidableEq α] {front back : List α} (hc : c ∉ front) :
    behind (front ++ c :: back) c = back := by
  have hfront : ∀ a ∈ front, decide (a ≠ c) = true := by
    intro a ha
    refine decide_eq_true ?_
    rintro rfl
    exact hc ha
  rw [behind, List.dropWhile_append_of_pos hfront, List.dropWhile_cons_of_neg (by simp)]
  rfl

end Natc.Lib
