import Mathlib.Data.List.Basic
import Mathlib.Data.List.Infix

/-!
# The longest overlap of a text and a pattern

A matcher that reads character by character only has to know how much of the pattern the text
ends with. The module says how this length goes on with each character.
-/

namespace Natc.Lib

section Overlap

variable {α : Type} {pat text : List α} {c : α} {j k : Nat}

/-- The text ends with the first `k` characters of the pattern, and with no more of it. -/
structure LongestOverlap (pat text : List α) (k : Nat) : Prop where
  le : k ≤ pat.length
  suffix : pat.take k <:+ text
  longest : ∀ j ≤ pat.length, pat.take j <:+ text → j ≤ k

theorem LongestOverlap.unique (h : LongestOverlap pat text j) (h' : LongestOverlap pat text k) :
    j = k :=
  Nat.le_antisymm (h'.longest j h.le h.suffix) (h.longest k h'.le h'.suffix)

/-- The whole pattern is the longest overlap if and only if the text ends with it. -/
theorem LongestOverlap.eq_length_iff (h : LongestOverlap pat text k) :
    k = pat.length ↔ pat <:+ text := by
  constructor
  · intro hk
    have hsuffix := h.suffix
    rwa [hk, List.take_length] at hsuffix
  · intro hsuffix
    apply Nat.le_antisymm h.le
    apply h.longest pat.length le_rfl
    rwa [List.take_length]

theorem longestOverlap_nil (pat : List α) : LongestOverlap pat [] 0 := by
  refine ⟨Nat.zero_le _, List.nil_suffix, fun j hj hsuffix => ?_⟩
  have hlength := congrArg List.length (List.suffix_nil.mp hsuffix)
  rw [List.length_take, List.length_nil] at hlength
  omega

/-- An overlap with one more character is an overlap before it, and the character is the next one
of the pattern. -/
theorem take_succ_suffix_concat (hj : j < pat.length) :
    pat.take (j + 1) <:+ text ++ [c] ↔ pat.take j <:+ text ∧ pat[j] = c := by
  rw [List.take_succ_eq_append_getElem hj]
  constructor
  · intro h
    obtain ⟨u, hu⟩ := h
    rw [← List.append_assoc] at hu
    obtain ⟨htext, hc⟩ := List.append_inj' hu rfl
    exact ⟨⟨u, htext⟩, List.singleton_inj.mp hc⟩
  · rintro ⟨⟨u, rfl⟩, rfl⟩
    exact ⟨u, by rw [List.append_assoc]⟩

/-- The next character of the pattern makes the overlap longer. -/
theorem LongestOverlap.next (h : LongestOverlap pat text k) (hk : k < pat.length)
    (hc : pat[k] = c) : LongestOverlap pat (text ++ [c]) (k + 1) := by
  refine ⟨hk, (take_succ_suffix_concat hk).mpr ⟨h.suffix, hc⟩, ?_⟩
  intro j hj hsuffix
  cases j with
  | zero => exact Nat.zero_le _
  | succ j =>
    exact Nat.succ_le_succ (h.longest j (by omega) ((take_succ_suffix_concat hj).mp hsuffix).1)

/-- A character that does not begin the pattern leaves no overlap where there was none. -/
theorem LongestOverlap.none (h : LongestOverlap pat text 0) (hpat : 0 < pat.length)
    (hc : pat[0] ≠ c) : LongestOverlap pat (text ++ [c]) 0 := by
  refine ⟨Nat.zero_le _, by rw [List.take_zero]; exact List.nil_suffix, ?_⟩
  intro j hj hsuffix
  cases j with
  | zero => exact le_rfl
  | succ j =>
    obtain ⟨hbefore, hchar⟩ := (take_succ_suffix_concat hj).mp hsuffix
    have hj0 : j = 0 := Nat.le_zero.mp (h.longest j (by omega) hbefore)
    subst hj0
    exact absurd hchar hc

end Overlap

section Apart

variable {α : Type} {c d : α} {s t x y a b : List α}

/-- A word that does not begin within another one is at its start or behind it. -/
theorem head_or_behind {m : List α} (hd : d ∉ s) (h : (c :: s) ++ y = m ++ d :: b) :
    (m = [] ∧ c = d) ∨ ∃ u, m = (c :: s) ++ u := by
  cases m with
  | nil => exact Or.inl ⟨rfl, (List.cons.inj h).1⟩
  | cons e m =>
    obtain ⟨rfl, htail⟩ := List.cons.inj h
    right
    rcases List.append_eq_append_iff.mp htail with ⟨u, rfl, -⟩ | ⟨u, rfl, hu⟩
    · exact ⟨u, rfl⟩
    · cases u with
      | nil => exact ⟨[], by simp⟩
      | cons e' u =>
        rw [List.cons_append] at hu
        apply absurd _ hd
        rw [(List.cons.inj hu).1]
        exact List.mem_append_right _ List.mem_cons_self

/-- Two words, neither of which begins within the other one, do not overlap in a text. -/
theorem apart_or_same (hc : c ∉ t) (hd : d ∉ s)
    (h : x ++ ((c :: s) ++ y) = a ++ ((d :: t) ++ b)) :
    (∃ m, x = a ++ ((d :: t) ++ m)) ∨ (x = a ∧ c = d) ∨ ∃ m, a = x ++ ((c :: s) ++ m) := by
  rcases List.append_eq_append_iff.mp h with ⟨m, rfl, hm⟩ | ⟨m, rfl, hm⟩
  · rcases head_or_behind hd hm with ⟨rfl, hcd⟩ | ⟨u, rfl⟩
    · exact Or.inr (Or.inl ⟨(List.append_nil x).symm, hcd⟩)
    · exact Or.inr (Or.inr ⟨u, rfl⟩)
  · rcases head_or_behind hc hm with ⟨rfl, hdc⟩ | ⟨u, rfl⟩
    · exact Or.inr (Or.inl ⟨List.append_nil a, hdc.symm⟩)
    · exact Or.inl ⟨u, rfl⟩

end Apart

end Natc.Lib
