import Mathlib.Data.List.Perm.Basic
import Mathlib.Order.Lattice

/-!
# Bubble sort

A pass goes from the end of a list to its front and exchanges neighbours whose keys are the wrong
way round. Each pass brings a smallest row to the front; the next one works on the rows behind it.
-/

namespace Natc.Lib

section counted

variable {σ : Type*}

/-- What a step of a counted loop preserves holds behind the loop. -/
theorem foldlM_range {step : σ → Nat → Option σ} {I : Nat → σ → Prop} (n : Nat)
    (h : ∀ k s, k < n → I k s → ∃ s', step s k = some s' ∧ I (k + 1) s') {s : σ} (hs : I 0 s) :
    ∃ s', (List.range n).foldlM step s = some s' ∧ I n s' := by
  induction n with
  | zero => exact ⟨s, rfl, hs⟩
  | succ n ih =>
    obtain ⟨s₁, hrun, h₁⟩ := ih fun k s hk => h k s (Nat.lt_succ_of_lt hk)
    obtain ⟨s₂, hstep, h₂⟩ := h n s₁ (Nat.lt_succ_self n) h₁
    refine ⟨s₂, ?_, h₂⟩
    rw [List.range_succ, List.foldlM_append, hrun]
    show [n].foldlM step s₁ = _
    rw [List.foldlM_cons, hstep]
    rfl

/-- A counted loop that goes through known states. -/
theorem foldlM_range_eq {step : σ → Nat → Option σ} (run : Nat → σ) (n : Nat)
    (h : ∀ k, k < n → step (run k) k = some (run (k + 1))) :
    (List.range n).foldlM step (run 0) = some (run n) := by
  obtain ⟨s, hs, rfl⟩ := @foldlM_range _ step (fun k s => s = run k) n
    (fun k s hk hs => ⟨_, hs ▸ h k hk, rfl⟩) _ rfl
  exact hs

end counted

variable {α κ : Type*} [LinearOrder κ]

/-- One pass from the end of the list to its front. -/
def bubble (key : α → κ) : List α → List α
  | [] => []
  | a :: rows => match bubble key rows with
    | [] => [a]
    | b :: rest => if key b < key a then b :: a :: rest else a :: b :: rest

theorem bubble_of_length_le {key : α → κ} {l : List α} (h : l.length ≤ 1) :
    bubble key l = l := by
  match l, h with
  | [], _ => rfl
  | [_], _ => rfl

/-- The first `n` passes, each behind the rows that the ones before it brought to the front. -/
def bubbles (key : α → κ) : Nat → List α → List α
  | 0, rows => rows
  | n + 1, rows => match bubble key rows with
    | [] => []
    | a :: rest => a :: bubbles key n rest

variable {key : α → κ}

theorem bubble_perm (rows : List α) : (bubble key rows).Perm rows := by
  induction rows with
  | nil => exact .nil
  | cons a rows ih =>
    rw [bubble]
    split
    · next hnil =>
      rw [hnil] at ih
      rw [ih.symm.eq_nil]
    · next b rest hcons =>
      rw [hcons] at ih
      split
      · exact (List.Perm.swap a b rest).trans (ih.cons a)
      · exact ih.cons a

theorem length_bubble (rows : List α) : (bubble key rows).length = rows.length :=
  (bubble_perm rows).length_eq

/-- A pass brings a smallest row to the front. -/
theorem le_of_bubble {rows : List α} {a : α} {rest : List α} (h : bubble key rows = a :: rest) :
    ∀ b ∈ rest, key a ≤ key b := by
  induction rows generalizing a rest with
  | nil => cases h
  | cons c rows ih =>
    rw [bubble] at h
    split at h
    · cases h
      exact fun b hb => absurd hb List.not_mem_nil
    · next d rest' hcons =>
      have hle := ih hcons
      split at h
      · next hlt =>
        cases h
        exact List.forall_mem_cons.mpr ⟨hlt.le, hle⟩
      · next hlt =>
        cases h
        have hcd := not_lt.mp hlt
        exact List.forall_mem_cons.mpr ⟨hcd, fun b hb => hcd.trans (hle b hb)⟩

/-- A pass keeps the order of rows with one key. -/
theorem filter_bubble (k : κ) (rows : List α) :
    (bubble key rows).filter (key · = k) = rows.filter (key · = k) := by
  induction rows with
  | nil => rfl
  | cons a rows ih =>
    rw [List.filter_cons, ← ih, bubble]
    split
    · next hnil => rw [hnil, List.filter_cons]
    · next b rest hcons =>
      rw [hcons]
      split
      · next hlt =>
        -- two rows that are exchanged have different keys
        have hne : ¬ (key a = k ∧ key b = k) := fun h => hlt.ne (h.2.trans h.1.symm)
        simp only [List.filter_cons, decide_eq_true_eq]
        split <;> split
        · next hb ha => exact absurd ⟨ha, hb⟩ hne
        all_goals rfl
      · rw [List.filter_cons]

theorem bubbles_perm (n : Nat) (rows : List α) : (bubbles key n rows).Perm rows := by
  induction n generalizing rows with
  | zero => exact .refl rows
  | succ n ih =>
    have hperm := @bubble_perm _ _ _ key rows
    rw [bubbles]
    split
    · next hnil => rwa [hnil] at hperm
    · next a rest hcons =>
      rw [hcons] at hperm
      exact ((ih rest).cons a).trans hperm

theorem length_bubbles (n : Nat) (rows : List α) : (bubbles key n rows).length = rows.length :=
  (bubbles_perm n rows).length_eq

theorem filter_bubbles (k : κ) (n : Nat) (rows : List α) :
    (bubbles key n rows).filter (key · = k) = rows.filter (key · = k) := by
  induction n generalizing rows with
  | zero => rfl
  | succ n ih =>
    have hfilter := @filter_bubble _ _ _ key k rows
    rw [bubbles]
    split
    · next hnil => rwa [hnil] at hfilter
    · next a rest hcons =>
      rw [hcons, List.filter_cons] at hfilter
      rw [List.filter_cons, ih rest, hfilter]

/-- After a pass for each row but the last the keys do not decrease. -/
theorem bubbles_sorted (n : Nat) (rows : List α) (h : rows.length ≤ n + 1) :
    (bubbles key n rows).Pairwise (key · ≤ key ·) := by
  induction n generalizing rows with
  | zero =>
    match rows, h with
    | [], _ => exact .nil
    | [a], _ => exact List.pairwise_singleton _ a
  | succ n ih =>
    have hlength := @length_bubble _ _ _ key rows
    rw [bubbles]
    split
    · exact .nil
    · next a rest hcons =>
      rw [hcons, List.length_cons] at hlength
      refine List.pairwise_cons.mpr ⟨fun b hb => ?_, ih rest (by omega)⟩
      exact le_of_bubble hcons b ((bubbles_perm n rest).mem_iff.mp hb)

/-- The next pass works on the rows behind those that are in place. -/
theorem bubbles_succ (n : Nat) (rows : List α) :
    bubbles key (n + 1) rows =
      (bubbles key n rows).take n ++ bubble key ((bubbles key n rows).drop n) := by
  induction n generalizing rows with
  | zero =>
    rw [bubbles, bubbles, List.take_zero, List.drop_zero, List.nil_append]
    split
    · next hnil => rw [hnil]
    · next a rest hcons => rw [hcons, bubbles]
  | succ n ih =>
    rw [bubbles, bubbles]
    split
    · rfl
    · next a rest _ => rw [ih rest, List.take_succ_cons, List.drop_succ_cons, List.cons_append]

end Natc.Lib
