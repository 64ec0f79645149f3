import Mathlib.Data.Option.Basic
import Mathlib.Order.Lattice
import Mathlib.Order.Nat

/-!
# Loops that may not end

A loop runs its body as long as its test holds. Its rounds are counted by `fuel`, which a loop in
the body shares; the loop ends when some amount of it is enough.
-/

namespace Natc.Lib

variable {σ τ υ : Type*}

/-- `while (test) body`. The result is `none` when `fuel` rounds are not enough, or when the body
does not end. -/
def loop (test : σ → Bool) (body : σ → Option σ) : Nat → σ → Option σ
  | 0, s => if test s then none else some s
  | fuel + 1, s => if test s then (body s).bind (loop test body fuel) else some s

/-- With more fuel the result is the same. -/
def Grows (f : Nat → σ → Option τ) : Prop :=
  ∀ n k s t, n ≤ k → f n s = some t → f k s = some t

/-- The run from `s` ends in `t`. -/
def Ends (f : Nat → σ → Option τ) (s : σ) (t : τ) : Prop := ∃ n, f n s = some t

theorem Ends.unique {f : Nat → σ → Option τ} (hf : Grows f) {s : σ} {t u : τ} (ht : Ends f s t)
    (hu : Ends f s u) : t = u := by
  obtain ⟨n, hn⟩ := ht
  obtain ⟨k, hk⟩ := hu
  have hnt := hf n (max n k) s t (le_max_left n k) hn
  have hku := hf k (max n k) s u (le_max_right n k) hk
  exact Option.some.inj (hnt.symm.trans hku)

theorem Grows.const (f : σ → Option τ) : Grows fun _ => f := fun _ _ _ _ _ h => h

theorem ends_const (f : σ → Option τ) (s : σ) (t : τ) : Ends (fun _ => f) s t ↔ f s = some t :=
  exists_const Nat

theorem Grows.map {f : Nat → σ → Option τ} (hf : Grows f) (g : τ → υ) :
    Grows fun n s => (f n s).map g := by
  intro n k s u hle h
  obtain ⟨t, ht, hu⟩ := Option.map_eq_some_iff.mp h
  exact Option.map_eq_some_iff.mpr ⟨t, hf n k s t hle ht, hu⟩

section loop

variable {test : σ → Bool} {body : Nat → σ → Option σ}

theorem loop_of_not {b : σ → Option σ} {s : σ} (h : test s = false) (n : Nat) :
    loop test b n s = some s := by
  cases n <;> simp [loop, h]

/-- With more rounds, and more fuel for the body, the result is the same. -/
theorem loop_mono (hbody : Grows body) {n k n' k' : Nat} {s t : σ} (hle : n ≤ k) (hle' : n' ≤ k')
    (h : loop test (body n') n s = some t) : loop test (body k') k s = some t := by
  induction n generalizing k s with
  | zero =>
    cases ht : test s with
    | true => simp [loop, ht] at h
    | false =>
      rw [loop_of_not ht] at h ⊢
      exact h
  | succ n ih =>
    cases ht : test s with
    | false =>
      rw [loop_of_not ht] at h ⊢
      exact h
    | true =>
      obtain ⟨k, rfl⟩ : ∃ j, k = j + 1 := ⟨k - 1, by omega⟩
      rw [loop, if_pos ht] at h ⊢
      obtain ⟨u, hu, hrest⟩ := Option.bind_eq_some_iff.mp h
      refine Option.bind_eq_some_iff.mpr ⟨u, hbody n' k' s u hle' hu, ?_⟩
      exact ih (by omega) hrest

theorem Grows.loop (hbody : Grows body) : Grows fun n => loop test (body n) n :=
  fun _ _ _ _ hle h => loop_mono hbody hle hle h

theorem ends_loop_of_not {s t : σ} (h : test s = false) :
    Ends (fun n => loop test (body n) n) s t ↔ t = s := by
  constructor
  · rintro ⟨n, hn⟩
    exact (Option.some.inj ((loop_of_not h n).symm.trans hn)).symm
  · rintro rfl
    exact ⟨0, loop_of_not h 0⟩

/-- One round of a loop. -/
theorem ends_loop (hbody : Grows body) {s t : σ} (h : test s = true) :
    Ends (fun n => loop test (body n) n) s t ↔
      ∃ u, Ends body s u ∧ Ends (fun n => loop test (body n) n) u t := by
  constructor
  · rintro ⟨n, hn⟩
    cases n with
    | zero => simp [loop, h] at hn
    | succ n =>
      simp only [loop, h, if_true] at hn
      obtain ⟨u, hu, hrest⟩ := Option.bind_eq_some_iff.mp hn
      exact ⟨u, ⟨n + 1, hu⟩, n + 1, loop_mono hbody (Nat.le_succ n) le_rfl hrest⟩
  · rintro ⟨u, ⟨n, hu⟩, ⟨k, hrest⟩⟩
    refine ⟨max n k + 1, ?_⟩
    simp only [loop, h, if_true]
    refine Option.bind_eq_some_iff.mpr ⟨u, ?_, ?_⟩
    · exact hbody n _ s u (by omega) hu
    · exact loop_mono hbody (by omega) (by omega) hrest

/-- A loop does not end when a property that lets its test hold is kept by its body. -/
theorem not_ends_loop {I : σ → Prop} (htest : ∀ s, I s → test s = true)
    (hkeep : ∀ n s t, I s → body n s = some t → I t) {s : σ} (hs : I s) (t : σ) :
    ¬ Ends (fun n => loop test (body n) n) s t := by
  have hnone : ∀ n k s, I s → loop test (body n) k s = none := by
    intro n k
    induction k with
    | zero =>
      intro s hs
      rw [loop, if_pos (htest s hs)]
    | succ k ih =>
      intro s hs
      rw [loop, if_pos (htest s hs), Option.bind_eq_none_iff]
      intro u hu
      exact ih u (hkeep n s u hs hu)
  rintro ⟨n, hn⟩
  cases (hnone n n s hs).symm.trans hn

/-- What one round keeps, as long as the test holds, is so at the end, where the test fails. -/
theorem ends_loop_keeps {I : σ → Prop}
    (hkeep : ∀ n s t, test s = true → I s → body n s = some t → I t) {s t : σ} (hs : I s)
    (h : Ends (fun n => loop test (body n) n) s t) : I t ∧ test t = false := by
  have hrun : ∀ n k s, I s → loop test (body n) k s = some t → I t ∧ test t = false := by
    intro n k
    induction k with
    | zero =>
      intro s hs hend
      cases htest : test s with
      | true => simp [loop, htest] at hend
      | false =>
        rw [loop_of_not htest] at hend
        cases hend
        exact ⟨hs, htest⟩
    | succ k ih =>
      intro s hs hend
      cases htest : test s with
      | true =>
        rw [loop, if_pos htest] at hend
        obtain ⟨u, hu, hrest⟩ := Option.bind_eq_some_iff.mp hend
        exact ih u (hkeep n s u htest hs hu) hrest
      | false =>
        rw [loop_of_not htest] at hend
        cases hend
        exact ⟨hs, htest⟩
  obtain ⟨n, hn⟩ := h
  exact hrun n n s hs hn

end loop

end Natc.Lib
