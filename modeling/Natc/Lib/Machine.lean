import Mathlib.Logic.Basic

/-!
# Labelled machines

A machine starts in one state and takes labelled steps; the label carries every choice that the
scheduler or the environment makes. Runs may be restricted by a condition on the state before a
step and its label.
-/

namespace Natc.Lib

/-- A start state and a partial step function. -/
structure Machine (σ ℓ : Type*) where
  start : σ
  step : σ → ℓ → Option σ

namespace Machine

variable {σ ℓ : Type*} (m : Machine σ ℓ)

/-- The states of the runs all of whose steps meet `ok`. -/
inductive Reach (ok : σ → ℓ → Prop) : σ → Prop
  | start : Reach ok m.start
  | next {s s' : σ} {l : ℓ} : Reach ok s → ok s l → m.step s l = some s' → Reach ok s'

/-- The states of all runs. -/
abbrev Reachable : σ → Prop := m.Reach fun _ _ => True

variable {m}

/-- What holds at the start and is kept by every admitted step holds in every state reached. -/
theorem Reach.invariant {ok : σ → ℓ → Prop} {I : σ → Prop} (hstart : I m.start)
    (hstep : ∀ s l s', I s → ok s l → m.step s l = some s' → I s')
    {s : σ} (h : m.Reach ok s) : I s := by
  induction h with
  | start => exact hstart
  | next _ hok hs ih => exact hstep _ _ _ ih hok hs

/-- A run under a condition is a run under every weaker one. -/
theorem Reach.mono {ok ok' : σ → ℓ → Prop} (hok : ∀ s l, ok s l → ok' s l)
    {s : σ} (h : m.Reach ok s) : m.Reach ok' s := by
  induction h with
  | start => exact .start
  | next _ hl hs ih => exact .next ih (hok _ _ hl) hs

/-- Take the steps of a schedule one after the other, as long as `ok` admits them. -/
def exec (ok : σ → ℓ → Bool) (step : σ → ℓ → Option σ) : σ → List ℓ → Option σ
  | s, [] => some s
  | s, l :: ls => if ok s l then (step s l).bind fun s' => exec ok step s' ls else none

private theorem exec_reach {ok : σ → ℓ → Bool} {s t : σ} (ls : List ℓ)
    (hs : m.Reach (fun s l => ok s l) s) (h : exec ok m.step s ls = some t) :
    m.Reach (fun s l => ok s l) t := by
  induction ls generalizing s with
  | nil =>
    simp only [exec, Option.some.injEq] at h
    exact h ▸ hs
  | cons l ls ih =>
    rw [exec] at h
    split at h
    · rename_i hok
      obtain ⟨s', hl, ht⟩ := Option.bind_eq_some_iff.mp h
      exact ih (.next hs hok hl) ht
    · cases h

/-- When a schedule runs to its end in a state with the property `P`, such a state is reached. -/
theorem exists_reach_of_exec (m : Machine σ ℓ) (ok : σ → ℓ → Bool) (P : σ → Bool) (ls : List ℓ)
    (h : (exec ok m.step m.start ls).any P = true) :
    ∃ s, m.Reach (fun s l => ok s l) s ∧ P s = true := by
  obtain ⟨hs, hP⟩ := (Option.any_eq_true_iff_get _ _).mp h
  exact ⟨_, exec_reach ls .start (Option.eq_some_of_isSome hs), hP⟩

/-- The property holds in every state of the run along a schedule. -/
def Throughout (P : σ → Prop) (step : σ → ℓ → Option σ) : σ → List ℓ → Prop
  | s, [] => P s
  | s, l :: ls => P s ∧ ∀ s' ∈ step s l, Throughout P step s' ls

theorem Throughout.head {P : σ → Prop} {step : σ → ℓ → Option σ} {s : σ} {ls : List ℓ}
    (h : Throughout P step s ls) : P s := by
  cases ls with
  | nil => exact h
  | cons l ls => exact h.1

/-- A run that has the property throughout has it in the end. -/
theorem Throughout.last {P : σ → Prop} {step : σ → ℓ → Option σ} {s t : σ} {ls : List ℓ}
    (h : Throughout P step s ls) (hrun : exec (fun _ _ => true) step s ls = some t) : P t := by
  induction ls generalizing s with
  | nil =>
    cases hrun
    exact h
  | cons l ls ih =>
    rw [exec, if_pos rfl] at hrun
    obtain ⟨s', hl, hrun⟩ := Option.bind_eq_some_iff.mp hrun
    exact ih (h.2 s' hl) hrun

/-- When a step from a state with the property keeps it exactly if its label is `ok`, a complete
run has the property throughout exactly if all its labels are. -/
theorem throughout_iff {P : σ → Prop} {step : σ → ℓ → Option σ} {ok : ℓ → Prop}
    (hstep : ∀ s l s', P s → step s l = some s' → (P s' ↔ ok l)) {s : σ} (hs : P s)
    (ls : List ℓ) (hrun : (exec (fun _ _ => true) step s ls).isSome) :
    Throughout P step s ls ↔ ∀ l ∈ ls, ok l := by
  induction ls generalizing s with
  | nil => simp [Throughout, hs]
  | cons l ls ih =>
    rw [exec, if_pos rfl] at hrun
    cases hl : step s l with
    | none => simp [hl] at hrun
    | some s' =>
      rw [hl] at hrun
      have hiff := hstep s l s' hs hl
      simp only [Throughout, hl, Option.mem_some_iff, forall_eq', List.mem_cons, forall_eq_or_imp]
      constructor
      · rintro ⟨_, hrest⟩
        exact ⟨hiff.mp hrest.head, (ih hrest.head hrun).mp hrest⟩
      · rintro ⟨hok, hall⟩
        exact ⟨hs, (ih (hiff.mpr hok) hrun).mpr hall⟩

/-- Every step of the run along a schedule meets `ok` in the state before it. -/
def Along (ok : σ → ℓ → Prop) (step : σ → ℓ → Option σ) : σ → List ℓ → Prop
  | _, [] => True
  | s, l :: ls => ∀ s' ∈ step s l, ok s l ∧ Along ok step s' ls

/-- When a step from a state with the property keeps it exactly if `ok` admits the step, a run
has the property throughout exactly if all its steps are admitted. The invariant `I` holds in every
state of a run, admitted or not. -/
theorem throughout_iff_along_of {P I : σ → Prop} {step : σ → ℓ → Option σ} {ok : σ → ℓ → Prop}
    (hinv : ∀ s l s', I s → step s l = some s' → I s')
    (hstep : ∀ s l s', I s → P s → step s l = some s' → (P s' ↔ ok s l)) {s : σ} (hI : I s)
    (hs : P s) (ls : List ℓ) : Throughout P step s ls ↔ Along ok step s ls := by
  induction ls generalizing s with
  | nil => exact iff_of_true hs trivial
  | cons l ls ih =>
    have hafter : ∀ s' ∈ step s l, Throughout P step s' ls ↔ ok s l ∧ Along ok step s' ls := by
      intro s' hl
      have hI' := hinv s l s' hI hl
      have hiff := hstep s l s' hI hs hl
      constructor
      · intro hrest
        exact ⟨hiff.mp hrest.head, (ih hI' hrest.head).mp hrest⟩
      · intro hrest
        exact (ih hI' (hiff.mpr hrest.1)).mpr hrest.2
    rw [Throughout, Along, and_iff_right hs]
    exact forall₂_congr hafter

theorem throughout_iff_along {P : σ → Prop} {step : σ → ℓ → Option σ} {ok : σ → ℓ → Prop}
    (hstep : ∀ s l s', P s → step s l = some s' → (P s' ↔ ok s l)) {s : σ} (hs : P s)
    (ls : List ℓ) : Throughout P step s ls ↔ Along ok step s ls :=
  @throughout_iff_along_of _ _ P (fun _ => True) step ok (fun _ _ _ _ _ => trivial)
    (fun s l s' _ => hstep s l s') s trivial hs ls

end Machine

end Natc.Lib
