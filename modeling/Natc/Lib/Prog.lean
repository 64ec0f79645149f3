import Mathlib.Logic.Basic

/-!
# Programs that may not return

A program changes a state and returns a value, or it waits for ever, or it touches memory that is
not there. `Releases` is the discipline of a resource that a program takes and gives back: the
condition under which it is free again at every return.
-/

namespace Natc.Lib

inductive Ending (σ α : Type) where
  | returned (a : α) (s : σ)
  /-- It waits for something that never comes. -/
  | blocked
  /-- It has touched memory that is not there. -/
  | faulted
  deriving DecidableEq

namespace Ending

variable {σ α : Type}

/-- It returns, and with the property. -/
def Sat (Q : α → σ → Prop) : Ending σ α → Prop
  | returned a s => Q a s
  | blocked | faulted => False

/-- The state it returns in, if it returns, has the property. -/
def Leaves (P : σ → Prop) : Ending σ α → Prop
  | returned _ s => P s
  | blocked | faulted => True

/-- It touches no memory that is not there, and where it returns the property holds. -/
def Safe (Q : α → σ → Prop) : Ending σ α → Prop
  | returned a s => Q a s
  | blocked => True
  | faulted => False

theorem Safe.mono {P Q : α → σ → Prop} {e : Ending σ α} (h : e.Safe P)
    (hPQ : ∀ a s, P a s → Q a s) : e.Safe Q := by
  cases e with
  | returned a s => exact hPQ a s h
  | blocked => trivial
  | faulted => exact h

end Ending

def Prog (σ α : Type) := σ → Ending σ α

namespace Prog

variable {σ α β : Type}

instance : Monad (Prog σ) where
  pure a := fun s => .returned a s
  bind m f := fun s => match m s with
    | .returned a s' => f a s'
    | .blocked => .blocked
    | .faulted => .faulted

def state : Prog σ σ := fun s => .returned s s

def update (f : σ → σ) : Prog σ Unit := fun s => .returned () (f s)

def fault : Prog σ α := fun _ => .faulted

@[simp] theorem pure_apply (a : α) (s : σ) : (pure a : Prog σ α) s = .returned a s := rfl

@[simp] theorem state_apply (s : σ) : state s = .returned s s := rfl

@[simp] theorem update_apply (f : σ → σ) (s : σ) : update f s = .returned () (f s) := rfl

theorem bind_returned {m : Prog σ α} {f : α → Prog σ β} {s s' : σ} {a : α}
    (h : m s = .returned a s') : (m >>= f) s = f a s' := by
  change (match m s with | .returned a s' => f a s' | .blocked => .blocked | .faulted => .faulted) =
    f a s'
  rw [h]

theorem bind_blocked {m : Prog σ α} {f : α → Prog σ β} {s : σ} (h : m s = .blocked) :
    (m >>= f) s = .blocked := by
  change (match m s with | .returned a s' => f a s' | .blocked => .blocked | .faulted => .faulted) =
    .blocked
  rw [h]

@[simp] theorem state_bind (f : σ → Prog σ β) (s : σ) : (state >>= f) s = f s s := rfl

@[simp] theorem update_bind (g : σ → σ) (f : Unit → Prog σ β) (s : σ) :
    (update g >>= f) s = f () (g s) := rfl

@[simp] theorem pure_bind_apply (a : α) (f : α → Prog σ β) (s : σ) :
    ((pure a : Prog σ α) >>= f) s = f a s := rfl

/-- What every return leaves behind goes through the rest of the program. -/
theorem leaves_bind {P Q : σ → Prop} {m : Prog σ α} {f : α → Prog σ β} {s : σ}
    (hm : (m s).Leaves P) (hf : ∀ a s', P s' → (f a s').Leaves Q) : ((m >>= f) s).Leaves Q := by
  change Ending.Leaves Q (match m s with
    | .returned a s' => f a s' | .blocked => .blocked | .faulted => .faulted)
  cases h : m s with
  | returned a s' =>
    rw [h] at hm
    exact hf a s' hm
  | blocked => trivial
  | faulted => trivial

/-- A program that can only come to states from which the rest fails, fails. -/
theorem not_sat_bind {P : σ → Prop} {Q : β → σ → Prop} {m : Prog σ α} {f : α → Prog σ β} {s : σ}
    (hm : (m s).Leaves P) (hf : ∀ a s', P s' → ¬ (f a s').Sat Q) : ¬ ((m >>= f) s).Sat Q := by
  change ¬ Ending.Sat Q (match m s with
    | .returned a s' => f a s' | .blocked => .blocked | .faulted => .faulted)
  cases h : m s with
  | returned a s' =>
    rw [h] at hm
    exact hf a s' hm
  | blocked => exact id
  | faulted => exact id

/-- The rest of a program that leaves the property as it finds it. -/
theorem sat_bind_iff {P : σ → Prop} {m : Prog σ α} {f : α → Prog σ β} {s : σ}
    (hf : ∀ a s', ((f a s').Sat fun _ t => P t) ↔ P s') :
    (((m >>= f) s).Sat fun _ t => P t) ↔ (m s).Sat fun _ t => P t := by
  change (Ending.Sat (fun _ t => P t) (match m s with
    | .returned a s' => f a s' | .blocked => .blocked | .faulted => .faulted)) ↔ _
  cases m s with
  | returned a s' => exact hf a s'
  | blocked => exact Iff.rfl
  | faulted => exact Iff.rfl

/-- Without what it returns, a program ends as it does with it. -/
theorem sat_discard {Q : σ → Prop} (m : Prog σ α) (s : σ) :
    ((m >>= fun _ => (pure () : Prog σ Unit)) s).Sat (fun _ s' => Q s') ↔
      (m s).Sat fun _ s' => Q s' :=
  sat_bind_iff fun _ _ => Iff.rfl

theorem safe_bind_iff {Q : β → σ → Prop} {m : Prog σ α} {f : α → Prog σ β} {s : σ} :
    ((m >>= f) s).Safe Q ↔ (m s).Safe fun a t => (f a t).Safe Q := by
  change Ending.Safe Q (match m s with
    | .returned a s' => f a s' | .blocked => .blocked | .faulted => .faulted) ↔ _
  cases m s <;> exact Iff.rfl

/-- The program does not fault, and leaves this part of the state as it is. -/
def Keeps {γ : Type} (part : σ → γ) (m : Prog σ α) : Prop :=
  ∀ s, (m s).Safe fun _ t => part t = part s

namespace Keeps

variable {γ : Type} {part : σ → γ} {m : Prog σ α}

theorem pure (a : α) : Keeps part (Pure.pure a : Prog σ α) := fun _ => rfl

theorem update {f : σ → σ} (h : ∀ s, part (f s) = part s) : Keeps part (Prog.update f) := h

theorem andThen {k : α → Prog σ β} (hm : Keeps part m) (hk : ∀ a, Keeps part (k a)) :
    Keeps part (m >>= k) := by
  intro s
  rw [safe_bind_iff]
  refine (hm s).mono fun a t ht => ?_
  refine (hk a t).mono fun _ u hu => ?_
  exact hu.trans ht

theorem look {f : σ → Prog σ β} (h : ∀ t, Keeps part (f t)) : Keeps part (state >>= f) :=
  fun s => h s s

theorem ite {p : Prop} [Decidable p] {k : Prog σ α} (hm : Keeps part m) (hk : Keeps part k) :
    Keeps part (if p then m else k) := by
  by_cases hp : p
  · rwa [if_pos hp]
  · rwa [if_neg hp]

end Keeps

/-- From a state in which the resource is free, `m` returns in the state `u s` with the resource
free when `c s` holds; otherwise the resource is held wherever it returns. Once held, it stays. -/
structure Releases (held : σ → Prop) (m : Prog σ α) (c : σ → Prop) (u : σ → σ) : Prop where
  free : ∀ s, ¬ held s → c s → (∃ a, m s = .returned a (u s)) ∧ ¬ held (u s)
  lost : ∀ s, ¬ held s → ¬ c s → (m s).Leaves held
  stays : ∀ s, held s → (m s).Leaves held

namespace Releases

variable {held : σ → Prop} {m : Prog σ α} {c : σ → Prop} {u : σ → σ}

theorem pure (a : α) : Releases held (Pure.pure a : Prog σ α) (fun _ => True) id where
  free _ hs _ := ⟨⟨a, rfl⟩, hs⟩
  lost _ _ h := absurd trivial h
  stays _ hs := hs

/-- A change of the state that leaves the resource alone. -/
theorem update {f : σ → σ} (hf : ∀ s, held (f s) ↔ held s) :
    Releases held (Prog.update f) (fun _ => True) f where
  free s hs _ := ⟨⟨(), rfl⟩, fun h => hs ((hf s).mp h)⟩
  lost _ _ h := absurd trivial h
  stays s hs := (hf s).mpr hs

theorem fault : Releases held (Prog.fault : Prog σ α) (fun _ => False) id where
  free _ _ h := h.elim
  lost _ _ _ := trivial
  stays _ _ := trivial

/-- One program after another. -/
theorem andThen {k : α → Prog σ β} {d : σ → Prop} {v : σ → σ} (hm : Releases held m c u)
    (hk : ∀ a, Releases held (k a) d v) :
    Releases held (m >>= k) (fun s => c s ∧ d (u s)) (v ∘ u) where
  free s hs h := by
    obtain ⟨⟨a, hma⟩, hu⟩ := hm.free s hs h.1
    rw [bind_returned hma]
    exact (hk a).free (u s) hu h.2
  lost s hs h := by
    by_cases hc : c s
    · obtain ⟨⟨a, hma⟩, hu⟩ := hm.free s hs hc
      rw [bind_returned hma]
      exact (hk a).lost (u s) hu fun hd => h ⟨hc, hd⟩
    · exact leaves_bind (hm.lost s hs hc) fun a s' hs' => (hk a).stays s' hs'
  stays s hs := leaves_bind (hm.stays s hs) fun a s' hs' => (hk a).stays s' hs'

/-- The program that is chosen by looking at the state. -/
theorem look {f : σ → Prog σ β} {d : σ → σ → Prop} {v : σ → σ → σ}
    (h : ∀ t, Releases held (f t) (d t) (v t)) :
    Releases held (state >>= f) (fun s => d s s) (fun s => v s s) where
  free s := (h s).free s
  lost s := (h s).lost s
  stays s := (h s).stays s

theorem exists_look {f : σ → Prog σ β} {d : σ → σ → Prop}
    (h : ∀ t, ∃ v, Releases held (f t) (d t) v) :
    ∃ v, Releases held (state >>= f) (fun s => d s s) v :=
  ⟨_, look fun t => (h t).choose_spec⟩

theorem ite {p : Prop} [Decidable p] {k : Prog σ α} {d : σ → Prop} {v : σ → σ}
    (hm : p → Releases held m c u) (hk : ¬ p → Releases held k d v) :
    Releases held (if p then m else k) (fun s => if p then c s else d s)
      (fun s => if p then u s else v s) := by
  by_cases hp : p
  · simpa only [if_pos hp] using hm hp
  · simpa only [if_neg hp] using hk hp

theorem congr {d : σ → Prop} {v : σ → σ} (h : Releases held m c u) (hc : ∀ s, c s ↔ d s)
    (hu : ∀ s, c s → u s = v s) : Releases held m d v where
  free s hs hd := by
    have hcs := (hc s).mpr hd
    rw [← hu s hcs]
    exact h.free s hs hcs
  lost s hs hd := h.lost s hs fun hcs => hd ((hc s).mp hcs)
  stays := h.stays

end Releases

end Prog

end Natc.Lib
