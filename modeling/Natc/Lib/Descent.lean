import Mathlib.Data.Fintype.Card
import Mathlib.Data.Set.Finite.Lattice
import Mathlib.Logic.Relation

/-!
# Recursion along a relation

A recursion that calls itself for every successor of its argument returns when no chain of calls is
too deep. Where only finitely many arguments are admissible, this is so exactly when no argument
that is reached is its own descendant.
-/

namespace Natc.Lib

open Relation

variable {α : Type*} (r : α → α → Prop) (good : α → Prop)

/-- All calls from `a` on are good, and no chain of calls is longer than `n`. -/
def Within : Nat → α → Prop
  | 0, _ => False
  | n + 1, a => good a ∧ ∀ b, r a b → Within n b

variable {r good}

theorem Within.mono {n k : Nat} {a : α} (h : Within r good n a) (hle : n ≤ k) :
    Within r good k a := by
  induction n generalizing k a with
  | zero => exact h.elim
  | succ n ih =>
    cases k with
    | zero => omega
    | succ k =>
      refine ⟨h.1, ?_⟩
      intro b hb
      exact ih (h.2 b hb) (by omega)

theorem Within.of_reach {n : Nat} {a b : α} (h : Within r good n a) (hab : ReflTransGen r a b) :
    Within r good n b := by
  induction hab with
  | refl => exact h
  | tail _ hbc ih =>
    cases n with
    | zero => exact ih.elim
    | succ n => exact (ih.2 _ hbc).mono (Nat.le_succ n)

theorem Within.isGood {n : Nat} {a : α} (h : Within r good n a) : good a := by
  cases n with
  | zero => exact h.elim
  | succ n => exact h.1

theorem Within.acc {n : Nat} {a : α} (h : Within r good n a) : Acc (flip r) a := by
  induction n generalizing a with
  | zero => exact h.elim
  | succ n ih =>
    apply Acc.intro
    intro b hb
    exact ih (h.2 b hb)

theorem exists_within_of_acc (hfin : ∀ a, {b | r a b}.Finite) {a : α} (hacc : Acc (flip r) a)
    (hgood : ∀ b, ReflTransGen r a b → good b) : ∃ n, Within r good n a := by
  induction hacc with
  | intro a _ ih =>
    have hnext : ∀ b ∈ {b | r a b}, ∃ n, Within r good n b := by
      intro b hb
      apply ih b hb
      intro c hc
      exact hgood c (.head hb hc)
    choose! depth hdepth using hnext
    obtain ⟨bound, hbound⟩ := ((hfin a).image depth).bddAbove
    refine ⟨bound + 1, hgood a .refl, ?_⟩
    intro b hb
    exact (hdepth b hb).mono (hbound ⟨b, hb, rfl⟩)

theorem not_cycle_of_acc {a : α} (hacc : Acc (flip r) a) : ¬ TransGen r a a := by
  have htrans : Acc (TransGen (flip r)) a := hacc.transGen
  clear hacc
  induction htrans with
  | intro a _ ih =>
    intro hcycle
    exact ih a (transGen_swap.mpr hcycle) hcycle

theorem acc_of_no_cycle (hfin : {a | good a}.Finite) {a : α}
    (hgood : ∀ b, ReflTransGen r a b → good b)
    (hcycle : ∀ b, ReflTransGen r a b → ¬ TransGen r b b) : Acc (flip r) a := by
  let Reached := {b // ReflTransGen r a b}
  have : Finite Reached := hfin.subset hgood
  let after : Reached → Reached → Prop := fun c b => TransGen r b.1 c.1
  have : IsTrans Reached after := ⟨fun _ _ _ hcb hba => hba.trans hcb⟩
  have : Std.Irrefl after := ⟨fun b => hcycle b.1 b.2⟩
  have hwf : WellFounded after := Finite.wellFounded_of_trans_of_irrefl after
  have hacc : ∀ b : Reached, Acc (flip r) b.1 := by
    intro b
    induction b using hwf.induction with
    | _ b ih =>
      apply Acc.intro
      intro c hbc
      exact ih ⟨c, b.2.tail hbc⟩ (.single hbc)
  exact hacc ⟨a, .refl⟩

/-- Where only finitely many arguments are good, the calls from `a` on end if and only if all of them
are good and none is its own descendant. -/
theorem exists_within_iff (hfin : ∀ a, {b | r a b}.Finite) (hgood : {a | good a}.Finite) (a : α) :
    (∃ n, Within r good n a) ↔ ∀ b, ReflTransGen r a b → good b ∧ ¬ TransGen r b b := by
  constructor
  · rintro ⟨n, h⟩
    intro b hab
    have hb := h.of_reach hab
    exact ⟨hb.isGood, not_cycle_of_acc hb.acc⟩
  · intro h
    have hall : ∀ b, ReflTransGen r a b → good b := fun b hab => (h b hab).1
    exact exists_within_of_acc hfin (acc_of_no_cycle hgood hall fun b hab => (h b hab).2) hall

end Natc.Lib
