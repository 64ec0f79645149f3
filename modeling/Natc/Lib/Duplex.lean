import Mathlib.Logic.Relation

/-!
# Two peers over a connection

A peer is a sequential program that sends bytes and waits for bytes. Two peers are connected by two
pipes, one in each direction; their moves interleave freely. Since the peers are deterministic and
a pipe is read at one end only, the moves of the two commute. So one complete run settles what all
runs come to.
-/

namespace Natc.Lib

open Relation

/-- A stretch of a program: it sends, and at its end it waits at a label. -/
inductive Code (α ι : Type) where
  | await (l : ι)
  | send (bs : List α) (next : Code α ι)

/-- The label at the end of a stretch. -/
def Code.label {α ι : Type} : Code α ι → ι
  | .await l => l
  | .send _ next => next.label

/-- A program by its labels: how many bytes it waits for there and how it goes on with them. At a
label without an entry it has ended. -/
structure Peer (α : Type) where
  Label : Type
  recv : Label → Option (Int × (List α → Code α Label))

variable {α : Type}

/-- One move of a peer: its inbox before and after, and what it sends. -/
inductive Peer.Move (p : Peer α) :
    Code α p.Label → List α → List α → Code α p.Label → List α → Prop where
  | send (bs : List α) (c : Code α p.Label) (inbox : List α) :
      Move p (.send bs c) inbox bs c inbox
  | recv (l : p.Label) (bs inbox : List α) (k : List α → Code α p.Label)
      (h : p.recv l = some ((bs.length : Int), k)) : Move p (.await l) (bs ++ inbox) [] (k bs) inbox

/-- The peer has ended. -/
def Peer.Ended (p : Peer α) (c : Code α p.Label) : Prop :=
  ∃ l, c = .await l ∧ p.recv l = none

/-- Two peers and the bytes under way to each. -/
structure Link (p q : Peer α) where
  left : Code α p.Label
  right : Code α q.Label
  toRight : List α
  toLeft : List α

namespace Link

variable {p q : Peer α}

inductive LeftStep : List α → Link p q → Link p q → Prop where
  | mk {s s' inbox inbox' out} (t : Code α q.Label) (toRight : List α)
      (h : p.Move s inbox out s' inbox') :
      LeftStep out ⟨s, t, toRight, inbox⟩ ⟨s', t, toRight ++ out, inbox'⟩

inductive RightStep : List α → Link p q → Link p q → Prop where
  | mk {t t' inbox inbox' out} (s : Code α p.Label) (toLeft : List α)
      (h : q.Move t inbox out t' inbox') :
      RightStep out ⟨s, t, inbox, toLeft⟩ ⟨s, t', inbox', toLeft ++ out⟩

def Step (c d : Link p q) : Prop := (∃ out, LeftStep out c d) ∨ ∃ out, RightStep out c d

/-- The moves of the left peer alone. -/
def LeftRun : Link p q → Link p q → Prop := ReflTransGen fun c d => ∃ out, LeftStep out c d

/-- Any number of moves in any order. -/
def Reach : Link p q → Link p q → Prop := ReflTransGen Step

/-- No peer can move. -/
def Quiescent (c : Link p q) : Prop := ∀ d, ¬ Step c d

section Commute

private theorem Move.append {p : Peer α} {s s' : Code α p.Label} {inbox inbox' out : List α}
    (h : p.Move s inbox out s' inbox') (x : List α) :
    p.Move s (inbox ++ x) out s' (inbox' ++ x) := by
  cases h with
  | send bs c inbox => exact .send _ _ _
  | recv l bs inbox k hk =>
    rw [List.append_assoc]
    exact .recv l bs _ k hk

private theorem Move.unique {p : Peer α} {s s₁ s₂ : Code α p.Label}
    {inbox inbox₁ inbox₂ out₁ out₂ : List α} (h₁ : p.Move s inbox out₁ s₁ inbox₁)
    (h₂ : p.Move s inbox out₂ s₂ inbox₂) : out₁ = out₂ ∧ s₁ = s₂ ∧ inbox₁ = inbox₂ := by
  cases h₁ with
  | send bs c inbox =>
    cases h₂
    exact ⟨rfl, rfl, rfl⟩
  | recv l bs inbox k hk =>
    generalize hin : bs ++ inbox₁ = inbox at h₂
    cases h₂ with
    | recv _ bs' _ k' hk' =>
      obtain ⟨hlen, rfl⟩ : (bs.length : Int) = bs'.length ∧ k = k' := by simpa [hk] using hk'
      obtain ⟨rfl, rfl⟩ := List.append_inj hin (by exact_mod_cast hlen)
      exact ⟨rfl, rfl, rfl⟩

theorem LeftStep.unique {c d₁ d₂ : Link p q} {out₁ out₂ : List α} (h₁ : LeftStep out₁ c d₁)
    (h₂ : LeftStep out₂ c d₂) : d₁ = d₂ := by
  cases h₁ with
  | mk t toRight h₁ =>
    cases h₂ with
    | mk _ _ h₂ =>
      obtain ⟨rfl, rfl, rfl⟩ := Move.unique h₁ h₂
      rfl

theorem RightStep.unique {c d₁ d₂ : Link p q} {out₁ out₂ : List α} (h₁ : RightStep out₁ c d₁)
    (h₂ : RightStep out₂ c d₂) : out₁ = out₂ ∧ d₁ = d₂ := by
  cases h₁ with
  | mk s toLeft h₁ =>
    cases h₂ with
    | mk _ _ h₂ =>
      obtain ⟨rfl, rfl, rfl⟩ := Move.unique h₁ h₂
      exact ⟨rfl, rfl⟩

/-- The moves of the two peers commute. -/
theorem step_commute {c a b : Link p q} {out out' : List α} (ha : LeftStep out c a)
    (hb : RightStep out' c b) : ∃ d, RightStep out' a d ∧ LeftStep out b d := by
  cases ha with
  | mk t toRight ha =>
    cases hb with
    | mk s toLeft hb => exact ⟨_, .mk _ _ (Move.append hb _), .mk _ _ (Move.append ha _)⟩

end Commute

section Complete

/-- All runs lead to the place where one of them comes to rest. -/
theorem reach_quiescent {c d e : Link p q} (he : Reach c e) (hq : Quiescent e) (hd : Reach c d) :
    Reach d e := by
  have hdiamond : ∀ a b c : Link p q, Step a b → Step a c →
      ∃ d, ReflGen Step b d ∧ ReflTransGen Step c d := by
    rintro a b c (⟨_, hb⟩ | ⟨_, hb⟩) (⟨_, hc⟩ | ⟨_, hc⟩)
    · rw [hb.unique hc]
      exact ⟨c, .refl, .refl⟩
    · obtain ⟨d, h₁, h₂⟩ := step_commute hb hc
      exact ⟨d, .single (.inr ⟨_, h₁⟩), .single (.inl ⟨_, h₂⟩)⟩
    · obtain ⟨d, h₁, h₂⟩ := step_commute hc hb
      exact ⟨d, .single (.inl ⟨_, h₂⟩), .single (.inr ⟨_, h₁⟩)⟩
    · rw [(hb.unique hc).2]
      exact ⟨c, .refl, .refl⟩
  obtain ⟨f, hdf, hef⟩ := church_rosser hdiamond hd he
  rcases ReflTransGen.cases_head hef with rfl | ⟨g, hg, _⟩
  · exact hdf
  · exact absurd hg (hq g)

private theorem LeftRun.step {c d e : Link p q} (h : LeftRun c e) (hq : Quiescent e)
    (hd : Step c d) : LeftRun d e := by
  induction h using ReflTransGen.head_induction_on generalizing d with
  | refl => exact absurd hd (hq d)
  | head hcb hbe ih =>
    obtain ⟨out, hcb⟩ := hcb
    rcases hd with ⟨_, hd⟩ | ⟨_, hd⟩
    · rw [hd.unique hcb]
      exact hbe
    · obtain ⟨f, hbf, hdf⟩ := step_commute hcb hd
      exact .head ⟨_, hdf⟩ (ih (.inr ⟨_, hbf⟩))

/-- A run to `e` in which the last move of the right peer sends something. -/
def Answered (e c : Link p q) : Prop :=
  ∃ a b out, Reach c a ∧ RightStep out a b ∧ out ≠ [] ∧ LeftRun b e

theorem Answered.of_reach {c d e : Link p q} (hcd : Reach c d) (h : Answered e d) :
    Answered e c := by
  obtain ⟨a, b, out, ha, hab, hout, hb⟩ := h
  exact ⟨a, b, out, hcd.trans ha, hab, hout, hb⟩

theorem Answered.reach {c e : Link p q} (h : Answered e c) : Reach c e := by
  obtain ⟨a, b, out, ha, hab, _, hb⟩ := h
  have hreach : Reach b e := ReflTransGen.mono (fun _ _ h => Or.inl h) _ _ hb
  exact (ha.tail (.inr ⟨_, hab⟩)).trans hreach

private theorem Answered.left {c d e : Link p q} {out : List α} (h : Answered e c)
    (hq : Quiescent e) (hd : LeftStep out c d) : Answered e d := by
  obtain ⟨a, b, out, ha, hab, hout, hb⟩ := h
  induction ha using ReflTransGen.head_induction_on generalizing d with
  | refl =>
    obtain ⟨f, hdf, hbf⟩ := step_commute hd hab
    exact ⟨d, f, out, .refl, hdf, hout, LeftRun.step hb hq (.inl ⟨_, hbf⟩)⟩
  | head hcg hga ih =>
    rcases hcg with ⟨_, hcg⟩ | ⟨_, hcg⟩
    · rw [hd.unique hcg]
      exact ⟨a, b, out, hga, hab, hout, hb⟩
    · obtain ⟨f, hdf, hgf⟩ := step_commute hd hcg
      exact .of_reach (.single (.inr ⟨_, hdf⟩)) (ih hgf)

private theorem Answered.right {c d e : Link p q} {out : List α} (h : Answered e c)
    (hd : RightStep out c d) : Answered e d ∨ LeftRun d e := by
  obtain ⟨a, b, out, ha, hab, hout, hb⟩ := h
  induction ha using ReflTransGen.head_induction_on generalizing d with
  | refl =>
    rw [(hd.unique hab).2]
    exact .inr hb
  | head hcg hga ih =>
    rcases hcg with ⟨_, hcg⟩ | ⟨_, hcg⟩
    · obtain ⟨f, hgf, hdf⟩ := step_commute hcg hd
      rcases ih hgf with h | h
      · exact .inl (.of_reach (.single (.inl ⟨_, hdf⟩)) h)
      · exact .inr (.head ⟨_, hdf⟩ h)
    · rw [(hd.unique hcg).2]
      exact .inl ⟨a, b, out, hga, hab, hout, hb⟩

private theorem not_leftStep {c d : Link p q} {out : List α} (hend : p.Ended c.left) :
    ¬ LeftStep out c d := by
  rintro ⟨t, toRight, h⟩
  obtain ⟨l, hl, hnone⟩ := hend
  cases h with
  | send => cases hl
  | recv l bs inbox k hk =>
    cases hl
    rw [hk] at hnone
    cases hnone

private theorem LeftRun.eq_of_ended {c e : Link p q} (h : LeftRun c e) (hend : p.Ended c.left) :
    c = e := by
  rcases ReflTransGen.cases_head h with h | ⟨d, ⟨_, hd⟩, _⟩
  · exact h
  · exact absurd hd (not_leftStep hend)

/-- A peer that has ended stays as it is. -/
theorem left_of_ended {c e : Link p q} (h : Reach c e) (hend : p.Ended c.left) :
    e.left = c.left := by
  induction h with
  | refl => rfl
  | tail _ hstep ih =>
    rcases hstep with ⟨_, hstep⟩ | ⟨_, hstep⟩
    · exact absurd hstep (not_leftStep (ih ▸ hend))
    · cases hstep
      exact ih

/-- If one run comes to rest with nothing left for the left peer, and the last move of the right
peer sends something, then the left peer has not ended anywhere else. -/
theorem eq_of_ended {c d e : Link p q} (h : Answered e c) (hq : Quiescent e)
    (hread : e.toLeft = []) (hd : Reach c d) (hend : p.Ended d.left) : d = e := by
  have hkeep : Answered e d ∨ LeftRun d e := by
    clear hend
    induction hd with
    | refl => exact .inl h
    | tail _ hstep ih =>
      rcases ih with ih | ih
      · rcases hstep with ⟨_, hstep⟩ | ⟨_, hstep⟩
        · exact .inl (ih.left hq hstep)
        · exact ih.right hstep
      · exact .inr (LeftRun.step ih hq hstep)
  rcases hkeep with ⟨a, b, out, ha, hab, hout, hb⟩ | hrun
  · have hleft := left_of_ended ha hend
    cases hab with
    | mk s toLeft hmove =>
      replace hleft : s = d.left := hleft
      obtain rfl := LeftRun.eq_of_ended hb (hleft ▸ hend)
      exact absurd (List.append_eq_nil_iff.mp hread).2 hout
  · exact LeftRun.eq_of_ended hrun hend

/-- Every run in which the left peer ends comes to `e`. -/
structure Settles (c e : Link p q) : Prop where
  reach : Reach c e
  unique : ∀ d, Reach c d → p.Ended d.left → d = e

theorem Settles.of_answered {c e : Link p q} (h : Answered e c) (hq : Quiescent e)
    (hread : e.toLeft = []) : Settles c e :=
  ⟨h.reach, fun _ hd hend => eq_of_ended h hq hread hd hend⟩

theorem Settles.of_quiescent {c : Link p q} (hq : Quiescent c) : Settles c c := by
  refine ⟨.refl, fun d hd _ => ?_⟩
  rcases ReflTransGen.cases_head hd with h | ⟨d, hstep, _⟩
  · exact h.symm
  · exact absurd hstep (hq d)

end Complete

section Messages

variable {s : Code α p.Label} {t : Code α q.Label} {bs toRight toLeft : List α} {d : Link p q}

/-- A message to the right peer, which waits for it. -/
theorem reach_messageRight {l : q.Label} {n : Int} {k : List α → Code α q.Label}
    (hrecv : q.recv l = some (n, k)) (hn : n = bs.length)
    (h : Reach ⟨s, k bs, [], toLeft⟩ d) : Reach ⟨.send bs s, .await l, [], toLeft⟩ d := by
  subst hn
  have hsend : Step ⟨.send bs s, .await l, [], toLeft⟩ (⟨s, .await l, bs ++ [], toLeft⟩ : Link p q) :=
    .inl ⟨bs, by simpa using LeftStep.mk (q := q) (.await l) [] (.send bs s toLeft)⟩
  have hget : Step (⟨s, .await l, bs ++ [], toLeft⟩ : Link p q) ⟨s, k bs, [], toLeft⟩ :=
    .inr ⟨[], by simpa using RightStep.mk (p := p) s toLeft (.recv l bs [] k hrecv)⟩
  exact .head hsend (.head hget h)

/-- A message to the left peer, which waits for it. -/
theorem reach_messageLeft {l : p.Label} {n : Int} {k : List α → Code α p.Label}
    (hrecv : p.recv l = some (n, k)) (hn : n = bs.length)
    (h : Reach ⟨k bs, t, toRight, []⟩ d) : Reach ⟨.await l, .send bs t, toRight, []⟩ d := by
  subst hn
  have hsend : Step (⟨.await l, .send bs t, toRight, []⟩ : Link p q) ⟨.await l, t, toRight, bs ++ []⟩ :=
    .inr ⟨bs, by simpa using RightStep.mk (p := p) (.await l) [] (.send bs t toRight)⟩
  have hget : Step (⟨.await l, t, toRight, bs ++ []⟩ : Link p q) ⟨k bs, t, toRight, []⟩ :=
    .inl ⟨[], by simpa using LeftStep.mk (q := q) t toRight (.recv l bs [] k hrecv)⟩
  exact .head hsend (.head hget h)

theorem reach_sendRight (h : Reach ⟨s, t, toRight, toLeft ++ bs⟩ d) :
    Reach ⟨s, .send bs t, toRight, toLeft⟩ d :=
  .head (.inr ⟨bs, .mk s toLeft (.send bs t toRight)⟩) h

theorem leftRun_recv {l : p.Label} {n : Int} {k : List α → Code α p.Label}
    (hrecv : p.recv l = some (n, k)) (hn : n = bs.length)
    (h : LeftRun ⟨k bs, t, toRight, toLeft⟩ d) :
    LeftRun ⟨.await l, t, toRight, bs ++ toLeft⟩ d := by
  subst hn
  refine .head ⟨[], ?_⟩ h
  simpa using LeftStep.mk (q := q) t toRight (.recv l bs toLeft k hrecv)

/-- The last message of the right peer; what the left peer still reads leads to `d`. -/
theorem answered_message {l : p.Label} {n : Int} {k : List α → Code α p.Label}
    (hrecv : p.recv l = some (n, k)) (hn : n = bs.length) (hbs : bs ≠ [])
    (h : LeftRun ⟨k bs, t, toRight, []⟩ d) :
    Answered d ⟨.await l, .send bs t, toRight, []⟩ := by
  have hsend : RightStep bs (⟨.await l, .send bs t, toRight, []⟩ : Link p q)
      ⟨.await l, t, toRight, bs ++ []⟩ := by
    simpa using RightStep.mk (p := p) (.await l) [] (.send bs t toRight)
  exact ⟨_, _, bs, .refl, hsend, hbs, leftRun_recv hrecv hn h⟩

/-- Nothing is left to send or to read. -/
theorem quiescent_of_blocked {l : p.Label} {m : q.Label}
    (hl : ∀ n k, p.recv l = some (n, k) → n < 0 ∨ (toLeft.length : Int) < n)
    (hm : ∀ n k, q.recv m = some (n, k) → n < 0 ∨ (toRight.length : Int) < n) :
    Quiescent (⟨.await l, .await m, toRight, toLeft⟩ : Link p q) := by
  rintro d (⟨_, ⟨_, _, h⟩⟩ | ⟨_, ⟨_, _, h⟩⟩)
  · cases h with
    | recv _ bs inbox k hk =>
      have := hl _ _ hk
      simp at this
      omega
  · cases h with
    | recv _ bs inbox k hk =>
      have := hm _ _ hk
      simp at this
      omega

end Messages

end Link

end Natc.Lib
