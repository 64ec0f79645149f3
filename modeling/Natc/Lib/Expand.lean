import Mathlib.Data.List.Nodup
import Natc.Lib.Text

/-!
# References in a text

A reference is a mark and a name. All references of a text can be expanded at once, the longest
name first at each mark, or one name can be replaced after the other. The module says when both
come to the same.
-/

namespace Natc.Lib.Expand

variable {α : Type*}

/-- A name and its value. -/
abbrev Binding (α : Type*) := List α × List α

section Definitions

variable (mark : α)

/-- The reference to a name. -/
def Binding.ref (b : Binding α) : List α := mark :: b.1

theorem Binding.ref_ne_nil (b : Binding α) : b.ref mark ≠ [] := List.cons_ne_nil _ _

variable [DecidableEq α]

/-- The first of the longest names whose reference stands at the front of a text. -/
def longest : List (Binding α) → List α → Option (Binding α)
  | [], _ => none
  | b :: bindings, s =>
      if b.ref mark <+: s ∧ (longest bindings s).all (fun a => a.1.length ≤ b.1.length) = true then
        some b
      else longest bindings s

/-- A text cut into its references and its other characters. -/
inductive Piece (α : Type*) where
  | plain (c : α)
  | named (b : Binding α)
  deriving DecidableEq

def Piece.source : Piece α → List α
  | plain c => [c]
  | named b => b.ref mark

def Piece.value : Piece α → List α
  | plain c => [c]
  | named b => b.2

/-- The scan behind `pieces`: `skip` characters of the current reference are still to be dropped. -/
def piecesFrom (bindings : List (Binding α)) : Nat → List α → List (Piece α)
  | _, [] => []
  | skip + 1, _ :: cs => piecesFrom bindings skip cs
  | 0, c :: cs =>
      match longest mark bindings (c :: cs) with
      | some b => .named b :: piecesFrom bindings b.1.length cs
      | none => .plain c :: piecesFrom bindings 0 cs

def pieces (bindings : List (Binding α)) (s : List α) : List (Piece α) :=
  piecesFrom mark bindings 0 s

/-- Every reference becomes the value of its name; the values are not looked at again. -/
def expandAll (bindings : List (Binding α)) (s : List α) : List α :=
  (pieces mark bindings s).flatMap Piece.value

/-- One name after the other. -/
def replaceEach (bindings : List (Binding α)) (s : List α) : List α :=
  bindings.foldl (fun s b => replaceAll (b.ref mark) b.2 s) s

/-- What stands for a piece when the names of `done` are expanded. -/
def Piece.during (done : List (Binding α)) : Piece α → List α
  | plain c => [c]
  | named b => if b ∈ done then b.2 else b.ref mark

def during (done : List (Binding α)) (ps : List (Piece α)) : List α :=
  ps.flatMap (Piece.during mark done)

/-- With the names of `done` expanded, the reference to a name stands only where the text has a
reference to it. -/
def Clear (done : List (Binding α)) (b : Binding α) : List (Piece α) → Prop
  | [] => True
  | p :: ps =>
      (p = .named b ∧ b ∉ done ∨
        ∀ k < (p.during mark done).length, ¬b.ref mark <+: (during mark done (p :: ps)).drop k) ∧
        Clear done b ps

/-- The same for each name at its turn. -/
def Apart (ps : List (Piece α)) : List (Binding α) → List (Binding α) → Prop
  | _, [] => True
  | done, b :: bindings => Clear mark done b ps ∧ Apart ps (b :: done) bindings

instance (done : List (Binding α)) (b : Binding α) : DecidablePred (Clear mark done b)
  | [] => isTrue trivial
  | _ :: ps => @instDecidableAnd _ _ _ (instDecidablePredListPieceClear done b ps)

instance (ps : List (Piece α)) : ∀ done bindings, Decidable (Apart mark ps done bindings)
  | _, [] => isTrue trivial
  | done, b :: bindings =>
      @instDecidableAnd _ _ _ (instDecidableApart ps (b :: done) bindings)

end Definitions

/-! ## The longest name -/

variable [DecidableEq α] {mark : α} {bindings : List (Binding α)} {s : List α} {b : Binding α}

theorem longest_eq_none (h : longest mark bindings s = none) :
    ∀ a ∈ bindings, ¬a.ref mark <+: s := by
  induction bindings with
  | nil => exact List.forall_mem_nil _
  | cons a bindings ih =>
    rw [longest] at h
    split at h
    · cases h
    · next hother =>
      intro c hc hpre
      rcases List.mem_cons.mp hc with rfl | hc
      · exact hother ⟨hpre, by rw [h]; rfl⟩
      · exact ih h c hc hpre

theorem longest_spec (h : longest mark bindings s = some b) :
    b ∈ bindings ∧ b.ref mark <+: s ∧
      ∀ a ∈ bindings, a.ref mark <+: s → a.1.length ≤ b.1.length := by
  induction bindings generalizing b with
  | nil => cases h
  | cons a bindings ih =>
    rw [longest] at h
    split at h
    · next hfirst =>
      cases h
      refine ⟨List.mem_cons_self, hfirst.1, ?_⟩
      intro c hc hpre
      rcases List.mem_cons.mp hc with rfl | hc
      · exact Nat.le_refl _
      · cases hlongest : longest mark bindings s with
        | none => exact absurd hpre (longest_eq_none hlongest c hc)
        | some d =>
          have hle := hfirst.2
          rw [hlongest] at hle
          exact Nat.le_trans ((ih hlongest).2.2 c hc hpre) (of_decide_eq_true hle)
    · next hother =>
      obtain ⟨hmem, hpre, hlongest⟩ := ih h
      refine ⟨List.mem_cons_of_mem _ hmem, hpre, ?_⟩
      intro c hc hcpre
      rcases List.mem_cons.mp hc with rfl | hc
      · apply Nat.le_of_not_le
        intro hle
        exact hother ⟨hcpre, by rw [h]; exact decide_eq_true hle⟩
      · exact hlongest c hc hcpre

/-- With each name bound once it is the longest of all, wherever it stands. -/
theorem longest_eq_some_iff (hnames : (bindings.map Prod.fst).Nodup) :
    longest mark bindings s = some b ↔ b ∈ bindings ∧ b.ref mark <+: s ∧
      ∀ a ∈ bindings, a.ref mark <+: s → a.1.length ≤ b.1.length := by
  refine ⟨longest_spec, ?_⟩
  intro ⟨hmem, hpre, hall⟩
  cases h : longest mark bindings s with
  | none => exact absurd hpre (longest_eq_none h b hmem)
  | some a =>
    obtain ⟨hamem, hapre, haall⟩ := longest_spec h
    have hlength : (a.ref mark).length = (b.ref mark).length :=
      congrArg (· + 1) (Nat.le_antisymm (hall a hamem hapre) (haall b hmem hpre))
    have href : a.ref mark = b.ref mark :=
      (List.prefix_of_prefix_length_le hapre hpre hlength.le).eq_of_length hlength
    rw [List.inj_on_of_nodup_map hnames hamem hmem (List.cons.inj href).2]

/-! ## Pieces -/

theorem pieces_source (s : List α) :
    (pieces mark bindings s).flatMap (Piece.source mark) = s := by
  have hfrom : ∀ k, (piecesFrom mark bindings k s).flatMap (Piece.source mark) = s.drop k := by
    induction s with
    | nil =>
      intro k
      cases k <;> rfl
    | cons c cs ih =>
      intro k
      cases k with
      | succ k => exact ih k
      | zero =>
        rw [piecesFrom]
        cases h : longest mark bindings (c :: cs) with
        | none => rw [List.flatMap_cons, ih, List.drop_zero, List.drop_zero, Piece.source,
            List.singleton_append]
        | some b =>
          obtain ⟨t, ht⟩ := (longest_spec h).2.1
          have hcs : cs = b.1 ++ t := (List.cons.inj ht).2.symm
          rw [List.flatMap_cons, ih, List.drop_zero, Piece.source, ← ht, hcs, List.drop_left]
  exact hfrom 0

theorem mem_of_named_mem (h : .named b ∈ pieces mark bindings s) : b ∈ bindings := by
  have hfrom : ∀ k, .named b ∈ piecesFrom mark bindings k s → b ∈ bindings := by
    clear h
    induction s with
    | nil =>
      intro k hmem
      cases k <;> cases hmem
    | cons c cs ih =>
      intro k hmem
      cases k with
      | succ k => exact ih k hmem
      | zero =>
        rw [piecesFrom] at hmem
        cases hlongest : longest mark bindings (c :: cs) with
        | none =>
          rw [hlongest] at hmem
          rcases List.mem_cons.mp hmem with heq | hmem
          · cases heq
          · exact ih 0 hmem
        | some a =>
          rw [hlongest] at hmem
          rcases List.mem_cons.mp hmem with heq | hmem
          · cases heq
            exact (longest_spec hlongest).1
          · exact ih _ hmem
  exact hfrom 0 h

theorem longest_perm {others : List (Binding α)} (hperm : others.Perm bindings)
    (hnames : (bindings.map Prod.fst).Nodup) (s : List α) :
    longest mark others s = longest mark bindings s := by
  apply Option.ext
  intro b
  rw [longest_eq_some_iff hnames, longest_eq_some_iff ((hperm.map _).nodup_iff.mpr hnames)]
  simp only [hperm.mem_iff]

/-- The order of the names does not matter where each is bound once, whatever is looked up first. -/
theorem expandAll_perm {others : List (Binding α)} (hperm : others.Perm bindings)
    (hnames : (bindings.map Prod.fst).Nodup) (first : List (Binding α)) (s : List α) :
    expandAll mark (first ++ others) s = expandAll mark (first ++ bindings) s := by
  have hlongest : ∀ t, longest mark (first ++ others) t = longest mark (first ++ bindings) t := by
    intro t
    induction first with
    | nil => exact longest_perm hperm hnames t
    | cons b first ih => rw [List.cons_append, List.cons_append, longest, longest, ih]
  have hfrom : ∀ k, piecesFrom mark (first ++ others) k s =
      piecesFrom mark (first ++ bindings) k s := by
    induction s with
    | nil =>
      intro k
      cases k <;> rfl
    | cons c cs ih =>
      intro k
      cases k with
      | succ k => exact ih k
      | zero =>
        rw [piecesFrom, piecesFrom, hlongest]
        cases longest mark (first ++ bindings) (c :: cs) with
        | none => exact congrArg _ (ih 0)
        | some b => exact congrArg _ (ih _)
  exact congrArg _ (hfrom 0)

/-! ## One name after the other -/

variable {done : List (Binding α)} {ps : List (Piece α)}

@[simp] theorem during_cons (p : Piece α) :
    during mark done (p :: ps) = p.during mark done ++ during mark done ps := List.flatMap_cons

/-- One name more is expanded. -/
theorem replaceAll_during (h : Clear mark done b ps) :
    replaceAll (b.ref mark) b.2 (during mark done ps) = during mark (b :: done) ps := by
  induction ps with
  | nil => rfl
  | cons p ps ih =>
    obtain ⟨hhead, htail⟩ := h
    by_cases hturn : p = .named b ∧ b ∉ done
    · obtain ⟨rfl, hb⟩ := hturn
      have hbefore : (Piece.named b).during mark done = b.ref mark := if_neg hb
      have hafter : (Piece.named b).during mark (b :: done) = b.2 := if_pos List.mem_cons_self
      rw [during_cons, during_cons, hbefore, hafter,
        replaceAll_append _ _ _ (b.ref_ne_nil mark), ih htail]
    · have hkeep := hhead.resolve_left hturn
      have hsame : p.during mark (b :: done) = p.during mark done := by
        cases p with
        | plain c => rfl
        | named a =>
          by_cases hab : a = b
          · subst hab
            have ha : a ∈ done := by
              by_contra ha
              exact hturn ⟨rfl, ha⟩
            exact (if_pos (List.mem_cons_of_mem _ ha)).trans (if_pos ha).symm
          · simp [Piece.during, hab]
      rw [during_cons] at hkeep
      rw [during_cons, during_cons, replaceAll_keep _ _ _ _ hkeep, ih htail, hsame]

theorem replaceEach_during (h : Apart mark ps done bindings) :
    replaceEach mark bindings (during mark done ps) =
      during mark (bindings.reverse ++ done) ps := by
  induction bindings generalizing done with
  | nil => rfl
  | cons b bindings ih =>
    rw [replaceEach, List.foldl_cons, replaceAll_during h.1, List.reverse_cons, List.append_assoc]
    exact ih h.2

/-- Where no reference arises that the text does not have, one name after the other is as good as
all at once. -/
theorem replaceEach_eq_expandAll (h : Apart mark (pieces mark bindings s) [] bindings) :
    replaceEach mark bindings s = expandAll mark bindings s := by
  have hstart : during mark [] (pieces mark bindings s) = s := by
    have hsource : Piece.during mark ([] : List (Binding α)) = Piece.source mark := by
      funext p
      cases p <;> rfl
    rw [during, hsource, pieces_source]
  have hend := replaceEach_during h
  rw [hstart, List.append_nil] at hend
  rw [hend]
  apply List.flatMap_congr
  intro p hp
  cases p with
  | plain c => rfl
  | named b => exact if_pos (List.mem_reverse.mpr (mem_of_named_mem hp))

/-- Characters that are in no reference, behind the text. -/
theorem replaceEach_append {r : List α} (hmark : mark ∉ r)
    (hr : ∀ b ∈ bindings, ∀ c ∈ r, c ∉ b.1) :
    replaceEach mark bindings (s ++ r) = replaceEach mark bindings s ++ r := by
  induction bindings generalizing s with
  | nil => rfl
  | cons b bindings ih =>
    have hb : ∀ c ∈ r, c ∉ b.ref mark := by
      intro c hc hmem
      rcases List.mem_cons.mp hmem with rfl | hmem
      · exact hmark hc
      · exact hr b List.mem_cons_self c hc hmem
    rw [replaceEach, List.foldl_cons, replaceAll_append_right (b.ref_ne_nil mark) hb]
    exact ih fun a ha => hr a (List.mem_cons_of_mem _ ha)

end Natc.Lib.Expand
