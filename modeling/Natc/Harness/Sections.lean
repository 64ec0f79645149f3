import Natc.Harness.Golden
import Mathlib.Data.List.Chain

/-!
# The sections of a process

The acts of a process fall into sections at its SECTOR commands. The dispatcher numbers the
sections of all processes, and a section passes against the lines that are expected for it.
-/

namespace Natc.Harness.Golden

open Lib

section Cut

/-- A SECTOR command with what is recorded up to the next one. -/
structure Section where
  h : Header
  /-- Something follows the command in the queue. -/
  printed : Bool
  body : List Text

namespace Section

variable (s : Section)

def lines : List Text := (if s.printed then s.h.lines else []) ++ s.body

def texts : List Text := s.lines.map shown

/-- The header stands alone, without a frame. -/
def opens : Prop := s.printed = true ∧ ¬ byATC <:+: s.h.mess

instance : Decidable s.opens := inferInstanceAs (Decidable (_ ∧ _))

/-- The last line of the section looks like the upper line of a frame. -/
def border : Prop := ['+', '-', '-'] <+: s.texts.getLastD []

instance : Decidable s.border := inferInstanceAs (Decidable (_ <+: _))

/-- Every line of the section that the loader takes for a header is one of the section itself. -/
def Own : Prop := ∀ l ∈ s.body, ∀ k ∈ headerKey (shown l), k = .num s.h.q_sct

instance : Decidable s.Own :=
  inferInstanceAs (Decidable (∀ l ∈ s.body, ∀ k ∈ headerKey (shown l), k = .num s.h.q_sct))

end Section

/-- What is recorded in front of the first SECTOR command, and the sections. -/
def cut : List Act → List Text × List Section
  | [] => ([], [])
  | .lines ls :: as => (ls ++ (cut as).1, (cut as).2)
  | .SECTOR h :: as => ([], ⟨h, !as.isEmpty, (cut as).1⟩ :: (cut as).2)

def sections (as : List Act) : List Section := (cut as).2

/-- All that is recorded. -/
def recorded : List Act → List Text
  | [] => []
  | .lines ls :: as => ls ++ recorded as
  | .SECTOR h :: as => (if as = [] then [] else h.lines) ++ recorded as

@[simp] theorem sections_lines (ls : List Text) (as : List Act) :
    sections (.lines ls :: as) = sections as := rfl

@[simp] theorem sections_SECTOR (h : Header) (as : List Act) :
    sections (.SECTOR h :: as) = ⟨h, !as.isEmpty, (cut as).1⟩ :: sections as := rfl

theorem recorded_eq (as : List Act) :
    recorded as = (cut as).1 ++ (sections as).flatMap (·.lines) := by
  induction as with
  | nil => rfl
  | cons a as ih =>
    cases a with
    | lines ls => rw [recorded, ih, sections_lines, cut, List.append_assoc]
    | SECTOR h =>
      rw [recorded, ih, sections_SECTOR, cut, List.nil_append, List.flatMap_cons, Section.lines,
        List.append_assoc]
      cases as <;> rfl

/-- Behind a section there is another one only when it was printed. -/
theorem isChain_sections (as : List Act) :
    (sections as).IsChain fun a _ => a.printed = true := by
  induction as with
  | nil => exact .nil
  | cons a as ih =>
    cases a with
    | lines ls => exact ih
    | SECTOR h =>
      rw [sections_SECTOR]
      cases as with
      | nil => exact .singleton _
      | cons a as => exact ih.cons fun _ _ => rfl

/-- Behind a SECTOR command with nothing left nothing is recorded. -/
theorem body_of_not_printed {as : List Act} {s : Section} (hs : s ∈ sections as)
    (h : s.printed = false) : s.body = [] := by
  induction as with
  | nil => cases hs
  | cons a as ih =>
    cases a with
    | lines ls => exact ih hs
    | SECTOR h' =>
      rw [sections_SECTOR, List.mem_cons] at hs
      rcases hs with rfl | hs
      · cases as with
        | nil => rfl
        | cons a as => cases h
      · exact ih hs

/-- An entry is part of one section, and what it records changes that section alone. -/
theorem cut_append (pre post : List Act) :
    (∃ front back : List Text, ∀ ls, cut (pre ++ .lines ls :: post) =
      (front ++ ls ++ back, sections post)) ∨
    ∃ (lead : List Text) (before : List Section) (s : Section) (after : List Section)
      (front back : List Text), ∀ ls, cut (pre ++ .lines ls :: post) =
        (lead, before ++ ⟨s.h, s.printed, front ++ ls ++ back⟩ :: after) := by
  induction pre with
  | nil => exact .inl ⟨[], (cut post).1, fun ls => rfl⟩
  | cons a pre ih =>
    cases a with
    | lines ls' =>
      rcases ih with ⟨front, back, heq⟩ | ⟨lead, before, s, after, front, back, heq⟩
      · left
        use ls' ++ front, back
        intro ls
        rw [List.cons_append, cut, heq]
        simp
      · right
        use ls' ++ lead, before, s, after, front, back
        intro ls
        rw [List.cons_append, cut, heq]
    | SECTOR h =>
      right
      rcases ih with ⟨front, back, heq⟩ | ⟨lead, before, s, after, front, back, heq⟩
      · use [], [], ⟨h, true, []⟩, sections post, front, back
        intro ls
        rw [List.cons_append, cut, heq]
        simp
      · use [], ⟨h, true, lead⟩ :: before, s, after, front, back
        intro ls
        rw [List.cons_append, cut, heq]
        simp

/-- The same for a process that starts with a SECTOR command. -/
theorem sections_append (h : Header) (pre post : List Act) :
    ∃ (before : List Section) (s : Section) (after : List Section) (front back : List Text),
      ∀ ls, sections (.SECTOR h :: (pre ++ .lines ls :: post)) =
        before ++ ⟨s.h, s.printed, front ++ ls ++ back⟩ :: after := by
  rcases cut_append (.SECTOR h :: pre) post with ⟨front, back, heq⟩ |
    ⟨lead, before, s, after, front, back, heq⟩
  · have hnil := heq [[]]
    rw [List.cons_append, cut] at hnil
    simp at hnil
  · use before, s, after, front, back
    intro ls
    rw [sections, ← List.cons_append, heq]

end Cut

section Verdict

theorem shown_eq_nil_iff (l : Text) : shown l = [] ↔ l = [] ∨ l = ['.', ' '] := by
  rw [shown]
  split
  · rename_i h
    obtain ⟨t, rfl⟩ := h
    simp
  · rename_i h
    constructor
    · exact .inl
    · rintro (rfl | rfl)
      · rfl
      · exact absurd (List.prefix_refl _) h

theorem same_iff (got expect : List Text) :
    Isql.same got expect = true ↔ got.map shown = expect := by
  rw [Isql.same, Bool.and_eq_true, beq_iff_eq]
  induction got generalizing expect with
  | nil => cases expect <;> simp
  | cons l got ih =>
    cases expect with
    | nil => simp
    | cons e expect =>
      have hih := ih expect
      simp only [List.length_cons, Nat.add_right_cancel_iff, List.zip_cons_cons, List.all_cons,
        Bool.and_eq_true, beq_iff_eq, List.map_cons, List.cons.injEq] at hih ⊢
      constructor
      · intro ⟨hlen, hl, hall⟩
        exact ⟨hl, hih.mp ⟨hlen, hall⟩⟩
      · intro ⟨hl, hrest⟩
        have hboth := hih.mpr hrest
        exact ⟨hboth.1, hl, hboth.2⟩

/-- The result for the lines of a section, as `ok_sector_normal` finds it. -/
def passes (got expect : List Text) : Bool :=
  Isql.same (if expect.getLast? = some [] ∧ got.getLast?.any (· ≠ []) then got ++ [[]] else got)
    expect

/-- The lines of a section that passes are the expected ones, but for an empty line at the end. -/
theorem eq_of_passes {got expect : List Text} (h : passes got expect = true) :
    got.map shown = expect ∨ got.map shown ++ [[]] = expect := by
  rw [passes, same_iff] at h
  split at h
  · right
    rw [← h, List.map_append]
    rfl
  · exact .inl h

/-- Against its own lines a section fails when the last one is the mark of an empty output line. -/
theorem passes_self_iff (got : List Text) :
    passes got (got.map shown) = true ↔ got.getLast? ≠ some ['.', ' '] := by
  rw [passes, same_iff]
  split
  · rename_i h
    obtain ⟨hlast, hany⟩ := h
    rw [List.getLast?_map] at hlast
    obtain ⟨l, hl, hshown⟩ := Option.map_eq_some_iff.mp hlast
    rw [hl] at hany
    have hne : l ≠ [] := by simpa using hany
    have hdot : l = ['.', ' '] := ((shown_eq_nil_iff l).mp hshown).resolve_left hne
    rw [hl, hdot]
    simp
  · rename_i h
    constructor
    · intro _ hdot
      apply h
      rw [List.getLast?_map, hdot]
      exact ⟨rfl, rfl⟩
    · intro _
      rfl

end Verdict

end Natc.Harness.Golden
