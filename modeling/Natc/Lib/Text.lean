import Mathlib.Data.List.Basic
import Mathlib.Data.List.Count
import Mathlib.Data.List.DropRight
import Mathlib.Data.List.Infix

/-!
# Texts as lists of characters

A text is a list with one character per byte of the code page. The module has the left to right
replacement of a pattern, marked texts (a text some of whose characters are hidden behind a
placeholder), and the search for a word in a text built around a separator.
-/

namespace Natc.Lib

/-- A byte string: one character per byte. -/
abbrev Text := List Char

theorem lawfulBEq_text : LawfulBEq Text := inferInstance

section Replace

variable {α : Type*} [DecidableEq α]

/-- The scan behind `replaceAll`: `skip` characters of the current match are still to be dropped. -/
def replaceFrom (p r : List α) : Nat → List α → List α
  | _, [] => []
  | skip + 1, _ :: cs => replaceFrom p r skip cs
  | 0, c :: cs =>
      if p <+: c :: cs then r ++ replaceFrom p r (p.length - 1) cs
      else c :: replaceFrom p r 0 cs

/-- Every occurrence of `p`, found from left to right without overlap, becomes `r`. -/
def replaceAll (p r s : List α) : List α := replaceFrom p r 0 s

private theorem replaceFrom_skip (p r : List α) (k : Nat) (s : List α) :
    replaceFrom p r k s = replaceAll p r (s.drop k) := by
  induction s generalizing k with
  | nil => cases k <;> rfl
  | cons c cs ih =>
    cases k with
    | zero => rfl
    | succ k => exact ih k

@[simp] theorem replaceAll_nil (p r : List α) : replaceAll p r [] = [] := rfl

/-- An occurrence at the front is replaced, and the scan goes on behind it. -/
theorem replaceAll_append (p r s : List α) (hp : p ≠ []) :
    replaceAll p r (p ++ s) = r ++ replaceAll p r s := by
  cases p with
  | nil => exact absurd rfl hp
  | cons a p =>
    have hpre : a :: p <+: a :: (p ++ s) := List.prefix_append (a :: p) s
    rw [List.cons_append, replaceAll, replaceFrom, if_pos hpre, replaceFrom_skip]
    simp

/-- A character at which no occurrence starts is kept. -/
theorem replaceAll_cons (p r : List α) (c : α) (s : List α) (h : ¬ p <+: c :: s) :
    replaceAll p r (c :: s) = c :: replaceAll p r s := by
  rw [replaceAll, replaceFrom, if_neg h]
  rfl

/-- A stretch in which no occurrence starts is kept. -/
theorem replaceAll_keep (p r x s : List α)
    (h : ∀ k < x.length, ¬ p <+: (x ++ s).drop k) :
    replaceAll p r (x ++ s) = x ++ replaceAll p r s := by
  induction x with
  | nil => rfl
  | cons c x ih =>
    have hhead : ¬ p <+: c :: (x ++ s) := h 0 (by simp)
    have htail : ∀ k < x.length, ¬ p <+: (x ++ s).drop k :=
      fun k hk => h (k + 1) (by simpa using hk)
    rw [List.cons_append, replaceAll_cons p r c _ hhead, ih htail, List.cons_append]

/-- A stretch without the first character of the pattern is kept. -/
theorem replaceAll_keep_of_notMem {a : α} {p x : List α} (ha : a ∉ x) (r s : List α) :
    replaceAll (a :: p) r (x ++ s) = x ++ replaceAll (a :: p) r s := by
  refine replaceAll_keep _ _ _ _ fun k hk hpre => ?_
  rw [List.drop_append_of_le_length hk.le] at hpre
  cases hx : x.drop k with
  | nil => exact absurd (List.drop_eq_nil_iff.mp hx) (Nat.not_le.mpr hk)
  | cons c t =>
    rw [hx, List.cons_append, List.cons_prefix_cons] at hpre
    refine ha (List.mem_of_mem_drop (i := k) ?_)
    rw [hx, hpre.1]
    exact List.mem_cons_self

/-- What a text begins with behind a replacement by a character that the word does not contain. -/
theorem prefix_replaceAll_iff (p w : List α) (b : α) (s : List α) (hp : p ≠ []) (hb : b ∉ w) :
    w <+: replaceAll p [b] s ↔ w <+: s ∧ ∀ k < w.length, ¬ p <+: s.drop k := by
  induction w generalizing s with
  | nil => simp
  | cons a w ih =>
    obtain ⟨hab, hbw⟩ : b ≠ a ∧ b ∉ w := by simpa using hb
    cases s with
    | nil => simp
    | cons c s =>
      by_cases hpre : p <+: c :: s
      · obtain ⟨t, ht⟩ := id hpre
        rw [← ht, replaceAll_append p _ _ hp, List.singleton_append, List.cons_prefix_cons, ht]
        refine ⟨fun h => absurd h.1.symm hab, fun h => absurd hpre (h.2 0 (by simp))⟩
      · rw [replaceAll_cons p _ _ _ hpre, List.cons_prefix_cons, List.cons_prefix_cons, ih s hbw,
          and_assoc]
        refine and_congr_right fun _ => and_congr_right fun _ =>
          ⟨fun h k hk => ?_, fun h k hk => ?_⟩
        · cases k with
          | zero => exact hpre
          | succ k => exact h k (by simpa using hk)
        · exact h (k + 1) (by simpa using hk)

theorem replaceAll_of_absent {p s : List α} (r : List α) (h : ¬p <:+: s) :
    replaceAll p r s = s := by
  have hkeep := replaceAll_keep p r s [] (by
    intro k _ hpre
    apply h
    rw [List.append_nil] at hpre
    exact hpre.isInfix.trans (List.drop_suffix k s).isInfix)
  rwa [List.append_nil, replaceAll_nil, List.append_nil] at hkeep

theorem replaceAll_length_le {p r : List α} (hp : p ≠ []) (hr : r.length ≤ p.length) (s : List α) :
    (replaceAll p r s).length ≤ s.length := by
  have hfrom : ∀ k ≤ s.length, (replaceFrom p r k s).length + k ≤ s.length := by
    induction s with
    | nil =>
      intro k hk
      obtain rfl := Nat.le_zero.mp hk
      exact Nat.le_refl 0
    | cons c cs ih =>
      intro k hk
      cases k with
      | succ k => exact Nat.succ_le_succ (ih k (Nat.le_of_succ_le_succ hk))
      | zero =>
        rw [replaceFrom]
        split
        · next hfront =>
          have hlength := hfront.length_le
          have hpos := List.length_pos_iff.mpr hp
          rw [List.length_cons] at hlength
          have hrest := ih (p.length - 1) (by omega)
          rw [List.length_append, List.length_cons]
          omega
        · exact Nat.succ_le_succ (ih 0 (Nat.zero_le _))
  exact hfrom 0 (Nat.zero_le _)

/-- Replacing a single character works on each character alone. -/
theorem replaceAll_singleton (a : α) (r s : List α) :
    replaceAll [a] r s = s.flatMap fun c => if c = a then r else [c] := by
  induction s with
  | nil => rfl
  | cons c cs ih =>
    by_cases h : c = a
    · subst c
      have h := replaceAll_append [a] r cs (by simp)
      rw [List.singleton_append] at h
      rw [h, ih]
      simp
    · rw [replaceAll_cons _ _ _ _ (by simp [List.cons_prefix_cons, Ne.symm h]), ih]
      simp [h]

/-- A text read as the scan of `replaceAll` does: an occurrence at the front, or one character. -/
@[elab_as_elim] theorem replace_induction {p : List α} {motive : List α → Prop} (hp : p ≠ [])
    (nil : motive []) (front : ∀ s, motive s → motive (p ++ s))
    (cons : ∀ c s, ¬p <+: c :: s → motive s → motive (c :: s)) (s : List α) : motive s := by
  induction hn : s.length using Nat.strong_induction_on generalizing s with
  | _ n ih =>
    subst hn
    cases s with
    | nil => exact nil
    | cons c s =>
      by_cases hpre : p <+: c :: s
      · obtain ⟨t, ht⟩ := id hpre
        rw [← ht]
        refine front t (ih t.length ?_ t rfl)
        have hpos := List.length_pos_iff.mpr hp
        rw [← ht, List.length_append]
        omega
      · exact cons c s hpre (ih s.length (Nat.lt_succ_self _) s rfl)

@[simp] theorem replaceAll_self {p : List α} (hp : p ≠ []) (s : List α) : replaceAll p p s = s := by
  induction s using replace_induction hp with
  | nil => rfl
  | front s ih => rw [replaceAll_append p p s hp, ih]
  | cons c s hpre ih => rw [replaceAll_cons p p c s hpre, ih]

/-- The scan of a text up to its first occurrence, whatever it is replaced by. -/
theorem exists_replaceAll_append {p s : List α} (hp : p ≠ []) (h : p <:+: s) :
    ∃ u v, s = u ++ (p ++ v) ∧
      ∀ r t, replaceAll p r (s ++ t) = u ++ (r ++ replaceAll p r (v ++ t)) := by
  induction s using replace_induction hp with
  | nil => exact absurd (List.infix_nil.mp h) hp
  | front s =>
    refine ⟨[], s, rfl, fun r t => ?_⟩
    rw [List.append_assoc, replaceAll_append p r _ hp, List.nil_append]
  | cons c s hpre ih =>
    have hs : p <:+: s := (List.infix_cons_iff.mp h).resolve_left hpre
    obtain ⟨u, v, huv, hscan⟩ := ih hs
    refine ⟨c :: u, v, by rw [huv, List.cons_append], fun r t => ?_⟩
    -- the occurrence in `s` leaves no room for one that starts here and reaches into `t`
    have hnot : ¬p <+: c :: (s ++ t) := fun hlong =>
      hpre (List.prefix_of_prefix_length_le hlong (List.prefix_append (c :: s) t)
        (hs.length_le.trans (Nat.le_succ _)))
    rw [List.cons_append, replaceAll_cons p r c _ hnot, hscan, List.cons_append]

theorem count_replaceAll_le {r r' : List α} {a : α} {p : List α} (hp : p ≠ [])
    (h : r.count a ≤ r'.count a) (s : List α) :
    (replaceAll p r s).count a ≤ (replaceAll p r' s).count a := by
  induction s using replace_induction hp with
  | nil => exact Nat.le_refl 0
  | front s ih =>
    rw [replaceAll_append p r s hp, replaceAll_append p r' s hp, List.count_append,
      List.count_append]
    exact Nat.add_le_add h ih
  | cons c s hpre ih =>
    rw [replaceAll_cons p r c s hpre, replaceAll_cons p r' c s hpre, List.count_cons,
      List.count_cons]
    exact Nat.add_le_add_right ih _

/-- Where the pattern occurs, more of a character in the replacement means more in the result. -/
theorem count_replaceAll_lt {r r' : List α} {a : α} {p s : List α} (hp : p ≠ [])
    (h : r.count a < r'.count a) (hin : p <:+: s) :
    (replaceAll p r s).count a < (replaceAll p r' s).count a := by
  obtain ⟨u, v, rfl, hscan⟩ := exists_replaceAll_append hp hin
  have hr := hscan r []
  have hr' := hscan r' []
  rw [List.append_nil] at hr hr'
  have hle := count_replaceAll_le hp h.le (v ++ [])
  rw [hr, hr']
  simp only [List.count_append]
  omega

/-- A replacement that ends with a character foreign to the pattern never completes the pattern at
the end of the text. -/
theorem not_suffix_replaceAll {p r : List α} {a : α} (hp : p ≠ []) (hr : r.getLast? = some a)
    (ha : a ∉ p) (s : List α) : ¬p <:+ replaceAll p r s := by
  obtain ⟨q, rfl⟩ := List.getLast?_eq_some_iff.mp hr
  induction s using replace_induction hp with
  | nil => exact fun h => hp (List.suffix_nil.mp h)
  | front s ih =>
    rw [replaceAll_append p _ s hp, List.append_assoc]
    intro h
    rcases List.suffix_or_suffix_of_suffix h (List.suffix_append q _) with hin | hout
    · rcases List.suffix_cons_iff.mp hin with heq | hs
      · exact ha (heq ▸ List.mem_cons_self)
      · exact ih hs
    · exact ha (hout.subset List.mem_cons_self)
  | cons c s hpre ih =>
    rw [replaceAll_cons p _ c s hpre]
    intro h
    rcases List.suffix_cons_iff.mp h with heq | hs
    · -- the whole result is the pattern, so that nothing was replaced in it
      by_cases hin : p <:+: s
      · obtain ⟨u, v, rfl, hscan⟩ := exists_replaceAll_append hp hin
        have happ := hscan (q ++ [a]) []
        rw [List.append_nil] at happ
        apply ha
        rw [heq, happ]
        simp
      · rw [replaceAll_of_absent _ hin] at heq
        exact hpre (heq ▸ List.prefix_rfl)
    · exact ih hs

end Replace

section Find

variable {α : Type*} [DecidableEq α]

/-- The index of the first occurrence of `w` in `s`. -/
def indexOf? (w : List α) : List α → Option Nat
  | [] => if w = [] then some 0 else none
  | c :: cs => if w <+: c :: cs then some 0 else (indexOf? w cs).map (· + 1)

theorem isSome_indexOf? (w s : List α) : (indexOf? w s).isSome ↔ w <:+: s := by
  induction s with
  | nil => by_cases h : w = [] <;> simp [indexOf?, h]
  | cons c cs ih =>
    rw [indexOf?, List.infix_cons_iff]
    split
    · rename_i h
      simp [h]
    · rename_i h
      rw [Option.isSome_map, ih]
      simp [h]

/-- Where the index points, and that nothing is found before it. -/
theorem exists_of_indexOf? {w s : List α} {i : Nat} (h : indexOf? w s = some i) :
    ∃ u t, s = u ++ (w ++ t) ∧ u.length = i ∧ ∀ j < i, ¬w <+: s.drop j := by
  induction s generalizing i with
  | nil =>
    rw [indexOf?] at h
    split at h
    · next hw =>
      obtain rfl := Option.some.inj h
      exact ⟨[], [], by simp [hw], rfl, fun j hj => absurd hj (Nat.not_lt_zero j)⟩
    · cases h
  | cons c s ih =>
    rw [indexOf?] at h
    split at h
    · next hfront =>
      obtain rfl := Option.some.inj h
      obtain ⟨t, ht⟩ := hfront
      exact ⟨[], t, ht.symm, rfl, fun j hj => absurd hj (Nat.not_lt_zero j)⟩
    · next hfront =>
      obtain ⟨i, hi, rfl⟩ := Option.map_eq_some_iff.mp h
      obtain ⟨u, t, hs, hu, hbefore⟩ := ih hi
      refine ⟨c :: u, t, by rw [hs, List.cons_append], by rw [List.length_cons, hu], ?_⟩
      intro j hj
      cases j with
      | zero => exact hfront
      | succ j => exact hbefore j (Nat.lt_of_succ_lt_succ hj)

end Find

section Infix

variable {α : Type*} {w l s r : List α}

/-- A word cannot reach over a character that it does not contain. -/
theorem prefix_append_cons {c : α} (hc : c ∉ w) (h : w <+: s ++ c :: r) : w <+: s := by
  induction s generalizing w with
  | nil =>
    cases w with
    | nil => exact List.nil_prefix
    | cons a w =>
      obtain ⟨rfl, _⟩ := List.cons_prefix_cons.mp h
      simp at hc
  | cons b s ih =>
    cases w with
    | nil => exact List.nil_prefix
    | cons a w =>
      rw [List.cons_append] at h
      obtain ⟨rfl, hw⟩ := List.cons_prefix_cons.mp h
      exact List.cons_prefix_cons.mpr ⟨rfl, ih (fun hmem => hc (List.mem_cons_of_mem _ hmem)) hw⟩

theorem infix_append_cons_iff {c : α} (hw : w ≠ []) (hc : c ∉ w) :
    w <:+: s ++ c :: r ↔ w <:+: s ∨ w <:+: r := by
  induction s with
  | nil =>
    have hnot : ¬ w <+: c :: r := fun h => hw (List.prefix_nil.mp (prefix_append_cons hc h))
    simp [List.infix_cons_iff, hnot, hw]
  | cons b s ih =>
    have hpre : w <+: (b :: s) ++ c :: r ↔ w <+: b :: s :=
      ⟨prefix_append_cons hc, fun h => h.trans (List.prefix_append _ _)⟩
    rw [List.cons_append] at hpre ⊢
    rw [List.infix_cons_iff, List.infix_cons_iff, ih, hpre, or_assoc]

/-- What follows the elements with the property in a prefix follows them in the whole list. -/
theorem mem_head?_dropWhile_of_isPrefix {p : α → Bool} {c : α} (h : w <+: s)
    (hc : c ∈ (w.dropWhile p).head?) : c ∈ (s.dropWhile p).head? := by
  obtain ⟨v, rfl⟩ := h
  obtain ⟨u, hu⟩ := List.head?_eq_some_iff.mp hc
  rw [List.dropWhile_append, hu]
  rfl

/-- Characters that a word does not contain, in front of a text. -/
theorem infix_append_left_iff (hw : w ≠ []) (hl : ∀ c ∈ l, c ∉ w) :
    w <:+: l ++ s ↔ w <:+: s := by
  induction l with
  | nil => rfl
  | cons c l ih =>
    obtain ⟨hc, hl⟩ := List.forall_mem_cons.mp hl
    have hsep := infix_append_cons_iff (s := []) (r := l ++ s) hw hc
    simpa [hw, ih hl] using hsep

/-- Characters that a word does not contain, between two texts. -/
theorem infix_between_iff (hw : w ≠ []) (hl : ∀ c ∈ l, c ∉ w) (hne : l ≠ []) :
    w <:+: s ++ (l ++ r) ↔ w <:+: s ∨ w <:+: r := by
  cases l with
  | nil => exact absurd rfl hne
  | cons c l =>
    obtain ⟨hc, hl⟩ := List.forall_mem_cons.mp hl
    rw [List.cons_append, infix_append_cons_iff hw hc, infix_append_left_iff hw hl]

/-- Characters that a word does not contain, behind a text. -/
theorem infix_append_right_iff (hw : w ≠ []) (hr : ∀ c ∈ r, c ∉ w) :
    w <:+: s ++ r ↔ w <:+: s := by
  by_cases hne : r = []
  · simp [hne]
  · simpa [hw] using infix_between_iff (s := s) (r := []) hw hr hne

/-- The occurrence at the end is replaced alone, if its first character does not come again. -/
theorem replaceAll_append_self [DecidableEq α] {a : α} (ha : a ∉ w) (h : ¬a :: w <:+: s)
    (x : List α) : replaceAll (a :: w) x (s ++ a :: w) = s ++ x := by
  have hkeep : ∀ k < s.length, ¬a :: w <+: (s ++ a :: w).drop k := by
    intro k hk hpre
    apply h
    have hdrop := List.drop_suffix k s
    rw [List.drop_append_of_le_length hk.le] at hpre
    cases hs : s.drop k with
    | nil => exact absurd (List.drop_eq_nil_iff.mp hs) (Nat.not_le.mpr hk)
    | cons c t =>
      rw [hs, List.cons_append, List.cons_prefix_cons] at hpre
      obtain ⟨rfl, hw⟩ := hpre
      have hfront : a :: w <+: a :: t := List.cons_prefix_cons.mpr ⟨rfl, prefix_append_cons ha hw⟩
      rw [← hs] at hfront
      exact hfront.isInfix.trans hdrop.isInfix
  have hself := replaceAll_append (a :: w) x [] (List.cons_ne_nil a w)
  rw [List.append_nil, replaceAll_nil, List.append_nil] at hself
  rw [replaceAll_keep _ x s _ hkeep, hself]

/-- Replacing does not reach the characters behind a text that the word does not contain. -/
theorem replaceAll_append_right [DecidableEq α] {x : List α} (hw : w ≠ [])
    (hr : ∀ c ∈ r, c ∉ w) : replaceAll w x (s ++ r) = replaceAll w x s ++ r := by
  have hkeep : replaceAll w x r = r := by
    apply replaceAll_of_absent
    intro h
    obtain ⟨c, w, rfl⟩ := List.exists_cons_of_ne_nil hw
    exact hr c (h.subset List.mem_cons_self) List.mem_cons_self
  have hfrom : ∀ k ≤ s.length, replaceFrom w x k (s ++ r) = replaceFrom w x k s ++ r := by
    induction s with
    | nil =>
      intro k hk
      obtain rfl := Nat.le_zero.mp hk
      exact hkeep
    | cons c s ih =>
      intro k hk
      cases k with
      | succ k => exact ih k (Nat.le_of_succ_le_succ hk)
      | zero =>
        have hpre : w <+: c :: (s ++ r) ↔ w <+: c :: s := by
          refine ⟨?_, fun h => h.trans (List.prefix_append (c :: s) r)⟩
          intro h
          cases r with
          | nil => rwa [List.append_nil] at h
          | cons d r => exact prefix_append_cons (s := c :: s) (hr d List.mem_cons_self) h
        rw [List.cons_append, replaceFrom, replaceFrom]
        by_cases hfront : w <+: c :: s
        · have hlength : w.length - 1 ≤ s.length := by
            have hle := hfront.length_le
            rw [List.length_cons] at hle
            omega
          rw [if_pos (hpre.mpr hfront), if_pos hfront, ih _ hlength, List.append_assoc]
        · rw [if_neg fun h => hfront (hpre.mp h), if_neg hfront, ih 0 (Nat.zero_le _)]
          rfl
  exact hfrom 0 (Nat.zero_le _)

end Infix

theorem notMem_of_all {l w : Text} (h : (l.all fun c => !w.contains c) = true) :
    ∀ c ∈ l, c ∉ w := by
  intro c hc
  simpa using List.all_eq_true.mp h c hc

/-- What follows the first `n` blank-separated words, blanks in front dropped. -/
def dropWords : Nat → Text → Text
  | 0, s => s.dropWhile Char.isWhitespace
  | n + 1, s => dropWords n ((s.dropWhile Char.isWhitespace).dropWhile fun c => !c.isWhitespace)

/-- The same for what counts as blank. -/
def dropWordsWith (white : Char → Bool) : Nat → Text → Text
  | 0, s => s.dropWhile white
  | n + 1, s => dropWordsWith white n ((s.dropWhile white).dropWhile fun c => !white c)

theorem dropWordsWith_isWhitespace (n : Nat) (s : Text) :
    dropWordsWith Char.isWhitespace n s = dropWords n s := by
  induction n generalizing s with
  | zero => rfl
  | succ n ih => exact ih _

section Words

variable {white : Char → Bool} {word : Text} (hne : word ≠ []) (hword : ∀ c ∈ word, white c = false)
  {c : Char} (hc : white c = true) (s : Text)

include hne hword

private theorem dropWhile_word : (word ++ s).dropWhile white = word ++ s := by
  obtain ⟨d, ds, rfl⟩ := List.exists_cons_of_ne_nil hne
  rw [List.cons_append, List.dropWhile_cons_of_neg (by simp [hword d List.mem_cons_self])]

include hc

theorem takeWhile_dropWords_zero :
    (dropWordsWith white 0 (word ++ c :: s)).takeWhile (fun d => !white d) = word := by
  rw [dropWordsWith, dropWhile_word hne hword, List.takeWhile_append_of_pos,
    List.takeWhile_cons_of_neg (by simp [hc]), List.append_nil]
  intro d hd
  rw [hword d hd]
  rfl

theorem dropWords_one : dropWordsWith white 1 (word ++ c :: s) = s.dropWhile white := by
  rw [dropWordsWith, dropWhile_word hne hword, List.dropWhile_append_of_pos,
    List.dropWhile_cons_of_neg (by simp [hc]), dropWordsWith, List.dropWhile_cons_of_pos hc]
  intro d hd
  rw [hword d hd]
  rfl

end Words

/-- A text without the blanks at its ends, for what counts as blank. -/
def stripWith (white : Char → Bool) (s : Text) : Text := (s.dropWhile white).rdropWhile white

section Strip

variable {white : Char → Bool}

theorem stripWith_dropWhile (s : Text) :
    stripWith white (s.dropWhile white) = stripWith white s := by
  rw [stripWith, List.dropWhile_idempotent, stripWith]

/-- What stands behind an element without the property is taken off as if it stood alone. -/
theorem rdropWhile_append_of_last {α : Type*} {p : α → Bool} {s : List α}
    (h : ∀ c ∈ s.getLast?, p c = false) (t : List α) :
    (s ++ t).rdropWhile p = s ++ t.rdropWhile p := by
  induction t using List.reverseRecOn with
  | nil =>
    rw [List.rdropWhile_nil, List.append_nil]
    refine List.rdropWhile_eq_self_iff.mpr fun hne => ?_
    simp [h _ (List.getLast?_eq_getLast_of_ne_nil hne)]
  | append_singleton t c ih =>
    rw [← List.append_assoc, List.rdropWhile_concat, List.rdropWhile_concat, ih]
    split
    · rfl
    · exact List.append_assoc _ _ _

theorem exists_stripWith (s : Text) : ∃ u v, s = u ++ stripWith white s ++ v ∧
    (∀ c ∈ u, white c = true) ∧ ∀ c ∈ v, white c = true := by
  refine ⟨s.takeWhile white, (s.dropWhile white).rtakeWhile white, ?_, ?_, ?_⟩
  · rw [List.append_assoc, stripWith, List.rdropWhile_append_rtakeWhile,
      List.takeWhile_append_dropWhile]
  · intro c hc
    exact List.mem_takeWhile_imp hc
  · intro c hc
    exact List.mem_rtakeWhile_imp hc

/-- What is no blank is counted as before. -/
theorem countP_stripWith {q : Char → Bool} (hq : ∀ c, white c = true → q c = false) (s : Text) :
    (stripWith white s).countP q = s.countP q := by
  obtain ⟨u, v, hs, hu, hv⟩ := @exists_stripWith white s
  have hu' : u.countP q = 0 := by
    rw [List.countP_eq_zero]
    intro c hc
    simp [hq c (hu c hc)]
  have hv' : v.countP q = 0 := by
    rw [List.countP_eq_zero]
    intro c hc
    simp [hq c (hv c hc)]
  conv_rhs => rw [hs]
  rw [List.countP_append, List.countP_append, hu', hv', Nat.zero_add, Nat.add_zero]

theorem rdropWhile_cons {α : Type*} (p : α → Bool) (c : α) (s : List α) :
    (c :: s).rdropWhile p =
      if s.rdropWhile p = [] ∧ p c = true then [] else c :: s.rdropWhile p := by
  induction s using List.reverseRecOn with
  | nil => simp [List.rdropWhile_singleton]
  | append_singleton s d ih =>
    rw [← List.cons_append, List.rdropWhile_concat, List.rdropWhile_concat, ih]
    cases p d <;> simp

theorem dropWhile_rdropWhile (s : Text) :
    (s.rdropWhile white).dropWhile white = (s.dropWhile white).rdropWhile white := by
  induction s with
  | nil => rfl
  | cons c s ih =>
    cases hc : white c with
    | false => simp [rdropWhile_cons, hc]
    | true =>
      rw [List.dropWhile_cons_of_pos hc, ← ih, rdropWhile_cons]
      split
      · rename_i h
        rw [h.1]
      · rw [List.dropWhile_cons_of_pos hc]

theorem stripWith_rdropWhile (s : Text) :
    stripWith white (s.rdropWhile white) = stripWith white s := by
  rw [stripWith, dropWhile_rdropWhile, List.rdropWhile_idempotent, stripWith]

theorem stripWith_stripWith (s : Text) :
    stripWith white (stripWith white s) = stripWith white s := by
  conv_lhs => rw [stripWith.eq_1 white s]
  rw [stripWith_rdropWhile, stripWith_dropWhile]

/-- What keeps its ends has no blanks there. -/
theorem stripWith_eq_self_iff {s : Text} : stripWith white s = s ↔
    (∀ c ∈ s.head?, white c = false) ∧ ∀ c ∈ s.getLast?, white c = false := by
  constructor
  · intro h
    have hfront : s.dropWhile white = s := by
      refine (List.dropWhile_suffix white).eq_of_length_le ?_
      have hle := (List.rdropWhile_prefix white (s.dropWhile white)).length_le
      rwa [← stripWith, h] at hle
    have hback : s.rdropWhile white = s := by rwa [stripWith, hfront] at h
    refine ⟨fun c hc => ?_, fun c hc => ?_⟩
    · have hhead := List.head?_dropWhile_not white s
      rw [hfront, hc] at hhead
      simpa using hhead
    · obtain ⟨hne, rfl⟩ := List.mem_getLast?_eq_getLast hc
      simpa using List.rdropWhile_eq_self_iff.mp hback hne
  · rintro ⟨hhead, hlast⟩
    have hfront : s.dropWhile white = s := by
      cases s with
      | nil => rfl
      | cons c s => rw [List.dropWhile_cons_of_neg (by simp [hhead c rfl])]
    rw [stripWith, hfront, List.rdropWhile_eq_self_iff]
    intro hne
    simp [hlast _ (List.getLast?_eq_getLast_of_ne_nil hne)]

theorem stripWith_cons_of_white {c : Char} (hc : white c = true) (s : Text) :
    stripWith white (c :: s) = stripWith white s := by
  rw [stripWith, List.dropWhile_cons_of_pos hc, stripWith]

/-- Blanks behind a text are taken off with it. -/
theorem stripWith_append_of_white {v : Text} (hv : ∀ c ∈ v, white c = true) (s : Text) :
    stripWith white (s ++ v) = stripWith white s := by
  have hend : (s ++ v).rdropWhile white = s.rdropWhile white := by
    induction v using List.reverseRecOn with
    | nil => rw [List.append_nil]
    | append_singleton v c ih =>
      have hc : white c = true := hv c (by simp)
      rw [← List.append_assoc, List.rdropWhile_concat_pos _ _ _ hc]
      exact ih fun d hd => hv d (List.mem_append_left _ hd)
  rw [← stripWith_rdropWhile, hend, stripWith_rdropWhile]

theorem stripWith_append_replicate {c : Char} (hc : white c = true) (s : Text) (n : Nat) :
    stripWith white (s ++ List.replicate n c) = stripWith white s := by
  apply stripWith_append_of_white
  intro d hd
  rwa [List.eq_of_mem_replicate hd]

end Strip

def strip (s : Text) : Text := stripWith Char.isWhitespace s

end Natc.Lib
