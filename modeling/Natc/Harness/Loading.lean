import Natc.Harness.Sections

/-!
# Loading the `.lst` file

The loader cuts the file at the lines it takes for headers. Where every line of a section counts
for that section and no header without a frame follows a line that looks like one, it finds the
sections again; else the section in front of such a header loses its last two lines.
-/

namespace Natc.Harness.Golden

open Lib

section Header

theorem headerKey_of_not_prefix {l : Text} (h : ¬ sectorMark <+: l) : headerKey l = none := by
  rw [headerKey]
  exact if_neg fun hall => h hall.1

theorem upToLast_append {d z : Text} (hz : ';' ∈ z) :
    ((d ++ z).reverse.dropWhile (· ≠ ';')).tail.reverse =
      d ++ (z.reverse.dropWhile (· ≠ ';')).tail.reverse := by
  have hne : z.reverse.dropWhile (· ≠ ';') ≠ [] := by
    intro h
    have hall := List.dropWhile_eq_nil_iff.mp h ';' (List.mem_reverse.mpr hz)
    simp at hall
  rw [List.reverse_append, List.dropWhile_append, if_neg (by simpa using hne),
    List.tail_append_of_ne_nil hne, List.reverse_append, List.reverse_reverse]

theorem upToLast_prefix (z : Text) : (z.reverse.dropWhile (· ≠ ';')).tail.reverse <+: z := by
  have hsuf : (z.reverse.dropWhile (· ≠ ';')).tail <:+ z.reverse :=
    (List.tail_suffix _).trans (List.dropWhile_suffix _)
  simpa using List.reverse_prefix.mpr hsuf

/-- The number is read back from the digits, whatever stands behind them. -/
theorem sectorNumber_toDigits (n : Nat) {w : Text} (hw : ∀ c ∈ w.head?, c.isDigit = false) :
    sectorNumber (Nat.toDigits 10 n ++ w) = .num n := by
  have hdigits : ∀ c ∈ Nat.toDigits 10 n, c.isDigit = true :=
    fun c hc => Nat.isDigit_of_mem_toDigits (by decide) (by decide) hc
  have htake : (Nat.toDigits 10 n ++ w).takeWhile Char.isDigit = Nat.toDigits 10 n := by
    rw [List.takeWhile_append_of_pos hdigits]
    cases w with
    | nil => simp
    | cons c w => simp [hw c rfl]
  rw [sectorNumber, htake, if_pos Nat.toDigits_ne_nil,
    Nat.ofDigitChars_toDigits (by decide) (by decide)]

/-- A header is read with its own number. -/
theorem headerKey_text (h : Header) : headerKey h.text = some (.num h.q_sct) := by
  have hmark : sectorMark <+: h.text := ⟨_, rfl⟩
  let z : Text := (if h.parm = [] ∨ h.parm = ['0'] then [] else ',' :: h.parm) ++ ';' :: h.mess
  have hrest : h.text.drop sectorMark.length = ' ' :: (Nat.toDigits 10 h.q_sct ++ z) := by
    rw [Header.text, List.drop_left]
  have hz : ';' ∈ z := List.mem_append_right _ List.mem_cons_self
  have hgroup : (' ' :: (Nat.toDigits 10 h.q_sct ++ z)).dropWhile isSpace =
      Nat.toDigits 10 h.q_sct ++ z := by
    rw [List.dropWhile_cons_of_pos rfl]
    obtain ⟨c, cs, hcs⟩ := List.exists_cons_of_ne_nil (Nat.toDigits_ne_nil (b := 10) (n := h.q_sct))
    have hc : c.isDigit = true := Nat.isDigit_of_mem_toDigits (by decide) (by decide)
      (hcs ▸ List.mem_cons_self)
    rw [hcs, List.cons_append, List.dropWhile_cons_of_neg]
    intro hspace
    simp only [isSpace, Bool.or_eq_true, beq_iff_eq] at hspace
    simp only [Char.isDigit, Bool.and_eq_true, decide_eq_true_eq] at hc
    have hlow : 48 ≤ c.toNat := hc.1
    rcases hspace with ((((rfl | rfl) | rfl) | rfl) | h) | h <;> first | omega | simp at hlow
  have hhead : ∀ c ∈ ((z.reverse.dropWhile (· ≠ ';')).tail.reverse).head?, c.isDigit = false := by
    intro c hc
    have hpre := upToLast_prefix z
    have hcz : z.head? = some c := by
      obtain ⟨t, ht⟩ := hpre
      rw [← ht, List.head?_append, hc]
      rfl
    simp only [z] at hcz
    split at hcz <;> simp at hcz <;> subst hcz <;> rfl
  rw [headerKey, if_pos]
  · rw [hrest, hgroup, upToLast_append hz, sectorNumber_toDigits _ hhead]
  · rw [hrest, hgroup]
    exact ⟨hmark, rfl, List.mem_append_right _ hz⟩

end Header

section Lists

variable {k k' : SectKey} {ls : List Text} {d : Expect} {s : Loader}

@[simp] theorem Expect.lst_insert : Expect.lst (d.insert k' ls) k = if k = k' then ls else d.lst k := by
  rw [Expect.lst]
  split
  · rename_i h
    subst h
    rw [AList.lookup_insert]
    rfl
  · rename_i h
    rw [AList.lookup_insert_ne h, Expect.lst]

@[simp] theorem Loader.lst_push :
    Expect.lst (Loader.push d k' ls) k = if k = k' then d.lst k ++ ls else d.lst k := by
  rw [Loader.push, Expect.lst_insert]
  split
  · rename_i h
    rw [h]
  · rfl

@[simp] theorem Loader.mem_push : k ∈ Loader.push d k' ls ↔ k = k' ∨ k ∈ d := by
  rw [Loader.push, AList.mem_insert]

end Lists

namespace Loader

variable {s : Loader} {k : SectKey} {l : Text}

/-- The lists that are kept: where the header of a line moves two lines, it is as long as before. -/
theorem line_none (h : headerKey l = none) :
    s.line l = ⟨push s.diffs s.sect_ptr [l], s.sect_ptr, l⟩ := by
  rw [line, h]

theorem line_some (h : headerKey l = some k) (hp : ¬ ['+', '-', '-'] <+: s.prev_line) :
    s.line l = ⟨push s.diffs k [l], k, l⟩ := by
  rw [line, h]
  dsimp only
  rw [if_neg hp]

/-- A header behind a line that looks like the upper line of a frame. -/
theorem line_border (h : headerKey l = some k) (hp : ['+', '-', '-'] <+: s.prev_line) :
    s.line l = ⟨push (push (s.diffs.insert s.sect_ptr (s.diffs.lst s.sect_ptr).dropLast.dropLast) k
      (lastTwo (s.diffs.lst s.sect_ptr))) k [l], k, l⟩ := by
  rw [line, h]
  dsimp only
  rw [if_pos hp]

@[simp] theorem prev_line_line : (s.line l).prev_line = l := by
  rw [line]
  split <;> rfl

/-- No line for the sector `k`, which the loader has left. -/
theorem foldl_lst_of_ne (ls : List Text) (hptr : s.sect_ptr ≠ k)
    (hls : ∀ l ∈ ls, headerKey l ≠ some k) :
    (ls.foldl line s).diffs.lst k = s.diffs.lst k := by
  induction ls generalizing s with
  | nil => rfl
  | cons l ls ih =>
    have hl := hls l List.mem_cons_self
    have hrest : ∀ l' ∈ ls, headerKey l' ≠ some k := fun l' h => hls l' (List.mem_cons_of_mem _ h)
    rw [List.foldl_cons]
    cases hk : headerKey l with
    | none =>
      rw [ih (by rw [line_none hk]; exact hptr) hrest, line_none hk, lst_push, if_neg hptr.symm]
    | some m =>
      have hm : m ≠ k := fun h => hl (h ▸ hk)
      by_cases hp : ['+', '-', '-'] <+: s.prev_line
      · rw [ih (by rw [line_border hk hp]; exact hm) hrest, line_border hk hp]
        simp [hm.symm, hptr.symm]
      · rw [ih (by rw [line_some hk hp]; exact hm) hrest, line_some hk hp, lst_push,
          if_neg hm.symm]

/-- All keys are among those of the headers. -/
theorem foldl_keys (K : SectKey → Prop) (ls : List Text) (hptr : K s.sect_ptr)
    (hkeys : ∀ k ∈ s.diffs, K k) (hls : ∀ l ∈ ls, ∀ k ∈ headerKey l, K k) :
    ∀ k ∈ (ls.foldl line s).diffs, K k := by
  induction ls generalizing s with
  | nil => exact hkeys
  | cons l ls ih =>
    have hl := hls l List.mem_cons_self
    have hrest : ∀ l' ∈ ls, ∀ k ∈ headerKey l', K k := fun l' h => hls l' (List.mem_cons_of_mem _ h)
    rw [List.foldl_cons]
    cases hk : headerKey l with
    | none =>
      rw [line_none hk]
      refine ih hptr ?_ hrest
      intro k hmem
      rcases mem_push.mp hmem with rfl | hmem
      · exact hptr
      · exact hkeys k hmem
    | some m =>
      have hm : K m := hl m hk
      by_cases hp : ['+', '-', '-'] <+: s.prev_line
      · rw [line_border hk hp]
        refine ih hm ?_ hrest
        intro k hmem
        simp only [mem_push, AList.mem_insert] at hmem
        rcases hmem with rfl | rfl | rfl | hmem
        · exact hm
        · exact hm
        · exact hptr
        · exact hkeys k hmem
      · rw [line_some hk hp]
        refine ih hm ?_ hrest
        intro k hmem
        rcases mem_push.mp hmem with rfl | hmem
        · exact hm
        · exact hkeys k hmem

theorem lastTwo_append {lst : List Text} (h : 2 ≤ lst.length) :
    lst.dropLast.dropLast ++ lastTwo lst = lst := by
  have hne : lst ≠ [] := by
    intro hnil
    simp [hnil] at h
  have hne' : lst.dropLast ≠ [] := by
    intro hnil
    have := congrArg List.length hnil
    simp at this
    omega
  rw [lastTwo, List.getLastD_eq_getLast?, List.getLastD_eq_getLast?, List.getLast?_eq_some_getLast hne',
    List.getLast?_eq_some_getLast hne, Option.getD_some, Option.getD_some, List.append_cons,
    List.dropLast_append_getLast hne', List.dropLast_append_getLast hne]

/-- Lines of the sector `k`, while it is filled. -/
theorem foldl_body (ls : List Text) (hptr : s.sect_ptr = k) (hne : s.diffs.lst k ≠ [])
    (hprev : ['+', '-', '-'] <+: s.prev_line → 2 ≤ (s.diffs.lst k).length)
    (hls : ∀ l ∈ ls, ∀ m ∈ headerKey l, m = k) :
    (∀ j, (ls.foldl line s).diffs.lst j =
      if j = k then s.diffs.lst k ++ ls else s.diffs.lst j) ∧
    (ls.foldl line s).sect_ptr = k ∧ (ls.foldl line s).prev_line = ls.getLastD s.prev_line := by
  induction ls generalizing s with
  | nil =>
    refine ⟨fun j => ?_, hptr, rfl⟩
    rw [List.append_nil, List.foldl_nil]
    split
    · rename_i h
      rw [h]
    · rfl
  | cons l ls ih =>
    have hl := hls l List.mem_cons_self
    have hrest : ∀ l' ∈ ls, ∀ m ∈ headerKey l', m = k := fun l' h =>
      hls l' (List.mem_cons_of_mem _ h)
    -- whatever the line is, it ends the list of the sector, and all other lists are kept
    have hstep : (s.line l).sect_ptr = k ∧
        ∀ j, (s.line l).diffs.lst j =
          if j = k then s.diffs.lst k ++ [l] else s.diffs.lst j := by
      cases hk : headerKey l with
      | none =>
        rw [line_none hk, hptr]
        refine ⟨rfl, fun j => ?_⟩
        rw [lst_push]
        split
        · rename_i h
          rw [h]
        · rfl
      | some m =>
        obtain rfl : m = k := hl m hk
        by_cases hp : ['+', '-', '-'] <+: s.prev_line
        · rw [line_border hk hp, hptr]
          refine ⟨rfl, fun j => ?_⟩
          rw [lst_push, lst_push, Expect.lst_insert]
          split
          · rw [lastTwo_append (hprev hp)]
          · rfl
        · rw [line_some hk hp]
          refine ⟨rfl, fun j => ?_⟩
          rw [lst_push]
          split
          · rename_i h
            rw [h]
          · rfl
    have hlist : (s.line l).diffs.lst k = s.diffs.lst k ++ [l] := by
      rw [hstep.2 k, if_pos rfl]
    have hlen : 2 ≤ ((s.line l).diffs.lst k).length := by
      have := List.length_pos_iff.mpr hne
      rw [hlist, List.length_append, List.length_singleton]
      omega
    have hne' : (s.line l).diffs.lst k ≠ [] := by
      rw [hlist]
      simp
    obtain ⟨hlst, hp, hlast⟩ := ih hstep.1 hne' (fun _ => hlen) hrest
    rw [List.foldl_cons]
    refine ⟨fun j => ?_, hp, ?_⟩
    · rw [hlst j, hlist, hstep.2 j]
      split
      · rw [List.append_assoc, List.singleton_append]
      · rfl
    · rw [hlast, prev_line_line, List.getLastD_cons]

section Sections

variable {a b : Section} {ss : List Section}

theorem shown_of_head {c : Char} {l : Text} (h : c ≠ '.') : shown (c :: l) = c :: l := by
  rw [shown, if_neg]
  intro hpre
  exact h (List.cons_prefix_cons.mp hpre).1.symm

theorem map_shown_lines (h : Header) : h.lines.map shown = h.lines := by
  have htext : shown h.text = h.text := shown_of_head (by decide)
  rw [Header.lines]
  split
  · simp only [List.map_cons, List.map_nil, htext]
    rfl
  · simp only [List.map_cons, List.map_nil, htext]

theorem texts_of_printed (h : a.printed = true) : a.texts = a.h.lines ++ a.body.map shown := by
  rw [Section.texts, Section.lines, if_pos h, List.map_append, map_shown_lines]

theorem texts_of_not_printed (h : a.printed = false) (hbody : a.body = []) : a.texts = [] := by
  simp [Section.texts, Section.lines, h, hbody]

theorem num_inj {m n : Nat} : SectKey.num m = .num n ↔ m = n := by
  rw [SectKey.num.injEq, Int.ofNat_inj]

theorem headerKey_blank : headerKey [' '] = none := headerKey_of_not_prefix (by decide)

theorem headerKey_bar : headerKey Header.bar = none := headerKey_of_not_prefix (by decide)

/-- The lines of a section that reads its own headers only. -/
theorem headerKey_texts (hown : a.Own) (hbody : a.printed = false → a.body = []) {l : Text}
    (hl : l ∈ a.texts) : ∀ k ∈ headerKey l, k = .num a.h.q_sct := by
  intro k hk
  cases hp : a.printed with
  | false =>
    rw [texts_of_not_printed hp (hbody hp)] at hl
    cases hl
  | true =>
    rw [texts_of_printed hp, List.mem_append] at hl
    rcases hl with hl | hl
    · rw [Header.lines] at hl
      split at hl
      · simp only [List.mem_cons, List.not_mem_nil, or_false] at hl
        rcases hl with rfl | rfl | rfl | rfl | rfl
        · rw [headerKey_blank] at hk
          cases hk
        · rw [headerKey_bar] at hk
          cases hk
        · rw [headerKey_text] at hk
          exact (Option.some.inj hk).symm
        · rw [headerKey_bar] at hk
          cases hk
        · rw [headerKey_blank] at hk
          cases hk
      · rw [List.mem_singleton.mp hl, headerKey_text] at hk
        exact (Option.some.inj hk).symm
    · obtain ⟨l', hl', rfl⟩ := List.mem_map.mp hl
      exact hown l' hl' k hk

/-- The upper part of a frame is first taken for the end of the sector before, and moved by the
header. -/
theorem foldl_frame (h : Header) (hfresh : s.diffs.lst (.num h.q_sct) = []) :
    (∀ j, ([[' '], Header.bar, h.text].foldl line s).diffs.lst j =
      if j = .num h.q_sct then [[' '], Header.bar, h.text] else s.diffs.lst j) ∧
    ([[' '], Header.bar, h.text].foldl line s).sect_ptr = .num h.q_sct := by
  let s₂ : Loader := ⟨push (push s.diffs s.sect_ptr [[' ']]) s.sect_ptr [Header.bar], s.sect_ptr,
    Header.bar⟩
  have hfold : [[' '], Header.bar, h.text].foldl line s = s₂.line h.text := by
    rw [List.foldl_cons, List.foldl_cons, List.foldl_cons, List.foldl_nil,
      line_none headerKey_blank, line_none headerKey_bar]
  have hmoved : s₂.diffs.lst s₂.sect_ptr = s.diffs.lst s.sect_ptr ++ [[' '], Header.bar] := by
    simp [s₂]
  have hborder : ['+', '-', '-'] <+: Header.bar := by decide
  have hs₃ := line_border (s := s₂) (headerKey_text h) hborder
  rw [hfold]
  refine ⟨fun j => ?_, by rw [hs₃]⟩
  rw [hs₃, hmoved]
  have hdrop : (s.diffs.lst s.sect_ptr ++ [[' '], Header.bar]).dropLast.dropLast =
      s.diffs.lst s.sect_ptr := by
    simp
  have htwo : lastTwo (s.diffs.lst s.sect_ptr ++ [[' '], Header.bar]) =
      [[' '], Header.bar] := by
    simp [lastTwo]
  rw [hdrop, htwo, lst_push, lst_push, Expect.lst_insert]
  have hptr : s₂.sect_ptr = s.sect_ptr := rfl
  rw [hptr]
  by_cases hj : j = .num h.q_sct
  · subst hj
    by_cases hp : SectKey.num h.q_sct = s.sect_ptr
    · rw [← hp]
      simp [hfresh]
    · simp [hp, s₂, hfresh]
  · rw [if_neg hj, if_neg hj, if_neg hj]
    split
    · rename_i hp
      rw [hp]
    · rename_i hp
      simp [s₂, hp]

/-- A header, with or without its frame, starts the list of its sector. -/
theorem foldl_header (h : Header) (hfresh : s.diffs.lst (.num h.q_sct) = [])
    (hopens : ¬ byATC <:+: h.mess → ¬ ['+', '-', '-'] <+: s.prev_line) :
    (∀ j, (h.lines.foldl line s).diffs.lst j =
      if j = .num h.q_sct then h.lines else s.diffs.lst j) ∧
    (h.lines.foldl line s).sect_ptr = .num h.q_sct ∧
    (['+', '-', '-'] <+: (h.lines.foldl line s).prev_line → 2 ≤ h.lines.length) := by
  by_cases hatc : byATC <:+: h.mess
  · have hlines : h.lines = [[' '], Header.bar, h.text] ++ [Header.bar, [' ']] := by
      rw [Header.lines, if_pos hatc]
      rfl
    obtain ⟨hlst, hptr⟩ := foldl_frame h hfresh
    have hmine : ([[' '], Header.bar, h.text].foldl line s).diffs.lst (.num h.q_sct) =
        [[' '], Header.bar, h.text] := by
      rw [hlst, if_pos rfl]
    have hrest := foldl_body [Header.bar, [' ']] hptr (by rw [hmine]; simp)
      (fun _ => by rw [hmine]; simp) (by
        intro l hl m hm
        rcases List.mem_pair.mp hl with rfl | rfl
        · rw [headerKey_bar] at hm
          cases hm
        · rw [headerKey_blank] at hm
          cases hm)
    rw [hlines, List.foldl_append]
    refine ⟨fun j => ?_, hrest.2.1, fun _ => by simp⟩
    rw [hrest.1 j, hmine]
    split
    · rfl
    · rename_i hj
      rw [hlst, if_neg hj]
  · have hlines : h.lines = [h.text] := by rw [Header.lines, if_neg hatc]
    rw [hlines, List.foldl_cons, List.foldl_nil, line_some (headerKey_text h) (hopens hatc)]
    refine ⟨fun j => ?_, rfl, fun hp => absurd hp ?_⟩
    · rw [lst_push]
      split
      · rename_i hj
        rw [hj, hfresh, List.nil_append]
      · rfl
    · intro hpre
      exact absurd (List.cons_prefix_cons.mp hpre).1 (by decide)

/-- A section whose header does not stand alone behind a border becomes the list of its sector. -/
theorem foldl_section (hp : a.printed = true) (hown : a.Own)
    (hfresh : s.diffs.lst (.num a.h.q_sct) = [])
    (hopens : a.opens → ¬ ['+', '-', '-'] <+: s.prev_line) :
    (∀ j, (a.texts.foldl line s).diffs.lst j =
      if j = .num a.h.q_sct then a.texts else s.diffs.lst j) ∧
    (a.texts.foldl line s).sect_ptr = .num a.h.q_sct ∧
    (a.texts.foldl line s).prev_line = a.texts.getLastD [] := by
  obtain ⟨hlst, hptr, hprev⟩ := foldl_header a.h hfresh fun h => hopens ⟨hp, h⟩
  have hlist : (a.h.lines.foldl line s).diffs.lst (.num a.h.q_sct) = a.h.lines := by
    rw [hlst, if_pos rfl]
  have hne : a.h.lines ≠ [] := by
    rw [Header.lines]
    split <;> simp
  have hbody := foldl_body (s := a.h.lines.foldl line s) (a.body.map shown) hptr
    (by rw [hlist]; exact hne) (by rw [hlist]; exact hprev)
    (by
      intro l hl m hm
      obtain ⟨l', hl', rfl⟩ := List.mem_map.mp hl
      exact hown l' hl' m hm)
  have hlast : (a.h.lines.foldl line s).prev_line = a.h.lines.getLastD [] := by
    rcases List.eq_nil_or_concat a.h.lines with h | ⟨ls, l, h⟩
    · exact absurd h hne
    · rw [h, List.concat_eq_append, List.foldl_append, List.foldl_cons, List.foldl_nil,
        prev_line_line, List.getLastD_concat]
  rw [texts_of_printed hp, List.foldl_append]
  refine ⟨fun j => ?_, hbody.2.1, ?_⟩
  · rw [hbody.1 j, hlist]
    split
    · rfl
    · rename_i hj
      rw [hlst, if_neg hj]
  · rw [hbody.2.2, hlast]
    simp [List.getLastD_eq_getLast?, List.getLast?_append]

/-- What the loader makes of well cut sections: each has its own list, and the last one is where
it stands. -/
structure Loaded (ss : List Section) (s s' : Loader) : Prop where
  lst : ∀ a ∈ ss, s'.diffs.lst (.num a.h.q_sct) = a.texts
  other : ∀ j, (∀ a ∈ ss, j ≠ .num a.h.q_sct) → s'.diffs.lst j = s.diffs.lst j
  last : ∀ a ∈ ss.getLast?, a.printed = true →
    s'.sect_ptr = .num a.h.q_sct ∧ s'.prev_line = a.texts.getLastD []

/-- Where a header without a frame stands, the section in front of it was printed and does not end
with a border. -/
def Follows (a b : Section) : Prop := b.opens → a.printed = true ∧ ¬ a.border

theorem loaded_sections (ss : List Section) (hnodup : (ss.map fun a => a.h.q_sct).Nodup)
    (hown : ∀ a ∈ ss, a.Own) (hbody : ∀ a ∈ ss, a.printed = false → a.body = [])
    (hfresh : ∀ a ∈ ss, s.diffs.lst (.num a.h.q_sct) = [])
    (hfirst : ∀ a ∈ ss.head?, a.opens → ¬ ['+', '-', '-'] <+: s.prev_line)
    (hchain : ss.IsChain Follows) :
    Loaded ss s ((ss.flatMap (·.texts)).foldl line s) := by
  induction ss generalizing s with
  | nil => exact ⟨by simp, fun _ _ => rfl, by simp⟩
  | cons a ss ih =>
    rw [List.map_cons, List.nodup_cons] at hnodup
    obtain ⟨hfollows, hchain⟩ := List.isChain_cons.mp hchain
    have hne : ∀ b ∈ ss, SectKey.num b.h.q_sct ≠ .num a.h.q_sct := by
      intro b hb heq
      apply hnodup.1
      exact List.mem_map.mpr ⟨b, hb, num_inj.mp heq⟩
    have hmem : ∀ b ∈ ss, b ∈ a :: ss := fun b hb => List.mem_cons_of_mem _ hb
    have ha : a ∈ a :: ss := List.mem_cons_self
    have hrest := fun (t : Loader) => ih (s := t) hnodup.2 (fun b hb => hown b (hmem b hb))
      (fun b hb => hbody b (hmem b hb))
    rw [List.flatMap_cons, List.foldl_append]
    cases hp : a.printed with
    | false =>
      have htexts : a.texts = [] := texts_of_not_printed hp (hbody a ha hp)
      rw [htexts, List.foldl_nil]
      have hloaded := hrest s (fun b hb => hfresh b (hmem b hb))
        (fun b hb hopens => absurd (hfollows b hb hopens).1 (by simp [hp])) hchain
      refine ⟨fun b hb => ?_, fun j hj => ?_, fun b hb hbp => ?_⟩
      · rcases List.mem_cons.mp hb with rfl | hb
        · rw [hloaded.other _ fun c hc => (hne c hc).symm, hfresh _ ha, htexts]
        · exact hloaded.lst b hb
      · exact hloaded.other j fun b hb => hj b (hmem b hb)
      · cases ss with
        | nil =>
          have heq : b = a := by simpa using hb.symm
          rw [heq, hp] at hbp
          cases hbp
        | cons c ss => exact hloaded.last b (by simpa using hb) hbp
    | true =>
      obtain ⟨hlst, hptr, hprev⟩ := foldl_section hp (hown a ha) (hfresh a ha)
        (hfirst a rfl)
      have hloaded := hrest (a.texts.foldl line s)
        (fun b hb => by rw [hlst, if_neg (hne b hb), hfresh b (hmem b hb)])
        (fun b hb hopens => by
          rw [hprev]
          exact (hfollows b hb hopens).2) hchain
      refine ⟨fun b hb => ?_, fun j hj => ?_, fun b hb hbp => ?_⟩
      · rcases List.mem_cons.mp hb with rfl | hb
        · rw [hloaded.other _ fun c hc => (hne c hc).symm, hlst, if_pos rfl]
        · exact hloaded.lst b hb
      · rw [hloaded.other j fun b hb => hj b (hmem b hb), hlst, if_neg (hj a ha)]
      · cases ss with
        | nil =>
          have heq : b = a := by simpa using hb.symm
          rw [heq]
          exact ⟨hptr, hprev⟩
        | cons c ss => exact hloaded.last b (by simpa using hb) hbp

/-- In front of the first header without a frame that follows a border, two lines are lost. -/
theorem foldl_border (pre post : List Section) (a b : Section)
    (hnodup : ((pre ++ a :: b :: post).map fun a => a.h.q_sct).Nodup)
    (hown : ∀ c ∈ pre ++ a :: b :: post, c.Own)
    (hbody : ∀ c ∈ pre ++ a :: b :: post, c.printed = false → c.body = [])
    (hfresh : ∀ c ∈ pre ++ a :: b :: post, s.diffs.lst (.num c.h.q_sct) = [])
    (hfirst : ∀ c ∈ (pre ++ [a]).head?, c.opens → ¬ ['+', '-', '-'] <+: s.prev_line)
    (hchain : (pre ++ [a]).IsChain Follows)
    (hopens : b.opens) (hp : a.printed = true) (hborder : a.border) :
    (((pre ++ a :: b :: post).flatMap (·.texts)).foldl line s).diffs.lst (.num a.h.q_sct) =
      a.texts.dropLast.dropLast := by
  have hsub : (pre ++ [a]).Sublist (pre ++ a :: b :: post) := by
    rw [List.append_cons pre a (b :: post)]
    exact List.sublist_append_left _ _
  have hloaded := loaded_sections (s := s) (pre ++ [a])
    (hnodup.sublist (hsub.map _)) (fun c hc => hown c (hsub.subset hc))
    (fun c hc => hbody c (hsub.subset hc)) (fun c hc => hfresh c (hsub.subset hc)) hfirst hchain
  obtain ⟨hptr, hprev⟩ := hloaded.last a (by simp) hp
  have hne : ∀ c ∈ b :: post, SectKey.num c.h.q_sct ≠ .num a.h.q_sct := by
    intro c hc heq
    rw [List.map_append, List.nodup_append] at hnodup
    have hcons := (List.nodup_cons.mp hnodup.2.1).1
    apply hcons
    exact List.mem_map.mpr ⟨c, hc, num_inj.mp heq⟩
  have hlines : b.h.lines = [b.h.text] := by rw [Header.lines, if_neg hopens.2]
  have htexts : (pre ++ a :: b :: post).flatMap (·.texts) = (pre ++ [a]).flatMap (·.texts) ++
      b.h.text :: (b.body.map shown ++ post.flatMap (·.texts)) := by
    rw [List.append_cons pre a (b :: post), List.flatMap_append, List.flatMap_cons,
      texts_of_printed hopens.1, hlines]
    rfl
  have hline := line_border (s := ((pre ++ [a]).flatMap (·.texts)).foldl line s)
    (headerKey_text b.h) (by rw [hprev]; exact hborder)
  have hnb : SectKey.num b.h.q_sct ≠ .num a.h.q_sct := hne b List.mem_cons_self
  rw [htexts, List.foldl_append, List.foldl_cons, foldl_lst_of_ne]
  · rw [hline, hptr, hloaded.lst a (by simp)]
    simp [hnb.symm]
  · rw [hline]
    exact hnb
  · intro l hl hk
    have hmem : ∃ c ∈ b :: post, l ∈ c.texts := by
      rcases List.mem_append.mp hl with hl | hl
      · use b, List.mem_cons_self
        rw [texts_of_printed hopens.1]
        exact List.mem_append_right _ hl
      · obtain ⟨c, hc, hl⟩ := List.mem_flatMap.mp hl
        exact ⟨c, List.mem_cons_of_mem _ hc, hl⟩
    obtain ⟨c, hc, hl⟩ := hmem
    have hall : c ∈ pre ++ a :: b :: post :=
      List.mem_append_right _ (List.mem_cons_of_mem _ hc)
    exact hne c hc (headerKey_texts (hown c hall) (hbody c hall) hl _ hk).symm

end Sections

end Loader

end Natc.Harness.Golden
