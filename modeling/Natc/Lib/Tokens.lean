import Mathlib.Data.List.Basic
import Mathlib.Data.List.DropRight
import Natc.Lib.Text

/-!
# Words between separators

The words of a text are its longest stretches without a separator. A text that is written as words
behind single separators has these words again.
-/

namespace Natc.Lib

variable {α : Type*} (sep : α → Bool)

/-- The words of a text. -/
def tokens (s : List α) : List (List α) := (s.splitOnP sep).filter fun w => !w.isEmpty

/-- A word has no separator in it. -/
def IsWord (w : List α) : Prop := ∀ c ∈ w, sep c = false

instance : DecidablePred (IsWord sep) := fun w =>
  decidable_of_iff ((w.all fun c => !sep c) = true) (by simp [IsWord])

/-- Words, each behind a separator. -/
def spread (c : α) (ws : List (List α)) : List α := ws.flatMap (c :: ·)

section Tokens

variable {sep}

theorem tokens_word {w : List α} (hw : IsWord sep w) (hne : w ≠ []) : tokens sep w = [w] := by
  rw [tokens, List.splitOnP_eq_singleton hw]
  simp [hne]

theorem tokens_append {c : α} (hc : sep c) (s t : List α) :
    tokens sep (s ++ c :: t) = tokens sep s ++ tokens sep t := by
  rw [tokens, List.splitOnP_append_cons s t hc, List.filter_append]
  rfl

/-- The words of two texts, one of which has a separator where they meet. -/
theorem tokens_append_of_last {s : List α} (h : ∀ c ∈ s.getLast?, sep c) (t : List α) :
    tokens sep (s ++ t) = tokens sep s ++ tokens sep t := by
  rcases List.eq_nil_or_concat s with rfl | ⟨u, c, rfl⟩
  · rfl
  · rw [List.concat_eq_append] at h ⊢
    have hc : sep c := h c (by simp)
    rw [List.append_assoc, List.singleton_append, tokens_append hc, tokens_append hc,
      List.append_assoc]
    rfl

theorem tokens_append_of_head {t : List α} (h : ∀ c ∈ t.head?, sep c) (s : List α) :
    tokens sep (s ++ t) = tokens sep s ++ tokens sep t := by
  cases t with
  | nil =>
    rw [List.append_nil]
    exact (List.append_nil _).symm
  | cons c t =>
    have hc : sep c := h c rfl
    rw [tokens_append hc]
    exact congrArg _ (tokens_append hc [] t).symm

theorem tokens_eq_nil {s : List α} (h : ∀ c ∈ s, sep c) : tokens sep s = [] := by
  induction s with
  | nil => rfl
  | cons c s ih =>
    obtain ⟨hc, hs⟩ := List.forall_mem_cons.mp h
    exact (tokens_append hc [] s).trans (ih hs)

private theorem flatten_splitOnP (s : List α) :
    (s.splitOnP sep).flatten = s.filter fun c => !sep c := by
  induction s with
  | nil => rfl
  | cons c s ih =>
    rw [List.splitOnP_cons_eq_if_modifyHead, List.filter_cons]
    split
    · next hc => simp [hc, ih]
    · next hc =>
      obtain ⟨w, ws, hws⟩ := List.exists_cons_of_ne_nil (List.splitOnP_ne_nil sep s)
      rw [hws] at ih ⊢
      rw [← ih]
      simp [hc]

/-- The words have all characters but the separators. -/
theorem flatten_tokens (s : List α) : (tokens sep s).flatten = s.filter fun c => !sep c := by
  rw [← flatten_splitOnP, tokens]
  exact List.flatten_filter_not_isEmpty

theorem sep_of_getLast?_rdropWhile (s : List α) :
    ∀ c ∈ (s.rdropWhile fun c => !sep c).getLast?, sep c = true := by
  intro c hc
  have hne : (s.rdropWhile fun c => !sep c) ≠ [] := by
    intro hnil
    rw [hnil] at hc
    cases hc
  rw [List.getLast?_eq_some_getLast hne] at hc
  obtain rfl := Option.some.inj hc
  simpa using List.rdropWhile_last_not (fun c => !sep c) s hne

/-- The last word of a text, what is in front of it, and the separators behind it. -/
theorem exists_last_token {s : List α} (h : tokens sep s ≠ []) :
    ∃ u w z, s = u ++ w ++ z ∧ (∀ c ∈ u.getLast?, sep c) ∧ IsWord sep w ∧ w ≠ [] ∧
      (∀ c ∈ z, sep c) ∧ tokens sep s = tokens sep u ++ [w] := by
  have hz : ∀ c ∈ s.rtakeWhile sep, sep c := fun c hc => List.mem_rtakeWhile_imp hc
  have hw : IsWord sep ((s.rdropWhile sep).rtakeWhile fun c => !sep c) := by
    intro c hc
    simpa using List.mem_rtakeWhile_imp hc
  have hu := @sep_of_getLast?_rdropWhile _ sep (s.rdropWhile sep)
  have hsplit : s = (s.rdropWhile sep).rdropWhile (fun c => !sep c) ++
      (s.rdropWhile sep).rtakeWhile (fun c => !sep c) ++ s.rtakeWhile sep := by
    rw [List.rdropWhile_append_rtakeWhile, List.rdropWhile_append_rtakeWhile]
  have hne : (s.rdropWhile sep).rtakeWhile (fun c => !sep c) ≠ [] := by
    intro hnil
    have hv : s.rdropWhile sep = [] := by
      by_contra hv
      have hlast := List.rdropWhile_last_not sep s hv
      exact List.rtakeWhile_eq_nil_iff.mp hnil hv (by simpa using hlast)
    rw [List.rdropWhile_eq_nil_iff] at hv
    exact h (tokens_eq_nil hv)
  refine ⟨_, _, _, hsplit, hu, hw, hne, hz, ?_⟩
  conv_lhs => rw [hsplit]
  rw [tokens_append_of_head fun c hc => hz c (List.mem_of_mem_head? hc),
    tokens_append_of_last hu, tokens_word hw hne, tokens_eq_nil hz, List.append_nil]

private theorem isWord_of_mem_splitOnP (s w : List α) (hw : w ∈ s.splitOnP sep) :
    IsWord sep w ∧ ∀ c ∈ w, c ∈ s := by
  induction s generalizing w with
  | nil =>
    obtain rfl : w = [] := by simpa using hw
    exact ⟨by simp [IsWord], by simp⟩
  | cons c s ih =>
    rw [List.splitOnP_cons_eq_if_modifyHead] at hw
    split at hw
    · rcases List.mem_cons.mp hw with rfl | hw
      · exact ⟨by simp [IsWord], by simp⟩
      · exact ⟨(ih w hw).1, fun d hd => List.mem_cons_of_mem _ ((ih w hw).2 d hd)⟩
    · rename_i hc
      obtain ⟨v, vs, hv⟩ := List.exists_cons_of_ne_nil (List.splitOnP_ne_nil sep s)
      have hin := ih
      rw [hv] at hw hin
      rcases List.mem_cons.mp hw with rfl | hw
      · obtain ⟨hword, hmem⟩ := hin v List.mem_cons_self
        refine ⟨List.forall_mem_cons.mpr ⟨by simpa using hc, hword⟩, fun d hd => ?_⟩
        rcases List.mem_cons.mp hd with rfl | hd
        · exact List.mem_cons_self
        · exact List.mem_cons_of_mem _ (hmem d hd)
      · obtain ⟨hword, hmem⟩ := hin w (List.mem_cons_of_mem _ hw)
        exact ⟨hword, fun d hd => List.mem_cons_of_mem _ (hmem d hd)⟩

/-- The words of a text are words, and made of its characters. -/
theorem isWord_of_mem_tokens {s w : List α} (hw : w ∈ tokens sep s) :
    IsWord sep w ∧ ∀ c ∈ w, c ∈ s :=
  isWord_of_mem_splitOnP s w (List.mem_of_mem_filter hw)

theorem length_flatten_tokens_le (s : List α) : (tokens sep s).flatten.length ≤ s.length := by
  rw [flatten_tokens]
  exact List.length_filter_le _ s

theorem length_le_of_mem_tokens {s w : List α} (hw : w ∈ tokens sep s) : w.length ≤ s.length :=
  (List.sublist_flatten_of_mem hw).length_le.trans (length_flatten_tokens_le s)

theorem ne_nil_of_mem_tokens {s w : List α} (hw : w ∈ tokens sep s) : w ≠ [] := by
  have hne := (List.mem_filter.mp hw).2
  rintro rfl
  cases hne

theorem tokens_spread {c : α} (hc : sep c) (ws : List (List α))
    (hws : ∀ w ∈ ws, IsWord sep w ∧ w ≠ []) (w : List α) (hw : IsWord sep w) (hne : w ≠ []) :
    tokens sep (w ++ spread c ws) = w :: ws := by
  induction ws generalizing w with
  | nil => rw [spread, List.flatMap_nil, List.append_nil, tokens_word hw hne]
  | cons v ws ih =>
    obtain ⟨⟨hv, hvne⟩, hws⟩ := List.forall_mem_cons.mp hws
    rw [spread, List.flatMap_cons, List.cons_append, tokens_append hc, tokens_word hw hne]
    exact congrArg (w :: ·) (ih hws v hv hvne)

/-- Words in front of separators are words behind them, but for a separator at either end. -/
theorem cons_flatMap_concat (c : α) (ws : List (List α)) :
    c :: ws.flatMap (· ++ [c]) = spread c ws ++ [c] := by
  induction ws with
  | nil => rfl
  | cons w ws ih =>
    rw [List.flatMap_cons, List.append_assoc, List.singleton_append, ih, spread, spread,
      List.flatMap_cons, List.cons_append, List.cons_append, List.append_assoc]

theorem mem_spread {c d : α} {ws : List (List α)} (h : d ∈ spread c ws) :
    d = c ∨ ∃ w ∈ ws, d ∈ w := by
  obtain ⟨w, hw, hd⟩ := List.mem_flatMap.mp h
  exact (List.mem_cons.mp hd).imp_right fun hd => ⟨w, hw, hd⟩

theorem map_spread {β : Type*} (f : α → β) (c : α) (ws : List (List α)) :
    (spread c ws).map f = spread (f c) (ws.map (·.map f)) := by
  rw [spread, spread, List.map_flatMap, List.flatMap_map]
  rfl

end Tokens

section Scan

/-- The first word of a text, empty if there is none. -/
def firstWord (s : List α) : List α := (s.dropWhile sep).takeWhile fun c => !sep c

/-- What follows the first word. -/
def afterWord (s : List α) : List α := (s.dropWhile sep).dropWhile fun c => !sep c

variable {sep}

theorem firstWord_append_afterWord (s : List α) :
    firstWord sep s ++ afterWord sep s = s.dropWhile sep :=
  List.takeWhile_append_dropWhile

theorem isWord_firstWord (s : List α) : IsWord sep (firstWord sep s) := by
  intro c hc
  simpa using List.mem_takeWhile_imp hc

/-- Behind a word there is a separator or the end. -/
theorem sep_of_head?_afterWord {s : List α} : ∀ c ∈ (afterWord sep s).head?, sep c = true := by
  intro c hc
  have hhead := List.head?_dropWhile_not (fun c => !sep c) (s.dropWhile sep)
  rw [afterWord] at hc
  rw [hc] at hhead
  simpa using hhead

private theorem tokens_dropWhile (s : List α) : tokens sep (s.dropWhile sep) = tokens sep s := by
  induction s with
  | nil => rfl
  | cons c s ih =>
    by_cases hc : sep c
    · have hskip := tokens_append hc [] s
      rw [List.dropWhile_cons_of_pos hc, ih]
      exact hskip.symm
    · rw [List.dropWhile_cons_of_neg hc]

/-- The words of a text, one after the other. -/
theorem tokens_eq_firstWord (s : List α) (h : firstWord sep s ≠ []) :
    tokens sep s = firstWord sep s :: tokens sep (afterWord sep s) := by
  rw [← tokens_dropWhile, ← firstWord_append_afterWord]
  have hword := tokens_word (isWord_firstWord s) h
  cases hafter : afterWord sep s with
  | nil =>
    rw [List.append_nil, hword]
    rfl
  | cons c rest =>
    have hc : sep c := sep_of_head?_afterWord c (by rw [hafter]; rfl)
    have hrest := tokens_append hc [] rest
    rw [tokens_append hc, hword]
    exact congrArg (firstWord sep s :: ·) hrest.symm

theorem afterWord_eq_nil {s : List α} (h : firstWord sep s = []) : afterWord sep s = [] := by
  have hall : firstWord sep s ++ afterWord sep s = s.dropWhile sep := firstWord_append_afterWord s
  rw [h, List.nil_append] at hall
  cases hafter : afterWord sep s with
  | nil => rfl
  | cons c rest =>
    -- a text without separators in front does not begin with one
    have hc : sep c := @sep_of_head?_afterWord _ sep s c (by rw [hafter]; rfl)
    have hhead := List.head?_dropWhile_not sep s
    rw [← hall, hafter] at hhead
    simp [hc] at hhead

theorem tokens_eq_nil_of_firstWord {s : List α} (h : firstWord sep s = []) : tokens sep s = [] := by
  rw [← tokens_dropWhile, ← firstWord_append_afterWord, h, afterWord_eq_nil h]
  rfl

/-- The words by the scans that find them. -/
theorem firstWord_of_tokens {s w : List α} {ws : List (List α)} (h : tokens sep s = w :: ws) :
    firstWord sep s = w ∧ tokens sep (afterWord sep s) = ws := by
  by_cases hnil : firstWord sep s = []
  · rw [tokens_eq_nil_of_firstWord hnil] at h
    cases h
  · rw [tokens_eq_firstWord s hnil, List.cons.injEq] at h
    exact h

end Scan

section Words

variable {white : Char → Bool}

private theorem dropWordsWith_nil (i : Nat) : dropWordsWith white i [] = [] := by
  induction i with
  | zero => rfl
  | succ i ih => exact ih

/-- The word behind the first `i` ones. -/
theorem takeWhile_dropWordsWith (i : Nat) (s : Text) :
    (dropWordsWith white i s).takeWhile (fun c => !white c) = ((tokens white s)[i]?).getD [] := by
  induction i generalizing s with
  | zero =>
    show firstWord white s = _
    by_cases hfirst : firstWord white s = []
    · rw [tokens_eq_nil_of_firstWord hfirst, hfirst]
      rfl
    · rw [tokens_eq_firstWord s hfirst]
      rfl
  | succ i ih =>
    show (dropWordsWith white i (afterWord white s)).takeWhile _ = _
    by_cases hfirst : firstWord white s = []
    · rw [afterWord_eq_nil hfirst, dropWordsWith_nil, tokens_eq_nil_of_firstWord hfirst]
      rfl
    · rw [ih, tokens_eq_firstWord s hfirst, List.getElem?_cons_succ]

end Words

section Trim

variable {sep}

/-- Words, the last of them without the separators at its end. -/
def trimLast (sep : α → Bool) : List (List α) → List (List α)
  | [] => []
  | [w] => [w.rdropWhile sep]
  | w :: v :: ws => w :: trimLast sep (v :: ws)

theorem rdropWhile_append (s t : List α) (h : ∃ c ∈ t, sep c = false) :
    (s ++ t).rdropWhile sep = s ++ t.rdropWhile sep := by
  have hne : t.reverse.dropWhile sep ≠ [] := by
    intro hnil
    obtain ⟨c, hc, hcs⟩ := h
    have hall := List.dropWhile_eq_nil_iff.mp hnil c (List.mem_reverse.mpr hc)
    simp [hcs] at hall
  rw [List.rdropWhile, List.reverse_append, List.dropWhile_append, if_neg (by simpa using hne),
    List.reverse_append, List.reverse_reverse, List.rdropWhile]

theorem rdropWhile_spread (c : α) (ws : List (List α)) (hws : ∀ w ∈ ws, ∃ d ∈ w, sep d = false) :
    (spread c ws).rdropWhile sep = spread c (trimLast sep ws) := by
  induction ws with
  | nil => rfl
  | cons w ws ih =>
    obtain ⟨hw, hws⟩ := List.forall_mem_cons.mp hws
    cases ws with
    | nil =>
      have hsingle : ∀ v : List α, spread c [v] = [c] ++ v := fun v => by simp [spread]
      rw [trimLast, hsingle, hsingle, rdropWhile_append _ _ hw]
    | cons v ws =>
      obtain ⟨d, hd, hsep⟩ := hws v List.mem_cons_self
      have hrest : ∃ d ∈ spread c (v :: ws), sep d = false :=
        ⟨d, List.mem_flatMap.mpr ⟨v, List.mem_cons_self, List.mem_cons_of_mem _ hd⟩, hsep⟩
      rw [trimLast, spread, List.flatMap_cons, ← spread, rdropWhile_append _ _ hrest, ih hws,
        spread, spread, List.flatMap_cons]

theorem length_trimLast (ws : List (List α)) : (trimLast sep ws).length = ws.length := by
  induction ws with
  | nil => rfl
  | cons w ws ih =>
    cases ws with
    | nil => rfl
    | cons v ws =>
      rw [trimLast, List.length_cons, ih]
      rfl

theorem exists_of_mem_trimLast {ws : List (List α)} {t : List α} (ht : t ∈ trimLast sep ws) :
    ∃ w ∈ ws, t = w ∨ t = w.rdropWhile sep := by
  induction ws with
  | nil => cases ht
  | cons w ws ih =>
    cases ws with
    | nil =>
      obtain rfl : t = w.rdropWhile sep := by simpa [trimLast] using ht
      exact ⟨w, List.mem_cons_self, .inr rfl⟩
    | cons v ws =>
      rcases List.mem_cons.mp ht with rfl | ht
      · exact ⟨t, List.mem_cons_self, .inl rfl⟩
      · obtain ⟨u, hu, htu⟩ := ih ht
        exact ⟨u, List.mem_cons_of_mem _ hu, htu⟩

/-- Only the last word can change. -/
theorem trimLast_eq_self_iff (ws : List (List α)) :
    trimLast sep ws = ws ↔ ∀ w ∈ ws.getLast?, w.rdropWhile sep = w := by
  induction ws with
  | nil => simp [trimLast]
  | cons w ws ih =>
    cases ws with
    | nil => simp [trimLast]
    | cons v ws => rw [trimLast, List.cons.injEq, and_iff_right rfl, ih, List.getLast?_cons_cons]

theorem getLast?_trimLast (ws : List (List α)) :
    (trimLast sep ws).getLast? = ws.getLast?.map (·.rdropWhile sep) := by
  induction ws with
  | nil => rfl
  | cons w ws ih =>
    cases ws with
    | nil => rfl
    | cons v ws =>
      obtain ⟨u, us, hu⟩ : ∃ u us, trimLast sep (v :: ws) = u :: us :=
        List.exists_cons_of_length_eq_add_one (length_trimLast (v :: ws))
      rw [trimLast, List.getLast?_cons_cons, ← ih, hu, List.getLast?_cons_cons]

end Trim

end Natc.Lib
