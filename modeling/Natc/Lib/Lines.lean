import Natc.Lib.Text

/-!
# Lines of a file

What successive calls of `fgets` return for a file, line by line and in pieces where a line does
not fit the buffer; and the lines of a file that was written line by line.
-/

namespace Natc.Lib

/-- A character in front of the first piece. -/
def consHead (c : Char) : List Text → List Text
  | [] => [[c]]
  | p :: ps => (c :: p) :: ps

/-- The pieces of a file for a buffer with room for `room` characters; `left` is what the current
piece has room for. -/
def piecesFrom (room : Nat) : Nat → Text → List Text
  | _, [] => []
  | left, c :: cs =>
      if c = '\n' ∨ left ≤ 1 then [c] :: piecesFrom room room cs
      else consHead c (piecesFrom room (left - 1) cs)

def pieces (room : Nat) (s : Text) : List Text := piecesFrom room room s

/-- The lines of a file, with the newlines that end them. -/
def wholeLines : Text → List Text
  | [] => []
  | c :: cs => if c = '\n' then [c] :: wholeLines cs else consHead c (wholeLines cs)

theorem consHead_ne_nil (c : Char) (ls : List Text) : consHead c ls ≠ [] := by
  cases ls <;> exact List.cons_ne_nil _ _

theorem wholeLines_ne_nil (c : Char) (cs : Text) : wholeLines (c :: cs) ≠ [] := by
  rw [wholeLines]
  split
  · exact List.cons_ne_nil _ _
  · exact consHead_ne_nil _ _

theorem wholeLines_line {l : Text} (hl : '\n' ∉ l) (s : Text) :
    wholeLines (l ++ '\n' :: s) = (l ++ ['\n']) :: wholeLines s := by
  induction l with
  | nil => rfl
  | cons c l ih =>
    obtain ⟨hc, hl⟩ := List.ne_and_not_mem_of_not_mem_cons hl
    rw [List.cons_append, wholeLines, if_neg (Ne.symm hc), ih hl, consHead]
    rfl

theorem wholeLines_last {l : Text} (hl : '\n' ∉ l) :
    wholeLines l = if l = [] then [] else [l] := by
  induction l with
  | nil => rfl
  | cons c l ih =>
    obtain ⟨hc, hl⟩ := List.ne_and_not_mem_of_not_mem_cons hl
    rw [wholeLines, if_neg (Ne.symm hc), ih hl, if_neg (List.cons_ne_nil c l)]
    cases l <;> rfl

/-- The lines of a file that was written line by line, with a last one that lacks its newline. -/
theorem wholeLines_written {ls : List Text} {l : Text} (hls : ∀ l ∈ ls, '\n' ∉ l)
    (hl : '\n' ∉ l) :
    wholeLines ((ls.flatMap fun l => l ++ ['\n']) ++ l) =
      (ls.map fun l => l ++ ['\n']) ++ if l = [] then [] else [l] := by
  induction ls with
  | nil => exact wholeLines_last hl
  | cons first ls ih =>
    rw [List.flatMap_cons, List.append_assoc, List.append_assoc, List.singleton_append,
      wholeLines_line (hls first List.mem_cons_self),
      ih fun l hl => hls l (List.mem_cons_of_mem _ hl)]
    rfl

theorem ne_nil_of_mem_wholeLines {s l : Text} (h : l ∈ wholeLines s) : l ≠ [] := by
  induction s generalizing l with
  | nil => cases h
  | cons c cs ih =>
    rw [wholeLines] at h
    split at h
    · rcases List.mem_cons.mp h with rfl | h
      · exact List.cons_ne_nil _ _
      · exact ih h
    · cases hlines : wholeLines cs with
      | nil =>
        rw [hlines, consHead, List.mem_singleton] at h
        rw [h]
        exact List.cons_ne_nil _ _
      | cons l' ls =>
        rw [hlines, consHead] at h
        rcases List.mem_cons.mp h with rfl | h
        · exact List.cons_ne_nil _ _
        · exact ih (by rw [hlines]; exact List.mem_cons_of_mem _ h)

private theorem piecesFrom_of_fit (room left : Nat) (s : Text)
    (hall : ∀ l ∈ wholeLines s, l.length ≤ room)
    (hhead : ∀ l ∈ (wholeLines s).head?, l.length ≤ left) :
    piecesFrom room left s = wholeLines s := by
  induction s generalizing left with
  | nil => rfl
  | cons c cs ih =>
    rw [wholeLines] at hall hhead ⊢
    rw [piecesFrom]
    by_cases hc : c = '\n'
    · rw [if_pos hc] at hall ⊢
      have hcs := (List.forall_mem_cons.mp hall).2
      rw [if_pos (.inl hc), ih room hcs fun l hl => hcs l (List.mem_of_mem_head? hl)]
    · rw [if_neg hc] at hall hhead ⊢
      cases cs with
      | nil => split <;> rfl
      | cons d ds =>
        obtain ⟨l, ls, hlines⟩ := List.exists_cons_of_ne_nil (wholeLines_ne_nil d ds)
        rw [hlines, consHead] at hall hhead
        have hhere : l.length + 1 ≤ left := hhead (c :: l) rfl
        have hpos : 0 < l.length := by
          apply List.length_pos_iff.mpr
          exact ne_nil_of_mem_wholeLines (by rw [hlines]; exact List.mem_cons_self)
        have hrest : ∀ l' ∈ wholeLines (d :: ds), l'.length ≤ room := by
          rw [hlines]
          obtain ⟨hl, hls⟩ := List.forall_mem_cons.mp hall
          exact List.forall_mem_cons.mpr ⟨Nat.le_of_succ_le hl, hls⟩
        rw [if_neg (by simp [hc]; omega), ih (left - 1) hrest]
        intro l' hl'
        rw [hlines] at hl'
        cases hl'
        omega

/-- Lines that fit are read one by one. -/
theorem pieces_of_fit {room : Nat} {s : Text} (h : ∀ l ∈ wholeLines s, l.length ≤ room) :
    pieces room s = wholeLines s :=
  piecesFrom_of_fit room room s h fun l hl => h l (List.mem_of_mem_head? hl)

private theorem flatten_consHead (c : Char) (ls : List Text) :
    (consHead c ls).flatten = c :: ls.flatten := by
  cases ls <;> rfl

theorem flatten_piecesFrom (room left : Nat) (s : Text) : (piecesFrom room left s).flatten = s := by
  induction s generalizing left with
  | nil => rfl
  | cons c cs ih =>
    rw [piecesFrom]
    split
    · rw [List.flatten_cons, ih]
      rfl
    · rw [flatten_consHead, ih]

theorem flatten_pieces (room : Nat) (s : Text) : (pieces room s).flatten = s :=
  flatten_piecesFrom room room s

private theorem piecesFrom_ne_nil (room left : Nat) {s : Text} (h : s ≠ []) :
    piecesFrom room left s ≠ [] := by
  intro hnil
  have hflat := flatten_piecesFrom room left s
  rw [hnil] at hflat
  exact h hflat.symm

/-- The first piece is as long as there is room for, and so are the others. -/
private theorem piecesFrom_fits {room left : Nat} (hroom : 1 ≤ room) (hleft : 1 ≤ left) (s : Text) :
    (∀ p ∈ (piecesFrom room left s).head?, p ≠ [] ∧ p.length ≤ left) ∧
      ∀ p ∈ (piecesFrom room left s).tail, p ≠ [] ∧ p.length ≤ room := by
  induction s generalizing left with
  | nil =>
    constructor
    · intro p hp
      cases hp
    · intro p hp
      cases hp
  | cons c cs ih =>
    rw [piecesFrom]
    by_cases hend : c = '\n' ∨ left ≤ 1
    · rw [if_pos hend]
      refine ⟨fun p hp => ?_, fun p hp => ?_⟩
      · cases hp
        exact ⟨List.cons_ne_nil _ _, hleft⟩
      · obtain ⟨hhead, htail⟩ := ih hroom
        rw [List.tail_cons] at hp
        cases hps : piecesFrom room room cs with
        | nil =>
          rw [hps] at hp
          cases hp
        | cons q qs =>
          rw [hps] at hp hhead htail
          rcases List.mem_cons.mp hp with rfl | hp
          · exact hhead _ rfl
          · exact htail p hp
    · rw [if_neg hend]
      obtain ⟨hhead, htail⟩ := @ih (left - 1) (by omega)
      cases hps : piecesFrom room (left - 1) cs with
      | nil =>
        constructor
        · intro p hp
          cases hp
          exact ⟨List.cons_ne_nil _ _, hleft⟩
        · intro p hp
          cases hp
      | cons q qs =>
        rw [hps] at hhead htail
        refine ⟨fun p hp => ?_, htail⟩
        cases hp
        have hq := (hhead q rfl).2
        refine ⟨List.cons_ne_nil _ _, ?_⟩
        rw [List.length_cons]
        omega

theorem fits_of_mem_pieces {room : Nat} (hroom : 1 ≤ room) {s p : Text} (h : p ∈ pieces room s) :
    p ≠ [] ∧ p.length ≤ room := by
  obtain ⟨hhead, htail⟩ := piecesFrom_fits hroom hroom s
  unfold pieces at h
  cases hps : piecesFrom room room s with
  | nil =>
    rw [hps] at h
    cases h
  | cons q qs =>
    rw [hps] at h hhead htail
    rcases List.mem_cons.mp h with rfl | h
    · exact hhead _ rfl
    · exact htail p h

private theorem piecesFrom_lines (room left : Nat) {s l : Text} {ls : List Text}
    (h : wholeLines s = l :: ls) :
    piecesFrom room left s = piecesFrom room left l ++ ls.flatMap (pieces room) := by
  induction s generalizing left l ls with
  | nil => cases h
  | cons c cs ih =>
    rw [wholeLines] at h
    by_cases hc : c = '\n'
    · rw [if_pos hc] at h
      obtain ⟨rfl, rfl⟩ := List.cons.inj h
      have hrest : piecesFrom room room cs = (wholeLines cs).flatMap (pieces room) := by
        cases hlines : wholeLines cs with
        | nil =>
          cases cs with
          | nil => rfl
          | cons d ds => exact absurd hlines (wholeLines_ne_nil d ds)
        | cons l' ls' => exact ih room hlines
      rw [piecesFrom, piecesFrom, if_pos (.inl hc), if_pos (.inl hc), hrest]
      rfl
    · rw [if_neg hc] at h
      cases cs with
      | nil =>
        obtain ⟨rfl, rfl⟩ := List.cons.inj h
        simp
      | cons d ds =>
        obtain ⟨l', ls', hlines⟩ := List.exists_cons_of_ne_nil (wholeLines_ne_nil d ds)
        rw [hlines] at h
        obtain ⟨rfl, rfl⟩ := List.cons.inj h
        rw [piecesFrom]
        conv_rhs => rw [piecesFrom]
        split
        · rw [ih room hlines, List.cons_append]
        · have hne : l' ≠ [] := ne_nil_of_mem_wholeLines (by rw [hlines]; exact List.mem_cons_self)
          obtain ⟨p, ps, hp⟩ := List.exists_cons_of_ne_nil (piecesFrom_ne_nil room (left - 1) hne)
          rw [ih (left - 1) hlines, hp]
          rfl

/-- Every line begins with a piece of its own. -/
theorem pieces_lines (room : Nat) (s : Text) :
    pieces room s = (wholeLines s).flatMap (pieces room) := by
  cases hlines : wholeLines s with
  | nil =>
    cases s with
    | nil => rfl
    | cons c cs => exact absurd hlines (wholeLines_ne_nil c cs)
  | cons l ls => exact piecesFrom_lines room room hlines

/-- Lines that fit are read one by one as strings, the last one with its newline or without it. -/
theorem strings_written {room : Nat} {ls : List Text} {l : Text}
    (hls : ∀ l ∈ ls, '\n' ∉ l ∧ '\x00' ∉ l ∧ l.length < room)
    (hl : '\n' ∉ l ∧ '\x00' ∉ l ∧ l.length < room) :
    ((pieces room ((ls.flatMap fun l => l ++ ['\n']) ++ l)).map
        (·.takeWhile (· ≠ '\x00'))).takeWhile (· ≠ []) =
      (ls.map fun l => l ++ ['\n']) ++ if l = [] then [] else [l] := by
  have hwhole := wholeLines_written (fun l h => (hls l h).1) hl.1
  have hall : ∀ line ∈ (ls.map fun l => l ++ ['\n']) ++ (if l = [] then [] else [l]),
      line.length ≤ room ∧ '\x00' ∉ line ∧ line ≠ [] := by
    intro line hline
    rcases List.mem_append.mp hline with hline | hline
    · obtain ⟨l', hl', rfl⟩ := List.mem_map.mp hline
      obtain ⟨_, hzero, hlen⟩ := hls l' hl'
      refine ⟨?_, ?_, List.append_ne_nil_of_right_ne_nil _ (List.cons_ne_nil _ _)⟩
      · rw [List.length_append]
        exact hlen
      · rw [List.mem_append, not_or]
        exact ⟨hzero, by decide⟩
    · by_cases hempty : l = []
      · rw [if_pos hempty] at hline
        cases hline
      · rw [if_neg hempty, List.mem_singleton] at hline
        subst hline
        exact ⟨hl.2.2.le, hl.2.1, hempty⟩
  have hsame : ((ls.map fun l => l ++ ['\n']) ++ if l = [] then [] else [l]).map
      (·.takeWhile (· ≠ '\x00')) = (ls.map fun l => l ++ ['\n']) ++ if l = [] then [] else [l] := by
    refine (List.map_congr_left fun line hline => ?_).trans (List.map_id _)
    exact List.takeWhile_eq_self_iff.mpr fun c hc =>
      decide_eq_true fun hzero => (hall line hline).2.1 (hzero ▸ hc)
  rw [pieces_of_fit (hwhole ▸ fun line hline => (hall line hline).1), hwhole, hsame]
  exact List.takeWhile_eq_self_iff.mpr fun line hline => decide_eq_true (hall line hline).2.2

/-- The lines of a file, without the newlines that end them. -/
def chompedLines : Text → List Text
  | [] => []
  | c :: cs => if c = '\n' then [] :: chompedLines cs else consHead c (chompedLines cs)

theorem chompedLines_line {l : Text} (hl : '\n' ∉ l) (s : Text) :
    chompedLines (l ++ '\n' :: s) = l :: chompedLines s := by
  induction l with
  | nil => rfl
  | cons c l ih =>
    obtain ⟨hc, hl⟩ := List.ne_and_not_mem_of_not_mem_cons hl
    rw [List.cons_append, chompedLines, if_neg (Ne.symm hc), ih hl, consHead]

/-- A file that was written line by line is read back line by line. -/
theorem chompedLines_flatMap {ls : List Text} (h : ∀ l ∈ ls, '\n' ∉ l) :
    chompedLines (ls.flatMap fun l => l ++ ['\n']) = ls := by
  induction ls with
  | nil => rfl
  | cons l ls ih =>
    have hhead := h l List.mem_cons_self
    have htail : ∀ l' ∈ ls, '\n' ∉ l' := fun l' hl' => h l' (List.mem_cons_of_mem _ hl')
    rw [List.flatMap_cons, List.append_assoc, List.singleton_append, chompedLines_line hhead,
      ih htail]

end Natc.Lib
