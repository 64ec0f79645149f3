import Natc.Lib.Overlap
import Natc.Ploader.RoundTrip

/-!
# Terminators of any shape

Without an enclosing, `GetToken` stops at the first place where the characters end with a
terminator that begins with an ASCII character, whatever the two terminators have in common and
however often one of them has been begun before.
-/

namespace Natc.Ploader

open Natc.Lib

/-- No enclosing, and two terminators. -/
structure Format.Plain (f : Format) : Prop where
  noEnclosing : f.m_Enclosing = none
  field_ne : f.m_FieldTerm ≠ []
  row_ne : f.m_RowTerm ≠ []

/-- The characters end with a terminator, and `GetToken` finds it. -/
def Found (term w : Bytes) : Prop :=
  ascii term ∧ term <:+ w

instance (term w : Bytes) : Decidable (Found term w) :=
  inferInstanceAs (Decidable (_ ∧ _))

namespace Format

variable (f : Format)

def term : DataToken → Bytes
  | .fieldTerm => f.m_FieldTerm
  | .rowTerm => f.m_RowTerm
  | .eof | .value => []

def Stops (w : Bytes) : Prop :=
  Found f.m_FieldTerm w ∨ Found f.m_RowTerm w

/-- No terminator ends anywhere in the characters. -/
def Quiet (w : Bytes) : Prop :=
  ∀ p, p <+: w → ¬f.Stops p

/-- Behind the value the terminator is the first that is found, whether there is room for both or
not. -/
structure Closes (t : DataToken) (v : Bytes) : Prop where
  ascii : ascii (f.term t)
  quiet : f.Quiet (v ++ f.term t).dropLast
  first : t = .rowTerm → ¬Found f.m_FieldTerm (v ++ f.term t)

/-- Behind the value the terminator is the first that is found. The field terminator is looked for
before the row terminator. -/
structure Ends (t : DataToken) (v : Bytes) : Prop where
  ascii : ascii (f.term t)
  quiet : f.Quiet (v ++ f.term t).dropLast
  first : t = .rowTerm → ¬Found f.m_FieldTerm (v ++ f.term t)
  room : (v ++ f.term t).length < maxTokenValueLen

end Format

/-! ## The counters -/

/-- The counter is the longest overlap, unless the terminator is never begun. -/
structure Tracked (term text : Bytes) (ix : Nat) : Prop where
  seen : ascii term → LongestOverlap term text ix
  blind : ¬ascii term → ix = 0

theorem tracked_nil (term : Bytes) : Tracked term [] 0 :=
  ⟨fun _ => longestOverlap_nil term, fun _ => rfl⟩

theorem Tracked.le {term text : Bytes} {ix : Nat} (h : Tracked term text ix) :
    ix ≤ term.length := by
  by_cases hascii : ascii term
  · exact (h.seen hascii).le
  · rw [h.blind hascii]
    exact Nat.zero_le _

/-- The counter has come to its end if and only if the terminator is found. -/
theorem Tracked.eq_length_iff {term text : Bytes} {ix : Nat} (h : Tracked term text ix)
    (hne : term ≠ []) : ix = term.length ↔ Found term text := by
  by_cases hascii : ascii term
  · rw [(h.seen hascii).eq_length_iff, Found, and_iff_right hascii]
  · rw [h.blind hascii, Found]
    have hpos := List.length_pos_of_ne_nil hne
    exact iff_of_false (by omega) fun hfound => hascii hfound.1

/-- The second look finds the longest overlap. -/
theorem longestOverlap_lookup (term text : Bytes) : LongestOverlap term text
    ((List.range (min text.length term.length)).foldl
      (fun ix j => if text.drop (text.length - (j + 1)) = term.take (j + 1) then j + 1 else ix)
      0) := by
  obtain ⟨hfits, hlast⟩ := foldl_longest_spec
    (fun j => text.drop (text.length - (j + 1)) = term.take (j + 1))
    (min text.length term.length) rfl
  refine ⟨?_, ?_, ?_⟩
  · by_contra hlt
    have := (hfits (by omega)).1
    omega
  · generalize hr : (List.range (min text.length term.length)).foldl _ 0 = r at hfits
    cases r with
    | zero => rw [List.take_zero]; exact List.nil_suffix
    | succ r =>
      have hfit := (hfits (Nat.succ_ne_zero r)).2
      rw [Nat.add_sub_cancel] at hfit
      rw [← hfit]
      exact List.drop_suffix _ _
  · intro j hj hsuffix
    cases j with
    | zero => exact Nat.zero_le _
    | succ j =>
      have hle := hsuffix.length_le
      rw [List.length_take, min_eq_left hj] at hle
      apply hlast j (by omega)
      have hdrop := List.suffix_iff_eq_drop.mp hsuffix
      rw [List.length_take, min_eq_left hj] at hdrop
      exact hdrop.symm

/-- The counter goes on with each character. -/
theorem Tracked.advance {term text : Bytes} {ix : Nat} (h : Tracked term text ix)
    (hlt : ix < term.length) (ch : UInt8) :
    Tracked term (text ++ [ch]) (advance term (text ++ [ch]) true ch ix) := by
  refine ⟨fun hascii => ?_, fun hblind => ?_⟩
  · have hbefore := h.seen hascii
    have hget : term.getD ix 0 = term[ix] := List.getD_eq_getElem _ _ hlt
    simp only [Ploader.advance, Bool.true_and]
    split
    · next hsame =>
      exact hbefore.next hlt (hget ▸ (eq_of_sameChar hsame).1.symm)
    · next hother =>
      split
      · exact longestOverlap_lookup term (text ++ [ch])
      · next hzero =>
        obtain rfl := Nat.eq_zero_of_not_pos hzero
        apply hbefore.none hlt
        intro hch
        rw [← hch, ← hget] at hother
        exact hother (sameChar_self hascii)
  · rw [h.blind hblind]
    exact advance_blind hblind _ _ _

/-! ## The scan -/

theorem not_found_nil {term : Bytes} (hne : term ≠ []) : ¬Found term [] :=
  fun h => hne (List.suffix_nil.mp h.2)

/-- The state of `GetToken` behind characters in which no terminator has ended. -/
structure Scan.Follows (f : Format) (s : Scan) (w : Bytes) : Prop where
  text : s.text = w
  field : Tracked f.m_FieldTerm w s.ixFT
  row : Tracked f.m_RowTerm w s.ixRT
  enFlag : s.enFlag = true
  quiet : f.Quiet w

section scan

variable {f : Format} {s : Scan} {v w : Bytes} {ch : UInt8} {tk : DataToken}

theorem Format.quiet_nil (hf : f.Plain) : f.Quiet [] := by
  intro p hp hstop
  rw [List.prefix_nil.mp hp] at hstop
  exact hstop.elim (not_found_nil hf.field_ne) (not_found_nil hf.row_ne)

theorem Format.Quiet.concat (h : f.Quiet w) (hstop : ¬f.Stops (w ++ [ch])) :
    f.Quiet (w ++ [ch]) := by
  intro p hp
  rcases List.prefix_concat_iff.mp hp with rfl | hbefore
  · exact hstop
  · exact h p hbefore

theorem Scan.start_follows (hf : f.Plain) : Scan.start.Follows f [] :=
  ⟨rfl, tracked_nil _, tracked_nil _, rfl, f.quiet_nil hf⟩

namespace Scan.Follows

variable (hf : f.Plain) (hs : s.Follows f w)

include hf hs

theorem field_lt : s.ixFT < f.m_FieldTerm.length := by
  apply lt_of_le_of_ne hs.field.le
  intro heq
  exact hs.quiet w (List.prefix_refl w) (Or.inl ((hs.field.eq_length_iff hf.field_ne).mp heq))

theorem row_lt : s.ixRT < f.m_RowTerm.length := by
  apply lt_of_le_of_ne hs.row.le
  intro heq
  exact hs.quiet w (List.prefix_refl w) (Or.inr ((hs.row.eq_length_iff hf.row_ne).mp heq))

/-- The field terminator is complete if and only if it is found. -/
theorem field_iff (ch : UInt8) :
    advance f.m_FieldTerm (w ++ [ch]) true ch s.ixFT = f.m_FieldTerm.length ↔
      Found f.m_FieldTerm (w ++ [ch]) :=
  (hs.field.advance (hs.field_lt hf) ch).eq_length_iff hf.field_ne

theorem row_iff (ch : UInt8) :
    advance f.m_RowTerm (w ++ [ch]) true ch s.ixRT = f.m_RowTerm.length ↔
      Found f.m_RowTerm (w ++ [ch]) :=
  (hs.row.advance (hs.row_lt hf) ch).eq_length_iff hf.row_ne

variable (hroom : (w ++ [ch]).length < maxTokenValueLen)

include hroom

theorem step_quiet (hstop : ¬f.Stops (w ++ [ch])) :
    ∃ t, scanStep f s ch = .more t ∧ t.Follows f (w ++ [ch]) := by
  have hfield : ¬advance f.m_FieldTerm (w ++ [ch]) true ch s.ixFT = f.m_FieldTerm.length :=
    fun h => hstop (Or.inl ((hs.field_iff hf ch).mp h))
  have hrow : ¬advance f.m_RowTerm (w ++ [ch]) true ch s.ixRT = f.m_RowTerm.length :=
    fun h => hstop (Or.inr ((hs.row_iff hf ch).mp h))
  refine ⟨{ s with
    text := w ++ [ch]
    ixFT := advance f.m_FieldTerm (w ++ [ch]) true ch s.ixFT
    ixRT := advance f.m_RowTerm (w ++ [ch]) true ch s.ixRT }, ?_, ?_⟩
  · simp only [scanStep, hs.text, hs.enFlag, if_neg hroom.not_ge, if_neg hfield, if_neg hrow,
      hf.noEnclosing]
  · exact ⟨rfl, hs.field.advance (hs.field_lt hf) ch, hs.row.advance (hs.row_lt hf) ch, hs.enFlag,
      hs.quiet.concat hstop⟩

theorem step_field (hfound : ascii f.m_FieldTerm) (heq : w ++ [ch] = v ++ f.m_FieldTerm) :
    scanStep f s ch =
      if v = [] then .token .fieldTerm f.m_FieldTerm none
      else .token .value v (some .fieldTerm) := by
  have hfield : advance f.m_FieldTerm (w ++ [ch]) true ch s.ixFT = f.m_FieldTerm.length :=
    (hs.field_iff hf ch).mpr ⟨hfound, heq ▸ List.suffix_append v _⟩
  simp only [scanStep, hs.text, hs.enFlag, if_neg hroom.not_ge, if_pos hfield]
  rw [heq]
  by_cases hnil : v = []
  · simp [hnil]
  · simp [hnil]

theorem step_row (hfound : ascii f.m_RowTerm) (hfirst : ¬Found f.m_FieldTerm (w ++ [ch]))
    (heq : w ++ [ch] = v ++ f.m_RowTerm) :
    scanStep f s ch =
      if v = [] then .token .rowTerm f.m_RowTerm none
      else .token .value v (some .rowTerm) := by
  have hfield : ¬advance f.m_FieldTerm (w ++ [ch]) true ch s.ixFT = f.m_FieldTerm.length :=
    fun h => hfirst ((hs.field_iff hf ch).mp h)
  have hrow : advance f.m_RowTerm (w ++ [ch]) true ch s.ixRT = f.m_RowTerm.length :=
    (hs.row_iff hf ch).mpr ⟨hfound, heq ▸ List.suffix_append v _⟩
  simp only [scanStep, hs.text, hs.enFlag, if_neg hroom.not_ge, if_neg hfield, if_pos hrow]
  rw [heq]
  by_cases hnil : v = []
  · simp [hnil]
  · simp [hnil]

omit hroom in
/-- Where a terminator ends for the first time, the token is returned. -/
theorem step_term (hends : f.Ends tk v) (htk : tk = .fieldTerm ∨ tk = .rowTerm)
    (heq : w ++ [ch] = v ++ f.term tk) :
    scanStep f s ch =
      if v = [] then .token tk (f.term tk) none else .token .value v (some tk) := by
  have hroom := hends.room
  rw [← heq] at hroom
  rcases htk with rfl | rfl
  · exact hs.step_field hf hroom hends.ascii heq
  · exact hs.step_row hf hroom hends.ascii (heq ▸ hends.first rfl) heq

end Scan.Follows

/-- Characters in which no terminator ends are taken as they are. -/
theorem quiet_passes (hf : f.Plain) {u : Bytes} (hs : s.Follows f w) (hq : f.Quiet (w ++ u))
    (hroom : (w ++ u).length < maxTokenValueLen) :
    ∃ t, Passes f s u t ∧ t.Follows f (w ++ u) := by
  induction u generalizing s w with
  | nil => exact ⟨s, rfl, (List.append_nil w).symm ▸ hs⟩
  | cons c u ih =>
    have hnext : w ++ c :: u = (w ++ [c]) ++ u := by simp
    have hprefix : w ++ [c] <+: w ++ c :: u := ⟨u, hnext.symm⟩
    have hlength := hprefix.length_le
    obtain ⟨m, hstep, hm⟩ := hs.step_quiet hf (hlength.trans_lt hroom) (hq _ hprefix)
    rw [hnext] at hq hroom ⊢
    obtain ⟨t, hpasses, ht⟩ := ih hm hq hroom
    exact ⟨t, ⟨m, hstep, hpasses⟩, ht⟩

/-- A value and the terminator that ends it. -/
theorem getToken_ends (hf : f.Plain) {rest : Bytes} (hends : f.Ends tk v)
    (htk : tk = .fieldTerm ∨ tk = .rowTerm) (hcr : carriageReturn ∉ v ++ f.term tk) :
    getToken f ⟨v ++ (f.term tk ++ rest), none⟩ = readTerm tk (f.term tk) v rest := by
  have hterm : f.term tk ≠ [] := by
    rcases htk with rfl | rfl
    · exact hf.field_ne
    · exact hf.row_ne
  have hne : v ++ f.term tk ≠ [] := List.append_ne_nil_of_right_ne_nil v hterm
  have hlast := List.dropLast_append_getLast hne
  have hapart := append_ne rest (fun hmem => hcr (List.mem_append_left _ hmem)) hterm
    fun hmem => hcr (List.mem_append_right v hmem)
  have hroom := hends.room
  have hlength : (v ++ f.term tk).dropLast.length < maxTokenValueLen := by
    rw [List.length_dropLast]
    omega
  obtain ⟨t, hpasses, ht⟩ := @quiet_passes f .start [] hf (v ++ f.term tk).dropLast
    (Scan.start_follows hf) hends.quiet hlength
  have hstep := ht.step_term hf hends htk hlast
  rw [getToken_scan hapart.1 hapart.2, ← List.append_assoc, ← hlast, List.append_assoc,
    hpasses.scan fun hmem => hcr (List.dropLast_subset _ hmem), readTerm]
  have hchar : (v ++ f.term tk).getLast hne ≠ carriageReturn :=
    fun heq => hcr (heq ▸ List.getLast_mem hne)
  split
  · next hnil =>
    rw [if_pos hnil] at hstep
    exact scan_token hchar hstep
  · next hnil =>
    rw [if_neg hnil] at hstep
    exact scan_token hchar hstep

/-- How the next token lies in the characters of the file: a value with its terminator, the rest
of the file, or no token at all, since the file or the room is at its end. -/
inductive Cell (f : Format) (whole : Bytes) : DataToken × Bytes × DataFile → Prop
  | term (tk : DataToken) (v rest : Bytes) : tk = .fieldTerm ∨ tk = .rowTerm → f.Ends tk v →
      whole = v ++ (f.term tk ++ delivered rest) → Cell f whole (readTerm tk (f.term tk) v rest)
  | last : Cell f whole (.value, whole, ⟨[], some .eof⟩)
  | eof (text rest : Bytes) : whole = text ++ delivered rest → f.Quiet text.dropLast →
      Cell f whole (.eof, text, ⟨rest, none⟩)

/-- Where characters stop the scan, they are a value with its terminator. -/
theorem exists_closes (hq : f.Quiet w) (hstop : f.Stops (w ++ [ch])) :
    ∃ tk v, (tk = .fieldTerm ∨ tk = .rowTerm) ∧ f.Closes tk v ∧ w ++ [ch] = v ++ f.term tk := by
  have hdrop : (w ++ [ch]).dropLast = w := List.dropLast_concat
  by_cases hfield : Found f.m_FieldTerm (w ++ [ch])
  · obtain ⟨hascii, v, hv⟩ := hfield
    refine ⟨.fieldTerm, v, Or.inl rfl, ⟨hascii, ?_, by simp⟩, hv.symm⟩
    rw [Format.term, hv, hdrop]
    exact hq
  · obtain ⟨hascii, v, hv⟩ := hstop.resolve_left hfield
    refine ⟨.rowTerm, v, Or.inr rfl, ⟨hascii, ?_, fun _ => ?_⟩, hv.symm⟩
    · rw [Format.term, hv, hdrop]
      exact hq
    · rw [Format.term, hv]
      exact hfield

theorem exists_ends (hq : f.Quiet w) (hroom : (w ++ [ch]).length < maxTokenValueLen)
    (hstop : f.Stops (w ++ [ch])) : ∃ tk v, (tk = .fieldTerm ∨ tk = .rowTerm) ∧ f.Ends tk v ∧
      w ++ [ch] = v ++ f.term tk := by
  obtain ⟨tk, v, htk, hcloses, heq⟩ := exists_closes hq hstop
  exact ⟨tk, v, htk, ⟨hcloses.ascii, hcloses.quiet, hcloses.first, heq ▸ hroom⟩, heq⟩

/-- One character more, or a token. -/
theorem Scan.Follows.step (hf : f.Plain) (hs : s.Follows f w) (ch : UInt8) :
    (∃ t, scanStep f s ch = .more t ∧ t.Follows f (w ++ [ch])) ∨
      ∃ tk text next, scanStep f s ch = .token tk text next ∧
        ∀ rest, Cell f (w ++ ch :: delivered rest) (tk, text, ⟨rest, next⟩) := by
  have hwhole : ∀ rest, w ++ ch :: delivered rest = (w ++ [ch]) ++ delivered rest := by simp
  by_cases hroom : (w ++ [ch]).length < maxTokenValueLen
  · by_cases hstop : f.Stops (w ++ [ch])
    · right
      obtain ⟨tk, v, htk, hends, heq⟩ := exists_ends hs.quiet hroom hstop
      have hcell : ∀ rest, Cell f (w ++ ch :: delivered rest) (readTerm tk (f.term tk) v rest) :=
        fun rest => .term tk v rest htk hends (by rw [hwhole, heq, List.append_assoc])
      have hstep := hs.step_term hf hends htk heq
      simp only [readTerm] at hcell
      split at hstep
      · next hnil =>
        simp only [if_pos hnil] at hcell
        exact ⟨_, _, _, hstep, hcell⟩
      · next hnil =>
        simp only [if_neg hnil] at hcell
        exact ⟨_, _, _, hstep, hcell⟩
    · exact Or.inl (hs.step_quiet hf hroom hstop)
  · right
    refine ⟨.eof, w ++ [ch], none, ?_, fun rest => .eof _ _ (hwhole rest) ?_⟩
    · simp only [scanStep, hs.text, if_pos (not_lt.mp hroom)]
    · rw [List.dropLast_concat]
      exact hs.quiet

theorem scan_cell (hf : f.Plain) (input : Bytes) (hs : s.Follows f w) :
    Cell f (w ++ delivered input) (scan f s input) := by
  have hstep : ∀ {s t : Scan} {w : Bytes} {ch : UInt8}, s.Follows f w →
      scanStep f s ch = .more t → t.Follows f (w ++ [ch]) := by
    intro s t w ch hs h
    rcases hs.step hf ch with ⟨u, hmore, hu⟩ | ⟨_, _, _, htoken, -⟩
    · cases hmore.symm.trans h
      exact hu
    · cases htoken.symm.trans h
  have hend : ∀ {s : Scan} {w rest text : Bytes} {ch : UInt8} {tk : DataToken}
      {next : Option DataToken}, s.Follows f w → scanStep f s ch = .token tk text next →
      Cell f (w ++ ch :: delivered rest) (tk, text, ⟨rest, next⟩) := by
    intro s w rest text ch tk next hs h
    rcases hs.step hf ch with ⟨_, hmore, -⟩ | ⟨_, _, _, htoken, hcell⟩
    · cases hmore.symm.trans h
    · cases htoken.symm.trans h
      exact hcell rest
  fun_induction scan f s input generalizing w with
  | case1 s =>
    rw [delivered, List.append_nil, hs.text]
    exact .last
  | case2 s =>
    have hnone : delivered [carriageReturn] = [] := rfl
    rw [hnone, List.append_nil, hs.text]
    exact .last
  | case3 s ch rest t h ih =>
    have hcell := ih (hstep hs h)
    rw [List.append_assoc] at hcell
    rw [delivered_return]
    exact hcell
  | case4 s ch rest t text next h =>
    rw [delivered_return]
    exact hend hs h
  | case5 s ch rest hcr t h ih =>
    have hcell := ih (hstep hs h)
    rw [List.append_assoc] at hcell
    rw [delivered_cons hcr]
    exact hcell
  | case6 s ch rest hcr t text next h =>
    rw [delivered_cons hcr]
    exact hend hs h

theorem getToken_cell (hf : f.Plain) (rest : Bytes) :
    Cell f (delivered rest) (getToken f ⟨rest, none⟩) := by
  by_cases hend : rest = [] ∨ rest = [carriageReturn]
  · have heof : getToken f ⟨rest, none⟩ = (.eof, [], ⟨[], none⟩) := by
      simp only [getToken, if_pos hend]
    rw [heof]
    apply Cell.eof [] []
    · rcases hend with rfl | rfl <;> rfl
    · exact f.quiet_nil hf
  · rw [not_or] at hend
    rw [getToken_scan hend.1 hend.2]
    exact scan_cell hf rest (Scan.start_follows hf)

end scan

end Natc.Ploader
