import Mathlib.Data.Bool.Basic
import Mathlib.Data.List.GetD
import Mathlib.Order.Lattice
import Natc.Ploader.DataFile

/-!
# What `GetToken` reads

A value ends at the first terminator behind it. A terminator whose first byte is not ASCII is
never found, since the byte read is positive and the `char` it is compared with is not.
-/

namespace Natc.Ploader

/-- The last candidate that fits is kept, and none of the later ones fits. -/
theorem foldl_longest_spec (p : Nat → Prop) [DecidablePred p] (m : Nat) {r : Nat}
    (hr : (List.range m).foldl (fun ix j => if p j then j + 1 else ix) 0 = r) :
    (r ≠ 0 → r ≤ m ∧ p (r - 1)) ∧ ∀ j, j < m → p j → j + 1 ≤ r := by
  induction m generalizing r with
  | zero =>
    subst hr
    exact ⟨fun h => absurd rfl h, fun j hj => absurd hj (Nat.not_lt_zero j)⟩
  | succ m ih =>
    rw [List.range_succ, List.foldl_append, List.foldl_cons, List.foldl_nil] at hr
    by_cases hp : p m
    · rw [if_pos hp] at hr
      subst hr
      exact ⟨fun _ => ⟨le_rfl, hp⟩, fun j hj _ => hj⟩
    · rw [if_neg hp] at hr
      obtain ⟨hle, hlast⟩ := ih hr
      refine ⟨fun h => ⟨Nat.le_succ_of_le (hle h).1, (hle h).2⟩, fun j hj hpj => ?_⟩
      rcases Nat.lt_succ_iff_lt_or_eq.mp hj with hlt | rfl
      · exact hlast j hlt hpj
      · exact absurd hpj hp

/-- The last candidate that fits is the longest one. -/
theorem foldl_longest (p : Nat → Prop) [DecidablePred p] {k m : Nat} (hk : k < m) (hp : p k)
    (hafter : ∀ j, k < j → j < m → ¬p j) :
    (List.range m).foldl (fun ix j => if p j then j + 1 else ix) 0 = k + 1 := by
  generalize hr : (List.range m).foldl (fun ix j => if p j then j + 1 else ix) 0 = r
  obtain ⟨hfits, hlast⟩ := foldl_longest_spec p m hr
  have hle : k + 1 ≤ r := hlast k hk hp
  obtain ⟨hrm, hpr⟩ := hfits (by omega)
  by_contra hne
  exact hafter (r - 1) (by omega) (by omega) hpr

/-! ## The counter of a terminator -/

section advance

variable {term v : Bytes} {ch : UInt8}

theorem sameChar_self {c : UInt8} (h : c < 128) : sameChar c c = true :=
  decide_eq_true ⟨rfl, h⟩

theorem eq_of_sameChar {c : UInt8} (h : sameChar ch c = true) : ch = c ∧ c < 128 :=
  of_decide_eq_true h

/-- A character that is not of the terminator begins no match. -/
theorem advance_outside (hne : term ≠ []) (text : Bytes) (enFlag : Bool) (h : ch ∉ term) :
    advance term text enFlag ch 0 = 0 := by
  have hpos := List.length_pos_of_ne_nil hne
  have hsame : sameChar ch (term.getD 0 0) = false := by
    apply Bool.eq_false_of_not_eq_true
    intro heq
    apply h
    rw [(eq_of_sameChar heq).1, List.getD_eq_getElem _ _ hpos]
    exact List.getElem_mem hpos
  simp only [advance, hsame, Bool.and_false, Bool.false_eq_true, if_false, Nat.lt_irrefl]

/-- A terminator that does not begin with an ASCII character is not begun. -/
theorem advance_blind (h : ¬term.getD 0 0 < 128) (text : Bytes) (enFlag : Bool) (ch : UInt8) :
    advance term text enFlag ch 0 = 0 := by
  have hsame : sameChar ch (term.getD 0 0) = false :=
    decide_eq_false fun heq => h heq.2
  simp only [advance, hsame, Bool.and_false, Bool.false_eq_true, if_false, Nat.lt_irrefl]

/-- Behind text without characters of the terminator, the terminator is followed character by
character; one that is not ASCII is found by the second look. -/
theorem advance_next {k : Nat} (hk : k < term.length) (hv : ∀ c ∈ v, c ∉ term)
    (h0 : term.getD 0 0 < 128) :
    advance term (v ++ term.take (k + 1)) true (term.getD k 0) k = k + 1 := by
  by_cases hascii : term.getD k 0 < 128
  · simp only [advance, sameChar_self hascii, Bool.and_true, if_true]
  · have hpos : 0 < k := by
      apply Nat.pos_of_ne_zero
      intro hzero
      rw [hzero] at hascii
      exact hascii h0
    have hsame : sameChar (term.getD k 0) (term.getD k 0) = false :=
      decide_eq_false fun heq => hascii heq.2
    have hlength : (v ++ term.take (k + 1)).length = v.length + (k + 1) := by
      rw [List.length_append, List.length_take, Nat.min_eq_left hk]
    simp only [advance, hsame, Bool.and_false, Bool.false_eq_true, if_false, if_pos hpos, hlength]
    apply foldl_longest
    · omega
    · have hdrop : v.length + (k + 1) - (k + 1) = v.length := by omega
      rw [hdrop, List.drop_left]
    · -- a longer match would begin in the value
      intro j hkj hj heq
      have hstart : v.length + (k + 1) - (j + 1) < v.length := by omega
      have hmem : v[v.length + (k + 1) - (j + 1)] ∈ term := by
        have htake : v[v.length + (k + 1) - (j + 1)] ∈ term.take (j + 1) := by
          rw [← heq, List.drop_append_of_le_length hstart.le, List.drop_eq_getElem_cons hstart]
          exact List.mem_append_left _ List.mem_cons_self
        exact List.mem_of_mem_take htake
      exact hv _ (List.getElem_mem hstart) hmem

end advance

/-! ## The terminator behind a value -/

/-- Two terminators, as the option buffers hold them. -/
structure Format.Apart (f : Format) : Prop where
  field_ne : f.m_FieldTerm ≠ []
  row_ne : f.m_RowTerm ≠ []
  field_length : f.m_FieldTerm.length ≤ 10
  row_length : f.m_RowTerm.length ≤ 10
  disjoint : ∀ c ∈ f.m_FieldTerm, c ∉ f.m_RowTerm

/-- Neither of them contains a carriage return. -/
structure Format.Separate (f : Format) : Prop extends f.Apart where
  field_char : carriageReturn ∉ f.m_FieldTerm
  row_char : carriageReturn ∉ f.m_RowTerm

/-- The terminator is found where it begins. -/
def ascii (term : Bytes) : Prop :=
  term.getD 0 0 < 128

instance (term : Bytes) : Decidable (ascii term) :=
  inferInstanceAs (Decidable (_ < _))

/-- The token of a terminator with the value before it. -/
def readTerm (t : DataToken) (term v rest : Bytes) : DataToken × Bytes × DataFile :=
  if v = [] then (t, term, ⟨rest, none⟩) else (.value, v, ⟨rest, some t⟩)

section scan

variable {f : Format} {s : Scan} {v rest : Bytes} {ch : UInt8}

theorem scan_more {t : Scan} (hcr : ch ≠ carriageReturn) (h : scanStep f s ch = .more t) :
    scan f s (ch :: rest) = scan f t rest := by
  rw [scan.eq_def]
  simp only [if_neg hcr, h]

theorem scan_token {t : DataToken} {text : Bytes} {next : Option DataToken}
    (hcr : ch ≠ carriageReturn) (h : scanStep f s ch = .token t text next) :
    scan f s (ch :: rest) = (t, text, ⟨rest, next⟩) := by
  rw [scan.eq_def]
  simp only [if_neg hcr, h]

/-- The loop of `GetToken` takes the characters and is not at the end of a token. -/
def Passes (f : Format) : Scan → Bytes → Scan → Prop
  | s, [], t => s = t
  | s, ch :: w, t => ∃ m, scanStep f s ch = .more m ∧ Passes f m w t

theorem Passes.scan {t : Scan} {w : Bytes} (h : Passes f s w t) (hcr : carriageReturn ∉ w) :
    scan f s (w ++ rest) = scan f t rest := by
  induction w generalizing s with
  | nil =>
    cases h
    rfl
  | cons c w ih =>
    obtain ⟨m, hstep, hafter⟩ := h
    rw [List.cons_append, scan_more (fun heq => hcr (heq ▸ List.mem_cons_self)) hstep]
    exact ih hafter fun hmem => hcr (List.mem_cons_of_mem c hmem)

theorem Passes.append {m t : Scan} {w u : Bytes} (h : Passes f s w m) (hafter : Passes f m u t) :
    Passes f s (w ++ u) t := by
  induction w generalizing s with
  | nil =>
    cases h
    exact hafter
  | cons c w ih =>
    obtain ⟨n, hstep, hw⟩ := h
    exact ⟨n, hstep, ih hw⟩

theorem Passes.concat {m t : Scan} {w : Bytes} (h : Passes f s w m)
    (hstep : scanStep f m ch = .more t) : Passes f s (w ++ [ch]) t :=
  h.append ⟨t, hstep, rfl⟩

theorem take_succ_getD {term : Bytes} {k : Nat} (hk : k < term.length) :
    term.take (k + 1) = term.take k ++ [term.getD k 0] := by
  rw [List.getD_eq_getElem _ _ hk, List.take_append_getElem]

theorem drop_getD {term : Bytes} {k : Nat} (hk : k < term.length) :
    term.drop k = term.getD k 0 :: term.drop (k + 1) := by
  rw [List.getD_eq_getElem _ _ hk, List.drop_eq_getElem_cons hk]

theorem getD_mem {term : Bytes} {k : Nat} (hk : k < term.length) : term.getD k 0 ∈ term := by
  rw [List.getD_eq_getElem _ _ hk]
  exact List.getElem_mem hk

/-- A terminator is its last character behind the others. -/
theorem append_last {term : Bytes} {k : Nat} (hk : k + 1 = term.length) (rest : Bytes) :
    term ++ rest = term.take k ++ term.getD k 0 :: rest := by
  have hsplit : term.take k ++ [term.getD k 0] = term := by
    rw [← take_succ_getD (by omega), List.take_of_length_le (by omega)]
  conv_lhs => rw [← hsplit]
  rw [List.append_assoc, List.singleton_append]

/-- The field terminator behind a value is taken up to its last character. -/
theorem field_passes (hf : f.Apart) (hascii : ascii f.m_FieldTerm)
    (hv : ∀ c ∈ v, c ∉ f.m_FieldTerm) {ixEn encloseLoopCnt d k : Nat}
    (hk : k + d < f.m_FieldTerm.length) (hroom : v.length + k + d < maxTokenValueLen) :
    Passes f ⟨v ++ f.m_FieldTerm.take k, k, 0, ixEn, true, encloseLoopCnt⟩
      ((f.m_FieldTerm.drop k).take d)
      ⟨v ++ f.m_FieldTerm.take (k + d), k + d, 0, ixEn, true, encloseLoopCnt⟩ := by
  induction d generalizing k with
  | zero =>
    rw [List.take_zero]
    rfl
  | succ d ih =>
    have hlt : k < f.m_FieldTerm.length := by omega
    have hwhole : v ++ f.m_FieldTerm.take k ++ [f.m_FieldTerm.getD k 0] =
        v ++ f.m_FieldTerm.take (k + 1) := by
      rw [List.append_assoc, ← take_succ_getD hlt]
    have hfits : ¬maxTokenValueLen ≤ (v ++ f.m_FieldTerm.take (k + 1)).length := by
      simp only [List.length_append, List.length_take]
      omega
    have hrow := advance_outside hf.row_ne (v ++ f.m_FieldTerm.take (k + 1)) true
      (hf.disjoint _ (getD_mem hlt))
    have hrow_ne : 0 ≠ f.m_RowTerm.length := (List.length_pos_of_ne_nil hf.row_ne).ne
    rw [drop_getD hlt, List.take_succ_cons, show k + (d + 1) = k + 1 + d from by omega]
    refine ⟨_, ?_, ih (by omega) (by omega)⟩
    simp only [scanStep, hwhole, if_neg hfits, advance_next hlt hv hascii, hrow, if_neg hrow_ne,
      if_neg (show k + 1 ≠ f.m_FieldTerm.length by omega)]
    split
    · rfl
    · simp

/-- The last character of the field terminator. -/
theorem field_last (hascii : ascii f.m_FieldTerm)
    (hv : ∀ c ∈ v, c ∉ f.m_FieldTerm) {ixEn encloseLoopCnt k : Nat}
    (hk : k + 1 = f.m_FieldTerm.length) (hroom : (v ++ f.m_FieldTerm).length < maxTokenValueLen) :
    scanStep f ⟨v ++ f.m_FieldTerm.take k, k, 0, ixEn, true, encloseLoopCnt⟩
        (f.m_FieldTerm.getD k 0) =
      if v = [] then .token .fieldTerm f.m_FieldTerm none else .token .value v (some .fieldTerm) := by
  have hlt : k < f.m_FieldTerm.length := by omega
  have htake : f.m_FieldTerm.take (k + 1) = f.m_FieldTerm := List.take_of_length_le (by omega)
  have hwhole : v ++ f.m_FieldTerm.take k ++ [f.m_FieldTerm.getD k 0] = v ++ f.m_FieldTerm := by
    rw [List.append_assoc, ← take_succ_getD hlt, htake]
  have hnext := advance_next hlt hv hascii
  rw [htake] at hnext
  simp only [scanStep, hwhole, if_neg hroom.not_ge, hnext, hk, if_true]
  by_cases hnil : v = []
  · simp [hnil]
  · simp [hnil]

/-- The row terminator behind a value is taken up to its last character. -/
theorem row_passes (hf : f.Apart) (hascii : ascii f.m_RowTerm)
    (hv : ∀ c ∈ v, c ∉ f.m_RowTerm) {ixEn encloseLoopCnt d k : Nat}
    (hk : k + d < f.m_RowTerm.length) (hroom : v.length + k + d < maxTokenValueLen) :
    Passes f ⟨v ++ f.m_RowTerm.take k, 0, k, ixEn, true, encloseLoopCnt⟩
      ((f.m_RowTerm.drop k).take d)
      ⟨v ++ f.m_RowTerm.take (k + d), 0, k + d, ixEn, true, encloseLoopCnt⟩ := by
  induction d generalizing k with
  | zero =>
    rw [List.take_zero]
    rfl
  | succ d ih =>
    have hlt : k < f.m_RowTerm.length := by omega
    have hwhole : v ++ f.m_RowTerm.take k ++ [f.m_RowTerm.getD k 0] =
        v ++ f.m_RowTerm.take (k + 1) := by
      rw [List.append_assoc, ← take_succ_getD hlt]
    have hfits : ¬maxTokenValueLen ≤ (v ++ f.m_RowTerm.take (k + 1)).length := by
      simp only [List.length_append, List.length_take]
      omega
    have hfield := advance_outside hf.field_ne (v ++ f.m_RowTerm.take (k + 1)) true
      (fun hmem => hf.disjoint _ hmem (getD_mem hlt))
    have hfield_ne : 0 ≠ f.m_FieldTerm.length := (List.length_pos_of_ne_nil hf.field_ne).ne
    rw [drop_getD hlt, List.take_succ_cons, show k + (d + 1) = k + 1 + d from by omega]
    refine ⟨_, ?_, ih (by omega) (by omega)⟩
    simp only [scanStep, hwhole, if_neg hfits, hfield, if_neg hfield_ne,
      advance_next hlt hv hascii, if_neg (show k + 1 ≠ f.m_RowTerm.length by omega)]
    split
    · rfl
    · simp

/-- The last character of the row terminator. -/
theorem row_last (hf : f.Apart) (hascii : ascii f.m_RowTerm)
    (hv : ∀ c ∈ v, c ∉ f.m_RowTerm) {ixEn encloseLoopCnt k : Nat}
    (hk : k + 1 = f.m_RowTerm.length) (hroom : (v ++ f.m_RowTerm).length < maxTokenValueLen) :
    scanStep f ⟨v ++ f.m_RowTerm.take k, 0, k, ixEn, true, encloseLoopCnt⟩
        (f.m_RowTerm.getD k 0) =
      if v = [] then .token .rowTerm f.m_RowTerm none else .token .value v (some .rowTerm) := by
  have hlt : k < f.m_RowTerm.length := by omega
  have htake : f.m_RowTerm.take (k + 1) = f.m_RowTerm := List.take_of_length_le (by omega)
  have hwhole : v ++ f.m_RowTerm.take k ++ [f.m_RowTerm.getD k 0] = v ++ f.m_RowTerm := by
    rw [List.append_assoc, ← take_succ_getD hlt, htake]
  have hnext := advance_next hlt hv hascii
  rw [htake] at hnext
  have hfield := advance_outside hf.field_ne (v ++ f.m_RowTerm) true
    (fun hmem => hf.disjoint _ hmem (getD_mem hlt))
  have hfield_ne : 0 ≠ f.m_FieldTerm.length := (List.length_pos_of_ne_nil hf.field_ne).ne
  simp only [scanStep, hwhole, if_neg hroom.not_ge, hfield, if_neg hfield_ne, hnext, hk, if_true]
  by_cases hnil : v = []
  · simp [hnil]
  · simp [hnil]

/-- A terminator whose characters but the last are taken, and the last of which ends the token. -/
theorem scan_ending {t : Scan} {tk : DataToken} {term : Bytes} {k : Nat}
    (hk : k + 1 = term.length) (hchar : carriageReturn ∉ term)
    (hpasses : Passes f s (term.take k) t)
    (hlast : scanStep f t (term.getD k 0) =
      if v = [] then .token tk term none else .token .value v (some tk)) :
    scan f s (term ++ rest) = readTerm tk term v rest := by
  have hlt : k < term.length := by omega
  have hcr : term.getD k 0 ≠ carriageReturn := fun heq => hchar (heq ▸ getD_mem hlt)
  rw [append_last hk, hpasses.scan fun hmem => hchar (List.mem_of_mem_take hmem), readTerm]
  split
  · next hnil =>
    rw [if_pos hnil] at hlast
    exact scan_token hcr hlast
  · next hnil =>
    rw [if_neg hnil] at hlast
    exact scan_token hcr hlast

/-- The field terminator behind a value. -/
theorem scan_field (hf : f.Apart) (hascii : ascii f.m_FieldTerm)
    (hchar : carriageReturn ∉ f.m_FieldTerm) (hv : ∀ c ∈ v, c ∉ f.m_FieldTerm)
    (hlength : v.length < 65526) {ixEn encloseLoopCnt : Nat} :
    scan f ⟨v, 0, 0, ixEn, true, encloseLoopCnt⟩ (f.m_FieldTerm ++ rest) =
      readTerm .fieldTerm f.m_FieldTerm v rest := by
  have hpos := List.length_pos_of_ne_nil hf.field_ne
  have hmax := hf.field_length
  have hpasses := @field_passes f v hf hascii hv ixEn encloseLoopCnt (f.m_FieldTerm.length - 1) 0
    (by omega) (by rw [maxTokenValueLen]; omega)
  rw [List.take_zero, List.append_nil, List.drop_zero, Nat.zero_add] at hpasses
  refine scan_ending (Nat.sub_add_cancel hpos) hchar hpasses ?_
  refine field_last hascii hv (Nat.sub_add_cancel hpos) ?_
  rw [List.length_append, maxTokenValueLen]
  omega

/-- The row terminator behind a value. -/
theorem scan_row (hf : f.Apart) (hascii : ascii f.m_RowTerm)
    (hchar : carriageReturn ∉ f.m_RowTerm) (hv : ∀ c ∈ v, c ∉ f.m_RowTerm)
    (hlength : v.length < 65526) {ixEn encloseLoopCnt : Nat} :
    scan f ⟨v, 0, 0, ixEn, true, encloseLoopCnt⟩ (f.m_RowTerm ++ rest) =
      readTerm .rowTerm f.m_RowTerm v rest := by
  have hpos := List.length_pos_of_ne_nil hf.row_ne
  have hmax := hf.row_length
  have hpasses := @row_passes f v hf hascii hv ixEn encloseLoopCnt (f.m_RowTerm.length - 1) 0
    (by omega) (by rw [maxTokenValueLen]; omega)
  rw [List.take_zero, List.append_nil, List.drop_zero, Nat.zero_add] at hpasses
  refine scan_ending (Nat.sub_add_cancel hpos) hchar hpasses ?_
  refine row_last hf hascii hv (Nat.sub_add_cancel hpos) ?_
  rw [List.length_append, maxTokenValueLen]
  omega

/-- Without an enclosing the characters of a value are taken as they are. -/
theorem scan_plain (hf : f.Apart) (hplain : f.m_Enclosing = none)
    (hv : ∀ c ∈ v, c ∉ f.m_FieldTerm ∧ c ∉ f.m_RowTerm ∧ c ≠ carriageReturn)
    (hlength : s.text.length + v.length < 65536) (hFT : s.ixFT = 0) (hRT : s.ixRT = 0) :
    scan f s (v ++ rest) = scan f { s with text := s.text ++ v } rest := by
  induction v generalizing s with
  | nil => rw [List.nil_append, List.append_nil]
  | cons c v ih =>
    obtain ⟨hfield, hrow, hcr⟩ := hv c List.mem_cons_self
    have hfield_ne : 0 ≠ f.m_FieldTerm.length := (List.length_pos_of_ne_nil hf.field_ne).ne
    have hrow_ne : 0 ≠ f.m_RowTerm.length := (List.length_pos_of_ne_nil hf.row_ne).ne
    rw [List.length_cons] at hlength
    have hroom : ¬maxTokenValueLen ≤ (s.text ++ [c]).length := by
      simp only [List.length_append, List.length_singleton, maxTokenValueLen]
      omega
    have hstep : scanStep f s c = .more { s with text := s.text ++ [c] } := by
      simp only [scanStep, if_neg hroom, hFT, hRT, advance_outside hf.field_ne _ _ hfield,
        advance_outside hf.row_ne _ _ hrow, if_neg hfield_ne, if_neg hrow_ne, hplain]
    rw [List.cons_append, scan_more hcr hstep, ih]
    · simp only [List.append_assoc, List.singleton_append]
    · exact fun d hd => hv d (List.mem_cons_of_mem c hd)
    · simp only [List.length_append, List.length_singleton]
      omega
    · exact hFT
    · exact hRT

end scan

/-! ## `GetToken` -/

/-- A column value as the file can hold it. -/
structure Format.Clean (f : Format) (v : Bytes) : Prop where
  field : ∀ c ∈ v, c ∉ f.m_FieldTerm
  row : ∀ c ∈ v, c ∉ f.m_RowTerm
  noReturn : carriageReturn ∉ v
  noNul : 0 ∉ v
  fits : v.length < 32768

theorem Format.clean_nil (f : Format) : f.Clean [] :=
  ⟨by simp, by simp, by simp, by simp, by simp⟩

section getToken

variable {f : Format} {v rest : Bytes}

theorem getToken_next (t : DataToken) : getToken f ⟨rest, some t⟩ = (t, [], ⟨rest, none⟩) := rfl

theorem getToken_nil : getToken f ⟨[], none⟩ = (.eof, [], ⟨[], none⟩) := rfl

theorem getToken_scan (hne : rest ≠ []) (hcr : rest ≠ [carriageReturn]) :
    getToken f ⟨rest, none⟩ = scan f .start rest := by
  simp only [getToken, hne, hcr, or_self, if_false]

theorem append_ne {t : Bytes} (rest : Bytes) (hv : carriageReturn ∉ v) (ht : t ≠ [])
    (hcr : carriageReturn ∉ t) : v ++ (t ++ rest) ≠ [] ∧ v ++ (t ++ rest) ≠ [carriageReturn] := by
  constructor
  · simp [ht]
  · intro heq
    rcases v with _ | ⟨c, v⟩
    · rcases t with _ | ⟨c, t⟩
      · exact ht rfl
      · rw [List.nil_append, List.cons_append] at heq
        apply hcr
        rw [(List.cons.inj heq).1]
        exact List.mem_cons_self
    · rw [List.cons_append] at heq
      apply hv
      rw [(List.cons.inj heq).1]
      exact List.mem_cons_self

theorem getToken_field (hf : f.Separate) (hplain : f.m_Enclosing = none)
    (hascii : ascii f.m_FieldTerm) (hv : f.Clean v) :
    getToken f ⟨v ++ (f.m_FieldTerm ++ rest), none⟩ =
      readTerm .fieldTerm f.m_FieldTerm v rest := by
  have hne := append_ne rest hv.noReturn hf.field_ne hf.field_char
  have hfits := hv.fits
  rw [getToken_scan hne.1 hne.2, scan_plain hf.toApart hplain]
  · exact scan_field hf.toApart hascii hf.field_char hv.field (by omega)
  · exact fun c hc => ⟨hv.field c hc, hv.row c hc, fun heq => hv.noReturn (heq ▸ hc)⟩
  · change 0 + v.length < 65536
    omega
  · rfl
  · rfl

theorem getToken_row (hf : f.Separate) (hplain : f.m_Enclosing = none)
    (hascii : ascii f.m_RowTerm) (hv : f.Clean v) :
    getToken f ⟨v ++ (f.m_RowTerm ++ rest), none⟩ = readTerm .rowTerm f.m_RowTerm v rest := by
  have hne := append_ne rest hv.noReturn hf.row_ne hf.row_char
  have hfits := hv.fits
  rw [getToken_scan hne.1 hne.2, scan_plain hf.toApart hplain]
  · exact scan_row hf.toApart hascii hf.row_char hv.row (by omega)
  · exact fun c hc => ⟨hv.field c hc, hv.row c hc, fun heq => hv.noReturn (heq ▸ hc)⟩
  · change 0 + v.length < 65536
    omega
  · rfl
  · rfl

end getToken

/-! ## What a token has taken -/

/-- The last candidate that fits, or none. -/
theorem foldl_longest_cases (p : Nat → Prop) [DecidablePred p] (m : Nat) :
    (List.range m).foldl (fun ix j => if p j then j + 1 else ix) 0 = 0 ∨
      ∃ j, j < m ∧ p j ∧ (List.range m).foldl (fun ix j => if p j then j + 1 else ix) 0 = j + 1 := by
  generalize hr : (List.range m).foldl (fun ix j => if p j then j + 1 else ix) 0 = r
  obtain ⟨hfits, -⟩ := foldl_longest_spec p m hr
  cases r with
  | zero => exact Or.inl rfl
  | succ r => exact Or.inr ⟨r, (hfits r.succ_ne_zero).1, (hfits r.succ_ne_zero).2, rfl⟩

/-- A counter says how much of its terminator the text ends with. -/
structure Counts (term text : Bytes) (ix : Nat) : Prop where
  le : ix ≤ term.length
  suffix : term.take ix <:+ text
  begun : ix ≠ 0 → ascii term

theorem Counts.zero (term text : Bytes) : Counts term text 0 :=
  ⟨Nat.zero_le _, List.nil_suffix, fun h => absurd rfl h⟩

theorem Counts.advance {term text : Bytes} {ix : Nat} (h : Counts term text ix)
    (hlt : ix < term.length) (enFlag : Bool) (ch : UInt8) :
    Counts term (text ++ [ch]) (advance term (text ++ [ch]) enFlag ch ix) := by
  simp only [Ploader.advance]
  split
  · next hsame =>
    obtain ⟨heq, hascii⟩ := eq_of_sameChar (Bool.and_eq_true_iff.mp hsame).2
    refine ⟨hlt, ?_, ?_⟩
    · rw [take_succ_getD hlt, ← heq]
      exact (List.suffix_append_self_iff).mpr h.suffix
    · intro _
      by_cases hix : ix = 0
      · rw [hix] at hascii
        exact hascii
      · exact h.begun hix
  · split
    · next hpos =>
      rcases foldl_longest_cases (fun j => (text ++ [ch]).drop ((text ++ [ch]).length - (j + 1)) =
        term.take (j + 1)) (min (text ++ [ch]).length term.length) with hzero | ⟨j, hj, hp, heq⟩
      · rw [hzero]
        exact .zero _ _
      · rw [heq]
        refine ⟨by omega, ?_, fun _ => h.begun hpos.ne'⟩
        rw [← hp]
        exact List.drop_suffix _ _
    · next hzero =>
      rw [Nat.eq_zero_of_not_pos hzero]
      exact .zero _ _

/-- The characters that are read: of a carriage return the one behind it. -/
def delivered : Bytes → Bytes
  | [] => []
  | ch :: rest =>
      if ch = carriageReturn then
        match rest with
        | [] => []
        | ch :: rest => ch :: delivered rest
      else ch :: delivered rest

theorem delivered_eq_self {b : Bytes} (h : carriageReturn ∉ b) : delivered b = b := by
  induction b with
  | nil => rfl
  | cons ch rest ih =>
    have hch : ch ≠ carriageReturn := fun heq => h (heq ▸ List.mem_cons_self)
    rw [delivered.eq_def]
    simp only [if_neg hch, ih fun hmem => h (List.mem_cons_of_mem ch hmem)]

/-- How a token lies at the start of the characters. Of a value that an enclosing has opened or
closed nothing is said. -/
inductive Taken (f : Format) (whole : Bytes) : DataToken × Bytes × DataFile → Prop
  | overflow (text rest : Bytes) : maxTokenValueLen ≤ whole.length →
      Taken f whole (.eof, text, ⟨rest, none⟩)
  | field (rest : Bytes) : ascii f.m_FieldTerm → whole = f.m_FieldTerm ++ delivered rest →
      Taken f whole (.fieldTerm, f.m_FieldTerm, ⟨rest, none⟩)
  | row (rest : Bytes) : ascii f.m_RowTerm → whole = f.m_RowTerm ++ delivered rest →
      Taken f whole (.rowTerm, f.m_RowTerm, ⟨rest, none⟩)
  | valueField (v rest : Bytes) : ascii f.m_FieldTerm →
      whole = v ++ (f.m_FieldTerm ++ delivered rest) →
      Taken f whole (.value, v, ⟨rest, some .fieldTerm⟩)
  | valueRow (v rest : Bytes) : ascii f.m_RowTerm →
      whole = v ++ (f.m_RowTerm ++ delivered rest) →
      Taken f whole (.value, v, ⟨rest, some .rowTerm⟩)
  | valueEnd : Taken f whole (.value, whole, ⟨[], some .eof⟩)
  | enclosed (v : Bytes) (d : DataFile) : f.m_Enclosing ≠ none → Taken f whole (.value, v, d)

/-- The counters of `GetToken` between two characters, before an enclosing. -/
structure Scan.Counting (f : Format) (s : Scan) : Prop where
  field : Counts f.m_FieldTerm s.text s.ixFT
  field_lt : s.ixFT < f.m_FieldTerm.length
  row : Counts f.m_RowTerm s.text s.ixRT
  row_lt : s.ixRT < f.m_RowTerm.length

/-- The search for terminators is switched off. -/
structure Scan.Off (s : Scan) : Prop where
  enFlag : s.enFlag = false
  ixFT : s.ixFT = 0
  ixRT : s.ixRT = 0

/-- The state of `GetToken` behind these characters. -/
def Scan.Sound (f : Format) (s : Scan) (whole : Bytes) : Prop :=
  (s.text = whole ∧ s.Counting f) ∨
    (f.m_Enclosing ≠ none ∧ s.Off ∧ s.text.length ≤ whole.length)

section taken

variable {f : Format} {s : Scan} {ch : UInt8}

/-- A counter that has come to the end of its terminator. -/
theorem Counts.complete {term text : Bytes} (h : Counts term text term.length)
    (hne : term ≠ []) : ascii term ∧ (text.length = term.length → text = term) ∧
      text = text.take (text.length - term.length) ++ term := by
  have hsuffix := h.suffix
  rw [List.take_length] at hsuffix
  refine ⟨h.begun (List.length_pos_of_ne_nil hne).ne', ?_, ?_⟩
  · exact fun hlen => (hsuffix.eq_of_length hlen.symm).symm
  · obtain ⟨u, rfl⟩ := hsuffix
    simp

theorem advance_off (term text : Bytes) (ch : UInt8) : advance term text false ch 0 = 0 := by
  simp only [advance, Bool.false_and, Bool.false_eq_true, if_false, Nat.lt_irrefl]

/-- While the search for terminators is off, only the enclosing is looked for. -/
theorem scanStep_off {enclosing : Bytes} (hf : f.Apart) (hen : f.m_Enclosing = some enclosing)
    (hs : s.Off) (hroom : s.text.length + 1 < maxTokenValueLen) :
    scanStep f s ch = scanEnclosing enclosing { s with text := s.text ++ [ch] } ch := by
  have hfield_ne : 0 ≠ f.m_FieldTerm.length := (List.length_pos_of_ne_nil hf.field_ne).ne
  have hrow_ne : 0 ≠ f.m_RowTerm.length := (List.length_pos_of_ne_nil hf.row_ne).ne
  have hroom' : ¬maxTokenValueLen ≤ (s.text ++ [ch]).length := by
    rw [List.length_append, List.length_singleton]
    exact hroom.not_ge
  obtain ⟨text, ixFT, ixRT, ixEn, enFlag, encloseLoopCnt⟩ := s
  obtain ⟨rfl, rfl, rfl⟩ := hs
  simp only [scanStep, if_neg hroom', advance_off, if_neg hfield_ne, if_neg hrow_ne, hen,
    and_self, if_true]

/-- What the enclosing does to a state without a begun terminator. -/
theorem scanEnclosing_more {enclosing : Bytes} {t : Scan}
    (h : scanEnclosing enclosing s ch = .more t) :
    t.enFlag = false ∧ (t.text = s.text ∧ t.ixFT = s.ixFT ∧ t.ixRT = s.ixRT ∨
      t.text = [] ∧ t.ixFT = 0 ∧ t.ixRT = 0) := by
  simp only [scanEnclosing] at h
  split at h
  · split at h
    · split at h
      · cases h
      · cases h
        exact ⟨rfl, Or.inr ⟨rfl, rfl, rfl⟩⟩
    · cases h
  · cases h
    exact ⟨rfl, Or.inl ⟨rfl, rfl, rfl⟩⟩

theorem scanEnclosing_token {enclosing text : Bytes} {t : DataToken} {next : Option DataToken}
    (h : scanEnclosing enclosing s ch = .token t text next) : t = .value := by
  simp only [scanEnclosing] at h
  split at h
  · split at h
    · split at h
      · cases h
        rfl
      · cases h
    · cases h
      rfl
  · cases h

/-- Every character is taken into the text, unless it completes a token or an enclosing. -/
theorem scanStep_more {t : Scan} {whole : Bytes} (hf : f.Apart) (hs : s.Sound f whole)
    (h : scanStep f s ch = .more t) : t.Sound f (whole ++ [ch]) := by
  rcases hs with ⟨rfl, hs⟩ | ⟨hen, hoff, hlength⟩
  · have hfield := hs.field.advance hs.field_lt s.enFlag ch
    have hrow := hs.row.advance hs.row_lt s.enFlag ch
    simp only [scanStep] at h
    split at h
    · cases h
    · split at h
      · split at h <;> cases h
      · next hFT =>
        split at h
        · split at h <;> cases h
        · next hRT =>
          have hcounting : Scan.Counting f { s with
              text := s.text ++ [ch]
              ixFT := advance f.m_FieldTerm (s.text ++ [ch]) s.enFlag ch s.ixFT
              ixRT := advance f.m_RowTerm (s.text ++ [ch]) s.enFlag ch s.ixRT } :=
            ⟨hfield, lt_of_le_of_ne hfield.le hFT, hrow, lt_of_le_of_ne hrow.le hRT⟩
          split at h
          · cases h
            exact Or.inl ⟨rfl, hcounting⟩
          · next hsome =>
            split at h
            · next hzero =>
              obtain ⟨hflag, ⟨htext, hFT', hRT'⟩ | ⟨htext, hFT', hRT'⟩⟩ := scanEnclosing_more h
              · refine Or.inl ⟨htext, ?_⟩
                obtain ⟨a, b, c, d⟩ := hcounting
                refine ⟨?_, ?_, ?_, ?_⟩
                · rw [htext, hFT']
                  exact a
                · rw [hFT']
                  exact b
                · rw [htext, hRT']
                  exact c
                · rw [hRT']
                  exact d
              · refine Or.inr ⟨by simp [hsome], ⟨hflag, hFT', hRT'⟩, ?_⟩
                rw [htext]
                exact Nat.zero_le _
            · cases h
              exact Or.inl ⟨rfl, hcounting⟩
  · obtain ⟨enclosing, hsome⟩ := Option.ne_none_iff_exists'.mp hen
    by_cases hroom : s.text.length + 1 < maxTokenValueLen
    · rw [scanStep_off hf hsome hoff hroom] at h
      have hmore := scanEnclosing_more h
      refine Or.inr ⟨hen, ?_, ?_⟩
      · rcases hmore.2 with ⟨-, hFT, hRT⟩ | ⟨-, hFT, hRT⟩
        · exact ⟨hmore.1, hFT.trans hoff.ixFT, hRT.trans hoff.ixRT⟩
        · exact ⟨hmore.1, hFT, hRT⟩
      · rw [List.length_append, List.length_singleton]
        rcases hmore.2 with ⟨htext, -, -⟩ | ⟨htext, -, -⟩
        · rw [htext, List.length_append, List.length_singleton]
          omega
        · rw [htext]
          exact Nat.zero_le _
    · have hover : maxTokenValueLen ≤ (s.text ++ [ch]).length := by
        rw [List.length_append, List.length_singleton]
        omega
      simp only [scanStep, if_pos hover] at h
      cases h

theorem scanStep_token {t : DataToken} {text whole : Bytes} {next : Option DataToken}
    (hf : f.Apart) (hs : s.Sound f whole) (h : scanStep f s ch = .token t text next)
    (rest : Bytes) : Taken f (whole ++ ch :: delivered rest) (t, text, ⟨rest, next⟩) := by
  by_cases hover : maxTokenValueLen ≤ (s.text ++ [ch]).length
  · simp only [scanStep, if_pos hover] at h
    cases h
    apply Taken.overflow
    have hlength : s.text.length ≤ whole.length := by
      rcases hs with ⟨rfl, -⟩ | ⟨-, -, hle⟩
      · exact le_rfl
      · exact hle
    rw [List.length_append, List.length_singleton] at hover
    rw [List.length_append, List.length_cons]
    omega
  rcases hs with ⟨rfl, hs⟩ | ⟨hen, hoff, hlength⟩
  · have hfield := hs.field.advance hs.field_lt s.enFlag ch
    have hrow := hs.row.advance hs.row_lt s.enFlag ch
    have hwhole : s.text ++ ch :: delivered rest = (s.text ++ [ch]) ++ delivered rest := by
      rw [List.append_assoc, List.singleton_append]
    rw [hwhole]
    simp only [scanStep, if_neg hover] at h
    split at h
    · next hFT =>
      rw [hFT] at hfield
      obtain ⟨hascii, hall, hcut⟩ := hfield.complete hf.field_ne
      split at h
      · next hlen =>
        cases h
        rw [hall hlen]
        exact .field rest hascii rfl
      · cases h
        apply Taken.valueField _ _ hascii
        rw [← List.append_assoc, ← hcut]
    · split at h
      · next hRT =>
        rw [hRT] at hrow
        obtain ⟨hascii, hall, hcut⟩ := hrow.complete hf.row_ne
        split at h
        · next hlen =>
          cases h
          rw [hall hlen]
          exact .row rest hascii rfl
        · cases h
          apply Taken.valueRow _ _ hascii
          rw [← List.append_assoc, ← hcut]
      · split at h
        · cases h
        · next hsome =>
          split at h
          · cases scanEnclosing_token h
            exact .enclosed _ _ (by simp [hsome])
          · cases h
  · obtain ⟨enclosing, hsome⟩ := Option.ne_none_iff_exists'.mp hen
    rw [List.length_append, List.length_singleton, not_le] at hover
    rw [scanStep_off hf hsome hoff hover] at h
    cases scanEnclosing_token h
    exact .enclosed _ _ hen


theorem delivered_return (ch : UInt8) (rest : Bytes) :
    delivered (carriageReturn :: ch :: rest) = ch :: delivered rest := by
  rw [delivered.eq_def]
  simp only [if_true]

theorem delivered_cons {ch : UInt8} (h : ch ≠ carriageReturn) (rest : Bytes) :
    delivered (ch :: rest) = ch :: delivered rest := by
  rw [delivered.eq_def]
  simp only [if_neg h]

theorem Scan.Sound.ends {whole : Bytes} (hs : s.Sound f whole) :
    Taken f whole (.value, s.text, ⟨[], some .eof⟩) := by
  rcases hs with ⟨rfl, -⟩ | ⟨hen, -, -⟩
  · exact .valueEnd
  · exact .enclosed _ _ hen

theorem scan_taken (hf : f.Apart) (input : Bytes) {whole : Bytes} (hs : s.Sound f whole) :
    Taken f (whole ++ delivered input) (scan f s input) := by
  fun_induction scan f s input generalizing whole with
  | case1 s =>
    rw [delivered, List.append_nil]
    exact hs.ends
  | case2 s =>
    have hnone : delivered [carriageReturn] = [] := rfl
    rw [hnone, List.append_nil]
    exact hs.ends
  | case3 s ch rest t h ih =>
    have htaken := ih (scanStep_more hf hs h)
    rw [List.append_assoc] at htaken
    rw [delivered_return]
    exact htaken
  | case4 s ch rest t text next h =>
    rw [delivered_return]
    exact scanStep_token hf hs h rest
  | case5 s ch rest hcr t h ih =>
    have htaken := ih (scanStep_more hf hs h)
    rw [List.append_assoc] at htaken
    rw [delivered_cons hcr]
    exact htaken
  | case6 s ch rest hcr t text next h =>
    rw [delivered_cons hcr]
    exact scanStep_token hf hs h rest

theorem Scan.start_sound (hf : f.Apart) : Scan.start.Sound f [] :=
  Or.inl ⟨rfl, .zero _ _, List.length_pos_of_ne_nil hf.field_ne, .zero _ _,
    List.length_pos_of_ne_nil hf.row_ne⟩

/-- A token lies at the start of the characters of the file, unless the file is at its end. -/
theorem getToken_taken (hf : f.Apart) {rest : Bytes} (hne : delivered rest ≠ []) :
    Taken f (delivered rest) (getToken f ⟨rest, none⟩) := by
  have hnil : rest ≠ [] := fun heq => hne (congrArg delivered heq)
  have hcr : rest ≠ [carriageReturn] := fun heq => hne (congrArg delivered heq)
  rw [getToken_scan hnil hcr]
  exact scan_taken hf rest (Scan.start_sound hf)

end taken

end Natc.Ploader
