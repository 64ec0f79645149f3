import Natc.Ploader.RoundTrip

/-!
# Round trip with an enclosing

Between two marks the search for terminators is off. The closing mark of an empty value is told from
an opening one by `encloseLoopCnt`, which works for marks of one character only.
-/

namespace Natc.Ploader

/-- The enclosing, without `-e` an empty string. -/
def Format.mark (f : Format) : Bytes :=
  f.m_Enclosing.getD []

/-- An enclosing and two terminators, none of which shares a character with another. -/
structure Format.Enclosed (f : Format) : Prop extends f.Apart where
  enclosing : f.m_Enclosing = some f.mark
  mark_ne : f.mark ≠ []
  mark_length : f.mark.length ≤ 10
  mark_field : ∀ c ∈ f.mark, c ∉ f.m_FieldTerm
  mark_row : ∀ c ∈ f.mark, c ∉ f.m_RowTerm
  mark_noNul : 0 ∉ f.mark
  field_noNul : 0 ∉ f.m_FieldTerm
  row_noNul : 0 ∉ f.m_RowTerm

/-- A column value that the enclosing can hold. -/
structure Format.Encloses (f : Format) (v : Bytes) : Prop where
  noMark : ∀ c ∈ v, c ∉ f.mark
  noReturn : carriageReturn ∉ v
  noNul : 0 ∉ v
  fits : v.length < 32768

/-- A terminator or mark that `GetToken` can read. -/
def found (term : Bytes) : Prop :=
  ascii term ∧ carriageReturn ∉ term

/-! ## Carriage returns -/

theorem scan_return {f : Format} {s : Scan} {ch : UInt8} {rest : Bytes}
    (hch : ch ≠ carriageReturn) :
    scan f s (carriageReturn :: ch :: rest) = scan f s (ch :: rest) := by
  rw [scan.eq_def, scan.eq_def]
  simp only [if_true, if_neg hch]

theorem getToken_return {f : Format} {ch : UInt8} {rest : Bytes} (hch : ch ≠ carriageReturn) :
    getToken f ⟨carriageReturn :: ch :: rest, none⟩ = getToken f ⟨ch :: rest, none⟩ := by
  rw [getToken_scan (List.cons_ne_nil _ _) (by simp), getToken_scan (List.cons_ne_nil _ _),
    scan_return hch]
  intro heq
  exact hch (List.cons.inj heq).1

theorem length_delivered (b : Bytes) : (delivered b).length ≤ b.length := by
  fun_induction delivered b with
  | case1 => exact le_rfl
  | case2 => exact Nat.zero_le _
  | case3 _ _ ih =>
    simp only [List.length_cons]
    omega
  | case4 _ _ _ ih =>
    simp only [List.length_cons]
    omega

theorem exists_returns (b : Bytes) : ∃ k term, b = List.replicate k carriageReturn ++ term ∧
    term.head? ≠ some carriageReturn := by
  induction b with
  | nil => exact ⟨0, [], rfl, by simp⟩
  | cons c b ih =>
    by_cases hc : c = carriageReturn
    · obtain ⟨k, term, rfl, hterm⟩ := ih
      exact ⟨k + 1, term, by rw [hc, List.replicate_succ, List.cons_append], hterm⟩
    · exact ⟨0, c :: b, rfl, by simpa using hc⟩

/-- Of carriage returns in a row fewer are delivered. -/
theorem not_prefix_returns {term rest : Bytes} (hterm : (term ++ rest).head? ≠ some carriageReturn)
    (m k : Nat) (hle : m ≤ k) (hk : 0 < k) :
    ¬List.replicate k carriageReturn ++ term <+:
      delivered (List.replicate m carriageReturn ++ (term ++ rest)) := by
  obtain ⟨k, rfl⟩ : ∃ n, k = n + 1 := ⟨k - 1, by omega⟩
  rw [List.replicate_succ, List.cons_append]
  match m with
  | 0 =>
    rw [List.replicate_zero, List.nil_append]
    cases h : term ++ rest with
    | nil => exact fun hprefix => List.cons_ne_nil _ _ (List.prefix_nil.mp hprefix)
    | cons e w =>
      have he : e ≠ carriageReturn := by simpa [h] using hterm
      rw [delivered_cons he, List.cons_prefix_cons]
      exact fun hprefix => he hprefix.1.symm
  | 1 =>
    cases h : term ++ rest with
    | nil => exact fun hprefix => List.cons_ne_nil _ _ (List.prefix_nil.mp hprefix)
    | cons e w =>
      have he : e ≠ carriageReturn := by simpa [h] using hterm
      have hdelivered : delivered (List.replicate 1 carriageReturn ++ e :: w) =
          e :: delivered w := delivered_return e w
      rw [hdelivered, List.cons_prefix_cons]
      exact fun hprefix => he hprefix.1.symm
  | m + 2 =>
    rw [List.replicate_succ, List.replicate_succ, List.cons_append, List.cons_append,
      delivered_return, List.cons_prefix_cons]
    exact fun hprefix => not_prefix_returns hterm m k (by omega) (by omega) hprefix.2

/-- A terminator with a carriage return is not delivered as it was written. -/
theorem not_prefix_delivered {term rest : Bytes} (hmem : carriageReturn ∈ term)
    (hrest : rest.head? ≠ some carriageReturn) : ¬term <+: delivered (term ++ rest) := by
  induction term with
  | nil => exact absurd hmem List.not_mem_nil
  | cons c t ih =>
    by_cases hc : c = carriageReturn
    · obtain ⟨k, b, rfl, hb⟩ := exists_returns t
      have hhead : (b ++ rest).head? ≠ some carriageReturn := by
        cases b with
        | nil => exact hrest
        | cons e b => exact hb
      have hwhole : c :: (List.replicate k carriageReturn ++ b) =
          List.replicate (k + 1) carriageReturn ++ b := by
        rw [hc, List.replicate_succ, List.cons_append]
      rw [hwhole, List.append_assoc]
      exact not_prefix_returns hhead (k + 1) (k + 1) le_rfl k.succ_pos
    · have ht := (List.mem_cons.mp hmem).resolve_left (Ne.symm hc)
      rw [List.cons_append, delivered_cons hc, List.cons_prefix_cons]
      exact fun hprefix => ih ht hprefix.2

/-! ## The marks -/

section marks

variable {f : Format} {s : Scan} {v rest : Bytes} {ch : UInt8}

/-- A character that is not of the terminator ends a match. -/
theorem advance_leaves {term : Bytes} {ix : Nat} (hix : ix < term.length) (text : Bytes)
    (enFlag : Bool) (h : ch ∉ term) : advance term (text ++ [ch]) enFlag ch ix = 0 := by
  have hsame : sameChar ch (term.getD ix 0) = false := by
    apply Bool.eq_false_of_not_eq_true
    intro heq
    apply h
    rw [(eq_of_sameChar heq).1]
    exact getD_mem hix
  simp only [advance, hsame, Bool.and_false, Bool.false_eq_true, if_false]
  split
  · rcases foldl_longest_cases (fun j => (text ++ [ch]).drop ((text ++ [ch]).length - (j + 1)) =
      term.take (j + 1)) (min (text ++ [ch]).length term.length) with hzero | ⟨j, hj, hp, -⟩
    · exact hzero
    · exfalso
      apply h
      apply List.mem_of_mem_take (i := j + 1)
      rw [← hp]
      have hlength : (text ++ [ch]).length - (j + 1) ≤ text.length := by
        rw [List.length_append, List.length_singleton]
        omega
      rw [List.drop_append_of_le_length hlength]
      exact List.mem_append_right _ List.mem_cons_self
  · omega

/-- A character of neither terminator is compared with the mark. -/
theorem scanStep_mark (hf : f.Enclosed) (hFT : s.ixFT < f.m_FieldTerm.length)
    (hRT : s.ixRT < f.m_RowTerm.length) (hfield : ch ∉ f.m_FieldTerm) (hrow : ch ∉ f.m_RowTerm)
    (hroom : s.text.length + 1 < maxTokenValueLen) :
    scanStep f s ch =
      scanEnclosing f.mark { s with text := s.text ++ [ch], ixFT := 0, ixRT := 0 } ch := by
  have hfield_ne : 0 ≠ f.m_FieldTerm.length := (List.length_pos_of_ne_nil hf.field_ne).ne
  have hrow_ne : 0 ≠ f.m_RowTerm.length := (List.length_pos_of_ne_nil hf.row_ne).ne
  have hroom' : ¬maxTokenValueLen ≤ (s.text ++ [ch]).length := by
    rw [List.length_append, List.length_singleton]
    exact hroom.not_ge
  have hen := hf.enclosing
  simp only [scanStep, if_neg hroom', advance_leaves hFT _ _ hfield, advance_leaves hRT _ _ hrow,
    if_neg hfield_ne, if_neg hrow_ne]
  rw [hen]
  simp only [and_self, if_true]

/-- The state behind a mark without a value. -/
def Scan.opened (encloseLoopCnt : Nat) : Scan where
  text := []
  ixFT := 0
  ixRT := 0
  ixEn := 0
  enFlag := false
  encloseLoopCnt := encloseLoopCnt

/-- What a mark is taken for. -/
def readMark (f : Format) (encloseLoopCnt : Nat) (v rest : Bytes) : DataToken × Bytes × DataFile :=
  if v = [] then
    if encloseLoopCnt = f.mark.length then (.value, [], ⟨rest, none⟩)
    else scan f (.opened (encloseLoopCnt + 1)) rest
  else (.value, v, ⟨rest, none⟩)

theorem advanceEnclosing_next {mark : Bytes} {k : Nat} (hascii : mark.getD k 0 < 128) :
    advanceEnclosing mark (mark.getD k 0) k = k + 1 := by
  rw [advanceEnclosing, sameChar_self hascii, if_pos rfl]

/-- Some characters of the mark are read behind the text. -/
structure Scan.Inside (f : Format) (s : Scan) (v : Bytes) (k : Nat) : Prop where
  text : s.text = v ++ f.mark.take k
  ixEn : s.ixEn = k
  field : s.ixFT < f.m_FieldTerm.length
  row : s.ixRT < f.m_RowTerm.length

/-- A character of the mark is compared with the mark. -/
theorem Scan.Inside.step {k : Nat} (hs : s.Inside f v k) (hf : f.Enclosed)
    (hk : k < f.mark.length) (hroom : v.length + k + 1 < maxTokenValueLen) :
    scanStep f s (f.mark.getD k 0) =
      scanEnclosing f.mark { s with text := v ++ f.mark.take (k + 1), ixFT := 0, ixRT := 0 }
        (f.mark.getD k 0) := by
  have hmem := getD_mem hk
  have htext : s.text.length + 1 < maxTokenValueLen := by
    rw [hs.text, List.length_append, List.length_take]
    omega
  rw [scanStep_mark hf hs.field hs.row (hf.mark_field _ hmem) (hf.mark_row _ hmem) htext, hs.text,
    List.append_assoc, ← take_succ_getD hk]

/-- The mark behind a text is taken up to its last character. -/
theorem mark_passes (hf : f.Enclosed) (hascii : ∀ c ∈ f.mark, c < 128) {d k : Nat}
    (hk : k + d < f.mark.length) (hroom : v.length + k + d < maxTokenValueLen)
    (hs : s.Inside f v k) :
    ∃ t, Passes f s ((f.mark.drop k).take d) t ∧ t.Inside f v (k + d) ∧
      t.encloseLoopCnt = s.encloseLoopCnt := by
  induction d generalizing k s with
  | zero => exact ⟨s, by rw [List.take_zero]; rfl, hs, rfl⟩
  | succ d ih =>
    have hlt : k < f.mark.length := by omega
    have hstep := hs.step hf hlt (by omega)
    simp only [scanEnclosing, hs.ixEn, advanceEnclosing_next (hascii _ (getD_mem hlt)),
      if_neg (show k + 1 ≠ f.mark.length by omega)] at hstep
    obtain ⟨t, hpasses, ht, hcnt⟩ := @ih { s with
        text := v ++ f.mark.take (k + 1), ixFT := 0, ixRT := 0, ixEn := k + 1, enFlag := false }
      (k + 1) (by omega) (by omega)
      ⟨rfl, rfl, List.length_pos_of_ne_nil hf.field_ne, List.length_pos_of_ne_nil hf.row_ne⟩
    rw [drop_getD hlt, List.take_succ_cons, show k + (d + 1) = k + 1 + d from by omega]
    exact ⟨t, ⟨_, hstep, hpasses⟩, ht, hcnt⟩

/-- The last character of the mark. -/
theorem mark_last (hf : f.Enclosed) (hascii : ∀ c ∈ f.mark, c < 128) {k : Nat}
    (hk : k + 1 = f.mark.length) (hroom : (v ++ f.mark).length < maxTokenValueLen)
    (hs : s.Inside f v k) :
    scanStep f s (f.mark.getD k 0) =
      if v = [] then
        if s.encloseLoopCnt = f.mark.length then .token .value [] none
        else .more (.opened (s.encloseLoopCnt + 1))
      else .token .value v none := by
  have hlt : k < f.mark.length := by omega
  have htake : f.mark.take (k + 1) = f.mark := List.take_of_length_le (by omega)
  rw [List.length_append] at hroom
  have hstep := hs.step hf hlt (by omega)
  rw [htake] at hstep
  simp only [scanEnclosing, hs.ixEn, advanceEnclosing_next (hascii _ (getD_mem hlt)), hk,
    if_true] at hstep
  rw [hstep]
  by_cases hnil : v = []
  · subst hnil
    rw [List.nil_append, if_pos rfl, if_pos rfl]
    rfl
  · have hpos := List.length_pos_of_ne_nil hnil
    have hne : (v ++ f.mark).length ≠ f.mark.length := by
      rw [List.length_append]
      omega
    rw [if_neg hnil, if_neg hne, List.length_append, Nat.add_sub_cancel, List.take_left]

/-- A mark behind a text. -/
theorem scan_mark (hf : f.Enclosed) (hascii : ∀ c ∈ f.mark, c < 128)
    (hchar : carriageReturn ∉ f.mark) (hlength : v.length < 65526) (hs : s.Inside f v 0) :
    scan f s (f.mark ++ rest) = readMark f s.encloseLoopCnt v rest := by
  have hpos := List.length_pos_of_ne_nil hf.mark_ne
  have hmax := hf.mark_length
  have hk : f.mark.length - 1 + 1 = f.mark.length := Nat.sub_add_cancel hpos
  obtain ⟨t, hpasses, ht, hcnt⟩ := @mark_passes f s v hf hascii (f.mark.length - 1) 0 (by omega)
    (by rw [maxTokenValueLen]; omega) hs
  rw [List.drop_zero] at hpasses
  rw [Nat.zero_add] at ht
  have hlast := mark_last hf hascii hk (by rw [List.length_append, maxTokenValueLen]; omega) ht
  have hlt : f.mark.length - 1 < f.mark.length := by omega
  have hcr : f.mark.getD (f.mark.length - 1) 0 ≠ carriageReturn :=
    fun heq => hchar (heq ▸ getD_mem hlt)
  rw [hcnt] at hlast
  rw [append_last hk, hpasses.scan fun hmem => hchar (List.mem_of_mem_take hmem), readMark]
  split
  · next hnil =>
    rw [if_pos hnil] at hlast
    split
    · next hclosed =>
      rw [if_pos hclosed] at hlast
      exact scan_token hcr hlast
    · next hopened =>
      rw [if_neg hopened] at hlast
      exact scan_more hcr hlast
  · next hnil =>
    rw [if_neg hnil] at hlast
    exact scan_token hcr hlast

/-- Between the marks the characters of a value are taken as they are. -/
theorem value_passes (hf : f.Enclosed) (hs : s.Off) (hEn : s.ixEn = 0)
    (hv : ∀ c ∈ v, c ∉ f.mark) (hlength : s.text.length + v.length < maxTokenValueLen) :
    Passes f s v { s with text := s.text ++ v } := by
  have hpos := List.length_pos_of_ne_nil hf.mark_ne
  induction v generalizing s with
  | nil =>
    rw [List.append_nil]
    rfl
  | cons c v ih =>
    have hmark := hv c List.mem_cons_self
    rw [List.length_cons] at hlength
    have hsame : sameChar c (f.mark.getD 0 0) = false := by
      apply Bool.eq_false_of_not_eq_true
      intro heq
      apply hmark
      rw [(eq_of_sameChar heq).1]
      exact getD_mem hpos
    have hstep : scanStep f s c = .more { s with text := s.text ++ [c] } := by
      rw [scanStep_off hf.toApart hf.enclosing hs (by omega)]
      obtain ⟨text, ixFT, ixRT, ixEn, enFlag, encloseLoopCnt⟩ := s
      obtain ⟨rfl, rfl, rfl⟩ := hs
      subst hEn
      simp only [scanEnclosing, advanceEnclosing, hsame, Bool.false_eq_true, if_false,
        Nat.lt_irrefl, if_neg hpos.ne]
    have hafter := @ih { s with text := s.text ++ [c] } ⟨hs.enFlag, hs.ixFT, hs.ixRT⟩ hEn
      (fun d hd => hv d (List.mem_cons_of_mem c hd))
      (by simp only [List.length_append, List.length_singleton]; omega)
    rw [List.append_assoc, List.singleton_append] at hafter
    exact ⟨_, hstep, hafter⟩

/-- A value between its marks; an empty one only where the mark is a single character. -/
theorem getToken_enclosed (hf : f.Enclosed) (hascii : ∀ c ∈ f.mark, c < 128)
    (hchar : carriageReturn ∉ f.mark) (hv : f.Encloses v) (hempty : v = [] → f.mark.length = 1) :
    getToken f ⟨f.enclose v ++ rest, none⟩ = (.value, v, ⟨rest, none⟩) := by
  have hpos := List.length_pos_of_ne_nil hf.mark_ne
  have hfits := hv.fits
  have hne := append_ne (v ++ (f.mark ++ rest)) (v := []) (by simp) hf.mark_ne hchar
  rw [List.nil_append] at hne
  have htext : f.enclose v ++ rest = f.mark ++ (v ++ (f.mark ++ rest)) := by
    simp only [Format.enclose, Format.mark, List.append_assoc]
  have hfield := List.length_pos_of_ne_nil hf.field_ne
  have hrow := List.length_pos_of_ne_nil hf.row_ne
  have hopen := @scan_mark f .start [] (v ++ (f.mark ++ rest)) hf hascii hchar (by simp)
    ⟨rfl, rfl, hfield, hrow⟩
  have hvalue := @value_passes f (.opened 1) v hf ⟨rfl, rfl, rfl⟩ rfl hv.noMark
    (by change 0 + v.length < 65536; omega)
  have hclose := @scan_mark f { Scan.opened 1 with text := v } v rest hf hascii hchar (by omega)
    ⟨(List.append_nil v).symm, rfl, hfield, hrow⟩
  rw [htext, getToken_scan hne.1 hne.2, hopen, readMark, if_pos rfl,
    if_neg (show Scan.start.encloseLoopCnt ≠ f.mark.length from hpos.ne)]
  refine (hvalue.scan hv.noReturn).trans (hclose.trans ?_)
  rw [readMark]
  split
  · next hnil =>
    rw [hempty hnil, hnil]
    rfl
  · rfl

end marks

/-! ## Columns -/

section columns

variable {f : Format} {t : Table} {i fuel : Nat} {v rest : Bytes} {row : Row}

/-- A value whose token is its own, and then the checks behind the column. -/
theorem readLoop_store {d : DataFile} (hi : i < t.attrTypes.length)
    (hadd : i + 1 < t.attrTypes.length → t.added (i + 1) = false) :
    readLoop f t (fuel + 1) i .value v d row =
      (readBehind f t i (getToken f d).1 (getToken f d).2.2 (t.setAttr i v .nts row)).run f t fuel
        (t.setAttr i v .nts row) := by
  have hskip : ¬(i + 1 < t.attrTypes.length ∧ t.added (i + 1) = true) := by
    intro h
    rw [hadd h.1] at h
    cases h.2
  rw [readLoop.eq_def]
  simp only [if_neg hi.not_ge, if_neg hskip]
  rfl

theorem getToken_fieldTerm (hf : f.Enclosed) (hfield : found f.m_FieldTerm) :
    getToken f ⟨f.m_FieldTerm ++ rest, none⟩ = (.fieldTerm, f.m_FieldTerm, ⟨rest, none⟩) := by
  have hne := append_ne rest (v := []) (by simp) hf.field_ne hfield.2
  rw [List.nil_append] at hne
  rw [getToken_scan hne.1 hne.2]
  exact scan_field (v := []) hf.toApart hfield.1 hfield.2 (by simp) (by simp)

theorem getToken_rowTerm (hf : f.Enclosed) (hrow : found f.m_RowTerm) :
    getToken f ⟨f.m_RowTerm ++ rest, none⟩ = (.rowTerm, f.m_RowTerm, ⟨rest, none⟩) := by
  have hne := append_ne rest (v := []) (by simp) hf.row_ne hrow.2
  rw [List.nil_append] at hne
  rw [getToken_scan hne.1 hne.2]
  exact scan_row (v := []) hf.toApart hrow.1 hrow.2 (by simp) (by simp)

/-- A field terminator that is a lone carriage return is passed over. -/
theorem getToken_loneReturn (hf : f.Enclosed) (hfield : f.m_FieldTerm = [carriageReturn]) :
    getToken f ⟨f.m_FieldTerm ++ (f.m_RowTerm ++ rest), none⟩ =
      getToken f ⟨f.m_RowTerm ++ rest, none⟩ := by
  have hchar : carriageReturn ∉ f.m_RowTerm := by
    apply hf.disjoint
    rw [hfield]
    exact List.mem_cons_self
  rw [hfield]
  cases hrow : f.m_RowTerm with
  | nil => exact absurd hrow hf.row_ne
  | cons c term =>
    apply getToken_return
    intro heq
    apply hchar
    rw [hrow, heq]
    exact List.mem_cons_self

variable (hf : f.Enclosed) (hascii : ∀ c ∈ f.mark, c < 128) (hchar : carriageReturn ∉ f.mark)
  (hv : f.Encloses v) (hempty : v = [] → f.mark.length = 1)

include hf hascii hchar hv hempty

theorem readsField_enclosed (hfield : found f.m_FieldTerm) :
    ReadsField f t (fun _ => .nts) v := by
  intro i fuel rest row hi hadd hnext
  rw [readFrom, getToken_enclosed hf hascii hchar hv hempty, readLoop_store (by omega)
    (fun _ => hnext), getToken_fieldTerm hf hfield, readBehind_field hi hadd]
  rfl

theorem readsLast_enclosed (hrow : found f.m_RowTerm)
    (hfield : t.mInformix = true → found f.m_FieldTerm ∨ f.m_FieldTerm = [carriageReturn]) :
    ReadsLast f t (fun _ => .nts) v := by
  intro i fuel rest row hi
  have hskip : i + 1 < t.attrTypes.length → t.added (i + 1) = false := fun h => by omega
  have hnext : getToken f ⟨f.m_RowTerm ++ rest, none⟩ =
      (.rowTerm, f.m_RowTerm, ⟨rest, none⟩) := getToken_rowTerm hf hrow
  cases hinformix : t.mInformix with
  | false =>
    have htext : joined f false [v] ++ rest = f.enclose v ++ (f.m_RowTerm ++ rest) := by
      simp [joined]
    rw [htext, readFrom, getToken_enclosed hf hascii hchar hv hempty,
      readLoop_store (by omega) hskip, hnext, readBehind_row hi]
    exact hi ▸ readLoop_end hi.ge
  | true =>
    have htext : joined f true [v] ++ rest =
        f.enclose v ++ (f.m_FieldTerm ++ (f.m_RowTerm ++ rest)) := by
      simp [joined]
    rw [htext, readFrom, getToken_enclosed hf hascii hchar hv hempty,
      readLoop_store (by omega) hskip]
    rcases hfield hinformix with hfound | hlone
    · rw [getToken_fieldTerm hf hfound,
        readBehind_informix hi hinformix (congrArg Prod.fst hnext), hnext]
      exact hi ▸ readLoop_end hi.ge
    · rw [getToken_loneReturn hf hlone, hnext, readBehind_row hi]
      exact hi ▸ readLoop_end hi.ge

end columns

namespace Transfer

variable (x : Transfer)

/-- A record of the table that the file can hold between marks. -/
structure FitsEnclosed (r : List Bytes) : Prop where
  length : r.length = x.table.attrTypes.length
  encloses : ∀ v ∈ r, x.format.Encloses v

/-- A file with an enclosing that is read back. -/
def LawfulEnclosed : Prop :=
  x.Returns x.FitsEnclosed x.Same

/-- What the round trip with an enclosing rests on. -/
structure FaithfulEnclosed : Prop where
  printed : x.Printed
  unadded : x.Unadded
  /-- An empty value is only told from an opening mark if the mark is a single character. -/
  single : x.format.mark.length = 1
  mark : found x.format.mark
  row : found x.format.m_RowTerm
  /-- The field terminator is found, or not in the file, or passed over. -/
  field : found x.format.m_FieldTerm ∨ x.table.attrTypes.length = 1 ∧
    (x.table.mInformix = false ∨ x.format.m_FieldTerm = [carriageReturn])

variable {x}

theorem FaithfulEnclosed.ascii (h : x.FaithfulEnclosed) : ∀ c ∈ x.format.mark, c < 128 := by
  intro c hc
  obtain ⟨m, hm⟩ := List.length_eq_one_iff.mp h.single
  have hascii := h.mark.1
  rw [hm, List.mem_singleton] at hc
  rw [hm] at hascii
  rw [hc]
  exact hascii

theorem FaithfulEnclosed.lawful (hf : x.format.Enclosed) (h : x.FaithfulEnclosed) :
    x.LawfulEnclosed := by
  intro records hfits
  apply ReadsBack.mono (fun _ _ => And.left)
  apply @readsBack x (fun _ => .nts) h.printed h.unadded records
  · exact fun r hr => (hfits r hr).length
  · exact fun r hr v hv => ((hfits r hr).encloses v hv).noNul
  · intro hmany r hr v hv
    apply readsField_enclosed hf h.ascii h.mark.2 ((hfits r hr).encloses v hv) (fun _ => h.single)
    exact h.field.resolve_right fun hone => by omega
  · intro r hr v hv
    apply readsLast_enclosed hf h.ascii h.mark.2 ((hfits r hr).encloses v hv) (fun _ => h.single)
      h.row
    intro hinformix
    rcases h.field with hfound | hone
    · exact Or.inl hfound
    · exact Or.inr (hone.2.resolve_left fun hno => by simp [hinformix] at hno)

end Transfer

/-! ## What is not read back -/

/-- The counter says how much of the mark the text ends with. -/
structure Marked (mark text : Bytes) (ix : Nat) : Prop where
  le : ix ≤ mark.length
  suffix : mark.take ix <:+ text
  ascii : ∀ c ∈ mark.take ix, c < 128

theorem Marked.zero (mark text : Bytes) : Marked mark text 0 :=
  ⟨Nat.zero_le _, List.nil_suffix, by simp⟩

theorem Marked.next {mark text : Bytes} {ix : Nat} {ch : UInt8} (h : Marked mark text ix)
    (hlt : ix < mark.length) (hsame : sameChar ch (mark.getD ix 0) = true) :
    Marked mark (text ++ [ch]) (ix + 1) := by
  obtain ⟨heq, hascii⟩ := eq_of_sameChar hsame
  refine ⟨hlt, ?_, ?_⟩
  · rw [take_succ_getD hlt, ← heq]
    exact List.suffix_append_self_iff.mpr h.suffix
  · rw [take_succ_getD hlt]
    intro c hc
    rcases List.mem_append.mp hc with hc | hc
    · exact h.ascii c hc
    · rw [List.mem_singleton.mp hc]
      exact hascii

theorem Marked.advance {mark text : Bytes} {ix : Nat} (h : Marked mark text ix)
    (hlt : ix < mark.length) (ch : UInt8) :
    Marked mark (text ++ [ch]) (advanceEnclosing mark ch ix) := by
  rw [advanceEnclosing]
  split
  · next hsame => exact h.next hlt hsame
  · split
    · split
      · next hsame => exact (Marked.zero mark text).next (by omega) hsame
      · exact .zero _ _
    · next hzero =>
      rw [Nat.eq_zero_of_not_pos hzero]
      exact .zero _ _

/-- A token that no terminator ends: a value up to a mark or up to the end of the file. -/
def Shut (f : Format) (whole : Bytes) (r : DataToken × Bytes × DataFile) : Prop :=
  r.1 = .eof ∨ r.1 = .value ∧ (r.2.1 ++ f.mark <+: whole ∨ r.2.1 = whole)

section shut

variable {f : Format} {s : Scan} {ch : UInt8}

/-- Where no mark can open, the text goes on or ends at a mark. -/
theorem scanStep_shut (hf : f.Enclosed) (hs : s.Off) (hEn : Marked f.mark s.text s.ixEn)
    (hlt : s.ixEn < f.mark.length) {rest : Bytes}
    (hopen : ¬((∀ c ∈ f.mark, c < 128) ∧ f.mark <+: s.text ++ ch :: rest)) :
    (∃ text, scanStep f s ch = .token .eof text none) ∨
      (∃ text, scanStep f s ch = .token .value text none ∧ text ++ f.mark = s.text ++ [ch]) ∨
      ∃ t, scanStep f s ch = .more t ∧ t.Off ∧ t.text = s.text ++ [ch] ∧
        Marked f.mark t.text t.ixEn ∧ t.ixEn < f.mark.length := by
  by_cases hroom : s.text.length + 1 < maxTokenValueLen
  · have hnext := hEn.advance hlt ch
    rw [scanStep_off hf.toApart hf.enclosing hs hroom]
    simp only [scanEnclosing]
    by_cases hfull : advanceEnclosing f.mark ch s.ixEn = f.mark.length
    · rw [hfull] at hnext
      have hsuffix := hnext.suffix
      have hascii := hnext.ascii
      rw [List.take_length] at hsuffix hascii
      have hne : (s.text ++ [ch]).length ≠ f.mark.length := by
        intro heq
        apply hopen
        refine ⟨hascii, rest, ?_⟩
        rw [hsuffix.eq_of_length heq.symm, List.append_assoc, List.singleton_append]
      rw [if_pos hfull, if_neg hne]
      refine Or.inr (Or.inl ⟨_, rfl, ?_⟩)
      obtain ⟨u, hu⟩ := hsuffix
      rw [← hu, List.length_append, Nat.add_sub_cancel, List.take_left]
    · rw [if_neg hfull]
      exact Or.inr (Or.inr ⟨_, rfl, ⟨rfl, hs.ixFT, hs.ixRT⟩, rfl, hnext,
        lt_of_le_of_ne hnext.le hfull⟩)
  · have hover : maxTokenValueLen ≤ (s.text ++ [ch]).length := by
      rw [List.length_append, List.length_singleton]
      omega
    simp only [scanStep, if_pos hover]
    exact Or.inl ⟨_, rfl⟩

theorem shut_more {t : Scan} {rest : Bytes} (hf : f.Enclosed) (hs : s.Off)
    (hEn : Marked f.mark s.text s.ixEn) (hlt : s.ixEn < f.mark.length)
    (hopen : ¬((∀ c ∈ f.mark, c < 128) ∧ f.mark <+: s.text ++ ch :: rest))
    (h : scanStep f s ch = .more t) : t.Off ∧ t.text = s.text ++ [ch] ∧
      Marked f.mark t.text t.ixEn ∧ t.ixEn < f.mark.length := by
  rcases scanStep_shut hf hs hEn hlt hopen with ⟨_, heq⟩ | ⟨_, heq, -⟩ | ⟨u, heq, hu⟩
  · rw [h] at heq
    cases heq
  · rw [h] at heq
    cases heq
  · rw [h] at heq
    cases heq
    exact hu

theorem shut_token {t : DataToken} {text rest : Bytes} {next : Option DataToken} {d : DataFile}
    (hf : f.Enclosed) (hs : s.Off) (hEn : Marked f.mark s.text s.ixEn)
    (hlt : s.ixEn < f.mark.length)
    (hopen : ¬((∀ c ∈ f.mark, c < 128) ∧ f.mark <+: s.text ++ ch :: rest))
    (h : scanStep f s ch = .token t text next) : Shut f (s.text ++ ch :: rest) (t, text, d) := by
  rcases scanStep_shut hf hs hEn hlt hopen with ⟨_, heq⟩ | ⟨_, heq, htext⟩ | ⟨_, heq, -⟩
  · rw [h] at heq
    cases heq
    exact Or.inl rfl
  · rw [h] at heq
    cases heq
    refine Or.inr ⟨rfl, Or.inl ⟨rest, ?_⟩⟩
    rw [htext, List.append_assoc, List.singleton_append]
  · rw [h] at heq
    cases heq

theorem scan_shut (hf : f.Enclosed) (input : Bytes) (hs : s.Off)
    (hEn : Marked f.mark s.text s.ixEn) (hlt : s.ixEn < f.mark.length)
    (hopen : ¬((∀ c ∈ f.mark, c < 128) ∧ f.mark <+: s.text ++ delivered input)) :
    Shut f (s.text ++ delivered input) (scan f s input) := by
  fun_induction scan f s input with
  | case1 s => exact Or.inr ⟨rfl, Or.inr (List.append_nil _).symm⟩
  | case2 s => exact Or.inr ⟨rfl, Or.inr (List.append_nil _).symm⟩
  | case3 s ch rest t h ih =>
    rw [delivered_return] at hopen ⊢
    obtain ⟨ht, htext, htEn, htlt⟩ := shut_more hf hs hEn hlt hopen h
    have hwhole : t.text ++ delivered rest = s.text ++ ch :: delivered rest := by
      rw [htext, List.append_assoc, List.singleton_append]
    rw [hwhole] at ih
    exact ih ht htEn htlt hopen
  | case4 s ch rest t text next h =>
    rw [delivered_return] at hopen ⊢
    exact shut_token hf hs hEn hlt hopen h
  | case5 s ch rest hcr t h ih =>
    rw [delivered_cons hcr] at hopen ⊢
    obtain ⟨ht, htext, htEn, htlt⟩ := shut_more hf hs hEn hlt hopen h
    have hwhole : t.text ++ delivered rest = s.text ++ ch :: delivered rest := by
      rw [htext, List.append_assoc, List.singleton_append]
    rw [hwhole] at ih
    exact ih ht htEn htlt hopen
  | case6 s ch rest hcr t text next h =>
    rw [delivered_cons hcr] at hopen ⊢
    exact shut_token hf hs hEn hlt hopen h

/-- Behind a first character of neither terminator no terminator is found. -/
theorem scan_start (hf : f.Enclosed) {rest whole : Bytes} (hwhole : delivered rest = ch :: whole)
    (hfield : ch ∉ f.m_FieldTerm) (hrow : ch ∉ f.m_RowTerm) :
    scan f .start rest = scan f (.opened 0) rest := by
  have hstep : scanStep f .start ch = scanStep f (.opened 0) ch := by
    rw [scanStep_mark hf (List.length_pos_of_ne_nil hf.field_ne)
      (List.length_pos_of_ne_nil hf.row_ne) hfield hrow (by decide),
      scanStep_mark hf (List.length_pos_of_ne_nil hf.field_ne)
      (List.length_pos_of_ne_nil hf.row_ne) hfield hrow (by decide)]
    rfl
  cases rest with
  | nil => cases hwhole
  | cons e rest =>
    by_cases he : e = carriageReturn
    · subst he
      cases rest with
      | nil => cases hwhole
      | cons d rest =>
        rw [delivered_return, List.cons.injEq] at hwhole
        rw [scan.eq_def, scan.eq_def f (.opened 0)]
        simp only [if_true, hwhole.1, hstep]
    · rw [delivered_cons he, List.cons.injEq] at hwhole
      have hch : ch ≠ carriageReturn := hwhole.1 ▸ he
      rw [scan.eq_def, scan.eq_def f (.opened 0), hwhole.1]
      simp only [if_neg hch, hstep]

/-- Then the token is shut, unless a mark opens. -/
theorem getToken_shut (hf : f.Enclosed) {rest whole : Bytes} (hwhole : delivered rest = ch :: whole)
    (hfield : ch ∉ f.m_FieldTerm) (hrow : ch ∉ f.m_RowTerm)
    (hopen : ¬((∀ c ∈ f.mark, c < 128) ∧ f.mark <+: ch :: whole)) :
    Shut f (ch :: whole) (getToken f ⟨rest, none⟩) := by
  have hne : rest ≠ [] := by
    intro heq
    rw [heq] at hwhole
    cases hwhole
  have hcr : rest ≠ [carriageReturn] := by
    intro heq
    rw [heq] at hwhole
    cases hwhole
  rw [getToken_scan hne hcr, scan_start hf hwhole hfield hrow, ← hwhole]
  rw [← hwhole] at hopen
  exact scan_shut hf rest ⟨rfl, rfl, rfl⟩ (.zero _ _) (List.length_pos_of_ne_nil hf.mark_ne) hopen

theorem advanceEnclosing_outside {mark : Bytes} (hne : mark ≠ []) (h : ch ∉ mark) :
    advanceEnclosing mark ch 0 = 0 := by
  have hpos := List.length_pos_of_ne_nil hne
  have hsame : sameChar ch (mark.getD 0 0) = false := by
    apply Bool.eq_false_of_not_eq_true
    intro heq
    apply h
    rw [(eq_of_sameChar heq).1]
    exact getD_mem hpos
  simp only [advanceEnclosing, hsame, Bool.false_eq_true, if_false, Nat.lt_irrefl]

/-- A character that is not of the mark. -/
theorem scanStep_unmarked (hf : f.Enclosed) (hs : s.Counting f) (hEn : s.ixEn = 0)
    (hch : ch ∉ f.mark) (hroom : s.text.length + 1 < maxTokenValueLen) :
    (∃ t text next, scanStep f s ch = .token t text next ∧ t ≠ .eof) ∨
      ∃ t, scanStep f s ch = .more t ∧ t.Counting f ∧ t.ixEn = 0 ∧ t.text = s.text ++ [ch] := by
  have hfield := hs.field.advance hs.field_lt s.enFlag ch
  have hrow := hs.row.advance hs.row_lt s.enFlag ch
  have hroom' : ¬maxTokenValueLen ≤ (s.text ++ [ch]).length := by
    rw [List.length_append, List.length_singleton]
    exact hroom.not_ge
  have hpos := List.length_pos_of_ne_nil hf.mark_ne
  have hen := hf.enclosing
  simp only [scanStep, if_neg hroom']
  split
  · split
    · exact Or.inl ⟨_, _, _, rfl, by simp⟩
    · exact Or.inl ⟨_, _, _, rfl, by simp⟩
  · next hFT =>
    split
    · split
      · exact Or.inl ⟨_, _, _, rfl, by simp⟩
      · exact Or.inl ⟨_, _, _, rfl, by simp⟩
    · next hRT =>
      rw [hen]
      simp only [scanEnclosing, hEn, advanceEnclosing_outside hf.mark_ne hch, if_neg hpos.ne]
      split
      · exact Or.inr ⟨_, rfl, ⟨hfield, lt_of_le_of_ne hfield.le hFT, hrow,
          lt_of_le_of_ne hrow.le hRT⟩, rfl, rfl⟩
      · exact Or.inr ⟨_, rfl, ⟨hfield, lt_of_le_of_ne hfield.le hFT, hrow,
          lt_of_le_of_ne hrow.le hRT⟩, rfl, rfl⟩

/-- A text before a mark is a token. -/
theorem scan_beforeMark (hf : f.Enclosed) (hascii : ∀ c ∈ f.mark, c < 128)
    (hchar : carriageReturn ∉ f.mark) (rest : Bytes) {a : Bytes} (ha : ∀ c ∈ a, c ∉ f.mark)
    (hs : s.Counting f) (hEn : s.ixEn = 0) (hlength : s.text.length + a.length < 65526)
    (hne : s.text ++ delivered a ≠ []) : (scan f s (a ++ (f.mark ++ rest))).1 ≠ .eof := by
  have hmark : ∀ {s : Scan}, s.Counting f → s.ixEn = 0 → s.text.length < 65526 → s.text ≠ [] →
      (scan f s (f.mark ++ rest)).1 ≠ .eof := by
    intro s hs hEn hlength hne
    have hread := @scan_mark f s s.text rest hf hascii hchar hlength
      ⟨(List.append_nil _).symm, hEn, hs.field_lt, hs.row_lt⟩
    rw [readMark, if_neg hne] at hread
    rw [hread]
    simp
  fun_induction delivered a generalizing s with
  | case1 =>
    rw [List.append_nil] at hne
    exact hmark hs hEn (by simpa using hlength) hne
  | case2 =>
    rw [List.append_nil] at hne
    obtain ⟨e, m, hm⟩ := List.exists_cons_of_ne_nil hf.mark_ne
    have he : e ≠ carriageReturn := fun heq => hchar (by rw [hm, heq]; exact List.mem_cons_self)
    have hnext := hmark hs hEn (by simp only [List.length_singleton] at hlength; omega) hne
    rw [hm] at hnext ⊢
    rw [List.cons_append, List.cons_append, List.nil_append, scan_return he]
    exact hnext
  | case3 ch a ih =>
    simp only [List.length_cons] at hlength
    have hch := ha ch (by simp)
    rw [List.cons_append, List.cons_append, scan.eq_def]
    simp only [if_true]
    rcases scanStep_unmarked hf hs hEn hch (by rw [maxTokenValueLen]; omega) with
      ⟨t, text, next, heq, ht⟩ | ⟨t, heq, ht, htEn, htext⟩
    · rw [heq]
      exact ht
    · rw [heq]
      apply ih
      · exact fun c hc => ha c (List.mem_cons_of_mem _ (List.mem_cons_of_mem _ hc))
      · exact ht
      · exact htEn
      · rw [htext, List.length_append, List.length_singleton]
        omega
      · rw [htext]
        simp
  | case4 ch a hcr ih =>
    simp only [List.length_cons] at hlength
    have hch := ha ch List.mem_cons_self
    rw [List.cons_append, scan.eq_def]
    simp only [if_neg hcr]
    rcases scanStep_unmarked hf hs hEn hch (by rw [maxTokenValueLen]; omega) with
      ⟨t, text, next, heq, ht⟩ | ⟨t, heq, ht, htEn, htext⟩
    · rw [heq]
      exact ht
    · rw [heq]
      apply ih
      · exact fun c hc => ha c (List.mem_cons_of_mem _ hc)
      · exact ht
      · exact htEn
      · rw [htext, List.length_append, List.length_singleton]
        omega
      · rw [htext]
        simp

/-- The token behind a record is not the end of the file, if another record follows. -/
theorem getToken_beforeMark (hf : f.Enclosed) (hascii : ∀ c ∈ f.mark, c < 128)
    (hchar : carriageReturn ∉ f.mark) {v : Bytes} (hv : f.Encloses v) (hne : v ≠ [])
    (rest : Bytes) : (getToken f ⟨f.m_RowTerm ++ (f.enclose v ++ rest), none⟩).1 ≠ .eof := by
  have henclosed := @getToken_enclosed f v rest hf hascii hchar hv (fun heq => absurd heq hne)
  have htext : f.enclose v ++ rest = f.mark ++ (v ++ f.mark ++ rest) := by
    simp only [Format.enclose, Format.mark, List.append_assoc]
  obtain ⟨e, m, hm⟩ := List.exists_cons_of_ne_nil hf.mark_ne
  have he : e ≠ carriageReturn := fun heq => hchar (by rw [hm, heq]; exact List.mem_cons_self)
  by_cases hlone : f.m_RowTerm = [carriageReturn]
  · rw [hlone]
    rw [htext, hm] at henclosed ⊢
    rw [List.cons_append, List.cons_append, List.nil_append, getToken_return he]
    rw [List.cons_append] at henclosed
    rw [henclosed]
    simp
  · have hdelivered : delivered f.m_RowTerm ≠ [] := by
      obtain ⟨c, r, hrow⟩ := List.exists_cons_of_ne_nil hf.row_ne
      rw [hrow] at hlone ⊢
      by_cases hc : c = carriageReturn
      · subst hc
        cases r with
        | nil => exact absurd rfl hlone
        | cons d r =>
          rw [delivered_return]
          exact List.cons_ne_nil _ _
      · rw [delivered_cons hc]
        exact List.cons_ne_nil _ _
    have hmax := hf.row_length
    rw [htext, getToken_scan]
    · apply scan_beforeMark hf hascii hchar
      · exact fun c hc hmark => hf.mark_row c hmark hc
      · exact ⟨.zero _ _, List.length_pos_of_ne_nil hf.field_ne, .zero _ _,
          List.length_pos_of_ne_nil hf.row_ne⟩
      · rfl
      · change 0 + f.m_RowTerm.length < 65526
        omega
      · exact List.append_ne_nil_of_right_ne_nil _ hdelivered
    · exact List.append_ne_nil_of_left_ne_nil hf.row_ne _
    · intro heq
      have hlength := congrArg List.length heq
      have hpos := List.length_pos_of_ne_nil hf.row_ne
      have hpos' := List.length_pos_of_ne_nil hf.mark_ne
      simp only [List.length_append, List.length_singleton] at hlength
      omega

end shut

namespace Transfer

variable {x : Transfer}

/-- Some character is in no terminator and not in the mark. -/
theorem exists_encloses {f : Format} (hf : f.Enclosed) :
    ∃ c : UInt8, f.Encloses [c] ∧ c ∉ f.m_FieldTerm ∧ c ∉ f.m_RowTerm := by
  by_contra hnone
  have hsubset : ((List.range 33).map UInt8.ofNat) ⊆
      f.m_FieldTerm ++ f.m_RowTerm ++ f.mark ++ [carriageReturn, 0] := by
    intro c _
    by_contra hc
    simp only [List.mem_append, List.mem_cons, List.not_mem_nil, or_false, not_or] at hc
    obtain ⟨⟨⟨hfield, hrow⟩, hmark⟩, hreturn, hnul⟩ := hc
    apply hnone
    refine ⟨c, ⟨?_, ?_, ?_, by simp⟩, hfield, hrow⟩
    · simpa using hmark
    · simpa using Ne.symm hreturn
    · simpa using Ne.symm hnul
  have hnodup : ((List.range 33).map UInt8.ofNat).Nodup := by decide
  have hlength := (List.subperm_of_subset hnodup hsubset).length_le
  have hfield := hf.field_length
  have hrow := hf.row_length
  have hmark := hf.mark_length
  simp only [List.length_append, List.length_map, List.length_range, List.length_cons,
    List.length_nil] at hlength
  omega

theorem joined_cons (f : Format) (mInformix : Bool) (v : Bytes) (vs : List Bytes) :
    ∃ rest, joined f mInformix (v :: vs) = f.enclose v ++ rest := by
  cases vs with
  | nil => exact ⟨_, rfl⟩
  | cons u vs => exact ⟨_, rfl⟩

/-- A record begins with its first value and a terminator. -/
theorem joined_begins (x : Transfer) (v : Bytes) : ∃ term rest,
    joined x.format x.table.mInformix (List.replicate x.table.attrTypes.length v) =
      x.format.enclose v ++ (term ++ rest) ∧
    (term = x.format.m_FieldTerm ∧
        (1 < x.table.attrTypes.length ∧ (∃ r, rest = x.format.enclose v ++ r) ∨
          x.table.attrTypes.length = 1 ∧ rest = x.format.m_RowTerm ∧ x.table.mInformix = true) ∨
      term = x.format.m_RowTerm ∧ x.table.attrTypes.length = 1 ∧ x.table.mInformix = false) := by
  have hpos := x.attrTypes_pos
  cases hn : x.table.attrTypes.length with
  | zero => omega
  | succ n =>
    cases n with
    | zero =>
      cases hinformix : x.table.mInformix with
      | false => exact ⟨_, [], by simp [joined], Or.inr ⟨rfl, rfl, rfl⟩⟩
      | true => exact ⟨_, _, rfl, Or.inl ⟨rfl, Or.inr ⟨rfl, rfl, rfl⟩⟩⟩
    | succ n =>
      obtain ⟨rest, hrest⟩ := joined_cons x.format x.table.mInformix v (List.replicate n v)
      exact ⟨_, _, rfl, Or.inl ⟨rfl, Or.inl ⟨by omega, rest, hrest⟩⟩⟩

theorem fits_replicate_enclosed {v : Bytes} (hv : x.format.Encloses v) :
    x.FitsEnclosed (List.replicate x.table.attrTypes.length v) :=
  ⟨List.length_replicate, fun _ hu => (List.eq_of_mem_replicate hu) ▸ hv⟩

theorem encloses_nil (f : Format) : f.Encloses [] :=
  ⟨by simp, by simp, by simp, by simp⟩

theorem LawfulEnclosed.printed (hf : x.format.Enclosed) (h : x.LawfulEnclosed) : x.Printed := by
  obtain ⟨c, hc, -⟩ := exists_encloses hf
  have hfits := fits_replicate_enclosed (x := x) (encloses_nil x.format)
  apply Returns.printed (List.cons_ne_nil c []) h hfits
  intro j
  refine ⟨by rw [List.length_set, hfits.length], fun v hv => ?_⟩
  rcases List.mem_or_eq_of_mem_set hv with hv | rfl
  · exact hfits.encloses v hv
  · exact hc

/-- A record whose first token is shut has the value of that token. -/
theorem value_of_shut {v rest whole : Bytes} (hread : (readOneRecord x.format x.table
      ⟨rest, none⟩ blank).nRet = .record ∧
      x.Same (List.replicate x.table.attrTypes.length v)
        (readOneRecord x.format x.table ⟨rest, none⟩ blank).row)
    (hshut : Shut x.format whole (getToken x.format ⟨rest, none⟩)) :
    ∃ text, cString text = v ∧ (text ++ x.format.mark <+: whole ∨ text = whole) := by
  have hpos := x.attrTypes_pos
  have hstart : (if 1 < x.table.attrTypes.length ∧ x.table.added 0 = true then 1 else 0) <
      x.table.attrTypes.length := by
    split
    · next hadd => exact hadd.1
    · exact hpos
  rw [readOneRecord_eq, readFrom] at hread
  rcases hshut with heof | ⟨hvalue, htext⟩
  · rw [heof, readLoop.eq_def] at hread
    simp only [if_neg hstart.not_ge] at hread
    cases hread.1
  · have hcell := hread.2 _ hstart
    rw [hvalue, (readLoop_value _ hstart).1, List.getD_eq_getElem _ _ (by simpa using hstart),
      List.getElem_replicate] at hcell
    exact ⟨_, hcell, htext⟩

theorem cons_of_cString {text : Bytes} {c : UInt8} (h : cString text = [c]) :
    ∃ u, text = c :: u ∧ (u = [] ∨ u.head? = some 0) := by
  cases text with
  | nil => cases h
  | cons d u =>
    rw [cString, List.takeWhile_cons] at h
    split at h
    · rw [List.cons.injEq] at h
      refine ⟨u, by rw [h.1], ?_⟩
      cases u with
      | nil => exact Or.inl rfl
      | cons e u =>
        rw [List.takeWhile_cons] at h
        split at h
        · cases h.2
        · next he => exact Or.inr (by simpa using he)
    · cases h

theorem head_of_terms (hf : x.format.Enclosed) {term : Bytes}
    (hterm : term = x.format.m_FieldTerm ∨ term = x.format.m_RowTerm) : ∃ t u, term = t :: u ∧
      (∀ c ∈ term, c ∉ x.format.mark) ∧ 0 ∉ term := by
  rcases hterm with rfl | rfl
  · obtain ⟨t, u, htu⟩ := List.exists_cons_of_ne_nil hf.field_ne
    exact ⟨t, u, htu, fun c hc hmark => hf.mark_field c hmark hc, hf.field_noNul⟩
  · obtain ⟨t, u, htu⟩ := List.exists_cons_of_ne_nil hf.row_ne
    exact ⟨t, u, htu, fun c hc hmark => hf.mark_row c hmark hc, hf.row_noNul⟩

/-- The first character that is read of a string with another character behind it. -/
theorem delivered_begins {term : Bytes} (hne : term ≠ []) (c : UInt8) (rest : Bytes) :
    (∃ d w, delivered (term ++ c :: rest) = d :: w ∧ d ∈ term) ∨
      term = [carriageReturn] ∧ delivered (term ++ c :: rest) = c :: delivered rest := by
  obtain ⟨e, m, hterm⟩ := List.exists_cons_of_ne_nil hne
  rw [hterm, List.cons_append]
  by_cases he : e = carriageReturn
  · subst he
    cases m with
    | nil => exact Or.inr ⟨rfl, delivered_return c rest⟩
    | cons d m => exact Or.inl ⟨d, _, delivered_return d _, by simp⟩
  · exact Or.inl ⟨e, _, delivered_cons he _, List.mem_cons_self⟩

/-- The mark has to be readable. -/
theorem LawfulEnclosed.mark (hf : x.format.Enclosed) (h : x.LawfulEnclosed) :
    (∀ c ∈ x.format.mark, c < 128) ∧ carriageReturn ∉ x.format.mark := by
  by_contra hbad
  obtain ⟨c, hc, hcField, hcRow⟩ := exists_encloses hf
  have hcMark := hc.noMark c List.mem_cons_self
  have hread := h.first (h.printed hf) [] (by simpa using fits_replicate_enclosed hc)
    List.length_replicate blank rfl
  obtain ⟨term, rest, htext, hterm⟩ := x.joined_begins [c]
  obtain ⟨t, u, hu, htMark, htNul⟩ := head_of_terms hf
    (hterm.imp (fun h => h.1) (fun h => h.1))
  have hwhole : joined x.format x.table.mInformix (List.replicate x.table.attrTypes.length [c]) ++
      x.file [] = x.format.mark ++ c :: (x.format.mark ++ (term ++ rest)) := by
    have hfile : x.file [] = [] := rfl
    rw [htext, hfile]
    simp only [Format.enclose, Format.mark, List.append_assoc, List.append_nil, List.cons_append,
      List.nil_append]
  rw [hwhole] at hread
  have hreturn : c ≠ carriageReturn := by
    intro heq
    apply hc.noReturn
    rw [heq]
    exact List.mem_cons_self
  have hopen : ¬((∀ c ∈ x.format.mark, c < 128) ∧
      x.format.mark <+: delivered (x.format.mark ++ c :: (x.format.mark ++ (term ++ rest)))) := by
    intro hboth
    apply hbad
    refine ⟨hboth.1, fun hmem => ?_⟩
    exact not_prefix_delivered hmem (by simpa using hreturn) hboth.2
  rcases delivered_begins hf.mark_ne c (x.format.mark ++ (term ++ rest)) with
    ⟨d, w, hd, hmem⟩ | ⟨hlone, hd⟩
  · -- the value begins with a character of the mark
    rw [hd] at hopen
    have hshut := getToken_shut hf hd (hf.mark_field d hmem) (hf.mark_row d hmem) hopen
    obtain ⟨text, hvalue, hprefix⟩ := value_of_shut hread hshut
    obtain ⟨v, rfl, -⟩ := cons_of_cString hvalue
    have hhead : c = d := by
      rcases hprefix with hprefix | hprefix
      · exact (List.cons_prefix_cons.mp hprefix).1
      · exact (List.cons.inj hprefix).1
    exact hcMark (hhead ▸ hmem)
  · -- the closing mark is lost before the terminator
    have htReturn : t ≠ carriageReturn := by
      intro heq
      apply htMark t (by rw [hu]; exact List.mem_cons_self)
      rw [hlone, heq]
      exact List.mem_cons_self
    have hbehind : delivered (x.format.mark ++ (term ++ rest)) = t :: delivered (u ++ rest) := by
      rw [hlone, hu]
      exact delivered_return t _
    rw [hbehind] at hd
    rw [hd] at hopen
    have hshut := getToken_shut hf hd hcField hcRow hopen
    obtain ⟨text, hvalue, hprefix⟩ := value_of_shut hread hshut
    obtain ⟨v, rfl, hv⟩ := cons_of_cString hvalue
    have hnul : t ≠ 0 := by
      intro heq
      apply htNul
      rw [hu, heq]
      exact List.mem_cons_self
    rw [hlone] at hprefix
    rcases hv with rfl | hv
    · rcases hprefix with hprefix | hprefix
      · exact htReturn (List.cons_prefix_cons.mp (List.cons_prefix_cons.mp hprefix).2).1.symm
      · cases (List.cons.inj hprefix).2
    · cases v with
      | nil => cases hv
      | cons z v =>
        have hz : z = t := by
          rcases hprefix with hprefix | hprefix
          · exact (List.cons_prefix_cons.mp (List.cons_prefix_cons.mp hprefix).2).1
          · exact (List.cons.inj (List.cons.inj hprefix).2).1
        exact hnul (hz ▸ Option.some.inj hv)

/-- A token that is a terminator stands at the start of what is read. -/
theorem getToken_term {f : Format} (hf : f.Apart) (b : Bytes) :
    ((getToken f ⟨b, none⟩).1 = .fieldTerm →
        ascii f.m_FieldTerm ∧ f.m_FieldTerm <+: delivered b) ∧
      ((getToken f ⟨b, none⟩).1 = .rowTerm → ascii f.m_RowTerm ∧ f.m_RowTerm <+: delivered b) ∧
      (delivered b ≠ [] → (getToken f ⟨b, none⟩).1 = .eof →
        maxTokenValueLen ≤ (delivered b).length) := by
  by_cases hnil : b = [] ∨ b = [carriageReturn]
  · have heof : (getToken f ⟨b, none⟩).1 = .eof := by
      rw [getToken]
      simp only [hnil, if_true]
    have hdelivered : delivered b = [] := by
      rcases hnil with rfl | rfl <;> rfl
    rw [heof]
    exact ⟨by simp, by simp, fun h => absurd hdelivered h⟩
  · have hne : delivered b ≠ [] := by
      rw [not_or] at hnil
      obtain ⟨c, b, rfl⟩ := List.exists_cons_of_ne_nil hnil.1
      by_cases hc : c = carriageReturn
      · subst hc
        cases b with
        | nil => exact absurd rfl hnil.2
        | cons d b =>
          rw [delivered_return]
          exact List.cons_ne_nil _ _
      · rw [delivered_cons hc]
        exact List.cons_ne_nil _ _
    have htaken := getToken_taken hf hne
    generalize getToken f ⟨b, none⟩ = token at htaken
    generalize delivered b = whole at htaken hne
    cases htaken with
    | overflow _ _ hover => exact ⟨by simp, by simp, fun _ _ => hover⟩
    | field rest hascii hwhole =>
      exact ⟨fun _ => ⟨hascii, _, hwhole.symm⟩, by simp, by simp⟩
    | row rest hascii hwhole =>
      exact ⟨by simp, fun _ => ⟨hascii, _, hwhole.symm⟩, by simp⟩
    | valueField => simp
    | valueRow => simp
    | valueEnd => simp
    | enclosed => simp

theorem readBehind_noField {f : Format} {t : Table} {i : Nat} {eToken : DataToken} {d : DataFile}
    {row : Row} (hi : i + 1 < t.attrTypes.length) (h : eToken ≠ .fieldTerm) :
    readBehind f t i eToken d row = .done ⟨.error, i, d, row⟩ := by
  simp only [readBehind, hi.ne, false_and, and_false, if_false, not_false_eq_true, ne_eq, h,
    true_and, if_true]

theorem readBehind_value {f : Format} {t : Table} {i : Nat} {d : DataFile} {row : Row}
    (hi : i + 1 = t.attrTypes.length) :
    readBehind f t i .value d row = .done ⟨.error, i, d, row⟩ := by
  simp only [readBehind, hi, reduceCtorEq, and_false, if_false, ne_eq, not_false_eq_true,
    true_and, if_true]

/-- An enclosed value begins with the mark. -/
theorem head_enclose_ne {f : Format} (hmark : f.mark ≠ []) (hchar : carriageReturn ∉ f.mark)
    (v rest : Bytes) : (f.enclose v ++ rest).head? ≠ some carriageReturn := by
  obtain ⟨e, m, heq⟩ := List.exists_cons_of_ne_nil hmark
  have htext : f.enclose v ++ rest = f.mark ++ (v ++ f.mark ++ rest) := by
    simp only [Format.enclose, Format.mark, List.append_assoc]
  rw [htext, heq]
  intro hhead
  apply hchar
  rw [heq, ← Option.some.inj hhead]
  exact List.mem_cons_self

/-- The row terminator begins with no character of the field terminator. -/
theorem head_row_ne {f : Format} (hf : f.Apart) {c : UInt8} (hc : c ∈ f.m_FieldTerm) :
    f.m_RowTerm.head? ≠ some c := by
  obtain ⟨e, m, hrow⟩ := List.exists_cons_of_ne_nil hf.row_ne
  rw [hrow]
  intro hhead
  apply hf.disjoint c hc
  rw [hrow, ← Option.some.inj hhead]
  exact List.mem_cons_self

/-- The field terminator has to be found, where the file holds one. -/
theorem LawfulEnclosed.field (hf : x.format.Enclosed) (h : x.LawfulEnclosed) :
    found x.format.m_FieldTerm ∨ x.table.attrTypes.length = 1 ∧
      (x.table.mInformix = false ∨ x.format.m_FieldTerm = [carriageReturn]) := by
  by_contra hnot
  rw [not_or] at hnot
  obtain ⟨hblind, hwritten⟩ := hnot
  obtain ⟨c, hc, hcField, hcRow⟩ := exists_encloses hf
  obtain ⟨hascii, hchar⟩ := h.mark hf
  have hpos := x.attrTypes_pos
  obtain ⟨term, rest, htext, hterm⟩ := x.joined_begins [c]
  have hcell : ∀ j, j < x.table.attrTypes.length →
      x.table.value blank j ≠ (List.replicate x.table.attrTypes.length [c]).getD j [] := by
    intro j hj heq
    rw [value_blank, List.getD_eq_getElem _ _ (by simpa using hj), List.getElem_replicate] at heq
    cases heq
  have hread := h.first (h.printed hf) [] (by simpa using fits_replicate_enclosed hc)
    List.length_replicate blank rfl
  have hfile : x.file [] = [] := rfl
  rw [htext, hfile, List.append_nil, readOneRecord_eq] at hread
  split at hread
  · next hfirst =>
    -- the first cell is left out
    apply hcell 0 hpos
    rw [← hread.2 0 hpos]
    exact (readLoop_before _ Nat.zero_lt_one).1.symm
  rw [readFrom, getToken_enclosed hf hascii hchar hc (fun heq => by cases heq)] at hread
  by_cases hsecond : 1 < x.table.attrTypes.length ∧ x.table.added 1 = true
  · -- so is the second one
    apply hcell 1 hsecond.1
    rw [← hread.2 1 hsecond.1]
    exact (readLoop_skip _ hsecond.1 hsecond.2).symm
  rw [readLoop_store hpos fun hmany => Bool.eq_false_of_not_eq_true fun hadd =>
    hsecond ⟨hmany, hadd⟩] at hread
  have hfield : term = x.format.m_FieldTerm := by
    rcases hterm with ⟨hterm, -⟩ | ⟨-, hone, hinformix⟩
    · exact hterm
    · exact absurd ⟨hone, Or.inl hinformix⟩ hwritten
  have hrest : carriageReturn ∈ x.format.m_FieldTerm → rest.head? ≠ some carriageReturn := by
    intro hmem
    rcases hterm with ⟨-, ⟨-, r, rfl⟩ | ⟨-, rfl, -⟩⟩ | ⟨-, hone, hinformix⟩
    · exact head_enclose_ne hf.mark_ne hchar [c] r
    · exact head_row_ne hf.toApart hmem
    · exact absurd ⟨hone, Or.inl hinformix⟩ hwritten
  have htoken := getToken_term hf.toApart (x.format.m_FieldTerm ++ rest)
  have hnoField : (getToken x.format ⟨x.format.m_FieldTerm ++ rest, none⟩).1 ≠ .fieldTerm := by
    intro heq
    apply hblind
    refine ⟨(htoken.1 heq).1, fun hmem => ?_⟩
    exact not_prefix_delivered hmem (hrest hmem) (htoken.1 heq).2
  rw [hfield] at hread
  by_cases hmany : 1 < x.table.attrTypes.length
  · rw [readBehind_noField hmany hnoField] at hread
    cases hread.1
  · have hone : 0 + 1 = x.table.attrTypes.length := by omega
    have hlast : rest = x.format.m_RowTerm ∧ x.table.mInformix = true := by
      rcases hterm with ⟨-, ⟨hlt, -⟩ | ⟨-, hlast⟩⟩ | ⟨-, -, hinformix⟩
      · exact absurd hlt hmany
      · exact hlast
      · exact absurd ⟨hone.symm, Or.inl hinformix⟩ hwritten
    obtain ⟨rfl, hinformix⟩ := hlast
    obtain ⟨r, row, hrow⟩ := List.exists_cons_of_ne_nil hf.row_ne
    have hbegins := delivered_begins hf.field_ne r row
    rw [← hrow] at hbegins
    obtain ⟨d, w, hd, hmem⟩ := hbegins.resolve_right fun hlone =>
      hwritten ⟨hone.symm, Or.inr hlone.1⟩
    cases htok : (getToken x.format ⟨x.format.m_FieldTerm ++ x.format.m_RowTerm, none⟩).1 with
    | fieldTerm => exact hnoField htok
    | value =>
      rw [htok, readBehind_value hone] at hread
      cases hread.1
    | rowTerm =>
      have hprefix := (htoken.2.1 htok).2
      rw [hd, hrow, List.cons_prefix_cons] at hprefix
      apply head_row_ne hf.toApart hmem
      rw [hrow, hprefix.1, List.head?_cons]
    | eof =>
      have hlong := htoken.2.2 (by rw [hd]; exact List.cons_ne_nil _ _) htok
      have hshort := length_delivered (x.format.m_FieldTerm ++ x.format.m_RowTerm)
      have hfieldMax := hf.field_length
      have hrowMax := hf.row_length
      rw [List.length_append] at hshort
      rw [maxTokenValueLen] at hlong
      omega

theorem LawfulEnclosed.unadded (hf : x.format.Enclosed) (h : x.LawfulEnclosed) : x.Unadded := by
  obtain ⟨c, hc, -⟩ := exists_encloses hf
  obtain ⟨hascii, hchar⟩ := h.mark hf
  have hfield : 1 < x.table.attrTypes.length → found x.format.m_FieldTerm :=
    fun hmany => (h.field hf).resolve_right fun hone => by omega
  apply @Returns.unadded x x.FitsEnclosed (fun _ => .nts) [c] (List.cons_ne_nil c []) h
    (h.printed hf) (fits_replicate_enclosed hc)
  · intro hmany
    exact readsField_enclosed hf hascii hchar hc (fun heq => by cases heq) (hfield hmany)
  · intro hmany rest
    rw [getToken_enclosed hf hascii hchar hc (fun heq => by cases heq)]

theorem readBehind_notRow {f : Format} {t : Table} {i : Nat} {eToken : DataToken} {d : DataFile}
    {row : Row} (hi : i + 1 = t.attrTypes.length) (hinformix : t.mInformix = false)
    (heof : eToken ≠ .eof) (hrow : eToken ≠ .rowTerm) :
    readBehind f t i eToken d row = .done ⟨.error, i, d, row⟩ := by
  simp only [readBehind, hi, hinformix, heof, hrow, Bool.false_eq_true, and_false, false_and,
    if_false, ne_eq, not_false_eq_true, true_and, if_true]

/-- With `-informix`, behind the last field terminator. -/
theorem readBehind_stop {f : Format} {t : Table} {i : Nat} {d : DataFile} {row : Row}
    (hi : i + 1 = t.attrTypes.length) (hinformix : t.mInformix = true)
    (heof : (getToken f d).1 ≠ .eof) (hrow : (getToken f d).1 ≠ .rowTerm) :
    readBehind f t i .fieldTerm d row = .done ⟨.error, i, (getToken f d).2.2, row⟩ := by
  simp only [readBehind, hi, hinformix, heof, hrow, reduceCtorEq, and_false, if_false, ne_eq,
    not_false_eq_true, true_and, if_true]

/-- The row terminator has to be found. -/
theorem LawfulEnclosed.row (hf : x.format.Enclosed) (h : x.LawfulEnclosed) :
    found x.format.m_RowTerm := by
  by_contra hblind
  obtain ⟨c, hc, hcField, hcRow⟩ := exists_encloses hf
  obtain ⟨hascii, hchar⟩ := h.mark hf
  have hpos := x.attrTypes_pos
  have hfield := h.field hf
  have hadd := h.unadded hf
  obtain ⟨n, hn⟩ : ∃ n, x.table.attrTypes.length = n + 1 :=
    ⟨x.table.attrTypes.length - 1, by omega⟩
  have hnil : ([c] : Bytes) = [] → x.format.mark.length = 1 := fun heq => by cases heq
  have hprinted := h.printed hf
  have hfits := fits_replicate_enclosed hc
  have hread := h.first (r := List.replicate x.table.attrTypes.length [c]) hprinted
    [List.replicate x.table.attrTypes.length [c]] (by simpa using hfits) List.length_replicate
    blank rfl
  have hreads : ∀ v ∈ List.replicate n [c], ReadsField x.format x.table (fun _ => .nts) v := by
    intro v hv
    have hmany := List.length_pos_of_mem hv
    rw [List.length_replicate] at hmany
    rw [List.eq_of_mem_replicate hv]
    exact readsField_enclosed hf hascii hchar hc hnil (hfield.resolve_right fun hone => by omega)
  have hrecord : List.replicate x.table.attrTypes.length [c] = List.replicate n [c] ++ [[c]] := by
    rw [hn, List.replicate_add]
    rfl
  -- the file of the second record begins with a mark
  obtain ⟨rest, hrest⟩ : ∃ rest, x.file [List.replicate x.table.attrTypes.length [c]] =
      x.format.enclose [c] ++ rest := by
    obtain ⟨rest, hrest⟩ := joined_cons x.format x.table.mInformix [c] (List.replicate n [c])
    refine ⟨rest, ?_⟩
    rw [file_cons hprinted List.length_replicate, hn, List.replicate_succ, hrest]
    exact List.append_nil _
  have hhead := head_enclose_ne hf.mark_ne hchar [c] rest
  have htoken := getToken_term hf.toApart (x.format.m_RowTerm ++ (x.format.enclose [c] ++ rest))
  have hrow : (getToken x.format
      ⟨x.format.m_RowTerm ++ (x.format.enclose [c] ++ rest), none⟩).1 ≠ .rowTerm := by
    intro heq
    apply hblind
    refine ⟨(htoken.2.1 heq).1, fun hmem => ?_⟩
    exact not_prefix_delivered hmem hhead (htoken.2.1 heq).2
  have heof := getToken_beforeMark hf hascii hchar hc (List.cons_ne_nil c []) rest
  rw [hrest, hrecord, read_init hadd (by rw [List.length_replicate]; omega) hreads,
    List.length_replicate] at hread
  have hskip : n + 1 < x.table.attrTypes.length → x.table.added (n + 1) = false :=
    fun hlt => by omega
  cases hinformix : x.table.mInformix with
  | false =>
    have htext : joined x.format x.table.mInformix [[c]] ++ (x.format.enclose [c] ++ rest) =
        x.format.enclose [c] ++ (x.format.m_RowTerm ++ (x.format.enclose [c] ++ rest)) := by
      simp [joined, hinformix]
    rw [htext, readFrom, getToken_enclosed hf hascii hchar hc hnil,
      readLoop_store (by omega) hskip, readBehind_notRow hn.symm hinformix heof hrow] at hread
    cases hread.1
  | true =>
    have htext : joined x.format x.table.mInformix [[c]] ++ (x.format.enclose [c] ++ rest) =
        x.format.enclose [c] ++ (x.format.m_FieldTerm ++ (x.format.m_RowTerm ++
          (x.format.enclose [c] ++ rest))) := by
      simp [joined, hinformix]
    rw [htext, readFrom, getToken_enclosed hf hascii hchar hc hnil,
      readLoop_store (by omega) hskip] at hread
    rcases hfield with hfound | ⟨hone, hno | hlone⟩
    · rw [getToken_fieldTerm hf hfound, readBehind_stop hn.symm hinformix heof hrow] at hread
      cases hread.1
    · rw [hinformix] at hno
      cases hno
    · rw [getToken_loneReturn hf hlone] at hread
      have hnoField : (getToken x.format
          ⟨x.format.m_RowTerm ++ (x.format.enclose [c] ++ rest), none⟩).1 ≠ .fieldTerm := by
        intro heq
        have hprefix := (htoken.1 heq).2
        have hmem : carriageReturn ∈ x.format.m_FieldTerm := by
          rw [hlone]
          exact List.mem_cons_self
        obtain ⟨e, m, hrowTerm⟩ := List.exists_cons_of_ne_nil hf.row_ne
        have he : e ≠ carriageReturn := by
          intro heq
          apply head_row_ne hf.toApart hmem
          rw [hrowTerm, heq, List.head?_cons]
        rw [hlone, hrowTerm, List.cons_append, delivered_cons he, List.cons_prefix_cons] at hprefix
        exact he hprefix.1.symm
      cases htok : (getToken x.format
          ⟨x.format.m_RowTerm ++ (x.format.enclose [c] ++ rest), none⟩).1 with
      | eof => exact heof htok
      | rowTerm => exact hrow htok
      | fieldTerm => exact hnoField htok
      | value =>
        rw [htok, readBehind_value hn.symm] at hread
        cases hread.1

/-- An empty value needs a mark of one character. -/
theorem LawfulEnclosed.single (hf : x.format.Enclosed) (h : x.LawfulEnclosed) :
    x.format.mark.length = 1 := by
  by_contra hlong
  obtain ⟨hascii, hchar⟩ := h.mark hf
  have hpos := List.length_pos_of_ne_nil hf.mark_ne
  have hread := h.first (h.printed hf) [] (by simpa using fits_replicate_enclosed (encloses_nil _))
    List.length_replicate blank rfl
  obtain ⟨term, rest, htext, hterm⟩ := x.joined_begins []
  have hfile : x.file [] = [] := rfl
  have hwhole : joined x.format x.table.mInformix (List.replicate x.table.attrTypes.length []) ++
      x.file [] = x.format.mark ++ (x.format.mark ++ (term ++ rest)) := by
    rw [htext, hfile]
    simp only [Format.enclose, Format.mark, List.append_assoc, List.append_nil]
  rw [hwhole] at hread
  -- the first character behind the two marks
  obtain ⟨t, w, ht, htMark, htNul⟩ : ∃ t w, delivered (term ++ rest) = t :: w ∧
      t ∉ x.format.mark ∧ t ≠ 0 := by
    have hfound : ∀ {term : Bytes}, found term →
        (term = x.format.m_FieldTerm ∨ term = x.format.m_RowTerm) → ∀ rest, ∃ t w,
          delivered (term ++ rest) = t :: w ∧ t ∉ x.format.mark ∧ t ≠ 0 := by
      intro term hfound hterm rest
      obtain ⟨t, u, rfl, hmark, hnul⟩ := head_of_terms hf hterm
      have ht : t ≠ carriageReturn := fun heq => hfound.2 (heq ▸ List.mem_cons_self)
      exact ⟨t, _, delivered_cons ht _, hmark t List.mem_cons_self,
        fun heq => hnul (heq ▸ List.mem_cons_self)⟩
    rcases hterm with ⟨rfl, hrest⟩ | ⟨rfl, -⟩
    · rcases h.field hf with hfield | ⟨hone, hlone⟩
      · exact hfound hfield (Or.inl rfl) rest
      · obtain ⟨-, rfl, hinformix⟩ := hrest.resolve_left fun hmany => by omega
        have hlone := hlone.resolve_left (by rw [hinformix]; exact Bool.false_ne_true.symm)
        have hrow := h.row hf
        obtain ⟨r, u, hru, hmark, hnul⟩ := head_of_terms hf (Or.inr rfl)
        rw [hru] at hmark hnul
        refine ⟨r, delivered u, ?_, hmark r List.mem_cons_self,
          fun heq => hnul (heq ▸ List.mem_cons_self)⟩
        rw [hlone, hru]
        exact delivered_return r u
    · exact hfound (h.row hf) (Or.inr rfl) rest
  have hopen : ¬((∀ c ∈ x.format.mark, c < 128) ∧
      x.format.mark <+: (Scan.opened 2).text ++ delivered (term ++ rest)) := by
    rintro ⟨-, hprefix⟩
    obtain ⟨e, m, hmark⟩ := List.exists_cons_of_ne_nil hf.mark_ne
    have hnil : (Scan.opened 2).text ++ delivered (term ++ rest) = t :: w := ht
    rw [hnil, hmark, List.cons_prefix_cons] at hprefix
    apply htMark
    rw [hmark, hprefix.1]
    exact List.mem_cons_self
  have hshut := scan_shut hf (term ++ rest) (s := .opened 2) ⟨rfl, rfl, rfl⟩ (.zero _ _) hpos hopen
  have hfirst := @scan_mark x.format .start [] (x.format.mark ++ (term ++ rest)) hf hascii hchar
    (by simp) ⟨rfl, rfl, List.length_pos_of_ne_nil hf.field_ne, List.length_pos_of_ne_nil hf.row_ne⟩
  have hsecond := @scan_mark x.format (.opened 1) [] (term ++ rest) hf hascii hchar
    (by simp) ⟨rfl, rfl, List.length_pos_of_ne_nil hf.field_ne, List.length_pos_of_ne_nil hf.row_ne⟩
  have hne := append_ne (x.format.mark ++ (term ++ rest)) (v := []) (by simp) hf.mark_ne hchar
  rw [List.nil_append] at hne
  have hget : getToken x.format ⟨x.format.mark ++ (x.format.mark ++ (term ++ rest)), none⟩ =
      scan x.format (.opened 2) (term ++ rest) := by
    rw [getToken_scan hne.1 hne.2, hfirst, readMark, if_pos rfl,
      if_neg (show Scan.start.encloseLoopCnt ≠ x.format.mark.length from hpos.ne)]
    refine hsecond.trans ?_
    rw [readMark, if_pos rfl,
      if_neg (show (Scan.opened 1).encloseLoopCnt ≠ x.format.mark.length from Ne.symm hlong)]
    rfl
  rw [← hget] at hshut
  obtain ⟨text, hvalue, hprefix⟩ := value_of_shut hread hshut
  have hnil : (Scan.opened 2).text ++ delivered (term ++ rest) = t :: w := ht
  rw [hnil] at hprefix hopen
  cases text with
  | nil =>
    rcases hprefix with hprefix | hprefix
    · exact hopen ⟨hascii, hprefix⟩
    · cases hprefix
  | cons z text =>
    have hz : z = t := by
      rcases hprefix with hprefix | hprefix
      · exact (List.cons_prefix_cons.mp hprefix).1
      · exact (List.cons.inj hprefix).1
    subst hz
    rw [cString, List.takeWhile_cons, if_pos (decide_eq_true htNul)] at hvalue
    cases hvalue

/-- An integer and a string column, quoted. -/
def quotedTable : Transfer :=
  { plainTable with format := ⟨[44], [10], some [34]⟩ }

/-- A column of strings between marks of two characters. -/
def longMark : Transfer :=
  { highTerminator with format := ⟨[44], [10], some [60, 62]⟩ }

end Transfer

end Natc.Ploader
