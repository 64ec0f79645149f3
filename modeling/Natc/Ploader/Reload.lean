import Natc.Ploader.BadFile

/-!
# What the bad file does not give back

Between terminators that begin with a character of their own, the line of a record is cut in one
way only. What is read back then tells what was printed.
-/

namespace Natc.Ploader

open Natc.Lib

/-- A terminator that begins with an ASCII character which is nowhere else in it, in the other
one and in the fixed texts of the bad file. -/
structure Unmistakable (term other : Bytes) : Prop where
  ne : term ≠ []
  ascii : ascii term
  tail : term.getD 0 0 ∉ term.tail
  other : term.getD 0 0 ∉ other
  fixed : term.getD 0 0 ∉ blobText ++ unknownType
  noReturn : carriageReturn ∉ term
  noNul : 0 ∉ term

structure Format.Regular (f : Format) : Prop where
  field : Unmistakable f.m_FieldTerm f.m_RowTerm
  row : Unmistakable f.m_RowTerm f.m_FieldTerm

/-- The tokens of the two terminators. -/
def DataToken.isTerm (tk : DataToken) : Prop :=
  tk = .fieldTerm ∨ tk = .rowTerm

section regular

variable {f : Format} {tk tk' : DataToken} {v x y a b m whole : Bytes}

theorem Format.Regular.plain (h : f.Regular) (hplain : f.m_Enclosing = none) : f.Plain :=
  ⟨hplain, h.field.ne, h.row.ne⟩

theorem Format.Regular.unmistakable (h : f.Regular) (htk : tk.isTerm) :
    ∃ other, Unmistakable (f.term tk) other := by
  rcases htk with rfl | rfl
  · exact ⟨_, h.field⟩
  · exact ⟨_, h.row⟩

theorem Format.Regular.stops (h : f.Regular) (htk : tk.isTerm) (a : Bytes) :
    f.Stops (a ++ f.term tk) := by
  rcases htk with rfl | rfl
  · exact Or.inl ⟨h.field.ascii, List.suffix_append a _⟩
  · exact Or.inr ⟨h.row.ascii, List.suffix_append a _⟩

theorem eq_head_tail {term : Bytes} (hne : term ≠ []) : term = term.getD 0 0 :: term.tail := by
  cases term with
  | nil => exact absurd rfl hne
  | cons c s => rfl

theorem Format.Regular.head_tail (h : f.Regular) (htk : tk.isTerm) (htk' : tk'.isTerm) :
    (f.term tk).getD 0 0 ∉ (f.term tk').tail := by
  rcases htk with rfl | rfl <;> rcases htk' with rfl | rfl
  · exact h.field.tail
  · exact fun hmem => h.field.other (List.mem_of_mem_tail hmem)
  · exact fun hmem => h.row.other (List.mem_of_mem_tail hmem)
  · exact h.row.tail

theorem Format.Regular.head_inj (h : f.Regular) (htk : tk.isTerm) (htk' : tk'.isTerm)
    (heq : (f.term tk).getD 0 0 = (f.term tk').getD 0 0) : tk = tk' := by
  have hmem : ∀ {term : Bytes}, term ≠ [] → term.getD 0 0 ∈ term :=
    fun hne => getD_mem (List.length_pos_of_ne_nil hne)
  rcases htk with rfl | rfl <;> rcases htk' with rfl | rfl
  · rfl
  · exact absurd (heq ▸ hmem h.row.ne) h.field.other
  · exact absurd (heq ▸ hmem h.field.ne) h.row.other
  · rfl

/-- Two terminators in a text stand one behind the other, or are the same. -/
theorem Format.Regular.apart (h : f.Regular) (htk : tk.isTerm) (htk' : tk'.isTerm)
    (heq : x ++ (f.term tk ++ y) = a ++ (f.term tk' ++ b)) :
    (∃ m, x = a ++ (f.term tk' ++ m)) ∨ (x = a ∧ tk = tk') ∨
      ∃ m, a = x ++ (f.term tk ++ m) := by
  obtain ⟨_, hterm⟩ := h.unmistakable htk
  obtain ⟨_, hterm'⟩ := h.unmistakable htk'
  rw [eq_head_tail hterm.ne, eq_head_tail hterm'.ne] at heq ⊢
  rcases apart_or_same (h.head_tail htk htk') (h.head_tail htk' htk) heq with
    hbehind | ⟨hsame, hhead⟩ | hbefore
  · exact Or.inl hbehind
  · exact Or.inr (Or.inl ⟨hsame, h.head_inj htk htk' hhead⟩)
  · exact Or.inr (Or.inr hbefore)

/-- In a value no terminator has ended. -/
theorem Format.Ends.not_inside (h : f.Regular) (hends : f.Ends tk v) (htk : tk.isTerm)
    (htk' : tk'.isTerm) : v ≠ a ++ (f.term tk' ++ m) := by
  rintro rfl
  obtain ⟨_, hterm⟩ := h.unmistakable htk
  have htext : a ++ (f.term tk' ++ m) ++ f.term tk = (a ++ f.term tk') ++ (m ++ f.term tk) := by
    simp
  have hquiet := hends.quiet
  rw [htext, List.dropLast_append_of_ne_nil (List.append_ne_nil_of_right_ne_nil m hterm.ne)]
    at hquiet
  exact hquiet _ (List.prefix_append _ _) (h.stops htk' a)

end regular

/-! ## The characters of a line -/

theorem delivered_append_cons {c : UInt8} (hc : c ≠ carriageReturn) (x y : Bytes) :
    delivered (x ++ c :: y) = delivered x ++ c :: delivered y := by
  fun_induction delivered x with
  | case1 => exact delivered_cons hc y
  | case2 => exact delivered_return c y
  | case3 ch rest ih =>
    rw [List.cons_append, List.cons_append, delivered_return, ih, List.cons_append]
  | case4 ch rest hcr ih => rw [List.cons_append, delivered_cons hcr, ih, List.cons_append]

theorem delivered_append_left {x : Bytes} (hx : carriageReturn ∉ x) (y : Bytes) :
    delivered (x ++ y) = x ++ delivered y := by
  induction x with
  | nil => rfl
  | cons c x ih =>
    have hc : c ≠ carriageReturn := fun heq => hx (heq ▸ List.mem_cons_self)
    rw [List.cons_append, delivered_cons hc, ih fun hmem => hx (List.mem_cons_of_mem c hmem),
      List.cons_append]

/-- A terminator cuts the characters that are read. -/
theorem delivered_term {term : Bytes} (hne : term ≠ []) (hcr : carriageReturn ∉ term)
    (x y : Bytes) : delivered (x ++ (term ++ y)) = delivered x ++ (term ++ delivered y) := by
  rw [← delivered_append_left hcr]
  cases term with
  | nil => exact absurd rfl hne
  | cons c s =>
    have hc : c ≠ carriageReturn := fun heq => hcr (heq ▸ List.mem_cons_self)
    rw [List.cons_append, delivered_append_cons hc, delivered_cons hc]

theorem delivered_sublist (b : Bytes) : (delivered b).Sublist b := by
  fun_induction delivered b with
  | case1 => exact List.Sublist.slnil
  | case2 => exact List.nil_sublist _
  | case3 ch rest ih => exact (ih.cons_cons ch).cons _
  | case4 ch rest hcr ih => exact ih.cons_cons ch

theorem delivered_length (b : Bytes) : (delivered b).length ≤ b.length :=
  (delivered_sublist b).length_le

/-- Characters that are all read hold no carriage return. -/
theorem noReturn_of_length {b : Bytes} (h : b.length ≤ (delivered b).length) :
    carriageReturn ∉ b := by
  fun_induction delivered b with
  | case1 => exact List.not_mem_nil
  | case2 => exact absurd h (by simp)
  | case3 ch rest ih =>
    have hle := delivered_length rest
    simp only [List.length_cons] at h
    omega
  | case4 ch rest hcr ih =>
    simp only [List.length_cons] at h
    rw [List.mem_cons, not_or]
    exact ⟨Ne.symm hcr, ih (by omega)⟩

/-! ## One column -/

/-- What a column with its value and terminator leads to, where the record is read in full. -/
inductive Outcome (f : Format) (t : Table) (fuel i : Nat) (r₁ : Bytes) (row : Row) :
    DataToken → ReadEnd → Prop
  | row : i + 1 = t.attrTypes.length →
      Outcome f t fuel i r₁ row .rowTerm ⟨.record, t.attrTypes.length, ⟨r₁, none⟩, row⟩
  | informix (r₂ : Bytes) : i + 1 = t.attrTypes.length →
      delivered r₁ = f.m_RowTerm ++ delivered r₂ →
      Outcome f t fuel i r₁ row .fieldTerm ⟨.record, t.attrTypes.length, ⟨r₂, none⟩, row⟩
  | next : i + 1 < t.attrTypes.length → t.added i = false →
      Outcome f t fuel i r₁ row .fieldTerm (readFrom f t fuel (i + 1) ⟨r₁, none⟩ row)
  | skip : i + 1 < t.attrTypes.length → t.added i = true →
      Outcome f t fuel i r₁ row .fieldTerm (readFrom f t fuel (i + 2) ⟨r₁, none⟩ row)

section columns

variable {f : Format} {t : Table} {i j k fuel : Nat} {tk : DataToken} {v rest : Bytes} {row : Row}
  {r : ReadEnd}

/-- A token of the row terminator lies at the start of the characters. -/
theorem cell_rowTerm (hf : f.Plain) (htoken : (getToken f ⟨rest, none⟩).1 = .rowTerm) :
    ∃ r₂, (getToken f ⟨rest, none⟩).2.2 = ⟨r₂, none⟩ ∧
      delivered rest = f.m_RowTerm ++ delivered r₂ := by
  have hcell := getToken_cell hf rest
  generalize getToken f ⟨rest, none⟩ = token at hcell htoken
  cases hcell with
  | term tk v r₂ _ _ heq =>
    rw [readTerm] at htoken ⊢
    split at htoken
    · next hnil =>
      subst hnil
      have htk : tk = .rowTerm := htoken
      subst htk
      exact ⟨r₂, rfl, heq⟩
    · cases htoken
  | last => cases htoken
  | eof _ _ _ _ => cases htoken

theorem readBehind_skip {d : DataFile} (hi : i + 1 < t.attrTypes.length)
    (hadd : t.added i = true) : readBehind f t i .fieldTerm d row =
      .column (i + 2) (getToken f d).1 (getToken f d).2.1 (getToken f d).2.2 := by
  simp only [readBehind, hi.ne, false_and, and_false, if_false, not_false_eq_true, ne_eq,
    not_true_eq_false, hadd, and_self, hi, if_true]

theorem run_outcome (hf : f.Plain) (htk : tk.isTerm) (hi : i < t.attrTypes.length)
    (hr : (readBehind f t i tk ⟨rest, none⟩ row).run f t fuel row = r) (hrecord : r.nRet = .record)
    (hcount : r.readCount = t.attrTypes.length) : Outcome f t fuel i rest row tk r := by
  by_cases hlast : i + 1 = t.attrTypes.length
  · rcases htk with rfl | rfl
    · by_cases hrow : t.mInformix = true ∧ (getToken f ⟨rest, none⟩).1 = .rowTerm
      · obtain ⟨r₂, hfile, htext⟩ := cell_rowTerm hf hrow.2
        rw [readBehind_informix hlast hrow.1 hrow.2, ReadStep.run, readLoop_end hlast.ge, hlast,
          hfile] at hr
        subst hr
        exact .informix r₂ hlast htext
      · -- the record is not read in full
        exfalso
        subst hr
        simp only [readBehind, hlast, reduceCtorEq, and_false, and_true, if_false, ne_eq,
          not_false_eq_true, if_true] at hrecord hcount
        split at hrecord
        · next hinformix =>
          simp only [if_pos hinformix] at hcount
          split at hrecord
          · next heof =>
            simp only [if_pos heof, ReadStep.run] at hcount
            omega
          · rw [if_pos fun hno => hrow ⟨hinformix, hno⟩] at hrecord
            cases hrecord
        · cases hrecord
    · rw [readBehind_row hlast, ReadStep.run, readLoop_end hlast.ge] at hr
      subst hr
      exact hlast ▸ .row hlast
  · have hmore : i + 1 < t.attrTypes.length := by omega
    rcases htk with rfl | rfl
    · cases hadd : t.added i with
      | false =>
        rw [readBehind_field hmore hadd] at hr
        subst hr
        exact .next hmore hadd
      | true =>
        rw [readBehind_skip hmore hadd] at hr
        subst hr
        exact .skip hmore hadd
    · simp only [readBehind, hlast, reduceCtorEq, and_false, false_and, if_false, ne_eq,
        not_false_eq_true, and_self, if_true, ReadStep.run] at hr
      subst hr
      cases hrecord

/-- At the end of the file no record is read in full. -/
theorem run_eof {d : DataFile} (hr : (readBehind f t i .eof d row).run f t fuel row = r)
    (hrecord : r.nRet = .record) : r.readCount ≠ t.attrTypes.length := by
  subst hr
  by_cases hlast : i + 1 = t.attrTypes.length
  · simp only [readBehind, hlast, and_self, if_true, ReadStep.run]
    omega
  · simp only [readBehind, hlast, reduceCtorEq, and_false, false_and, if_false, ne_eq,
      not_false_eq_true, and_self, if_true, ReadStep.run] at hrecord

/-- A column of a record that is read in full: its value, its terminator, the file behind it, and
the column that the checks are about. -/
structure ColumnRead (f : Format) (t : Table) (fuel i : Nat) (whole : Bytes) (row : Row)
    (r : ReadEnd) (tk : DataToken) (v r₁ : Bytes) (j : Nat) : Prop where
  isTerm : tk.isTerm
  ends : f.Ends tk v
  text : whole = v ++ (f.term tk ++ delivered r₁)
  checked : j = i ∨ j = i + 1 ∧ j < t.attrTypes.length ∧ t.added j = true
  outcome : Outcome f t fuel j r₁ (t.setAttr i v (lengthOf v) row) tk r

theorem readFrom_column (hf : f.Plain) (hi : i < t.attrTypes.length)
    (hr : readFrom f t (fuel + 1) i ⟨rest, none⟩ row = r) (hrecord : r.nRet = .record)
    (hcount : r.readCount = t.attrTypes.length) :
    ∃ tk v r₁ j, ColumnRead f t fuel i (delivered rest) row r tk v r₁ j := by
  have hcell := getToken_cell hf rest
  rw [readFrom] at hr
  generalize getToken f ⟨rest, none⟩ = token at hcell hr
  cases hcell with
  | term tk v r₁ htk hends htext =>
    by_cases hnil : v = []
    · refine ⟨tk, v, r₁, i, htk, hends, htext, Or.inl rfl, ?_⟩
      subst hnil
      apply run_outcome hf htk hi _ hrecord hcount
      rcases htk with rfl | rfl
      · simp only [readTerm, if_true, readLoop, if_neg hi.not_ge] at hr
        exact hr
      · simp only [readTerm, if_true, readLoop, if_neg hi.not_ge] at hr
        exact hr
    · simp only [readTerm, if_neg hnil, readLoop, if_neg hi.not_ge, getToken_next] at hr
      have hlen : lengthOf v = .nts := if_neg hnil
      by_cases hskip : i + 1 < t.attrTypes.length ∧ t.added (i + 1) = true
      · rw [if_pos hskip] at hr
        refine ⟨tk, v, r₁, i + 1, htk, hends, htext, Or.inr ⟨rfl, hskip⟩, ?_⟩
        rw [hlen]
        exact run_outcome hf htk hskip.1 hr hrecord hcount
      · rw [if_neg hskip] at hr
        refine ⟨tk, v, r₁, i, htk, hends, htext, Or.inl rfl, ?_⟩
        rw [hlen]
        exact run_outcome hf htk hi hr hrecord hcount
  | last =>
    exfalso
    simp only [readLoop, if_neg hi.not_ge] at hr
    exact run_eof hr hrecord hcount
  | eof text r₁ _ _ =>
    simp only [readLoop, if_neg hi.not_ge] at hr
    subst hr
    cases hrecord

/-- The columns behind a column leave it alone. -/
theorem ColumnRead.cell {whole r₁ : Bytes} (h : ColumnRead f t fuel i whole row r tk v r₁ j) :
    t.value r.row i = cString v ∧ r.row.attrLen i = lengthOf v := by
  have hset : t.value (t.setAttr i v (lengthOf v) row) i = cString v ∧
      (t.setAttr i v (lengthOf v) row).attrLen i = lengthOf v := by
    rw [t.value_setAttr, t.attrLen_setAttr, if_pos rfl, if_pos rfl]
    exact ⟨rfl, rfl⟩
  have hle : i ≤ j := by
    rcases h.checked with rfl | hnext
    · exact le_rfl
    · omega
  have hbefore : ∀ k, i < k → t.value (readFrom f t fuel k ⟨r₁, none⟩
        (t.setAttr i v (lengthOf v) row)).row i = cString v ∧
      (readFrom f t fuel k ⟨r₁, none⟩
        (t.setAttr i v (lengthOf v) row)).row.attrLen i = lengthOf v := by
    intro k hk
    exact ⟨(readLoop_before fuel hk).1.trans hset.1, (readLoop_before fuel hk).2.trans hset.2⟩
  cases h.outcome with
  | row _ => exact hset
  | informix _ _ _ => exact hset
  | next _ _ => exact hbefore (j + 1) (by omega)
  | skip _ _ => exact hbefore (j + 2) (by omega)

end columns

/-! ## What the characters of a record are like -/

/-- The row terminator is nowhere but at the end. -/
def Format.RowLast (f : Format) (whole : Bytes) : Prop :=
  ∀ a b, whole = a ++ (f.m_RowTerm ++ b) → b = []

section whole

variable {f : Format} {t : Table} {i j k fuel : Nat} {tk : DataToken} {v rest whole : Bytes}
  {row : Row} {r : ReadEnd}

theorem rowLast_nil (h : f.Regular) : f.RowLast [] := by
  intro a b heq
  have hnil := List.append_eq_nil_iff.mp heq.symm
  exact absurd (List.append_eq_nil_iff.mp hnil.2).1 h.row.ne

theorem rowLast_of_quiet (h : f.Regular) (hq : f.Quiet whole.dropLast) : f.RowLast whole := by
  rintro a b rfl
  by_contra hne
  rw [← List.append_assoc, List.dropLast_append_of_ne_nil hne] at hq
  exact hq _ (List.prefix_append _ _) (h.stops (Or.inr rfl) a)

theorem Format.rowLast_row (f : Format) : f.RowLast f.m_RowTerm := by
  intro a b heq
  have hlength := congrArg List.length heq
  simp only [List.length_append] at hlength
  exact List.length_eq_zero_iff.mp (by omega)

/-- A value and its terminator in front of such characters. -/
theorem rowLast_append (h : f.Regular) (htk : tk.isTerm) (hends : f.Ends tk v)
    (hend : tk = .rowTerm → whole = []) (hlast : f.RowLast whole) :
    f.RowLast (v ++ (f.term tk ++ whole)) := by
  intro a b heq
  have hrow : DataToken.rowTerm.isTerm := Or.inr rfl
  rcases h.apart htk hrow heq with ⟨m, hv⟩ | ⟨rfl, rfl⟩ | ⟨m, rfl⟩
  · exact absurd hv (hends.not_inside h htk hrow)
  · rw [← List.append_cancel_left (List.append_cancel_left heq)]
    exact hend rfl
  · rw [List.append_assoc, List.append_assoc] at heq
    exact hlast m b (List.append_cancel_left (List.append_cancel_left heq))

/-- Behind the last column of the table a token may still be taken. -/
theorem rowLast_end (h : f.Regular) (hf : f.Plain)
    (hfile : (getToken f ⟨rest, none⟩).2.2 = ⟨[], none⟩) : f.RowLast (delivered rest) := by
  have hcell := getToken_cell hf rest
  generalize getToken f ⟨rest, none⟩ = token at hcell hfile
  cases hcell with
  | term tk v r₁ htk hends htext =>
    rw [readTerm] at hfile
    split at hfile
    · next hnil =>
      have hr₁ : r₁ = [] := congrArg DataFile.rest hfile
      rw [htext, hr₁]
      exact rowLast_append h htk hends (fun _ => rfl) (rowLast_nil h)
    · cases hfile
  | last => cases hfile
  | eof text r₁ htext hq =>
    have hr₁ : r₁ = [] := congrArg DataFile.rest hfile
    rw [htext, hr₁, delivered, List.append_nil]
    exact rowLast_of_quiet h hq

/-- A record that the file ends with holds one row terminator at most, at its end. -/
theorem rowLast_of_read (h : f.Regular) (hf : f.Plain) (hi : i ≤ t.attrTypes.length)
    (hr : readFrom f t fuel i ⟨rest, none⟩ row = r) (hrecord : r.nRet = .record)
    (hcount : r.readCount = t.attrTypes.length) (hfile : r.file = ⟨[], none⟩) :
    f.RowLast (delivered rest) := by
  induction fuel generalizing i rest row with
  | zero =>
    rw [readFrom, readLoop] at hr
    subst hr
    exact rowLast_end h hf hfile
  | succ fuel ih =>
    rcases Nat.lt_or_ge i t.attrTypes.length with hlt | hge
    · obtain ⟨tk, v, r₁, j, hread⟩ := readFrom_column hf hlt hr hrecord hcount
      rw [hread.text]
      have hout := hread.outcome
      apply rowLast_append h hread.isTerm hread.ends
      · rintro rfl
        cases hout with
        | row _ =>
          have hnil : r₁ = [] := congrArg DataFile.rest hfile
          rw [hnil, delivered]
      · cases hout with
        | row _ =>
          have hnil : r₁ = [] := congrArg DataFile.rest hfile
          rw [hnil]
          exact rowLast_nil h
        | informix r₂ _ htext =>
          have hnil : r₂ = [] := congrArg DataFile.rest hfile
          rw [htext, hnil, delivered, List.append_nil]
          exact f.rowLast_row
        | next hmore _ => exact ih hmore.le rfl
        | skip hmore _ => exact ih hmore rfl
    · rw [readFrom, readLoop_end hge] at hr
      subst hr
      exact rowLast_end h hf hfile

/-- Unless columns are left out before the last one, a record that is read in full ends with a
row terminator. -/
theorem row_suffix_of_read (hf : f.Plain) (hi : i < t.attrTypes.length)
    (hadd : ∀ j, i ≤ j → j + 1 < t.attrTypes.length → t.added j = false)
    (hr : readFrom f t fuel i ⟨rest, none⟩ row = r) (hrecord : r.nRet = .record)
    (hcount : r.readCount = t.attrTypes.length) (hfile : r.file = ⟨[], none⟩) :
    f.m_RowTerm <:+ delivered rest := by
  induction fuel generalizing i rest row with
  | zero =>
    rw [readFrom, readLoop] at hr
    subst hr
    exact absurd hcount hi.ne
  | succ fuel ih =>
    obtain ⟨tk, v, r₁, j, hread⟩ := readFrom_column hf hi hr hrecord hcount
    have hij : i ≤ j := by
      rcases hread.checked with rfl | hnext
      · exact le_rfl
      · omega
    rw [hread.text]
    cases hread.outcome with
    | row _ =>
      have hnil : r₁ = [] := congrArg DataFile.rest hfile
      rw [hnil, delivered, List.append_nil]
      exact List.suffix_append v _
    | informix r₂ _ htext =>
      have hnil : r₂ = [] := congrArg DataFile.rest hfile
      rw [htext, hnil, delivered, List.append_nil, ← List.append_assoc]
      exact List.suffix_append _ _
    | next hmore _ =>
      have hnext := ih hmore (fun k hk => hadd k (by omega)) rfl
      exact (hnext.trans (List.suffix_append _ _)).trans (List.suffix_append v _)
    | skip hmore hskip =>
      rw [hadd j hij hmore] at hskip
      cases hskip

/-- The column behind a timestamp that is left out is never read, unless the one before the
timestamp is left out too. -/
theorem column_unread (hf : f.Plain) (hadd : t.added k = true)
    (hbefore : ∀ j, j + 1 = k → t.added j = false) (hi : i ≠ k + 1)
    (hr : readFrom f t fuel i ⟨rest, none⟩ row = r) (hrecord : r.nRet = .record)
    (hcount : r.readCount = t.attrTypes.length) :
    t.value r.row (k + 1) = t.value row (k + 1) := by
  induction fuel generalizing i rest row with
  | zero =>
    rw [readFrom, readLoop] at hr
    subst hr
    rfl
  | succ fuel ih =>
    rcases Nat.lt_or_ge i t.attrTypes.length with hlt | hge
    · obtain ⟨tk, v, r₁, j, hread⟩ := readFrom_column hf hlt hr hrecord hcount
      have hset : t.value (t.setAttr i v (lengthOf v) row) (k + 1) = t.value row (k + 1) := by
        rw [t.value_setAttr, if_neg hi.symm]
      rw [← hset]
      cases hread.outcome with
      | row _ => rfl
      | informix _ _ _ => rfl
      | next _ hnot =>
        refine ih ?_ rfl
        rintro heq
        rw [Nat.succ.inj heq, hadd] at hnot
        cases hnot
      | skip _ hskip =>
        refine ih ?_ rfl
        intro heq
        rw [hbefore j (by omega)] at hskip
        cases hskip
    · rw [readFrom, readLoop_end hge] at hr
      subst hr
      rfl

/-- A column is read from the text in front of the first terminator, unless a value ends within
the text. -/
theorem ColumnRead.cut (h : f.Regular) {r₁ text y : Bytes} {tk' : DataToken}
    (hread : ColumnRead f t fuel i whole row r tk v r₁ j) (htk' : tk'.isTerm)
    (hline : whole = text ++ (f.term tk' ++ y))
    (hwhole : ∀ (tk : DataToken) (v a : Bytes), tk.isTerm → text = v ++ (f.term tk ++ a) →
      t.value r.row i ≠ cString v) : v = text ∧ tk = tk' ∧ delivered r₁ = y := by
  have heq := hread.text.symm.trans hline
  rcases h.apart hread.isTerm htk' heq with ⟨m, hv⟩ | ⟨rfl, rfl⟩ | ⟨m, htext⟩
  · exact absurd hv (hread.ends.not_inside h hread.isTerm htk')
  · exact ⟨rfl, rfl, List.append_cancel_left (List.append_cancel_left heq)⟩
  · exact absurd hread.cell.1 (hwhole tk v m hread.isTerm htext)

/-- The texts of a line are those that its columns are read from, where no column is left out. -/
theorem columns_of_read (h : f.Regular) (hf : f.Plain) {text : Nat → Bytes} {m : Nat}
    (hm : i + m + 1 = t.attrTypes.length)
    (hadd : ∀ j, i ≤ j → j < t.attrTypes.length → t.added j = false)
    (hline : delivered rest =
      ((List.range' i m).flatMap fun j => text j ++ f.m_FieldTerm) ++
        (text (i + m) ++ f.m_RowTerm))
    (hr : readFrom f t fuel i ⟨rest, none⟩ row = r) (hrecord : r.nRet = .record)
    (hcount : r.readCount = t.attrTypes.length)
    (hwhole : ∀ j, i ≤ j → j < t.attrTypes.length → ∀ (tk : DataToken) (v a : Bytes), tk.isTerm →
      text j = v ++ (f.term tk ++ a) → t.value r.row j ≠ cString v)
    (hj : i ≤ j) (hlt : j < t.attrTypes.length) :
    f.Ends (BadFile.behind t j) (text j) ∧ t.value r.row j = cString (text j) ∧
      r.row.attrLen j = lengthOf (text j) := by
  induction m generalizing i fuel rest row with
  | zero =>
    cases fuel with
    | zero =>
      rw [readFrom, readLoop] at hr
      subst hr
      have hi : i = t.attrTypes.length := hcount
      omega
    | succ fuel =>
      obtain rfl : i = j := by omega
      obtain ⟨tk, v, r₁, k, hread⟩ := readFrom_column hf hlt hr hrecord hcount
      have hrow : delivered rest = text i ++ (f.term .rowTerm ++ []) := by
        rw [hline]
        simp [Format.term]
      obtain ⟨rfl, rfl, -⟩ := hread.cut h (Or.inr rfl) hrow (hwhole i le_rfl hlt)
      rw [BadFile.behind, if_pos hm]
      exact ⟨hread.ends, hread.cell⟩
  | succ m ih =>
    cases fuel with
    | zero =>
      rw [readFrom, readLoop] at hr
      subst hr
      have hi : i = t.attrTypes.length := hcount
      omega
    | succ fuel =>
      have hlast : ¬i + 1 = t.attrTypes.length := by omega
      obtain ⟨tk, v, r₁, k, hread⟩ := readFrom_column hf (by omega) hr hrecord hcount
      have hfield : delivered rest = text i ++ (f.term .fieldTerm ++
          (((List.range' (i + 1) m).flatMap fun j => text j ++ f.m_FieldTerm) ++
            (text (i + 1 + m) ++ f.m_RowTerm))) := by
        rw [hline, List.range'_succ, show i + (m + 1) = i + 1 + m by omega]
        simp [Format.term]
      obtain ⟨rfl, rfl, hrest⟩ := hread.cut h (Or.inl rfl) hfield (hwhole i le_rfl (by omega))
      rcases Nat.eq_or_lt_of_le hj with rfl | hnext
      · rw [BadFile.behind, if_neg hlast]
        exact ⟨hread.ends, hread.cell⟩
      · have hk : k = i := by
          refine hread.checked.resolve_right fun hskip => ?_
          obtain ⟨rfl, hk, hadded⟩ := hskip
          rw [hadd (i + 1) (Nat.le_succ i) hk] at hadded
          cases hadded
        subst hk
        cases hread.outcome with
        | informix _ hend _ => exact absurd hend hlast
        | next _ _ =>
          exact ih (by omega) (fun j hle => hadd j (by omega)) hrest rfl
            (fun j hle => hwhole j (by omega)) hnext
        | skip _ hskip =>
          rw [hadd k le_rfl (by omega)] at hskip
          cases hskip

end whole

/-! ## What was printed -/

/-- What every column keeps, the record keeps. -/
theorem readLoop_keeps {f : Format} {t : Table} {P : Row → Prop}
    (hset : ∀ i v len row, P row → P (t.setAttr i v len row)) {fuel i : Nat} {eToken : DataToken}
    {text : Bytes} {d : DataFile} {row : Row} (hrow : P row) :
    P (readLoop f t fuel i eToken text d row).row := by
  induction fuel generalizing i eToken text d row with
  | zero => exact hrow
  | succ fuel ih =>
    have hbehind : ∀ (k : Nat) (next : DataToken) (e : DataFile) (row : Row), P row →
        P ((readBehind f t k next e row).run f t fuel row).row := by
      intro k next e row hrow
      cases hstep : readBehind f t k next e row with
      | done r =>
        rw [ReadStep.run, readBehind_done hstep]
        exact hrow
      | column m token text e => exact ih hrow
    rw [readLoop.eq_def]
    dsimp only
    split
    · exact hrow
    · cases eToken with
      | eof => exact hrow
      | fieldTerm => exact hbehind i _ _ _ (hset _ _ _ _ hrow)
      | rowTerm => exact hbehind i _ _ _ (hset _ _ _ _ hrow)
      | value => exact hbehind _ _ _ _ (hset _ _ _ _ hrow)

/-- The reader leaves `C_Col` alone where the value lies in `B_Col`. -/
theorem readOneRecord_C_Col {f : Format} {t : Table} {c : Nat}
    (hbinary : (t.attrType c).binary = true) (d : DataFile) (row : Row) :
    (readOneRecord f t d row).row.C_Col c = row.C_Col c := by
  refine readLoop_keeps (P := fun r => r.C_Col c = row.C_Col c) ?_ rfl
  intro i v len r hr
  simp only [Table.setAttr]
  split
  · exact hr
  · next htext =>
    have hne : c ≠ i := fun heq => htext (heq ▸ hbinary)
    simp only [Function.update_of_ne hne]
    exact hr

namespace BadFile

section line

variable {f : Format} {t : Table} {e : ReadEnd} {readCount : Nat} {row : Row}

/-- A line without the last column ends with a field terminator. -/
theorem printFrom_ends {fuel i : Nat} (hlast : ∀ j, i ≤ j → j < readCount →
      (if t.added j then j + 1 else j) + 1 ≠ t.attrTypes.length) :
    printFrom f t readCount row fuel i = [] ∨
      ∃ a, printFrom f t readCount row fuel i = a ++ f.m_FieldTerm := by
  induction fuel generalizing i with
  | zero => exact Or.inl rfl
  | succ fuel ih =>
    rw [printFrom]
    by_cases hend : readCount ≤ i
    · exact Or.inl (if_pos hend)
    · right
      simp only [if_neg hend, if_neg (hlast i le_rfl (by omega))]
      rcases ih (i := (if t.added i then i + 1 else i) + 1) (fun j hj => hlast j (by
        split at hj <;> omega)) with hnil | ⟨a, ha⟩
      · rw [hnil]
        exact ⟨_, by rw [List.append_nil]⟩
      · rw [ha]
        exact ⟨_, by rw [← List.append_assoc, ← List.append_assoc]⟩

/-- The line comes to every column before which none is left out. -/
theorem printFrom_reach {fuel i k : Nat} (hik : i ≤ k) (hk : k < readCount)
    (hfuel : readCount ≤ i + fuel) (hadd : ∀ j, i ≤ j → j < k → t.added j = false) :
    ∃ a fuel', printFrom f t readCount row fuel i =
      a ++ printFrom f t readCount row (fuel' + 1) k := by
  induction fuel generalizing i with
  | zero => omega
  | succ fuel ih =>
    rcases Nat.eq_or_lt_of_le hik with rfl | hlt
    · exact ⟨[], fuel, rfl⟩
    · obtain ⟨a, fuel', ha⟩ := ih hlt (by omega) fun j hj => hadd j (by omega)
      rw [printFrom, if_neg (by omega), hadd i le_rfl hlt]
      simp only [Bool.false_eq_true, if_false, ha]
      exact ⟨_, fuel', by rw [← List.append_assoc, ← List.append_assoc]⟩

/-- The column that is printed where the loop comes to column `k`. -/
def printedAt (t : Table) (k : Nat) : Nat :=
  if t.added k then k + 1 else k

theorem printOneRecord_at {k : Nat} (hk : k < e.readCount)
    (hadd : ∀ j, 1 ≤ j → j < k → t.added j = false) (hfirst : t.added 0 = true → k ≠ 1) :
    ∃ a b, printOneRecord f t e = a ++ (attrText t e.row (printedAt t k) ++
      ((if printedAt t k + 1 = t.attrTypes.length then f.m_RowTerm else f.m_FieldTerm) ++ b)) := by
  have hat : ∀ fuel, printFrom f t e.readCount e.row (fuel + 1) k =
      attrText t e.row (printedAt t k) ++
        ((if printedAt t k + 1 = t.attrTypes.length then f.m_RowTerm else f.m_FieldTerm) ++
          printFrom f t e.readCount e.row fuel (printedAt t k + 1)) := by
    intro fuel
    rw [printFrom, if_neg hk.not_ge]
    rfl
  obtain ⟨n, hn⟩ : ∃ n, e.readCount = n + 1 := ⟨e.readCount - 1, by omega⟩
  by_cases hskip : t.added 0 = true ∧ k ≠ 0
  · have hk2 : 2 ≤ k := by
      have := hfirst hskip.1
      omega
    obtain ⟨a, fuel, ha⟩ := @printFrom_reach f t e.readCount e.row n 2 k hk2 hk (by omega)
      fun j hj => hadd j (by omega)
    have hline : printOneRecord f t e = attrText t e.row 1 ++
        ((if 1 + 1 = t.attrTypes.length then f.m_RowTerm else f.m_FieldTerm) ++
          printFrom f t e.readCount e.row n 2) := by
      rw [printOneRecord]
      nth_rewrite 2 [hn]
      rw [printFrom, if_neg (by omega)]
      simp only [hskip.1, if_true]
    rw [hline, ha, hat]
    exact ⟨_, _, by rw [← List.append_assoc, ← List.append_assoc]⟩
  · have hreach : ∃ a fuel, printOneRecord f t e =
        a ++ printFrom f t e.readCount e.row (fuel + 1) k := by
      apply printFrom_reach (Nat.zero_le k) hk (by omega)
      intro j _ hj
      rcases Nat.eq_zero_or_pos j with rfl | hpos
      · apply Bool.eq_false_of_not_eq_true
        exact fun hadded => hskip ⟨hadded, by omega⟩
      · exact hadd j hpos hj
    obtain ⟨a, fuel, ha⟩ := hreach
    rw [ha, hat]
    exact ⟨a, _, rfl⟩

/-- The line alone in its file. -/
theorem Reloads.alone (hr : Reloads f t e) (row : Row) :
    Restored t e.row [] (readFrom f t (t.attrTypes.length + 1) (firstColumn t)
      ⟨printOneRecord f t e, none⟩ row) := by
  have hread := hr [] row
  rw [List.append_nil] at hread
  exact hread

theorem Reloads.rowLast (h : f.Regular) (hf : f.Plain) (hpos : 0 < t.attrTypes.length)
    (hr : Reloads f t e) : f.RowLast (delivered (printOneRecord f t e)) :=
  rowLast_of_read h hf (firstColumn_lt hpos).le rfl (hr.alone e.row).nRet
    (hr.alone e.row).readCount (hr.alone e.row).file

/-- No text of a line is a row terminator. -/
theorem Reloads.no_row (h : f.Regular) (hf : f.Plain) (hpos : 0 < t.attrTypes.length)
    (hr : Reloads f t e) (a b : Bytes) (last : Prop) [Decidable last] :
    printOneRecord f t e ≠
      a ++ (f.m_RowTerm ++ ((if last then f.m_RowTerm else f.m_FieldTerm) ++ b)) := by
  intro heq
  have hlast := hr.rowLast h hf hpos
  rw [heq, delivered_term h.row.ne h.row.noReturn] at hlast
  have hnil := hlast _ _ rfl
  split at hnil
  · rw [delivered_append_left h.row.noReturn] at hnil
    exact h.row.ne (List.append_eq_nil_iff.mp hnil).1
  · rw [delivered_append_left h.field.noReturn] at hnil
    exact h.field.ne (List.append_eq_nil_iff.mp hnil).1

/-- The line does not end with a field terminator. -/
theorem Reloads.no_field (h : f.Regular) (hf : f.Plain) (hpos : 0 < t.attrTypes.length)
    (hadd : ∀ j, firstColumn t ≤ j → j + 1 < t.attrTypes.length → t.added j = false)
    (hr : Reloads f t e) : ¬(printOneRecord f t e = [] ∨
      ∃ a, printOneRecord f t e = a ++ f.m_FieldTerm) := by
  have hread := hr.alone e.row
  have hsuffix := row_suffix_of_read hf (firstColumn_lt hpos) hadd rfl hread.nRet hread.readCount
    hread.file
  have hrow := List.length_pos_of_ne_nil h.row.ne
  have hfield := List.length_pos_of_ne_nil h.field.ne
  intro hline
  rcases hline with hnil | ⟨a, ha⟩
  · rw [hnil] at hsuffix
    exact h.row.ne (List.suffix_nil.mp hsuffix)
  · have htext := delivered_term h.field.ne h.field.noReturn a []
    rw [List.append_nil] at htext
    rw [ha, htext] at hsuffix
    obtain ⟨u, hu⟩ := hsuffix
    have hends : u ++ (f.term .rowTerm ++ []) = delivered a ++ (f.term .fieldTerm ++ []) := by
      rw [List.append_nil]
      exact hu
    have hlength := congrArg List.length hends
    simp only [Format.term, List.length_append, List.length_nil] at hlength
    rcases h.apart (Or.inr rfl) (Or.inl rfl) hends with ⟨m, rfl⟩ | ⟨-, heq⟩ | ⟨m, hm⟩
    · simp only [Format.term, List.length_append] at hlength
      omega
    · cases heq
    · rw [hm] at hlength
      simp only [Format.term, List.length_append] at hlength
      omega

end line

/-! ## The columns -/

/-- A slot with a row terminator in every `C_Col`. -/
def dirty (f : Format) : Row where
  C_Col := fun _ => f.m_RowTerm
  B_Col := fun _ => []
  attrLen := fun _ => .nts

section columns

variable {f : Format} {t : Table} {d : DataFile} (h : f.Regular) (hf : f.Plain)
  (hpos : 0 < t.attrTypes.length)
  (hrecord : ∀ row, (readOneRecord f t d row).nRet = .record)
  (hall : ∀ row, Reloads f t (readOneRecord f t d row))

include hf hall

/-- Every column is read that the load does not add. -/
theorem added_of_left_out {k : Nat} (hk : k + 1 < t.attrTypes.length) (hadd : t.added k = true)
    (hbefore : ∀ j, j + 1 = k → t.added j = false) (hfirst : firstColumn t ≠ k + 1) :
    t.added (k + 1) = true := by
  by_contra hnot
  have hnext := Bool.eq_false_of_not_eq_true hnot
  have hunread : ∀ row, t.value row (k + 1) =
      t.value (readOneRecord f t d Transfer.blank).row (k + 1) := by
    intro row
    have hread := (hall Transfer.blank).alone row
    rw [← hread.value (k + 1) hk hnext]
    exact (column_unread hf hadd hbefore hfirst rfl hread.nRet hread.readCount).symm
  have hconst : ∀ b, t.value ⟨fun _ => b, fun _ => b, fun _ => .nts⟩ (k + 1) = b := by
    intro b
    simp only [Table.value, ite_self]
  have hsame := (hunread ⟨fun _ => [], fun _ => [], fun _ => .nts⟩).trans
    (hunread ⟨fun _ => [0], fun _ => [0], fun _ => .nts⟩).symm
  rw [hconst, hconst] at hsame
  cases hsame

include h hpos

/-- Of no column that the reader leaves out of `C_Col` is `C_Col` printed. -/
theorem not_printed {k : Nat} (hk : k < (readOneRecord f t d (dirty f)).readCount)
    (hadd : ∀ j, 1 ≤ j → j < k → t.added j = false) (hfirst : t.added 0 = true → k ≠ 1) :
    t.attrType (printedAt t k) ≠ .nibble ∧ t.attrType (printedAt t k) ≠ .bytes ∧
      t.attrType (printedAt t k) ≠ .timestamp := by
  obtain ⟨a, b, hline⟩ := printOneRecord_at (f := f) hk hadd hfirst
  have hno := (hall (dirty f)).no_row h hf hpos a b (printedAt t k + 1 = t.attrTypes.length)
  have hcell : ∀ ty, t.attrType (printedAt t k) = ty → ty.binary = true →
      attrText t (readOneRecord f t d (dirty f)).row (printedAt t k) =
        cString ((readOneRecord f t d (dirty f)).row.C_Col (printedAt t k)) → False := by
    intro ty htype hbinary htext
    rw [readOneRecord_C_Col (htype.symm ▸ hbinary), show (dirty f).C_Col (printedAt t k) =
      f.m_RowTerm from rfl, cString_clean h.row.noNul] at htext
    rw [htext] at hline
    exact hno hline
  refine ⟨fun htype => ?_, fun htype => ?_, fun htype => ?_⟩
  · exact hcell _ htype rfl (by simp only [attrText, htype])
  · exact hcell _ htype rfl (by simp only [attrText, htype])
  · exact hcell _ htype rfl (by simp only [attrText, htype])

/-- A line that does not come to the last column is not read back. -/
theorem comes_to_last (row : Row)
    (hadd : ∀ j, firstColumn t ≤ j → j + 1 < t.attrTypes.length → t.added j = false) :
    ∃ j, j < (readOneRecord f t d row).readCount ∧ printedAt t j + 1 = t.attrTypes.length := by
  by_contra hnone
  push Not at hnone
  exact (hall row).no_field h hf hpos hadd (printFrom_ends fun j _ hj => hnone j hj)

include hrecord

/-- A timestamp that the load adds is the first of several columns. -/
theorem added_first {i : Nat} (hi : i < t.attrTypes.length) (hadded : t.added i = true) :
    i = 0 ∧ 1 < t.attrTypes.length := by
  by_contra hnot
  have hexists : ∃ k, k < t.attrTypes.length ∧ t.added k = true ∧
      (k = 0 → t.attrTypes.length = 1) := ⟨i, hi, hadded, fun hzero => by omega⟩
  have hfind := Nat.find_spec hexists
  have hmin : ∀ j, 1 ≤ j → j < Nat.find hexists → t.added j = false := by
    intro j hj hlt
    apply Bool.eq_false_of_not_eq_true
    exact fun hadd => Nat.find_min hexists hlt ⟨by omega, hadd, fun hzero => by omega⟩
  generalize Nat.find hexists = k at hfind hmin
  obtain ⟨hk, hadd, hone⟩ := hfind
  have htimestamp : ∀ {j}, t.added j = true → t.attrType j = .timestamp :=
    fun hj => (of_decide_eq_true hj).1
  have hcount := (readOneRecord_readCount hpos (hrecord (dirty f))).1
  by_cases hpair : k = 1 ∧ t.added 0 = true
  · -- two timestamps begin the record, and the second one is printed
    obtain ⟨rfl, hzero⟩ := hpair
    refine (not_printed h hf hpos hall (k := 0) (by omega) (by omega) (by omega)).2.2 ?_
    rw [printedAt, if_pos hzero]
    exact htimestamp hadd
  have hfirst : t.added 0 = true → k ≠ 1 := fun hzero hk => hpair ⟨hk, hzero⟩
  have hzero : k ≠ 0 → firstColumn t = 0 → t.added 0 = false := by
    intro hne hstart
    apply Bool.eq_false_of_not_eq_true
    intro hzero
    rw [firstColumn, if_pos ⟨by omega, hzero⟩] at hstart
    cases hstart
  by_cases hlast : k + 1 < t.attrTypes.length
  · have hnext : t.added (k + 1) = true := by
      apply added_of_left_out hf hall hlast hadd
      · intro j hj
        rcases Nat.eq_zero_or_pos j with rfl | hpos
        · apply Bool.eq_false_of_not_eq_true
          exact fun hzero => hfirst hzero hj.symm
        · exact hmin j hpos (by omega)
      · rw [firstColumn]
        split
        · omega
        · omega
    -- the second one of two timestamps is printed
    refine (not_printed h hf hpos hall (k := k) (by omega) hmin hfirst).2.2 ?_
    rw [printedAt, if_pos hadd]
    exact htimestamp hnext
  · -- behind the last column there is none to print
    have hcount := (readOneRecord_readCount hpos (hrecord Transfer.blank)).2
    obtain ⟨j, hj, hprinted⟩ := comes_to_last h hf hpos hall Transfer.blank (by
      intro j hstart hj
      rcases Nat.eq_zero_or_pos j with rfl | hjpos
      · exact hzero (by omega) (Nat.le_zero.mp hstart)
      · exact hmin j hjpos (by omega))
    rw [printedAt] at hprinted
    split at hprinted
    · next hadd' =>
      rcases Nat.eq_zero_or_pos j with rfl | hjpos
      · have := hfirst hadd'
        omega
      · rw [hmin j hjpos (by omega)] at hadd'
        cases hadd'
    · next hnot' =>
      have hjk : j = k := by omega
      exact hnot' (hjk ▸ hadd)

theorem complete_of_reloads (row : Row) :
    (readOneRecord f t d row).readCount = t.attrTypes.length ∨
      t.attrTypes.length = 2 ∧ t.added 0 = true := by
  have hadd := fun i => @added_first f t d h hf hpos hrecord hall i
  have hcount := readOneRecord_readCount hpos (hrecord row)
  obtain ⟨j, hj, hlast⟩ := comes_to_last h hf hpos hall row
    fun j hstart hj => added_eq_false hadd hstart (by omega)
  rw [printedAt] at hlast
  split at hlast
  · next hadded =>
    obtain ⟨rfl, -⟩ := hadd j (by omega) hadded
    exact Or.inr ⟨hlast.symm, hadded⟩
  · left
    omega

theorem type_of_reloads {i : Nat} (hi : i < t.attrTypes.length) (hnot : t.added i = false) :
    t.attrType i ≠ .nibble ∧ t.attrType i ≠ .bytes ∧ t.attrType i ≠ .timestamp := by
  have hadd := fun i => @added_first f t d h hf hpos hrecord hall i
  have hcount := (readOneRecord_readCount hpos (hrecord (dirty f))).1
  by_cases hsecond : i = 1 ∧ t.added 0 = true
  · have hprinted : printedAt t 0 = i := by
      rw [printedAt, if_pos hsecond.2, hsecond.1]
    rw [← hprinted]
    exact not_printed h hf hpos hall (by omega) (by omega) (by omega)
  · have hprinted : printedAt t i = i := by
      rw [printedAt, if_neg (by rw [hnot]; exact Bool.false_ne_true)]
    rw [← hprinted]
    apply not_printed h hf hpos hall
    · rcases complete_of_reloads h hf hpos hrecord hall (dirty f) with hfull | htwo
      · omega
      · have hzero : i ≠ 0 := by
          rintro rfl
          rw [htwo.2] at hnot
          cases hnot
        exact absurd ⟨by omega, htwo.2⟩ hsecond
    · intro j hj hlt
      apply Bool.eq_false_of_not_eq_true
      intro hadded
      have := (hadd j (by omega) hadded).1
      omega
    · exact fun hzero hone => hsecond ⟨hone, hzero⟩

end columns

/-- A text is the value up to a NUL, or a fixed one. -/
theorem attrText_cases {t : Table} {row : Row} {i : Nat}
    (htype : t.attrType i ≠ .nibble ∧ t.attrType i ≠ .bytes ∧ t.attrType i ≠ .timestamp) :
    attrText t row i = cString (t.value row i) ∨ attrText t row i = blobText ∨
      attrText t row i = unknownType := by
  obtain ⟨hnibble, hbytes, htimestamp⟩ := htype
  cases hty : t.attrType i with
  | nibble => exact absurd hty hnibble
  | bytes => exact absurd hty hbytes
  | timestamp => exact absurd hty htimestamp
  | bit => simp [attrText, hty]
  | none | inteval | boolean | blob => simp [attrText, hty]
  | integer | double | smallint | bigint | decimal | float | real | char | varchar | numericLong
  | numericDouble | date => simp [attrText, Table.value, AttrType.binary, hty]

theorem delivered_fixed {text : Bytes} (h : text = blobText ∨ text = unknownType) :
    delivered text = text := by
  rcases h with rfl | rfl
  · exact delivered_eq_self (by decide)
  · exact delivered_eq_self (by decide)

theorem length_cString (b : Bytes) : (cString b).length ≤ b.length :=
  (List.takeWhile_sublist _).length_le

/-- No value ends within the text of a column that holds this value. -/
theorem text_whole {f : Format} {t : Table} {row : Row} {i : Nat} {tk : DataToken} {v a : Bytes}
    (h : f.Regular)
    (htype : t.attrType i ≠ .nibble ∧ t.attrType i ≠ .bytes ∧ t.attrType i ≠ .timestamp)
    (htk : tk.isTerm) (heq : delivered (attrText t row i) = v ++ (f.term tk ++ a)) :
    t.value row i ≠ cString v := by
  obtain ⟨_, hterm⟩ := h.unmistakable htk
  have hpos := List.length_pos_of_ne_nil hterm.ne
  rcases attrText_cases htype with hvalue | hfixed
  · intro hsame
    have hlength := congrArg List.length heq
    have hdelivered := delivered_length (attrText t row i)
    rw [hvalue] at hlength hdelivered
    have hcut := length_cString (t.value row i)
    have hcut' := length_cString v
    rw [← hsame] at hcut'
    simp only [List.length_append] at hlength
    omega
  · rw [delivered_fixed hfixed] at heq
    have hmem : (f.term tk).getD 0 0 ∈ attrText t row i := by
      rw [heq]
      exact List.mem_append_right _ (List.mem_append_left _ (getD_mem hpos))
    apply absurd _ hterm.fixed
    rcases hfixed with hblob | hunknown
    · exact List.mem_append_left _ (hblob ▸ hmem)
    · exact List.mem_append_right _ (hunknown ▸ hmem)

theorem delivered_columns {f : Format} (h : f.Regular) (text : Nat → Bytes) (i m : Nat) :
    delivered (((List.range' i m).flatMap fun j => text j ++ f.m_FieldTerm) ++
        (text (i + m) ++ f.m_RowTerm)) =
      ((List.range' i m).flatMap fun j => delivered (text j) ++ f.m_FieldTerm) ++
        (delivered (text (i + m)) ++ f.m_RowTerm) := by
  induction m generalizing i with
  | zero =>
    have hrow := delivered_term h.row.ne h.row.noReturn (text i) []
    rw [List.append_nil, delivered, List.append_nil] at hrow
    exact hrow
  | succ m ih =>
    rw [List.range'_succ, List.flatMap_cons, List.flatMap_cons,
      show i + (m + 1) = i + 1 + m by omega]
    simp only [List.append_assoc] at ih ⊢
    rw [delivered_term h.field.ne h.field.noReturn, ih]

section columns

variable {f : Format} {t : Table} {d : DataFile} (h : f.Regular) (hf : f.Plain)
  (hpos : 0 < t.attrTypes.length)
  (hrecord : ∀ row, (readOneRecord f t d row).nRet = .record)
  (hall : ∀ row, Reloads f t (readOneRecord f t d row))

include h hf hpos hrecord hall

theorem shown_of_reloads (row : Row) {i : Nat} (hi : i < t.attrTypes.length)
    (hnot : t.added i = false) : Shown f t (readOneRecord f t d row).row i := by
  have hadd := fun i => @added_first f t d h hf hpos hrecord hall i
  have hcount := readOneRecord_readCount hpos (hrecord row)
  have hcomplete := complete_of_reloads h hf hpos hrecord hall row
  have htype := fun i => @type_of_reloads f t d h hf hpos hrecord hall i
  have hread := (hall row).alone row
  generalize hdef : readOneRecord f t d row = e at hcount hcomplete hread
  have hstart := firstColumn_lt hpos
  obtain ⟨m, hm⟩ : ∃ m, firstColumn t + m + 1 = t.attrTypes.length :=
    ⟨t.attrTypes.length - 1 - firstColumn t, by omega⟩
  have hline := delivered_columns h (attrText t e.row) (firstColumn t) m
  rw [← printOneRecord_columns hm hcount.1 hcount.2 hcomplete hadd] at hline
  -- the column is read back from its text, and its value is that of the slot
  obtain ⟨hends, hvalue, hlen⟩ := columns_of_read h hf hm
    (fun j hfirst hj => added_eq_false hadd hfirst hj) hline rfl hread.nRet hread.readCount
    (fun j hfirst hj tk v a htk heq => by
      have hnone := added_eq_false hadd hfirst hj
      rw [hread.value j hj hnone]
      exact text_whole h (htype j hj hnone) htk heq)
    (firstColumn_le_of_added hnot) hi
  rw [hread.value i hi hnot] at hvalue
  rw [hread.attrLen i hi hnot] at hlen
  have hnoNul : 0 ∉ delivered (attrText t e.row i) :=
    fun hmem => noNul_attrText t e.row i ((delivered_sublist _).subset hmem)
  rw [cString_clean hnoNul] at hvalue
  have htext : delivered (attrText t e.row i) = attrText t e.row i := by
    rcases @attrText_cases t e.row i (htype i hi hnot) with hcut | hfixed
    · rw [hvalue, cString_clean hnoNul] at hcut
      exact hcut.symm
    · exact delivered_fixed hfixed
  have hcr := noReturn_of_length (congrArg List.length htext).ge
  rw [htext] at hvalue hlen hends
  refine ⟨htype i hi hnot, hvalue.symm, ?_, ?_, ?_⟩
  · rw [hvalue]
    exact hends
  · rw [hvalue, List.mem_append, not_or]
    refine ⟨hcr, ?_⟩
    rw [behind]
    split
    · exact h.row.noReturn
    · exact h.field.noReturn
  · rw [hvalue]
    exact hlen

end columns

/-- The default terminators. -/
def defaultFormat : Format :=
  ⟨[94], [10], none⟩

theorem defaultFormat_regular : defaultFormat.Regular :=
  ⟨⟨by decide, by decide, by decide, by decide, by decide, by decide, by decide⟩,
    ⟨by decide, by decide, by decide, by decide, by decide, by decide, by decide⟩⟩

/-- An integer and a string. -/
def textColumns : Table :=
  ⟨[.integer, .varchar], false, false⟩

/-- A string and a column of bytes. -/
def bytesColumn : Table :=
  ⟨[.varchar, .bytes], false, false⟩

end BadFile

end Natc.Ploader
