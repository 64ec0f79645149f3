import Mathlib.Data.List.TakeDrop
import Mathlib.Data.List.TakeWhile
import Mathlib.Data.Nat.Find
import Natc.Ploader.Scanning

/-!
# Records of the data file

What the round trips share: how `ReadOneRecord` goes from column to column, and what it leaves
alone.
-/

namespace Natc.Ploader

/-- A value as it stands in the file. -/
def Format.enclose (f : Format) (v : Bytes) : Bytes :=
  f.m_Enclosing.getD [] ++ v ++ f.m_Enclosing.getD []

/-- The values of a record as they stand in the file. -/
def joined (f : Format) (mInformix : Bool) : List Bytes → Bytes
  | [] => []
  | [v] => f.enclose v ++ ((if mInformix then f.m_FieldTerm else []) ++ f.m_RowTerm)
  | v :: vs => f.enclose v ++ (f.m_FieldTerm ++ joined f mInformix vs)

theorem joined_concat (f : Format) (mInformix : Bool) (vs : List Bytes) (v : Bytes) :
    joined f mInformix (vs ++ [v]) =
      (vs.flatMap fun v => f.enclose v ++ f.m_FieldTerm) ++ joined f mInformix [v] := by
  induction vs with
  | nil => rfl
  | cons u vs ih =>
    have hcons : joined f mInformix (u :: (vs ++ [v])) =
        f.enclose u ++ (f.m_FieldTerm ++ joined f mInformix (vs ++ [v])) := by
      cases vs <;> rfl
    rw [List.cons_append, hcons, ih, List.flatMap_cons]
    simp only [List.append_assoc]

theorem joined_replicate (f : Format) (mInformix : Bool) (v : Bytes) (k n : Nat) :
    joined f mInformix (List.replicate k v ++ List.replicate (n + 1) v) =
      ((List.replicate k v).flatMap fun v => f.enclose v ++ f.m_FieldTerm) ++
        joined f mInformix (List.replicate (n + 1) v) := by
  induction k with
  | zero => rfl
  | succ k ih =>
    have hcons : joined f mInformix (v :: (List.replicate k v ++ List.replicate (n + 1) v)) =
        f.enclose v ++ (f.m_FieldTerm ++
          joined f mInformix (List.replicate k v ++ List.replicate (n + 1) v)) := by
      cases k <;> rfl
    rw [List.replicate_succ, List.cons_append, hcons, ih, List.flatMap_cons]
    simp only [List.append_assoc]

namespace Table

variable (t : Table)

/-- The slot after the values from column `i` on. -/
def stored (len : Bytes → AttrLen) : Nat → List Bytes → Row → Row
  | _, [], row => row
  | i, v :: vs, row => stored len (i + 1) vs (t.setAttr i v (len v) row)

theorem stored_append (len : Bytes → AttrLen) (i : Nat) (vs ws : List Bytes) (row : Row) :
    t.stored len i (vs ++ ws) row =
      t.stored len (i + vs.length) ws (t.stored len i vs row) := by
  induction vs generalizing i row with
  | nil => rfl
  | cons v vs ih =>
    rw [List.cons_append, stored, ih, List.length_cons, stored, Nat.add_assoc, Nat.add_comm 1]

theorem value_setAttr (i j : Nat) (v : Bytes) (len : AttrLen) (row : Row) :
    t.value (t.setAttr i v len row) j = if j = i then cString v else t.value row j := by
  by_cases hj : j = i
  · subst hj
    simp only [value, setAttr, if_true]
    split <;> simp
  · simp only [value, setAttr, if_neg hj]
    split <;> split <;> simp [Function.update_of_ne hj]

theorem attrLen_setAttr (i j : Nat) (v : Bytes) (len : AttrLen) (row : Row) :
    (t.setAttr i v len row).attrLen j = if j = i then len else row.attrLen j := by
  simp only [setAttr]
  split <;> simp [Function.update_apply]

theorem stored_outside (len : Bytes → AttrLen) {i j : Nat} (vs : List Bytes)
    (h : j < i ∨ i + vs.length ≤ j) (row : Row) :
    t.value (t.stored len i vs row) j = t.value row j ∧
      (t.stored len i vs row).attrLen j = row.attrLen j := by
  induction vs generalizing i row with
  | nil => exact ⟨rfl, rfl⟩
  | cons v vs ih =>
    rw [List.length_cons] at h
    have hne : j ≠ i := by omega
    have hnext := ih (i := i + 1) (by omega) (t.setAttr i v (len v) row)
    rw [value_setAttr, attrLen_setAttr, if_neg hne, if_neg hne] at hnext
    exact hnext

/-- Every stored column has its value and its indicator. -/
theorem stored_at (len : Bytes → AttrLen) (i : Nat) (vs : List Bytes) (row : Row) {j : Nat}
    (h : j < vs.length) : t.value (t.stored len i vs row) (i + j) = cString (vs.getD j []) ∧
      (t.stored len i vs row).attrLen (i + j) = len (vs.getD j []) := by
  induction vs generalizing i j row with
  | nil => exact absurd h (Nat.not_lt_zero j)
  | cons v vs ih =>
    cases j with
    | zero =>
      obtain ⟨hvalue, hlen⟩ := t.stored_outside len vs (Or.inl (Nat.lt_succ_self i))
        (t.setAttr i v (len v) row)
      rw [value_setAttr, if_pos rfl] at hvalue
      rw [attrLen_setAttr, if_pos rfl] at hlen
      exact ⟨hvalue, hlen⟩
    | succ j =>
      have hnext := ih (i + 1) (t.setAttr i v (len v) row) (Nat.lt_of_succ_lt_succ h)
      rw [Nat.add_right_comm] at hnext
      exact hnext

end Table

theorem cString_clean {v : Bytes} (h : 0 ∉ v) : cString v = v := by
  apply List.takeWhile_eq_self_iff.mpr
  intro c hc
  exact decide_eq_true fun heq => h (heq ▸ hc)

/-! ## From column to column -/

/-- The reading behind an iteration. -/
def ReadStep.run (f : Format) (t : Table) (fuel : Nat) (row : Row) : ReadStep → ReadEnd
  | .done r => r
  | .column i eToken text d => readLoop f t fuel i eToken text d row

/-- `ReadOneRecord` from the token of a column on. -/
def readFrom (f : Format) (t : Table) (fuel i : Nat) (d : DataFile) (row : Row) : ReadEnd :=
  readLoop f t fuel i (getToken f d).1 (getToken f d).2.1 (getToken f d).2.2 row

theorem readOneRecord_eq (f : Format) (t : Table) (d : DataFile) (row : Row) :
    readOneRecord f t d row =
      readFrom f t (t.attrTypes.length + 1)
        (if 1 < t.attrTypes.length ∧ t.added 0 then 1 else 0) d row :=
  rfl

section columns

variable {f : Format} {t : Table} {i j fuel : Nat} {v rest : Bytes} {row : Row}

theorem readBehind_field {d : DataFile} (hi : i + 1 < t.attrTypes.length)
    (hadd : t.added i = false) : readBehind f t i .fieldTerm d row =
      .column (i + 1) (getToken f d).1 (getToken f d).2.1 (getToken f d).2.2 := by
  simp only [readBehind, hi.ne, false_and, and_false, if_false, not_false_eq_true, ne_eq,
    not_true_eq_false, hadd, Bool.false_eq_true]

theorem readBehind_row {d : DataFile} (hi : i + 1 = t.attrTypes.length) :
    readBehind f t i .rowTerm d row = .column (i + 1) .rowTerm [] d := by
  simp only [readBehind, hi, reduceCtorEq, and_false, false_and, if_false, ne_eq,
    not_true_eq_false, if_true]

/-- The field terminator behind the last column, with `-informix`. -/
theorem readBehind_informix {d : DataFile} (hi : i + 1 = t.attrTypes.length)
    (hinformix : t.mInformix = true) (hrow : (getToken f d).1 = .rowTerm) :
    readBehind f t i .fieldTerm d row =
      .column (i + 1) .rowTerm (getToken f d).2.1 (getToken f d).2.2 := by
  simp only [readBehind, hi, hinformix, hrow, reduceCtorEq, and_false, if_false, ne_eq,
    not_true_eq_false, true_and, if_true]

/-- Anything else behind that terminator is an error. -/
theorem readBehind_stray {d : DataFile} (hi : i + 1 = t.attrTypes.length)
    (hinformix : t.mInformix = true) (hvalue : (getToken f d).1 = .value) :
    readBehind f t i .fieldTerm d row = .done ⟨.error, i, (getToken f d).2.2, row⟩ := by
  simp only [readBehind, hi, hinformix, hvalue, reduceCtorEq, and_false, if_false, ne_eq,
    not_false_eq_true, true_and, if_true]

theorem readLoop_end {eToken : DataToken} {text : Bytes} {d : DataFile}
    (hi : t.attrTypes.length ≤ i) :
    readLoop f t fuel i eToken text d row = ⟨.record, i, d, row⟩ := by
  cases fuel with
  | zero => rw [readLoop]
  | succ fuel =>
    rw [readLoop.eq_def]
    exact if_pos hi

theorem readBehind_column {eToken next : DataToken} {d e : DataFile} {row : Row} {k : Nat}
    {text : Bytes} (h : readBehind f t i eToken d row = .column k next text e) : i < k := by
  simp only [readBehind] at h
  split at h
  · cases h
  · split at h
    · split at h
      · cases h
      · split at h
        · cases h
        · cases h
          exact Nat.lt_succ_self i
    · split at h
      · cases h
      · split at h
        · cases h
        · split at h
          · cases h
            exact Nat.lt_succ_self i
          · split at h
            · cases h
              omega
            · cases h
              exact Nat.lt_succ_self i

theorem readBehind_done {eToken : DataToken} {d : DataFile} {row : Row} {r : ReadEnd}
    (h : readBehind f t i eToken d row = .done r) : r.row = row := by
  simp only [readBehind] at h
  split at h
  · cases h
    rfl
  · split at h
    · split at h
      · cases h
        rfl
      · split at h
        · cases h
          rfl
        · cases h
    · split at h
      · cases h
        rfl
      · split at h
        · cases h
          rfl
        · split at h
          · cases h
          · split at h <;> cases h

/-- The reading from column `i` on leaves the columns before it alone. -/
theorem readLoop_before (fuel : Nat) {eToken : DataToken} {text : Bytes} {d : DataFile} {row : Row}
    (hj : j < i) : t.value (readLoop f t fuel i eToken text d row).row j = t.value row j ∧
      (readLoop f t fuel i eToken text d row).row.attrLen j = row.attrLen j := by
  induction fuel generalizing i eToken text d row with
  | zero => exact ⟨rfl, rfl⟩
  | succ fuel ih =>
    have hbehind : ∀ (k : Nat) (next : DataToken) (e : DataFile) (v : Bytes) (len : AttrLen),
        i ≤ k → t.value ((readBehind f t k next e (t.setAttr i v len row)).run f t fuel
            (t.setAttr i v len row)).row j = t.value row j ∧
          ((readBehind f t k next e (t.setAttr i v len row)).run f t fuel
            (t.setAttr i v len row)).row.attrLen j = row.attrLen j := by
      intro k next e v len hk
      have hset : t.value (t.setAttr i v len row) j = t.value row j ∧
          (t.setAttr i v len row).attrLen j = row.attrLen j := by
        rw [t.value_setAttr, t.attrLen_setAttr, if_neg hj.ne, if_neg hj.ne]
        exact ⟨rfl, rfl⟩
      cases hstep : readBehind f t k next e (t.setAttr i v len row) with
      | done r =>
        rw [ReadStep.run, readBehind_done hstep]
        exact hset
      | column m next text e =>
        have hnext := @ih m next text e (t.setAttr i v len row)
          (hj.trans_le (hk.trans (readBehind_column hstep).le))
        exact ⟨hnext.1.trans hset.1, hnext.2.trans hset.2⟩
    rw [readLoop.eq_def]
    dsimp only
    split
    · exact ⟨rfl, rfl⟩
    · cases eToken with
      | eof => exact ⟨rfl, rfl⟩
      | fieldTerm => exact hbehind i _ _ _ _ le_rfl
      | rowTerm => exact hbehind i _ _ _ _ le_rfl
      | value =>
        apply hbehind
        split
        · exact Nat.le_succ i
        · exact le_rfl

/-- The checks behind a column, and the columns behind it, leave it and those before it alone. -/
theorem run_before (fuel : Nat) {eToken : DataToken} {d : DataFile} {row : Row} (hj : j ≤ i) :
    t.value ((readBehind f t i eToken d row).run f t fuel row).row j = t.value row j ∧
      ((readBehind f t i eToken d row).run f t fuel row).row.attrLen j = row.attrLen j := by
  cases hstep : readBehind f t i eToken d row with
  | done r =>
    rw [ReadStep.run, readBehind_done hstep]
    exact ⟨rfl, rfl⟩
  | column k next text e =>
    exact readLoop_before fuel (hj.trans_lt (readBehind_column hstep))

/-- A column that a value is read for holds it. -/
theorem readLoop_value (fuel : Nat) {text : Bytes} {d : DataFile} {row : Row}
    (hi : i < t.attrTypes.length) :
    t.value (readLoop f t (fuel + 1) i .value text d row).row i = cString text ∧
      (readLoop f t (fuel + 1) i .value text d row).row.attrLen i = .nts := by
  have hset : t.value (t.setAttr i text .nts row) i = cString text ∧
      (t.setAttr i text .nts row).attrLen i = .nts := by
    rw [t.value_setAttr, t.attrLen_setAttr, if_pos rfl, if_pos rfl]
    exact ⟨rfl, rfl⟩
  rw [readLoop.eq_def]
  simp only [if_neg hi.not_ge]
  by_cases hskip : i + 1 < t.attrTypes.length ∧ t.added (i + 1) = true
  · simp only [if_pos hskip]
    have hbefore := @run_before f t (i + 1) i fuel (getToken f d).1 (getToken f d).2.2
      (t.setAttr i text .nts row) (Nat.le_succ i)
    exact ⟨hbefore.1.trans hset.1, hbefore.2.trans hset.2⟩
  · simp only [if_neg hskip]
    have hbefore := @run_before f t i i fuel (getToken f d).1 (getToken f d).2.2
      (t.setAttr i text .nts row) le_rfl
    exact ⟨hbefore.1.trans hset.1, hbefore.2.trans hset.2⟩

/-- A timestamp behind a value is left out. -/
theorem readLoop_skip (fuel : Nat) {text : Bytes} {d : DataFile} {row : Row}
    (hi : i + 1 < t.attrTypes.length) (hadd : t.added (i + 1) = true) :
    t.value (readLoop f t (fuel + 1) i .value text d row).row (i + 1) = t.value row (i + 1) := by
  have hskip : i + 1 < t.attrTypes.length ∧ t.added (i + 1) = true := ⟨hi, hadd⟩
  rw [readLoop.eq_def]
  simp only [if_neg (Nat.lt_of_succ_lt hi).not_ge, if_pos hskip]
  refine (run_before fuel le_rfl).1.trans ?_
  rw [t.value_setAttr, if_neg (Nat.succ_ne_self i)]

end columns

/-- A value with the field terminator behind it is read. -/
def ReadsField (f : Format) (t : Table) (len : Bytes → AttrLen) (v : Bytes) : Prop :=
  ∀ i fuel rest row, i + 1 < t.attrTypes.length → t.added i = false → t.added (i + 1) = false →
    readFrom f t (fuel + 1) i ⟨f.enclose v ++ (f.m_FieldTerm ++ rest), none⟩ row =
      readFrom f t fuel (i + 1) ⟨rest, none⟩ (t.setAttr i v (len v) row)

/-- A value at the end of a record is read. -/
def ReadsLast (f : Format) (t : Table) (len : Bytes → AttrLen) (v : Bytes) : Prop :=
  ∀ i fuel rest row, i + 1 = t.attrTypes.length →
    readFrom f t (fuel + 1) i ⟨joined f t.mInformix [v] ++ rest, none⟩ row =
      ⟨.record, t.attrTypes.length, ⟨rest, none⟩, t.setAttr i v (len v) row⟩

/-- Columns with a field terminator behind each of them. -/
theorem read_fields {f : Format} {t : Table} {len : Bytes → AttrLen} {i : Nat} {vs : List Bytes}
    (fuel : Nat) (rest : Bytes) (row : Row) (hvs : ∀ v ∈ vs, ReadsField f t len v)
    (hlength : i + vs.length < t.attrTypes.length)
    (hadd : vs ≠ [] → ∀ j, i ≤ j → j ≤ i + vs.length → t.added j = false) :
    readFrom f t (fuel + vs.length) i
        ⟨(vs.flatMap fun v => f.enclose v ++ f.m_FieldTerm) ++ rest, none⟩ row =
      readFrom f t fuel (i + vs.length) ⟨rest, none⟩ (t.stored len i vs row) := by
  induction vs generalizing i row with
  | nil => rfl
  | cons v vs ih =>
    have hadd := hadd (List.cons_ne_nil v vs)
    rw [List.length_cons] at hlength hadd
    have htext : ((v :: vs).flatMap fun v => f.enclose v ++ f.m_FieldTerm) ++ rest =
        f.enclose v ++ (f.m_FieldTerm ++
          ((vs.flatMap fun v => f.enclose v ++ f.m_FieldTerm) ++ rest)) := by
      simp
    have hcount : i + (v :: vs).length = i + 1 + vs.length := by
      rw [List.length_cons]
      omega
    rw [htext, hcount, List.length_cons, ← Nat.add_assoc,
      hvs v List.mem_cons_self i _ _ _ (by omega) (hadd i le_rfl (by omega))
        (hadd (i + 1) (by omega) (by omega))]
    exact ih _ (fun u hu => hvs u (List.mem_cons_of_mem v hu)) (by omega)
      fun _ j hj hle => hadd j (by omega) (by omega)

/-! ## Records -/

/-- A table, the result columns that its data file is written from, and the format of the file. -/
structure Transfer where
  format : Format
  table : Table
  sqlTypes : List SqlType
  same_length : sqlTypes.length = table.attrTypes.length
  has_columns : table.attrTypes ≠ []

namespace Transfer

variable (x : Transfer)

/-- The file that `PrintOneRecord` writes record by record. -/
def file (records : List (List Bytes)) : Bytes :=
  records.flatMap fun r => printOneRecord x.format x.table.mInformix (x.sqlTypes.zip r)

/-- Successive calls of `ReadOneRecord`, each into a slot of any content, read these records and
then the end of the file. -/
def ReadsBack (holds : List Bytes → Row → Prop) : List (List Bytes) → DataFile → Prop
  | [], d => ∀ row, (readOneRecord x.format x.table d row).nRet = .endOfFile
  | r :: records, d => ∀ row,
      (readOneRecord x.format x.table d row).nRet = .record ∧
      holds r (readOneRecord x.format x.table d row).row ∧
      ReadsBack holds records (readOneRecord x.format x.table d row).file

/-- Every file of such records is read back. -/
def Returns (fits : List Bytes → Prop) (holds : List Bytes → Row → Prop) : Prop :=
  ∀ records, (∀ r ∈ records, fits r) → x.ReadsBack holds records ⟨x.file records, none⟩

/-- The slot holds the values of the record. -/
def Same (r : List Bytes) (row : Row) : Prop :=
  ∀ j, j < x.table.attrTypes.length → x.table.value row j = r.getD j []

/-- The slot holds the indicators that belong to the values of the record. -/
def Indicated (len : Bytes → AttrLen) (r : List Bytes) (row : Row) : Prop :=
  ∀ j, j < x.table.attrTypes.length → row.attrLen j = len (r.getD j [])

/-- The reader leaves no column out. -/
def Unadded : Prop :=
  x.table.attrTypes.length = 1 ∨ ∀ j, j < x.table.attrTypes.length → x.table.added j = false

/-- `PrintOneRecord` knows the types of the columns. -/
def Printed : Prop :=
  ∀ ty ∈ x.sqlTypes, ty.printed = true

variable {x}

theorem ReadsBack.mono {holds holds' : List Bytes → Row → Prop}
    (himp : ∀ r row, holds r row → holds' r row) {records : List (List Bytes)} {d : DataFile}
    (h : x.ReadsBack holds records d) : x.ReadsBack holds' records d := by
  induction records generalizing d with
  | nil => exact h
  | cons r records ih => exact fun row => ⟨(h row).1, himp _ _ (h row).2.1, ih (h row).2.2⟩

theorem Unadded.eq_false (h : x.Unadded) {j : Nat} (hj : j < x.table.attrTypes.length)
    (hmany : 1 < x.table.attrTypes.length) : x.table.added j = false := by
  rcases h with hone | hall
  · omega
  · exact hall j hj

theorem Unadded.start (h : x.Unadded) :
    ¬(1 < x.table.attrTypes.length ∧ x.table.added 0 = true) := by
  intro hfirst
  rw [h.eq_false (by omega) hfirst.1] at hfirst
  exact Bool.false_ne_true hfirst.2

theorem attrTypes_pos (x : Transfer) : 0 < x.table.attrTypes.length :=
  List.length_pos_of_ne_nil x.has_columns

/-! ### Reading back -/

/-- The columns of a record before its last one. -/
theorem read_init {len : Bytes → AttrLen} (hadd : x.Unadded) {vs : List Bytes} {v : Bytes}
    (hlength : vs.length + 1 = x.table.attrTypes.length)
    (hvs : ∀ u ∈ vs, ReadsField x.format x.table len u) (rest : Bytes) (row : Row) :
    readOneRecord x.format x.table
        ⟨joined x.format x.table.mInformix (vs ++ [v]) ++ rest, none⟩ row =
      readFrom x.format x.table 2 vs.length
        ⟨joined x.format x.table.mInformix [v] ++ rest, none⟩
        (x.table.stored len 0 vs row) := by
  have hfuel : x.table.attrTypes.length + 1 = 2 + vs.length := by omega
  rw [readOneRecord_eq, if_neg hadd.start, joined_concat, List.append_assoc, hfuel,
    read_fields 2 _ row hvs (by omega), Nat.zero_add]
  intro hne j _ hj
  have hmany := List.length_pos_of_ne_nil hne
  exact hadd.eq_false (by omega) (by omega)

/-- A record is read back as it was written, whatever follows it in the file. -/
theorem read_joined {len : Bytes → AttrLen} (hadd : x.Unadded) {r : List Bytes}
    (hlength : r.length = x.table.attrTypes.length)
    (hfield : 1 < x.table.attrTypes.length → ∀ v ∈ r, ReadsField x.format x.table len v)
    (hlast : ∀ v ∈ r, ReadsLast x.format x.table len v) (rest : Bytes) (row : Row) :
    readOneRecord x.format x.table ⟨joined x.format x.table.mInformix r ++ rest, none⟩ row =
      ⟨.record, x.table.attrTypes.length, ⟨rest, none⟩, x.table.stored len 0 r row⟩ := by
  have hpos := x.attrTypes_pos
  have hne : r ≠ [] := List.ne_nil_of_length_pos (by omega)
  have hinit : r.dropLast ++ [r.getLast hne] = r := List.dropLast_append_getLast hne
  have hcount : r.dropLast.length + 1 = x.table.attrTypes.length := by
    rw [← hlength, ← hinit, List.length_append, List.length_singleton, List.dropLast_concat]
  have hvs : ∀ v ∈ r.dropLast, ReadsField x.format x.table len v := by
    intro v hv
    have hmany := List.length_pos_of_mem hv
    exact hfield (by omega) v (List.dropLast_subset r hv)
  rw [← hinit, read_init hadd hcount hvs, hlast _ (List.getLast_mem hne) _ _ _ _ hcount,
    x.table.stored_append, Nat.zero_add]
  rfl

/-- At the end of the file. -/
theorem read_nil (x : Transfer) (row : Row) :
    (readOneRecord x.format x.table ⟨[], none⟩ row).nRet = .endOfFile := by
  have hpos := x.attrTypes_pos
  simp only [readOneRecord, getToken_nil, readLoop]
  split
  · next hmany => rw [if_neg hmany.1.not_ge]
  · rw [if_neg hpos.not_ge]

theorem printOneRecord_eq {f : Format} {mInformix : Bool} {columns : List (SqlType × Bytes)}
    (h : ∀ c ∈ columns, c.1.printed = true) :
    printOneRecord f mInformix columns = joined f mInformix (columns.map Prod.snd) := by
  have hcolumn : ∀ c ∈ columns, printColumn f c = f.enclose c.2 := by
    intro c hc
    rw [printColumn, if_pos (h c hc), Format.enclose]
  induction columns with
  | nil => rfl
  | cons c columns ih =>
    have hc := hcolumn c List.mem_cons_self
    cases columns with
    | nil => simp [printOneRecord, joined, hc]
    | cons d columns =>
      rw [printOneRecord, ih (fun e he => h e (List.mem_cons_of_mem c he))
        (fun e he => hcolumn e (List.mem_cons_of_mem c he)), hc]
      · simp [joined]
      · simp

theorem printOneRecord_congr {f : Format} {mInformix : Bool}
    {columns columns' : List (SqlType × Bytes)}
    (h : columns.map (printColumn f) = columns'.map (printColumn f)) :
    printOneRecord f mInformix columns = printOneRecord f mInformix columns' := by
  induction columns generalizing columns' with
  | nil =>
    rw [List.map_nil, eq_comm, List.map_eq_nil_iff] at h
    rw [h]
  | cons c columns ih =>
    obtain _ | ⟨c', columns'⟩ := columns'
    · cases h
    · rw [List.map_cons, List.map_cons, List.cons.injEq] at h
      obtain _ | ⟨d, columns⟩ := columns <;> obtain _ | ⟨d', columns'⟩ := columns'
      · simp only [printOneRecord, h.1]
      · cases h.2
      · cases h.2
      · have hcons : ∀ a b cs, printOneRecord f mInformix (a :: b :: cs) =
            printColumn f a ++ f.m_FieldTerm ++ printOneRecord f mInformix (b :: cs) :=
          fun _ _ _ => rfl
        rw [hcons c, hcons c', h.1, ih h.2]

theorem file_cons (hprinted : x.Printed) {r : List Bytes}
    (hr : r.length = x.table.attrTypes.length) (records : List (List Bytes)) :
    x.file (r :: records) = joined x.format x.table.mInformix r ++ x.file records := by
  have hsnd : (x.sqlTypes.zip r).map Prod.snd = r :=
    List.map_snd_zip (by rw [hr, x.same_length])
  rw [file, List.flatMap_cons, printOneRecord_eq fun c hc => hprinted c.1 (List.of_mem_zip hc).1,
    hsnd]
  rfl

/-- Where each column is read, the file is read back record by record. -/
theorem readsBack {len : Bytes → AttrLen} (hprinted : x.Printed) (hadd : x.Unadded)
    {records : List (List Bytes)}
    (hlength : ∀ r ∈ records, r.length = x.table.attrTypes.length)
    (hnul : ∀ r ∈ records, ∀ v ∈ r, 0 ∉ v)
    (hfield : 1 < x.table.attrTypes.length →
      ∀ r ∈ records, ∀ v ∈ r, ReadsField x.format x.table len v)
    (hlast : ∀ r ∈ records, ∀ v ∈ r, ReadsLast x.format x.table len v) :
    x.ReadsBack (fun r row => x.Same r row ∧ x.Indicated len r row) records
      ⟨x.file records, none⟩ := by
  induction records with
  | nil => exact x.read_nil
  | cons r records ih =>
    intro row
    have hr := hlength r List.mem_cons_self
    have hstored : ∀ j, j < x.table.attrTypes.length →
        x.table.value (x.table.stored len 0 r row) j = r.getD j [] ∧
          (x.table.stored len 0 r row).attrLen j = len (r.getD j []) := by
      intro j hj
      have hat := x.table.stored_at len 0 r row (hr ▸ hj)
      rw [Nat.zero_add] at hat
      refine ⟨hat.1.trans (cString_clean ?_), hat.2⟩
      rw [List.getD_eq_getElem _ _ (hr ▸ hj)]
      exact hnul r List.mem_cons_self _ (List.getElem_mem _)
    rw [file_cons hprinted hr, read_joined hadd hr
      (fun hmany => hfield hmany r List.mem_cons_self) (hlast r List.mem_cons_self)]
    exact ⟨rfl, ⟨fun j hj => (hstored j hj).1, fun j hj => (hstored j hj).2⟩,
      ih (fun q hq => hlength q (List.mem_cons_of_mem r hq))
        (fun q hq => hnul q (List.mem_cons_of_mem r hq))
        (fun hmany q hq => hfield hmany q (List.mem_cons_of_mem r hq))
        (fun q hq => hlast q (List.mem_cons_of_mem r hq))⟩

/-! ### What is not read back -/

/-- A slot with empty values. -/
def blank : Row where
  C_Col := fun _ => []
  B_Col := fun _ => []
  attrLen := fun _ => .nts

theorem value_blank (t : Table) (j : Nat) : t.value blank j = [] := by
  simp only [Table.value, blank, ite_self]

section returns

variable {fits : List Bytes → Prop} {holds : List Bytes → Row → Prop}

/-- The first record of a file. -/
theorem Returns.first (h : x.Returns fits holds) (hprinted : x.Printed) {r : List Bytes}
    (records : List (List Bytes)) (hfits : ∀ q ∈ r :: records, fits q)
    (hr : r.length = x.table.attrTypes.length) (row : Row) {d : ReadEnd}
    (hd : readOneRecord x.format x.table
      ⟨joined x.format x.table.mInformix r ++ x.file records, none⟩ row = d) :
    d.nRet = .record ∧ holds r d.row := by
  have hread := h (r :: records) hfits row
  rw [file_cons hprinted hr, hd] at hread
  exact ⟨hread.1, hread.2.1⟩

/-- A column of a type that `PrintOneRecord` does not know is written without its value. -/
theorem Returns.printed {v : Bytes} (hv : v ≠ []) (h : x.Returns fits x.Same)
    (hempty : fits (List.replicate x.table.attrTypes.length []))
    (hset : ∀ j, fits ((List.replicate x.table.attrTypes.length []).set j v)) : x.Printed := by
  intro ty hty
  by_contra hnot
  obtain ⟨j, hj, hget⟩ := List.mem_iff_getElem.mp hty
  have hj' : j < x.table.attrTypes.length := x.same_length ▸ hj
  have hfile : x.file [(List.replicate x.table.attrTypes.length []).set j v] =
      x.file [List.replicate x.table.attrTypes.length []] := by
    simp only [file, List.flatMap_cons, List.flatMap_nil]
    congr 1
    apply printOneRecord_congr
    apply List.ext_getElem
    · simp
    · intro k hk hk'
      by_cases hkj : k = j
      · subst hkj
        simp [printColumn, hget, hnot]
      · simp [Ne.symm hkj]
  have hread := h [_] (by simpa using hempty) blank
  have hread' := h [_] (by simpa using hset j) blank
  rw [hfile] at hread'
  have hvalue := hread.2.1 j hj'
  rw [hread'.2.1 j hj'] at hvalue
  simp [hj', hv] at hvalue

/-- With a timestamp that the reader leaves out, a cell of the slot is never written. -/
theorem Returns.unadded {len : Bytes → AttrLen} {v : Bytes} (hv : v ≠ [])
    (h : x.Returns fits x.Same) (hprinted : x.Printed)
    (hfits : fits (List.replicate x.table.attrTypes.length v))
    (hfield : 1 < x.table.attrTypes.length → ReadsField x.format x.table len v)
    (hvalue : 1 < x.table.attrTypes.length → ∀ rest, (getToken x.format
      ⟨x.format.enclose v ++ (x.format.m_FieldTerm ++ rest), none⟩).1 = .value) : x.Unadded := by
  by_contra hnot
  rw [Unadded, not_or] at hnot
  obtain ⟨hone, hall⟩ := hnot
  have hpos := x.attrTypes_pos
  have hmany : 1 < x.table.attrTypes.length := by omega
  have hexists : ∃ j, j < x.table.attrTypes.length ∧ x.table.added j = true := by
    by_contra hnone
    apply hall
    intro j hj
    apply Bool.eq_false_of_not_eq_true
    exact fun hadd => hnone ⟨j, hj, hadd⟩
  have hfirst := Nat.find_spec hexists
  have hbefore : ∀ j, j < Nat.find hexists → x.table.added j = false := by
    intro j hj
    apply Bool.eq_false_of_not_eq_true
    exact fun hadd => Nat.find_min hexists hj ⟨hj.trans hfirst.1, hadd⟩
  generalize Nat.find hexists = k at hfirst hbefore
  have hread := h.first hprinted [] (by simpa using hfits) List.length_replicate blank rfl
  have hcell := hread.2 k hfirst.1
  rw [List.getD_eq_getElem _ _ (by simpa using hfirst.1), List.getElem_replicate] at hcell
  refine hv (hcell.symm.trans (Eq.trans ?_ (value_blank x.table k)))
  rw [readOneRecord_eq]
  cases k with
  | zero =>
    rw [if_pos ⟨hmany, hfirst.2⟩]
    exact (readLoop_before _ Nat.zero_lt_one).1
  | succ k =>
    have hstart : ¬(1 < x.table.attrTypes.length ∧ x.table.added 0 = true) := by
      rw [hbefore 0 k.succ_pos]
      exact fun hadd => Bool.false_ne_true hadd.2
    obtain ⟨m, hm⟩ : ∃ m, x.table.attrTypes.length = k + (m + 1 + 1) :=
      ⟨x.table.attrTypes.length - (k + 2), by omega⟩
    have htext : joined x.format x.table.mInformix (List.replicate x.table.attrTypes.length v) =
        ((List.replicate k v).flatMap fun v => x.format.enclose v ++ x.format.m_FieldTerm) ++
          (x.format.enclose v ++ (x.format.m_FieldTerm ++
            joined x.format x.table.mInformix (List.replicate (m + 1) v))) := by
      rw [hm, List.replicate_add, joined_replicate]
      rfl
    have hfuel : x.table.attrTypes.length + 1 = m + 2 + 1 + (List.replicate k v).length := by
      rw [hm, List.length_replicate]
      omega
    have hreads : ∀ u ∈ List.replicate k v, ReadsField x.format x.table len u :=
      fun u hu => List.eq_of_mem_replicate hu ▸ hfield hmany
    rw [if_neg hstart, htext, hfuel, List.append_assoc, List.append_assoc, List.append_assoc,
      read_fields _ _ _ hreads, List.length_replicate, Nat.zero_add, readFrom, hvalue hmany]
    · refine (readLoop_skip _ hfirst.1 hfirst.2).trans ?_
      refine (x.table.stored_outside len _ (Or.inr ?_) blank).1
      rw [List.length_replicate]
      omega
    · rw [List.length_replicate]
      omega
    · intro _ j _ hj
      rw [List.length_replicate] at hj
      exact hbefore j (by omega)

end returns

end Transfer

end Natc.Ploader
