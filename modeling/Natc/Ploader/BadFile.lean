import Natc.Ploader.Terminators

/-!
# The bad file

`iloBadFile` writes the records that were not loaded, to be loaded again. Of every column it
prints `C_Col`, and it goes as far as the read count of the record.
-/

namespace Natc.Ploader

open Natc.Lib

def blobText : Bytes :=
  "[BLOB]".toList.map fun c => c.toNat.toUInt8

namespace BadFile

/-- What is printed of a column. -/
def attrText (t : Table) (row : Row) (i : Nat) : Bytes :=
  match t.attrType i with
  | .integer | .double | .smallint | .bigint | .decimal | .float | .real | .nibble | .bytes
  | .char | .varchar | .numericLong | .numericDouble | .date | .timestamp => cString (row.C_Col i)
  | .bit => blobText
  | .none | .inteval | .boolean | .blob => unknownType

/-- The loop of `PrintOneRecord` from column `i` on. -/
def printFrom (f : Format) (t : Table) (readCount : Nat) (row : Row) : Nat → Nat → Bytes
  | 0, _ => []
  | fuel + 1, i =>
      if readCount ≤ i then []
      else
        let i := if t.added i then i + 1 else i
        attrText t row i ++
          ((if i + 1 = t.attrTypes.length then f.m_RowTerm else f.m_FieldTerm) ++
            printFrom f t readCount row fuel (i + 1))

/-- `iloBadFile::PrintOneRecord` of what `ReadOneRecord` has left. -/
def printOneRecord (f : Format) (t : Table) (e : ReadEnd) : Bytes :=
  printFrom f t e.readCount e.row e.readCount 0

/-- A record that is read in full, in front of the rest of the file, with the values of a slot. -/
structure Restored (t : Table) (row : Row) (rest : Bytes) (r : ReadEnd) : Prop where
  nRet : r.nRet = .record
  readCount : r.readCount = t.attrTypes.length
  file : r.file = ⟨rest, none⟩
  value : ∀ i, i < t.attrTypes.length → t.added i = false → t.value r.row i = t.value row i
  attrLen : ∀ i, i < t.attrTypes.length → t.added i = false → r.row.attrLen i = row.attrLen i

/-- The line of the record is read back wherever it stands, and whatever the slot held before. -/
def Reloads (f : Format) (t : Table) (e : ReadEnd) : Prop :=
  ∀ rest row, Restored t e.row rest
    (readOneRecord f t ⟨printOneRecord f t e ++ rest, none⟩ row)

/-- The terminator that a column is printed with. -/
def behind (t : Table) (i : Nat) : DataToken :=
  if i + 1 = t.attrTypes.length then .rowTerm else .fieldTerm

/-- A column whose value is printed, and that the terminator behind it ends. -/
structure Shown (f : Format) (t : Table) (row : Row) (i : Nat) : Prop where
  /-- Its value does not lie in `B_Col`, while `C_Col` is printed. -/
  type : t.attrType i ≠ .nibble ∧ t.attrType i ≠ .bytes ∧ t.attrType i ≠ .timestamp
  text : attrText t row i = t.value row i
  ends : f.Ends (behind t i) (t.value row i)
  noReturn : carriageReturn ∉ t.value row i ++ f.term (behind t i)
  attrLen : row.attrLen i = lengthOf (t.value row i)

/-- What the reload of a record rests on. -/
structure Reloadable (f : Format) (t : Table) (e : ReadEnd) : Prop where
  plain : f.Plain
  /-- It ended with its row terminator, or all that is read is its second and last column. -/
  complete : e.readCount = t.attrTypes.length ∨ t.attrTypes.length = 2 ∧ t.added 0 = true
  /-- A timestamp that the load adds is the first of several columns. -/
  added : ∀ i, i < t.attrTypes.length → t.added i = true → i = 0 ∧ 1 < t.attrTypes.length
  shown : ∀ i, i < t.attrTypes.length → t.added i = false → Shown f t e.row i

/-! ## Reading back -/

section columns

variable {f : Format} {t : Table} {i fuel : Nat} {v rest : Bytes} {row : Row}

theorem readsField_ends (hf : f.Plain) (hends : f.Ends .fieldTerm v)
    (hcr : carriageReturn ∉ v ++ f.m_FieldTerm) : ReadsField f t lengthOf v := by
  intro i fuel rest row hi hadd hnext
  rw [enclose_plain hf.noEnclosing, readFrom,
    show f.m_FieldTerm = f.term .fieldTerm from rfl,
    getToken_ends hf hends (Or.inl rfl) hcr,
    readLoop_term (Or.inl rfl) (by omega) (fun _ => hnext), readBehind_field hi hadd]
  rfl

theorem readFrom_last (hf : f.Plain) (hends : f.Ends .rowTerm v)
    (hcr : carriageReturn ∉ v ++ f.m_RowTerm) (hi : i + 1 = t.attrTypes.length) :
    readFrom f t (fuel + 1) i ⟨v ++ (f.m_RowTerm ++ rest), none⟩ row =
      ⟨.record, t.attrTypes.length, ⟨rest, none⟩, t.setAttr i v (lengthOf v) row⟩ := by
  rw [readFrom, show f.m_RowTerm = f.term .rowTerm from rfl,
    getToken_ends hf hends (Or.inr rfl) hcr,
    readLoop_term (Or.inr rfl) (by omega) (fun h => by omega), readBehind_row hi]
  exact hi ▸ readLoop_end hi.ge

/-- A record ends behind the last column, or in it at the end of the file. -/
theorem readBehind_done_record {eToken : DataToken} {d : DataFile} {r : ReadEnd}
    (h : readBehind f t i eToken d row = .done r) (hrecord : r.nRet = .record) :
    r.readCount = i ∧ i + 1 = t.attrTypes.length := by
  simp only [readBehind] at h
  split at h
  · next hlast =>
    cases h
    exact ⟨rfl, hlast.1⟩
  · split at h
    · next hlast =>
      split at h
      · cases h
        exact ⟨rfl, hlast.2.1⟩
      · split at h
        · cases h
          cases hrecord
        · cases h
    · split at h
      · cases h
        cases hrecord
      · split at h
        · cases h
          cases hrecord
        · split at h
          · cases h
          · split at h <;> cases h

theorem readBehind_column_le {eToken next : DataToken} {d e : DataFile} {k : Nat} {text : Bytes}
    (hi : i < t.attrTypes.length) (h : readBehind f t i eToken d row = .column k next text e) :
    k ≤ t.attrTypes.length := by
  simp only [readBehind] at h
  split at h
  · cases h
  · split at h
    · split at h
      · cases h
      · split at h
        · cases h
        · cases h
          exact hi
    · split at h
      · cases h
      · split at h
        · cases h
        · split at h
          · cases h
            exact hi
          · split at h
            · next hskip =>
              cases h
              exact hskip.1
            · cases h
              exact hi

/-- The read count of a record is the number of the columns, or that of the last one. -/
theorem readLoop_readCount {eToken : DataToken} {text : Bytes} {d : DataFile}
    (hi : i ≤ t.attrTypes.length) (hfuel : t.attrTypes.length < i + fuel)
    (hrecord : (readLoop f t fuel i eToken text d row).nRet = .record) :
    t.attrTypes.length ≤ (readLoop f t fuel i eToken text d row).readCount + 1 ∧
      (readLoop f t fuel i eToken text d row).readCount ≤ t.attrTypes.length ∧
      i ≤ (readLoop f t fuel i eToken text d row).readCount := by
  induction fuel generalizing i eToken text d row with
  | zero => omega
  | succ fuel ih =>
    have hbehind : ∀ (k : Nat) (next : DataToken) (e : DataFile) (row : Row), i ≤ k →
        k < t.attrTypes.length →
        ((readBehind f t k next e row).run f t fuel row).nRet = .record →
        t.attrTypes.length ≤ ((readBehind f t k next e row).run f t fuel row).readCount + 1 ∧
          ((readBehind f t k next e row).run f t fuel row).readCount ≤ t.attrTypes.length ∧
          i ≤ ((readBehind f t k next e row).run f t fuel row).readCount := by
      intro k next e row hik hk hrec
      cases hstep : readBehind f t k next e row with
      | done r =>
        rw [hstep] at hrec
        obtain ⟨hcount, hlast⟩ := readBehind_done_record hstep hrec
        rw [ReadStep.run]
        omega
      | column m token text e =>
        rw [hstep] at hrec
        have hlt := readBehind_column hstep
        have hnext := ih (readBehind_column_le hk hstep) (by omega) hrec
        exact ⟨hnext.1, hnext.2.1, (hik.trans hlt.le).trans hnext.2.2⟩
    by_cases hend : t.attrTypes.length ≤ i
    · rw [readLoop_end hend]
      exact ⟨Nat.le_succ_of_le hend, hi, le_rfl⟩
    · rw [readLoop.eq_def] at hrecord ⊢
      simp only [if_neg hend] at hrecord ⊢
      cases eToken with
      | eof => cases hrecord
      | fieldTerm => exact hbehind i _ _ _ le_rfl (by omega) hrecord
      | rowTerm => exact hbehind i _ _ _ le_rfl (by omega) hrecord
      | value =>
        refine hbehind _ _ _ _ ?_ ?_ hrecord
        · split <;> omega
        · split
          · next hskip => exact hskip.1
          · omega

theorem noNul_cString (b : Bytes) : 0 ∉ cString b := by
  intro hmem
  have hne := List.mem_takeWhile_imp hmem
  simp at hne

theorem noNul_attrText (t : Table) (row : Row) (i : Nat) : 0 ∉ attrText t row i := by
  unfold attrText
  split
  all_goals first | exact noNul_cString _ | decide

end columns

/-- The first column that is read and printed. -/
def firstColumn (t : Table) : Nat :=
  if 1 < t.attrTypes.length ∧ t.added 0 then 1 else 0

section line

variable {f : Format} {t : Table} {e : ReadEnd} {readCount : Nat} {row : Row}

/-- The columns up to the last one, none of which the load adds. -/
theorem printFrom_columns {m j fuel : Nat} (hj : j + m + 1 = t.attrTypes.length)
    (hcount : readCount = t.attrTypes.length) (hfuel : m + 1 ≤ fuel)
    (hadd : ∀ i, j ≤ i → i < t.attrTypes.length → t.added i = false) :
    printFrom f t readCount row fuel j =
      ((List.range' j m).flatMap fun i => attrText t row i ++ f.m_FieldTerm) ++
        (attrText t row (j + m) ++ f.m_RowTerm) := by
  induction m generalizing j fuel with
  | zero =>
    obtain ⟨fuel, rfl⟩ : ∃ k, fuel = k + 1 := ⟨fuel - 1, by omega⟩
    have hend : printFrom f t readCount row fuel (j + 1) = [] := by
      cases fuel with
      | zero => rfl
      | succ fuel => rw [printFrom, if_pos (by omega)]
    rw [printFrom, if_neg (by omega), hadd j le_rfl (by omega)]
    simp only [Bool.false_eq_true, if_false, Nat.add_zero, if_pos hj, hend, List.append_nil]
    rfl
  | succ m ih =>
    obtain ⟨fuel, rfl⟩ : ∃ k, fuel = k + 1 := ⟨fuel - 1, by omega⟩
    have hlast : j + 1 ≠ t.attrTypes.length := by omega
    have hnext : j + (m + 1) = j + 1 + m := by omega
    have hrest := @ih (j + 1) fuel (by omega) (by omega) fun i hi => hadd i (by omega)
    rw [printFrom, if_neg (by omega), hadd j le_rfl (by omega), List.range'_succ,
      List.flatMap_cons, hnext]
    simp only [Bool.false_eq_true, if_false, if_neg hlast, hrest, List.append_assoc]

/-- The line of a record, from the first column that was read to the last one. -/
theorem printOneRecord_columns {m : Nat} (hm : firstColumn t + m + 1 = t.attrTypes.length)
    (hle : t.attrTypes.length ≤ e.readCount + 1) (hge : e.readCount ≤ t.attrTypes.length)
    (hcomplete : e.readCount = t.attrTypes.length ∨ t.attrTypes.length = 2 ∧ t.added 0 = true)
    (hadd : ∀ i, i < t.attrTypes.length → t.added i = true → i = 0 ∧ 1 < t.attrTypes.length) :
    printOneRecord f t e =
      ((List.range' (firstColumn t) m).flatMap fun i => attrText t e.row i ++ f.m_FieldTerm) ++
        (attrText t e.row (firstColumn t + m) ++ f.m_RowTerm) := by
  have hlater : ∀ i, 1 ≤ i → i < t.attrTypes.length → t.added i = false := by
    intro i hpos hi
    apply Bool.eq_false_of_not_eq_true
    intro hadded
    have := (hadd i hi hadded).1
    omega
  by_cases hfirst : 1 < t.attrTypes.length ∧ t.added 0 = true
  · have hstart : firstColumn t = 1 := if_pos hfirst
    rw [hstart] at hm ⊢
    obtain ⟨k, hk⟩ : ∃ k, e.readCount = k + 1 := ⟨e.readCount - 1, by omega⟩
    rw [printOneRecord, hk, printFrom, if_neg (by omega)]
    simp only [hfirst.2, if_true]
    cases m with
    | zero =>
      have hend : printFrom f t (k + 1) e.row k (0 + 1 + 1) = [] := by
        cases k with
        | zero => rfl
        | succ k => rw [printFrom, if_pos (by omega)]
      rw [hend, if_pos hm, List.append_nil]
      rfl
    | succ m =>
      have hcount : k + 1 = t.attrTypes.length := by omega
      have hrest := @printFrom_columns f t (k + 1) e.row m 2 k (by omega) hcount (by omega)
        fun i hi => hlater i (by omega)
      have hindex : 1 + (m + 1) = 2 + m := by omega
      rw [hrest, if_neg (by omega), List.range'_succ, List.flatMap_cons, hindex]
      simp only [List.append_assoc]
  · have hstart : firstColumn t = 0 := if_neg hfirst
    rw [hstart] at hm ⊢
    have hnone : t.added 0 = false := by
      apply Bool.eq_false_of_not_eq_true
      exact fun h => hfirst ⟨(hadd 0 (by omega) h).2, h⟩
    have hcount : e.readCount = t.attrTypes.length := by
      refine hcomplete.resolve_right fun htwo => ?_
      rw [hnone] at htwo
      exact Bool.false_ne_true htwo.2
    rw [printOneRecord]
    apply printFrom_columns hm hcount (by omega)
    intro i _ hi
    rcases Nat.eq_zero_or_pos i with rfl | hpos
    · exact hnone
    · exact hlater i hpos hi

/-- The columns from the first one that is read on are not added by the load. -/
theorem added_eq_false
    (hadd : ∀ i, i < t.attrTypes.length → t.added i = true → i = 0 ∧ 1 < t.attrTypes.length)
    {i : Nat} (hfirst : firstColumn t ≤ i) (hi : i < t.attrTypes.length) : t.added i = false := by
  apply Bool.eq_false_of_not_eq_true
  intro hadded
  obtain ⟨rfl, hmany⟩ := hadd i hi hadded
  rw [firstColumn, if_pos ⟨hmany, hadded⟩] at hfirst
  exact absurd hfirst Nat.one_pos.not_ge

theorem firstColumn_le_of_added {i : Nat} (hadd : t.added i = false) : firstColumn t ≤ i := by
  rw [firstColumn]
  split
  · next hfirst =>
    apply Nat.one_le_iff_ne_zero.mpr
    intro hzero
    rw [hzero, hfirst.2] at hadd
    cases hadd
  · exact Nat.zero_le i

theorem firstColumn_lt (hpos : 0 < t.attrTypes.length) : firstColumn t < t.attrTypes.length := by
  rw [firstColumn]
  split
  · next hfirst => exact hfirst.1
  · exact hpos

theorem readOneRecord_readCount {d : DataFile} (hpos : 0 < t.attrTypes.length)
    (hrecord : (readOneRecord f t d row).nRet = .record) :
    t.attrTypes.length ≤ (readOneRecord f t d row).readCount + 1 ∧
      (readOneRecord f t d row).readCount ≤ t.attrTypes.length := by
  have hcount := readLoop_readCount (firstColumn_lt hpos).le (by omega) hrecord
  exact ⟨hcount.1, hcount.2.1⟩

/-- The values of some columns. -/
def columnValues (t : Table) (row : Row) (i m : Nat) : List Bytes :=
  (List.range' i m).map (t.value row)

theorem length_columnValues (row : Row) (i m : Nat) : (columnValues t row i m).length = m := by
  rw [columnValues, List.length_map, List.length_range']

theorem columnValues_succ (row : Row) (i m : Nat) :
    columnValues t row i (m + 1) = columnValues t row i m ++ [t.value row (i + m)] := by
  rw [columnValues, List.range'_concat, List.map_append, Nat.one_mul]
  rfl

theorem columnValues_getD (row : Row) {i j m : Nat} (hj : j < m) :
    (columnValues t row i m).getD j [] = t.value row (i + j) := by
  rw [List.getD_eq_getElem _ _ (by rw [length_columnValues]; exact hj)]
  simp [columnValues]

/-- The line of the record is read up to its end. -/
theorem Reloadable.read (h : Reloadable f t e) {m : Nat}
    (hm : firstColumn t + m + 1 = t.attrTypes.length)
    (hle : t.attrTypes.length ≤ e.readCount + 1) (hge : e.readCount ≤ t.attrTypes.length)
    (rest : Bytes) (row : Row) :
    readOneRecord f t ⟨printOneRecord f t e ++ rest, none⟩ row =
      ⟨.record, t.attrTypes.length, ⟨rest, none⟩,
        t.stored lengthOf (firstColumn t) (columnValues t e.row (firstColumn t) (m + 1)) row⟩ := by
  have hnone := fun i => @added_eq_false t h.added i
  have hshown : ∀ i, firstColumn t ≤ i → i < t.attrTypes.length →
      Shown f t e.row i := fun i hfirst hi => h.shown i hi (hnone i hfirst hi)
  have htexts : ((List.range' (firstColumn t) m).flatMap
        fun i => attrText t e.row i ++ f.m_FieldTerm) =
      (columnValues t e.row (firstColumn t) m).flatMap
        fun v => f.enclose v ++ f.m_FieldTerm := by
    rw [columnValues, List.flatMap_map]
    apply List.flatMap_congr
    intro i hi
    obtain ⟨hfirst, hlt⟩ := List.mem_range'_1.mp hi
    rw [(hshown i hfirst (by omega)).text, enclose_plain h.plain.noEnclosing]
  have hlast := hshown (firstColumn t + m) (by omega) (by omega)
  have hends := hlast.ends
  have hcr := hlast.noReturn
  rw [show behind t (firstColumn t + m) = .rowTerm from if_pos hm] at hends hcr
  have hreads : ∀ v ∈ columnValues t e.row (firstColumn t) m, ReadsField f t lengthOf v := by
    intro v hv
    obtain ⟨i, hi, rfl⟩ := List.mem_map.mp hv
    obtain ⟨hfirst, hlt⟩ := List.mem_range'_1.mp hi
    have hcolumn := hshown i hfirst (by omega)
    have hends := hcolumn.ends
    have hcr := hcolumn.noReturn
    rw [show behind t i = .fieldTerm from if_neg (by omega)] at hends hcr
    exact readsField_ends h.plain hends hcr
  have hlength := length_columnValues (t := t) e.row (firstColumn t) m
  have hfuel : t.attrTypes.length + 1 = (firstColumn t + 1) + 1 +
      (columnValues t e.row (firstColumn t) m).length := by
    rw [hlength]
    omega
  rw [printOneRecord_columns hm hle hge h.complete h.added, htexts, hlast.text, readOneRecord_eq,
    show (if 1 < t.attrTypes.length ∧ t.added 0 = true then 1 else 0) = firstColumn t from rfl,
    hfuel, List.append_assoc, read_fields _ _ row hreads, hlength, List.append_assoc,
    readFrom_last h.plain hends hcr hm, columnValues_succ, t.stored_append, hlength]
  · rfl
  · rw [hlength]
    omega
  · intro _ i hfirst hi
    rw [hlength] at hi
    exact hnone i hfirst (by omega)

theorem Reloadable.reloads (h : Reloadable f t e) (htable : t.attrTypes ≠ [])
    (hle : t.attrTypes.length ≤ e.readCount + 1) (hge : e.readCount ≤ t.attrTypes.length) :
    Reloads f t e := by
  have hstart := firstColumn_lt (List.length_pos_of_ne_nil htable)
  obtain ⟨m, hm⟩ : ∃ m, firstColumn t + m + 1 = t.attrTypes.length :=
    ⟨t.attrTypes.length - 1 - firstColumn t, by omega⟩
  intro rest row
  have hcell : ∀ i, i < t.attrTypes.length → t.added i = false →
      t.value (t.stored lengthOf (firstColumn t)
          (columnValues t e.row (firstColumn t) (m + 1)) row) i = t.value e.row i ∧
        (t.stored lengthOf (firstColumn t)
          (columnValues t e.row (firstColumn t) (m + 1)) row).attrLen i = e.row.attrLen i := by
    intro i hi hadd
    have hfirst := firstColumn_le_of_added hadd
    have hshown := h.shown i hi hadd
    have hlt : i - firstColumn t < m + 1 := by omega
    have hat := t.stored_at lengthOf (firstColumn t)
      (columnValues t e.row (firstColumn t) (m + 1)) row (hlt.trans_eq
        (length_columnValues e.row (firstColumn t) (m + 1)).symm)
    rw [columnValues_getD e.row hlt, Nat.add_sub_cancel' hfirst] at hat
    refine ⟨hat.1.trans (cString_clean ?_), hat.2.trans hshown.attrLen.symm⟩
    rw [← hshown.text]
    exact noNul_attrText _ _ _
  rw [h.read hm hle hge]
  exact ⟨rfl, rfl, rfl, fun i hi hadd => (hcell i hi hadd).1,
    fun i hi hadd => (hcell i hi hadd).2⟩

end line

end BadFile

end Natc.Ploader
