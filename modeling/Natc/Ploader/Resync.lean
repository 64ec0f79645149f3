import Natc.Ploader.Terminators

/-!
# Rows of the wrong length

A data file without an enclosing is a sequence of rows. The reader leaves a row that is too short
at its end, and one that is too long where the columns are used up: what is left of it is read as
the next row.
-/

namespace Natc.Ploader

open Natc.Lib

/-- `MAX_VARCHAR_SIZE`. -/
def maxVarcharSize : Nat := 32 * 1024

/-- The reader stands in front of these characters. -/
def DataFile.At (d : DataFile) (text : Bytes) : Prop :=
  d.eNextToken = none ∧ delivered d.rest = text

/-- A row: the fields with a field terminator behind them, and the characters up to the row
terminator or, where the row is not closed, up to the end of the file. -/
structure FileRow (f : Format) where
  ended : List Bytes
  last : Bytes
  closed : Bool
  field_ends : ∀ v ∈ ended, f.Ends .fieldTerm v
  row_ends : closed = true → f.Ends .rowTerm last
  file_ends : closed = false → f.Quiet last ∧ (ended = [] → last ≠ [])
  noNul : ∀ v ∈ ended ++ [last], 0 ∉ v
  fits : ∀ v ∈ ended ++ [last], v.length < maxVarcharSize

namespace FileRow

variable {f : Format} (r : FileRow f)

def text : Bytes :=
  (r.ended.flatMap fun v => v ++ f.m_FieldTerm) ++
    (r.last ++ if r.closed then f.m_RowTerm else [])

/-- With `-informix` every field has a terminator behind it. -/
def fields (mInformix : Bool) : List Bytes :=
  if mInformix = true ∧ r.last = [] then r.ended else r.ended ++ [r.last]

/-- The reader comes to the end of the row with the right result. -/
def Readable (mInformix : Bool) (n : Nat) : Prop :=
  if r.last ≠ [] ∨ r.closed = true ∧ mInformix = false then r.ended.length < n
  else if r.closed then r.ended.length + 1 < n ∨ r.ended.length = n
  else r.ended.length = n ∨
    mInformix = true ∧ r.ended.length = n + 1 ∧ r.ended.getLast? = some []

end FileRow

/-- The rows of a file. Only the last one may be without its terminator. -/
structure FileRows (f : Format) where
  rows : List (FileRow f)
  closed : ∀ r ∈ rows.dropLast, r.closed = true

def rowsText {f : Format} (rows : List (FileRow f)) : Bytes :=
  rows.flatMap FileRow.text

variable {f : Format} {t : Table}

/-- What the reader is to return for a row: its fields, or an error if they are not as many as the
columns. -/
structure Judged (t : Table) (r : FileRow f) (out : ReadEnd) : Prop where
  verdict : out.nRet =
    if (r.fields t.mInformix).length = t.attrTypes.length then .record else .error
  own : out.nRet = .record → ∀ j, j < t.attrTypes.length →
    t.value out.row j = (r.fields t.mInformix).getD j [] ∧
      out.row.attrLen j = lengthOf ((r.fields t.mInformix).getD j [])

/-- Each call begins with the row that it is to read, and returns what it is to return for it. -/
def Resynchronised (t : Table) : List (FileRow f) → DataFile → Prop
  | [], d => d.At [] ∧ ∀ slot, (readOneRecord f t d slot).nRet = .endOfFile
  | r :: rows, d => d.At (rowsText (r :: rows)) ∧ ∀ slot,
      Judged t r (readOneRecord f t d slot) ∧
        Resynchronised t rows (readOneRecord f t d slot).file

/-! ## Tokens of the characters that are read -/

section tokens

variable {s : Scan} {c : UInt8} {tk : DataToken} {input v w u : Bytes}

/-- A carriage return at the end of the file is not delivered. -/
theorem eq_of_delivered_nil (h : delivered input = []) :
    input = [] ∨ input = [carriageReturn] := by
  cases input with
  | nil => exact Or.inl rfl
  | cons a input =>
    by_cases ha : a = carriageReturn
    · subst ha
      cases input with
      | nil => exact Or.inr rfl
      | cons b input =>
        rw [delivered_return] at h
        cases h
    · rw [delivered_cons ha] at h
      cases h

/-- The scan goes on behind the next character. -/
theorem scan_next (h : delivered input = c :: u) : ∃ input', delivered input' = u ∧
    (∀ s t, scanStep f s c = .more t → scan f s input = scan f t input') ∧
    ∀ s tk text next, scanStep f s c = .token tk text next →
      scan f s input = (tk, text, ⟨input', next⟩) := by
  cases input with
  | nil => cases h
  | cons a input =>
    by_cases ha : a = carriageReturn
    · subst ha
      cases input with
      | nil => cases h
      | cons b input =>
        rw [delivered_return] at h
        cases h
        refine ⟨input, rfl, ?_, ?_⟩
        · intro s t hstep
          rw [scan.eq_def]
          simp only [if_true, hstep]
        · intro s tk text next hstep
          rw [scan.eq_def]
          simp only [if_true, hstep]
    · rw [delivered_cons ha] at h
      cases h
      exact ⟨input, rfl, fun _ _ => scan_more ha, fun _ _ _ _ => scan_token ha⟩

/-- The characters that are taken may be delivered with carriage returns. -/
theorem scan_passes {s t : Scan} (hpasses : Passes f s w t)
    (h : delivered input = w ++ u) :
    ∃ input', delivered input' = u ∧ scan f s input = scan f t input' := by
  induction w generalizing s input with
  | nil =>
    cases hpasses
    exact ⟨input, h, rfl⟩
  | cons c w ih =>
    obtain ⟨m, hstep, hafter⟩ := hpasses
    obtain ⟨input', hdelivered, hmore, -⟩ := @scan_next f c input (w ++ u) h
    rw [hmore s m hstep]
    exact ih hafter hdelivered

theorem getToken_delivered (h : delivered input ≠ []) :
    getToken f ⟨input, none⟩ = scan f .start input := by
  apply getToken_scan
  · intro heq
    exact h (congrArg delivered heq)
  · intro heq
    exact h (congrArg delivered heq)

/-- A value and the terminator behind it. -/
theorem getToken_term (hf : f.Plain) (hends : f.Ends tk v) (htk : tk = .fieldTerm ∨ tk = .rowTerm)
    (h : delivered input = v ++ (f.term tk ++ u)) : ∃ input', delivered input' = u ∧
      getToken f ⟨input, none⟩ = readTerm tk (f.term tk) v input' := by
  have hterm : f.term tk ≠ [] := by
    rcases htk with rfl | rfl
    · exact hf.field_ne
    · exact hf.row_ne
  have hne : v ++ f.term tk ≠ [] := List.append_ne_nil_of_right_ne_nil v hterm
  have hlast := List.dropLast_append_getLast hne
  have hroom := hends.room
  have hlength : (v ++ f.term tk).dropLast.length < maxTokenValueLen := by
    rw [List.length_dropLast]
    omega
  rw [← List.append_assoc, ← hlast, List.append_assoc] at h
  obtain ⟨s, hpasses, hs⟩ := @quiet_passes f .start [] hf _ (Scan.start_follows hf) hends.quiet
    hlength
  obtain ⟨input', hdelivered, hscan⟩ := scan_passes hpasses h
  obtain ⟨input'', hafter, -, htoken⟩ := @scan_next f _ input' _ hdelivered
  have hstep := hs.step_term hf hends htk hlast
  have hsome : delivered input ≠ [] := by
    rw [h]
    simp
  refine ⟨input'', hafter, ?_⟩
  rw [getToken_delivered hsome, hscan, readTerm]
  split
  · next hnil =>
    rw [if_pos hnil] at hstep
    exact htoken _ _ _ _ hstep
  · next hnil =>
    rw [if_neg hnil] at hstep
    exact htoken _ _ _ _ hstep

/-- The characters up to the end of the file. -/
theorem getToken_end (hf : f.Plain) (hq : f.Quiet v) (hne : v ≠ [])
    (hroom : v.length < maxTokenValueLen) (h : delivered input = v) :
    getToken f ⟨input, none⟩ = (.value, v, ⟨[], some .eof⟩) := by
  have hsome : delivered input ≠ [] := h ▸ hne
  rw [← List.append_nil v] at h
  obtain ⟨s, hpasses, hs⟩ := @quiet_passes f .start [] hf v (Scan.start_follows hf) hq hroom
  obtain ⟨input', hdelivered, hscan⟩ := scan_passes hpasses h
  have htext : s.text = v := hs.text
  rw [getToken_delivered hsome, hscan, ← htext]
  cases eq_of_delivered_nil hdelivered with
  | inl hnil => rw [hnil, scan]
  | inr hreturn =>
    rw [hreturn, scan.eq_def]
    rfl

theorem getToken_empty (h : delivered input = []) :
    getToken f ⟨input, none⟩ = (.eof, [], ⟨[], none⟩) :=
  if_pos (eq_of_delivered_nil h)

end tokens

/-! ## Columns -/

section columns

variable {i fuel : Nat} {input u v : Bytes} {vs : List Bytes} {row : Row}

/-- The reader knows at least one column and leaves none out. -/
structure Table.Plain (t : Table) : Prop where
  pos : 0 < t.attrTypes.length
  unadded : 1 < t.attrTypes.length → ∀ j, j < t.attrTypes.length → t.added j = false

theorem Table.Plain.skip (ht : t.Plain) : i + 1 < t.attrTypes.length → t.added (i + 1) = false :=
  fun hi => ht.unadded (by omega) (i + 1) hi

/-- A field and its terminator. -/
theorem readFrom_field (hf : f.Plain) (ht : t.Plain) (hv : f.Ends .fieldTerm v)
    (hi : i < t.attrTypes.length) (h : delivered input = v ++ (f.m_FieldTerm ++ u)) :
    ∃ input', delivered input' = u ∧ readFrom f t (fuel + 1) i ⟨input, none⟩ row =
      (readBehind f t i .fieldTerm ⟨input', none⟩ (t.setAttr i v (lengthOf v) row)).run f t fuel
        (t.setAttr i v (lengthOf v) row) := by
  obtain ⟨input', hdelivered, htoken⟩ := getToken_term hf hv (Or.inl rfl) h
  refine ⟨input', hdelivered, ?_⟩
  rw [readFrom, htoken]
  exact readLoop_term (Or.inl rfl) hi ht.skip

/-- The last characters of a row and its terminator. -/
theorem readFrom_row (hf : f.Plain) (ht : t.Plain) (hv : f.Ends .rowTerm v)
    (hi : i < t.attrTypes.length) (h : delivered input = v ++ (f.m_RowTerm ++ u)) :
    ∃ input', delivered input' = u ∧ readFrom f t (fuel + 1) i ⟨input, none⟩ row =
      (readBehind f t i .rowTerm ⟨input', none⟩ (t.setAttr i v (lengthOf v) row)).run f t fuel
        (t.setAttr i v (lengthOf v) row) := by
  obtain ⟨input', hdelivered, htoken⟩ := getToken_term hf hv (Or.inr rfl) h
  refine ⟨input', hdelivered, ?_⟩
  rw [readFrom, htoken]
  exact readLoop_term (Or.inr rfl) hi ht.skip

/-- Fields in front of the last column. -/
theorem readFrom_fields (hf : f.Plain) (ht : t.Plain) (hvs : ∀ v ∈ vs, f.Ends .fieldTerm v)
    (hlength : i + vs.length < t.attrTypes.length)
    (h : delivered input = (vs.flatMap fun v => v ++ f.m_FieldTerm) ++ u) :
    ∃ input', delivered input' = u ∧ readFrom f t (fuel + vs.length) i ⟨input, none⟩ row =
      readFrom f t fuel (i + vs.length) ⟨input', none⟩ (t.stored lengthOf i vs row) := by
  induction vs generalizing i input row with
  | nil => exact ⟨input, h, rfl⟩
  | cons v vs ih =>
    rw [List.length_cons] at hlength
    rw [List.flatMap_cons, List.append_assoc, List.append_assoc] at h
    obtain ⟨input', hdelivered, hfirst⟩ := @readFrom_field f t i (fuel + vs.length) input _ v row
      hf ht (hvs v List.mem_cons_self) (by omega) h
    obtain ⟨input'', hafter, hrest⟩ := @ih (i + 1) input' (t.setAttr i v (lengthOf v) row)
      (fun w hw => hvs w (List.mem_cons_of_mem v hw)) (by omega) hdelivered
    have hcount : i + (v :: vs).length = i + 1 + vs.length := by
      rw [List.length_cons]
      omega
    refine ⟨input'', hafter, ?_⟩
    rw [hcount, List.length_cons, ← Nat.add_assoc, hfirst,
      readBehind_field (by omega) (ht.unadded (by omega) i (by omega))]
    exact hrest

theorem readOneRecord_plain (ht : t.Plain) (d : DataFile) :
    readOneRecord f t d row = readFrom f t (t.attrTypes.length + 1) 0 d row := by
  have hstart : ¬(1 < t.attrTypes.length ∧ t.added 0 = true) := by
    intro h
    rw [ht.unadded h.1 0 ht.pos] at h
    cases h.2
  rw [readOneRecord_eq, if_neg hstart]

/-- The fields of a record that come before its column `vs.length`. -/
theorem readOneRecord_fields (hf : f.Plain) (ht : t.Plain) (hvs : ∀ v ∈ vs, f.Ends .fieldTerm v)
    (hlength : vs.length < t.attrTypes.length)
    (h : delivered input = (vs.flatMap fun v => v ++ f.m_FieldTerm) ++ u) :
    ∃ input' fuel, delivered input' = u ∧ readOneRecord f t ⟨input, none⟩ row =
      readFrom f t (fuel + 2) vs.length ⟨input', none⟩ (t.stored lengthOf 0 vs row) := by
  obtain ⟨fuel, hfuel⟩ := Nat.exists_eq_add_of_le hlength
  obtain ⟨input', hdelivered, hread⟩ := @readFrom_fields f t 0 (fuel + 2) input u vs row hf ht hvs
    (by omega) h
  refine ⟨input', fuel, hdelivered, ?_⟩
  have htotal : t.attrTypes.length + 1 = fuel + 2 + vs.length := by omega
  rw [readOneRecord_plain ht, htotal, hread, Nat.zero_add]

/-! ### Behind a column -/

theorem readBehind_short {d : DataFile} (hi : i + 1 < t.attrTypes.length) :
    readBehind f t i .rowTerm d row = .done ⟨.error, i, d, row⟩ := by
  simp [readBehind, hi.ne]

theorem readBehind_long {d : DataFile} (hi : i + 1 = t.attrTypes.length)
    (hplain : t.mInformix = false) :
    readBehind f t i .fieldTerm d row = .done ⟨.error, i, d, row⟩ := by
  simp [readBehind, hi, hplain]

/-- With `-informix`, what comes behind the terminator of the last column decides. -/
theorem readBehind_last {d : DataFile} (hi : i + 1 = t.attrTypes.length)
    (hinformix : t.mInformix = true) : readBehind f t i .fieldTerm d row =
      if (getToken f d).1 = .eof then .done ⟨.record, i, (getToken f d).2.2, row⟩
      else if (getToken f d).1 ≠ .rowTerm then .done ⟨.error, i, (getToken f d).2.2, row⟩
      else .column (i + 1) .rowTerm (getToken f d).2.1 (getToken f d).2.2 := by
  by_cases hrow : (getToken f d).1 = .rowTerm
  · simp [readBehind, hi, hinformix, hrow]
  · simp [readBehind, hi, hinformix, hrow]

/-- At the end of the file, the last column is read and one before it is an error. -/
theorem readBehind_eof {d : DataFile} : readBehind f t i .eof d row =
    if i + 1 = t.attrTypes.length then .done ⟨.record, i, d, row⟩
    else .done ⟨.error, i, d, row⟩ := by
  by_cases hi : i + 1 = t.attrTypes.length
  · simp [readBehind, hi]
  · simp [readBehind, hi]

theorem readLoop_last (ht : t.Plain) (hi : i < t.attrTypes.length) :
    readLoop f t (fuel + 1) i .value v ⟨[], some .eof⟩ row =
      (readBehind f t i .eof ⟨[], none⟩ (t.setAttr i v .nts row)).run f t fuel
        (t.setAttr i v .nts row) := by
  have hskip : ¬(i + 1 < t.attrTypes.length ∧ t.added (i + 1) = true) := by
    intro h
    rw [ht.skip h.1] at h
    cases h.2
  simp only [readLoop, if_neg hi.not_ge, getToken_next, if_neg hskip]
  rfl

end columns

/-! ## Rows -/

section rows

variable {r : FileRow f} {next : Bytes} {d : DataFile} {slot : Row}

/-- The text of a row behind some of its fields. -/
theorem FileRow.text_split (r : FileRow f) (m : Nat) :
    r.text = ((r.ended.take m).flatMap fun v => v ++ f.m_FieldTerm) ++
      (((r.ended.drop m).flatMap fun v => v ++ f.m_FieldTerm) ++
        (r.last ++ if r.closed then f.m_RowTerm else [])) := by
  rw [← List.append_assoc, ← List.flatMap_append, List.take_append_drop, FileRow.text]

/-- The row is read up to its end when there are columns enough. -/
theorem read_within (hf : f.Plain) (ht : t.Plain) (hshort : r.ended.length < t.attrTypes.length)
    (hend : r.closed = true ∨ r.last ≠ [] ∧ next = []) (hd : d.At (r.text ++ next)) :
    (readOneRecord f t d slot).nRet =
        (if r.ended.length + 1 = t.attrTypes.length then .record else .error) ∧
      (readOneRecord f t d slot).file.At next ∧
      (readOneRecord f t d slot).row = t.stored lengthOf 0 (r.ended ++ [r.last]) slot := by
  obtain ⟨input, token⟩ := d
  obtain ⟨rfl, htext⟩ := hd
  rw [FileRow.text, List.append_assoc] at htext
  obtain ⟨input', fuel, hdelivered, hread⟩ := @readOneRecord_fields f t input _ r.ended slot hf ht
    r.field_ends hshort htext
  have hstored : t.stored lengthOf 0 (r.ended ++ [r.last]) slot =
      t.setAttr r.ended.length r.last (lengthOf r.last) (t.stored lengthOf 0 r.ended slot) := by
    rw [t.stored_append, Nat.zero_add]
    rfl
  rw [hread, hstored]
  by_cases hclosed : r.closed = true
  · rw [if_pos hclosed, List.append_assoc] at hdelivered
    obtain ⟨input'', hafter, hrow⟩ := @readFrom_row f t r.ended.length (fuel + 1) input' _ r.last
      (t.stored lengthOf 0 r.ended slot) hf ht (r.row_ends hclosed) hshort hdelivered
    rw [hrow]
    by_cases hi : r.ended.length + 1 = t.attrTypes.length
    · rw [if_pos hi, readBehind_row hi, ReadStep.run, readLoop_end hi.ge]
      exact ⟨rfl, ⟨rfl, hafter⟩, rfl⟩
    · rw [if_neg hi, readBehind_short (by omega)]
      exact ⟨rfl, ⟨rfl, hafter⟩, rfl⟩
  · obtain ⟨hne, rfl⟩ := hend.resolve_left hclosed
    rw [if_neg hclosed, List.append_nil, List.append_nil] at hdelivered
    have hquiet := (r.file_ends (Bool.eq_false_of_not_eq_true hclosed)).1
    have hfits := r.fits r.last (List.mem_append_right _ List.mem_cons_self)
    have hroom : r.last.length < maxTokenValueLen := hfits.trans (by decide)
    have htoken := getToken_end hf hquiet hne hroom hdelivered
    rw [readFrom, htoken, lengthOf, if_neg hne, readLoop_last ht hshort, readBehind_eof]
    by_cases hi : r.ended.length + 1 = t.attrTypes.length
    · rw [if_pos hi, if_pos hi]
      exact ⟨rfl, ⟨rfl, rfl⟩, rfl⟩
    · rw [if_neg hi, if_neg hi]
      exact ⟨rfl, ⟨rfl, rfl⟩, rfl⟩

/-- A file that ends behind a field terminator is at its end for the reader. -/
theorem read_dangling (hf : f.Plain) (ht : t.Plain) (hshort : r.ended.length < t.attrTypes.length)
    (hopen : r.closed = false) (hlast : r.last = []) (hd : d.At r.text) :
    (readOneRecord f t d slot).nRet = .endOfFile := by
  obtain ⟨input, token⟩ := d
  obtain ⟨rfl, htext⟩ := hd
  rw [FileRow.text, hopen, hlast] at htext
  obtain ⟨input', fuel, hdelivered, hread⟩ := @readOneRecord_fields f t input _ r.ended slot hf ht
    r.field_ends hshort htext
  rw [hread, readFrom, getToken_empty hdelivered]
  simp only [readLoop, if_neg hshort.not_ge]

/-- The columns are used up: the reader stands behind the terminator of the last one. -/
theorem read_full (hf : f.Plain) (ht : t.Plain) (hlong : t.attrTypes.length ≤ r.ended.length)
    (hd : d.At (r.text ++ next)) :
    ∃ input fuel, delivered input = ((r.ended.drop t.attrTypes.length).flatMap fun v =>
        v ++ f.m_FieldTerm) ++ ((r.last ++ if r.closed then f.m_RowTerm else []) ++ next) ∧
      readOneRecord f t d slot =
        (readBehind f t (t.attrTypes.length - 1) .fieldTerm ⟨input, none⟩
          (t.stored lengthOf 0 (r.ended.take t.attrTypes.length) slot)).run f t fuel
          (t.stored lengthOf 0 (r.ended.take t.attrTypes.length) slot) := by
  obtain ⟨input, token⟩ := d
  obtain ⟨rfl, htext⟩ := hd
  have hpos := ht.pos
  obtain ⟨n, hn⟩ : ∃ n, t.attrTypes.length = n + 1 := ⟨t.attrTypes.length - 1, by omega⟩
  rw [hn] at hlong ⊢
  have htake : r.ended.take (n + 1) = r.ended.take n ++ [r.ended[n]] :=
    List.take_succ_eq_append_getElem hlong
  have hlength : (r.ended.take n).length = n := List.length_take_of_le (by omega)
  rw [r.text_split (n + 1), htake, List.flatMap_append, List.flatMap_singleton, List.append_assoc,
    List.append_assoc, List.append_assoc, List.append_assoc] at htext
  obtain ⟨input', fuel, hdelivered, hread⟩ := @readOneRecord_fields f t input _ (r.ended.take n)
    slot hf ht (fun v hv => r.field_ends v (List.mem_of_mem_take hv)) (by omega) htext
  obtain ⟨input'', hafter, hfield⟩ := @readFrom_field f t n (fuel + 1) input' _ r.ended[n]
    (t.stored lengthOf 0 (r.ended.take n) slot) hf ht (r.field_ends _ (List.getElem_mem _))
    (by omega) hdelivered
  refine ⟨input'', fuel + 1, hafter, ?_⟩
  rw [hread, hlength, hfield, htake, t.stored_append, hlength, Nat.zero_add, Nat.add_sub_cancel]
  rfl

/-- Text that is left of a row stands in front of the next one. -/
theorem not_at_of_left {c : DataFile} {left : Bytes} (hleft : left ≠ [])
    (hc : delivered c.rest = left ++ next) : ¬c.At next := by
  intro hat
  have hlength := congrArg List.length (hc.symm.trans hat.2)
  rw [List.length_append] at hlength
  have hpos := List.length_pos_of_ne_nil hleft
  omega

theorem flatMap_field_eq_nil (hf : f.Plain) {vs : List Bytes} :
    (vs.flatMap fun v => v ++ f.m_FieldTerm) = [] ↔ vs = [] := by
  cases vs with
  | nil => simp
  | cons v vs => simp [hf.field_ne]

/-- What is left of a row behind its field `m`. -/
theorem left_eq_nil (hf : f.Plain) {m : Nat} (hm : m ≤ r.ended.length) :
    ((r.ended.drop m).flatMap fun v => v ++ f.m_FieldTerm) ++
        (r.last ++ if r.closed then f.m_RowTerm else []) = [] ↔
      r.ended.length = m ∧ r.last = [] ∧ r.closed = false := by
  rw [List.append_eq_nil_iff, flatMap_field_eq_nil hf, List.append_eq_nil_iff,
    List.drop_eq_nil_iff]
  have hclosed : (if r.closed = true then f.m_RowTerm else []) = [] ↔ r.closed = false := by
    cases r.closed with
    | true => simp [hf.row_ne]
    | false => simp
  rw [hclosed]
  constructor
  · intro h
    exact ⟨by omega, h.2⟩
  · intro h
    exact ⟨by omega, h.2⟩

theorem at_left (hf : f.Plain) {c : DataFile} {m : Nat} (hm : m ≤ r.ended.length)
    (hnone : c.eNextToken = none)
    (hc : delivered c.rest = (((r.ended.drop m).flatMap fun v => v ++ f.m_FieldTerm) ++
      (r.last ++ if r.closed then f.m_RowTerm else [])) ++ next) :
    c.At next ↔ r.ended.length = m ∧ r.last = [] ∧ r.closed = false := by
  rw [← left_eq_nil hf hm]
  constructor
  · intro hat
    by_contra hleft
    exact not_at_of_left hleft hc hat
  · intro hleft
    rw [hleft] at hc
    exact ⟨hnone, hc⟩

/-- Without `-informix`, the terminator of the last column is an error. -/
theorem read_beyond (hf : f.Plain) (ht : t.Plain) (hlong : t.attrTypes.length ≤ r.ended.length)
    (hplain : t.mInformix = false) (hd : d.At (r.text ++ next)) :
    (readOneRecord f t d slot).nRet = .error ∧
      ((readOneRecord f t d slot).file.At next ↔
        r.ended.length = t.attrTypes.length ∧ r.last = [] ∧ r.closed = false) := by
  have hpos := ht.pos
  obtain ⟨input, fuel, hdelivered, hread⟩ := @read_full f t r next d slot hf ht hlong hd
  rw [hread, readBehind_long (by omega) hplain]
  refine ⟨rfl, at_left hf hlong rfl ?_⟩
  rw [List.append_assoc]
  exact hdelivered

/-- With `-informix`, the row ends behind the terminator of the last column. -/
theorem read_terminated (hf : f.Plain) (ht : t.Plain)
    (hlength : r.ended.length = t.attrTypes.length) (hinformix : t.mInformix = true)
    (hlast : r.last = []) (hend : r.closed = true ∨ next = []) (hd : d.At (r.text ++ next)) :
    (readOneRecord f t d slot).nRet = .record ∧ (readOneRecord f t d slot).file.At next ∧
      (readOneRecord f t d slot).row = t.stored lengthOf 0 r.ended slot := by
  have hpos := ht.pos
  obtain ⟨input, fuel, hdelivered, hread⟩ := @read_full f t r next d slot hf ht hlength.ge hd
  have hi : t.attrTypes.length - 1 + 1 = t.attrTypes.length := by omega
  rw [← hlength, List.drop_length, List.flatMap_nil, List.nil_append, hlast,
    List.nil_append] at hdelivered
  rw [hread, readBehind_last hi hinformix, ← hlength, List.take_length]
  by_cases hclosed : r.closed = true
  · rw [if_pos hclosed] at hdelivered
    have hends := r.row_ends hclosed
    rw [hlast] at hends
    obtain ⟨input', hafter, htoken⟩ := @getToken_term f .rowTerm input [] next hf hends
      (Or.inr rfl) hdelivered
    rw [htoken, readTerm, if_pos rfl]
    simp only [reduceCtorEq, if_false, ne_eq, not_true_eq_false]
    rw [ReadStep.run, readLoop_end (by omega)]
    exact ⟨rfl, ⟨rfl, hafter⟩, rfl⟩
  · obtain rfl := hend.resolve_left hclosed
    rw [if_neg hclosed] at hdelivered
    rw [getToken_empty hdelivered]
    exact ⟨rfl, ⟨rfl, rfl⟩, rfl⟩

/-- With `-informix`, anything else behind that terminator is an error. -/
theorem read_exceeding (hf : f.Plain) (ht : t.Plain)
    (hlong : t.attrTypes.length ≤ r.ended.length) (hinformix : t.mInformix = true)
    (hmore : r.ended.length = t.attrTypes.length → r.last ≠ [])
    (hend : r.closed = true ∨ next = []) (hd : d.At (r.text ++ next)) :
    (readOneRecord f t d slot).nRet = .error ∧
      ((readOneRecord f t d slot).file.At next ↔
        r.ended.length = t.attrTypes.length + 1 ∧ r.ended.getLast? = some [] ∧ r.last = [] ∧
          r.closed = false) := by
  have hpos := ht.pos
  obtain ⟨input, fuel, hdelivered, hread⟩ := @read_full f t r next d slot hf ht hlong hd
  have hi : t.attrTypes.length - 1 + 1 = t.attrTypes.length := by omega
  rw [hread, readBehind_last hi hinformix]
  by_cases hlength : r.ended.length = t.attrTypes.length
  · have hlast := hmore hlength
    rw [← hlength, List.drop_length, List.flatMap_nil, List.nil_append] at hdelivered
    have hvalue : ∃ token, ∃ c, getToken f ⟨input, none⟩ = (.value, r.last, ⟨c, some token⟩) := by
      by_cases hclosed : r.closed = true
      · rw [if_pos hclosed, List.append_assoc] at hdelivered
        obtain ⟨input', -, htoken⟩ := @getToken_term f .rowTerm input r.last next hf
          (r.row_ends hclosed) (Or.inr rfl) hdelivered
        rw [readTerm, if_neg hlast] at htoken
        exact ⟨_, _, htoken⟩
      · obtain rfl := hend.resolve_left hclosed
        rw [if_neg hclosed, List.append_nil, List.append_nil] at hdelivered
        have hquiet := (r.file_ends (Bool.eq_false_of_not_eq_true hclosed)).1
        have hfits := r.fits r.last (List.mem_append_right _ List.mem_cons_self)
        exact ⟨_, _, getToken_end hf hquiet hlast (hfits.trans (by decide)) hdelivered⟩
    obtain ⟨token, c, htoken⟩ := hvalue
    rw [htoken]
    refine ⟨rfl, iff_of_false ?_ ?_⟩
    · intro hat
      cases hat.1
    · intro h
      omega
  · have hlt : t.attrTypes.length < r.ended.length := by omega
    have hmem := List.getElem_mem hlt
    have hfinal : r.ended.length = t.attrTypes.length + 1 →
        r.ended.getLast? = some r.ended[t.attrTypes.length] := by
      intro h
      rw [List.getLast?_eq_getElem?, h, Nat.add_sub_cancel, List.getElem?_eq_getElem hlt]
    rw [List.drop_eq_getElem_cons hlt, List.flatMap_cons, List.append_assoc,
      List.append_assoc] at hdelivered
    obtain ⟨input', hafter, htoken⟩ := @getToken_term f .fieldTerm input _ _ hf
      (r.field_ends _ hmem) (Or.inl rfl) hdelivered
    rw [htoken, readTerm]
    by_cases hempty : r.ended[t.attrTypes.length] = []
    · rw [if_pos hempty]
      refine ⟨rfl, ?_⟩
      show DataFile.At ⟨input', none⟩ next ↔ _
      rw [at_left hf hlt rfl (by rw [List.append_assoc]; exact hafter)]
      constructor
      · intro h
        refine ⟨h.1, ?_, h.2⟩
        rw [hfinal h.1, hempty]
      · intro h
        exact ⟨h.1, h.2.2⟩
    · rw [if_neg hempty]
      refine ⟨rfl, iff_of_false ?_ ?_⟩
      · intro hat
        cases hat.1
      · intro h
        have hlast := h.2.1
        rw [hfinal h.1] at hlast
        exact hempty (Option.some.inj hlast)

/-- The slot holds the fields. -/
theorem own_of_stored {vs : List Bytes} {row : Row} (hrow : row = t.stored lengthOf 0 vs slot)
    (hnul : ∀ v ∈ vs, 0 ∉ v) {j : Nat} (hj : j < vs.length) :
    t.value row j = vs.getD j [] ∧ row.attrLen j = lengthOf (vs.getD j []) := by
  have hstored := t.stored_at lengthOf 0 vs slot hj
  have hmem : vs.getD j [] ∈ vs := by
    rw [List.getD_eq_getElem _ _ hj]
    exact List.getElem_mem hj
  rw [Nat.zero_add, cString_clean (hnul _ hmem)] at hstored
  rw [hrow]
  exact hstored

theorem FileRow.fields_length (r : FileRow f) (mInformix : Bool) :
    (r.fields mInformix).length =
      if mInformix = true ∧ r.last = [] then r.ended.length else r.ended.length + 1 := by
  unfold FileRow.fields
  split
  · rfl
  · exact List.length_append

/-- The reader's verdict on a row and the place where it leaves it. -/
def Reads (t : Table) (r : FileRow f) (next : Bytes) (out : ReadEnd) : Prop :=
  Judged t r out ∧ out.file.At next

/-- A row that the columns are enough for. -/
theorem reads_within (hf : f.Plain) (ht : t.Plain) (hshort : r.ended.length < t.attrTypes.length)
    (hend : r.closed = true ∨ r.last ≠ [] ∧ next = []) (hd : d.At (r.text ++ next)) :
    Reads t r next (readOneRecord f t d slot) ↔
      ¬(t.mInformix = true ∧ r.last = [] ∧ r.ended.length + 1 = t.attrTypes.length) := by
  obtain ⟨hret, hat, hrow⟩ := @read_within f t r next d slot hf ht hshort hend hd
  rw [Reads, and_iff_left hat]
  have hfields := r.fields_length t.mInformix
  by_cases hdrop : t.mInformix = true ∧ r.last = []
  · rw [if_pos hdrop] at hfields
    have herror : ¬(r.fields t.mInformix).length = t.attrTypes.length := by omega
    constructor
    · intro hjudged hbad
      have hverdict := hjudged.verdict
      rw [hret, if_pos hbad.2.2, if_neg herror] at hverdict
      cases hverdict
    · intro hgood
      have hless : ¬r.ended.length + 1 = t.attrTypes.length := fun h => hgood ⟨hdrop.1, hdrop.2, h⟩
      rw [if_neg hless] at hret
      refine ⟨by rw [hret, if_neg herror], ?_⟩
      intro hrecord
      cases hret.symm.trans hrecord
  · rw [if_neg hdrop] at hfields
    refine iff_of_true ⟨by rw [hret, hfields], ?_⟩ fun hbad => hdrop ⟨hbad.1, hbad.2.1⟩
    intro hrecord j hj
    rw [hret] at hrecord
    split at hrecord
    · next hn =>
      rw [FileRow.fields, if_neg hdrop]
      exact own_of_stored hrow r.noNul (by rw [List.length_append]; simp; omega)
    · cases hrecord

/-- An error is right for a row that has not as many fields as there are columns. -/
theorem reads_of_error {out : ReadEnd} (hret : out.nRet = .error)
    (hfields : (r.fields t.mInformix).length ≠ t.attrTypes.length) :
    Reads t r next out ↔ out.file.At next := by
  refine and_iff_right ⟨by rw [hret, if_neg hfields], ?_⟩
  intro hrecord
  cases hret.symm.trans hrecord

/-- A row that the columns are not enough for. -/
theorem reads_beyond (hf : f.Plain) (ht : t.Plain) (hlong : t.attrTypes.length ≤ r.ended.length)
    (hend : r.closed = true ∨ next = []) (hd : d.At (r.text ++ next)) :
    Reads t r next (readOneRecord f t d slot) ↔
      r.last = [] ∧ (r.ended.length = t.attrTypes.length ∧
          (r.closed = false ∨ t.mInformix = true) ∨
        r.closed = false ∧ t.mInformix = true ∧ r.ended.length = t.attrTypes.length + 1 ∧
          r.ended.getLast? = some []) := by
  have hfields := r.fields_length t.mInformix
  cases hinformix : t.mInformix with
  | false =>
    rw [hinformix, if_neg (by simp)] at hfields
    obtain ⟨hret, hat⟩ := @read_beyond f t r next d slot hf ht hlong hinformix hd
    rw [reads_of_error hret (by rw [hinformix]; omega), hat]
    simp [and_left_comm]
  | true =>
    by_cases hlast : r.last = []
    · rw [hinformix, if_pos ⟨rfl, hlast⟩] at hfields
      by_cases hlength : r.ended.length = t.attrTypes.length
      · obtain ⟨hret, hat, hrow⟩ := @read_terminated f t r next d slot hf ht hlength hinformix
          hlast hend hd
        have hown : r.fields t.mInformix = r.ended := if_pos ⟨hinformix, hlast⟩
        refine iff_of_true ⟨⟨?_, ?_⟩, hat⟩ ⟨hlast, Or.inl ⟨hlength, Or.inr rfl⟩⟩
        · rw [hret, hown, if_pos hlength]
        · intro _ j hj
          rw [hown]
          apply own_of_stored hrow
          · exact fun v hv => r.noNul v (List.mem_append_left _ hv)
          · exact hlength ▸ hj
      · obtain ⟨hret, hat⟩ := @read_exceeding f t r next d slot hf ht hlong hinformix
          (fun h => absurd h hlength) hend hd
        rw [reads_of_error hret (by rw [hinformix]; omega), hat]
        simp only [hlast, hlength, false_and, false_or, true_and]
        tauto
    · obtain ⟨hret, hat⟩ := @read_exceeding f t r next d slot hf ht hlong hinformix
        (fun _ => hlast) hend hd
      rw [hinformix, if_neg (fun h => hlast h.2)] at hfields
      rw [reads_of_error hret (by rw [hinformix]; omega), hat]
      simp [hlast]

/-- The reader comes to the end of a row with the right result exactly if it is readable. -/
theorem reads_iff (hf : f.Plain) (ht : t.Plain) (hend : r.closed = true ∨ next = [])
    (hd : d.At (r.text ++ next)) : Reads t r next (readOneRecord f t d slot) ↔
      r.Readable t.mInformix t.attrTypes.length := by
  by_cases hshort : r.ended.length < t.attrTypes.length
  · by_cases hdangling : r.closed = false ∧ r.last = []
    · obtain ⟨hopen, hlast⟩ := hdangling
      obtain rfl := hend.resolve_left (by simp [hopen])
      rw [List.append_nil] at hd
      have hret := @read_dangling f t r d slot hf ht hshort hopen hlast hd
      apply iff_of_false
      · intro hreads
        have hverdict := hreads.1.verdict
        rw [hret] at hverdict
        split at hverdict <;> cases hverdict
      · simp only [FileRow.Readable, hlast, hopen]
        simp
        omega
    · have hwhole : r.closed = true ∨ r.last ≠ [] ∧ next = [] := by
        cases hclosed : r.closed with
        | true => exact Or.inl rfl
        | false =>
          refine Or.inr ⟨fun hlast => hdangling ⟨hclosed, hlast⟩, ?_⟩
          exact hend.resolve_left (by simp [hclosed])
      rw [reads_within hf ht hshort hwhole hd]
      unfold FileRow.Readable
      by_cases hlast : r.last = []
      · have hclosed : r.closed = true := hwhole.resolve_right fun h => h.1 hlast
        cases t.mInformix with
        | false => simp [hlast, hclosed, hshort]
        | true =>
          simp only [hlast, hclosed, ne_eq, not_true_eq_false, true_and, false_or, if_true,
            reduceCtorEq, if_false]
          omega
      · simp [hlast, hshort]
  · rw [reads_beyond hf ht (Nat.le_of_not_lt hshort) hend hd]
    unfold FileRow.Readable
    by_cases hlast : r.last = []
    · cases hclosed : r.closed with
      | false => simp [hlast]
      | true =>
        cases t.mInformix with
        | false => simp [hlast, hshort]
        | true =>
          simp [hlast]
          omega
    · simp [hlast, hshort]

end rows

/-! ## Files -/

theorem Resynchronised.at {rows : List (FileRow f)} {d : DataFile}
    (h : Resynchronised t rows d) : d.At (rowsText rows) := by
  cases rows with
  | nil => exact h.1
  | cons r rows => exact h.1

theorem read_end (ht : t.Plain) {d : DataFile} (hd : d.At []) (slot : Row) :
    (readOneRecord f t d slot).nRet = .endOfFile := by
  obtain ⟨input, token⟩ := d
  obtain ⟨rfl, hdelivered⟩ := hd
  rw [readOneRecord_plain ht, readFrom, getToken_empty hdelivered]
  simp only [readLoop, if_neg ht.pos.not_ge]

theorem resynchronised_rows (hf : f.Plain) (ht : t.Plain) {rows : List (FileRow f)}
    (hrows : ∀ r ∈ rows.dropLast, r.closed = true) {d : DataFile} (hd : d.At (rowsText rows)) :
    Resynchronised t rows d ↔ ∀ r ∈ rows, r.Readable t.mInformix t.attrTypes.length := by
  induction rows generalizing d with
  | nil => exact iff_of_true ⟨hd, read_end ht hd⟩ fun _ hr => absurd hr List.not_mem_nil
  | cons r rows ih =>
    have hend : r.closed = true ∨ rowsText rows = [] := by
      cases rows with
      | nil => exact Or.inr rfl
      | cons s rows => exact Or.inl (hrows r List.mem_cons_self)
    have hrest : ∀ s ∈ rows.dropLast, s.closed = true := by
      intro s hs
      apply hrows
      cases rows with
      | nil => cases hs
      | cons s' rows => exact List.mem_cons_of_mem r hs
    have htext : rowsText (r :: rows) = r.text ++ rowsText rows := List.flatMap_cons
    have hat := htext ▸ hd
    have hfirst : ∀ slot, Reads t r (rowsText rows) (readOneRecord f t d slot) ↔
        r.Readable t.mInformix t.attrTypes.length := fun slot => reads_iff hf ht hend hat
    rw [Resynchronised, and_iff_right hd, List.forall_mem_cons]
    constructor
    · intro h
      have hcall := h Transfer.blank
      have hreads := (hfirst Transfer.blank).mp ⟨hcall.1, hcall.2.at⟩
      exact ⟨hreads, (ih hrest hcall.2.at).mp hcall.2⟩
    · intro h slot
      have hreads := (hfirst slot).mpr h.1
      exact ⟨hreads.1, (ih hrest hreads.2).mpr h.2⟩

/-- Every row of a file is read for itself, exactly if the reader comes to the end of each of
them. -/
theorem resynchronised_iff (hf : f.Plain) (ht : t.Plain) (x : FileRows f) {d : DataFile}
    (hd : d.At (rowsText x.rows)) :
    Resynchronised t x.rows d ↔ ∀ r ∈ x.rows, r.Readable t.mInformix t.attrTypes.length :=
  resynchronised_rows hf ht x.closed hd

/-- The default terminators. -/
def caretLines : Format := ⟨[94], [10], none⟩

theorem caretLines_plain : caretLines.Plain := ⟨rfl, by decide, by decide⟩

/-- A number and a name. -/
def twoColumns : Table := ⟨[.integer, .varchar], false, false⟩

theorem twoColumns_plain : twoColumns.Plain := ⟨by decide, fun _ => by decide⟩

theorem caretLines_quiet {c : UInt8} (hfield : c ≠ 94) (hrow : c ≠ 10) :
    caretLines.Quiet [c] := by
  apply (caretLines.quiet_nil caretLines_plain).concat
  intro hstop
  cases hstop with
  | inl h => exact hfield (List.singleton_inj.mp (h.2.eq_of_length rfl)).symm
  | inr h => exact hrow (List.singleton_inj.mp (h.2.eq_of_length rfl)).symm

/-- A row of one character a field. -/
def caretRow (ended : List UInt8) (last : UInt8)
    (h : ∀ c ∈ ended ++ [last], c ≠ 94 ∧ c ≠ 10 ∧ c ≠ 0) : FileRow caretLines where
  ended := ended.map fun c => [c]
  last := [last]
  closed := true
  field_ends v hv := by
    obtain ⟨c, hc, rfl⟩ := List.mem_map.mp hv
    have hchar := h c (List.mem_append_left _ hc)
    refine ⟨by decide, caretLines_quiet hchar.1 hchar.2.1, ?_, Nat.lt_of_sub_eq_succ rfl⟩
    intro heq
    cases heq
  row_ends _ := by
    have hchar := h last (List.mem_append_right _ List.mem_cons_self)
    refine ⟨by decide, caretLines_quiet hchar.1 hchar.2.1, ?_, Nat.lt_of_sub_eq_succ rfl⟩
    intro _ hfound
    obtain ⟨u, hu⟩ := hfound.2
    exact absurd (List.append_inj' hu rfl).2 (by decide)
  file_ends heq := by cases heq
  noNul v hv := by
    rw [← List.map_singleton (f := fun c => [c]), ← List.map_append] at hv
    obtain ⟨c, hc, rfl⟩ := List.mem_map.mp hv
    simpa using (h c hc).2.2.symm
  fits v hv := by
    rw [← List.map_singleton (f := fun c => [c]), ← List.map_append] at hv
    obtain ⟨c, hc, rfl⟩ := List.mem_map.mp hv
    exact Nat.lt_of_sub_eq_succ rfl

/-- A row that is too short, and the row behind it. -/
theorem resynchronised_short : Resynchronised twoColumns
    [caretRow [] 49 (by simp), caretRow [50] 51 (by simp)]
      ⟨[49, 10, 50, 94, 51, 10], none⟩ := by
  refine (resynchronised_iff caretLines_plain twoColumns_plain
    ⟨[caretRow [] 49 (by simp), caretRow [50] 51 (by simp)], ?_⟩ ?_).mpr ?_
  · simp [caretRow]
  · exact ⟨rfl, by decide⟩
  · simp [FileRow.Readable, caretRow, twoColumns]

/-- A row that is too long leaves its last field to the next call. -/
theorem not_resynchronised_long : ¬Resynchronised twoColumns
    [caretRow [49, 50] 51 (by simp)] ⟨[49, 94, 50, 94, 51, 10], none⟩ := by
  intro h
  have hat := (h.2 Transfer.blank).2.at
  exact absurd hat.2 (by decide)

end Natc.Ploader
