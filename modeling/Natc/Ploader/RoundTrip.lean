import Mathlib.Data.List.Perm.Subperm
import Natc.Ploader.Records

/-!
# Round trip of the data file

Without an enclosing a value ends where a terminator begins, and an empty one is a NULL.
-/

namespace Natc.Ploader

/-- The indicator of a value that is read between terminators. -/
def lengthOf (v : Bytes) : AttrLen :=
  if v = [] then .nullData else .nts

theorem enclose_plain {f : Format} (hplain : f.m_Enclosing = none) (v : Bytes) :
    f.enclose v = v := by
  rw [Format.enclose, hplain, Option.getD_none, List.nil_append, List.append_nil]

section columns

variable {f : Format} {t : Table} {i fuel : Nat} {v rest : Bytes} {row : Row}

/-- A value and the terminator behind it, and then the checks behind the column. -/
theorem readLoop_term {tk : DataToken} {term : Bytes} (htk : tk = .fieldTerm ∨ tk = .rowTerm)
    (hi : i < t.attrTypes.length) (hadd : i + 1 < t.attrTypes.length → t.added (i + 1) = false) :
    readLoop f t (fuel + 1) i (readTerm tk term v rest).1 (readTerm tk term v rest).2.1
        (readTerm tk term v rest).2.2 row =
      (readBehind f t i tk ⟨rest, none⟩ (t.setAttr i v (lengthOf v) row)).run f t fuel
        (t.setAttr i v (lengthOf v) row) := by
  have hskip : ¬(i + 1 < t.attrTypes.length ∧ t.added (i + 1) = true) := by
    intro h
    rw [hadd h.1] at h
    cases h.2
  by_cases hnil : v = []
  · subst hnil
    rcases htk with rfl | rfl
    · simp only [readTerm, if_true, readLoop, if_neg hi.not_ge, lengthOf]
      rfl
    · simp only [readTerm, if_true, readLoop, if_neg hi.not_ge, lengthOf]
      rfl
  · simp only [readTerm, if_neg hnil, readLoop, if_neg hi.not_ge, lengthOf, getToken_next,
      if_neg hskip]
    rfl

theorem readsField (hf : f.Separate) (hplain : f.m_Enclosing = none)
    (hascii : ascii f.m_FieldTerm) (hv : f.Clean v) : ReadsField f t lengthOf v := by
  intro i fuel rest row hi hadd hnext
  rw [enclose_plain hplain, readFrom, getToken_field hf hplain hascii hv,
    readLoop_term (Or.inl rfl) (by omega) (fun _ => hnext), readBehind_field hi hadd]
  rfl

theorem readsLast (hf : f.Separate) (hplain : f.m_Enclosing = none) (hrow : ascii f.m_RowTerm)
    (hfield : t.mInformix = true → ascii f.m_FieldTerm) (hv : f.Clean v) :
    ReadsLast f t lengthOf v := by
  intro i fuel rest row hi
  have hskip : i + 1 < t.attrTypes.length → t.added (i + 1) = false := fun h => by omega
  cases hinformix : t.mInformix with
  | false =>
    have htext : joined f false [v] ++ rest = v ++ (f.m_RowTerm ++ rest) := by
      simp [joined, enclose_plain hplain]
    rw [htext, readFrom, getToken_row hf hplain hrow hv,
      readLoop_term (Or.inr rfl) (by omega) hskip, readBehind_row hi]
    exact hi ▸ readLoop_end hi.ge
  | true =>
    have htext : joined f true [v] ++ rest =
        v ++ (f.m_FieldTerm ++ (f.m_RowTerm ++ rest)) := by
      simp [joined, enclose_plain hplain]
    have hnext : getToken f ⟨f.m_RowTerm ++ rest, none⟩ =
        (.rowTerm, f.m_RowTerm, ⟨rest, none⟩) :=
      getToken_row hf hplain hrow f.clean_nil
    rw [htext, readFrom, getToken_field hf hplain (hfield hinformix) hv,
      readLoop_term (Or.inl rfl) (by omega) hskip,
      readBehind_informix hi hinformix (congrArg Prod.fst hnext), hnext]
    exact hi ▸ readLoop_end hi.ge

end columns

/-- Some character is in neither terminator. -/
theorem exists_clean {f : Format} (hf : f.Separate) : ∃ c : UInt8, f.Clean [c] := by
  by_contra hnone
  have hsubset : ((List.range 23).map UInt8.ofNat) ⊆
      f.m_FieldTerm ++ f.m_RowTerm ++ [carriageReturn, 0] := by
    intro c _
    by_contra hc
    simp only [List.mem_append, List.mem_cons, List.not_mem_nil, or_false, not_or] at hc
    apply hnone
    refine ⟨c, ?_, ?_, ?_, ?_, by simp⟩
    · simpa using hc.1.1
    · simpa using hc.1.2
    · simpa using Ne.symm hc.2.1
    · simpa using Ne.symm hc.2.2
  have hnodup : ((List.range 23).map UInt8.ofNat).Nodup := by decide
  have hlength := (List.subperm_of_subset hnodup hsubset).length_le
  have hfield := hf.field_length
  have hrow := hf.row_length
  simp only [List.length_append, List.length_map, List.length_range, List.length_cons,
    List.length_nil] at hlength
  omega

namespace Transfer

variable (x : Transfer)

/-- The slot holds the values of the record, an empty one as NULL. -/
def Holds (r : List Bytes) (row : Row) : Prop :=
  x.Same r row ∧ x.Indicated lengthOf r row

/-- A record of the table that the file can hold. -/
structure Fits (r : List Bytes) : Prop where
  length : r.length = x.table.attrTypes.length
  clean : ∀ v ∈ r, x.format.Clean v

/-- What the round trip rests on. -/
structure Faithful : Prop where
  printed : x.Printed
  /-- The terminators that the file holds are found. -/
  row : ascii x.format.m_RowTerm
  field : ascii x.format.m_FieldTerm ∨
    x.table.attrTypes.length = 1 ∧ x.table.mInformix = false
  unadded : x.Unadded

/-- A file that is read back. -/
def Lawful : Prop :=
  x.Returns x.Fits x.Holds

variable {x}

theorem Faithful.lawful (hf : x.format.Separate) (hplain : x.format.m_Enclosing = none)
    (h : x.Faithful) : x.Lawful := by
  intro records hfits
  apply readsBack h.printed h.unadded
  · exact fun r hr => (hfits r hr).length
  · exact fun r hr v hv => ((hfits r hr).clean v hv).noNul
  · intro hmany r hr v hv
    have hascii := h.field.resolve_right fun hone => by omega
    exact readsField hf hplain hascii ((hfits r hr).clean v hv)
  · intro r hr v hv
    apply readsLast hf hplain h.row
    · intro hinformix
      exact h.field.resolve_right fun hone => by simp [hinformix] at hone
    · exact (hfits r hr).clean v hv

/-! ## What is not read back -/

theorem fits_replicate {v : Bytes} (hv : x.format.Clean v) :
    x.Fits (List.replicate x.table.attrTypes.length v) :=
  ⟨List.length_replicate, fun _ hu => (List.eq_of_mem_replicate hu) ▸ hv⟩

theorem Lawful.same (h : x.Lawful) : x.Returns x.Fits x.Same :=
  fun records hfits => (h records hfits).mono fun _ _ => And.left

theorem Lawful.printed (hf : x.format.Separate) (h : x.Lawful) : x.Printed := by
  obtain ⟨c, hc⟩ := exists_clean hf
  apply h.same.printed (List.cons_ne_nil c []) (fits_replicate x.format.clean_nil)
  intro j
  have hfits := fits_replicate (x := x) x.format.clean_nil
  refine ⟨by rw [List.length_set, hfits.length], fun v hv => ?_⟩
  rcases List.mem_or_eq_of_mem_set hv with hv | rfl
  · exact hfits.clean v hv
  · exact hc

theorem delivered_terms {f : Format} (hf : f.Separate) (hplain : f.m_Enclosing = none)
    (mInformix : Bool) (n : Nat) :
    delivered (joined f mInformix (List.replicate n [])) =
      joined f mInformix (List.replicate n []) := by
  have hempty := enclose_plain hplain []
  apply delivered_eq_self
  induction n with
  | zero => exact List.not_mem_nil
  | succ n ih =>
    cases n with
    | zero => cases mInformix <;> simp [joined, hempty, hf.field_char, hf.row_char]
    | succ n =>
      have hcons : joined f mInformix (List.replicate (n + 1 + 1) []) =
          f.enclose [] ++ (f.m_FieldTerm ++ joined f mInformix (List.replicate (n + 1) [])) := rfl
      rw [hcons, hempty, List.nil_append, List.mem_append, not_or]
      exact ⟨hf.field_char, ih⟩

theorem terms_ne {f : Format} (hf : f.Separate) (a b : Bytes) :
    f.m_FieldTerm ++ a ≠ f.m_RowTerm ++ b := by
  intro heq
  cases hfield : f.m_FieldTerm with
  | nil => exact hf.field_ne hfield
  | cons c field =>
    cases hrow : f.m_RowTerm with
    | nil => exact hf.row_ne hrow
    | cons d row =>
      rw [hfield, hrow, List.cons_append, List.cons_append] at heq
      apply hf.disjoint c
      · rw [hfield]
        exact List.mem_cons_self
      · rw [hrow, (List.cons.inj heq).1]
        exact List.mem_cons_self

/-- A field terminator that is not found is taken for a value. -/
theorem getToken_blindField {f : Format} (hf : f.Separate)
    (hblind : ¬ascii f.m_FieldTerm) {rest : Bytes}
    (hrest : delivered (f.m_FieldTerm ++ rest) = f.m_FieldTerm ++ rest) :
    (getToken f ⟨f.m_FieldTerm ++ rest, none⟩).1 = .value ∨
      (getToken f ⟨f.m_FieldTerm ++ rest, none⟩).1 = .eof := by
  have hne : delivered (f.m_FieldTerm ++ rest) ≠ [] := by
    rw [hrest]
    exact List.append_ne_nil_of_left_ne_nil hf.field_ne rest
  have htaken := getToken_taken hf.toApart hne
  rw [hrest] at htaken
  generalize getToken f ⟨f.m_FieldTerm ++ rest, none⟩ = token at htaken
  cases htaken with
  | overflow => exact Or.inr rfl
  | field _ hascii => exact absurd hascii hblind
  | row _ _ heq => exact absurd heq (terms_ne hf _ _)
  | valueField => exact Or.inl rfl
  | valueRow => exact Or.inl rfl
  | valueEnd => exact Or.inl rfl
  | enclosed => exact Or.inl rfl

/-- So is a row terminator. -/
theorem getToken_blindRow {f : Format} (hf : f.Separate)
    (hblind : ¬ascii f.m_RowTerm) : (getToken f ⟨f.m_RowTerm, none⟩).1 = .value := by
  have hself : delivered f.m_RowTerm = f.m_RowTerm := delivered_eq_self hf.row_char
  have htaken := getToken_taken hf.toApart (hself.symm ▸ hf.row_ne)
  rw [hself] at htaken
  have hlength := hf.row_length
  have hno : ∀ v rest, f.m_RowTerm ≠ v ++ (f.m_FieldTerm ++ rest) := by
    intro v rest heq
    have hpos := List.length_pos_of_ne_nil hf.field_ne
    apply hf.disjoint _ (List.getElem_mem hpos)
    rw [heq]
    exact List.mem_append_right _ (List.mem_append_left _ (List.getElem_mem hpos))
  generalize getToken f ⟨f.m_RowTerm, none⟩ = token at htaken
  cases htaken with
  | overflow _ _ hover =>
    rw [maxTokenValueLen] at hover
    omega
  | field _ _ heq => exact absurd heq (hno [] _)
  | row _ hascii => exact absurd hascii hblind
  | valueField _ _ _ heq => exact absurd heq (hno _ _)
  | valueRow _ _ hascii => exact absurd hascii hblind
  | valueEnd => rfl
  | enclosed => rfl

/-- A column that is read as a value, or not at all, is not a NULL. -/
theorem readLoop_notNull {f : Format} {t : Table} {i fuel : Nat} {eToken : DataToken}
    {text : Bytes} {d : DataFile} {row : Row} (hi : i < t.attrTypes.length)
    (htoken : eToken = .value ∨ eToken = .eof)
    (hrecord : (readLoop f t (fuel + 1) i eToken text d row).nRet = .record) :
    (readLoop f t (fuel + 1) i eToken text d row).row.attrLen i = .nts := by
  rcases htoken with rfl | rfl
  · exact (readLoop_value fuel hi).2
  · rw [readLoop.eq_def] at hrecord
    simp only [if_neg hi.not_ge] at hrecord
    cases hrecord

/-- A field terminator in the file has to be found. -/
theorem Lawful.field (hf : x.format.Separate) (hplain : x.format.m_Enclosing = none)
    (h : x.Lawful) : ascii x.format.m_FieldTerm ∨
      x.table.attrTypes.length = 1 ∧ x.table.mInformix = false := by
  by_contra hnot
  rw [not_or] at hnot
  obtain ⟨hblind, hwritten⟩ := hnot
  have hpos := x.attrTypes_pos
  have hread := h.first (h.printed hf) [] (by simpa using fits_replicate x.format.clean_nil)
    List.length_replicate blank rfl
  have htext : ∃ rest, joined x.format x.table.mInformix
      (List.replicate x.table.attrTypes.length []) = x.format.m_FieldTerm ++ rest := by
    have hempty := enclose_plain hplain []
    cases hn : x.table.attrTypes.length with
    | zero => omega
    | succ n =>
      cases n with
      | zero =>
        have hinformix : x.table.mInformix = true := by simpa [hn] using hwritten
        rw [hinformix]
        exact ⟨x.format.m_RowTerm, by simp [joined, hempty]⟩
      | succ n =>
        have hcons : joined x.format x.table.mInformix (List.replicate (n + 1 + 1) []) =
            x.format.enclose [] ++ (x.format.m_FieldTerm ++
              joined x.format x.table.mInformix (List.replicate (n + 1) [])) := rfl
        exact ⟨_, by rw [hcons, hempty, List.nil_append]⟩
  obtain ⟨rest, hrest⟩ := htext
  have hdelivered := delivered_terms hf hplain x.table.mInformix x.table.attrTypes.length
  have hfile : x.file [] = [] := rfl
  rw [hfile, List.append_nil, hrest, readOneRecord_eq] at hread
  rw [hrest] at hdelivered
  have htoken := getToken_blindField hf hblind hdelivered
  have hstart : (if 1 < x.table.attrTypes.length ∧ x.table.added 0 = true then 1 else 0) <
      x.table.attrTypes.length := by
    split
    · next hadd => exact hadd.1
    · exact hpos
  have hlen := hread.2.2 _ hstart
  rw [List.getD_eq_getElem _ _ (by simpa using hstart), List.getElem_replicate, readFrom,
    readLoop_notNull hstart htoken hread.1] at hlen
  cases hlen

theorem Lawful.unadded (hf : x.format.Separate) (hplain : x.format.m_Enclosing = none)
    (h : x.Lawful) : x.Unadded := by
  obtain ⟨c, hc⟩ := exists_clean hf
  have hascii : 1 < x.table.attrTypes.length → ascii x.format.m_FieldTerm :=
    fun hmany => (h.field hf hplain).resolve_right fun hone => by omega
  apply h.same.unadded (List.cons_ne_nil c []) (h.printed hf) (fits_replicate hc)
  · exact fun hmany => readsField hf hplain (hascii hmany) hc
  · intro hmany rest
    rw [enclose_plain hplain, getToken_field hf hplain (hascii hmany) hc]
    rfl

/-- The row terminator has to be found. -/
theorem Lawful.row (hf : x.format.Separate) (hplain : x.format.m_Enclosing = none)
    (h : x.Lawful) : ascii x.format.m_RowTerm := by
  by_contra hblind
  have hpos := x.attrTypes_pos
  have hfield := h.field hf hplain
  have hadd := h.unadded hf hplain
  obtain ⟨n, hn⟩ : ∃ n, x.table.attrTypes.length = n + 1 :=
    ⟨x.table.attrTypes.length - 1, by omega⟩
  have hread := h.first (h.printed hf) [] (by simpa using fits_replicate x.format.clean_nil)
    List.length_replicate blank rfl
  have hreads : ∀ v ∈ List.replicate n [], ReadsField x.format x.table lengthOf v := by
    intro v hv
    have hmany := List.length_pos_of_mem hv
    rw [List.length_replicate] at hmany
    rw [List.eq_of_mem_replicate hv]
    exact readsField hf hplain (hfield.resolve_right fun hone => by omega) x.format.clean_nil
  have hrecord : List.replicate x.table.attrTypes.length ([] : Bytes) =
      List.replicate n [] ++ [[]] := by
    rw [hn, List.replicate_add]
    rfl
  have hfile : x.file [] = [] := rfl
  rw [hrecord, hfile, read_init hadd (by rw [List.length_replicate]; omega) hreads,
    List.length_replicate, List.append_nil] at hread
  have hlen := hread.2.2 n (by omega)
  rw [← hrecord, List.getD_eq_getElem _ _ (by simp [hn]), List.getElem_replicate] at hlen
  have hempty := enclose_plain hplain []
  cases hinformix : x.table.mInformix with
  | false =>
    have htext : joined x.format x.table.mInformix [[]] = x.format.m_RowTerm := by
      simp [joined, hinformix, hempty]
    rw [htext, readFrom] at hlen hread
    rw [readLoop_notNull (by omega) (Or.inl (getToken_blindRow hf hblind)) hread.1] at hlen
    cases hlen
  | true =>
    have htext : joined x.format x.table.mInformix [[]] =
        [] ++ (x.format.m_FieldTerm ++ x.format.m_RowTerm) := by
      simp [joined, hinformix, hempty]
    have hascii := hfield.resolve_right fun hone => by simp [hinformix] at hone
    rw [htext, readFrom, getToken_field hf hplain hascii x.format.clean_nil,
      readLoop_term (Or.inl rfl) (by omega) (fun h => by omega),
      readBehind_stray hn.symm hinformix (getToken_blindRow hf hblind)] at hread
    cases hread.1

/-- Without an enclosing, every file of records is read back as it was written exactly if the
terminators that the file holds begin with ASCII characters, `PrintOneRecord` knows the column types
and the reader leaves no column out. -/
theorem lawful_iff (x : Transfer) (hf : x.format.Separate)
    (hplain : x.format.m_Enclosing = none) : x.Lawful ↔ x.Faithful := by
  constructor
  · intro h
    exact ⟨h.printed hf, h.row hf hplain, h.field hf hplain, h.unadded hf hplain⟩
  · exact fun h => h.lawful hf hplain

/-- An integer and a string column, with the default terminators. -/
def plainTable : Transfer where
  format := ⟨[94], [10], none⟩
  table := ⟨[.integer, .varchar], false, false⟩
  sqlTypes := [.integer, .varchar]
  same_length := rfl
  has_columns := List.cons_ne_nil _ _

theorem plainTable_lawful : plainTable.Lawful :=
  (lawful_iff plainTable
    ⟨⟨by decide, by decide, by decide, by decide, by simp [plainTable]⟩, by decide, by decide⟩
    rfl).mpr
    ⟨by simp [Printed, plainTable, SqlType.printed], by decide, Or.inl (by decide),
      Or.inr (by decide)⟩

/-- A column of strings, with a row terminator that is not ASCII. -/
def highTerminator : Transfer where
  format := ⟨[94], [0x80], none⟩
  table := ⟨[.varchar], false, false⟩
  sqlTypes := [.varchar]
  same_length := rfl
  has_columns := List.cons_ne_nil _ _

/-- The row terminator is read as part of the value. -/
theorem highTerminator_not_read : highTerminator.format.Separate ∧
    highTerminator.format.m_Enclosing = none ∧ (∀ r ∈ [[[65]]], highTerminator.Fits r) ∧
    ¬highTerminator.ReadsBack highTerminator.Holds [[[65]]]
      ⟨highTerminator.file [[[65]]], none⟩ := by
  refine ⟨⟨⟨by decide, by decide, by decide, by decide, by simp [highTerminator]⟩, by decide,
    by decide⟩, rfl, ?_, ?_⟩
  · intro r hr
    rw [List.mem_singleton] at hr
    subst hr
    refine ⟨rfl, fun v hv => ?_⟩
    rw [List.mem_singleton] at hv
    subst hv
    exact ⟨by simp [highTerminator], by simp [highTerminator], by decide, by decide, by decide⟩
  · intro hread
    have hvalue := (hread blank).2.1.1 0 (by decide)
    exact absurd hvalue (by decide)

end Transfer

end Natc.Ploader
