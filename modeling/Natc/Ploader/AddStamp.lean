import Natc.Ploader.Resync

/-!
# A timestamp that the load adds

The data file has no field for a timestamp column with `ADD`. The reader passes over the column at
three places, and each of them looks at another neighbour: before the first column, behind a value,
and behind the token of the next column.
-/

namespace Natc.Ploader

section fields

variable (f : Format)

/-- A field and the token behind it. An empty field may have no value token. -/
def FieldAt (d : DataFile) : Option Bytes → DataToken → DataFile → Prop
  | some v, tk, next => ∃ e, getToken f d = (.value, v, e) ∧ ∃ text, getToken f e = (tk, text, next)
  | none, tk, next => ∃ text, getToken f d = (tk, text, next)

/-- The last field of a row, up to the row terminator or the end of the file. With `-informix` it
has a field terminator behind it, unless it is a value. -/
inductive LastAt (mInformix : Bool) (d : DataFile) (cell : Option Bytes) (ends : DataToken) : Prop
  | bare (next : DataFile) (lies : FieldAt f d cell ends next) (value : mInformix = true → cell ≠ none)
  | terminated (e next : DataFile) (text : Bytes) (informix : mInformix = true)
      (lies : FieldAt f d cell .fieldTerm e) (behind : getToken f e = (ends, text, next))

/-- The fields of a row as `GetToken` delivers them. -/
inductive RowAt (mInformix : Bool) (ends : DataToken) : DataFile → List (Option Bytes) → Prop
  | none {d next : DataFile} {text : Bytes} (row : ends = .rowTerm)
      (lies : getToken f d = (.rowTerm, text, next)) : RowAt mInformix ends d []
  | last {d : DataFile} {cell : Option Bytes} (lies : LastAt f mInformix d cell ends) :
      RowAt mInformix ends d [cell]
  | cons {d e : DataFile} {cell next : Option Bytes} {cells : List (Option Bytes)}
      (lies : FieldAt f d cell .fieldTerm e) (behind : RowAt mInformix ends e (next :: cells)) :
      RowAt mInformix ends d (cell :: next :: cells)

/-- A row of a data file. -/
structure DataRow (mInformix : Bool) (d : DataFile) where
  cells : List (Option Bytes)
  ends : DataToken
  closed : ends = .rowTerm ∨ ends = .eof
  lies : RowAt f mInformix ends d cells
  noNul : ∀ v, some v ∈ cells → 0 ∉ v

end fields

/-- The table has one timestamp column, and the form adds it. -/
structure Table.Adds (t : Table) (p : Nat) : Prop where
  lt : p < t.attrTypes.length
  stamp : ∀ i, i < t.attrTypes.length → (t.attrType i = .timestamp ↔ i = p)
  add : t.gAddFlag = true

/-- The column of a field. -/
def columnOf (p k : Nat) : Nat := if k < p then k else k + 1

variable {f : Format} {t : Table} {p : Nat}

/-- The call succeeds and every field is in its column. -/
def StoresRow (t : Table) (p : Nat) {d : DataFile} (r : DataRow f t.mInformix d) : Prop :=
  ∀ slot, (readOneRecord f t d slot).nRet = .record ∧ ∀ k (_ : k < r.cells.length),
    t.value (readOneRecord f t d slot).row (columnOf p k) = (r.cells.getD k none).getD []

/-- The column is the first one, or the last one behind a value. An empty last field is at fault at
the end of the file; in front of the column it is, unless a field terminator follows it. -/
def StampKept (t : Table) (p : Nat) {d : DataFile} (r : DataRow f t.mInformix d) : Prop :=
  p = 0 ∧ ¬(r.cells.getLast? = some none ∧ t.mInformix = false ∧ r.ends = .eof) ∨
    p + 1 = t.attrTypes.length ∧
      (r.cells.getLast? = some none → t.mInformix = true ∧ r.ends = .rowTerm)

/-! ## The columns around the timestamp -/

theorem Table.Adds.added (h : t.Adds p) {i : Nat} (hi : i < t.attrTypes.length) :
    t.added i = decide (i = p) := by
  rw [Table.added, h.add]
  by_cases hp : i = p
  · simp [hp, (h.stamp p h.lt).mpr rfl]
  · simp [hp, mt (h.stamp i hi).mp hp]

section columns

variable {i k fuel : Nat} {cell : Option Bytes} {cells : List (Option Bytes)} {tk : DataToken}
  {text : Bytes} {d e : DataFile} {row : Row}

/-- The indicator of a field. -/
def cellLen (cell : Option Bytes) : AttrLen := if cell.isSome then .nts else .nullData

/-- A field is stored, and the checks follow behind the timestamp that the value may skip. -/
theorem readFrom_cell (hi : i < t.attrTypes.length) (hcell : FieldAt f d cell tk e)
    (htk : cell = none → tk = .fieldTerm ∨ tk = .rowTerm) :
    readFrom f t (fuel + 1) i d row =
      (readBehind f t
        (if cell.isSome ∧ i + 1 < t.attrTypes.length ∧ t.added (i + 1) then i + 1 else i) tk e
        (t.setAttr i (cell.getD []) (cellLen cell) row)).run f t fuel
        (t.setAttr i (cell.getD []) (cellLen cell) row) := by
  cases cell with
  | some v =>
    obtain ⟨e', hvalue, text, htoken⟩ := hcell
    rw [readFrom, hvalue]
    simp only [readLoop, if_neg hi.not_ge, htoken, Option.isSome_some, true_and]
    rfl
  | none =>
    obtain ⟨text, htoken⟩ := hcell
    have hskip : ¬((none : Option Bytes).isSome = true ∧ i + 1 < t.attrTypes.length ∧
        t.added (i + 1) = true) := fun h => Bool.false_ne_true h.1
    rw [readFrom, htoken, if_neg hskip]
    rcases htk rfl with rfl | rfl
    · simp only [readLoop, if_neg hi.not_ge]
      rfl
    · simp only [readLoop, if_neg hi.not_ge]
      rfl

/-- Without a value, the end of the file is found before the column. -/
theorem readFrom_eof (hi : i < t.attrTypes.length) (htoken : getToken f d = (.eof, text, e)) :
    (readFrom f t (fuel + 1) i d row).nRet = .endOfFile := by
  rw [readFrom, htoken]
  simp only [readLoop, if_neg hi.not_ge]

/-- The column behind the timestamp is passed over with it. -/
theorem readBehind_unread {next : DataToken} (hadd : t.Adds p) (hp : p + 1 < t.attrTypes.length)
    (h : readBehind f t i tk d row = .column k next text e) : k ≠ p + 1 := by
  simp only [readBehind] at h
  split at h
  · cases h
  · split at h
    · next hlast =>
      split at h
      · cases h
      · split at h
        · cases h
        · cases h
          omega
    · split at h
      · cases h
      · split at h
        · cases h
        · split at h
          · cases h
            omega
          · split at h
            · cases h
              next hlast hskip =>
              have hi := hadd.added (Nat.lt_of_succ_lt hskip.1)
              rw [hskip.2] at hi
              have := of_decide_eq_true hi.symm
              omega
            · cases h
              next hlast hskip =>
              rintro heq
              obtain rfl := Nat.succ.inj heq
              exact hskip ⟨hp, by rw [hadd.added hadd.lt, decide_eq_true rfl]⟩

theorem readLoop_unread (hadd : t.Adds p) (hp : p + 1 < t.attrTypes.length) (hi : i ≠ p + 1) :
    t.value (readLoop f t fuel i tk text d row).row (p + 1) = t.value row (p + 1) := by
  induction fuel generalizing i tk text d row with
  | zero => rfl
  | succ fuel ih =>
    have hbehind : ∀ (j : Nat) (next : DataToken) (e : DataFile) (v : Bytes) (len : AttrLen),
        t.value ((readBehind f t j next e (t.setAttr i v len row)).run f t fuel
          (t.setAttr i v len row)).row (p + 1) = t.value row (p + 1) := by
      intro j next e v len
      have hset : t.value (t.setAttr i v len row) (p + 1) = t.value row (p + 1) := by
        rw [t.value_setAttr, if_neg hi.symm]
      rw [← hset]
      cases hstep : readBehind f t j next e (t.setAttr i v len row) with
      | done r => rw [ReadStep.run, readBehind_done hstep]
      | column k next text e => exact ih (readBehind_unread hadd hp hstep)
    rw [readLoop.eq_def]
    dsimp only
    split
    · rfl
    · cases tk with
      | eof => rfl
      | fieldTerm => exact hbehind _ _ _ _ _
      | rowTerm => exact hbehind _ _ _ _ _
      | value => exact hbehind _ _ _ _ _

/-- The column behind the timestamp is never read, whatever the data file holds. -/
theorem readOneRecord_unread (hadd : t.Adds p) (hpos : 0 < p) (hp : p + 1 < t.attrTypes.length)
    (d : DataFile) (row : Row) :
    t.value (readOneRecord f t d row).row (p + 1) = t.value row (p + 1) := by
  rw [readOneRecord_eq]
  apply readLoop_unread hadd hp
  split
  · omega
  · omega

/-! ## The fields of a row -/

/-- What a stretch of fields leaves from column `i` on. -/
def Keeps (t : Table) (i : Nat) (cells : List (Option Bytes)) (row : Row) : Prop :=
  ∀ k, k < cells.length → t.value row (i + k) = (cells.getD k none).getD []

/-- The outcome of reading fields that must be stored from column `i` on. -/
def Succeeds (t : Table) (i : Nat) (cells : List (Option Bytes)) (good : Prop) (out : ReadEnd) :
    Prop :=
  (out.nRet = .record ↔ good) ∧ (good → Keeps t i cells out.row)

theorem cString_getD (hcell : ∀ v, cell = some v → 0 ∉ v) : cString (cell.getD []) = cell.getD [] := by
  cases cell with
  | none => rfl
  | some v => exact cString_clean (hcell v rfl)

theorem keeps_cell (hcell : ∀ v, cell = some v → 0 ∉ v) :
    Keeps t i [cell] (t.setAttr i (cell.getD []) (cellLen cell) row) := by
  intro k hk
  obtain rfl : k = 0 := Nat.lt_one_iff.mp hk
  rw [t.value_setAttr, if_pos (Nat.add_zero i)]
  exact cString_getD hcell

/-- Behind the last column, a row terminator or the end of the file completes the record. -/
theorem run_last (hi : i + 1 = t.attrTypes.length) (htk : tk = .rowTerm ∨ tk = .eof) :
    ((readBehind f t i tk d row).run f t fuel row).nRet = .record ∧
      ((readBehind f t i tk d row).run f t fuel row).row = row := by
  rcases htk with rfl | rfl
  · rw [readBehind_row hi, ReadStep.run, readLoop_end hi.ge]
    exact ⟨rfl, rfl⟩
  · rw [readBehind_eof, if_pos hi]
    exact ⟨rfl, rfl⟩

/-- With `-informix` they may stand behind a field terminator. -/
theorem run_terminated (hi : i + 1 = t.attrTypes.length) (hinformix : t.mInformix = true)
    (htk : tk = .rowTerm ∨ tk = .eof) (hbehind : getToken f d = (tk, text, e)) :
    ((readBehind f t i .fieldTerm d row).run f t fuel row).nRet = .record ∧
      ((readBehind f t i .fieldTerm d row).run f t fuel row).row = row := by
  rw [readBehind_last hi hinformix, hbehind]
  rcases htk with rfl | rfl
  · simp only [reduceCtorEq, if_false, ne_eq, not_true_eq_false]
    rw [ReadStep.run, readLoop_end hi.ge]
    exact ⟨rfl, rfl⟩
  · exact ⟨rfl, rfl⟩

/-- The last field of a row whose last column is its own. -/
theorem read_last (hi : i + 1 = t.attrTypes.length) (hlies : LastAt f t.mInformix d cell tk)
    (htk : tk = .rowTerm ∨ tk = .eof) (hcell : ∀ v, cell = some v → 0 ∉ v) :
    Succeeds t i [cell] (¬(cell = none ∧ t.mInformix = false ∧ tk = .eof))
      (readFrom f t (fuel + 1) i d row) := by
  have hlt : i < t.attrTypes.length := by omega
  have hskip : ¬(cell.isSome = true ∧ i + 1 < t.attrTypes.length ∧ t.added (i + 1) = true) :=
    fun h => absurd h.2.1 (by omega)
  cases hlies with
  | bare next lies value =>
    by_cases hbad : cell = none ∧ tk = .eof
    · obtain ⟨rfl, rfl⟩ := hbad
      obtain ⟨text, htoken⟩ := lies
      have hret := @readFrom_eof f t i fuel text d next row hlt htoken
      have hplain : t.mInformix = false :=
        Bool.eq_false_of_not_eq_true fun hinformix => value hinformix rfl
      have hfalse : ¬¬(none (α := Bytes) = none ∧ t.mInformix = false ∧ DataToken.eof = .eof) :=
        not_not_intro ⟨rfl, hplain, rfl⟩
      refine ⟨iff_of_false ?_ hfalse, fun hgood => absurd hgood hfalse⟩
      rw [hret]
      decide
    · have hterm : cell = none → tk = .fieldTerm ∨ tk = .rowTerm :=
        fun hnone => Or.inr (htk.resolve_right fun heof => hbad ⟨hnone, heof⟩)
      rw [readFrom_cell hlt lies hterm, if_neg hskip]
      have hrun := @run_last f t i fuel tk next
        (t.setAttr i (cell.getD []) (cellLen cell) row) hi htk
      refine ⟨iff_of_true hrun.1 fun h => hbad ⟨h.1, h.2.2⟩, fun _ => ?_⟩
      rw [hrun.2]
      exact keeps_cell hcell
  | terminated e next text informix lies behind =>
    rw [readFrom_cell hlt lies (fun _ => Or.inl rfl), if_neg hskip]
    have hrun := @run_terminated f t i fuel tk text e next
      (t.setAttr i (cell.getD []) (cellLen cell) row) hi informix htk behind
    have hgood : ¬(cell = none ∧ t.mInformix = false ∧ tk = .eof) := by
      rintro ⟨-, hplain, -⟩
      rw [informix] at hplain
      cases hplain
    refine ⟨iff_of_true hrun.1 hgood, fun _ => ?_⟩
    rw [hrun.2]
    exact keeps_cell hcell

/-- The last field of a row in front of the timestamp. -/
theorem read_before (hadd : t.Adds (i + 1)) (hi : i + 2 = t.attrTypes.length)
    (hlies : LastAt f t.mInformix d cell tk) (htk : tk = .rowTerm ∨ tk = .eof)
    (hcell : ∀ v, cell = some v → 0 ∉ v) :
    Succeeds t i [cell] (cell = none → t.mInformix = true ∧ tk = .rowTerm)
      (readFrom f t (fuel + 2) i d row) := by
  have hlt : i < t.attrTypes.length := by omega
  have hadded : t.added (i + 1) = true := by
    rw [hadd.added hadd.lt, decide_eq_true rfl]
  cases cell with
  | some v =>
    have hskip : (some v).isSome = true ∧ i + 1 < t.attrTypes.length ∧ t.added (i + 1) = true :=
      ⟨rfl, hadd.lt, hadded⟩
    have hgood : some v = none → t.mInformix = true ∧ tk = .rowTerm := by
      intro heq
      cases heq
    have hend : (readFrom f t (fuel + 2) i d row).nRet = .record ∧
        (readFrom f t (fuel + 2) i d row).row =
          t.setAttr i ((some v).getD []) (cellLen (some v)) row := by
      cases hlies with
      | bare next lies value =>
        rw [readFrom_cell hlt lies (fun heq => by cases heq), if_pos hskip]
        exact run_last hi htk
      | terminated e next text informix lies behind =>
        rw [readFrom_cell hlt lies (fun heq => by cases heq), if_pos hskip]
        exact run_terminated hi informix htk behind
    refine ⟨iff_of_true hend.1 hgood, fun _ => ?_⟩
    rw [hend.2]
    exact keeps_cell hcell
  | none =>
    have hskip : ¬((none (α := Bytes)).isSome = true ∧ i + 1 < t.attrTypes.length ∧
        t.added (i + 1) = true) := fun h => Bool.false_ne_true h.1
    have hunadded : t.added i = false := by
      rw [hadd.added hlt]
      exact decide_eq_false (by omega)
    cases hlies with
    | bare next lies value =>
      have hplain : ¬t.mInformix = true := fun hinformix => value hinformix rfl
      have hbad : ¬(none (α := Bytes) = none → t.mInformix = true ∧ tk = .rowTerm) :=
        fun h => hplain (h rfl).1
      refine ⟨iff_of_false ?_ hbad, fun h => absurd h hbad⟩
      rcases htk with rfl | rfl
      · rw [readFrom_cell hlt lies (fun _ => Or.inr rfl), if_neg hskip,
          readBehind_short (by omega)]
        intro h
        cases h
      · obtain ⟨text, htoken⟩ := lies
        rw [@readFrom_eof f t i (fuel + 1) text d next row hlt htoken]
        decide
    | terminated e next text informix lies behind =>
      rw [readFrom_cell hlt lies (fun _ => Or.inl rfl), if_neg hskip,
        readBehind_field (by omega) hunadded, ReadStep.run, behind]
      rcases htk with rfl | rfl
      · -- the row terminator stands for the timestamp too, and its column is the last one
        have hlast := @run_last f t (i + 1) fuel .rowTerm next
          (t.setAttr (i + 1) [] .nullData (t.setAttr i [] .nullData row)) hi (Or.inl rfl)
        have hloop : readLoop f t (fuel + 1) (i + 1) .rowTerm text next
            (t.setAttr i [] .nullData row) =
              (readBehind f t (i + 1) .rowTerm next (t.setAttr (i + 1) [] .nullData
                (t.setAttr i [] .nullData row))).run f t fuel (t.setAttr (i + 1) [] .nullData
                (t.setAttr i [] .nullData row)) := by
          simp only [readLoop, if_neg hadd.lt.not_ge]
          rfl
        have hrow := hlast.2
        rw [← hloop] at hlast hrow
        refine ⟨iff_of_true hlast.1 fun _ => ⟨informix, rfl⟩, fun _ => ?_⟩
        show Keeps t i [none] (readLoop f t (fuel + 1) (i + 1) .rowTerm text next
          (t.setAttr i [] .nullData row)).row
        rw [hrow]
        intro k hk
        obtain rfl : k = 0 := Nat.lt_one_iff.mp hk
        rw [t.value_setAttr, if_neg (by omega), t.value_setAttr, if_pos (Nat.add_zero i)]
        rfl
      · have hbad : ¬(none (α := Bytes) = none → t.mInformix = true ∧ DataToken.eof = .rowTerm) :=
          fun h => by cases (h rfl).2
        refine ⟨iff_of_false ?_ hbad, fun h => absurd h hbad⟩
        simp only [readLoop, if_neg hadd.lt.not_ge]
        decide

/-- The fields in front of the last one are stored column by column. -/
theorem read_row {good : Option Bytes → Prop} {m : Nat} {slack : Nat}
    (hrow : RowAt f t.mInformix tk d cells) (hne : cells ≠ []) (hm : i + cells.length = m + 1)
    (hlt : m < t.attrTypes.length) (hadd : ∀ j, i ≤ j → j ≤ m → t.added j = false)
    (hnoNul : ∀ v, some v ∈ cells → 0 ∉ v)
    (hlast : ∀ (fuel : Nat) (d : DataFile) (cell : Option Bytes) (row : Row),
      LastAt f t.mInformix d cell tk → (∀ v, cell = some v → 0 ∉ v) →
        Succeeds t m [cell] (good cell) (readFrom f t (fuel + slack) m d row)) :
    Succeeds t i cells (∀ cell, cells.getLast? = some cell → good cell)
      (readFrom f t (fuel + slack + (m - i)) i d row) := by
  induction hrow generalizing i row with
  | none => exact absurd rfl hne
  | @last d cell lies =>
    have hi : m = i := by
      have : i + 1 = m + 1 := hm
      omega
    subst hi
    have hfirst := hlast fuel d cell row lies (fun v hv => hnoNul v (hv ▸ List.mem_singleton_self _))
    rw [Nat.sub_self]
    have hgood : (∀ c, [cell].getLast? = some c → good c) ↔ good cell := by simp
    rw [hgood]
    exact hfirst
  | @cons d e cell next cells lies behind ih =>
    have hcount : i + (cells.length + 2) = m + 1 := hm
    have hunadded := hadd i le_rfl (by omega)
    have hnext := hadd (i + 1) (by omega) (by omega)
    have hskip : ¬(cell.isSome = true ∧ i + 1 < t.attrTypes.length ∧ t.added (i + 1) = true) := by
      rintro ⟨-, -, h⟩
      rw [hnext] at h
      cases h
    have hfuel : fuel + slack + (m - i) = fuel + slack + (m - (i + 1)) + 1 := by omega
    have hrest := @ih (i + 1) (t.setAttr i (cell.getD []) (cellLen cell) row) (List.cons_ne_nil _ _)
      (by rw [List.length_cons]; omega) (fun j hj => hadd j (by omega))
      (fun v hv => hnoNul v (List.mem_cons_of_mem _ hv))
    rw [hfuel, readFrom_cell (by omega) lies (fun _ => Or.inl rfl), if_neg hskip,
      readBehind_field (by omega) hunadded, ReadStep.run]
    have hgood : (∀ c, (cell :: next :: cells).getLast? = some c → good c) ↔
        ∀ c, (next :: cells).getLast? = some c → good c := by rw [List.getLast?_cons_cons]
    rw [hgood]
    refine ⟨hrest.1, fun h k hk => ?_⟩
    cases k with
    | zero =>
      have hbefore := (@readLoop_before f t (i + 1) i (fuel + slack + (m - (i + 1)))
        (getToken f e).1 (getToken f e).2.1 (getToken f e).2.2
        (t.setAttr i (cell.getD []) (cellLen cell) row) (Nat.lt_succ_self i)).1
      refine hbefore.trans ?_
      rw [t.value_setAttr, if_pos rfl]
      exact cString_getD fun v hv => hnoNul v (hv ▸ List.mem_cons_self)
    | succ k =>
      have hvalue := hrest.2 h k (Nat.lt_of_succ_lt_succ hk)
      have hindex : i + 1 + k = i + (k + 1) := by omega
      rw [hindex] at hvalue
      exact hvalue

end columns

/-! ## The rows of a plain file -/

section plain

variable {r : FileRow f} {input u : Bytes} {next : Bytes} {tk : DataToken} {v : Bytes}
  {vs : List Bytes} {cells : List (Option Bytes)} {d : DataFile}

/-- Without an enclosing an empty field has no value token. -/
def cellOf (v : Bytes) : Option Bytes := if v = [] then none else some v

theorem cellOf_eq_some {w : Bytes} (h : cellOf v = some w) : v = w := by
  unfold cellOf at h
  split at h
  · cases h
  · exact Option.some.inj h

theorem cellOf_getD (v : Bytes) : (cellOf v).getD [] = v := by
  unfold cellOf
  split
  · next h => exact h.symm
  · rfl

theorem fieldAt_term (hf : f.Plain) (hends : f.Ends tk v) (htk : tk = .fieldTerm ∨ tk = .rowTerm)
    (h : delivered input = v ++ (f.term tk ++ u)) : ∃ input', delivered input' = u ∧
      FieldAt f ⟨input, none⟩ (cellOf v) tk ⟨input', none⟩ := by
  obtain ⟨input', hdelivered, htoken⟩ := getToken_term hf hends htk h
  refine ⟨input', hdelivered, ?_⟩
  rw [cellOf]
  rw [readTerm] at htoken
  split
  · next hnil =>
    rw [if_pos hnil] at htoken
    exact ⟨_, htoken⟩
  · next hnil =>
    rw [if_neg hnil] at htoken
    exact ⟨_, htoken, _, getToken_next tk⟩

/-- Fields in front of a row of fields. -/
theorem rowAt_append {mInformix : Bool} (hf : f.Plain) (hvs : ∀ v ∈ vs, f.Ends .fieldTerm v)
    (hne : cells ≠ [])
    (hrow : ∀ input', delivered input' = u → RowAt f mInformix tk ⟨input', none⟩ cells)
    (h : delivered input = (vs.flatMap fun v => v ++ f.m_FieldTerm) ++ u) :
    RowAt f mInformix tk ⟨input, none⟩ (vs.map cellOf ++ cells) := by
  induction vs generalizing input with
  | nil => exact hrow input h
  | cons v vs ih =>
    rw [List.flatMap_cons, List.append_assoc, List.append_assoc] at h
    obtain ⟨input', hdelivered, hfield⟩ := fieldAt_term hf (hvs v List.mem_cons_self) (Or.inl rfl) h
    have hrest := ih (fun w hw => hvs w (List.mem_cons_of_mem v hw)) hdelivered
    obtain ⟨c, cs, hcons⟩ := List.exists_cons_of_ne_nil
      (List.append_ne_nil_of_right_ne_nil (vs.map cellOf) hne)
    rw [hcons] at hrest
    rw [List.map_cons, List.cons_append, hcons]
    exact .cons hfield hrest

/-- The token behind the last field. -/
def FileRow.ends (r : FileRow f) : DataToken := if r.closed then .rowTerm else .eof

/-- Behind the fields of a plain file stands the last one, with or without its terminator. -/
theorem rowAt_of_at {mInformix : Bool} (hf : f.Plain) (hend : r.closed = true ∨ next = [])
    (hsome : r.fields mInformix ≠ []) (hd : d.At (r.text ++ next)) :
    RowAt f mInformix r.ends d ((r.fields mInformix).map cellOf) := by
  obtain ⟨input, token⟩ := d
  obtain ⟨rfl, htext⟩ := hd
  have hlast : ∀ input', delivered input' =
      (r.last ++ if r.closed then f.m_RowTerm else []) ++ next →
      ∃ e, FieldAt f ⟨input', none⟩ (cellOf r.last) r.ends e := by
    intro input' hinput
    by_cases hclosed : r.closed = true
    · rw [if_pos hclosed, List.append_assoc] at hinput
      obtain ⟨input'', -, hfield⟩ := fieldAt_term hf (r.row_ends hclosed) (Or.inr rfl) hinput
      rw [FileRow.ends, if_pos hclosed]
      exact ⟨_, hfield⟩
    · obtain rfl := hend.resolve_left hclosed
      rw [if_neg hclosed, List.append_nil, List.append_nil] at hinput
      rw [FileRow.ends, if_neg hclosed, cellOf]
      split
      · next hnil =>
        rw [hnil] at hinput
        exact ⟨_, _, getToken_empty hinput⟩
      · next hnil =>
        have hquiet := (r.file_ends (Bool.eq_false_of_not_eq_true hclosed)).1
        have hfits := r.fits r.last (List.mem_append_right _ List.mem_cons_self)
        exact ⟨_, _, getToken_end hf hquiet hnil (hfits.trans (by decide)) hinput, _,
          getToken_next _⟩
  rw [FileRow.text, List.append_assoc] at htext
  rw [FileRow.fields] at hsome ⊢
  by_cases hdrop : mInformix = true ∧ r.last = []
  · rw [if_pos hdrop] at hsome ⊢
    -- the last field with a terminator stands in front of nothing but the end of the row
    obtain ⟨vs, v, hvs⟩ : ∃ vs v, r.ended = vs ++ [v] :=
      ⟨_, _, (List.dropLast_append_getLast hsome).symm⟩
    rw [hvs, List.flatMap_append, List.flatMap_singleton, List.append_assoc] at htext
    rw [hvs, List.map_append, List.map_singleton]
    refine rowAt_append hf (fun w hw => r.field_ends w (by rw [hvs]; exact List.mem_append_left _ hw))
      (List.cons_ne_nil _ _) (fun input' hinput => ?_) htext
    rw [List.append_assoc] at hinput
    obtain ⟨input'', hdelivered, hfield⟩ := fieldAt_term hf
      (r.field_ends v (by rw [hvs]; exact List.mem_append_right _ List.mem_cons_self))
      (Or.inl rfl) hinput
    obtain ⟨e, hbehind⟩ := hlast input'' hdelivered
    rw [hdrop.2, cellOf, if_pos rfl] at hbehind
    obtain ⟨text, hbehind⟩ := hbehind
    exact .last (.terminated _ e text hdrop.1 hfield hbehind)
  · rw [if_neg hdrop, List.map_append, List.map_singleton]
    refine rowAt_append hf r.field_ends (List.cons_ne_nil _ _) (fun input' hinput => ?_) htext
    obtain ⟨e, hfield⟩ := hlast input' hinput
    refine .last (.bare e hfield fun hinformix hnone => hdrop ⟨hinformix, ?_⟩)
    have hgetD := cellOf_getD r.last
    rw [hnone] at hgetD
    exact hgetD.symm

/-- A row of a plain file as the tokens of its fields. -/
def FileRow.dataRow (r : FileRow f) (mInformix : Bool) (hf : f.Plain)
    (hend : r.closed = true ∨ next = []) (hsome : r.fields mInformix ≠ [])
    (hd : d.At (r.text ++ next)) : DataRow f mInformix d where
  cells := (r.fields mInformix).map cellOf
  ends := r.ends
  closed := by
    unfold FileRow.ends
    split
    · exact Or.inl rfl
    · exact Or.inr rfl
  lies := rowAt_of_at hf hend hsome hd
  noNul v hv := by
    obtain ⟨w, hw, hcell⟩ := List.mem_map.mp hv
    obtain rfl := cellOf_eq_some hcell
    apply r.noNul
    unfold FileRow.fields at hw
    split at hw
    · exact List.mem_append_left _ hw
    · exact hw

end plain

/-! ## Records -/

theorem storesRow_of_succeeds {d : DataFile} (r : DataRow f t.mInformix d) {i : Nat} {good : Prop}
    (hcolumns : ∀ k, k < r.cells.length → columnOf p k = i + k)
    (h : ∀ slot, Succeeds t i r.cells good (readOneRecord f t d slot)) :
    StoresRow t p r ↔ good := by
  constructor
  · intro hstores
    exact (h Transfer.blank).1.mp (hstores Transfer.blank).1
  · intro hgood slot
    refine ⟨(h slot).1.mpr hgood, fun k hk => ?_⟩
    rw [hcolumns k hk]
    exact (h slot).2 hgood k hk

/-- In the middle of the table the column behind the timestamp keeps what it held before. -/
theorem not_storesRow (hadd : t.Adds p) (hpos : 0 < p) (hp : p + 1 < t.attrTypes.length)
    {d : DataFile} (r : DataRow f t.mInformix d) (hlength : p < r.cells.length) :
    ¬StoresRow t p r := by
  intro hstores
  let old : Bytes := (r.cells.getD p none).getD [] ++ [0]
  let slot : Row := ⟨fun _ => old, fun _ => old, fun _ => .nts⟩
  have hvalue := (hstores slot).2 p hlength
  have hslot : t.value slot (p + 1) = old := by
    rw [Table.value]
    split <;> rfl
  rw [columnOf, if_neg (Nat.lt_irrefl p), readOneRecord_unread hadd hpos hp, hslot] at hvalue
  have hlen := congrArg List.length hvalue
  simp [old] at hlen

/-- A table of the timestamp alone has a row without fields. -/
theorem storesRow_alone (hadd : t.Adds 0) {d : DataFile} (r : DataRow f t.mInformix d)
    (hone : 0 + 1 = t.attrTypes.length) (hnil : r.cells = []) : StoresRow t 0 r := by
  intro slot
  have hlies := r.lies
  rw [hnil] at hlies
  refine ⟨?_, fun k hk => ?_⟩
  · cases hlies with
    | none _ lies =>
      have hstart : ¬(1 < t.attrTypes.length ∧ t.added 0 = true) := by omega
      have hskip : ¬((none (α := Bytes)).isSome = true ∧ 0 + 1 < t.attrTypes.length ∧
          t.added (0 + 1) = true) := fun h => Bool.false_ne_true h.1
      have hrun := @readFrom_cell f t _ t.attrTypes.length _ _ _ _ slot hadd.lt
        (show FieldAt f d none .rowTerm _ from ⟨_, lies⟩) (fun _ => Or.inr rfl)
      rw [if_neg hskip] at hrun
      rw [readOneRecord_eq, if_neg hstart, hrun]
      exact (run_last hone (Or.inl rfl)).1
  · rw [hnil] at hk
    exact absurd hk (Nat.not_lt_zero k)

theorem Table.Adds.unadded (hadd : t.Adds p) {j : Nat} (hj : j < t.attrTypes.length)
    (hne : j ≠ p) : t.added j = false := by
  rw [hadd.added hj]
  exact decide_eq_false hne

/-- Behind the timestamp as the first column the fields are read as in any other table. -/
theorem storesRow_first (hadd : t.Adds 0) {d : DataFile} (r : DataRow f t.mInformix d)
    (hfields : r.cells.length + 1 = t.attrTypes.length) (hnil : r.cells ≠ []) :
    StoresRow t 0 r ↔ ¬(r.cells.getLast? = some none ∧ t.mInformix = false ∧ r.ends = .eof) := by
  have hpositive := List.length_pos_iff.mpr hnil
  have hstart : 1 < t.attrTypes.length ∧ t.added 0 = true := by
    refine ⟨by omega, ?_⟩
    rw [hadd.added hadd.lt, decide_eq_true rfl]
  have hfuel : 2 + 1 + (t.attrTypes.length - 1 - 1) = t.attrTypes.length + 1 := by omega
  have hreads : ∀ slot, Succeeds t 1 r.cells (∀ cell, r.cells.getLast? = some cell →
      ¬(cell = none ∧ t.mInformix = false ∧ r.ends = .eof)) (readOneRecord f t d slot) := by
    intro slot
    have hread := @read_row f t 1 2 _ _ _ slot _ (t.attrTypes.length - 1) 1 r.lies hnil
      (by omega) (by omega) (fun j hj hjm => hadd.unadded (by omega) (by omega)) r.noNul
      (fun fuel d cell row hl hcell => read_last (by omega) hl r.closed hcell)
    rw [hfuel] at hread
    rw [readOneRecord_eq, if_pos hstart]
    exact hread
  have hcolumns : ∀ k, k < r.cells.length → columnOf 0 k = 1 + k := by
    intro k _
    rw [columnOf, if_neg (Nat.not_lt_zero k), Nat.add_comm]
  rw [storesRow_of_succeeds r hcolumns hreads]
  constructor
  · rintro h ⟨hlast, hrest⟩
    exact h none hlast ⟨rfl, hrest⟩
  · rintro h cell hlast ⟨rfl, hrest⟩
    exact h ⟨hlast, hrest⟩

/-- In front of the timestamp as the last column only a value passes over it. -/
theorem storesRow_last {i : Nat} (hadd : t.Adds (i + 1)) {d : DataFile}
    (r : DataRow f t.mInformix d) (hfields : r.cells.length + 1 = t.attrTypes.length)
    (hlast : i + 2 = t.attrTypes.length) : StoresRow t (i + 1) r ↔
      (r.cells.getLast? = some none → t.mInformix = true ∧ r.ends = .rowTerm) := by
  have hnil : r.cells ≠ [] := List.length_pos_iff.mp (by omega)
  have hstart : ¬(1 < t.attrTypes.length ∧ t.added 0 = true) := by
    rintro ⟨-, h⟩
    rw [hadd.unadded (by omega) (by omega)] at h
    cases h
  have hfuel : 1 + 2 + (i - 0) = t.attrTypes.length + 1 := by omega
  have hreads : ∀ slot, Succeeds t 0 r.cells (∀ cell, r.cells.getLast? = some cell →
      cell = none → t.mInformix = true ∧ r.ends = .rowTerm) (readOneRecord f t d slot) := by
    intro slot
    have hread := @read_row f t 0 1 _ _ _ slot _ i 2 r.lies hnil
      (by omega) (by omega) (fun j _ hj => hadd.unadded (by omega) (by omega)) r.noNul
      (fun fuel d cell row hl hcell => read_before hadd (by omega) hl r.closed hcell)
    rw [hfuel] at hread
    rw [readOneRecord_eq, if_neg hstart]
    exact hread
  have hcolumns : ∀ k, k < r.cells.length → columnOf (i + 1) k = 0 + k := by
    intro k hk
    rw [columnOf, if_pos (by omega), Nat.zero_add]
  rw [storesRow_of_succeeds r hcolumns hreads]
  constructor
  · intro h hcell
    exact h none hcell rfl
  · rintro h cell hcell rfl
    exact h hcell

/-- A table whose timestamp is added. -/
def stampedTable (attrTypes : List AttrType) : Table := ⟨attrTypes, true, false⟩

/-- The row `1^2` of two fields. -/
def twoFields (attrTypes : List AttrType) :
    DataRow caretLines (stampedTable attrTypes).mInformix ⟨[49, 94, 50, 10], none⟩ :=
  @FileRow.dataRow caretLines [] _ (caretRow [49] 50 (by simp)) _ caretLines_plain (Or.inl rfl)
    (by simp [FileRow.fields, stampedTable]) ⟨rfl, by decide⟩

theorem twoFields_cells (attrTypes : List AttrType) :
    (twoFields attrTypes).cells = [some [49], some [50]] := rfl

end Natc.Ploader
