import Mathlib.Data.List.Range
import Natc.Ploader.Course

/-!
# Row accounting of a load
-/

namespace Natc.Ploader

variable {ρ : Type}

namespace LoadInput

variable (i : LoadInput ρ)

/-- Row `n` of the well-read ones with the status the server reports of it, when every batch
before it was full. -/
def answer (goods : List ρ) (n : Nat) : ρ × ParamStatus :=
  (i.rowAt goods (n / i.option.m_ArrayCount) (n % i.option.m_ArrayCount),
    i.server.paramStatus (n / i.option.m_ArrayCount) (n % i.option.m_ArrayCount))

theorem batch_eq (goods : List ρ) {width : Nat} (k : Nat) (h : width ≤ i.option.m_ArrayCount) :
    i.batch goods width k =
      ((List.range width).map (k * i.option.m_ArrayCount + ·)).map (i.answer goods) := by
  rw [List.map_map]
  apply List.map_congr_left
  intro j hj
  have hlt := (List.mem_range.mp hj).trans_le h
  have hdiv : (k * i.option.m_ArrayCount + j) / i.option.m_ArrayCount = k := by
    rw [Nat.mul_comm, Nat.mul_add_div i.option.array_pos, Nat.div_eq_of_lt hlt, Nat.add_zero]
  have hmod : (k * i.option.m_ArrayCount + j) % i.option.m_ArrayCount = j := by
    rw [Nat.mul_comm, Nat.mul_add_mod, Nat.mod_eq_of_lt hlt]
  simp only [Function.comp_apply, answer, hdiv, hmod]

theorem flatten_full (goods : List ρ) (n : Nat) :
    ((List.range n).map (i.batch goods i.option.m_ArrayCount)).flatten =
      (List.range (n * i.option.m_ArrayCount)).map (i.answer goods) := by
  induction n with
  | zero => simp
  | succ n ih =>
    rw [List.range_succ, List.map_append, List.flatten_append, ih, Nat.succ_mul, List.range_add,
      List.map_append, List.map_singleton, List.flatten_singleton, i.batch_eq goods n le_rfl]

theorem flatten_full_append (goods : List ρ) (n : Nat) {width : Nat}
    (h : width ≤ i.option.m_ArrayCount) :
    ((List.range n).map (i.batch goods i.option.m_ArrayCount) ++ [i.batch goods width n]).flatten =
      (List.range (n * i.option.m_ArrayCount + width)).map (i.answer goods) := by
  rw [List.flatten_append, i.flatten_full, List.flatten_singleton, i.batch_eq goods n h,
    List.range_add, List.map_append]

theorem map_fst_answer (goods : List ρ) {n : Nat} (h : n ≤ goods.length) :
    ((List.range n).map (i.answer goods)).map Prod.fst = goods.take n := by
  apply List.ext_getElem
  · simp [h]
  · intro m hm _
    have hlt : m < n := by simpa using hm
    have hm' := Nat.div_add_mod' m i.option.m_ArrayCount
    simp [answer, rowAt, Nat.mod_lt _ i.option.array_pos, hm',
      List.getElem?_eq_getElem (hlt.trans_le h)]

/-- The rows of the executed batches. -/
def sentRows (goods : List ρ) (last : Option Bool) : Nat :=
  if last = some false then goods.length / i.option.m_ArrayCount * i.option.m_ArrayCount
  else goods.length

/-- The statement sends one batch with its own rows, or is not used before the last row. -/
def Sized (goods : List ρ) (last : Option Bool) : Prop :=
  1 < i.option.m_ArrayCount ∨ i.stmt = 1 ∨
    goods.length = if last = some true then 1 else 0

theorem length_batch (goods : List ρ) (width k : Nat) :
    (i.batch goods width k).length = width := by
  rw [batch, List.length_map, List.length_range]

variable {i} {goods : List ρ} {last : Option Bool}

theorem paramset_of_sized (h : i.Sized goods last) : i.paramset = i.option.m_ArrayCount ∨
    goods.length = if last = some true then 1 else 0 := by
  by_cases ha : 1 < i.option.m_ArrayCount
  · exact Or.inl (if_pos ha)
  · have hstmt : i.paramset = i.stmt := if_neg ha
    rcases h with h | h | h
    · exact absurd h ha
    · exact Or.inl (by rw [hstmt, h, not_array ha])
    · exact Or.inr h

/-- The batches before the last one have the size of the array. -/
theorem full_of_sized (h : i.Sized goods last) {n : Nat}
    (hn : (goods.length = if last = some true then 1 else 0) → n = 0) :
    (List.range n).map (i.batch goods i.paramset) =
      (List.range n).map (i.batch goods i.option.m_ArrayCount) := by
  rcases paramset_of_sized h with h | h
  · rw [h]
  · rw [hn h]
    rfl

theorem flatten_batches (h : i.Sized goods last) (hlast : last = some true → goods ≠ []) :
    (i.batches goods last).flatten =
      (List.range (i.sentRows goods last)).map (i.answer goods) := by
  have hsum := Nat.div_add_mod' goods.length i.option.m_ArrayCount
  rcases last with _ | _ | _
  · have hfull := full_of_sized h (n := goods.length / i.option.m_ArrayCount) (by
      intro hzero
      simp [hzero])
    simp only [batches, hfull, sentRows, reduceCtorEq, if_false]
    by_cases hrest : goods.length % i.option.m_ArrayCount = 0
    · rw [if_pos hrest, List.append_nil, i.flatten_full]
      congr 2
      omega
    · rw [if_neg hrest, i.flatten_full_append _ _ (Nat.mod_lt _ i.option.array_pos).le, hsum]
  · have hfull := full_of_sized h (n := goods.length / i.option.m_ArrayCount) (by
      intro hzero
      simp [hzero])
    simp only [batches, hfull, sentRows, if_true]
    exact i.flatten_full _ _
  · have hpos := List.length_pos_of_ne_nil (hlast rfl)
    have hfull := full_of_sized h (n := (goods.length - 1) / i.option.m_ArrayCount) (by
      intro hone
      simp [hone])
    have hsum := Nat.div_add_mod' (goods.length - 1) i.option.m_ArrayCount
    simp only [batches, hfull, sentRows, Option.some.injEq, Bool.true_eq_false, if_false]
    rw [i.flatten_full_append _ _ (Nat.mod_lt _ i.option.array_pos)]
    congr 2
    omega

theorem length_full (width n : Nat) :
    ((List.range n).map (i.batch goods width)).flatten.length = n * width := by
  induction n with
  | zero => simp
  | succ n ih =>
    rw [List.range_succ, List.map_append, List.flatten_append, List.length_append, ih,
      List.map_singleton, List.flatten_singleton, i.length_batch, Nat.succ_mul]

/-- A statement of another size sends another number of rows. -/
theorem sized_of_length (hlast : last = some true → goods ≠ [])
    (h : (i.batches goods last).flatten.length = goods.length) : i.Sized goods last := by
  by_cases ha : 1 < i.option.m_ArrayCount
  · exact Or.inl ha
  · right
    have ha1 := not_array ha
    have hstmt : i.paramset = i.stmt := if_neg ha
    have hrows : ∀ n, n * i.stmt = n → i.stmt = 1 ∨ n = 0 := by
      intro n hn
      rcases Nat.eq_zero_or_pos n with hzero | hpos
      · exact Or.inr hzero
      · exact Or.inl (Nat.eq_of_mul_eq_mul_left hpos (hn.trans (Nat.mul_one n).symm))
    rcases last with _ | _ | _
    · simp only [batches, ha1, Nat.mod_one, if_true, List.append_nil, hstmt, length_full,
        Nat.div_one] at h
      simpa using hrows _ h
    · simp only [batches, ha1, hstmt, length_full, Nat.div_one] at h
      simpa using hrows _ h
    · have hpos := List.length_pos_of_ne_nil (hlast rfl)
      simp only [batches, ha1, hstmt, List.flatten_append, List.length_append, length_full,
        Nat.div_one, Nat.mod_one, List.flatten_singleton, length_batch] at h
      rcases hrows (goods.length - 1) (by omega) with hone | hzero
      · exact Or.inl hone
      · right
        simp only [if_true]
        omega

theorem sum_failed_of {o : LoadOption} {bs : List (List (ρ × ParamStatus))}
    (h : ∀ b ∈ bs, o.failed b = (b.filter fun r => r.2 ≠ .success).length) :
    (bs.map o.failed).sum = (bs.flatten.filter fun r => r.2 ≠ .success).length := by
  induction bs with
  | nil => rfl
  | cons b bs ih =>
    rw [List.map_cons, List.sum_cons, List.flatten_cons, List.filter_append, List.length_append,
      h b List.mem_cons_self, ih fun c hc => h c (List.mem_cons_of_mem b hc)]

/-- Without an array every batch is one row. -/
theorem length_of_mem_batches (h : i.Sized goods last) (ha : i.option.m_ArrayCount = 1)
    {b : List (ρ × ParamStatus)} (hb : b ∈ i.batches goods last) : b.length = 1 := by
  have hfull : ∀ n, ((goods.length = if last = some true then 1 else 0) → n = 0) →
      b ∈ (List.range n).map (i.batch goods i.paramset) → b.length = 1 := by
    intro n hn hmem
    rw [full_of_sized h hn] at hmem
    obtain ⟨k, _, rfl⟩ := List.mem_map.mp hmem
    rw [i.length_batch, ha]
  rcases last with _ | _ | _
  · simp only [batches, ha, Nat.mod_one, if_true, List.append_nil] at hb
    exact hfull _ (by intro hzero; simp [hzero]) hb
  · simp only [batches] at hb
    exact hfull _ (by intro hzero; simp [hzero]) hb
  · simp only [batches, List.mem_append, List.mem_singleton] at hb
    rcases hb with hb | rfl
    · exact hfull _ (by intro hone; simp [hone]) hb
    · rw [i.length_batch, ha, Nat.mod_one]

/-- Every batch counts its rows that failed. -/
theorem sum_failed (h : i.Sized goods last) :
    ((i.batches goods last).map i.option.failed).sum =
      ((i.batches goods last).flatten.filter fun r => r.2 ≠ .success).length := by
  apply sum_failed_of
  intro b hb
  by_cases ha : 1 < i.option.m_ArrayCount
  · exact if_pos ha
  · obtain ⟨r, rfl⟩ := List.length_eq_one_iff.mp (length_of_mem_batches h (not_array ha) hb)
    by_cases hr : r.2 = .success <;> simp [LoadOption.failed, ha, hr]

/-- How often a load with these answers comes to its commit: with an array for every row, without
one for every row that succeeded. -/
def arrivals (i : LoadInput ρ) (goods : List ρ) : Nat :=
  if 1 < i.option.m_ArrayCount then goods.length
  else ((List.range goods.length).filter fun n => i.server.paramStatus n 0 = .success).length

/-- The successful executions are the successful rows, when each is one row. -/
theorem length_filter_accepted {bs : List (List (ρ × ParamStatus))} (h : ∀ b ∈ bs, b.length = 1) :
    (bs.filter Load.accepted).length = (bs.flatten.filter fun r => r.2 = .success).length := by
  induction bs with
  | nil => rfl
  | cons b bs ih =>
    obtain ⟨r, rfl⟩ := List.length_eq_one_iff.mp (h b List.mem_cons_self)
    have hrest := ih fun c hc => h c (List.mem_cons_of_mem _ hc)
    by_cases hr : r.2 = .success <;> simp [Load.accepted, hr, hrest]

theorem loads_batches (h : i.Sized goods last) (hlast : last = some true → goods ≠ []) :
    i.option.loads goods.length (i.batches goods last) = i.arrivals goods := by
  simp only [LoadOption.loads, arrivals]
  by_cases ha : 1 < i.option.m_ArrayCount
  · simp only [if_pos ha]
  · simp only [if_neg ha]
    have ha1 := not_array ha
    have hrows := flatten_batches h hlast
    have hsent : i.sentRows goods last = goods.length := by
      simp [sentRows, ha1]
    have hone := length_filter_accepted fun b hb => length_of_mem_batches h ha1 hb
    rw [hrows, hsent, List.filter_map, List.length_map] at hone
    refine hone.trans ?_
    apply congrArg List.length
    apply List.filter_congr
    intro n _
    simp only [Function.comp_apply, answer, ha1, Nat.div_one, Nat.mod_one]

theorem accepted_batch (goods : List ρ) (width k : Nat) :
    Load.accepted (i.batch goods width k) = true ↔
      ∀ j, j < width → i.server.paramStatus k j = .success := by
  simp [accepted_iff, batch]

theorem stale_eq_zero_iff (hne : goods ≠ []) : i.stale goods (some true) = 0 ↔
    ((∃ j, j < goods.length % i.option.m_ArrayCount ∧
        i.server.paramStatus (goods.length / i.option.m_ArrayCount) j ≠ .success) →
      ∀ j, goods.length % i.option.m_ArrayCount ≤ j → j < i.option.m_ArrayCount →
        i.statusAt (goods.length / i.option.m_ArrayCount) j = .success) := by
  have hpos := List.length_pos_of_ne_nil hne
  have hsucc : goods.length - 1 + 1 = goods.length := by omega
  have hlt := Nat.mod_lt (goods.length - 1) i.option.array_pos
  by_cases hfull : (goods.length - 1) % i.option.m_ArrayCount + 1 = i.option.m_ArrayCount
  · -- the last row fills its batch, and no slot is left behind it
    have hmod := (succ_div_mod_of_eq hfull).2
    rw [hsucc] at hmod
    apply iff_of_true
    · simp only [stale, hfull]
      split
      · rfl
      · apply List.length_eq_zero_iff.mpr
        apply List.filter_eq_nil_iff.mpr
        intro j hj
        have := List.mem_range.mp hj
        simp only [decide_eq_true_eq]
        omega
    · intro hfailed
      obtain ⟨j, hj, _⟩ := hfailed
      omega
  · obtain ⟨hdiv, hmod⟩ := succ_div_mod_of_lt (g := goods.length - 1)
      (a := i.option.m_ArrayCount) (by omega)
    rw [hsucc] at hdiv hmod
    simp only [stale, ← hdiv, ← hmod]
    by_cases hacc : Load.accepted (i.batch goods (goods.length % i.option.m_ArrayCount)
        (goods.length / i.option.m_ArrayCount)) = true
    · rw [if_pos hacc]
      apply iff_of_true rfl
      intro hfailed
      obtain ⟨j, hj, hne⟩ := hfailed
      exact absurd ((i.accepted_batch _ _ _).mp hacc j hj) hne
    · rw [if_neg hacc, List.length_eq_zero_iff, List.filter_eq_nil_iff]
      rw [i.accepted_batch] at hacc
      push Not at hacc
      constructor
      · intro hall _ j hle hlt
        have hj := hall j (List.mem_range.mpr hlt)
        simp only [decide_eq_true_eq] at hj
        by_contra hne
        exact hj ⟨hle, hne⟩
      · intro hall j hj
        simp only [decide_eq_true_eq]
        intro hbad
        exact hbad.2 (hall hacc j hbad.1 (List.mem_range.mp hj))

end LoadInput

/-- The rows that the server has reported as inserted. -/
def Load.inserted (s : Load ρ) : List (ρ × ParamStatus) :=
  s.executed.flatten.filter fun r => r.2.inserted

namespace LoadInput

variable (i : LoadInput ρ)

/-- Every well-read record of the range is sent once, in order and nothing else is, and the
printed counts are those of the inserted rows and of the other selected records. -/
def Accounted : Prop :=
  i.LoadwithPrepare.1.executed.flatten.map Prod.fst = i.goods ∧
  i.LoadwithPrepare.1.loadCount = i.LoadwithPrepare.1.inserted.length ∧
  i.LoadwithPrepare.1.errorCount = i.selected.length - i.LoadwithPrepare.1.inserted.length

/-- What the data file, the statement and the answers of the server must be like. -/
structure Regular : Prop where
  /-- No row waits for a last row that is not read well. -/
  lastRow : i.lastRead = some false → i.option.m_ArrayCount ∣ i.goods.length
  /-- When the batch of the last row fails, the slots behind it hold no old failure. -/
  stale : i.lastRead = some true →
    (∃ j, j < i.goods.length % i.option.m_ArrayCount ∧
      i.server.paramStatus (i.goods.length / i.option.m_ArrayCount) j ≠ .success) →
    ∀ j, i.goods.length % i.option.m_ArrayCount ≤ j → j < i.option.m_ArrayCount →
      i.statusAt (i.goods.length / i.option.m_ArrayCount) j = .success
  /-- No row is inserted with a warning. -/
  reported : ∀ n, n < i.goods.length →
    i.server.paramStatus (n / i.option.m_ArrayCount) (n % i.option.m_ArrayCount) ≠
      .successWithInfo
  /-- Every commit is done. -/
  commits : i.CommitsDone (i.arrivals i.goods)
  /-- The parameter set has the size of the array. -/
  sized : i.Sized i.goods i.lastRead

end LoadInput

theorem count_statuses (rows : List (ρ × ParamStatus)) :
    (rows.filter fun r => r.2 ≠ .success).length + (rows.filter fun r => r.2.inserted).length =
      rows.length + (rows.filter fun r => r.2 = .successWithInfo).length := by
  induction rows with
  | nil => rfl
  | cons r rows ih =>
    obtain ⟨row, status⟩ := r
    cases status <;> simp [ParamStatus.inserted] at ih ⊢ <;> omega

namespace LoadInput

variable (i : LoadInput ρ)

theorem wellRead_ne_nil (o : LoadOption) {ix : Nat} {rs : List (Bool × ρ)}
    (h : o.lastRead ix rs = some true) : wellRead (o.selected ix rs) ≠ [] := by
  induction rs generalizing ix with
  | nil => cases h
  | cons r rs ih =>
    obtain ⟨ok, row⟩ := r
    rw [LoadOption.lastRead_cons] at h
    rw [LoadOption.selected_cons, wellRead_append]
    split at h
    · next hlast =>
      have hok : ok = true := Option.some.inj h
      rw [hok, if_pos (Bool.and_eq_true_iff.mp hlast).1]
      exact List.cons_ne_nil _ _
    · intro hnil
      exact ih h (List.append_eq_nil_iff.mp hnil).2

theorem goods_ne_nil (h : i.lastRead = some true) : i.goods ≠ [] :=
  wellRead_ne_nil i.option h

/-- The sent rows are the well-read ones exactly if none waits at the last row and the statement
has the right size. -/
theorem sent_iff : (i.batches i.goods i.lastRead).flatten.map Prod.fst = i.goods ↔
    (i.lastRead = some false → i.option.m_ArrayCount ∣ i.goods.length) ∧
      i.Sized i.goods i.lastRead := by
  have hsum := Nat.div_add_mod' i.goods.length i.option.m_ArrayCount
  have hle : i.sentRows i.goods i.lastRead ≤ i.goods.length := by
    simp only [sentRows]
    split <;> omega
  constructor
  · intro hsent
    have hlength := congrArg List.length hsent
    rw [List.length_map] at hlength
    have hsized := sized_of_length i.goods_ne_nil hlength
    refine ⟨?_, hsized⟩
    intro hlast
    rw [flatten_batches hsized i.goods_ne_nil, List.length_map, List.length_range, hlast] at hlength
    exact ⟨_, (Nat.mul_comm _ _).trans hlength |>.symm⟩
  · intro h
    obtain ⟨hdvd, hsized⟩ := h
    rw [flatten_batches hsized i.goods_ne_nil, i.map_fst_answer _ hle]
    apply List.take_of_length_le
    simp only [sentRows]
    split
    · next hlast => rw [Nat.div_mul_cancel (hdvd hlast)]
    · exact le_rfl

/-- The last row leaves nothing stale unless its batch fails in front of an old failure. -/
theorem stale_last_iff : i.stale i.goods i.lastRead = 0 ↔ (i.lastRead = some true →
    (∃ j, j < i.goods.length % i.option.m_ArrayCount ∧
      i.server.paramStatus (i.goods.length / i.option.m_ArrayCount) j ≠ .success) →
    ∀ j, i.goods.length % i.option.m_ArrayCount ≤ j → j < i.option.m_ArrayCount →
      i.statusAt (i.goods.length / i.option.m_ArrayCount) j = .success) := by
  by_cases hlast : i.lastRead = some true
  · rw [hlast, stale_eq_zero_iff (i.goods_ne_nil hlast)]
    exact ⟨fun h _ => h, fun h => h rfl⟩
  · apply iff_of_true
    · rcases hl : i.lastRead with _ | _ | _
      · rfl
      · rfl
      · exact absurd hl hlast
    · exact fun h => absurd h hlast

theorem reported_iff (n : Nat) :
    (((List.range n).map (i.answer i.goods)).filter fun r => r.2 = .successWithInfo).length = 0 ↔
      ∀ m, m < n → i.server.paramStatus (m / i.option.m_ArrayCount)
        (m % i.option.m_ArrayCount) ≠ .successWithInfo := by
  simp [List.filter_eq_nil_iff, answer]

theorem accounted_iff (h : i.LoadwithPrepare.2 ≠ .fatal) : i.Accounted ↔ i.Regular := by
  have hended := i.looped_ended h
  obtain ⟨hexecuted, htotal⟩ := i.lastCommit_executed i.looped.1
  obtain ⟨p, herr, hcommits⟩ := i.lastCommit_errors hended.tally.errors
  have hbatches : i.LoadwithPrepare.1.executed = i.batches i.goods i.lastRead :=
    hexecuted.trans hended.executed
  have hselected : i.goods.length + parseErrors i.selected = i.selected.length :=
    length_wellRead_add i.selected
  have hcounts : i.LoadwithPrepare.1.nTotal = i.selected.length ∧
      i.LoadwithPrepare.1.nErrCount = parseErrors i.selected +
        ((i.batches i.goods i.lastRead).map i.option.failed).sum +
        i.stale i.goods i.lastRead + p := by
    rw [← hbatches]
    exact ⟨htotal.trans hended.nTotal, hexecuted ▸ herr⟩
  by_cases hsent : (i.batches i.goods i.lastRead).flatten.map Prod.fst = i.goods
  · obtain ⟨hlast, hsized⟩ := i.sent_iff.mp hsent
    have hloads : i.option.loads (wellRead i.selected).length i.looped.1.executed =
        i.arrivals i.goods := by
      rw [hended.executed]
      exact loads_batches hsized i.goods_ne_nil
    rw [hloads] at hcommits
    have hrows := flatten_batches hsized i.goods_ne_nil
    have hstatuses := count_statuses (i.batches i.goods i.lastRead).flatten
    have hlength : (i.batches i.goods i.lastRead).flatten.length = i.goods.length := by
      rw [← List.length_map (f := Prod.fst), hsent]
    have hreported := i.reported_iff (i.sentRows i.goods i.lastRead)
    rw [← hrows] at hreported
    have hall : i.sentRows i.goods i.lastRead = i.goods.length := by
      rw [← hlength, hrows, List.length_map, List.length_range]
    rw [hall] at hreported
    rw [sum_failed hsized] at hcounts
    -- the counts are right exactly if nothing is counted beside the rows that failed
    have hexact : i.Accounted ↔
        ((i.batches i.goods i.lastRead).flatten.filter fun r => r.2 = .successWithInfo).length = 0 ∧
          i.stale i.goods i.lastRead = 0 ∧ p = 0 := by
      simp only [Accounted, Load.loadCount, Load.errorCount, Load.inserted, hbatches, hsent,
        hcounts.1, hcounts.2, true_and]
      omega
    rw [hexact, hreported, i.stale_last_iff, hcommits]
    constructor
    · intro hall
      exact ⟨hlast, hall.2.1, hall.1, hall.2.2, hsized⟩
    · intro hreg
      exact ⟨hreg.reported, hreg.stale, hreg.commits⟩
  · apply iff_of_false
    · intro hacc
      apply hsent
      rw [← hbatches]
      exact hacc.1
    · intro hreg
      exact hsent (i.sent_iff.mpr ⟨hreg.lastRow, hreg.sized⟩)

end LoadInput

/-- Two rows of a file of three, the second one with a parse error: with a batch of two rows the
first one waits for a row that does not come. -/
def waitingRow : LoadInput Nat where
  option := ⟨2, none, some 2, 0, Nat.two_pos⟩
  records := [(true, 10), (false, 0), (true, 30)]
  atEnd := 0
  server := ⟨fun _ _ => .success, fun _ => false, fun _ => true⟩
  stmt := 1
  slots := fun _ => 0
  status := fun _ => .unused

theorem waiting_row_lost :
    ¬∀ i : LoadInput Nat, i.LoadwithPrepare.2 ≠ .fatal → i.Accounted := by
  intro h
  have hsent := (h waitingRow (by decide)).1
  exact absurd hsent (by decide)

theorem accounted_iff_waitingRow :
    waitingRow.LoadwithPrepare.2 ≠ .fatal ∧ (waitingRow.Accounted ↔ waitingRow.Regular) :=
  ⟨by decide, waitingRow.accounted_iff (by decide)⟩

end Natc.Ploader
