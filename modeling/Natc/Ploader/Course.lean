import Mathlib.Data.List.Basic
import Mathlib.Data.List.DropRight
import Mathlib.Data.List.GetD
import Mathlib.Data.Nat.Init
import Mathlib.Tactic.Ring
import Natc.Ploader.Load

/-!
# The course of a load

What the loop has done after the selected records read so far: which batches it has executed,
which rows wait in the slots, and what the counters say.
-/

namespace Natc.Ploader

variable {ρ : Type}

/-- The rows between `-F` and `-L`. -/
def LoadOption.inRange (o : LoadOption) (ix : Nat) : Bool :=
  o.m_FirstRow.all (fun f => f ≤ ix) && o.m_LastRow.all (fun l => ix ≤ l)

/-- The selected records, the first one being that of row `ix`. -/
def LoadOption.selected (o : LoadOption) (ix : Nat) (rs : List (Bool × ρ)) : List (Bool × ρ) :=
  ((rs.zipIdx ix).filter fun r => o.inRange r.2).map Prod.fst

/-- Whether the record of the last selected row was read well, if the file goes that far. -/
def LoadOption.lastRead (o : LoadOption) (ix : Nat) (rs : List (Bool × ρ)) : Option Bool :=
  ((rs.zipIdx ix).find? fun r => o.inRange r.2 && o.m_LastRow = some r.2).map fun r => r.1.1

def wellRead (rs : List (Bool × ρ)) : List ρ :=
  (rs.filter Prod.fst).map Prod.snd

def parseErrors (rs : List (Bool × ρ)) : Nat :=
  (rs.filter fun r => !r.1).length

namespace LoadOption

variable (o : LoadOption)

theorem inRange_iff {ix : Nat} : o.inRange ix = true ↔
    (o.m_FirstRow.any fun f => ix < f) = false ∧ (o.m_LastRow.any fun l => l < ix) = false := by
  cases hf : o.m_FirstRow <;> cases hl : o.m_LastRow <;> simp [inRange, hf, hl]

/-- The first row is not before the range once it has begun. -/
theorem any_first_succ {ix : Nat} (h : (o.m_FirstRow.any fun f => ix < f) = false) :
    (o.m_FirstRow.any fun f => ix + 1 < f) = false := by
  cases hf : o.m_FirstRow with
  | none => rfl
  | some f =>
    simp only [hf, Option.any_some, decide_eq_false_iff_not] at h ⊢
    omega

theorem any_last_succ {ix : Nat} (h : (o.m_LastRow.any fun l => l < ix) = false)
    (hne : o.m_LastRow ≠ some ix) : (o.m_LastRow.any fun l => l < ix + 1) = false := by
  cases hl : o.m_LastRow with
  | none => rfl
  | some l =>
    simp only [hl, Option.any_some, decide_eq_false_iff_not, ne_eq, Option.some.injEq] at h hne ⊢
    omega

theorem selected_cons (ix : Nat) (r : Bool × ρ) (rs : List (Bool × ρ)) :
    o.selected ix (r :: rs) =
      (if o.inRange ix then [r] else []) ++ o.selected (ix + 1) rs := by
  cases h : o.inRange ix <;> simp [selected, List.zipIdx_cons, h]

theorem lastRead_cons (ix : Nat) (r : Bool × ρ) (rs : List (Bool × ρ)) :
    o.lastRead ix (r :: rs) =
      if o.inRange ix && o.m_LastRow = some ix then some r.1 else o.lastRead (ix + 1) rs := by
  by_cases h : o.inRange ix && o.m_LastRow = some ix <;>
    simp [lastRead, List.zipIdx_cons, h]

/-- No row behind the last one is selected. -/
theorem selected_past {ix l : Nat} (hl : o.m_LastRow = some l) (hlt : l < ix)
    (rs : List (Bool × ρ)) : o.selected ix rs = [] ∧ o.lastRead ix rs = none := by
  induction rs generalizing ix with
  | nil => exact ⟨rfl, rfl⟩
  | cons r rs ih =>
    have hout : o.inRange ix = false := by simp [inRange, hl, hlt]
    have hrest := @ih (ix + 1) (by omega)
    simp [selected_cons, lastRead_cons, hout, hrest]

end LoadOption

@[simp] theorem wellRead_append (xs ys : List (Bool × ρ)) :
    wellRead (xs ++ ys) = wellRead xs ++ wellRead ys := by
  simp [wellRead]

@[simp] theorem wellRead_true (row : ρ) : wellRead [(true, row)] = [row] := rfl

@[simp] theorem wellRead_false (row : ρ) : wellRead [(false, row)] = [] := rfl

@[simp] theorem parseErrors_append (xs ys : List (Bool × ρ)) :
    parseErrors (xs ++ ys) = parseErrors xs + parseErrors ys := by
  simp [parseErrors]

@[simp] theorem parseErrors_true (row : ρ) : parseErrors [(true, row)] = 0 := rfl

@[simp] theorem parseErrors_false (row : ρ) : parseErrors [(false, row)] = 1 := rfl

theorem length_wellRead_add (rs : List (Bool × ρ)) :
    (wellRead rs).length + parseErrors rs = rs.length := by
  induction rs with
  | nil => rfl
  | cons r rs ih =>
    rw [← List.singleton_append, wellRead_append, parseErrors_append]
    obtain ⟨ok, row⟩ := r
    cases ok <;> simp <;> omega

namespace Load

/-- The rows that are in the table. -/
def insertedRows (rows : List (ρ × ParamStatus)) : List ρ :=
  (rows.filter fun r => r.2.inserted).map Prod.fst

def accepted (rows : List (ρ × ParamStatus)) : Bool :=
  rows.all fun r => r.2 = .success

end Load

/-- The errors that one executed batch counts: with an array, its rows that are not reported as
`SQL_PARAM_SUCCESS`; without one, the failed execution. -/
def LoadOption.failed (o : LoadOption) (rows : List (ρ × ParamStatus)) : Nat :=
  if 1 < o.m_ArrayCount then (rows.filter fun r => r.2 ≠ .success).length
  else if rows.all fun r => r.2 = .success then 0 else 1

/-- How often the loop comes to its commit: with an array for every row, without one for every
successful execution. -/
def LoadOption.loads (o : LoadOption) (rows : Nat) (executed : List (List (ρ × ParamStatus))) : Nat :=
  if 1 < o.m_ArrayCount then rows
  else (executed.filter fun b => b.all fun r => r.2 = .success).length

/-- The rows that executions behind the last accepted one have inserted: without an array such an
iteration does not come to its commit. -/
def LoadOption.tail (o : LoadOption) (executed : List (List (ρ × ParamStatus))) : List ρ :=
  if 1 < o.m_ArrayCount then []
  else (executed.rtakeWhile fun b => !Load.accepted b).flatMap Load.insertedRows

namespace LoadInput

variable (i : LoadInput ρ)

/-- The size of the parameter set before the last batch. -/
def paramset : Nat :=
  if 1 < i.option.m_ArrayCount then i.option.m_ArrayCount else i.stmt

/-- The row in slot `j` of batch `k`: the slots behind the array are never filled. -/
def rowAt (goods : List ρ) (k j : Nat) : ρ :=
  if j < i.option.m_ArrayCount then goods.getD (k * i.option.m_ArrayCount + j) (i.slots j)
  else i.slots j

/-- Batch `k`, executed with a parameter set of the given size. -/
def batch (goods : List ρ) (width k : Nat) : List (ρ × ParamStatus) :=
  (List.range width).map fun j => (i.rowAt goods k j, i.server.paramStatus k j)

/-- The status array before the execution of batch `k`. -/
def statusAt (k j : Nat) : ParamStatus :=
  if k = 0 then i.status j else i.server.paramStatus (k - 1) j

theorem rowAt_append (goods : List ρ) (row : ρ) {k j : Nat}
    (h : k * i.option.m_ArrayCount + j < goods.length) :
    i.rowAt (goods ++ [row]) k j = i.rowAt goods k j := by
  simp only [rowAt, List.getD_append _ _ _ _ h]

theorem rowAt_concat (goods : List ρ) (row : ρ) :
    i.rowAt (goods ++ [row]) (goods.length / i.option.m_ArrayCount)
      (goods.length % i.option.m_ArrayCount) = row := by
  have hlt := Nat.mod_lt goods.length i.option.array_pos
  have heq := Nat.div_add_mod' goods.length i.option.m_ArrayCount
  simp only [rowAt, if_pos hlt, heq]
  simp

theorem batch_append (goods : List ρ) (row : ρ) (width : Nat) {k : Nat}
    (h : (k + 1) * i.option.m_ArrayCount ≤ goods.length) :
    i.batch (goods ++ [row]) width k = i.batch goods width k := by
  apply List.map_congr_left
  intro j _
  by_cases hj : j < i.option.m_ArrayCount
  · rw [i.rowAt_append]
    rw [Nat.succ_mul] at h
    omega
  · simp only [rowAt, if_neg hj]

theorem batches_append (goods : List ρ) (row : ρ) (width : Nat) {n : Nat}
    (h : n * i.option.m_ArrayCount ≤ goods.length) :
    (List.range n).map (i.batch (goods ++ [row]) width) =
      (List.range n).map (i.batch goods width) := by
  apply List.map_congr_left
  intro k hk
  apply i.batch_append
  exact (Nat.mul_le_mul_right _ (List.mem_range.mp hk)).trans h

end LoadInput

/-- The number of rows that wait, and of full batches, with one row more. -/
theorem succ_div_mod_of_lt {g a : Nat} (h : g % a + 1 < a) :
    (g + 1) / a = g / a ∧ (g + 1) % a = g % a + 1 := by
  apply (Nat.div_mod_unique (by omega)).mpr
  exact ⟨by have := Nat.mod_add_div g a; omega, h⟩

theorem succ_div_mod_of_eq {g a : Nat} (h : g % a + 1 = a) :
    (g + 1) / a = g / a + 1 ∧ (g + 1) % a = 0 := by
  apply (Nat.div_mod_unique (by omega)).mpr
  have := Nat.mod_add_div g a
  rw [Nat.mul_add]
  omega

/-! ## The counters -/

namespace Load

variable (o : LoadOption) (sv : Server) (s : Load ρ)

variable {o sv s}

/-- Between two commits. -/
theorem commitUnit_idle (h : ¬(0 < o.m_CommitUnit ∧ s.nLoad % o.m_CommitUnit = 0)) :
    s.commitUnit o sv = { s with nLoad := s.nLoad + 1 } := by
  simp only [commitUnit, if_neg h]

theorem commitUnit_done (h : 0 < o.m_CommitUnit ∧ s.nLoad % o.m_CommitUnit = 0)
    (hc : sv.commit s.endTrans.length = true) :
    s.commitUnit o sv = { s with
      endTrans := s.endTrans ++ [true], openRows := [], nLoad := s.nLoad + 1 } := by
  simp only [commitUnit, if_pos h, endTran, hc, if_true]

theorem commitUnit_failed (h : 0 < o.m_CommitUnit ∧ s.nLoad % o.m_CommitUnit = 0)
    (hc : sv.commit s.endTrans.length = false) :
    s.commitUnit o sv = { s with
      endTrans := s.endTrans ++ [false], openRows := []
      nErrCount := s.nErrCount + o.m_CommitUnit
      badFile := if o.m_CommitUnit = 1 then s.badFile ++ [s.slots (s.sRealCount - 1)]
        else s.badFile } := by
  simp only [commitUnit, if_pos h, endTran, hc, Bool.false_eq_true, if_false]

theorem commitUnit_cases (P : Load ρ → Prop)
    (idle : ¬(0 < o.m_CommitUnit ∧ s.nLoad % o.m_CommitUnit = 0) →
      P { s with nLoad := s.nLoad + 1 })
    (done : 0 < o.m_CommitUnit → s.nLoad % o.m_CommitUnit = 0 →
      sv.commit s.endTrans.length = true → P { s with
        endTrans := s.endTrans ++ [true], openRows := [], nLoad := s.nLoad + 1 })
    (failed : 0 < o.m_CommitUnit → s.nLoad % o.m_CommitUnit = 0 →
      sv.commit s.endTrans.length = false → P { s with
        endTrans := s.endTrans ++ [false], openRows := []
        nErrCount := s.nErrCount + o.m_CommitUnit
        badFile := if o.m_CommitUnit = 1 then s.badFile ++ [s.slots (s.sRealCount - 1)]
          else s.badFile }) : P (s.commitUnit o sv) := by
  by_cases h : 0 < o.m_CommitUnit ∧ s.nLoad % o.m_CommitUnit = 0
  · cases hc : sv.commit s.endTrans.length with
    | true =>
      rw [commitUnit_done h hc]
      exact done h.1 h.2 hc
    | false =>
      rw [commitUnit_failed h hc]
      exact failed h.1 h.2 hc
  · rw [commitUnit_idle h]
    exact idle h

variable (o sv s)

@[simp] theorem commitUnit_slots : (s.commitUnit o sv).slots = s.slots :=
  commitUnit_cases (fun t => t.slots = s.slots)
    (fun _ => rfl) (fun _ _ _ => rfl) (fun _ _ _ => rfl)

@[simp] theorem commitUnit_sStatusPtr : (s.commitUnit o sv).sStatusPtr = s.sStatusPtr :=
  commitUnit_cases (fun t => t.sStatusPtr = s.sStatusPtr)
    (fun _ => rfl) (fun _ _ _ => rfl) (fun _ _ _ => rfl)

@[simp] theorem commitUnit_paramsetSize : (s.commitUnit o sv).paramsetSize = s.paramsetSize :=
  commitUnit_cases (fun t => t.paramsetSize = s.paramsetSize)
    (fun _ => rfl) (fun _ _ _ => rfl) (fun _ _ _ => rfl)

@[simp] theorem commitUnit_ix : (s.commitUnit o sv).ix = s.ix :=
  commitUnit_cases (fun t => t.ix = s.ix) (fun _ => rfl) (fun _ _ _ => rfl) (fun _ _ _ => rfl)

@[simp] theorem commitUnit_nTotal : (s.commitUnit o sv).nTotal = s.nTotal :=
  commitUnit_cases (fun t => t.nTotal = s.nTotal)
    (fun _ => rfl) (fun _ _ _ => rfl) (fun _ _ _ => rfl)

@[simp] theorem commitUnit_sRealCount : (s.commitUnit o sv).sRealCount = s.sRealCount :=
  commitUnit_cases (fun t => t.sRealCount = s.sRealCount)
    (fun _ => rfl) (fun _ _ _ => rfl) (fun _ _ _ => rfl)

@[simp] theorem commitUnit_executed : (s.commitUnit o sv).executed = s.executed :=
  commitUnit_cases (fun t => t.executed = s.executed)
    (fun _ => rfl) (fun _ _ _ => rfl) (fun _ _ _ => rfl)

end Load

/-- The errors counted are `errors` and those of the commits. After `loads` rows that came to the
commit either every commit was done, or one was not and its rows count as errors too. -/
structure ErrorTally (i : LoadInput ρ) (errors loads : Nat) (s : Load ρ) : Prop where
  intro ::
  tally : ∃ p, s.nErrCount = errors + p ∧
    ((p = 0 ∧ s.nLoad = loads + 1 ∧ s.endTrans.length = loads / i.option.m_CommitUnit ∧
        ∀ k, k < loads / i.option.m_CommitUnit → i.server.commit k = true) ∨
      (0 < p ∧ ∃ k, k < loads / i.option.m_CommitUnit ∧ i.server.commit k = false))

namespace ErrorTally

variable {i : LoadInput ρ} {errors loads : Nat} {s : Load ρ}

theorem commit (h : ErrorTally i errors loads s) :
    ErrorTally i errors (loads + 1) (s.commitUnit i.option i.server) := by
  obtain ⟨p, herr, ⟨rfl, hload, hend, hall⟩ | ⟨hp, k, hk, hfail⟩⟩ := h
  · apply Load.commitUnit_cases
    · intro hidle
      have hdiv : (loads + 1) / i.option.m_CommitUnit = loads / i.option.m_CommitUnit := by
        rcases Nat.eq_zero_or_pos i.option.m_CommitUnit with h0 | h0
        · simp [h0]
        · apply Nat.succ_div_of_mod_ne_zero
          intro hmod
          exact hidle ⟨h0, hload ▸ hmod⟩
      refine ⟨0, herr, Or.inl ⟨rfl, ?_, ?_, ?_⟩⟩
      · simp only [hload]
      · rw [hdiv, hend]
      · rw [hdiv]
        exact hall
    all_goals
      intro hpos hmod hc
      -- the attempt is that of the next full unit
      have hdiv : (loads + 1) / i.option.m_CommitUnit = loads / i.option.m_CommitUnit + 1 :=
        Nat.succ_div_of_mod_eq_zero (hload ▸ hmod)
      rw [hend] at hc
    · refine ⟨0, herr, Or.inl ⟨rfl, ?_, ?_, ?_⟩⟩
      · simp only [hload]
      · simp only [List.length_append, List.length_singleton, hend, hdiv]
      · intro k hk
        rcases Nat.lt_succ_iff_lt_or_eq.mp (hdiv ▸ hk) with hk | rfl
        · exact hall k hk
        · exact hc
    · refine ⟨i.option.m_CommitUnit, ?_, Or.inr ⟨hpos, _, ?_, hc⟩⟩
      · simp only [herr, Nat.add_zero]
      · omega
  · have hmono : loads / i.option.m_CommitUnit ≤ (loads + 1) / i.option.m_CommitUnit :=
      Nat.div_le_div_right (Nat.le_succ _)
    have hfailed : ∃ k, k < (loads + 1) / i.option.m_CommitUnit ∧ i.server.commit k = false :=
      ⟨k, by omega, hfail⟩
    apply Load.commitUnit_cases
    · intro _
      exact ⟨p, herr, Or.inr ⟨hp, hfailed⟩⟩
    · intro _ _ _
      exact ⟨p, herr, Or.inr ⟨hp, hfailed⟩⟩
    · intro _ _ _
      refine ⟨p + i.option.m_CommitUnit, ?_, Or.inr ⟨by omega, hfailed⟩⟩
      simp only [herr, Nat.add_assoc]

theorem congr {t : Load ρ} {e : Nat} (h : ErrorTally i errors loads s)
    (herr : t.nErrCount = s.nErrCount + e) (hload : t.nLoad = s.nLoad)
    (hend : t.endTrans = s.endTrans) : ErrorTally i (errors + e) loads t := by
  obtain ⟨p, hp, hcase⟩ := h
  refine ⟨p, by omega, ?_⟩
  rw [hload, hend]
  exact hcase

end ErrorTally

/-- The row counter and the number of commits tried, after so many rows that came to the commit:
a failed commit leaves the row counter where it is. -/
def LoadInput.counters (i : LoadInput ρ) : Nat → Nat × Nat
  | 0 => (1, 0)
  | n + 1 =>
      let (nLoad, tried) := i.counters n
      if 0 < i.option.m_CommitUnit ∧ nLoad % i.option.m_CommitUnit = 0 then
        (if i.server.commit tried then nLoad + 1 else nLoad, tried + 1)
      else (nLoad + 1, tried)

/-- The counters of the load. `tail` are the inserted rows that no iteration has committed, and
that the row counter does not show: if it is at the end of a unit, no other row is open. -/
structure Tally (i : LoadInput ρ) (errors loads : Nat) (tail : List ρ) (s : Load ρ) : Prop where
  errors : ErrorTally i errors loads s
  counters : (s.nLoad, s.endTrans.length) = i.counters loads
  open_of_tail : 0 < i.option.m_CommitUnit → tail ≠ [] → s.openRows ≠ []
  tail_of_open : 0 < i.option.m_CommitUnit → s.openRows ≠ [] →
    tail ≠ [] ∨ (s.nLoad - 1) % i.option.m_CommitUnit ≠ 0

namespace Tally

variable {i : LoadInput ρ} {errors loads : Nat} {tail : List ρ} {s : Load ρ}

/-- Behind an iteration that has come to its commit no row is forgotten. -/
theorem commit (h : Tally i errors loads tail s) :
    Tally i errors (loads + 1) [] (s.commitUnit i.option i.server) where
  errors := h.errors.commit
  counters := by
    have hcounters := h.counters
    simp only [LoadInput.counters, ← hcounters]
    refine Load.commitUnit_cases (fun t => (t.nLoad, t.endTrans.length) = _) ?_ ?_ ?_
    · intro hidle
      rw [if_neg hidle]
    · intro hpos hmod hc
      have hunit := And.intro hpos hmod
      rw [if_pos hunit, if_pos hc, List.length_append, List.length_singleton]
    · intro hpos hmod hc
      have hunit := And.intro hpos hmod
      rw [if_pos hunit, hc, List.length_append, List.length_singleton]
      rfl
  open_of_tail := fun _ hne => absurd rfl hne
  tail_of_open := by
    intro hpos
    refine Load.commitUnit_cases (fun t => t.openRows ≠ [] → [] ≠ [] ∨ (t.nLoad - 1) % _ ≠ 0)
      ?_ ?_ ?_
    · intro hidle _
      right
      simp only [Nat.add_sub_cancel]
      exact fun hmod => hidle ⟨hpos, hmod⟩
    · exact fun _ _ _ hne => absurd rfl hne
    · exact fun _ _ _ hne => absurd rfl hne

theorem congr {t : Load ρ} {e : Nat} {rows : List ρ} (h : Tally i errors loads tail s)
    (herr : t.nErrCount = s.nErrCount + e) (hload : t.nLoad = s.nLoad)
    (hend : t.endTrans = s.endTrans)
    (hopen : 0 < i.option.m_CommitUnit → t.openRows = s.openRows ++ rows) :
    Tally i (errors + e) loads (tail ++ rows) t where
  errors := h.errors.congr herr hload hend
  counters := by
    rw [hload, hend]
    exact h.counters
  open_of_tail := by
    intro hpos hne
    rw [hopen hpos]
    intro hnil
    obtain ⟨hs, hrows⟩ := List.append_eq_nil_iff.mp hnil
    rw [hrows, List.append_nil] at hne
    exact h.open_of_tail hpos hne hs
  tail_of_open := by
    intro hpos hne
    rw [hopen hpos] at hne
    rw [hload]
    by_cases hrows : rows = []
    · rw [hrows, List.append_nil] at hne ⊢
      exact h.tail_of_open hpos hne
    · exact Or.inl fun hnil => hrows (List.append_eq_nil_iff.mp hnil).2

theorem add {t : Load ρ} {e : Nat} (h : Tally i errors loads tail s)
    (herr : t.nErrCount = s.nErrCount + e) (hload : t.nLoad = s.nLoad)
    (hend : t.endTrans = s.endTrans) (hopen : t.openRows = s.openRows) :
    Tally i (errors + e) loads tail t := by
  have hadd := h.congr herr hload hend (fun _ => hopen.trans (List.append_nil _).symm)
  rw [List.append_nil] at hadd
  exact hadd

theorem same {t : Load ρ} (h : Tally i errors loads tail s) (herr : t.nErrCount = s.nErrCount)
    (hload : t.nLoad = s.nLoad) (hend : t.endTrans = s.endTrans)
    (hopen : t.openRows = s.openRows) : Tally i errors loads tail t :=
  h.add (e := 0) herr hload hend hopen

end Tally

/-! ## One iteration -/

namespace Load

variable {o : LoadOption} {sv : Server} {s : Load ρ} {row : ρ}

theorem any_first (h : o.inRange s.ix = true) :
    (o.m_FirstRow.any fun f => s.ix < f) = false := (o.inRange_iff.mp h).1

theorem any_last (h : o.inRange s.ix = true) :
    (o.m_LastRow.any fun l => l < s.ix) = false := (o.inRange_iff.mp h).2

theorem iteration_error (sv : Server) (row : ρ) (h : o.inRange s.ix = true) :
    s.iteration o sv .error row =
      ({ s.readRow o row with
          nTotal := s.nTotal + 1, nErrCount := s.nErrCount + 1
          badFile := s.badFile ++ [row] }, .continue) := by
  have hix : (s.readRow o row).ix = s.ix := rfl
  simp only [iteration, hix, any_first h, any_last h]
  simp [readRow]

/-- A record read well and counted. -/
def taken (o : LoadOption) (row : ρ) (s : Load ρ) : Load ρ :=
  { s.readRow o row with
    nTotal := s.nTotal + 1
    sRealCount := (s.readRow o row).sRealCount + 1 }

theorem iteration_record (h : o.inRange s.ix = true) :
    s.iteration o sv .record row =
      if (s.taken o row).sRealCount = o.m_ArrayCount ∨ o.m_LastRow = some s.ix then
        (s.taken o row).executeBatch o sv .record
      else ((s.taken o row).commitUnit o sv, .continue) := by
  have hix : (s.readRow o row).ix = s.ix := rfl
  simp only [iteration, hix, any_first h, any_last h]
  simp only [reduceCtorEq, false_and, Bool.false_eq_true, if_false, false_or]
  rfl

/-- Before the first row the slots stay empty. -/
theorem iteration_skip {f : Nat} {nRet : ReadResult} (hf : o.m_FirstRow = some f)
    (hlt : s.ix < f) (h0 : s.sRealCount = 0) :
    s.iteration o sv nRet row =
      ({ s with slots := Function.update s.slots 0 row }, .continue) := by
  have ha := o.array_pos.ne
  have hix : (s.readRow o row).ix = s.ix := rfl
  simp only [iteration, hix, hf, Option.any_some, hlt]
  simp [readRow, h0, ha]

/-- Behind the last row, and at the end of the file with no row waiting. -/
theorem iteration_past {nRet : ReadResult}
    (hf : (o.m_FirstRow.any fun f => s.ix < f) = false)
    (hl : (o.m_LastRow.any fun l => l < s.ix) = true) :
    s.iteration o sv nRet row = (s.readRow o row,
      if nRet = .endOfFile ∧ (s.readRow o row).sRealCount = 0 then .continue else .lastRow) := by
  have hix : (s.readRow o row).ix = s.ix := rfl
  simp only [iteration, hix, hf, hl]
  split
  · rfl
  · simp

theorem iteration_empty (h : (s.readRow o row).sRealCount = 0) :
    s.iteration o sv .endOfFile row = (s.readRow o row, .continue) := by
  simp only [iteration]
  simp [h]

theorem iteration_rest (h : (s.readRow o row).sRealCount ≠ 0)
    (hf : (o.m_FirstRow.any fun f => s.ix < f) = false)
    (hl : (o.m_LastRow.any fun l => l < s.ix) = false) :
    s.iteration o sv .endOfFile row =
      { s.readRow o row with sRealCount := (s.readRow o row).sRealCount + 1 }.executeBatch o sv
        .endOfFile := by
  have hix : (s.readRow o row).ix = s.ix := rfl
  simp only [iteration, h, hix, hf, hl]
  simp only [and_false, Bool.false_eq_true, reduceCtorEq, if_true, if_false, or_true,
    true_or]
  rfl

/-! ## One execution -/

/-- The rows of the parameter set, with the status the server reports of them. -/
def answered (sv : Server) (s : Load ρ) : List (ρ × ParamStatus) :=
  (List.range s.paramsetSize).map fun j => (s.slots j, sv.paramStatus s.executed.length j)

theorem execute_snd : (s.execute o sv).2 = accepted (s.answered sv) := rfl

theorem execute_openRows (h : 0 < o.m_CommitUnit) :
    (s.execute o sv).1.openRows = s.openRows ++ insertedRows (s.answered sv) :=
  if_neg h.ne'

/-- The commit behind an execution, which the one at the end of the file leaves out. -/
def committed (o : LoadOption) (sv : Server) (nRet : ReadResult) (s : Load ρ) : Load ρ :=
  if nRet = .endOfFile then s else s.commitUnit o sv

variable {nRet : ReadResult}

theorem setParamsetSize_executed : (s.setParamsetSize o nRet).executed = s.executed := rfl

theorem executeBatch_accepted (h : accepted ((s.setParamsetSize o nRet).answered sv) = true) :
    s.executeBatch o sv nRet =
      (committed o sv nRet ((s.setParamsetSize o nRet).execute o sv).1, .continue) := by
  rw [← execute_snd (o := o)] at h
  simp only [executeBatch, h, Bool.true_eq_false, false_and, if_false, if_true, committed]
  split <;> rfl

theorem executeBatch_fatal (h : accepted ((s.setParamsetSize o nRet).answered sv) = false)
    (hf : sv.fatal s.executed.length = true) : (s.executeBatch o sv nRet).2 = .fatal := by
  rw [← execute_snd (o := o)] at h
  simp only [executeBatch, h, setParamsetSize_executed, hf, true_and, if_true]
  split <;> rfl

theorem executeBatch_single (h : accepted ((s.setParamsetSize o nRet).answered sv) = false)
    (hf : sv.fatal s.executed.length = false) (ha : o.m_ArrayCount = 1) :
    s.executeBatch o sv nRet =
      let t := ((s.setParamsetSize o nRet).execute o sv).1
      ({ t with
          nErrCount := t.nErrCount + 1
          badFile := t.badFile ++ [t.slots (t.sRealCount - 1)] }, .continue) := by
  rw [← execute_snd (o := o)] at h
  simp only [executeBatch, h, setParamsetSize_executed, hf, ha, true_and, if_true,
    Bool.false_eq_true, if_false]

theorem executeBatch_array (h : accepted ((s.setParamsetSize o nRet).answered sv) = false)
    (hf : sv.fatal s.executed.length = false) (ha : 1 < o.m_ArrayCount) :
    s.executeBatch o sv nRet =
      (committed o sv nRet
        (((s.setParamsetSize o nRet).execute o sv).1.countErrors o nRet), .continue) := by
  rw [← execute_snd (o := o)] at h
  simp only [executeBatch, h, setParamsetSize_executed, hf, ha.ne', and_false, if_false,
    Bool.false_eq_true, committed]
  split <;> rfl

end Load

/-- The errors an execution counts. -/
def LoadInput.counted (i : LoadInput ρ) (nRet : ReadResult) (s : Load ρ) : Nat :=
  let t := s.setParamsetSize i.option nRet
  if Load.accepted (t.answered i.server) then 0
  else if i.option.m_ArrayCount = 1 then 1
  else ((List.range (if nRet = .endOfFile then s.sRealCount - 1 else i.option.m_ArrayCount)).filter
    fun j => (t.execute i.option i.server).1.sStatusPtr j ≠ .success).length

/-- Whether the iteration goes on to its commit. -/
def LoadInput.arrives (i : LoadInput ρ) (nRet : ReadResult) (s : Load ρ) : Nat :=
  if nRet = .endOfFile then 0
  else if Load.accepted ((s.setParamsetSize i.option nRet).answered i.server) then 1
  else if i.option.m_ArrayCount = 1 then 0
  else 1

/-- What an execution that does not end the load leaves behind. -/
structure Executed (i : LoadInput ρ) (nRet : ReadResult) (s t : Load ρ) : Prop where
  executed : t.executed = s.executed ++ [(s.setParamsetSize i.option nRet).answered i.server]
  slots : t.slots = s.slots
  sRealCount : t.sRealCount = s.sRealCount
  nTotal : t.nTotal = s.nTotal
  ix : t.ix = s.ix
  paramsetSize : t.paramsetSize = (s.setParamsetSize i.option nRet).paramsetSize
  sStatusPtr : t.sStatusPtr =
    ((s.setParamsetSize i.option nRet).execute i.option i.server).1.sStatusPtr
  tally : ∀ errors loads tail, Tally i errors loads tail s →
    Tally i (errors + i.counted nRet s) (loads + i.arrives nRet s)
      (if i.arrives nRet s = 0 then
        tail ++ Load.insertedRows ((s.setParamsetSize i.option nRet).answered i.server) else []) t

namespace Load

variable {i : LoadInput ρ} {nRet : ReadResult} {s t : Load ρ}

theorem executed_committed {e : Nat}
    (hrun : t = { (s.setParamsetSize i.option nRet).execute i.option i.server |>.1 with
      nErrCount := s.nErrCount + e, badFile := t.badFile })
    (hcount : i.counted nRet s = e) (harr : i.arrives nRet s = if nRet = .endOfFile then 0 else 1) :
    Executed i nRet s (committed i.option i.server nRet t) := by
  have htally : ∀ errors loads tail, Tally i errors loads tail s → Tally i (errors + e) loads
      (tail ++ insertedRows ((s.setParamsetSize i.option nRet).answered i.server)) t := by
    intro errors loads tail h
    rw [hrun]
    exact h.congr rfl rfl rfl execute_openRows
  rw [hrun] at htally ⊢
  simp only [committed]
  by_cases hend : nRet = .endOfFile
  · simp only [if_pos hend] at harr ⊢
    refine ⟨rfl, rfl, rfl, rfl, rfl, rfl, rfl, ?_⟩
    intro errors loads tail h
    rw [hcount, harr, if_pos rfl]
    exact htally errors loads tail h
  · simp only [if_neg hend] at harr ⊢
    refine ⟨?_, ?_, ?_, ?_, ?_, ?_, ?_, ?_⟩
    · rw [commitUnit_executed]; rfl
    · rw [commitUnit_slots]; rfl
    · rw [commitUnit_sRealCount]; rfl
    · rw [commitUnit_nTotal]; rfl
    · rw [commitUnit_ix]; rfl
    · rw [commitUnit_paramsetSize]; rfl
    · rw [commitUnit_sStatusPtr]
    · intro errors loads tail h
      rw [hcount, harr, if_neg Nat.one_ne_zero]
      exact (htally errors loads tail h).commit

theorem executeBatch_executed (h : (s.executeBatch i.option i.server nRet).2 = .continue) :
    Executed i nRet s (s.executeBatch i.option i.server nRet).1 := by
  cases hacc : accepted ((s.setParamsetSize i.option nRet).answered i.server) with
  | true =>
    rw [executeBatch_accepted hacc]
    apply executed_committed (e := 0) rfl
    · simp [LoadInput.counted, hacc]
    · simp [LoadInput.arrives, hacc]
  | false =>
    cases hfatal : i.server.fatal s.executed.length with
    | true =>
      rw [executeBatch_fatal hacc hfatal] at h
      cases h
    | false =>
      rcases Nat.eq_or_lt_of_le (Nat.succ_le_of_lt i.option.array_pos) with ha | ha
      · rw [executeBatch_single hacc hfatal ha.symm]
        refine ⟨rfl, rfl, rfl, rfl, rfl, rfl, rfl, ?_⟩
        intro errors loads tail ht
        have hc : i.counted nRet s = 1 := by simp [LoadInput.counted, hacc, ← ha]
        have hn : i.arrives nRet s = 0 := by simp [LoadInput.arrives, hacc, ← ha]
        rw [hc, hn, if_pos rfl]
        exact ht.congr rfl rfl rfl execute_openRows
      · rw [executeBatch_array hacc hfatal ha]
        apply executed_committed rfl
        · simp [LoadInput.counted, hacc, ha.ne']
          rfl
        · simp [LoadInput.arrives, hacc, ha.ne']

end Load

/-! ## The loop up to the last row -/

/-- The state of the loop after the selected records `sel`, none of which was the last one. -/
structure Progress (i : LoadInput ρ) (sel : List (Bool × ρ)) (s : Load ρ) : Prop where
  count_le : s.sRealCount ≤ i.option.m_ArrayCount
  count : s.sRealCount % i.option.m_ArrayCount =
    (wellRead sel).length % i.option.m_ArrayCount
  filled : ∀ j, j < (wellRead sel).length % i.option.m_ArrayCount →
    s.slots j = i.rowAt (wellRead sel) ((wellRead sel).length / i.option.m_ArrayCount) j
  beyond : ∀ j, i.option.m_ArrayCount ≤ j → s.slots j = i.slots j
  paramsetSize : s.paramsetSize = i.paramset
  executed : s.executed = (List.range ((wellRead sel).length / i.option.m_ArrayCount)).map
    (i.batch (wellRead sel) i.paramset)
  nTotal : s.nTotal = sel.length
  status : 1 < i.option.m_ArrayCount → ∀ j, j < i.option.m_ArrayCount →
    s.sStatusPtr j = i.statusAt ((wellRead sel).length / i.option.m_ArrayCount) j
  tally : Tally i (parseErrors sel + (s.executed.map i.option.failed).sum)
    (i.option.loads (wellRead sel).length s.executed) (i.option.tail s.executed) s

namespace Progress

variable {i : LoadInput ρ} {sel : List (Bool × ρ)} {s : Load ρ} {row : ρ}

theorem length_executed (h : Progress i sel s) :
    s.executed.length = (wellRead sel).length / i.option.m_ArrayCount := by
  rw [h.executed, List.length_map, List.length_range]

theorem readRow_count (h : Progress i sel s) (row : ρ) :
    (s.readRow i.option row).sRealCount = (wellRead sel).length % i.option.m_ArrayCount := by
  have hcount := h.count
  simp only [Load.readRow]
  split
  · next heq => rw [← hcount, heq, Nat.mod_self]
  · next hne => rw [← hcount, Nat.mod_eq_of_lt (lt_of_le_of_ne h.count_le hne)]

/-- The next slot takes what was read, and the others keep their rows. -/
theorem readRow_slots (h : Progress i sel s) :
    (s.readRow i.option row).slots = Function.update s.slots
      ((wellRead sel).length % i.option.m_ArrayCount) row := by
  rw [← h.readRow_count row]
  rfl

theorem readRow_filled (h : Progress i sel s) {j : Nat}
    (hj : j < (wellRead sel).length % i.option.m_ArrayCount) :
    (s.readRow i.option row).slots j =
      i.rowAt (wellRead sel) ((wellRead sel).length / i.option.m_ArrayCount) j := by
  rw [h.readRow_slots, Function.update_of_ne hj.ne]
  exact h.filled j hj

theorem readRow_beyond (h : Progress i sel s) {j : Nat} (hj : i.option.m_ArrayCount ≤ j) :
    (s.readRow i.option row).slots j = i.slots j := by
  have hlt := Nat.mod_lt (wellRead sel).length i.option.array_pos
  rw [h.readRow_slots, Function.update_of_ne (hlt.trans_le hj).ne']
  exact h.beyond j hj

/-- With the row in the next slot, the slots hold the waiting rows of the longer list. -/
theorem readRow_next (h : Progress i sel s) {j : Nat}
    (hj : j ≤ (wellRead sel).length % i.option.m_ArrayCount) :
    (s.readRow i.option row).slots j = i.rowAt (wellRead sel ++ [row])
      ((wellRead sel).length / i.option.m_ArrayCount) j := by
  rcases Nat.lt_or_eq_of_le hj with hlt | rfl
  · rw [h.readRow_filled hlt, i.rowAt_append]
    have := Nat.div_add_mod' (wellRead sel).length i.option.m_ArrayCount
    omega
  · rw [h.readRow_slots, Function.update_self, i.rowAt_concat]

theorem error (h : Progress i sel s) (row : ρ) (hin : i.option.inRange s.ix = true) {t : Load ρ}
    (ht : t = (s.iteration i.option i.server .error row).1) :
    Progress i (sel ++ [(false, row)]) t := by
  rw [Load.iteration_error i.server row hin] at ht
  subst ht
  constructor <;> simp only [wellRead_append, wellRead_false, List.append_nil]
  case count_le =>
    rw [h.readRow_count]
    exact (Nat.mod_lt _ i.option.array_pos).le
  case count => rw [h.readRow_count, Nat.mod_mod]
  case filled => exact fun j hj => h.readRow_filled hj
  case beyond => exact fun j hj => h.readRow_beyond hj
  case paramsetSize => exact h.paramsetSize
  case executed => exact h.executed
  case nTotal => rw [h.nTotal, List.length_append, List.length_singleton]
  case status => exact h.status
  case tally =>
    rw [parseErrors_append, parseErrors_false, Nat.add_right_comm]
    exact h.tally.add rfl rfl rfl rfl

theorem nextRow (h : Progress i sel s) (n : Nat) : Progress i sel { s with ix := n } :=
  ⟨h.count_le, h.count, h.filled, h.beyond, h.paramsetSize, h.executed, h.nTotal, h.status,
    h.tally.same rfl rfl rfl rfl⟩

theorem taken_count (h : Progress i sel s) (row : ρ) : (s.taken i.option row).sRealCount =
    (wellRead sel).length % i.option.m_ArrayCount + 1 := by
  rw [← h.readRow_count row]
  rfl

theorem fill (h : Progress i sel s)
    (hroom : (wellRead sel).length % i.option.m_ArrayCount + 1 ≠ i.option.m_ArrayCount) :
    Progress i (sel ++ [(true, row)])
      ((s.taken i.option row).commitUnit i.option i.server) := by
  have hlt := Nat.mod_lt (wellRead sel).length i.option.array_pos
  have hsucc := succ_div_mod_of_lt (g := (wellRead sel).length) (a := i.option.m_ArrayCount)
    (by omega)
  have harray : 1 < i.option.m_ArrayCount := by omega
  constructor <;>
    simp only [wellRead_append, wellRead_true, List.length_append, List.length_singleton, hsucc,
      Load.commitUnit_slots, Load.commitUnit_sRealCount, Load.commitUnit_executed,
      Load.commitUnit_nTotal, Load.commitUnit_paramsetSize, Load.commitUnit_sStatusPtr,
      h.taken_count]
  case count_le => exact hlt
  case count => exact Nat.mod_eq_of_lt (by omega)
  case filled => exact fun j hj => h.readRow_next (Nat.lt_succ_iff.mp hj)
  case beyond => exact fun j hj => h.readRow_beyond hj
  case paramsetSize => exact h.paramsetSize
  case executed =>
    rw [i.batches_append _ _ _ (Nat.div_mul_le_self _ _)]
    exact h.executed
  case nTotal => exact congrArg (· + 1) h.nTotal
  case status => exact h.status
  case tally =>
    have htally := h.tally
    simp only [LoadOption.loads, LoadOption.tail, if_pos harray] at htally ⊢
    rw [parseErrors_append, parseErrors_true, Nat.add_zero]
    apply Tally.commit
    exact htally.same rfl rfl rfl rfl

end Progress

theorem answered_eq_batch {i : LoadInput ρ} {goods : List ρ} {k : Nat} {t : Load ρ}
    (hk : t.executed.length = k) (hslots : ∀ j, j < t.paramsetSize → t.slots j = i.rowAt goods k j) :
    t.answered i.server = i.batch goods t.paramsetSize k := by
  apply List.map_congr_left
  intro j hj
  rw [hslots j (List.mem_range.mp hj), hk]

theorem failed_answered {o : LoadOption} (sv : Server) (t : Load ρ) (ha : 1 < o.m_ArrayCount) :
    o.failed (t.answered sv) = ((List.range t.paramsetSize).filter fun j =>
      sv.paramStatus t.executed.length j ≠ .success).length := by
  simp only [LoadOption.failed, if_pos ha, Load.answered, List.filter_map, List.length_map]
  rfl

theorem accepted_iff (rows : List (ρ × ParamStatus)) :
    Load.accepted rows = true ↔ ∀ r ∈ rows, r.2 = .success := by
  simp [Load.accepted]

theorem failed_eq_zero_iff (o : LoadOption) (rows : List (ρ × ParamStatus)) :
    o.failed rows = 0 ↔ Load.accepted rows = true := by
  simp only [LoadOption.failed]
  split
  · simp [Load.accepted]
  · change (if Load.accepted rows then 0 else 1) = 0 ↔ _
    cases Load.accepted rows <;> simp

theorem not_array {o : LoadOption} (h : ¬1 < o.m_ArrayCount) : o.m_ArrayCount = 1 := by
  have := o.array_pos
  omega

/-- With an array of one row, or the whole array in the parameter set, an execution counts the
errors of its own rows. -/
theorem counted_eq_failed {i : LoadInput ρ} {s : Load ρ}
    (hsize : 1 < i.option.m_ArrayCount →
      (s.setParamsetSize i.option .record).paramsetSize = i.option.m_ArrayCount) :
    i.counted .record s =
      i.option.failed ((s.setParamsetSize i.option .record).answered i.server) := by
  cases hacc : Load.accepted ((s.setParamsetSize i.option .record).answered i.server) with
  | true =>
    rw [(failed_eq_zero_iff _ _).mpr hacc]
    simp only [LoadInput.counted, hacc, if_true]
  | false =>
    simp only [LoadInput.counted, hacc, Bool.false_eq_true, reduceCtorEq, if_false]
    by_cases ha : 1 < i.option.m_ArrayCount
    · rw [if_neg ha.ne', failed_answered _ _ ha, hsize ha]
      apply congrArg List.length
      apply List.filter_congr
      intro j hj
      have hset : j < (s.setParamsetSize i.option .record).paramsetSize := by
        rw [hsize ha]
        exact List.mem_range.mp hj
      simp only [Load.execute, if_pos hset]
    · rw [if_pos (not_array ha), LoadOption.failed, if_neg ha]
      exact (if_neg (ne_true_of_eq_false hacc)).symm

theorem tail_concat {i : LoadInput ρ} {s : Load ρ} (executed : List (List (ρ × ParamStatus))) :
    i.option.tail (executed ++ [(s.setParamsetSize i.option .record).answered i.server]) =
      if i.arrives .record s = 0 then i.option.tail executed ++
        Load.insertedRows ((s.setParamsetSize i.option .record).answered i.server) else [] := by
  simp only [LoadOption.tail, LoadInput.arrives, reduceCtorEq, if_false, List.rtakeWhile_concat]
  by_cases ha : 1 < i.option.m_ArrayCount
  · simp [ha, ha.ne']
  · cases Load.accepted ((s.setParamsetSize i.option .record).answered i.server) with
    | true => simp [ha]
    | false => simp [not_array ha]

theorem length_filter_range {w a : Nat} (h : w ≤ a) (p q : Nat → Bool) :
    ((List.range a).filter fun j => if j < w then p j else q j).length =
      ((List.range w).filter p).length +
        ((List.range a).filter fun j => decide (w ≤ j) && q j).length := by
  induction a, h using Nat.le_induction with
  | base =>
    have hleft : ((List.range w).filter fun j => if j < w then p j else q j) =
        (List.range w).filter p :=
      List.filter_congr fun j hj => if_pos (List.mem_range.mp hj)
    have hright : ((List.range w).filter fun j => decide (w ≤ j) && q j) = [] := by
      apply List.filter_eq_nil_iff.mpr
      intro j hj
      simp [List.mem_range.mp hj]
    rw [hleft, hright, List.length_nil, Nat.add_zero]
  | succ a h ih =>
    have hlast : ([a].filter fun j => if j < w then p j else q j) =
        [a].filter fun j => decide (w ≤ j) && q j := by
      simp [List.filter_cons, h, Nat.not_lt.mpr h]
    simp only [List.range_succ, List.filter_append, List.length_append, ih, hlast]
    omega

/-- An execution of part of the array also counts the old status of the slots behind it. -/
theorem counted_eq_failed_add {i : LoadInput ρ} {s : Load ρ} {w : Nat}
    (hsize : (s.setParamsetSize i.option .record).paramsetSize = w) (hpos : 0 < w)
    (hle : w ≤ i.option.m_ArrayCount) :
    i.counted .record s =
      i.option.failed ((s.setParamsetSize i.option .record).answered i.server) +
        if Load.accepted ((s.setParamsetSize i.option .record).answered i.server) then 0
        else ((List.range i.option.m_ArrayCount).filter fun j =>
          w ≤ j ∧ s.sStatusPtr j ≠ .success).length := by
  cases hacc : Load.accepted ((s.setParamsetSize i.option .record).answered i.server) with
  | true =>
    rw [(failed_eq_zero_iff _ _).mpr hacc]
    simp only [LoadInput.counted, hacc, if_true]
  | false =>
    by_cases ha : 1 < i.option.m_ArrayCount
    · simp only [LoadInput.counted, hacc, Bool.false_eq_true, reduceCtorEq, if_false,
        if_neg ha.ne']
      rw [failed_answered _ _ ha, hsize]
      simp only [Bool.decide_and]
      rw [← length_filter_range hle]
      apply congrArg List.length
      apply List.filter_congr
      intro j _
      simp only [Load.execute, hsize]
      split <;> rfl
    · rw [counted_eq_failed fun h => absurd h ha]
      have hnone : ((List.range i.option.m_ArrayCount).filter fun j =>
          w ≤ j ∧ s.sStatusPtr j ≠ .success) = [] := by
        apply List.filter_eq_nil_iff.mpr
        intro j hj
        have := List.mem_range.mp hj
        simp only [decide_eq_true_eq]
        omega
      rw [hnone]
      rfl

/-- A row more that comes to the commit, or an execution that does not. -/
theorem loads_concat {i : LoadInput ρ} {s : Load ρ} (rows : Nat)
    (executed : List (List (ρ × ParamStatus))) :
    i.option.loads (rows + 1)
        (executed ++ [(s.setParamsetSize i.option .record).answered i.server]) =
      i.option.loads rows executed + i.arrives .record s := by
  simp only [LoadOption.loads, LoadInput.arrives, reduceCtorEq, if_false, List.filter_append,
    List.length_append]
  by_cases ha : 1 < i.option.m_ArrayCount
  · simp [ha, ha.ne']
  · simp only [if_neg ha, if_pos (not_array ha)]
    congr 1
    change (List.filter Load.accepted [_]).length = _
    rw [List.filter_cons]
    split <;> rfl

namespace Progress

variable {i : LoadInput ρ} {sel : List (Bool × ρ)} {s t : Load ρ} {row : ρ}

/-- The parameter set that the last row of a batch completes. -/
theorem taken_answered (h : Progress i sel s) (row : ρ) (nRet : ReadResult)
    (hwidth : ((s.taken i.option row).setParamsetSize i.option nRet).paramsetSize ≤
        (wellRead sel).length % i.option.m_ArrayCount + 1 ∨
      (wellRead sel).length % i.option.m_ArrayCount + 1 = i.option.m_ArrayCount) :
    ((s.taken i.option row).setParamsetSize i.option nRet).answered i.server =
      i.batch (wellRead sel ++ [row])
        ((s.taken i.option row).setParamsetSize i.option nRet).paramsetSize
        ((wellRead sel).length / i.option.m_ArrayCount) := by
  apply answered_eq_batch
  · exact h.length_executed
  · intro j hj
    by_cases hin : j < i.option.m_ArrayCount
    · exact h.readRow_next (by omega)
    · simp only [LoadInput.rowAt, if_neg hin]
      exact h.readRow_beyond (Nat.le_of_not_lt hin)

theorem full (h : Progress i sel s)
    (hfull : (wellRead sel).length % i.option.m_ArrayCount + 1 = i.option.m_ArrayCount)
    (hlast : i.option.m_LastRow ≠ some s.ix)
    (hex : Executed i .record (s.taken i.option row) t) : Progress i (sel ++ [(true, row)]) t := by
  have hsucc := succ_div_mod_of_eq hfull
  have hsized : ((s.taken i.option row).setParamsetSize i.option .record).paramsetSize =
      i.paramset := by
    rw [← h.paramsetSize]
    exact if_neg hlast
  have hrows := h.taken_answered row .record (Or.inr hfull)
  rw [hsized] at hrows
  have hexecuted : t.executed = s.executed ++ [i.batch (wellRead sel ++ [row]) i.paramset
      ((wellRead sel).length / i.option.m_ArrayCount)] := by
    rw [hex.executed, hrows]
    rfl
  have hgoods : wellRead (sel ++ [(true, row)]) = wellRead sel ++ [row] := wellRead_append _ _
  have hlength : (wellRead (sel ++ [(true, row)])).length = (wellRead sel).length + 1 := by
    rw [hgoods, List.length_append, List.length_singleton]
  constructor
  case count_le => rw [hex.sRealCount, h.taken_count, hfull]
  case count => rw [hex.sRealCount, h.taken_count, hfull, Nat.mod_self, hlength, hsucc.2]
  case filled =>
    rw [hlength, hsucc.2]
    exact fun j hj => absurd hj (Nat.not_lt_zero j)
  case beyond =>
    intro j hj
    rw [hex.slots]
    exact h.readRow_beyond hj
  case paramsetSize => rw [hex.paramsetSize, hsized]
  case executed =>
    rw [hlength, hsucc.1, hgoods, List.range_succ, List.map_append,
      i.batches_append _ _ _ (Nat.div_mul_le_self _ _), hexecuted, h.executed]
    rfl
  case nTotal =>
    rw [hex.nTotal, List.length_append, List.length_singleton]
    exact congrArg (· + 1) h.nTotal
  case status =>
    intro ha j hj
    have hset : j < i.paramset := by
      simp only [LoadInput.paramset, if_pos ha]
      exact hj
    rw [hex.sStatusPtr, hlength, hsucc.1]
    simp only [Load.execute, hsized, if_pos hset, LoadInput.statusAt, Nat.succ_ne_zero, if_false,
      Nat.add_sub_cancel]
    exact congrArg (fun k => i.server.paramStatus k j) h.length_executed
  case tally =>
    have htally := hex.tally _ _ _ (h.tally.same rfl rfl rfl rfl)
    have hsize : 1 < i.option.m_ArrayCount →
        ((s.taken i.option row).setParamsetSize i.option .record).paramsetSize =
          i.option.m_ArrayCount := fun ha => hsized.trans (if_pos ha)
    rw [counted_eq_failed hsize, ← loads_concat, ← tail_concat, ← hlength] at htally
    rw [parseErrors_append, parseErrors_true, Nat.add_zero, hex.executed, List.map_append,
      List.sum_append, List.map_singleton, List.sum_singleton, ← Nat.add_assoc]
    exact htally

/-- A selected record that is not the last one. -/
theorem step (h : Progress i sel s) (ok : Bool) (hin : i.option.inRange s.ix = true)
    (hlast : i.option.m_LastRow ≠ some s.ix)
    (hflow : (s.iteration i.option i.server (if ok then .record else .error) row).2 = .continue) :
    Progress i (sel ++ [(ok, row)])
      (s.iteration i.option i.server (if ok then .record else .error) row).1 := by
  cases ok with
  | false => exact h.error row hin rfl
  | true =>
    simp only [if_true, Load.iteration_record hin, h.taken_count, hlast, or_false] at hflow ⊢
    by_cases hfull : (wellRead sel).length % i.option.m_ArrayCount + 1 = i.option.m_ArrayCount
    · simp only [if_pos hfull] at hflow ⊢
      exact h.full hfull hlast (Load.executeBatch_executed hflow)
    · simp only [if_neg hfull]
      exact h.fill hfull

end Progress

theorem progress_start (i : LoadInput ρ) (slots : Nat → ρ)
    (hslots : ∀ j, i.option.m_ArrayCount ≤ j → slots j = i.slots j) (ix : Nat) :
    Progress i [] { Load.start i.option i.stmt slots i.status with ix := ix } := by
  have hnone : (wellRead ([] : List (Bool × ρ))).length = 0 := rfl
  constructor <;> simp only [hnone, Nat.zero_mod, Nat.zero_div]
  case count_le => exact Nat.zero_le _
  case count => exact Nat.zero_mod _
  case filled => exact fun j hj => absurd hj (Nat.not_lt_zero j)
  case beyond => exact hslots
  case paramsetSize => rfl
  case executed => rfl
  case nTotal => rfl
  case status =>
    intro _ j _
    rfl
  case tally =>
    have hload : i.option.loads 0 ([] : List (List (ρ × ParamStatus))) = 0 := by
      simp only [LoadOption.loads, List.filter_nil, List.length_nil, ite_self]
    have htail : i.option.tail ([] : List (List (ρ × ParamStatus))) = [] := by
      simp only [LoadOption.tail, List.rtakeWhile_nil, List.flatMap_nil, ite_self]
    change Tally i 0 (i.option.loads 0 []) (i.option.tail []) _
    rw [hload, htail]
    exact ⟨⟨0, rfl, Or.inl ⟨rfl, rfl, (Nat.zero_div _).symm, fun k hk => absurd hk (by simp)⟩⟩,
      rfl, fun _ hne => absurd rfl hne, fun _ hne => absurd rfl hne⟩

/-! ## The end of the loop -/

namespace LoadInput

variable (i : LoadInput ρ)

/-- The executed batches of a load with these well-read rows: those that were filled, and, behind
them, the waiting rows at the end of the file or with the last row, when that was read well. -/
def batches (goods : List ρ) : Option Bool → List (List (ρ × ParamStatus))
  | none =>
      (List.range (goods.length / i.option.m_ArrayCount)).map (i.batch goods i.paramset) ++
        if goods.length % i.option.m_ArrayCount = 0 then []
        else [i.batch goods (goods.length % i.option.m_ArrayCount)
          (goods.length / i.option.m_ArrayCount)]
  | some false =>
      (List.range (goods.length / i.option.m_ArrayCount)).map (i.batch goods i.paramset)
  | some true =>
      (List.range ((goods.length - 1) / i.option.m_ArrayCount)).map (i.batch goods i.paramset) ++
        [i.batch goods ((goods.length - 1) % i.option.m_ArrayCount + 1)
          ((goods.length - 1) / i.option.m_ArrayCount)]

/-- The slots behind the last row whose old status is counted with a failed last batch. -/
def stale (goods : List ρ) : Option Bool → Nat
  | some true =>
      if Load.accepted (i.batch goods ((goods.length - 1) % i.option.m_ArrayCount + 1)
          ((goods.length - 1) / i.option.m_ArrayCount)) then 0
      else ((List.range i.option.m_ArrayCount).filter fun j =>
        (goods.length - 1) % i.option.m_ArrayCount + 1 ≤ j ∧
          i.statusAt ((goods.length - 1) / i.option.m_ArrayCount) j ≠ .success).length
  | _ => 0

/-- The inserted rows that the loop leaves uncommitted when the row counter is at the end of a
unit: with an array those of the batch at the end of the file, without one those behind the last
accepted execution. -/
def leftOpen (goods : List ρ) (last : Option Bool) : List ρ :=
  if 1 < i.option.m_ArrayCount then
    if last = none then Load.insertedRows (i.batch goods
      (goods.length % i.option.m_ArrayCount) (goods.length / i.option.m_ArrayCount))
    else []
  else i.option.tail (i.batches goods last)

variable {i} in
theorem tail_eq_leftOpen {goods : List ρ} {last : Option Bool}
    (h : last = none → goods.length % i.option.m_ArrayCount = 0) :
    i.option.tail (i.batches goods last) = i.leftOpen goods last := by
  simp only [leftOpen]
  by_cases ha : 1 < i.option.m_ArrayCount
  · rw [if_pos ha, LoadOption.tail, if_pos ha]
    split
    · next hlast =>
      rw [h hlast]
      rfl
    · rfl
  · rw [if_neg ha]

end LoadInput

/-- The end of a loop that no server error has cut short. -/
structure Ended (i : LoadInput ρ) (sel : List (Bool × ρ)) (last : Option Bool) (s : Load ρ) :
    Prop where
  executed : s.executed = i.batches (wellRead sel) last
  nTotal : s.nTotal = sel.length
  tally : Tally i
    (parseErrors sel + (s.executed.map i.option.failed).sum + i.stale (wellRead sel) last)
    (i.option.loads (wellRead sel).length s.executed) (i.leftOpen (wellRead sel) last) s

namespace Progress

variable {i : LoadInput ρ} {sel : List (Bool × ρ)} {s t : Load ρ} {row : ρ}

theorem ended (h : Progress i sel s)
    (hnone : (wellRead sel).length % i.option.m_ArrayCount = 0) : Ended i sel none s where
  executed := by
    simp only [LoadInput.batches, if_pos hnone, List.append_nil]
    exact h.executed
  nTotal := h.nTotal
  tally := by
    rw [← LoadInput.tail_eq_leftOpen fun _ => hnone]
    simp only [LoadInput.batches, if_pos hnone, List.append_nil, ← h.executed]
    exact h.tally

/-- The waiting rows at the end of the file. -/
theorem ended_rest (h : Progress i sel s)
    (hrest : (wellRead sel).length % i.option.m_ArrayCount ≠ 0)
    (hex : Executed i .endOfFile { s.readRow i.option row with
      sRealCount := (s.readRow i.option row).sRealCount + 1 } t) : Ended i sel none t := by
  have hcount := h.readRow_count row
  have hlt := Nat.mod_lt (wellRead sel).length i.option.array_pos
  have ha : 1 < i.option.m_ArrayCount := by omega
  have hrows : (Load.setParamsetSize i.option .endOfFile { s.readRow i.option row with
      sRealCount := (s.readRow i.option row).sRealCount + 1 }).answered i.server =
      i.batch (wellRead sel) ((wellRead sel).length % i.option.m_ArrayCount)
        ((wellRead sel).length / i.option.m_ArrayCount) := by
    rw [← hcount]
    apply answered_eq_batch
    · exact h.length_executed
    · intro j hj
      apply h.readRow_filled
      rw [← hcount]
      exact hj
  have hexecuted := hex.executed
  rw [hrows] at hexecuted
  constructor
  case executed =>
    simp only [LoadInput.batches, if_neg hrest]
    rw [hexecuted, ← h.executed]
    rfl
  case nTotal => exact hex.nTotal.trans h.nTotal
  case tally =>
    have hcounted : i.counted .endOfFile { s.readRow i.option row with
        sRealCount := (s.readRow i.option row).sRealCount + 1 } =
        i.option.failed (i.batch (wellRead sel)
          ((wellRead sel).length % i.option.m_ArrayCount)
          ((wellRead sel).length / i.option.m_ArrayCount)) := by
      rw [← hrows]
      cases hacc : Load.accepted ((Load.setParamsetSize i.option .endOfFile
          { s.readRow i.option row with
            sRealCount := (s.readRow i.option row).sRealCount + 1 }).answered i.server) with
      | true =>
        rw [(failed_eq_zero_iff _ _).mpr hacc]
        simp only [LoadInput.counted, hacc, if_true]
      | false =>
        rw [failed_answered _ _ ha]
        simp only [LoadInput.counted, hacc, Bool.false_eq_true, if_false, if_neg ha.ne', if_true]
        apply congrArg List.length
        apply List.filter_congr
        intro j hj
        simp only [Load.execute, Load.setParamsetSize, if_true, if_pos (List.mem_range.mp hj)]
    have htally := hex.tally _ _ _ (h.tally.same rfl rfl rfl rfl)
    simp only [hcounted, LoadInput.arrives, if_true, Nat.add_zero, hrows] at htally
    simp only [LoadOption.loads, LoadOption.tail, LoadInput.leftOpen, if_pos ha, LoadInput.stale,
      Nat.add_zero, hexecuted, List.nil_append, if_true] at htally ⊢
    rw [List.map_append, List.sum_append, List.map_singleton, List.sum_singleton, ← Nat.add_assoc]
    exact htally

/-- The last row, not read well. -/
theorem ended_error (h : Progress i sel s) (hin : i.option.inRange s.ix = true) :
    Ended i (sel ++ [(false, row)]) (some false)
      (s.iteration i.option i.server .error row).1 := by
  have hnext := h.error row hin rfl
  refine ⟨hnext.executed, hnext.nTotal, ?_⟩
  rw [← LoadInput.tail_eq_leftOpen (fun hnone => by cases hnone)]
  exact hnext.executed ▸ hnext.tally

/-- The last row, read well. -/
theorem ended_record (h : Progress i sel s) (hlast : i.option.m_LastRow = some s.ix)
    (hex : Executed i .record (s.taken i.option row) t) :
    Ended i (sel ++ [(true, row)]) (some true) t := by
  have hlt := Nat.mod_lt (wellRead sel).length i.option.array_pos
  have hgoods : wellRead (sel ++ [(true, row)]) = wellRead sel ++ [row] := wellRead_append _ _
  have hlength : (wellRead (sel ++ [(true, row)])).length = (wellRead sel).length + 1 := by
    rw [hgoods, List.length_append, List.length_singleton]
  have hsized : ((s.taken i.option row).setParamsetSize i.option .record).paramsetSize =
      (wellRead sel).length % i.option.m_ArrayCount + 1 := by
    rw [← h.taken_count row]
    exact if_pos hlast
  have hrows := h.taken_answered row .record (Or.inl hsized.le)
  rw [hsized] at hrows
  have hexecuted := hex.executed
  rw [hrows] at hexecuted
  have hbatches : t.executed = i.batches (wellRead (sel ++ [(true, row)])) (some true) := by
    simp only [LoadInput.batches, hlength, Nat.add_sub_cancel]
    rw [hgoods, i.batches_append _ _ _ (Nat.div_mul_le_self _ _), hexecuted, ← h.executed]
    rfl
  constructor
  case executed => exact hbatches
  case nTotal =>
    rw [hex.nTotal, List.length_append, List.length_singleton]
    exact congrArg (· + 1) h.nTotal
  case tally =>
    have hcounted : i.counted .record (s.taken i.option row) =
        i.option.failed (i.batch (wellRead sel ++ [row])
          ((wellRead sel).length % i.option.m_ArrayCount + 1)
          ((wellRead sel).length / i.option.m_ArrayCount)) +
        i.stale (wellRead (sel ++ [(true, row)])) (some true) := by
      rw [counted_eq_failed_add hsized (Nat.succ_pos _) hlt, hrows]
      simp only [LoadInput.stale, hlength, Nat.add_sub_cancel]
      rw [hgoods]
      congr 2
      apply congrArg List.length
      apply List.filter_congr
      intro j hj
      have hlast := List.mem_range.mp hj
      by_cases ha : 1 < i.option.m_ArrayCount
      · have hstatus : (s.taken i.option row).sStatusPtr j = _ := h.status ha j hlast
        rw [hstatus]
      · have := not_array ha
        have hj0 : ¬(wellRead sel).length % i.option.m_ArrayCount + 1 ≤ j := by omega
        simp only [hj0, false_and]
    have htally := hex.tally _ _ _ (h.tally.same rfl rfl rfl rfl)
    rw [hcounted, ← loads_concat, ← tail_concat, ← hlength, hrows] at htally
    rw [← LoadInput.tail_eq_leftOpen (fun hnone => by cases hnone), ← hbatches]
    rw [hexecuted, parseErrors_append, parseErrors_true, Nat.add_zero, List.map_append,
      List.sum_append, List.map_singleton, List.sum_singleton, ← Nat.add_assoc, Nat.add_assoc _ _
        (i.stale _ _)]
    exact htally

end Progress

theorem Ended.same {i : LoadInput ρ} {sel : List (Bool × ρ)} {last : Option Bool} {s t : Load ρ}
    (h : Ended i sel last s) (hexecuted : t.executed = s.executed) (htotal : t.nTotal = s.nTotal)
    (herr : t.nErrCount = s.nErrCount) (hload : t.nLoad = s.nLoad)
    (hend : t.endTrans = s.endTrans) (hopen : t.openRows = s.openRows) : Ended i sel last t where
  executed := hexecuted.trans h.executed
  nTotal := htotal.trans h.nTotal
  tally := by
    rw [hexecuted]
    exact h.tally.same herr hload hend hopen

namespace Load

variable {i : LoadInput ρ} {nRet : ReadResult} {s : Load ρ} {row : ρ}

theorem executeBatch_flow (o : LoadOption) (sv : Server) (s : Load ρ) :
    (s.executeBatch o sv nRet).2 = .continue ∨ (s.executeBatch o sv nRet).2 = .fatal := by
  cases hacc : accepted ((s.setParamsetSize o nRet).answered sv) with
  | true =>
    rw [executeBatch_accepted hacc]
    exact Or.inl rfl
  | false =>
    cases hfatal : sv.fatal s.executed.length with
    | true => exact Or.inr (executeBatch_fatal hacc hfatal)
    | false =>
      by_cases ha : 1 < o.m_ArrayCount
      · rw [executeBatch_array hacc hfatal ha]
        exact Or.inl rfl
      · rw [executeBatch_single hacc hfatal (not_array ha)]
        exact Or.inl rfl

/-- A record in the range is followed by the next one, unless the server ends the load. -/
theorem iteration_flow {o : LoadOption} {sv : Server} (ok : Bool) (hin : o.inRange s.ix = true)
    (hfatal : (s.iteration o sv (if ok then .record else .error) row).2 ≠ .fatal) :
    (s.iteration o sv (if ok then .record else .error) row).2 = .continue := by
  cases ok with
  | false =>
    have heq := iteration_error sv row hin
    exact congrArg Prod.snd heq
  | true =>
    simp only [if_true, iteration_record hin] at hfatal ⊢
    split at hfatal
    · next hfull =>
      rw [if_pos hfull]
      exact (executeBatch_flow o sv _).resolve_right hfatal
    · next hroom => rw [if_neg hroom]

theorem iteration_ix (ok : Bool) (hin : i.option.inRange s.ix = true)
    (hflow : (s.iteration i.option i.server (if ok then .record else .error) row).2 = .continue) :
    (s.iteration i.option i.server (if ok then .record else .error) row).1.ix = s.ix := by
  cases ok with
  | false =>
    have heq := iteration_error i.server row hin
    exact congrArg (fun r => r.1.ix) heq
  | true =>
    simp only [if_true, iteration_record hin] at hflow ⊢
    split at hflow
    · next hfull =>
      rw [if_pos hfull]
      exact (executeBatch_executed hflow).ix
    · next hroom =>
      rw [if_neg hroom, commitUnit_ix]
      rfl

theorem loop_continue {o : LoadOption} {sv : Server} {ok : Bool} (atEnd : ρ)
    (rest : List (Bool × ρ))
    (h : (s.iteration o sv (if ok then .record else .error) row).2 = .continue) :
    loop o sv atEnd ((ok, row) :: rest) s =
      loop o sv atEnd rest { (s.iteration o sv (if ok then .record else .error) row).1 with
        ix := (s.iteration o sv (if ok then .record else .error) row).1.ix + 1 } := by
  rw [loop]
  split
  · next heq => rw [heq]
  · next heq =>
    rw [heq] at h
    cases h
  · next heq =>
    rw [heq] at h
    cases h

theorem loop_fatal {o : LoadOption} {sv : Server} {atEnd : ρ} {ok : Bool}
    {rest : List (Bool × ρ)} (h : (loop o sv atEnd ((ok, row) :: rest) s).2 ≠ .fatal) :
    (s.iteration o sv (if ok then .record else .error) row).2 ≠ .fatal := by
  intro hfatal
  apply h
  rw [loop]
  split
  · next heq =>
    rw [heq] at hfatal
    cases hfatal
  · next heq =>
    rw [heq] at hfatal
    cases hfatal
  · rfl

/-- Behind the last row nothing more happens. -/
theorem loop_past {o : LoadOption} (sv : Server) (atEnd : ρ) (rest : List (Bool × ρ))
    (hf : (o.m_FirstRow.any fun f => s.ix < f) = false)
    (hl : (o.m_LastRow.any fun l => l < s.ix) = true) :
    ∃ row, (loop o sv atEnd rest s).1 = s.readRow o row := by
  cases rest with
  | nil =>
    refine ⟨atEnd, ?_⟩
    rw [loop, iteration_past hf hl]
    split <;> (next heq => exact congrArg Prod.fst heq.symm)
  | cons r rest =>
    obtain ⟨ok, row⟩ := r
    refine ⟨row, ?_⟩
    have hne : ¬((if ok then ReadResult.record else .error) = .endOfFile ∧
        (s.readRow o row).sRealCount = 0) := by
      cases ok <;> simp
    rw [loop, iteration_past hf hl, if_neg hne]

end Load

theorem Ended.nextRow {i : LoadInput ρ} {sel : List (Bool × ρ)} {last : Option Bool} {s : Load ρ}
    (h : Ended i sel last s) (n : Nat) : Ended i sel last { s with ix := n } :=
  h.same rfl rfl rfl rfl rfl rfl

theorem Ended.past {i : LoadInput ρ} {sel : List (Bool × ρ)} {last : Option Bool} {s : Load ρ}
    (h : Ended i sel last s) (rest : List (Bool × ρ))
    (hf : (i.option.m_FirstRow.any fun f => s.ix < f) = false)
    (hl : (i.option.m_LastRow.any fun l => l < s.ix) = true) :
    Ended i sel last (Load.loop i.option i.server i.atEnd rest s).1 := by
  obtain ⟨row, hrow⟩ := Load.loop_past i.server i.atEnd rest hf hl
  rw [hrow]
  exact h.same rfl rfl rfl rfl rfl rfl

/-- Before the first row. -/
theorem Progress.skip {i : LoadInput ρ} {s : Load ρ} {row : ρ} (h : Progress i [] s) :
    Progress i [] { s with slots := Function.update s.slots 0 row } where
  count_le := h.count_le
  count := h.count
  filled := fun j hj => by
    have hnone : (wellRead ([] : List (Bool × ρ))).length = 0 := rfl
    rw [hnone, Nat.zero_mod] at hj
    exact absurd hj (Nat.not_lt_zero j)
  beyond := fun j hj => by
    have hpos := i.option.array_pos
    simp only [Function.update_of_ne (show j ≠ 0 by omega)]
    exact h.beyond j hj
  paramsetSize := h.paramsetSize
  executed := h.executed
  nTotal := h.nTotal
  status := h.status
  tally := h.tally.same rfl rfl rfl rfl

/-- The loop from any state that is still before the end of the range. -/
theorem Progress.loop {i : LoadInput ρ} (rest : List (Bool × ρ)) {sel : List (Bool × ρ)}
    {s : Load ρ} (h : Progress i sel s)
    (hbefore : (i.option.m_FirstRow.any fun f => s.ix < f) = true → sel = [] ∧ s.sRealCount = 0)
    (hpast : (i.option.m_LastRow.any fun l => l < s.ix) = true → sel = [])
    (hexit : (Load.loop i.option i.server i.atEnd rest s).2 ≠ .fatal) :
    Ended i (sel ++ i.option.selected s.ix rest) (i.option.lastRead s.ix rest)
      (Load.loop i.option i.server i.atEnd rest s).1 := by
  induction rest generalizing sel s with
  | nil =>
    have hsel : sel ++ i.option.selected s.ix [] = sel := List.append_nil sel
    have hlast : i.option.lastRead s.ix ([] : List (Bool × ρ)) = none := rfl
    rw [hsel, hlast]
    by_cases hnone : (wellRead sel).length % i.option.m_ArrayCount = 0
    · have hloop : Load.loop i.option i.server i.atEnd [] s =
          (s.readRow i.option i.atEnd, .wholeFile) := by
        rw [Load.loop, Load.iteration_empty ((h.readRow_count _).trans hnone)]
      rw [hloop]
      exact (h.ended hnone).same rfl rfl rfl rfl rfl rfl
    · have hne : sel ≠ [] := by
        intro heq
        rw [heq] at hnone
        exact hnone (Nat.zero_mod _)
      have hf := Bool.eq_false_of_not_eq_true fun hf => hne (hbefore hf).1
      have hl := Bool.eq_false_of_not_eq_true fun hl => hne (hpast hl)
      have hcount : (s.readRow i.option i.atEnd).sRealCount ≠ 0 := by
        rw [h.readRow_count]
        exact hnone
      rw [Load.loop, Load.iteration_rest hcount hf hl] at hexit ⊢
      split at hexit
      · next heq =>
        have hex := Load.executeBatch_executed (congrArg Prod.snd heq)
        rw [heq] at hex
        exact h.ended_rest hnone hex
      · next heq =>
        rcases Load.executeBatch_flow i.option i.server _ with hflow | hflow
        · rw [heq] at hflow
          cases hflow
        · rw [heq] at hflow
          cases hflow
      · exact absurd rfl hexit
  | cons r rest ih =>
    obtain ⟨ok, row⟩ := r
    cases hf : i.option.m_FirstRow.any fun f => s.ix < f with
    | true =>
      obtain ⟨hnil, hzero⟩ := hbefore hf
      subst hnil
      obtain ⟨f, hfirst, hlt⟩ := (Option.any_eq_true _ _).mp hf
      have hskip : s.iteration i.option i.server (if ok then .record else .error) row = _ :=
        Load.iteration_skip hfirst (of_decide_eq_true hlt) hzero
      have hloop := Load.loop_continue i.atEnd rest (congrArg Prod.snd hskip)
      rw [hskip] at hloop
      have hout : i.option.inRange s.ix = false := by
        simp only [LoadOption.inRange, hfirst, Option.all_some, decide_eq_false
          (Nat.not_le_of_lt (of_decide_eq_true hlt)), Bool.false_and]
      rw [hloop] at hexit ⊢
      simp only [LoadOption.selected_cons, LoadOption.lastRead_cons, hout, Bool.false_and,
        Bool.false_eq_true, if_false]
      exact ih (h.skip.nextRow _) (fun _ => ⟨rfl, hzero⟩) (fun _ => rfl) hexit
    | false =>
      cases hl : i.option.m_LastRow.any fun l => l < s.ix with
      | true =>
        have hnil := hpast hl
        subst hnil
        obtain ⟨l, hlast, hlt⟩ := (Option.any_eq_true _ _).mp hl
        obtain ⟨hsel, hread⟩ := LoadOption.selected_past i.option hlast (of_decide_eq_true hlt)
          ((ok, row) :: rest)
        rw [hsel, hread]
        exact (h.ended (Nat.zero_mod _)).past _ hf hl
      | false =>
        have hin := i.option.inRange_iff.mpr ⟨hf, hl⟩
        have hflow := Load.iteration_flow ok hin (Load.loop_fatal hexit)
        have hix := Load.iteration_ix ok hin hflow
        have hloop := Load.loop_continue i.atEnd rest hflow
        rw [hloop, hix] at hexit ⊢
        simp only [LoadOption.selected_cons, LoadOption.lastRead_cons, hin, Bool.true_and,
          if_true, decide_eq_true_eq]
        have hf' := i.option.any_first_succ hf
        by_cases hlast : i.option.m_LastRow = some s.ix
        · have hl' : (i.option.m_LastRow.any fun l => l < s.ix + 1) = true := by
            rw [hlast]
            exact decide_eq_true (Nat.lt_succ_self _)
          obtain ⟨hsel, -⟩ := LoadOption.selected_past i.option hlast (Nat.lt_succ_self _) rest
          rw [if_pos hlast, hsel, List.append_nil]
          cases ok with
          | false => exact ((h.ended_error hin).nextRow _).past rest hf' hl'
          | true =>
            have hfull : (s.taken i.option row).sRealCount = i.option.m_ArrayCount ∨
                i.option.m_LastRow = some s.ix := Or.inr hlast
            simp only [if_true, Load.iteration_record hin, if_pos hfull] at hflow ⊢
            have hended := h.ended_record hlast (Load.executeBatch_executed hflow)
            exact (hended.nextRow _).past rest hf' hl'
        · rw [if_neg hlast, ← List.append_assoc]
          apply ih ((h.step ok hin hlast hflow).nextRow _) _ _ hexit
          · intro htrue
            rw [hf'] at htrue
            cases htrue
          · intro htrue
            rw [i.option.any_last_succ hl hlast] at htrue
            cases htrue

namespace LoadInput

variable (i : LoadInput ρ)

/-- The selected records of the load, and the well-read ones among them. -/
def selected : List (Bool × ρ) :=
  i.option.selected 1 i.records

def goods : List ρ :=
  wellRead i.selected

def lastRead : Option Bool :=
  i.option.lastRead 1 i.records

theorem looped_ended (h : i.looped.2 ≠ .fatal) :
    Ended i i.selected i.lastRead i.looped.1 := by
  have hstart := progress_start i i.slots (fun _ _ => rfl) 1
  apply hstart.loop i.records _ _ h
  · exact fun _ => ⟨rfl, rfl⟩
  · exact fun _ => rfl

/-- Whether every commit of a load that comes to it so often is done. -/
def CommitsDone (loads : Nat) : Prop :=
  0 < i.option.m_CommitUnit →
    ∀ k, k * i.option.m_CommitUnit < loads → i.server.commit k = true

theorem lastCommit_executed (s : Load ρ) :
    (s.lastCommit i.option i.server).executed = s.executed ∧
      (s.lastCommit i.option i.server).nTotal = s.nTotal := by
  simp only [Load.lastCommit]
  split
  · split <;> exact ⟨rfl, rfl⟩
  · exact ⟨rfl, rfl⟩

/-- The commit behind the loop is that of the last unit, if it is not full. -/
theorem lastCommit_errors {errors loads : Nat} {s : Load ρ} (h : ErrorTally i errors loads s) :
    ∃ p, (s.lastCommit i.option i.server).nErrCount = errors + p ∧
      (p = 0 ↔ i.CommitsDone loads) := by
  obtain ⟨p, herr, ⟨rfl, hload, hend, hall⟩ | ⟨hp, k, hk, hfail⟩⟩ := h
  · have hrest : s.nLoad - 1 = loads := by omega
    simp only [Load.lastCommit, Load.endTran, hrest, hend]
    by_cases hopen : 0 < i.option.m_CommitUnit ∧ loads % i.option.m_CommitUnit ≠ 0
    · have hlt : loads / i.option.m_CommitUnit * i.option.m_CommitUnit < loads := by
        have := Nat.div_add_mod' loads i.option.m_CommitUnit
        omega
      simp only [if_pos hopen]
      cases hc : i.server.commit (loads / i.option.m_CommitUnit) with
      | true =>
        refine ⟨0, herr, iff_of_true rfl ?_⟩
        intro _ k hk
        rcases Nat.lt_or_eq_of_le ((Nat.le_div_iff_mul_le hopen.1).mpr hk.le) with hk | rfl
        · exact hall k hk
        · exact hc
      | false =>
        refine ⟨loads % i.option.m_CommitUnit, ?_, iff_of_false hopen.2 ?_⟩
        · simp only [herr, Nat.add_zero, Bool.false_eq_true, if_false]
        · intro hdone
          rw [hdone hopen.1 _ hlt] at hc
          cases hc
    · simp only [if_neg hopen]
      refine ⟨0, herr, iff_of_true rfl ?_⟩
      intro hpos k hk
      have hmod : loads % i.option.m_CommitUnit = 0 := by
        by_contra hne
        exact hopen ⟨hpos, hne⟩
      apply hall
      rw [← Nat.div_mul_cancel (Nat.dvd_of_mod_eq_zero hmod)] at hk
      exact Nat.lt_of_mul_lt_mul_right hk
  · have hpos : 0 < i.option.m_CommitUnit := by
      by_contra hzero
      rw [Nat.eq_zero_of_not_pos hzero, Nat.div_zero] at hk
      exact absurd hk (Nat.not_lt_zero k)
    have hge : ∃ q, (s.lastCommit i.option i.server).nErrCount = s.nErrCount + q := by
      simp only [Load.lastCommit]
      split
      · split
        · exact ⟨0, rfl⟩
        · exact ⟨_, rfl⟩
      · exact ⟨0, rfl⟩
    obtain ⟨q, hq⟩ := hge
    refine ⟨p + q, by omega, iff_of_false (by omega) ?_⟩
    intro hdone
    have hlt : k * i.option.m_CommitUnit < loads :=
      (Nat.mul_lt_mul_of_pos_right hk hpos).trans_le (Nat.div_mul_le_self _ _)
    rw [hdone hpos k hlt] at hfail
    cases hfail

/-- The commit behind the loop leaves the tail open when the row counter is at the end of a unit,
and nothing else. -/
theorem lastCommit_openRows {errors loads : Nat} {tail : List ρ} {s : Load ρ}
    (h : Tally i errors loads tail s) (hpos : 0 < i.option.m_CommitUnit) :
    (s.lastCommit i.option i.server).openRows = [] ↔
      ((i.counters loads).1 - 1) % i.option.m_CommitUnit = 0 → tail = [] := by
  have hload : (i.counters loads).1 = s.nLoad := (congrArg Prod.fst h.counters).symm
  rw [hload]
  by_cases hunit : (s.nLoad - 1) % i.option.m_CommitUnit = 0
  · have hlast : s.lastCommit i.option i.server = s := by
      simp only [Load.lastCommit, hunit, ne_eq, not_true_eq_false, and_false, if_false]
    rw [hlast]
    constructor
    · intro hopen _
      by_contra hne
      exact h.open_of_tail hpos hne hopen
    · intro htail
      by_contra hne
      rcases h.tail_of_open hpos hne with hrest | hrest
      · exact hrest (htail hunit)
      · exact hrest hunit
  · apply iff_of_true _ fun hzero => absurd hzero hunit
    cases hc : i.server.commit s.endTrans.length <;>
      simp [Load.lastCommit, hpos, hunit, Load.endTran, hc]

end LoadInput

end Natc.Ploader
