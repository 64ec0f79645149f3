import Mathlib.Data.List.DropRight
import Natc.Ploader.Accounting

/-!
# Commit coverage of a load

The rows that are left in an open transaction when the load returns.
-/

namespace Natc.Ploader

variable {ρ : Type}

/-- What a list ends with, as far as `p` holds there, gives something exactly if one of its
members does and `p` holds from it on. -/
theorem flatMap_rtakeWhile_ne_nil {α β : Type} (p : α → Bool) (f : Nat → α) (g : α → List β)
    (n : Nat) : (((List.range n).map f).rtakeWhile p).flatMap g ≠ [] ↔
      ∃ k, k < n ∧ g (f k) ≠ [] ∧ ∀ l, k ≤ l → l < n → p (f l) = true := by
  induction n with
  | zero => simp
  | succ n ih =>
    rw [List.range_succ, List.map_append, List.map_singleton, List.rtakeWhile_concat]
    cases hp : p (f n) with
    | true =>
      rw [if_pos rfl, List.flatMap_append, List.flatMap_singleton, ne_eq, List.append_eq_nil_iff,
        not_and_or, ← ne_eq, ih]
      constructor
      · intro h
        rcases h with ⟨k, hk, hne, hall⟩ | hne
        · refine ⟨k, by omega, hne, ?_⟩
          intro l hkl hl
          rcases Nat.lt_succ_iff_lt_or_eq.mp hl with hl | rfl
          · exact hall l hkl hl
          · exact hp
        · refine ⟨n, n.lt_succ_self, hne, ?_⟩
          intro l hnl hl
          rw [Nat.le_antisymm (Nat.lt_succ_iff.mp hl) hnl]
          exact hp
      · intro h
        obtain ⟨k, hk, hne, hall⟩ := h
        rcases Nat.lt_succ_iff_lt_or_eq.mp hk with hk | rfl
        · exact Or.inl ⟨k, hk, hne, fun l hkl hl => hall l hkl (by omega)⟩
        · exact Or.inr hne
    | false =>
      rw [if_neg Bool.false_ne_true]
      apply iff_of_false (fun h => h rfl)
      intro h
      obtain ⟨k, hk, _, hall⟩ := h
      rw [hall n (by omega) n.lt_succ_self] at hp
      cases hp

namespace LoadInput

variable (i : LoadInput ρ)

/-- The parameter set of execution `k` of a load without an array. -/
def width (k : Nat) : Nat :=
  if i.lastRead = some true ∧ k + 1 = i.goods.length then 1 else i.stmt

/-- Execution `k` of a load without an array succeeds, and it puts a row into the table. -/
def Accepts (k : Nat) : Prop :=
  ∀ j, j < i.width k → i.server.paramStatus k j = .success

def Inserts (k : Nat) : Prop :=
  ∃ j, j < i.width k ∧ (i.server.paramStatus k j).inserted = true

instance (k : Nat) : Decidable (i.Accepts k) :=
  inferInstanceAs (Decidable (∀ j, j < i.width k → i.server.paramStatus k j = .success))

/-- How often the load comes to its commit: with an array for every well-read row, without one for
every execution that succeeds. -/
def committedRows : Nat :=
  if 1 < i.option.m_ArrayCount then i.goods.length
  else ((List.range i.goods.length).filter fun k => i.Accepts k).length

/-- The row counter stands at the end of a unit, and behind the last commit that the loop has come
to a row is inserted: by the batch at the end of the file, or by an execution that fails. -/
def LeavesOpen : Prop :=
  ((i.counters i.committedRows).1 - 1) % i.option.m_CommitUnit = 0 ∧
    if 1 < i.option.m_ArrayCount then
      i.lastRead = none ∧ ∃ j, j < i.goods.length % i.option.m_ArrayCount ∧
        (i.server.paramStatus (i.goods.length / i.option.m_ArrayCount) j).inserted = true
    else
      ∃ k, k < i.goods.length ∧ i.Inserts k ∧
        ∀ l, k ≤ l → l < i.goods.length → ¬i.Accepts l

theorem insertedRows_batch_ne_nil (goods : List ρ) (width k : Nat) :
    Load.insertedRows (i.batch goods width k) ≠ [] ↔
      ∃ j, j < width ∧ (i.server.paramStatus k j).inserted = true := by
  simp [Load.insertedRows, batch, List.filter_eq_nil_iff]

/-- Without an array every well-read row is one execution. -/
theorem batches_single (ha : i.option.m_ArrayCount = 1) :
    i.batches i.goods i.lastRead =
      (List.range i.goods.length).map fun k => i.batch i.goods (i.width k) k := by
  have hparamset : i.paramset = i.stmt := if_neg (by omega)
  have hsame : ∀ n, (i.lastRead = some true → n < i.goods.length) →
      (List.range n).map (i.batch i.goods i.paramset) =
        (List.range n).map fun k => i.batch i.goods (i.width k) k := by
    intro n hn
    apply List.map_congr_left
    intro k hk
    have hnot : ¬(i.lastRead = some true ∧ k + 1 = i.goods.length) := by
      intro hlast
      have := hn hlast.1
      have := List.mem_range.mp hk
      omega
    rw [width, if_neg hnot, hparamset]
  rcases hlast : i.lastRead with _ | _ | _
  · simp only [batches, ha, Nat.div_one, Nat.mod_one, if_true, List.append_nil]
    exact hsame _ (by simp [hlast])
  · simp only [batches, ha, Nat.div_one]
    exact hsame _ (by simp [hlast])
  · have hpos := List.length_pos_of_ne_nil (i.goods_ne_nil hlast)
    have hsucc : i.goods.length - 1 + 1 = i.goods.length := by omega
    have hwidth : i.width (i.goods.length - 1) = 1 := if_pos ⟨hlast, hsucc⟩
    simp only [batches, ha, Nat.div_one, Nat.mod_one]
    rw [hsame _ (fun _ => by omega), ← hsucc, List.range_succ, List.map_append, List.map_singleton]
    simp only [hsucc, hwidth]

theorem loads_eq_committedRows : i.option.loads i.goods.length (i.batches i.goods i.lastRead) =
    i.committedRows := by
  simp only [LoadOption.loads, committedRows]
  by_cases ha : 1 < i.option.m_ArrayCount
  · rw [if_pos ha, if_pos ha]
  · rw [if_neg ha, if_neg ha, i.batches_single (not_array ha), List.filter_map, List.length_map]
    apply congrArg List.length
    apply List.filter_congr
    intro k _
    change Load.accepted _ = _
    rw [Bool.eq_iff_iff, decide_eq_true_eq]
    exact i.accepted_batch _ _ _

theorem leftOpen_ne_nil_iff : i.leftOpen i.goods i.lastRead ≠ [] ↔
    if 1 < i.option.m_ArrayCount then
      i.lastRead = none ∧ ∃ j, j < i.goods.length % i.option.m_ArrayCount ∧
        (i.server.paramStatus (i.goods.length / i.option.m_ArrayCount) j).inserted = true
    else
      ∃ k, k < i.goods.length ∧ i.Inserts k ∧
        ∀ l, k ≤ l → l < i.goods.length → ¬i.Accepts l := by
  by_cases ha : 1 < i.option.m_ArrayCount
  · rw [leftOpen, if_pos ha, if_pos ha]
    by_cases hlast : i.lastRead = none
    · rw [if_pos hlast, insertedRows_batch_ne_nil]
      exact ⟨fun h => ⟨hlast, h⟩, fun h => h.2⟩
    · rw [if_neg hlast]
      exact iff_of_false (fun h => h rfl) fun h => hlast h.1
  · rw [leftOpen, if_neg ha, if_neg ha, LoadOption.tail, if_neg ha,
      i.batches_single (not_array ha), flatMap_rtakeWhile_ne_nil]
    have haccepts : ∀ l, ((!Load.accepted (i.batch i.goods (i.width l) l)) = true) ↔
        ¬i.Accepts l := by
      intro l
      rw [Bool.not_eq_true', ← Bool.not_eq_true, accepted_batch]
      exact Iff.rfl
    simp only [insertedRows_batch_ne_nil, haccepts]
    exact Iff.rfl

theorem left_open_iff (hunit : 0 < i.option.m_CommitUnit) (hexit : i.LoadwithPrepare.2 ≠ .fatal) :
    i.LoadwithPrepare.1.openRows = [] ↔ ¬i.LeavesOpen := by
  have hended := i.looped_ended hexit
  have hopen := i.lastCommit_openRows hended.tally hunit
  have hloads : i.option.loads (wellRead i.selected).length i.looped.1.executed =
      i.committedRows := by
    rw [hended.executed]
    exact i.loads_eq_committedRows
  rw [hloads] at hopen
  rw [LeavesOpen, ← i.leftOpen_ne_nil_iff, not_and, not_not]
  exact hopen

end LoadInput

/-- Two rows, a batch of three and a commit after every two rows: the commit comes before the
batch, which the end of the file sends. -/
def rowsBehindCommit : LoadInput Nat where
  option := ⟨3, none, none, 2, by decide⟩
  records := [(true, 10), (true, 20)]
  atEnd := 0
  server := ⟨fun _ _ => .success, fun _ => false, fun _ => true⟩
  stmt := 1
  slots := fun _ => 0
  status := fun _ => .unused

theorem rows_left_open : ¬∀ i : LoadInput Nat, 0 < i.option.m_CommitUnit →
    i.LoadwithPrepare.2 = .wholeFile → i.LoadwithPrepare.1.openRows = [] := by
  intro h
  have hopen := h rowsBehindCommit (by decide) (by decide)
  exact absurd hopen (by decide)

theorem left_open_iff_rowsBehindCommit :
    rowsBehindCommit.LoadwithPrepare.1.openRows = [] ↔ ¬rowsBehindCommit.LeavesOpen :=
  rowsBehindCommit.left_open_iff (by decide) (by decide)

end Natc.Ploader
