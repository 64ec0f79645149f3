import Mathlib.Data.List.Basic

/-!
# The rows of a TDX view

The rows of the view are a `java.util.Vector`: an array and the number of its slots in use. Rows
that are not to be seen are taken out in place.
-/

namespace Natc.Viewer

variable {ρ : Type*}

/-- A vector, with `null` as `none`. -/
structure AVector (ρ : Type*) where
  elementData : List (Option ρ)
  elementCount : Nat
  le : elementCount ≤ elementData.length

/-- A vector whose array is full. -/
def AVector.ofRows (rows : List (Option ρ)) : AVector ρ := ⟨rows, rows.length, Nat.le_refl _⟩

/-- The array and the count that a method leaves behind. -/
structure Left (ρ : Type*) where
  elementData : List (Option ρ)
  elementCount : Nat

/-- The slots in use. -/
def AVector.rows (v : AVector ρ) : List (Option ρ) := v.elementData.take v.elementCount

def Left.rows (v : Left ρ) : List (Option ρ) := v.elementData.take v.elementCount

section RemoveMark

variable (visable : ρ → Bool)

/-- The body of the loop with index `i`: the array and `refEnd`. -/
def removeStep (s : List (Option ρ) × Nat) (i : Nat) : List (Option ρ) × Nat :=
  match s.1[i]?.join with
  | none => s
  | some rw =>
      if visable rw then (s.1.set s.2 (some rw), s.2 + 1)
      else (s.1.set s.2 none, s.2)

def removeMarkUnVisable (v : AVector ρ) : Left ρ :=
  let out := (List.range v.elementCount).foldl (removeStep visable) (v.elementData, 0)
  ⟨out.1, out.2 + 1⟩

/-- The rows that are not `null` and to be seen. -/
def visible (rows : List (Option ρ)) : List ρ := (rows.filterMap id).filter visable

/-- The vector holds the visible rows and nothing else. -/
structure Compacted (v : AVector ρ) (out : Left ρ) : Prop where
  count : out.elementCount = (visible visable v.rows).length
  rows : out.rows = (visible visable v.rows).map some

/-! ## The loop -/

/-- What holds in front of index `i`: the visible rows up to there stand at the start of the array,
and the slots from there on are as they were. -/
structure Compacting (data : List (Option ρ)) (i : Nat) (s : List (Option ρ) × Nat) : Prop where
  refEnd : s.2 = (visible visable (data.take i)).length
  le : s.2 ≤ i
  done : s.1.take s.2 = (visible visable (data.take i)).map some
  rest : ∀ j, i ≤ j → s.1[j]? = data[j]?
  length : s.1.length = data.length

variable {visable} {data : List (Option ρ)} {i : Nat} {s : List (Option ρ) × Nat}

theorem visible_take_succ (hi : i < data.length) :
    visible visable (data.take (i + 1)) =
      visible visable (data.take i) ++ visible visable [data[i]] := by
  rw [List.take_succ_eq_append_getElem hi, visible, visible, visible, List.filterMap_append,
    List.filter_append]

theorem take_set_succ {α : Type*} {l : List α} {k : Nat} {a : α} (hk : k < l.length) :
    (l.set k a).take (k + 1) = l.take k ++ [a] := by
  have hlength : k < (l.set k a).length := by rwa [List.length_set]
  rw [List.take_succ_eq_append_getElem hlength, List.getElem_set_self,
    List.take_set_of_le (Nat.le_refl _)]

theorem Compacting.step (h : Compacting visable data i s) (hi : i < data.length) :
    Compacting visable data (i + 1) (removeStep visable s i) := by
  have hget : s.1[i]? = some data[i] := by
    rw [h.rest i (Nat.le_refl _), List.getElem?_eq_getElem hi]
  have hvisible := @visible_take_succ _ visable data i hi
  have hlt : s.2 < s.1.length := by
    rw [h.length]
    exact Nat.lt_of_le_of_lt h.le hi
  have hrest : ∀ (a : Option ρ) j, i + 1 ≤ j → (s.1.set s.2 a)[j]? = data[j]? := by
    intro a j hj
    have hne : s.2 ≠ j := by
      have hle := h.le
      omega
    rw [List.getElem?_set_ne hne]
    exact h.rest j (by omega)
  unfold removeStep
  rw [hget]
  cases hrow : data[i] with
  | none =>
    have hsame : visible visable (data.take (i + 1)) = visible visable (data.take i) := by
      rw [hvisible, hrow]
      exact List.append_nil _
    exact ⟨by rw [hsame]; exact h.refEnd, Nat.le_succ_of_le h.le, by rw [hsame]; exact h.done,
      fun j hj => h.rest j (by omega), h.length⟩
  | some rw' =>
    show Compacting visable data (i + 1) (if visable rw' then _ else _)
    by_cases hvis : visable rw' = true
    · have hmore : visible visable (data.take (i + 1)) =
          visible visable (data.take i) ++ [rw'] := by
        rw [hvisible, hrow]
        simp [visible, hvis]
      rw [if_pos hvis]
      refine ⟨?_, Nat.succ_le_succ h.le, ?_, hrest _, ?_⟩
      · rw [hmore, List.length_append, ← h.refEnd]
        rfl
      · show (s.1.set s.2 (some rw')).take (s.2 + 1) = _
        rw [hmore, List.map_append, take_set_succ hlt, h.done]
        rfl
      · rw [List.length_set, h.length]
    · have hsame : visible visable (data.take (i + 1)) = visible visable (data.take i) := by
        rw [hvisible, hrow]
        simp [visible, hvis]
      rw [if_neg hvis]
      refine ⟨by rw [hsame]; exact h.refEnd, Nat.le_succ_of_le h.le, ?_, hrest _, ?_⟩
      · show (s.1.set s.2 none).take s.2 = _
        rw [hsame, List.take_set_of_le (Nat.le_refl _), h.done]
      · rw [List.length_set, h.length]

theorem compacting_loop (data : List (Option ρ)) (hi : i ≤ data.length) :
    Compacting visable data i ((List.range i).foldl (removeStep visable) (data, 0)) := by
  induction i with
  | zero => exact ⟨rfl, Nat.le_refl _, rfl, fun _ _ => rfl, rfl⟩
  | succ i ih =>
    rw [List.range_succ, List.foldl_append, List.foldl_cons, List.foldl_nil]
    exact (ih (Nat.le_of_succ_le hi)).step hi

/-! ## The vector behind the call -/

/-- The visible rows come first, and the vector counts one slot more. -/
theorem removeMarkUnVisable_rows (v : AVector ρ) :
    (removeMarkUnVisable visable v).elementData.take (visible visable v.rows).length =
        (visible visable v.rows).map some ∧
      (removeMarkUnVisable visable v).elementCount = (visible visable v.rows).length + 1 := by
  have hloop := @compacting_loop _ visable v.elementCount v.elementData v.le
  refine ⟨?_, ?_⟩
  · have hdone := hloop.done
    rwa [hloop.refEnd] at hdone
  · exact congrArg (· + 1) hloop.refEnd

/-- Whatever the rows are, the vector does not hold the visible ones alone. -/
theorem not_compacted (v : AVector ρ) : ¬Compacted visable v (removeMarkUnVisable visable v) := by
  intro h
  have hcount := h.count
  rw [(removeMarkUnVisable_rows v).2] at hcount
  omega

/-- A row that stays is in the vector twice when an invisible one stood before it. -/
theorem not_compacted_behind_gap :
    ¬Compacted (fun visable : Bool => visable) (.ofRows [some false, some true])
      (removeMarkUnVisable (fun visable : Bool => visable) (.ofRows [some false, some true])) := by
  intro h
  exact absurd h.rows (by decide)

end RemoveMark

end Natc.Viewer
