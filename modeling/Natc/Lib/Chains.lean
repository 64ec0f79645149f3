import Mathlib.Data.Fin.Basic
import Mathlib.Data.List.FinRange
import Mathlib.Data.List.Nodup
import Mathlib.Logic.Function.Basic

/-!
# Chained tables

A table of buckets, each a chain of nodes. A node carries its key, and lies in the bucket of that
key. New nodes go to the front of their chain, and a node is changed in place.
-/

namespace Natc.Lib

variable {K V : Type*} [DecidableEq K] {n : Nat}

abbrev Chains (V : Type*) (n : Nat) := Fin n → List V

namespace Chains

section chain

variable (key : V → K) (k : K)

/-- The first node of a chain with this key is changed. -/
def replaceFirst (g : V → V) : List V → List V
  | [] => []
  | v :: vs => if key v = k then g v :: vs else v :: replaceFirst g vs

variable {key k} {g : V → V}

theorem map_replaceFirst (hg : ∀ v, key v = k → key (g v) = k) (vs : List V) :
    (replaceFirst key k g vs).map key = vs.map key := by
  induction vs with
  | nil => rfl
  | cons v vs ih =>
    rw [replaceFirst]
    split
    · next h => rw [List.map_cons, List.map_cons, hg v h, h]
    · rw [List.map_cons, List.map_cons, ih]

theorem find?_replaceFirst (hg : ∀ v, key v = k → key (g v) = k) (l : K) (vs : List V) :
    (replaceFirst key k g vs).find? (fun v => key v = l) =
      if l = k then (vs.find? fun v => key v = k).map g else vs.find? fun v => key v = l := by
  induction vs with
  | nil => simp [replaceFirst]
  | cons v vs ih =>
    rw [replaceFirst]
    by_cases hv : key v = k
    · rw [if_pos hv, List.find?_cons, List.find?_cons, List.find?_cons]
      by_cases hl : l = k
      · simp [hl, hv, hg v hv]
      · simp [hl, hv, hg v hv, Ne.symm hl]
    · rw [if_neg hv, List.find?_cons, List.find?_cons, List.find?_cons, ih]
      by_cases hl : l = k
      · simp [hl, hv]
      · simp [hl]

/-- A view of the chain stays the same exactly if that of the first value does. -/
theorem view_replaceFirst {W : Type*} {view : V → W} {vs : List V} :
    (replaceFirst key k g vs).map view = vs.map view ↔
      ∀ v ∈ vs.find? fun v => key v = k, view (g v) = view v := by
  induction vs with
  | nil => exact iff_of_true rfl fun v hv => absurd hv (Option.not_mem_none v)
  | cons v vs ih =>
    rw [replaceFirst, List.find?_cons]
    by_cases hv : key v = k
    · rw [if_pos hv, decide_eq_true hv, List.map_cons, List.map_cons, List.cons.injEq]
      simp only [and_true, Option.mem_some_iff, forall_eq']
    · rw [if_neg hv, decide_eq_false hv, List.map_cons, List.map_cons, List.cons.injEq,
        and_iff_right rfl, ih]

end chain

variable (key : V → K) (hash : K → Fin n)

/-- The node that the chain of the key's bucket has under the key. -/
def find (t : Chains V n) (k : K) : Option V :=
  (t (hash k)).find? fun v => key v = k

/-- A new node at the front of its chain. -/
def push (t : Chains V n) (v : V) : Chains V n :=
  Function.update t (hash (key v)) (v :: t (hash (key v)))

/-- The node under a key is changed in place. -/
def modify (t : Chains V n) (k : K) (g : V → V) : Chains V n :=
  Function.update t (hash k) (replaceFirst key k g (t (hash k)))

/-- Every node lies in the bucket of its key, and no key has two nodes. -/
structure Sound (t : Chains V n) : Prop where
  placed : ∀ i, ∀ v ∈ t i, hash (key v) = i
  nodup : ∀ i, ((t i).map key).Nodup

variable {key hash} {t : Chains V n}

omit [DecidableEq K] in
theorem sound_empty : Sound key hash (fun _ => [] : Chains V n) :=
  ⟨fun _ _ h => absurd h List.not_mem_nil, fun _ => List.nodup_nil⟩

omit [DecidableEq K] in
/-- No key has two nodes in the whole table. -/
theorem Sound.nodup_all (h : Sound key hash t) :
    (((List.finRange n).flatMap t).map key).Nodup := by
  rw [List.map_flatMap, List.nodup_flatMap]
  refine ⟨fun i _ => h.nodup i, ?_⟩
  apply (List.nodup_finRange n).imp
  intro i j hij k hi hj
  obtain ⟨v, hv, rfl⟩ := List.mem_map.mp hi
  obtain ⟨w, hw, hkey⟩ := List.mem_map.mp hj
  apply hij
  rw [← h.placed i v hv, ← h.placed j w hw, hkey]

theorem Sound.push (h : Sound key hash t) {v : V} (hv : find key hash t (key v) = none) :
    Sound key hash (push key hash t v) := by
  constructor
  · intro i w hw
    by_cases hi : i = hash (key v)
    · subst hi
      rw [Chains.push, Function.update_self] at hw
      rcases List.mem_cons.mp hw with rfl | hw
      · rfl
      · exact h.placed _ w hw
    · rw [Chains.push, Function.update_of_ne hi] at hw
      exact h.placed i w hw
  · intro i
    by_cases hi : i = hash (key v)
    · subst hi
      rw [Chains.push, Function.update_self, List.map_cons, List.nodup_cons]
      refine ⟨fun hmem => ?_, h.nodup _⟩
      obtain ⟨w, hw, hkey⟩ := List.mem_map.mp hmem
      rw [find, List.find?_eq_none] at hv
      exact hv w hw (by simpa using hkey)
    · rw [Chains.push, Function.update_of_ne hi]
      exact h.nodup i

theorem Sound.modify (h : Sound key hash t) {k : K} {g : V → V}
    (hg : ∀ v, key v = k → key (g v) = k) : Sound key hash (modify key hash t k g) := by
  have hmap : ∀ i, ((Chains.modify key hash t k g) i).map key = (t i).map key := by
    intro i
    by_cases hi : i = hash k
    · subst hi
      rw [Chains.modify, Function.update_self, map_replaceFirst hg]
    · rw [Chains.modify, Function.update_of_ne hi]
  constructor
  · intro i v hv
    have hmem : key v ∈ (t i).map key := by
      rw [← hmap i]
      exact List.mem_map_of_mem hv
    obtain ⟨w, hw, hkey⟩ := List.mem_map.mp hmem
    rw [← hkey]
    exact h.placed i w hw
  · intro i
    rw [hmap i]
    exact h.nodup i

theorem find_push (t : Chains V n) (v : V) (k : K) :
    find key hash (push key hash t v) k = if k = key v then some v else find key hash t k := by
  rw [find, Chains.push]
  by_cases hk : k = key v
  · subst hk
    rw [Function.update_self, if_pos rfl, List.find?_cons]
    simp
  · rw [if_neg hk]
    by_cases hi : hash k = hash (key v)
    · rw [hi, Function.update_self, List.find?_cons, find, hi]
      simp [Ne.symm hk]
    · rw [Function.update_of_ne hi, find]

theorem find_modify (t : Chains V n) {k : K} {g : V → V} (hg : ∀ v, key v = k → key (g v) = k)
    (l : K) : find key hash (modify key hash t k g) l =
      if l = k then (find key hash t k).map g else find key hash t l := by
  rw [find, Chains.modify]
  by_cases hi : hash l = hash k
  · rw [hi, Function.update_self, find?_replaceFirst hg, find, find, hi]
  · have hl : l ≠ k := fun heq => hi (by rw [heq])
    rw [Function.update_of_ne hi, if_neg hl, find]

theorem key_of_find {k : K} {v : V} (h : find key hash t k = some v) : key v = k := by
  simpa using List.find?_some h

end Chains

end Natc.Lib
