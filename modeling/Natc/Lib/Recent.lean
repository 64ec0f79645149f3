import Mathlib.Data.List.Range

/-!
# The last entries of a list

The entries of a growing list are numbered cyclically by `N` slots. The slots hold the last `N`
entries if each new one is written into the slot of its number, and a scan of the slots that begins
where the next entry goes meets them in their order.
-/

namespace Natc.Lib

variable {α : Type*} {N : Nat} {slots : Nat → α} {l : List α} {a c : α} {i : Nat}

/-- The last `N` entries of `l` stand in the slots of their numbers. -/
def Retains (N : Nat) (slots : Nat → α) (l : List α) : Prop :=
  ∀ i c, l[i]? = some c → l.length ≤ i + N → slots (i % N) = c

/-- The positions of the last `N` entries. -/
def recent (N : Nat) (l : List α) : List Nat := List.range' (l.length - N) (min l.length N)

theorem mem_recent : i ∈ recent N l ↔ i < l.length ∧ l.length ≤ i + N := by
  rw [recent, List.mem_range'_1]
  omega

theorem Retains.nil : Retains N slots [] := by
  intro i c h
  simp at h

/-- Fewer than `N` steps lead to another number. -/
theorem eq_of_mod_eq {k : Nat} (hik : i ≤ k) (hk : k < i + N) (hmod : i % N = k % N) : i = k := by
  have hdvd : N ∣ k - i := Nat.dvd_of_mod_eq_zero (Nat.sub_mod_eq_zero_of_mod_eq hmod.symm)
  have hzero := Nat.eq_zero_of_dvd_of_lt hdvd (by omega)
  omega

/-- A new entry goes into the slot of its number. -/
theorem Retains.push {slots' : Nat → α} (h : Retains N slots l) (hN : 0 < N)
    (hself : slots' (l.length % N) = a)
    (hother : ∀ k < N, k ≠ l.length % N → slots' k = slots k) : Retains N slots' (l ++ [a]) := by
  intro i c hc hrecent
  rw [List.length_append, List.length_singleton] at hrecent
  rcases Nat.lt_or_ge i l.length with hi | hi
  · rw [List.getElem?_append_left hi] at hc
    have hne : i % N ≠ l.length % N :=
      fun hmod => absurd (eq_of_mod_eq hi.le (by omega) hmod) hi.ne
    rw [hother _ (Nat.mod_lt i hN) hne]
    exact h i c hc (by omega)
  · rw [List.getElem?_append_right hi] at hc
    obtain ⟨hlt, hac⟩ := List.getElem?_eq_some_iff.mp hc
    have heq : i = l.length := by
      rw [List.length_singleton] at hlt
      omega
    rw [heq, hself]
    simpa [heq] using hac

/-- A number is that of one of the last entries, if it was used at all. -/
theorem exists_recent (hi : i < N) (hl : i < l.length) : ∃ k ∈ recent N l, k % N = i := by
  refine ⟨i + N * ((l.length - 1 - i) / N), mem_recent.mpr ?_, ?_⟩
  · have hmod := Nat.div_add_mod (l.length - 1 - i) N
    have hlt := Nat.mod_lt (l.length - 1 - i) (Nat.zero_lt_of_lt hi)
    omega
  · rw [Nat.add_mul_mod_self_left, Nat.mod_eq_of_lt hi]

/-- A scan of all slots from that of the next entry on meets the last entries in order. The slots
that are not in use yet are passed over. -/
theorem scan_eq (N : Nat) (l : List α) :
    ((List.range' l.length N).map (· % N)).filter (fun s => s < l.length ∨ N ≤ l.length) =
      (recent N l).map (· % N) := by
  rcases Nat.lt_or_ge l.length N with hlt | hge
  · -- the slots behind the last entry are empty, those in front of it are all in use
    have hsplit : List.range' l.length N =
        List.range' l.length (N - l.length) ++ List.range' N l.length := by
      have happend := @List.range'_append_1 l.length (N - l.length) l.length
      rw [Nat.add_sub_cancel' hlt.le, Nat.sub_add_cancel hlt.le] at happend
      exact happend.symm
    have hempty : ((List.range' l.length (N - l.length)).map (· % N)).filter
        (fun s => s < l.length ∨ N ≤ l.length) = [] := by
      rw [List.filter_eq_nil_iff]
      intro s hs
      obtain ⟨k, hk, rfl⟩ := List.mem_map.mp hs
      rw [List.mem_range'_1] at hk
      rw [Nat.mod_eq_of_lt (by omega), decide_eq_true_eq]
      omega
    have hused : (List.range' N l.length).map (· % N) = (recent N l).map (· % N) := by
      rw [recent, Nat.sub_eq_zero_of_le hlt.le, Nat.min_eq_left hlt.le]
      refine List.ext_getElem (by simp) fun i _ _ => ?_
      simp
    have hall : ∀ s ∈ (recent N l).map (· % N), decide (s < l.length ∨ N ≤ l.length) = true := by
      intro s hs
      obtain ⟨k, hk, rfl⟩ := List.mem_map.mp hs
      rw [mem_recent] at hk
      exact decide_eq_true (Or.inl (by rw [Nat.mod_eq_of_lt (by omega)]; exact hk.1))
    rw [hsplit, List.map_append, List.filter_append, hempty, List.nil_append, hused,
      List.filter_eq_self.mpr hall]
  · have hall : ∀ s ∈ (List.range' l.length N).map (· % N),
        decide (s < l.length ∨ N ≤ l.length) = true := fun _ _ => decide_eq_true (Or.inr hge)
    rw [List.filter_eq_self.mpr hall, recent, Nat.min_eq_right hge]
    refine List.ext_getElem (by simp) fun i hi _ => ?_
    have hshift : l.length + i = l.length - N + i + N := by omega
    simp only [List.getElem_map, List.getElem_range', Nat.one_mul]
    rw [hshift, Nat.add_mod_right]

end Natc.Lib
