import Mathlib.Data.List.Chain
import Mathlib.Data.List.Nodup
import Mathlib.Logic.Function.Basic

/-!
# Circular doubly linked lists

The cells of a ring are known by their addresses. A ring is read off from a first cell: each cell is
linked with the one behind it, and the last one with the first. A cell is put in at the end of a
ring, or the last one is taken out, by writing the links of its neighbours alone.
-/

namespace Natc.Lib

/-- The links of all cells. -/
structure Links (α : Type*) where
  prev : α → α
  next : α → α

namespace Links

variable {α : Type*} [DecidableEq α] (h : Links α)

def setPrev (a b : α) : Links α := { h with prev := Function.update h.prev a b }

def setNext (a b : α) : Links α := { h with next := Function.update h.next a b }

@[simp] theorem setPrev_next (a b : α) : (h.setPrev a b).next = h.next := rfl

@[simp] theorem setNext_prev (a b : α) : (h.setNext a b).prev = h.prev := rfl

@[simp] theorem setPrev_prev (a b x : α) :
    (h.setPrev a b).prev x = if x = a then b else h.prev x := Function.update_apply ..

@[simp] theorem setNext_next (a b x : α) :
    (h.setNext a b).next x = if x = a then b else h.next x := Function.update_apply ..

/-- `b` stands behind `a`. -/
def Adjacent (a b : α) : Prop := h.next a = b ∧ h.prev b = a

/-- A cell alone. -/
def alone (a : α) : Links α := (h.setNext a a).setPrev a a

/-- The cell `a` behind the last one of the ring from `c` on. -/
def pushLast (c a : α) : Links α :=
  (((h.setNext a c).setPrev a (h.prev c)).setNext (h.prev c) a).setPrev c a

/-- The ring from `c` on without its last cell. -/
def dropLast (c : α) : Links α :=
  (h.setPrev c (h.prev (h.prev c))).setNext (h.prev (h.prev c)) c

end Links

/-- The cells of a ring, from its first one on. -/
structure Ring {α : Type*} (h : Links α) (cells : List α) : Prop where
  nodup : cells.Nodup
  chain : cells.IsChain h.Adjacent
  closed : ∀ l ∈ cells.getLast?, ∀ c ∈ cells.head?, h.Adjacent l c

namespace Ring

variable {α : Type*} {h h' : Links α} {cells : List α} {a c l : α}

theorem nil : Ring h ([] : List α) :=
  ⟨List.nodup_nil, List.isChain_nil, fun l hl => by cases hl⟩

/-- A chain reads the `next` of all cells but the last and the `prev` of all but the first. -/
theorem chain_congr (hchain : cells.IsChain h.Adjacent)
    (hnext : ∀ x ∈ cells.dropLast, h'.next x = h.next x)
    (hprev : ∀ x ∈ cells.tail, h'.prev x = h.prev x) : cells.IsChain h'.Adjacent := by
  induction cells with
  | nil => exact List.isChain_nil
  | cons x cells ih =>
    cases cells with
    | nil => exact List.isChain_singleton x
    | cons y cells =>
      rw [List.isChain_cons_cons] at hchain ⊢
      refine ⟨⟨?_, ?_⟩, ih hchain.2 ?_ ?_⟩
      · rw [hnext x List.mem_cons_self]
        exact hchain.1.1
      · rw [hprev y List.mem_cons_self]
        exact hchain.1.2
      · exact fun z hz => hnext z (List.mem_cons_of_mem _ hz)
      · exact fun z hz => hprev z (List.mem_cons_of_mem _ hz)

/-- The last cell stands in front of the first one. -/
theorem prev_head (hring : Ring h cells) (hc : c ∈ cells.head?) (hl : l ∈ cells.getLast?) :
    h.prev c = l :=
  (hring.closed l hl c hc).2

theorem ne_last (hnodup : cells.Nodup) (hl : l ∈ cells.getLast?) : ∀ x ∈ cells.dropLast, x ≠ l := by
  intro x hx
  have hcells := List.dropLast_append_getLast? l hl
  rw [← hcells] at hnodup
  exact (List.nodup_append.mp hnodup).2.2 x hx l List.mem_cons_self

theorem ne_head (hnodup : cells.Nodup) (hc : c ∈ cells.head?) : ∀ x ∈ cells.tail, x ≠ c := by
  intro x hx heq
  obtain ⟨rest, rfl⟩ := List.head?_eq_some_iff.mp hc
  exact (List.nodup_cons.mp hnodup).1 (heq ▸ hx)

variable [DecidableEq α]

theorem alone (h : Links α) (a : α) : Ring (h.alone a) [a] := by
  refine ⟨List.nodup_singleton a, List.isChain_singleton a, fun l hl c hc => ?_⟩
  cases hl
  cases hc
  constructor <;> simp [Links.alone]

theorem pushLast (hring : Ring h cells) (hc : c ∈ cells.head?) (ha : a ∉ cells) :
    Ring (h.pushLast c a) (cells ++ [a]) := by
  have hne : cells ≠ [] := by
    rintro rfl
    cases hc
  have hl : cells.getLast hne ∈ cells.getLast? := List.getLast?_eq_some_getLast hne
  generalize cells.getLast hne = l at hl
  have hlast := hring.prev_head hc hl
  have hac : a ≠ c := fun heq => ha (heq ▸ List.mem_of_mem_head? hc)
  have hal : a ≠ l := fun heq => ha (heq ▸ List.mem_of_getLast? hl)
  have hnext : ∀ x, (h.pushLast c a).next x = if x = l then a else if x = a then c else h.next x := by
    intro x
    simp only [Links.pushLast, hlast, Links.setPrev_next, Links.setNext_next]
  have hprev : ∀ x, (h.pushLast c a).prev x = if x = c then a else if x = a then l else h.prev x := by
    intro x
    simp only [Links.pushLast, hlast, Links.setPrev_prev, Links.setNext_prev]
  refine ⟨?_, ?_, ?_⟩
  · refine List.nodup_append.mpr ⟨hring.nodup, List.nodup_singleton a, ?_⟩
    intro x hx y hy heq
    rw [List.mem_singleton] at hy
    exact ha (hy ▸ heq ▸ hx)
  · apply List.IsChain.append
    · apply chain_congr hring.chain
      · intro x hx
        have hxa : x ≠ a := fun heq => ha (heq ▸ (List.dropLast_sublist cells).subset hx)
        rw [hnext, if_neg (ne_last hring.nodup hl x hx), if_neg hxa]
      · intro x hx
        have hxa : x ≠ a := fun heq => ha (heq ▸ List.mem_of_mem_tail hx)
        rw [hprev, if_neg (ne_head hring.nodup hc x hx), if_neg hxa]
    · exact List.isChain_singleton a
    · intro x hx y hy
      obtain rfl : l = x := Option.some.inj (hl.symm.trans hx)
      cases hy
      exact ⟨by rw [hnext, if_pos rfl], by rw [hprev, if_neg hac, if_pos rfl]⟩
  · intro x hx y hy
    rw [List.getLast?_concat] at hx
    cases hx
    rw [List.head?_append_of_ne_nil _ hne] at hy
    obtain rfl : c = y := Option.some.inj (hc.symm.trans hy)
    exact ⟨by rw [hnext, if_neg hal, if_pos rfl], by rw [hprev, if_pos rfl]⟩

theorem dropLast (hring : Ring h (cells ++ [l])) (hc : c ∈ cells.head?) :
    Ring (h.dropLast c) cells := by
  have hne : cells ≠ [] := by
    rintro rfl
    cases hc
  have hp : cells.getLast hne ∈ cells.getLast? := List.getLast?_eq_some_getLast hne
  generalize cells.getLast hne = p at hp
  have hhead : c ∈ (cells ++ [l]).head? := by
    rw [List.head?_append_of_ne_nil _ hne]
    exact hc
  have hlast : h.prev c = l := hring.prev_head hhead List.getLast?_concat
  have hchain := List.isChain_append.mp hring.chain
  have hbefore : h.prev l = p := (hchain.2.2 p hp l rfl).2
  have hnodup : cells.Nodup := (List.nodup_append.mp hring.nodup).1
  have hnext : ∀ x, (h.dropLast c).next x = if x = p then c else h.next x := by
    intro x
    simp only [Links.dropLast, hlast, hbefore, Links.setPrev_next, Links.setNext_next]
  have hprev : ∀ x, (h.dropLast c).prev x = if x = c then p else h.prev x := by
    intro x
    simp only [Links.dropLast, hlast, hbefore, Links.setPrev_prev, Links.setNext_prev]
  refine ⟨hnodup, ?_, ?_⟩
  · apply chain_congr hchain.1
    · intro x hx
      rw [hnext, if_neg (ne_last hnodup hp x hx)]
    · intro x hx
      rw [hprev, if_neg (ne_head hnodup hc x hx)]
  · intro x hx y hy
    obtain rfl : p = x := Option.some.inj (hp.symm.trans hx)
    obtain rfl : c = y := Option.some.inj (hc.symm.trans hy)
    exact ⟨by rw [hnext, if_pos rfl], by rw [hprev, if_pos rfl]⟩

end Ring

end Natc.Lib
