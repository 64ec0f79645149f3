import Mathlib.Tactic.Ring
import Natc.Lib.Text

/-!
# Decimal numbers in texts

A text of digits as a number, numbers written without leading zeros, and what follows from two
rows of blocks being the same text.
-/

namespace Natc.Lib

/-- The number that a text of digits writes. -/
def decimal (s : Text) : Nat := Nat.ofDigitChars 10 s 0

/-- All characters are digits. -/
def IsDigits (s : Text) : Prop := ∀ c ∈ s, c.isDigit = true

instance : DecidablePred IsDigits := fun s =>
  inferInstanceAs (Decidable (∀ c ∈ s, c.isDigit = true))

section Decimal

theorem isDigits_toDigits (n : Nat) : IsDigits (Nat.toDigits 10 n) :=
  fun _ hc => Nat.isDigit_of_mem_toDigits (by decide) (by decide) hc

@[simp] theorem decimal_toDigits (n : Nat) : decimal (Nat.toDigits 10 n) = n :=
  Nat.ofDigitChars_ten_toDigits

theorem toDigits_inj {m n : Nat} : Nat.toDigits 10 m = Nat.toDigits 10 n ↔ m = n := by
  refine ⟨fun h => ?_, fun h => by rw [h]⟩
  rw [← decimal_toDigits m, h, decimal_toDigits]

theorem decimal_append (s t : Text) : decimal (s ++ t) = 10 ^ t.length * decimal s + decimal t := by
  rw [decimal, Nat.ofDigitChars_append, Nat.ofDigitChars_eq_ofDigitChars_zero]
  rfl

theorem decimal_cons (c : Char) (s : Text) :
    decimal (c :: s) = 10 ^ s.length * decimal [c] + decimal s := decimal_append [c] s

private theorem digitChar_decimal {c : Char} (hc : c.isDigit = true) :
    decimal [c] < 10 ∧ Nat.digitChar (decimal [c]) = c := by
  obtain ⟨hlow, hhigh⟩ := Char.isDigit_iff_toNat.mp hc
  have hvalue : decimal [c] = c.toNat - 48 := by
    simp [decimal, Nat.ofDigitChars_cons]
  have hten : c.toNat - 48 < 10 := by
    change c.toNat ≤ 57 at hhigh
    omega
  rw [hvalue]
  refine ⟨hten, Char.toNat_inj.mp ?_⟩
  rw [Nat.toNat_digitChar_of_lt_ten hten]
  change 48 ≤ c.toNat at hlow
  omega

theorem toDigits_singleton {c : Char} (hc : c.isDigit = true) :
    Nat.toDigits 10 (decimal [c]) = [c] := by
  obtain ⟨hten, hchar⟩ := digitChar_decimal hc
  rw [Nat.toDigits_of_lt_base hten, hchar]

theorem decimal_pos {c : Char} (hc : c.isDigit = true) (hne : c ≠ '0') : 0 < decimal [c] := by
  refine Nat.pos_of_ne_zero fun hzero => hne ?_
  obtain ⟨-, hchar⟩ := digitChar_decimal hc
  rw [← hchar, hzero]
  rfl

theorem eq_replicate_of_decimal {s : Text} (hs : IsDigits s) (h : decimal s = 0) :
    s = List.replicate s.length '0' := by
  induction s with
  | nil => rfl
  | cons c s ih =>
    obtain ⟨hc, hs⟩ := List.forall_mem_cons.mp hs
    rw [decimal_cons] at h
    have hzero : c = '0' := by
      by_contra hne
      have hpos := Nat.mul_pos (Nat.pow_pos (n := s.length) (show 0 < 10 by decide))
        (decimal_pos hc hne)
      omega
    rw [List.length_cons, List.replicate_succ, ← ih hs (by omega), hzero]

theorem decimal_lt {s : Text} (hs : IsDigits s) : decimal s < 10 ^ s.length := by
  induction s with
  | nil => decide
  | cons c s ih =>
    obtain ⟨hc, hs⟩ := List.forall_mem_cons.mp hs
    have hten := (digitChar_decimal hc).1
    have hrest := ih hs
    have hfirst := Nat.mul_le_mul_left (10 ^ s.length) (Nat.le_of_lt_succ hten)
    rw [decimal_cons, List.length_cons, Nat.pow_succ]
    omega

/-- Digits behind a number that is not zero. -/
theorem toDigits_append {n : Nat} (hn : 0 < n) {s : Text} (hs : IsDigits s) :
    Nat.toDigits 10 n ++ s = Nat.toDigits 10 (10 ^ s.length * n + decimal s) := by
  induction s generalizing n with
  | nil => simp [decimal]
  | cons c s ih =>
    obtain ⟨hc, hs⟩ := List.forall_mem_cons.mp hs
    have hstep := Nat.toDigits_append_toDigits (by decide) hn (digitChar_decimal hc).1
    rw [toDigits_singleton hc] at hstep
    have hpos : 0 < 10 * n + decimal [c] := by omega
    rw [List.append_cons, hstep, ih hpos hs, decimal_cons c s, List.length_cons, Nat.pow_succ]
    congr 1
    ring

/-- A number without leading zeros is written as it stands. -/
theorem toDigits_decimal {c : Char} {s : Text} (hc : c.isDigit = true) (hne : c ≠ '0')
    (hs : IsDigits s) : Nat.toDigits 10 (decimal (c :: s)) = c :: s := by
  have happ := toDigits_append (decimal_pos hc hne) hs
  rw [toDigits_singleton hc, ← decimal_cons] at happ
  exact happ.symm

theorem head?_toDigits {n : Nat} (hn : 0 < n) : (Nat.toDigits 10 n).head? ≠ some '0' := by
  intro h
  obtain ⟨s, hs⟩ := List.head?_eq_some_iff.mp h
  have hdigits : IsDigits s := fun c hc =>
    isDigits_toDigits n c (by rw [hs]; exact List.mem_cons_of_mem _ hc)
  have hvalue : decimal s = n := by
    rw [← decimal_toDigits n, hs, decimal_cons]
    simp [decimal, Nat.ofDigitChars_cons]
  by_cases hlength : 0 < s.length
  · have hle := (Nat.length_toDigits_le_iff (by decide) hlength).mpr (hvalue ▸ decimal_lt hdigits)
    rw [hs, List.length_cons] at hle
    exact absurd hle (Nat.not_succ_le_self _)
  · obtain rfl := List.length_eq_zero_iff.mp (Nat.eq_zero_of_not_pos hlength)
    exact absurd hvalue.symm hn.ne'

theorem length_toDigits_le {m n : Nat} (h : m ≤ n) :
    (Nat.toDigits 10 m).length ≤ (Nat.toDigits 10 n).length := by
  rw [Nat.length_toDigits_le_iff (by decide) Nat.length_toDigits_pos]
  exact h.trans_lt ((Nat.length_toDigits_le_iff (by decide) Nat.length_toDigits_pos).mp le_rfl)

/-- How many digits are not zero. -/
def nonzeros (s : Text) : Nat := s.countP (· ≠ '0')

theorem nonzeros_append (s t : Text) : nonzeros (s ++ t) = nonzeros s + nonzeros t :=
  List.countP_append

theorem nonzeros_toDigits_decimal {s : Text} (hs : IsDigits s) :
    nonzeros (Nat.toDigits 10 (decimal s)) = nonzeros s := by
  induction s with
  | nil => decide
  | cons c s ih =>
    obtain ⟨hc, hs⟩ := List.forall_mem_cons.mp hs
    by_cases hzero : c = '0'
    · have hvalue : decimal (c :: s) = decimal s := by
        rw [hzero, decimal_cons]
        simp [decimal, Nat.ofDigitChars_cons]
      rw [hvalue, ih hs, hzero]
      exact (Nat.zero_add _).symm.trans (nonzeros_append ['0'] s).symm
    · rw [toDigits_decimal hc hzero hs]

/-- The digits of a number below a thousand stay the last three ones. -/
theorem nonzeros_thousand {p : Nat} (hp : p < 1000) {s : Text} (hs : IsDigits s) :
    nonzeros (Nat.toDigits 10 (p + 1000 * decimal s)) =
      nonzeros s + nonzeros (Nat.toDigits 10 p) := by
  have hlength : (Nat.toDigits 10 p).length ≤ 3 :=
    (Nat.length_toDigits_le_iff (by decide) (by decide)).mpr hp
  let pad := List.replicate (3 - (Nat.toDigits 10 p).length) '0' ++ Nat.toDigits 10 p
  have hpad : pad.length = 3 := by
    rw [List.length_append, List.length_replicate]
    omega
  have hvalue : decimal (s ++ pad) = p + 1000 * decimal s := by
    have hp : decimal pad = p := by
      rw [decimal_append, decimal_toDigits, decimal, Nat.ofDigitChars_replicate_zero]
      ring
    rw [decimal_append, hp, hpad]
    ring
  have hdigits : IsDigits (s ++ pad) := by
    intro c hc
    rcases List.mem_append.mp hc with hc | hc
    · exact hs c hc
    · rcases List.mem_append.mp hc with hc | hc
      · rw [List.eq_of_mem_replicate hc]
        rfl
      · exact isDigits_toDigits p c hc
  have hzeros : nonzeros (List.replicate (3 - (Nat.toDigits 10 p).length) '0') = 0 := by
    rw [nonzeros, List.countP_eq_zero]
    intro c hc
    rw [List.eq_of_mem_replicate hc]
    decide
  rw [← hvalue, nonzeros_toDigits_decimal hdigits, nonzeros_append, nonzeros_append, hzeros,
    Nat.zero_add]

/-- Blocks with as many digits that are not zero end at the same place, if no zero follows. -/
theorem append_inj_of_nonzeros {x y s t : Text} (h : x ++ s = y ++ t)
    (hcount : nonzeros x = nonzeros y) (hs : s.head? ≠ some '0') (ht : t.head? ≠ some '0') :
    x = y ∧ s = t := by
  have hnil : ∀ u v : Text, nonzeros u = 0 → (u ++ v).head? ≠ some '0' → u = [] := by
    intro u v hu hhead
    cases u with
    | nil => rfl
    | cons c u =>
      have hc := List.countP_eq_zero.mp hu c List.mem_cons_self
      obtain rfl : c = '0' := by simpa using hc
      exact absurd rfl hhead
  rcases List.append_eq_append_iff.mp h with ⟨u, rfl, rfl⟩ | ⟨u, rfl, rfl⟩
  · rw [nonzeros_append] at hcount
    obtain rfl := hnil u t (by omega) hs
    exact ⟨(List.append_nil x).symm, rfl⟩
  · rw [nonzeros_append] at hcount
    obtain rfl := hnil u s (by omega) ht
    exact ⟨List.append_nil y, rfl⟩

end Decimal

section Blocks

variable {α β : Type*} {f g : β → List α} {l : List β}

/-- Two rows of blocks with the same text, the first ones nowhere of less weight. -/
theorem weight_eq_of_flatMap_eq {m : List α → Nat} (hadd : ∀ s t, m (s ++ t) = m s + m t)
    (hle : ∀ b ∈ l, m (g b) ≤ m (f b)) (h : l.flatMap f = l.flatMap g) :
    ∀ b ∈ l, m (f b) = m (g b) := by
  have htotal : ∀ l : List β, (∀ b ∈ l, m (g b) ≤ m (f b)) →
      m (l.flatMap g) ≤ m (l.flatMap f) := by
    intro l hl
    induction l with
    | nil => exact le_rfl
    | cons b l ih =>
      obtain ⟨hb, hl⟩ := List.forall_mem_cons.mp hl
      rw [List.flatMap_cons, List.flatMap_cons, hadd, hadd]
      exact Nat.add_le_add hb (ih hl)
  have hsum := congrArg m h
  clear h
  induction l with
  | nil => simp
  | cons b l ih =>
    obtain ⟨hb, hl⟩ := List.forall_mem_cons.mp hle
    have hrest := htotal l hl
    rw [List.flatMap_cons, List.flatMap_cons, hadd, hadd] at hsum
    exact List.forall_mem_cons.mpr ⟨by omega, ih hl (by omega)⟩

/-- Blocks that are nowhere shorter are the same ones. -/
theorem eq_of_flatMap_eq (hlength : ∀ b ∈ l, (g b).length ≤ (f b).length)
    (h : l.flatMap f = l.flatMap g) : ∀ b ∈ l, f b = g b := by
  have hsame := weight_eq_of_flatMap_eq (fun _ _ => List.length_append) hlength h
  induction l with
  | nil => simp
  | cons b l ih =>
    obtain ⟨-, hl⟩ := List.forall_mem_cons.mp hlength
    obtain ⟨hb, hsame⟩ := List.forall_mem_cons.mp hsame
    obtain ⟨hhead, htail⟩ := List.append_inj h hb
    exact List.forall_mem_cons.mpr ⟨hhead, ih hl htail hsame⟩

end Blocks

end Natc.Lib
