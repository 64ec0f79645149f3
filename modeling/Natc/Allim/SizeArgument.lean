import Mathlib.Algebra.Group.Nat.Defs
import Mathlib.Algebra.Ring.Int.Defs
import Natc.Lib.Decimal

/-!
# The amounts on the command line

`setlimitreal` takes amounts with a unit: `10k`, `1G` or `inf`. `parseNumber` has the number read by
`acpCStrToInt64`, which returns the sign apart from the magnitude, and multiplies it by the unit.
-/

namespace Natc.Allim.SizeArgument

open Lib

/-- `LINE_LENGTH`. -/
def lineLength : Nat := 2048

/-- `ACP_SINT64_MAX`. -/
def sint64Max : Int := 2 ^ 63 - 1

/-- A conversion to `acp_sint64_t`. -/
def toSInt64 (n : Int) : Int := n.bmod (2 ^ 64)

/-- What `acpCStrToInt64` returns: the sign, the magnitude and the text behind the digits. -/
structure Scanned where
  sSign : Int
  magnitude : Nat
  sUnit : Text
deriving DecidableEq

/-- A sign, or none. -/
inductive Signed : Text → Int → Prop
  | none : Signed [] 1
  | plus : Signed ['+'] 1
  | minus : Signed ['-'] (-1)

/-- The text is a number with a sign and digits, behind what `skips` passes over, and a rest. -/
inductive Numeral (skips : Char → Bool) : Text → Int → Text → Text → Prop
  | mk {lead sign digits rest : Text} {sSign : Int} (hlead : ∀ c ∈ lead, skips c = true)
      (hsign : Signed sign sSign) (hdigits : IsDigits digits) :
      Numeral skips (lead ++ (sign ++ (digits ++ rest))) sSign digits rest

/-- The functions of the core library that `parseNumber` calls. A comparison looks at no more than
the given number of characters. -/
structure CStr where
  acpCStrCmp : Text → Text → Nat → Int
  acpCStrLen : Text → Nat → Nat
  acpCStrToInt64 : Text → Nat → Option Scanned
  /-- The white space in front of a number that is passed over. -/
  skips : Char → Bool
  skips_white : ∀ c, skips c = true → c.isWhitespace = true
  cmp_eq_zero : ∀ a b n, acpCStrCmp a b n = 0 ↔ a.take n = b.take n
  len_eq : ∀ s n, acpCStrLen s n = min s.length n
  scanned : ∀ s n r, acpCStrToInt64 s n = some r → r.magnitude < 2 ^ 64 ∧
    ∃ digits, Numeral skips s r.sSign digits r.sUnit ∧ r.magnitude = decimal digits

/-- `parseNumber`; the result is `none` where the program ends with a message. -/
def parseNumber (acp : CStr) (aArg : Text) : Option Int :=
  if acp.acpCStrCmp aArg ['i', 'n', 'f'] 3 = 0 then some sint64Max
  else if acp.acpCStrCmp aArg ['-', 'i', 'n', 'f'] 4 = 0 then some 0
  else
    match acp.acpCStrToInt64 aArg lineLength with
    | none => none
    | some r =>
      let aValue := toSInt64 r.magnitude
      if acp.acpCStrCmp r.sUnit ['k'] 1 = 0 then some (toSInt64 (aValue * 1024))
      else if acp.acpCStrCmp r.sUnit ['m'] 1 = 0 then some (toSInt64 (aValue * (1024 * 1024)))
      else if acp.acpCStrCmp r.sUnit ['g'] 1 = 0 then
        some (toSInt64 (aValue * (1024 * 1024 * 1024)))
      else if acp.acpCStrCmp r.sUnit ['t'] 1 = 0 then
        some (toSInt64 (aValue * (1024 * 1024 * 1024 * 1024)))
      else if acp.acpCStrLen r.sUnit lineLength = 0 then some aValue
      else none

/-- The power of 1024 that a unit stands for. -/
def unitPower : Text → Option Nat
  | [] => some 0
  | ['k'] => some 1
  | ['m'] => some 2
  | ['g'] => some 3
  | ['t'] => some 4
  | _ => none

/-- The value of a text. -/
inductive Denotes (skips : Char → Bool) : Text → Int → Prop
  | inf : Denotes skips ['i', 'n', 'f'] sint64Max
  | number {s digits sUnit : Text} {sSign : Int} {power : Nat}
      (hs : Numeral skips s sSign digits sUnit) (hne : digits ≠ [])
      (hunit : unitPower sUnit = some power) :
      Denotes skips s (sSign * decimal digits * 1024 ^ power)

/-- The argument is rejected, or its value is an amount, and that is the result. -/
def ArgumentRight (acp : CStr) (aArg : Text) : Prop :=
  ∀ v, parseNumber acp aArg = some v → Denotes acp.skips aArg v ∧ 0 ≤ v ∧ v ≤ sint64Max

/-- The power of the unit that a text begins with. -/
def leadingPower : Text → Option Nat
  | [] => some 0
  | 'k' :: _ => some 1
  | 'm' :: _ => some 2
  | 'g' :: _ => some 3
  | 't' :: _ => some 4
  | _ :: _ => none

/-- What the call needs of a number whose unit is known: digits, no sign that counts, nothing behind
the unit, and an amount that fits. -/
structure Proper (aArg : Text) (r : Scanned) (power : Nat) : Prop where
  digit : ∃ c ∈ aArg, c.isDigit = true
  positive : r.sSign = 1 ∨ r.magnitude = 0
  unit : r.sUnit.length ≤ 1
  fits : r.magnitude * 1024 ^ power < 2 ^ 63

/-- What the call needs of its argument. -/
def Accepted (acp : CStr) (aArg : Text) : Prop :=
  if ['i', 'n', 'f'] <+: aArg then aArg = ['i', 'n', 'f']
  else ¬['-', 'i', 'n', 'f'] <+: aArg ∧
    ∀ r power, acp.acpCStrToInt64 aArg lineLength = some r → leadingPower r.sUnit = some power →
      Proper aArg r power

/-! ## Texts with one reading -/

section Reading

variable {skips : Char → Bool} {s digits rest : Text} {sSign : Int}

theorem ne_of_isWhitespace {c : Char} (h : c.isWhitespace = true) :
    c ≠ '+' ∧ c ≠ '-' ∧ c.isDigit = false ∧ c ≠ 'k' ∧ c ≠ 'm' ∧ c ≠ 'g' ∧ c ≠ 't' := by
  have hor : (decide (c = ' ') || decide (c = '\t') || decide (c = '\r') ||
      decide (c = '\n')) = true := h
  simp only [Bool.or_eq_true, decide_eq_true_eq] at hor
  rcases hor with ((rfl | rfl) | rfl) | rfl <;> decide

/-- The sign at the front of a text, and the text behind it. -/
def signOf : Text → Int × Text
  | '+' :: t => (1, t)
  | '-' :: t => (-1, t)
  | t => (1, t)

theorem signOf_signed {sign : Text} (h : Signed sign sSign)
    (hrest : ∀ c ∈ rest.head?, c ≠ '+' ∧ c ≠ '-') : signOf (sign ++ rest) = (sSign, rest) := by
  cases h with
  | plus => rfl
  | minus => rfl
  | none =>
    rw [List.nil_append]
    unfold signOf
    split
    · exact absurd rfl (hrest '+' rfl).1
    · exact absurd rfl (hrest '-' rfl).2
    · rfl

/-- A rest that can stand behind the digits of an amount. -/
def IsUnit (rest : Text) : Prop := ∀ c ∈ rest.head?, c = 'k' ∨ c = 'm' ∨ c = 'g' ∨ c = 't'

theorem isUnit_of_leadingPower {power : Nat} (h : leadingPower rest = some power) :
    IsUnit rest := by
  intro c hc
  cases rest with
  | nil => cases hc
  | cons d rest =>
    cases hc
    unfold leadingPower at h
    split at h <;> simp_all

theorem head_digits (hdigits : IsDigits digits) (hunit : IsUnit rest) {c : Char}
    (hc : c ∈ (digits ++ rest).head?) : c.isWhitespace = false ∧ c ≠ '+' ∧ c ≠ '-' := by
  cases digits with
  | nil => rcases hunit c hc with rfl | rfl | rfl | rfl <;> decide
  | cons d digits =>
    cases hc
    have hd : c.isDigit = true := hdigits c List.mem_cons_self
    refine ⟨?_, ?_, ?_⟩
    · cases hwhite : c.isWhitespace with
      | false => rfl
      | true => exact absurd hd (by rw [(ne_of_isWhitespace hwhite).2.2.1]; decide)
    · rintro rfl
      exact absurd hd (by decide)
    · rintro rfl
      exact absurd hd (by decide)

theorem takeWhile_digits (hdigits : IsDigits digits) (hunit : IsUnit rest) :
    (digits ++ rest).takeWhile Char.isDigit = digits := by
  rw [List.takeWhile_append_of_pos hdigits]
  cases rest with
  | nil => rw [List.takeWhile_nil, List.append_nil]
  | cons c rest =>
    have hc : ¬ c.isDigit = true := by
      rcases hunit c rfl with rfl | rfl | rfl | rfl <;> decide
    rw [List.takeWhile_cons_of_neg hc, List.append_nil]

/-- What is read of a number in front of a unit. -/
theorem read_numeral (hskips : ∀ c, skips c = true → c.isWhitespace = true)
    (h : Numeral skips s sSign digits rest) (hunit : IsUnit rest) :
    signOf (s.dropWhile skips) = (sSign, digits ++ rest) := by
  obtain ⟨hlead, hsign, hdigits⟩ := h
  rename_i lead sign
  have hhead := fun c hc => @head_digits digits rest hdigits hunit c hc
  have hfront : ∀ c ∈ (sign ++ (digits ++ rest)).head?, skips c = false := by
    intro c hc
    cases hskip : skips c with
    | false => rfl
    | true =>
      have hwhite := hskips c hskip
      cases hsign with
      | none => exact absurd hwhite (by rw [(hhead c hc).1]; decide)
      | plus => cases hc; exact absurd hwhite (by decide)
      | minus => cases hc; exact absurd hwhite (by decide)
  rw [List.dropWhile_append_of_pos hlead]
  have hdrop : (sign ++ (digits ++ rest)).dropWhile skips = sign ++ (digits ++ rest) := by
    generalize sign ++ (digits ++ rest) = text at hfront ⊢
    cases text with
    | nil => rfl
    | cons c text => rw [List.dropWhile_cons_of_neg (by rw [hfront c rfl]; decide)]
  rw [hdrop]
  exact signOf_signed hsign fun c hc => (hhead c hc).2

theorem isDigits_of_numeral (h : Numeral skips s sSign digits rest) : IsDigits digits := by
  cases h
  assumption

/-- A text is a number with a unit in one way. -/
theorem numeral_unique (hskips : ∀ c, skips c = true → c.isWhitespace = true)
    {sSign' : Int} {digits' rest' : Text} (h : Numeral skips s sSign digits rest)
    (hunit : IsUnit rest) (h' : Numeral skips s sSign' digits' rest') (hunit' : IsUnit rest') :
    sSign = sSign' ∧ digits = digits' ∧ rest = rest' := by
  have hread := (read_numeral hskips h hunit).symm.trans (read_numeral hskips h' hunit')
  obtain ⟨hsign, htext⟩ := Prod.mk.inj hread
  have hdigits : digits = digits' := by
    rw [← takeWhile_digits (isDigits_of_numeral h) hunit, htext,
      takeWhile_digits (isDigits_of_numeral h') hunit']
  subst hdigits
  exact ⟨hsign, rfl, List.append_cancel_left htext⟩

end Reading

/-! ## The call -/

section Call

variable {acp : CStr} {aArg : Text}

theorem toSInt64_of_lt {n : Nat} (h : n < 2 ^ 63) : toSInt64 n = n := by
  unfold toSInt64
  rw [Int.bmod_eq_of_le] <;> omega

theorem toSInt64_le (n : Int) : toSInt64 n ≤ sint64Max := by
  have hlt := @Int.bmod_lt n (2 ^ 64) (by decide)
  unfold toSInt64 sint64Max
  omega

theorem begins_inf : acp.acpCStrCmp aArg ['i', 'n', 'f'] 3 = 0 ↔ ['i', 'n', 'f'] <+: aArg := by
  rw [acp.cmp_eq_zero, List.prefix_iff_eq_take]
  exact eq_comm

theorem begins_minusInf :
    acp.acpCStrCmp aArg ['-', 'i', 'n', 'f'] 4 = 0 ↔ ['-', 'i', 'n', 'f'] <+: aArg := by
  rw [acp.cmp_eq_zero, List.prefix_iff_eq_take]
  exact eq_comm

/-- The units are told by one character. -/
theorem parseNumber_eq (hinf : ¬['i', 'n', 'f'] <+: aArg) (hneg : ¬['-', 'i', 'n', 'f'] <+: aArg) :
    parseNumber acp aArg = (acp.acpCStrToInt64 aArg lineLength).bind fun r =>
      (leadingPower r.sUnit).map fun power => toSInt64 (toSInt64 r.magnitude * 1024 ^ power) := by
  unfold parseNumber
  rw [if_neg (begins_inf.not.mpr hinf), if_neg (begins_minusInf.not.mpr hneg)]
  cases acp.acpCStrToInt64 aArg lineLength with
  | none => rfl
  | some r =>
    simp only [acp.cmp_eq_zero, acp.len_eq, Option.bind_some]
    cases hunit : r.sUnit with
    | nil =>
      have hsame : toSInt64 (toSInt64 r.magnitude) = toSInt64 r.magnitude := Int.bmod_bmod
      simp [leadingPower, hsame]
    | cons c rest =>
      have hlength : min (c :: rest).length lineLength ≠ 0 := by
        simp [lineLength]
      simp only [List.take_succ_cons, List.take_zero, List.cons.injEq, and_true]
      by_cases hk : c = 'k'
      · subst hk
        rfl
      by_cases hm : c = 'm'
      · subst hm
        rfl
      by_cases hg : c = 'g'
      · subst hg
        rfl
      by_cases ht : c = 't'
      · subst ht
        rfl
      rw [if_neg hk, if_neg hm, if_neg hg, if_neg ht, if_neg hlength]
      have hnone : leadingPower (c :: rest) = none := by
        unfold leadingPower
        split <;> simp_all
      rw [hnone]
      rfl

theorem leadingPower_of_unitPower {sUnit : Text} {power : Nat} (h : unitPower sUnit = some power) :
    leadingPower sUnit = some power ∧ sUnit.length ≤ 1 := by
  unfold unitPower at h
  split at h <;> cases h <;> exact ⟨rfl, by decide⟩

theorem unitPower_of_leadingPower {sUnit : Text} {power : Nat}
    (h : leadingPower sUnit = some power) (hlength : sUnit.length ≤ 1) :
    unitPower sUnit = some power := by
  unfold leadingPower at h
  split at h <;> cases h
  · rfl
  all_goals
    rename_i rest
    have hle : rest.length ≤ 0 := Nat.le_of_succ_le_succ hlength
    obtain rfl : rest = [] := List.length_eq_zero_iff.mp (Nat.le_zero.mp hle)
    rfl

theorem sign_cases {s digits rest : Text} {sSign : Int} {skips : Char → Bool}
    (h : Numeral skips s sSign digits rest) : sSign = 1 ∨ sSign = -1 := by
  obtain ⟨-, hsign, -⟩ := h
  cases hsign with
  | none => exact .inl rfl
  | plus => exact .inl rfl
  | minus => exact .inr rfl

theorem digit_mem {s digits rest : Text} {sSign : Int} {skips : Char → Bool}
    (h : Numeral skips s sSign digits rest) (hne : digits ≠ []) :
    ∃ c ∈ s, c.isDigit = true := by
  obtain ⟨-, -, hdigits⟩ := h
  obtain ⟨c, digits, rfl⟩ := List.exists_cons_of_ne_nil hne
  exact ⟨c, by simp, hdigits c List.mem_cons_self⟩

/-- Neither white space nor a sign nor a unit has a digit. -/
theorem digits_ne_nil {s digits rest : Text} {sSign : Int} {skips : Char → Bool}
    (hskips : ∀ c, skips c = true → c.isWhitespace = true)
    (h : Numeral skips s sSign digits rest) {power : Nat} (hunit : unitPower rest = some power)
    (hdigit : ∃ c ∈ s, c.isDigit = true) : digits ≠ [] := by
  rintro rfl
  obtain ⟨c, hc, hd⟩ := hdigit
  obtain ⟨hlead, hsign, -⟩ := h
  rw [List.nil_append, List.mem_append, List.mem_append] at hc
  rcases hc with hc | hc | hc
  · have hfree := (ne_of_isWhitespace (hskips c (hlead c hc))).2.2.1
    rw [hfree] at hd
    cases hd
  · cases hsign with
    | none => cases hc
    | plus => rw [List.mem_singleton.mp hc] at hd; cases hd
    | minus => rw [List.mem_singleton.mp hc] at hd; cases hd
  · unfold unitPower at hunit
    split at hunit <;> cases hunit
    · cases hc
    all_goals
      rw [List.mem_singleton.mp hc] at hd
      cases hd

/-- Behind white space and the sign, a number begins with a digit. -/
theorem digit_of_numeral {s digits sUnit : Text} {sSign : Int} {power : Nat}
    (hs : Numeral acp.skips s sSign digits sUnit) (hne : digits ≠ [])
    (hunit : unitPower sUnit = some power) :
    ∀ c ∈ (signOf (s.dropWhile acp.skips)).2.head?, c.isDigit = true := by
  have hread := read_numeral acp.skips_white hs
    (isUnit_of_leadingPower (leadingPower_of_unitPower hunit).1)
  rw [hread]
  obtain ⟨d, digits, rfl⟩ := List.exists_cons_of_ne_nil hne
  intro c hc
  cases hc
  exact isDigits_of_numeral hs _ List.mem_cons_self

theorem dropWhile_skips {c : Char} {s : Text} (hwhite : c.isWhitespace = false) :
    (c :: s).dropWhile acp.skips = c :: s := by
  refine List.dropWhile_cons_of_neg fun hskip => ?_
  have htrue := acp.skips_white c hskip
  rw [hwhite] at htrue
  cases htrue

/-- A text that begins with `inf` is no number. -/
theorem eq_inf_of_denotes {v : Int} (hinf : ['i', 'n', 'f'] <+: aArg)
    (h : Denotes acp.skips aArg v) : aArg = ['i', 'n', 'f'] := by
  cases h with
  | inf => rfl
  | number hs hne hunit =>
    obtain ⟨rest, rfl⟩ := hinf
    have hdigit := digit_of_numeral hs hne hunit
    rw [List.cons_append, dropWhile_skips (by decide)] at hdigit
    exact absurd (hdigit 'i' rfl) (by decide)

/-- A text that begins with `-inf` denotes nothing. -/
theorem not_denotes {v : Int} (hneg : ['-', 'i', 'n', 'f'] <+: aArg) :
    ¬ Denotes acp.skips aArg v := by
  intro h
  obtain ⟨rest, rfl⟩ := hneg
  cases h with
  | number hs hne hunit =>
    have hdigit := digit_of_numeral hs hne hunit
    rw [List.cons_append, dropWhile_skips (by decide)] at hdigit
    exact absurd (hdigit 'i' rfl) (by decide)

theorem parseNumber_minusInf (hneg : ['-', 'i', 'n', 'f'] <+: aArg) :
    parseNumber acp aArg = some 0 := by
  have hinf : ¬['i', 'n', 'f'] <+: aArg := by
    obtain ⟨rest, rfl⟩ := hneg
    rintro ⟨rest', h⟩
    cases h
  unfold parseNumber
  rw [if_neg (begins_inf.not.mpr hinf), if_pos (begins_minusInf.mpr hneg)]

/-- The result is right when the number that was read denotes it. -/
theorem proper_of_right {r : Scanned} {power : Nat} (h : ArgumentRight acp aArg)
    (hinf : ¬['i', 'n', 'f'] <+: aArg) (hneg : ¬['-', 'i', 'n', 'f'] <+: aArg)
    (hscan : acp.acpCStrToInt64 aArg lineLength = some r)
    (hpower : leadingPower r.sUnit = some power) : Proper aArg r power := by
  have hparse := @parseNumber_eq acp aArg hinf hneg
  rw [hscan, Option.bind_some, hpower, Option.map_some] at hparse
  obtain ⟨hdenotes, hnonneg, hle⟩ := h _ hparse
  obtain ⟨hmagnitude, digits, hnumeral, hdecimal⟩ := acp.scanned _ _ _ hscan
  generalize toSInt64 (toSInt64 r.magnitude * 1024 ^ power) = v at hdenotes hnonneg hle
  cases hdenotes with
  | inf => exact absurd (List.prefix_refl _) hinf
  | @number _ digits' sUnit' sSign' power' hs hne hunit =>
    obtain ⟨hleading, hlength⟩ := leadingPower_of_unitPower hunit
    obtain ⟨rfl, rfl, rfl⟩ := numeral_unique acp.skips_white hs (isUnit_of_leadingPower hleading)
      hnumeral (isUnit_of_leadingPower hpower)
    obtain rfl : power = power' := Option.some.inj (hpower.symm.trans hleading)
    rw [← hdecimal] at hnonneg hle
    have hpos : (0 : Int) < 1024 ^ power := Int.pow_pos (by decide)
    have hsign : r.sSign = 1 ∨ r.magnitude = 0 := by
      rcases sign_cases hs with h | h
      · exact .inl h
      · refine .inr ?_
        rw [h] at hnonneg
        rcases Nat.eq_zero_or_pos r.magnitude with hzero | hmpos
        · exact hzero
        · have : (0 : Int) < r.magnitude * 1024 ^ power :=
            Int.mul_pos (Int.natCast_pos.mpr hmpos) hpos
          rw [neg_one_mul, neg_mul] at hnonneg
          omega
    refine ⟨digit_mem hs hne, hsign, hlength, ?_⟩
    rcases hsign with h | h
    · rw [h, one_mul] at hle
      have hcast : ((r.magnitude * 1024 ^ power : Nat) : Int) ≤ sint64Max := by
        rw [Int.natCast_mul, Int.natCast_pow]
        exact hle
      unfold sint64Max at hcast
      omega
    · rw [h, zero_mul]
      decide

theorem accepted_of_right (h : ArgumentRight acp aArg) : Accepted acp aArg := by
  unfold Accepted
  by_cases hinf : ['i', 'n', 'f'] <+: aArg
  · rw [if_pos hinf]
    have hparse : parseNumber acp aArg = some sint64Max := if_pos (begins_inf.mpr hinf)
    obtain ⟨hdenotes, -⟩ := h _ hparse
    exact eq_inf_of_denotes hinf hdenotes
  · rw [if_neg hinf]
    have hneg : ¬['-', 'i', 'n', 'f'] <+: aArg := fun hneg =>
      not_denotes hneg (h _ (parseNumber_minusInf hneg)).1
    exact ⟨hneg, fun r power hscan hpower => proper_of_right h hinf hneg hscan hpower⟩

/-- What the call yields of a proper number. -/
theorem value_of_proper {r : Scanned} {power : Nat} (h : Proper aArg r power) :
    toSInt64 (toSInt64 r.magnitude * 1024 ^ power) = r.sSign * r.magnitude * 1024 ^ power := by
  have hone : 1 ≤ 1024 ^ power := Nat.one_le_pow _ _ (by decide)
  have hfits := h.fits
  have hmagnitude : r.magnitude < 2 ^ 63 :=
    Nat.lt_of_le_of_lt (Nat.le_mul_of_pos_right _ hone) hfits
  rw [toSInt64_of_lt hmagnitude]
  have hcast : (r.magnitude : Int) * 1024 ^ power = ((r.magnitude * 1024 ^ power : Nat) : Int) := by
    rw [Int.natCast_mul, Int.natCast_pow]
    rfl
  rw [hcast, toSInt64_of_lt hfits, ← hcast]
  rcases h.positive with h | h
  · rw [h, one_mul]
  · rw [h, Int.natCast_zero, mul_zero, zero_mul]

theorem right_of_accepted (h : Accepted acp aArg) : ArgumentRight acp aArg := by
  intro v hparse
  unfold Accepted at h
  by_cases hinf : ['i', 'n', 'f'] <+: aArg
  · rw [if_pos hinf] at h
    have hmax : parseNumber acp aArg = some sint64Max := if_pos (begins_inf.mpr hinf)
    obtain rfl : sint64Max = v := Option.some.inj (hmax.symm.trans hparse)
    subst h
    exact ⟨.inf, by decide, Int.le_refl _⟩
  · rw [if_neg hinf] at h
    obtain ⟨hneg, hproper⟩ := h
    rw [parseNumber_eq hinf hneg, Option.bind_eq_some_iff] at hparse
    obtain ⟨r, hscan, hparse⟩ := hparse
    obtain ⟨power, hpower, rfl⟩ := Option.map_eq_some_iff.mp hparse
    have h := hproper r power hscan hpower
    obtain ⟨-, digits, hnumeral, hdecimal⟩ := acp.scanned _ _ _ hscan
    have hunit := unitPower_of_leadingPower hpower h.unit
    have hne := digits_ne_nil acp.skips_white hnumeral hunit h.digit
    refine ⟨?_, ?_, toSInt64_le _⟩
    · rw [value_of_proper h, hdecimal]
      exact .number hnumeral hne hunit
    · rw [value_of_proper h]
      rcases h.positive with h | h
      · rw [h, one_mul]
        exact Int.mul_nonneg (Int.natCast_nonneg _) (Int.pow_nonneg (by decide))
      · rw [h, Int.natCast_zero, mul_zero, zero_mul]

/-- The result is the amount that the argument denotes for exactly the arguments that are `inf`, or
do not begin with it and are rejected or a number without a sign that counts, with at most the one
letter behind it, of an amount that fits. -/
theorem argumentRight_iff (acp : CStr) (aArg : Text) : ArgumentRight acp aArg ↔ Accepted acp aArg :=
  ⟨accepted_of_right, right_of_accepted⟩

end Call

/-! ## A core library -/

theorem signOf_append (s : Text) : ∃ sign, Signed sign (signOf s).1 ∧ s = sign ++ (signOf s).2 := by
  unfold signOf
  split
  · exact ⟨['+'], .plus, rfl⟩
  · exact ⟨['-'], .minus, rfl⟩
  · exact ⟨[], .none, rfl⟩

/-- The number at the front of a text; there is none without a digit, nor above 64 bits. -/
def scanNumber (s : Text) : Option Scanned :=
  let digits := (signOf s).2.takeWhile Char.isDigit
  if digits = [] ∨ 2 ^ 64 ≤ decimal digits then none
  else some ⟨(signOf s).1, decimal digits, (signOf s).2.dropWhile Char.isDigit⟩

theorem scanNumber_scanned {s : Text} {r : Scanned} (h : scanNumber s = some r) :
    r.magnitude < 2 ^ 64 ∧
      ∃ digits, Numeral (fun _ => false) s r.sSign digits r.sUnit ∧
        r.magnitude = decimal digits := by
  obtain ⟨sign, hsign, hs⟩ := signOf_append s
  unfold scanNumber at h
  simp only at h
  split at h
  · cases h
  · rename_i hne
    cases h
    rw [not_or, not_le] at hne
    have hdigits : IsDigits ((signOf s).2.takeWhile Char.isDigit) :=
      fun c hc => List.mem_takeWhile_imp hc
    refine ⟨hne.2, (signOf s).2.takeWhile Char.isDigit, ?_, rfl⟩
    have hnumeral := @Numeral.mk (fun _ => false) [] sign _ ((signOf s).2.dropWhile Char.isDigit) _
      (fun _ hc => by cases hc) hsign hdigits
    rwa [List.takeWhile_append_dropWhile, ← hs] at hnumeral

/-- The functions on texts of less than `LINE_LENGTH`, with no white space in front of a number. -/
def plainCStr : CStr where
  acpCStrCmp a b n := if a.take n = b.take n then 0 else 1
  acpCStrLen s n := min s.length n
  acpCStrToInt64 s _ := scanNumber s
  skips _ := false
  skips_white _ h := by cases h
  cmp_eq_zero a b n := by
    split
    · exact iff_of_true rfl ‹_›
    · exact iff_of_false (by decide) ‹_›
  len_eq _ _ := rfl
  scanned _ _ _ h := scanNumber_scanned h

example : parseNumber plainCStr ['1', '0', 'k'] = some 10240 := by decide +kernel

example : parseNumber plainCStr ['8', '3', '8', '8', '6', '0', '8', 't'] = some (-2 ^ 63) := by
  decide +kernel

/-- `-5` is taken as 5. -/
theorem not_argumentRight_minus : ¬ ∀ acp aArg, ArgumentRight acp aArg := by
  intro h
  have haccepted := accepted_of_right (h plainCStr ['-', '5'])
  unfold Accepted at haccepted
  rw [if_neg (by decide)] at haccepted
  have hscan : plainCStr.acpCStrToInt64 ['-', '5'] lineLength = some ⟨-1, 5, []⟩ := by
    decide +kernel
  have hproper := haccepted.2 _ 0 hscan rfl
  exact absurd hproper.positive (by decide)

end Natc.Allim.SizeArgument
