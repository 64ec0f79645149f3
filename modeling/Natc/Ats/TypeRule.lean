import Mathlib.Algebra.Group.Nat.Defs
import Mathlib.Algebra.Order.Group.Int
import Mathlib.Data.Nat.Notation

/-!
# The types of host variables

`type_rule` has an alternative for each type and for each way to write its precision and scale.
Every alternative has its own copy of the same action.
-/

namespace Natc.Ats.TypeRule

abbrev Text := List Char

/-- `T_INTEGER`. -/
structure Literal where
  negative : Bool
  digits : Text
  digits_ne : digits ≠ []
  isDigit : ∀ c ∈ digits, c.isDigit = true

def Literal.text (s : Literal) : Text := if s.negative then '-' :: s.digits else s.digits

def Literal.value (s : Literal) : Int :=
  if s.negative then -(Nat.ofDigitChars 10 s.digits 0 : Int) else Nat.ofDigitChars 10 s.digits 0

/-- `strtol` where a `long` has 64 bits. -/
def strtol (text : Text) : Int :=
  let n : Int :=
    if text.head? = some '-' then -(Nat.ofDigitChars 10 text.tail 0 : Int)
    else Nat.ofDigitChars 10 text 0
  max (-2 ^ 63) (min (2 ^ 63 - 1) n)

def atoi (text : Text) : Int := (strtol text).bmod (2 ^ 32)

/-- `iSQLVarType`. -/
inductive VarType where
  | bad | bigint | blobLocator | char | clobLocator | date | decimal | double | float | byte | nibble
  | integer | number | numeric | real | smallint | varchar | geometry | nchar | nvarchar
  deriving DecidableEq, Repr

/-- The first token of an alternative. -/
inductive TypeToken where
  | bigint | hssBlob | blob | char | nchar | date | decimal | double | float | hssByte | hssNibble
  | byte | nibble | integer | identifier | number | numeric | real | smallint | varchar | nvarchar
  deriving DecidableEq, Repr

/-- The tokens behind it. -/
inductive Shape where
  | alone | sized | scaled | plus | minus
  deriving DecidableEq, Repr

/-- What differs from alternative to alternative: the type, the precision (`atoi(sData2)` as `none`)
and what stands in the scale in front of `sData3` (no scale as `none`). -/
structure Action where
  type : VarType
  precision : Option Int
  scale : Option Text
  deriving DecidableEq

/-- The alternatives of `type_rule`. -/
def typeRule : TypeToken → Shape → Option Action
  | .bigint, .alone => some ⟨.bigint, some (-1), none⟩
  | .hssBlob, .alone => some ⟨.bad, some 1, none⟩
  | .hssBlob, .sized => some ⟨.bad, none, none⟩
  | .blob, .alone => some ⟨.bad, some 1, none⟩
  | .blob, .sized => some ⟨.bad, none, none⟩
  | .char, .alone => some ⟨.char, some 1, none⟩
  | .char, .sized => some ⟨.char, none, none⟩
  | .nchar, .alone => some ⟨.nchar, some 1, none⟩
  | .nchar, .sized => some ⟨.nchar, none, none⟩
  | .date, .alone => some ⟨.date, some (-1), none⟩
  | .decimal, .alone => some ⟨.decimal, some (-1), none⟩
  | .decimal, .sized => some ⟨.decimal, none, none⟩
  | .decimal, .scaled => some ⟨.decimal, none, some []⟩
  | .decimal, .plus => some ⟨.decimal, none, some ['+']⟩
  | .decimal, .minus => some ⟨.decimal, none, some ['-']⟩
  | .double, .alone => some ⟨.double, some (-1), none⟩
  | .float, .alone => some ⟨.float, some (-1), none⟩
  | .float, .sized => some ⟨.float, none, none⟩
  | .hssByte, .alone => some ⟨.bad, some 1, none⟩
  | .hssByte, .sized => some ⟨.bad, none, none⟩
  | .hssNibble, .alone => some ⟨.bad, some 1, none⟩
  | .hssNibble, .sized => some ⟨.bad, none, none⟩
  | .byte, .alone => some ⟨.byte, some 1, none⟩
  | .byte, .sized => some ⟨.byte, none, none⟩
  | .nibble, .alone => some ⟨.nibble, some 1, none⟩
  | .nibble, .sized => some ⟨.nibble, none, none⟩
  | .integer, .alone => some ⟨.integer, some (-1), none⟩
  | .identifier, .alone => some ⟨.bad, some (-1), none⟩
  | .number, .alone => some ⟨.number, some (-1), none⟩
  | .number, .sized => some ⟨.number, none, none⟩
  | .number, .scaled => some ⟨.number, none, some []⟩
  | .number, .plus => some ⟨.number, none, some ['+']⟩
  | .number, .minus => some ⟨.number, none, some ['-']⟩
  | .numeric, .alone => some ⟨.numeric, some (-1), none⟩
  | .numeric, .sized => some ⟨.decimal, none, none⟩
  | .numeric, .scaled => some ⟨.numeric, none, some []⟩
  | .numeric, .plus => some ⟨.decimal, none, some ['+']⟩
  | .numeric, .minus => some ⟨.numeric, none, some ['+']⟩
  | .real, .alone => some ⟨.real, some (-1), none⟩
  | .smallint, .alone => some ⟨.smallint, some (-1), none⟩
  | .varchar, .alone => some ⟨.varchar, some 1, none⟩
  | .varchar, .sized => some ⟨.varchar, none, none⟩
  | .nvarchar, .alone => some ⟨.nvarchar, some 1, none⟩
  | .nvarchar, .sized => some ⟨.nvarchar, none, none⟩
  | _, _ => none

/-! ## Declarations -/

/-- The precision and the scale as they are written. -/
inductive Form where
  | alone
  | sized (p : Literal)
  | scaled (p s : Literal)
  | plus (p s : Literal)
  | minus (p s : Literal)

namespace Form

def shape : Form → Shape
  | alone => .alone
  | sized _ => .sized
  | scaled _ _ => .scaled
  | plus _ _ => .plus
  | minus _ _ => .minus

/-- The text of the precision token, as far as there is one. -/
def sData2 : Form → Text
  | alone => []
  | sized p | scaled p _ | plus p _ | minus p _ => p.text

/-- The text of the scale token. -/
def sData3 : Form → Text
  | alone | sized _ => []
  | scaled _ s | plus _ s | minus _ s => s.text

/-- What `sprintf` writes behind the type. -/
def suffix : Form → Text
  | alone => []
  | sized p => '(' :: p.text ++ [')']
  | scaled p s => '(' :: p.text ++ ", ".toList ++ s.text ++ [')']
  | plus p s => '(' :: p.text ++ ", +".toList ++ s.text ++ [')']
  | minus p s => '(' :: p.text ++ ", -".toList ++ s.text ++ [')']

end Form

/-- A declaration that an alternative of the rule accepts. -/
structure Decl where
  type : TypeToken
  sData1 : Text
  form : Form
  accepted : (typeRule type form.shape).isSome

def VAR_SIZE : Nat := 1024

/-- The size of `data` and of `scale`. -/
def dataSize : Nat := 1024

def scaleSize : Nat := 128

/-- A text with its NUL in an array; `none` if it does not fit. -/
def store (size : Nat) (text : Text) : Option Text := if text.length < size then some text else none

/-- What an action leaves behind. -/
structure Pslx where
  type : VarType
  precision : Int
  scale : Text
  data : Text

/-- The action of an alternative. -/
def Action.run (a : Action) (sData1 : Text) (form : Form) : Option Pslx := do
  let sData1 ← store VAR_SIZE sData1
  let sData2 ← store VAR_SIZE form.sData2
  let sData3 ← store VAR_SIZE form.sData3
  let scale ← store scaleSize (a.scale.elim [] fun s => s ++ sData3)
  let data ← store dataSize (sData1 ++ form.suffix)
  pure ⟨a.type, a.precision.getD (atoi sData2), scale, data⟩

def Decl.record (d : Decl) : Option Pslx :=
  ((typeRule d.type d.form.shape).get d.accepted).run d.sData1 d.form

/-! ## What a declaration states -/

/-- The host type of a name; there is none for some of them. -/
def TypeToken.host : TypeToken → VarType
  | .bigint => .bigint
  | .char => .char
  | .nchar => .nchar
  | .date => .date
  | .decimal => .decimal
  | .double => .double
  | .float => .float
  | .byte => .byte
  | .nibble => .nibble
  | .integer => .integer
  | .number => .number
  | .numeric => .numeric
  | .real => .real
  | .smallint => .smallint
  | .varchar => .varchar
  | .nvarchar => .nvarchar
  | .hssBlob | .blob | .hssByte | .hssNibble | .identifier => .bad

/-- Without a precision, strings have the length 1 and other types have none. -/
def TypeToken.defaultPrecision : TypeToken → Int
  | .hssBlob | .blob | .char | .nchar | .hssByte | .hssNibble | .byte | .nibble | .varchar
  | .nvarchar => 1
  | _ => -1

namespace Decl

variable (d : Decl)

def statedPrecision : Int :=
  match d.form with
  | .alone => d.type.defaultPrecision
  | .sized p | .scaled p _ | .plus p _ | .minus p _ => p.value

/-- The scale with its sign. -/
def statedScale : Text :=
  match d.form with
  | .alone | .sized _ => []
  | .scaled _ s => s.text
  | .plus _ s => '+' :: s.text
  | .minus _ s => '-' :: s.text

/-- The rule records what the declaration states. -/
def Recorded : Prop :=
  ∃ out, d.record = some out ∧ out.type = d.type.host ∧ out.precision = d.statedPrecision ∧
    out.scale = d.statedScale

/-- The declaration fits the arrays of the parser, and the precision is an `int`. -/
structure Fits : Prop where
  data : (d.sData1 ++ d.form.suffix).length < dataSize
  scale : d.statedScale.length < scaleSize
  precision : -2 ^ 31 ≤ d.statedPrecision ∧ d.statedPrecision < 2 ^ 31

end Decl

/-- The alternatives of `NUMERIC` that record another type or another sign. -/
def Slip (type : TypeToken) (shape : Shape) : Prop :=
  type = .numeric ∧ (shape = .sized ∨ shape = .plus ∨ shape = .minus)

/-! ## The precision -/

theorem strtol_text (s : Literal) : strtol s.text = max (-2 ^ 63) (min (2 ^ 63 - 1) s.value) := by
  unfold strtol Literal.text Literal.value
  cases s.negative with
  | true => rfl
  | false =>
    have hhead : s.digits.head? ≠ some '-' := by
      intro h
      exact absurd (s.isDigit '-' (List.mem_of_mem_head? h)) (by decide)
    simp [hhead]

/-- `atoi` is right for an `int`, and for nothing else. -/
theorem atoi_eq_iff (s : Literal) :
    atoi s.text = s.value ↔ -2 ^ 31 ≤ s.value ∧ s.value < 2 ^ 31 := by
  unfold atoi
  rw [strtol_text]
  constructor
  · intro h
    have hle := @Int.le_bmod (max (-2 ^ 63) (min (2 ^ 63 - 1) s.value)) (2 ^ 32) (by decide)
    have hlt := @Int.bmod_lt (max (-2 ^ 63) (min (2 ^ 63 - 1) s.value)) (2 ^ 32) (by decide)
    omega
  · intro h
    have hclamp : max (-2 ^ 63) (min (2 ^ 63 - 1) s.value) = s.value := by omega
    rw [hclamp, Int.bmod_eq_of_le] <;> omega

/-! ## The alternatives -/

/-- What is written in front of the scale. -/
def Shape.sign : Shape → Option Text
  | .alone | .sized => none
  | .scaled => some []
  | .plus => some ['+']
  | .minus => some ['-']

/-- The action that records what is stated. -/
def statedAction (type : TypeToken) (shape : Shape) : Action :=
  ⟨type.host, if shape = .alone then some type.defaultPrecision else none, shape.sign⟩

/-- All alternatives but those of `NUMERIC` have the action that they should have. -/
theorem typeRule_stated {type : TypeToken} {shape : Shape} {a : Action}
    (h : typeRule type shape = some a) (hslip : ¬Slip type shape) :
    a = statedAction type shape := by
  have hrow : typeRule type shape = some (statedAction type shape) := by
    revert h hslip
    unfold Slip
    cases type <;> cases shape <;> simp [typeRule, statedAction, TypeToken.host,
      TypeToken.defaultPrecision, Shape.sign]
  exact Option.some.inj (h.symm.trans hrow)

theorem typeRule_slip {type : TypeToken} {shape : Shape} {a : Action}
    (h : typeRule type shape = some a) (hslip : Slip type shape) :
    a.type ≠ type.host ∨ shape = .minus ∧ a.scale = some ['+'] := by
  obtain ⟨rfl, rfl | rfl | rfl⟩ := hslip
  · cases h
    exact Or.inl (by decide)
  · cases h
    exact Or.inl (by decide)
  · cases h
    exact Or.inr ⟨rfl, rfl⟩

section Run

variable {a : Action} {sData1 : Text} {form : Form} {out : Pslx}

theorem store_eq_some {size : Nat} {text t : Text} :
    store size text = some t ↔ text.length < size ∧ text = t := by
  unfold store
  rw [Option.ite_none_right_eq_some, Option.some_inj]

/-- The tokens are shorter than the text that `sprintf` writes. -/
theorem sData_length_le (form : Form) :
    form.sData2.length ≤ form.suffix.length ∧ form.sData3.length ≤ form.suffix.length := by
  cases form <;> simp [Form.sData2, Form.sData3, Form.suffix] <;> omega

theorem run_eq_some : a.run sData1 form = some out ↔
    (sData1 ++ form.suffix).length < dataSize ∧
      (a.scale.elim [] fun s => s ++ form.sData3).length < scaleSize ∧
      out = ⟨a.type, a.precision.getD (atoi form.sData2),
        a.scale.elim [] fun s => s ++ form.sData3, sData1 ++ form.suffix⟩ := by
  unfold Action.run
  simp only [Option.bind_eq_bind, Option.bind_eq_some_iff, store_eq_some, Option.pure_def,
    Option.some_inj]
  constructor
  · rintro ⟨_, ⟨-, rfl⟩, _, ⟨-, rfl⟩, _, ⟨-, rfl⟩, _, ⟨hscale, rfl⟩, _, ⟨hdata, rfl⟩, rfl⟩
    exact ⟨hdata, hscale, rfl⟩
  · rintro ⟨hdata, hscale, rfl⟩
    have hlength := sData_length_le form
    have htotal := hdata
    rw [List.length_append] at htotal
    unfold dataSize at htotal
    unfold VAR_SIZE
    exact ⟨_, ⟨by omega, rfl⟩, _, ⟨by omega, rfl⟩, _, ⟨by omega, rfl⟩, _, ⟨hscale, rfl⟩, _,
      ⟨hdata, rfl⟩, rfl⟩

end Run

namespace Decl

variable (d : Decl)

/-- The scale that the right action writes is the stated one. -/
theorem sign_elim : (d.form.shape.sign.elim [] fun s => s ++ d.form.sData3) = d.statedScale := by
  unfold statedScale
  cases d.form <;> rfl

theorem minus_scale (h : d.form.shape = .minus) : '+' :: d.form.sData3 ≠ d.statedScale := by
  unfold statedScale
  cases hform : d.form with
  | minus p s =>
    intro heq
    exact absurd (List.cons.inj heq).1 (by decide)
  | _ =>
    rw [hform] at h
    cases h

/-- The precision that the right action records. -/
theorem precision_iff :
    ((statedAction d.type d.form.shape).precision.getD (atoi d.form.sData2) = d.statedPrecision ↔
      -2 ^ 31 ≤ d.statedPrecision ∧ d.statedPrecision < 2 ^ 31) := by
  unfold statedPrecision statedAction
  cases d.form with
  | alone =>
    refine iff_of_true rfl ?_
    cases d.type <;> decide
  | sized p => exact atoi_eq_iff p
  | scaled p s => exact atoi_eq_iff p
  | plus p s => exact atoi_eq_iff p
  | minus p s => exact atoi_eq_iff p

/-- A declaration is recorded as it is stated, exactly if it fits and is not one of the
alternatives of `NUMERIC` that slip. -/
theorem recorded_iff : d.Recorded ↔ d.Fits ∧ ¬Slip d.type d.form.shape := by
  have hrule : typeRule d.type d.form.shape =
      some ((typeRule d.type d.form.shape).get d.accepted) := (Option.some_get d.accepted).symm
  unfold Recorded record
  generalize (typeRule d.type d.form.shape).get d.accepted = a at hrule
  simp only [run_eq_some]
  by_cases hslip : Slip d.type d.form.shape
  · apply iff_of_false
    · rintro ⟨out, ⟨-, -, rfl⟩, htype, -, hscale⟩
      cases typeRule_slip hrule hslip with
      | inl hother => exact hother htype
      | inr hsign =>
        rw [hsign.2] at hscale
        exact d.minus_scale hsign.1 hscale
    · exact fun h => h.2 hslip
  · obtain rfl := typeRule_stated hrule hslip
    have hscale : ((statedAction d.type d.form.shape).scale.elim [] fun s => s ++ d.form.sData3) =
        d.statedScale := d.sign_elim
    rw [hscale, and_iff_left hslip]
    constructor
    · rintro ⟨out, ⟨hdata, hroom, rfl⟩, -, hprecision, -⟩
      exact ⟨hdata, hroom, d.precision_iff.mp hprecision⟩
    · intro h
      exact ⟨_, ⟨h.data, h.scale, rfl⟩, rfl, d.precision_iff.mpr h.precision, rfl⟩

end Decl

/-- `NUMERIC(8, - 2)`. -/
def numericMinus : Decl where
  type := .numeric
  sData1 := "NUMERIC".toList
  form := .minus ⟨false, ['8'], by simp, by simp⟩ ⟨false, ['2'], by simp, by simp⟩
  accepted := rfl

/-- The scale is recorded as `+2`. -/
theorem not_recorded_numericMinus : ¬∀ d : Decl, d.Recorded := by
  intro h
  obtain ⟨out, hout, -, -, hscale⟩ := h numericMinus
  have hrecord : numericMinus.record.map Pslx.scale = some ['+', '2'] := by decide
  rw [hout, Option.map_some, hscale] at hrecord
  exact absurd hrecord (by decide)

end Natc.Ats.TypeRule
