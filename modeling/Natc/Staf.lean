import Mathlib.Algebra.Group.Nat.Defs
import Natc.Lib.Text

/-!
# The string class of the automation framework

`STAFString` comes from a library outside the repository. Its operations are a parameter; the
laws are the documented behaviour that the code relies on.
-/

namespace Natc

open Lib

/-- The operations of `STAFString` the modelled code calls. -/
structure Staf where
  upperCase : Text → Text
  strip : Text → Text
  /-- `subWord( i )`: the text from its `i`-th blank-separated word on. -/
  subWord : Text → Nat → Text
  /-- `subWord( i, 1 )`: the `i`-th word alone. -/
  word : Text → Nat → Text
  /-- The index of the first occurrence, `none` for `kNPos`. -/
  find : Text → Text → Option Nat
  replace : Text → Text → Text → Text
  isDigits : Text → Bool
  asUInt : Text → Nat
  /-- What `strip` takes for blank. -/
  white : Char → Bool
  find_isSome : ∀ s w, (find s w).isSome ↔ w <:+: s
  replace_eq : ∀ s w r, w ≠ [] → replace s w r = replaceAll w r s
  strip_eq : ∀ s, strip s = stripWith white s
  white_blank : white ' '
  white_printable : ∀ c, '!' ≤ c → c ≤ '~' → white c = false

/-- `find( w ) != kNPos`. -/
def Staf.contains (staf : Staf) (s w : Text) : Bool := (staf.find s w).isSome

theorem Staf.contains_iff (staf : Staf) (s w : Text) : staf.contains s w ↔ w <:+: s :=
  staf.find_isSome s w

private theorem isWhitespace_of_printable (c : Char) (hlow : '!' ≤ c) :
    c.isWhitespace = false := by
  have hne : ∀ d : Char, d < '!' → c ≠ d := by
    rintro d hd rfl
    exact absurd hlow (Char.not_le.mpr hd)
  simp [Char.isWhitespace, hne ' ' (by decide), hne '\t' (by decide), hne '\r' (by decide),
    hne '\n' (by decide)]

/-- The operations on texts of one-byte characters. -/
def Staf.ascii : Staf where
  upperCase := List.map Char.toUpper
  strip := Lib.strip
  subWord s i := dropWords i s
  word s i := (dropWords i s).takeWhile fun c => !c.isWhitespace
  find s w := indexOf? w s
  replace s w r := replaceAll w r s
  isDigits s := s.all Char.isDigit
  asUInt s := s.foldl (fun n c => 10 * n + (c.toNat - '0'.toNat)) 0 % 2 ^ 32
  white := Char.isWhitespace
  find_isSome s w := isSome_indexOf? w s
  replace_eq _ _ _ _ := rfl
  strip_eq _ := rfl
  white_blank := rfl
  white_printable c hlow _ := isWhitespace_of_printable c hlow

end Natc
