import Mathlib.Algebra.Group.Nat.Defs
import Mathlib.Algebra.Ring.Int.Defs
import Natc.Lib.Machine
import Natc.Lib.Text

/-!
# The positions of the tokens

flex reads a script in pieces. It moves the text that it has not matched yet to the front of its
buffer and calls `LexerInput`, which puts the next piece behind that text. `getPosition` makes the
offset in the script of the address of the token in the buffer.
-/

namespace Natc.Ats.LexerPosition

open Lib

/-- What a `psLexer` is made for: the length is a `UInt`. -/
structure Script where
  text : Text
  length_lt : text.length < 2 ^ 32

/-- The members of `psLexer`. Pointers into `mBuffer` are offsets, those into the buffer of flex are
addresses. -/
structure PsLexer where
  mBuffer : Script
  mBufferCursor : Nat
  mBufferRemain : Nat
  mBufferLast : Int
  mBufferInput : Int

/-- `psNamePosition`. -/
structure NamePosition where
  offset : Int
  size : Int
  deriving DecidableEq, Repr

/-- A conversion to `int`. -/
def toSInt (n : Int) : Int := n.bmod (2 ^ 32)

/-- The constructor leaves the last two members as they are in memory. -/
def psLexer (aBuffer : Script) (mBufferLast mBufferInput : Int) : PsLexer where
  mBuffer := aBuffer
  mBufferCursor := 0
  mBufferRemain := aBuffer.text.length
  mBufferLast := mBufferLast
  mBufferInput := mBufferInput

/-- How many bytes a call of `LexerInput` copies. -/
def PsLexer.count (lx : PsLexer) (aMaximum : Int) : Nat :=
  let smaller := if toSInt lx.mBufferRemain < aMaximum then toSInt lx.mBufferRemain else aMaximum
  (if smaller > 0 then smaller else 0).toNat

/-- `LexerInput`, with the bytes that it copies to `aBuffer`. -/
def PsLexer.lexerInput (lx : PsLexer) (aBuffer aMaximum : Int) : PsLexer × Text :=
  ({ lx with
      mBufferRemain := lx.mBufferRemain - lx.count aMaximum
      mBufferLast := lx.mBufferCursor
      mBufferCursor := lx.mBufferCursor + lx.count aMaximum
      mBufferInput := aBuffer },
    (lx.mBuffer.text.drop lx.mBufferCursor).take (lx.count aMaximum))

/-- `getPosition` for a token of `yyLeng` bytes at the address `yyText`. -/
def PsLexer.getPosition (lx : PsLexer) (yyText yyLeng : Int) : NamePosition :=
  ⟨toSInt (lx.mBufferLast + (yyText - lx.mBufferInput)), yyLeng⟩

/-- The scanner: the address of its buffer, what is in it, and where in it the next token starts.
`matched` is the text of all tokens so far. -/
structure Scanner where
  lexer : PsLexer
  buffer : Int
  chars : Text
  yytext : Nat
  matched : Text

/-- What the scanner does: it fills its buffer, which may be another one then, or it matches. -/
inductive Move where
  | refill (buffer aMaximum : Int)
  | token (size : Nat)

namespace Scanner

/-- The part of the buffer that is not matched yet. -/
def unmatched (s : Scanner) : Text := s.chars.drop s.yytext

/-- The partial token goes to the front, and `LexerInput` is called for what comes behind it. -/
def refill (s : Scanner) (buffer aMaximum : Int) : Scanner :=
  let (lexer, piece) := s.lexer.lexerInput (buffer + s.unmatched.length) aMaximum
  { s with lexer, buffer, chars := s.unmatched ++ piece, yytext := 0 }

def token (s : Scanner) (size : Nat) : Text := s.unmatched.take size

def position (s : Scanner) (size : Nat) : NamePosition :=
  s.lexer.getPosition (s.buffer + s.yytext) size

def step (s : Scanner) : Move → Option Scanner
  | .refill buffer aMaximum => some (s.refill buffer aMaximum)
  | .token size =>
    if 0 < size ∧ size ≤ s.unmatched.length then
      some { s with yytext := s.yytext + size, matched := s.matched ++ s.token size }
    else none

end Scanner

def scanner (aBuffer : Script) (mBufferLast mBufferInput buffer : Int) : Machine Scanner Move where
  start := ⟨psLexer aBuffer mBufferLast mBufferInput, buffer, [], 0, []⟩
  step := Scanner.step

/-- The token stands in the script behind `before`, and the position says so. -/
structure Located (script before token : Text) (position : NamePosition) : Prop where
  stands : before ++ token <+: script
  offset : position.offset = before.length
  size : position.size = token.length

/-! ## The copy -/

section Copy

variable {lx : PsLexer}

theorem toSInt_of_lt {n : Nat} (h : n < 2 ^ 31) : toSInt n = n := by
  unfold toSInt
  rw [Int.bmod_eq_of_le] <;> omega

theorem toSInt_nonpos {n : Nat} (hlt : n < 2 ^ 32) (h : 2 ^ 31 ≤ n) : toSInt n ≤ 0 := by
  unfold toSInt
  rw [Int.bmod_def]
  split <;> omega

theorem count_le (hlt : lx.mBufferRemain < 2 ^ 32) (aMaximum : Int) :
    lx.count aMaximum ≤ lx.mBufferRemain := by
  unfold PsLexer.count
  dsimp only
  rcases Nat.lt_or_ge lx.mBufferRemain (2 ^ 31) with hsmall | hlarge
  · rw [toSInt_of_lt hsmall]
    split <;> split <;> omega
  · have hneg := toSInt_nonpos hlt hlarge
    split <;> split <;> omega

/-- A script that is too long for an `int` is not read at all. -/
theorem count_of_large (hlt : lx.mBufferRemain < 2 ^ 32) (h : 2 ^ 31 ≤ lx.mBufferRemain)
    (aMaximum : Int) : lx.count aMaximum = 0 := by
  have hneg := toSInt_nonpos hlt h
  unfold PsLexer.count
  dsimp only
  split <;> split <;> omega

end Copy

/-! ## Runs -/

section Run

variable {script : Script} {s : Scanner}

/-- What is matched, what waits in the buffer and what is not read yet are the script. As soon as
something is in the buffer, its place follows from the last call of `LexerInput`. -/
structure Reading (script : Script) (s : Scanner) : Prop where
  source : s.lexer.mBuffer = script
  split : s.matched ++ s.unmatched = script.text.take s.lexer.mBufferCursor
  cursor_le : s.lexer.mBufferCursor ≤ script.text.length
  remain : s.lexer.mBufferRemain = script.text.length - s.lexer.mBufferCursor
  small : s.lexer.mBufferCursor ≠ 0 → script.text.length < 2 ^ 31
  place : s.chars ≠ [] →
    s.lexer.mBufferLast + (s.buffer + s.yytext - s.lexer.mBufferInput) = s.matched.length

theorem Reading.length_eq (h : Reading script s) :
    s.matched.length + s.unmatched.length = s.lexer.mBufferCursor := by
  have hlength := congrArg List.length h.split
  rwa [List.length_append, List.length_take, Nat.min_eq_left h.cursor_le] at hlength

theorem reading_start (aBuffer : Script) (mBufferLast mBufferInput buffer : Int) :
    Reading aBuffer (scanner aBuffer mBufferLast mBufferInput buffer).start where
  source := rfl
  split := rfl
  cursor_le := Nat.zero_le _
  remain := rfl
  small h := absurd rfl h
  place h := absurd rfl h

theorem unmatched_refill (s : Scanner) (buffer aMaximum : Int) :
    (s.refill buffer aMaximum).unmatched = s.unmatched ++
      (s.lexer.mBuffer.text.drop s.lexer.mBufferCursor).take (s.lexer.count aMaximum) := rfl

theorem reading_refill (h : Reading script s) (buffer aMaximum : Int) :
    Reading script (s.refill buffer aMaximum) where
  source := h.source
  split := by
    rw [unmatched_refill, ← List.append_assoc, h.source]
    show (s.matched ++ s.unmatched) ++ _ = _
    rw [h.split, ← List.take_add]
    rfl
  cursor_le := by
    have hlt : s.lexer.mBufferRemain < 2 ^ 32 :=
      h.remain ▸ Nat.lt_of_le_of_lt (Nat.sub_le _ _) script.length_lt
    have hcount := count_le hlt aMaximum
    rw [h.remain] at hcount
    show s.lexer.mBufferCursor + s.lexer.count aMaximum ≤ _
    have hcursor := h.cursor_le
    omega
  remain := by
    show s.lexer.mBufferRemain - s.lexer.count aMaximum = _ - (_ + s.lexer.count aMaximum)
    rw [h.remain, Nat.sub_sub]
  small hread := by
    by_cases hcursor : s.lexer.mBufferCursor = 0
    · by_contra hlarge
      have hlength : s.lexer.mBufferRemain = script.text.length := by rw [h.remain, hcursor]; rfl
      have hcount := count_of_large (hlength ▸ script.length_lt)
        (hlength ▸ Nat.not_lt.mp hlarge) aMaximum
      apply hread
      show s.lexer.mBufferCursor + s.lexer.count aMaximum = 0
      rw [hcursor, hcount]
    · exact h.small hcursor
  place _ := by
    have hlength := h.length_eq
    show (s.lexer.mBufferCursor : Int) + (buffer + (0 : Nat) - (buffer + s.unmatched.length)) =
      (s.matched.length : Nat)
    omega

theorem reading_token (h : Reading script s) {size : Nat} (hsize : size ≤ s.unmatched.length) :
    Reading script
      { s with yytext := s.yytext + size, matched := s.matched ++ s.token size } where
  source := h.source
  split := by
    show s.matched ++ s.unmatched.take size ++ s.chars.drop (s.yytext + size) = _
    rw [← List.drop_drop, List.append_assoc]
    show s.matched ++ (s.unmatched.take size ++ s.unmatched.drop size) = _
    rw [List.take_append_drop]
    exact h.split
  cursor_le := h.cursor_le
  remain := h.remain
  small := h.small
  place hne := by
    have hplace := h.place hne
    show s.lexer.mBufferLast + (s.buffer + (s.yytext + size : Nat) - s.lexer.mBufferInput) =
      ((s.matched ++ s.unmatched.take size).length : Nat)
    rw [List.length_append, List.length_take, Nat.min_eq_left hsize]
    omega

theorem reading_of_reachable {mBufferLast mBufferInput buffer : Int}
    (h : (scanner script mBufferLast mBufferInput buffer).Reachable s) : Reading script s := by
  refine h.invariant (reading_start _ _ _ _) fun s l s' hs _ hstep => ?_
  cases l with
  | refill buffer aMaximum =>
    cases hstep
    exact reading_refill hs buffer aMaximum
  | token size =>
    obtain ⟨⟨-, hsize⟩, hnext⟩ := Option.ite_none_right_eq_some.mp hstep
    cases hnext
    exact reading_token hs hsize

theorem step_token {size : Nat} (hpos : 0 < size) (hsize : size ≤ s.unmatched.length) :
    s.step (.token size) =
      some { s with yytext := s.yytext + size, matched := s.matched ++ s.token size } :=
  if_pos ⟨hpos, hsize⟩

variable {mBufferLast mBufferInput start : Int}

theorem reachable_refill (h : (scanner script mBufferLast mBufferInput start).Reachable s)
    (buffer aMaximum : Int) :
    (scanner script mBufferLast mBufferInput start).Reachable (s.refill buffer aMaximum) :=
  @Machine.Reach.next _ _ _ _ _ _ (.refill buffer aMaximum) h trivial rfl

theorem reachable_token (h : (scanner script mBufferLast mBufferInput start).Reachable s)
    {size : Nat} (hpos : 0 < size) (hsize : size ≤ s.unmatched.length) :
    (scanner script mBufferLast mBufferInput start).Reachable
      { s with yytext := s.yytext + size, matched := s.matched ++ s.token size } :=
  @Machine.Reach.next _ _ _ _ _ _ (.token size) h trivial (step_token hpos hsize)

theorem located (h : Reading script s) {size : Nat} (hpos : 0 < size)
    (hsize : size ≤ s.unmatched.length) :
    Located script.text s.matched (s.token size) (s.position size) where
  stands := by
    have hall : s.matched ++ s.unmatched <+: script.text :=
      h.split ▸ List.take_prefix _ _
    have htoken : s.matched ++ s.token size <+: s.matched ++ s.unmatched :=
      (List.prefix_append_right_inj _).mpr (List.take_prefix _ _)
    exact htoken.trans hall
  offset := by
    have hlength := h.length_eq
    have hcursor := h.cursor_le
    have hchars : s.chars ≠ [] := by
      intro hnil
      rw [Scanner.unmatched, hnil, List.drop_nil, List.length_nil] at hsize
      omega
    have hsmall := h.small (by omega)
    show toSInt (s.lexer.mBufferLast + (s.buffer + s.yytext - s.lexer.mBufferInput)) = _
    rw [h.place hchars, toSInt_of_lt (by omega)]
  size := by
    show (size : Int) = ((s.unmatched.take size).length : Nat)
    rw [List.length_take, Nat.min_eq_left hsize]

/-- However flex asks for the pieces of a script, the position of a token is its place in it. -/
theorem position_located {mBufferLast mBufferInput buffer : Int} {size : Nat} {s' : Scanner}
    (h : (scanner script mBufferLast mBufferInput buffer).Reachable s)
    (hstep : s.step (.token size) = some s') :
    Located script.text s.matched (s.token size) (s.position size) := by
  obtain ⟨⟨hpos, hsize⟩, -⟩ := Option.ite_none_right_eq_some.mp hstep
  exact located (reading_of_reachable h) hpos hsize

/-- A token of three bytes that comes in two pieces, into two buffers. -/
theorem position_located_split :
    ∃ s : Scanner, s.position 3 = ⟨1, 3⟩ ∧
      Located [';', 'E', 'N', 'D'] [';'] ['E', 'N', 'D'] (s.position 3) := by
  let script : Script := ⟨[';', 'E', 'N', 'D'], by decide⟩
  have hpiece := reachable_refill (@Machine.Reach.start _ _ (scanner script 7 9 100) _) 100 3
  have hfirst := reachable_token hpiece Nat.zero_lt_one (by decide +kernel)
  have hrest := reachable_refill hfirst 500 8192
  obtain ⟨s, hs, hsize, hmatched, htoken, hposition⟩ : ∃ s : Scanner,
      (scanner script 7 9 100).Reachable s ∧ 3 ≤ s.unmatched.length ∧ s.matched = [';'] ∧
        s.token 3 = ['E', 'N', 'D'] ∧ s.position 3 = ⟨1, 3⟩ :=
    ⟨_, hrest, by decide +kernel, by decide +kernel, by decide +kernel, by decide +kernel⟩
  have hlast := position_located hs (step_token (Nat.zero_lt_succ 2) hsize)
  rw [hmatched, htoken] at hlast
  exact ⟨s, hposition, hlast⟩

end Run

end Natc.Ats.LexerPosition
