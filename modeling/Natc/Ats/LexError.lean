import Mathlib.Algebra.Order.Group.Nat
import Mathlib.Data.List.TakeWhile
import Mathlib.Tactic.Linarith

/-!
# The message of a syntax error

`getLexLastError` writes the line with the offending token into a buffer, and under it a line that
is to mark the token. All loops go on with the same cursor.
-/

namespace Natc.Ats.LexError

def ERROR_SIZE : Nat := 65536

/-- The place of a token in the text. -/
structure NamePosition (mBuffer : List Char) where
  offset : Nat
  size : Nat
  le : offset + size ≤ mBuffer.length

/-- One character at the end of the text in `mMessage`; `none` behind the buffer. -/
def put (mMessage : List Char) (c : Char) : Option (List Char) :=
  if mMessage.length < ERROR_SIZE then some (mMessage ++ [c]) else none

/-- `sprintf` into `mMessage`, with the NUL that the next write takes the place of. -/
def sprintf (text : List Char) : Option (List Char) :=
  if text.length < ERROR_SIZE then some text else none

/-- The start of the line and its number behind these characters. -/
def lineOf : List Char → Nat → Nat × Nat → Nat × Nat
  | [], _, s => s
  | c :: rest, sBufferIterator, s =>
      lineOf rest (sBufferIterator + 1)
        (if c = '\n' then (sBufferIterator + 1, s.2 + 1) else s)

/-- A loop that writes a character for each one of the text, up to a fence of the message. -/
def fill (sMessageFence : Nat) (stop : Char → Bool) (out : Nat → Char → Char) :
    List Char → Nat → List Char → Option (Nat × List Char)
  | [], sBufferIterator, mMessage => some (sBufferIterator, mMessage)
  | c :: rest, sBufferIterator, mMessage =>
      if mMessage.length < sMessageFence ∧ stop c = false then
        (put mMessage (out sBufferIterator c)).bind
          (fill sMessageFence stop out rest (sBufferIterator + 1))
      else some (sBufferIterator, mMessage)

/-- The first line of the message. -/
def header (sLineNo : Nat) (aMessage : List Char) : List Char :=
  "\n\nline ".toList ++ (toString sLineNo).toList ++ ": ".toList ++ aMessage ++ ['\n']

section Message

variable {mBuffer : List Char} (sPosition : NamePosition mBuffer)

def NamePosition.line : Nat × Nat :=
  lineOf (mBuffer.take sPosition.offset) 0 (0, 1)

/-- What stands under a character. -/
def NamePosition.mark (sBufferIterator : Nat) (c : Char) : Char :=
  if sBufferIterator = sPosition.offset ∨
      sBufferIterator + 1 = sPosition.offset + sPosition.size then '^'
  else if c = '\n' then '\n' else ' '

/-- The fence of the first loop. -/
def firstFence (sMessageIterator size : Nat) : Nat :=
  if ERROR_SIZE ≤ sMessageIterator + size then ERROR_SIZE - 8 else sMessageIterator + size

/-- The end of the line. -/
def breakLine (mMessage : List Char) : Option (List Char) :=
  if mMessage.length < ERROR_SIZE - 8 then put mMessage '\n' else some mMessage

/-- The three characters at the end. -/
def finish (mMessage : List Char) : Option (List Char) := do
  let mMessage ← put mMessage '\n'
  let mMessage ← put mMessage '\n'
  put mMessage '\x00'

def getLexLastError (aMessage : List Char) : Option (List Char) := do
  let (sLineOffset, sLineNo) := sPosition.line
  let mMessage ← sprintf (header sLineNo aMessage)
  let (sBufferIterator, mMessage) ← fill (firstFence mMessage.length sPosition.size)
    (fun _ => false) (fun _ c => c) (mBuffer.drop sLineOffset) sLineOffset mMessage
  let (_, mMessage) ← fill (ERROR_SIZE - 8) (· = '\n') (fun _ c => c)
    (mBuffer.drop sBufferIterator) sBufferIterator mMessage
  let mMessage ← breakLine mMessage
  let (_, mMessage) ← fill (ERROR_SIZE - 8) (fun _ => false) sPosition.mark
    (mBuffer.drop sLineNo) sLineNo mMessage
  finish mMessage

end Message

/-! ## The loops -/

section Loops

variable {stop : Char → Bool} {out : Nat → Char → Char} {rest mMessage : List Char}
  {sMessageFence : Nat}

theorem put_eq (c : Char) (h : mMessage.length < ERROR_SIZE) :
    put mMessage c = some (mMessage ++ [c]) := if_pos h

/-- The characters that a loop goes over when there is room for some. -/
def span (room : Nat) (stop : Char → Bool) (rest : List Char) : List Char :=
  (rest.take room).takeWhile fun c => stop c = false

theorem span_length_le (room : Nat) : (span room stop rest).length ≤ room :=
  (List.takeWhile_prefix _).length_le.trans (List.length_take_le _ _)

theorem span_free (room : Nat) : span room (fun _ => false) rest = rest.take room := by
  simp [span]

theorem fill_eq (hfence : sMessageFence ≤ ERROR_SIZE) (sBufferIterator : Nat) :
    fill sMessageFence stop out rest sBufferIterator mMessage =
      some (sBufferIterator + (span (sMessageFence - mMessage.length) stop rest).length,
        mMessage ++ (span (sMessageFence - mMessage.length) stop rest).mapIdx
          fun j c => out (sBufferIterator + j) c) := by
  induction rest generalizing sBufferIterator mMessage with
  | nil => simp [fill, span]
  | cons c rest ih =>
    rw [fill]
    by_cases hroom : mMessage.length < sMessageFence
    · obtain ⟨k, hk⟩ := Nat.exists_eq_add_of_lt hroom
      have hleft : sMessageFence - mMessage.length = k + 1 := by omega
      have hnext : sMessageFence - (mMessage ++ [out sBufferIterator c]).length = k := by
        rw [List.length_append, List.length_singleton]
        omega
      by_cases hstop : stop c = false
      · have hspan : span (k + 1) stop (c :: rest) = c :: span k stop rest := by
          simp [span, hstop]
        rw [if_pos ⟨hroom, hstop⟩, put_eq _ (by omega), Option.bind_some, ih, hnext, hleft,
          hspan, List.mapIdx_cons, List.append_assoc, List.length_cons]
        simp only [Nat.add_zero, List.singleton_append, Nat.add_assoc, Nat.add_comm 1]
      · rw [if_neg fun h => hstop h.2]
        simp [span, hleft, hstop]
    · rw [if_neg fun h => hroom h.1]
      have hleft : sMessageFence - mMessage.length = 0 := by omega
      simp [span, hleft]

theorem finish_eq : finish mMessage =
    if mMessage.length + 3 ≤ ERROR_SIZE then some (mMessage ++ ['\n', '\n', '\x00']) else none := by
  by_cases h : mMessage.length + 3 ≤ ERROR_SIZE
  · rw [if_pos h, finish, put_eq _ (by omega)]
    simp only [Option.bind_eq_bind, Option.bind_some]
    rw [put_eq _ (by simp; omega), Option.bind_some, put_eq _ (by simp; omega)]
    simp
  · rw [if_neg h]
    simp only [finish, put, Option.bind_eq_bind]
    split
    · rw [Option.bind_some]
      split
      · rw [Option.bind_some]
        split
        · next hroom =>
          simp at hroom
          omega
        · rfl
      · rfl
    · rfl

end Loops

/-! ## The parts of the message -/

section Parts

variable {mBuffer : List Char} (sPosition : NamePosition mBuffer) (sHeader : List Char)

/-- What the first loop copies of the line. -/
def NamePosition.first : List Char :=
  (mBuffer.drop sPosition.line.1).take (firstFence sHeader.length sPosition.size - sHeader.length)

/-- What the second loop copies of it. -/
def NamePosition.second : List Char :=
  span (ERROR_SIZE - 8 - (sHeader ++ sPosition.first sHeader).length) (· = '\n')
    (mBuffer.drop (sPosition.line.1 + (sPosition.first sHeader).length))

/-- The message down to the line. -/
def NamePosition.above : List Char :=
  sHeader ++ sPosition.first sHeader ++ sPosition.second sHeader

def NamePosition.upper : List Char :=
  if (sPosition.above sHeader).length < ERROR_SIZE - 8 then sPosition.above sHeader ++ ['\n']
  else sPosition.above sHeader

/-- What the third loop writes under it. -/
def NamePosition.under : List Char :=
  ((mBuffer.drop sPosition.line.2).take
      (ERROR_SIZE - 8 - (sPosition.upper sHeader).length)).mapIdx
    fun j c => sPosition.mark (sPosition.line.2 + j) c

theorem firstFence_le (sMessageIterator size : Nat) :
    firstFence sMessageIterator size ≤ ERROR_SIZE := by
  unfold firstFence
  split <;> omega

theorem mapIdx_self (l : List Char) : (l.mapIdx fun _ c => c) = l := by
  induction l with
  | nil => rfl
  | cons c l ih =>
    rw [List.mapIdx_cons]
    exact congrArg (c :: ·) ih

theorem getLexLastError_eq (aMessage : List Char) : getLexLastError sPosition aMessage =
    if (header sPosition.line.2 aMessage).length < ERROR_SIZE then
      finish (sPosition.upper (header sPosition.line.2 aMessage) ++
        sPosition.under (header sPosition.line.2 aMessage))
    else none := by
  generalize hheader : header sPosition.line.2 aMessage = sHeader
  have hupper : breakLine (sPosition.above sHeader) = some (sPosition.upper sHeader) := by
    unfold breakLine NamePosition.upper
    split
    · exact put_eq _ (by omega)
    · rfl
  by_cases hfits : sHeader.length < ERROR_SIZE
  · rw [if_pos hfits]
    simp only [getLexLastError, hheader, sprintf, if_pos hfits, Option.bind_eq_bind,
      Option.bind_some]
    rw [fill_eq (firstFence_le _ _), span_free, mapIdx_self, Option.bind_some]
    dsimp only
    rw [fill_eq (Nat.sub_le _ _), mapIdx_self, Option.bind_some]
    change (breakLine (sPosition.above sHeader)).bind _ = _
    rw [hupper, Option.bind_some, fill_eq (Nat.sub_le _ _), span_free]
    rfl
  · rw [if_neg hfits]
    simp only [getLexLastError, hheader, sprintf, if_neg hfits]
    rfl

/-! ## The buffer -/

theorem lineOf_le (cs : List Char) {sBufferIterator : Nat} {s : Nat × Nat}
    (h : s.1 ≤ sBufferIterator) : (lineOf cs sBufferIterator s).1 ≤ sBufferIterator + cs.length := by
  induction cs generalizing sBufferIterator s with
  | nil => exact h
  | cons c cs ih =>
    rw [lineOf, List.length_cons, Nat.add_comm cs.length, ← Nat.add_assoc]
    apply ih
    split
    · exact Nat.le_refl _
    · exact Nat.le_succ_of_le h

theorem NamePosition.line_le : sPosition.line.1 ≤ sPosition.offset := by
  have hle := lineOf_le (mBuffer.take sPosition.offset) (Nat.le_refl 0) (s := (0, 1))
  have hlength := List.length_take_le sPosition.offset mBuffer
  unfold NamePosition.line
  omega

/-- The first loop finds as many characters as it asks for. -/
theorem NamePosition.first_length : (sPosition.first sHeader).length =
    firstFence sHeader.length sPosition.size - sHeader.length := by
  have hline := sPosition.line_le
  have hle := sPosition.le
  unfold NamePosition.first
  rw [List.length_take, List.length_drop]
  apply Nat.min_eq_left
  unfold firstFence ERROR_SIZE
  split <;> omega

/-- The cursor stays in front of the fence, unless the first loop has gone past it. -/
theorem NamePosition.length_le (h : (sHeader ++ sPosition.first sHeader).length ≤ ERROR_SIZE - 8) :
    (sPosition.upper sHeader ++ sPosition.under sHeader).length ≤ ERROR_SIZE - 8 := by
  have habove : (sPosition.above sHeader).length ≤ ERROR_SIZE - 8 := by
    have hspan : (sPosition.second sHeader).length ≤
        ERROR_SIZE - 8 - (sHeader ++ sPosition.first sHeader).length := span_length_le _
    unfold NamePosition.above
    rw [List.length_append]
    omega
  have hupper : (sPosition.upper sHeader).length ≤ ERROR_SIZE - 8 := by
    unfold NamePosition.upper
    split
    · rw [List.length_append, List.length_singleton]
      omega
    · exact habove
  have hunder : (sPosition.under sHeader).length ≤
      ERROR_SIZE - 8 - (sPosition.upper sHeader).length := by
    unfold NamePosition.under
    rw [List.length_mapIdx]
    exact List.length_take_le _ _
  rw [List.length_append]
  omega

/-- Past the fence, only the first loop writes. -/
theorem NamePosition.past_fence
    (h : ERROR_SIZE - 8 ≤ (sHeader ++ sPosition.first sHeader).length) :
    sPosition.upper sHeader ++ sPosition.under sHeader = sHeader ++ sPosition.first sHeader := by
  have hsecond : sPosition.second sHeader = [] := by
    unfold NamePosition.second
    rw [Nat.sub_eq_zero_of_le h]
    rfl
  have habove : sPosition.above sHeader = sHeader ++ sPosition.first sHeader := by
    rw [NamePosition.above, hsecond, List.append_nil]
  have hupper : sPosition.upper sHeader = sHeader ++ sPosition.first sHeader := by
    rw [NamePosition.upper, habove, if_neg (by omega)]
  rw [NamePosition.under, hupper, Nat.sub_eq_zero_of_le h]
  exact List.append_nil _

/-- Every write was inside the buffer, and the last one was the NUL. -/
def Terminated (out : Option (List Char)) : Prop :=
  ∃ text, out = some (text ++ ['\x00']) ∧ text.length < ERROR_SIZE

theorem terminated_finish {mMessage : List Char} :
    Terminated (finish mMessage) ↔ mMessage.length + 3 ≤ ERROR_SIZE := by
  rw [finish_eq]
  by_cases h : mMessage.length + 3 ≤ ERROR_SIZE
  · rw [if_pos h]
    refine iff_of_true ⟨mMessage ++ ['\n', '\n'], ?_, ?_⟩ h
    · rw [List.append_assoc]
      rfl
    · rw [List.length_append]
      exact h
  · rw [if_neg h]
    apply iff_of_false _ h
    intro hout
    cases hout.choose_spec.1

/-- The header leaves room for the end, and the first loop does not stop right at the end of the
buffer. -/
structure Room (length size : Nat) : Prop where
  header : length + 3 ≤ ERROR_SIZE
  line : length + size + 3 ≤ ERROR_SIZE ∨ ERROR_SIZE ≤ length + size

theorem terminated_iff (aMessage : List Char) : Terminated (getLexLastError sPosition aMessage) ↔
    Room (header sPosition.line.2 aMessage).length sPosition.size := by
  rw [getLexLastError_eq]
  generalize header sPosition.line.2 aMessage = sHeader
  by_cases hfits : sHeader.length < ERROR_SIZE
  · rw [if_pos hfits, terminated_finish]
    have hfirst := sPosition.first_length sHeader
    have hcursor : (sHeader ++ sPosition.first sHeader).length =
        max sHeader.length (firstFence sHeader.length sPosition.size) := by
      rw [List.length_append, hfirst]
      omega
    have hroom : max sHeader.length (firstFence sHeader.length sPosition.size) + 3 ≤ ERROR_SIZE ↔
        Room sHeader.length sPosition.size := by
      unfold firstFence ERROR_SIZE
      constructor
      · intro h
        constructor <;> unfold ERROR_SIZE <;> split at h <;> omega
      · intro h
        have hheader := h.header
        have hline := h.line
        unfold ERROR_SIZE at hheader hline
        split <;> omega
    rw [← hroom, ← hcursor]
    rcases Nat.le_total (ERROR_SIZE - 8) (sHeader ++ sPosition.first sHeader).length with hge | hle
    · rw [sPosition.past_fence sHeader hge]
    · have hlength := sPosition.length_le sHeader hle
      unfold ERROR_SIZE at hle hlength ⊢
      constructor <;> intro <;> omega
  · rw [if_neg hfits]
    apply iff_of_false
    · intro hout
      cases hout.choose_spec.1
    · intro hroom
      have hheader := hroom.header
      omega

/-- A token of 65512 characters on the first line. -/
theorem not_terminated_longToken : ¬∀ (mBuffer : List Char) (sPosition : NamePosition mBuffer)
    (aMessage : List Char), Terminated (getLexLastError sPosition aMessage) := by
  intro h
  have hle : 0 + 65512 ≤ (List.replicate 65512 'a').length := by
    rw [List.length_replicate, Nat.zero_add]
  have hout := h _ ⟨0, 65512, hle⟩ "parse error".toList
  generalize List.replicate 65512 'a' = mBuffer at hle hout
  have hline : (NamePosition.mk 0 65512 hle).line = (0, 1) := by
    rw [NamePosition.line, List.take_zero]
    rfl
  have hheader : (header 1 "parse error".toList).length = 22 := by decide
  have hfence : firstFence 22 65512 - 22 = 65512 := by decide
  have hcursor : (header 1 "parse error".toList ++ (NamePosition.mk 0 65512 hle).first
      (header 1 "parse error".toList)).length = 65534 := by
    rw [List.length_append, NamePosition.first_length, hheader, hfence]
  rw [getLexLastError_eq, hline, hheader, if_pos (by decide),
    NamePosition.past_fence _ _ (by rw [hcursor]; decide), terminated_finish, hcursor] at hout
  exact absurd hout (by decide)

end Parts

/-! ## The marks -/

/-- A token on one line of a text. -/
structure TokenLine where
  before : List Char
  line : List Char
  after : List Char
  col : Nat
  size : Nat
  before_ends : before = [] ∨ ∃ b, before = b ++ ['\n']
  line_plain : '\n' ∉ line
  after_starts : after = [] ∨ ∃ a, after = '\n' :: a
  pos : 0 < size
  le : col + size ≤ line.length

namespace TokenLine

variable (x : TokenLine)

def text : List Char := x.before ++ (x.line ++ x.after)

def position : NamePosition x.text where
  offset := x.before.length + x.col
  size := x.size
  le := by
    have hle := x.le
    simp only [text, List.length_append]
    omega

/-- Behind the header, the line is shown, and a line under it that marks the first and the last
character of the token and nothing else. -/
def Shown (sHeader : List Char) (out : Option (List Char)) : Prop :=
  ∃ marks rest, out = some (sHeader ++ (x.line ++ '\n' :: (marks ++ '\n' :: rest))) ∧
    '\n' ∉ marks ∧ ∀ j, marks[j]? = some '^' ↔ j = x.col ∨ j + 1 = x.col + x.size

end TokenLine

/-! ### The start of the line -/

theorem lineOf_append (a b : List Char) (sBufferIterator : Nat) (s : Nat × Nat) :
    lineOf (a ++ b) sBufferIterator s =
      lineOf b (sBufferIterator + a.length) (lineOf a sBufferIterator s) := by
  induction a generalizing sBufferIterator s with
  | nil => rfl
  | cons c a ih =>
    rw [List.cons_append, lineOf, ih, List.length_cons, lineOf, Nat.add_assoc, Nat.add_comm 1]

theorem lineOf_plain {cs : List Char} (h : '\n' ∉ cs) (sBufferIterator : Nat) (s : Nat × Nat) :
    lineOf cs sBufferIterator s = s := by
  induction cs generalizing sBufferIterator with
  | nil => rfl
  | cons c cs ih =>
    rw [List.mem_cons, not_or] at h
    rw [lineOf, if_neg (Ne.symm h.1), ih h.2]

theorem lineOf_count (cs : List Char) (sBufferIterator : Nat) (s : Nat × Nat) :
    (lineOf cs sBufferIterator s).2 = s.2 + cs.count '\n' := by
  induction cs generalizing sBufferIterator s with
  | nil => rfl
  | cons c cs ih =>
    rw [lineOf, ih, List.count_cons]
    by_cases hc : c = '\n'
    · simp only [hc, if_true, beq_self_eq_true]
      omega
    · simp [hc]

namespace TokenLine

variable (x : TokenLine)

theorem position_line : x.position.line = (x.before.length, x.before.count '\n' + 1) := by
  have hle := x.le
  have htake : x.text.take (x.before.length + x.col) = x.before ++ x.line.take x.col := by
    rw [text, List.take_length_add_append, List.take_append_of_le_length (by omega)]
  have hplain : '\n' ∉ x.line.take x.col := fun h => x.line_plain (List.mem_of_mem_take h)
  have hcount := lineOf_count x.before 0 (0, 1)
  unfold NamePosition.line
  rw [show x.position.offset = x.before.length + x.col from rfl, htake, lineOf_append,
    lineOf_plain hplain]
  apply Prod.ext
  · cases x.before_ends with
    | inl hnil =>
      rw [hnil]
      rfl
    | inr hends =>
      obtain ⟨b, hb⟩ := hends
      rw [hb, lineOf_append]
      simp [lineOf]
  · rw [hcount]
    exact Nat.add_comm _ _

/-! ### The line -/

theorem drop_line : x.text.drop x.before.length = x.line ++ x.after := List.drop_left

/-- The second loop stops at the end of the line. -/
theorem span_line {l after : List Char} (hl : '\n' ∉ l)
    (hafter : after = [] ∨ ∃ a, after = '\n' :: a) (room : Nat) :
    span room (· = '\n') (l ++ after) = l.take room := by
  have hall : ∀ {k : List Char}, (∀ c ∈ k, c ∈ l) →
      ∀ c ∈ k, decide (decide (c = '\n') = false) = true := by
    intro k hk c hc
    have hne : c ≠ '\n' := fun heq => hl (heq ▸ hk c hc)
    simp [hne]
  unfold span
  by_cases hroom : room ≤ l.length
  · rw [List.take_append_of_le_length hroom]
    exact List.takeWhile_eq_self_iff.mpr (hall fun c hc => List.mem_of_mem_take hc)
  · have hleft : l.length ≤ room := by omega
    rw [List.take_append, List.take_of_length_le hleft,
      List.takeWhile_append_of_pos (hall fun c hc => hc)]
    have hstop : ((after.take (room - l.length)).takeWhile
        fun c => decide (decide (c = '\n') = false)) = [] := by
      cases hafter with
      | inl hnil => rw [hnil, List.take_nil, List.takeWhile_nil]
      | inr hcons =>
        obtain ⟨a, ha⟩ := hcons
        cases hk : room - l.length with
        | zero => rw [List.take_zero, List.takeWhile_nil]
        | succ k => simp [ha]
    rw [hstop, List.append_nil]

variable (sHeader : List Char)

theorem first_eq (h : firstFence sHeader.length x.size - sHeader.length ≤ x.line.length) :
    x.position.first sHeader =
      x.line.take (firstFence sHeader.length x.size - sHeader.length) := by
  unfold NamePosition.first
  rw [position_line, drop_line]
  exact List.take_append_of_le_length h

/-- The two loops copy the line, as far as there is room in front of the fence. -/
theorem above_eq (hsize : sHeader.length + x.size ≤ ERROR_SIZE - 8) :
    x.position.above sHeader = sHeader ++ x.line.take (ERROR_SIZE - 8 - sHeader.length) := by
  have hle := x.le
  have hfence : firstFence sHeader.length x.size - sHeader.length = x.size := by
    unfold firstFence ERROR_SIZE
    unfold ERROR_SIZE at hsize
    rw [if_neg (by omega)]
    omega
  have hfirst := x.first_eq sHeader (by omega)
  rw [hfence] at hfirst
  have hlength : (x.line.take x.size).length = x.size := List.length_take_of_le (by omega)
  have hdrop : x.text.drop (x.before.length + x.size) = x.line.drop x.size ++ x.after := by
    rw [← List.drop_drop, drop_line, List.drop_append_of_le_length (by omega)]
  have hroom : ERROR_SIZE - 8 - sHeader.length =
      x.size + (ERROR_SIZE - 8 - (sHeader.length + x.size)) := by omega
  unfold NamePosition.above NamePosition.second
  rw [hfirst, position_line, hlength, hdrop, List.length_append, hlength,
    span_line (fun h => x.line_plain (List.mem_of_mem_drop h)) x.after_starts, List.append_assoc,
    hroom, List.take_add]

theorem upper_eq (hfit : sHeader.length + x.line.length < ERROR_SIZE - 8) :
    x.position.upper sHeader = sHeader ++ (x.line ++ ['\n']) := by
  have hle := x.le
  have habove := x.above_eq sHeader (by omega)
  rw [List.take_of_length_le (by omega)] at habove
  unfold NamePosition.upper
  rw [habove, if_pos (by rw [List.length_append]; exact hfit), List.append_assoc]

/-- Where the line does not fit, nothing is written under it. -/
theorem upper_under_eq (hlong : ERROR_SIZE - 8 ≤ sHeader.length + x.line.length) :
    ∃ k, x.position.upper sHeader ++ x.position.under sHeader = sHeader ++ x.line.take k := by
  have hle := x.le
  by_cases hsize : sHeader.length + x.size ≤ ERROR_SIZE - 8
  · have habove := x.above_eq sHeader hsize
    have hlength : (x.position.above sHeader).length = max sHeader.length (ERROR_SIZE - 8) := by
      rw [habove, List.length_append, List.length_take]
      omega
    have hupper : x.position.upper sHeader = x.position.above sHeader := by
      unfold NamePosition.upper
      rw [if_neg (by omega)]
    have hunder : x.position.under sHeader = [] := by
      unfold NamePosition.under
      rw [hupper, hlength, Nat.sub_eq_zero_of_le (by omega)]
      rfl
    exact ⟨_, by rw [hunder, hupper, habove, List.append_nil]⟩
  · have hfirst : firstFence sHeader.length x.size - sHeader.length ≤ x.line.length := by
      unfold firstFence
      split <;> omega
    have hpast : ERROR_SIZE - 8 ≤ (sHeader ++ x.position.first sHeader).length := by
      rw [List.length_append, NamePosition.first_length]
      unfold firstFence
      split
      · omega
      · change _ ≤ sHeader.length + (sHeader.length + x.size - sHeader.length)
        omega
    exact ⟨_, by rw [x.position.past_fence sHeader hpast, x.first_eq sHeader hfirst]⟩

/-! ### The line under it -/

/-- The text up to the first line break. -/
def upToBreak (l : List Char) : List Char := l.takeWhile (· ≠ '\n')

theorem upToBreak_line {l : List Char} (hl : '\n' ∉ l) (rest : List Char) :
    upToBreak (l ++ '\n' :: rest) = l := by
  have hall : ∀ c ∈ l, decide (c ≠ '\n') = true :=
    fun c hc => decide_eq_true fun heq => hl (heq ▸ hc)
  unfold upToBreak
  rw [List.takeWhile_append_of_pos hall, List.takeWhile_cons_of_neg (by simp), List.append_nil]

theorem exists_break (l rest : List Char) :
    '\n' ∉ upToBreak l ∧ ∃ rest', l ++ '\n' :: rest = upToBreak l ++ '\n' :: rest' := by
  induction l with
  | nil => exact ⟨List.not_mem_nil, rest, rfl⟩
  | cons c l ih =>
    by_cases hc : c = '\n'
    · have hnil : upToBreak (c :: l) = [] := List.takeWhile_cons_of_neg (by simp [hc])
      rw [hnil, hc]
      exact ⟨List.not_mem_nil, _, rfl⟩
    · have hcons : upToBreak (c :: l) = c :: upToBreak l :=
        List.takeWhile_cons_of_pos (decide_eq_true hc)
      obtain ⟨hplain, rest', hrest⟩ := ih
      rw [hcons]
      refine ⟨?_, rest', congrArg (c :: ·) hrest⟩
      rw [List.mem_cons, not_or]
      exact ⟨Ne.symm hc, hplain⟩

/-- A loop over characters that leaves line breaks as they are. -/
theorem upToBreak_mapIdx {out : Nat → Char → Char} {l : List Char}
    (h : ∀ j c, l[j]? = some c → (out j c = '\n' ↔ c = '\n')) :
    upToBreak (l.mapIdx out) = (upToBreak l).mapIdx out := by
  induction l generalizing out with
  | nil => rfl
  | cons c l ih =>
    have hfirst := h 0 c rfl
    have hrest := @ih (fun j => out (j + 1)) fun j d hd => h (j + 1) d hd
    unfold upToBreak at hrest ⊢
    rw [List.mapIdx_cons]
    by_cases hc : c = '\n'
    · have hout := hfirst.mpr hc
      subst hc
      simp [hout]
    · have hout : out 0 c ≠ '\n' := fun heq => hc (hfirst.mp heq)
      simpa [hout, hc] using hrest

/-- No line break is marked. -/
theorem mark_eq_break {i : Nat} {c : Char} (h : x.text[i]? = some c) :
    x.position.mark i c = '\n' ↔ c = '\n' := by
  have hle := x.le
  have hpos := x.pos
  unfold NamePosition.mark
  change (if i = x.before.length + x.col ∨ i + 1 = x.before.length + x.col + x.size then '^'
    else if c = '\n' then '\n' else ' ') = '\n' ↔ _
  split
  · next hmark =>
    apply iff_of_false (by decide)
    intro hc
    obtain ⟨j, rfl⟩ : ∃ j, i = x.before.length + j := Nat.exists_eq_add_of_le (by omega)
    rw [text, List.getElem?_append_right (by omega), Nat.add_sub_cancel_left,
      List.getElem?_append_left (by omega)] at h
    exact x.line_plain (hc ▸ List.mem_of_getElem? h)
  · split
    · next hc => exact iff_of_true rfl hc
    · next hc => exact iff_of_false (by decide) hc

/-- The characters over which the first line of marks is written. -/
def marked (sHeader : List Char) : List Char :=
  upToBreak ((x.text.drop x.position.line.2).take
    (ERROR_SIZE - 8 - (x.position.upper sHeader).length))

theorem upToBreak_under : upToBreak (x.position.under sHeader) =
    (x.marked sHeader).mapIdx fun j c => x.position.mark (x.position.line.2 + j) c := by
  unfold NamePosition.under
  apply upToBreak_mapIdx
  intro j c hc
  apply x.mark_eq_break
  rw [List.getElem?_take, List.getElem?_drop] at hc
  split at hc
  · exact hc
  · cases hc

/-- The marks of that line. -/
theorem marks_iff (j : Nat) : (upToBreak (x.position.under sHeader))[j]? = some '^' ↔
    j < (x.marked sHeader).length ∧
      (x.position.line.2 + j = x.before.length + x.col ∨
        x.position.line.2 + j + 1 = x.before.length + x.col + x.size) := by
  rw [upToBreak_under, List.getElem?_mapIdx]
  by_cases hj : j < (x.marked sHeader).length
  · rw [List.getElem?_eq_getElem hj, Option.map_some, Option.some_inj, and_iff_right hj]
    unfold NamePosition.mark
    split
    · next hmark => exact iff_of_true rfl hmark
    · next hmark =>
      refine iff_of_false ?_ hmark
      split <;> decide
  · rw [List.getElem?_eq_none (by omega), Option.map_none]
    exact iff_of_false (by simp) fun h => hj h.1

/-- With the line in full, the marks are those of the line under it. -/
theorem shown_iff_marks (hfit : sHeader.length + x.line.length < ERROR_SIZE - 8) :
    x.Shown sHeader (finish (x.position.upper sHeader ++ x.position.under sHeader)) ↔
      ∀ j, (upToBreak (x.position.under sHeader))[j]? = some '^' ↔
        j = x.col ∨ j + 1 = x.col + x.size := by
  have hupper := x.upper_eq sHeader hfit
  have hlength : (x.position.upper sHeader ++ x.position.under sHeader).length + 3 ≤
      ERROR_SIZE := by
    have hunder : (x.position.under sHeader).length ≤
        ERROR_SIZE - 8 - (x.position.upper sHeader).length := by
      unfold NamePosition.under
      rw [List.length_mapIdx]
      exact List.length_take_le _ _
    rw [hupper, List.length_append, List.length_append, List.length_singleton] at hunder
    rw [hupper, List.length_append, List.length_append, List.length_append, List.length_singleton]
    unfold ERROR_SIZE at *
    omega
  have hout : finish (x.position.upper sHeader ++ x.position.under sHeader) =
      some (sHeader ++ (x.line ++ '\n' ::
        (x.position.under sHeader ++ '\n' :: ['\n', '\x00']))) := by
    rw [finish_eq, if_pos hlength, hupper]
    simp
  rw [hout]
  constructor
  · rintro ⟨marks, rest, heq, hplain, hmarks⟩
    have htail := List.append_cancel_left (List.append_cancel_left (Option.some.inj heq))
    have hbreak := congrArg upToBreak (List.cons.inj htail).2
    obtain ⟨hfree, rest', hrest⟩ := exists_break (x.position.under sHeader) ['\n', '\x00']
    rw [hrest, upToBreak_line hfree, upToBreak_line hplain] at hbreak
    rw [hbreak]
    exact hmarks
  · intro hmarks
    obtain ⟨hfree, rest', hrest⟩ := exists_break (x.position.under sHeader) ['\n', '\x00']
    exact ⟨_, rest', by rw [hrest], hfree, hmarks⟩

/-- Without room for the line, there is no line under it. -/
theorem not_shown_long (hlong : ERROR_SIZE - 8 ≤ sHeader.length + x.line.length) :
    ¬x.Shown sHeader (finish (x.position.upper sHeader ++ x.position.under sHeader)) := by
  rintro ⟨marks, rest, heq, hplain, hmarks⟩
  have hle := x.le
  have hpos := x.pos
  obtain ⟨k, hk⟩ := x.upper_under_eq sHeader hlong
  rw [finish_eq, hk] at heq
  split at heq
  · have htail := Option.some.inj heq
    rw [List.append_assoc] at htail
    have hline := List.append_cancel_left htail
    have hlast := (hmarks (x.col + x.size - 1)).mpr (Or.inr (by omega))
    have hmore : marks ≠ [] := by
      rintro rfl
      cases hlast
    have hcount := congrArg List.length hline
    simp only [List.length_append, List.length_take, List.length_cons, List.length_nil] at hcount
    have hmarks_pos := List.length_pos_iff.mpr hmore
    have hrest : rest = [] := List.eq_nil_of_length_eq_zero (by omega)
    have hsame : (x.line.take k).length = x.line.length := by
      rw [List.length_take]
      omega
    have hend := (List.append_inj hline hsame).2
    rw [hrest] at hend
    have htwo : ['\n'] ++ ['\x00'] = marks ++ ['\n'] := (List.cons.inj hend).2
    exact absurd (List.append_inj' htwo rfl).2 (by decide)
  · cases heq

/-- The marks stand under the token exactly if the third loop begins with its line and has room
for them. -/
theorem marks_right_iff (hfit : sHeader.length + x.line.length < ERROR_SIZE - 8) :
    (∀ j, (upToBreak (x.position.under sHeader))[j]? = some '^' ↔
        j = x.col ∨ j + 1 = x.col + x.size) ↔
      x.position.line.2 = x.before.length ∧
        sHeader.length + x.line.length + 1 + x.col + x.size ≤ ERROR_SIZE - 8 := by
  have hpos := x.pos
  have hle := x.le
  have hupper : (x.position.upper sHeader).length = sHeader.length + (x.line.length + 1) := by
    rw [x.upper_eq sHeader hfit, List.length_append, List.length_append]
    rfl
  simp only [x.marks_iff sHeader]
  constructor
  · intro hmarks
    have hroom : (x.marked sHeader).length ≤
        ERROR_SIZE - 8 - (x.position.upper sHeader).length :=
      (List.takeWhile_prefix _).length_le.trans (List.length_take_le _ _)
    have hfirst := (hmarks x.col).mpr (Or.inl rfl)
    have hlast := (hmarks (x.col + x.size - 1)).mpr (Or.inr (by omega))
    omega
  · intro h j
    have hmarked : x.col + x.size ≤ (x.marked sHeader).length := by
      have hspan := span_line x.line_plain x.after_starts
        (ERROR_SIZE - 8 - (x.position.upper sHeader).length)
      have hsame : x.marked sHeader = x.line.take
          (ERROR_SIZE - 8 - (x.position.upper sHeader).length) := by
        rw [← hspan, marked, h.1, drop_line, upToBreak, span]
        congr 1
        funext c
        by_cases hc : c = '\n' <;> simp [hc]
      rw [hsame, List.length_take]
      omega
    omega

theorem line_eq_iff : x.position.line.2 = x.before.length ↔
    x.before.countP (· ≠ '\n') = 1 := by
  have hlength := List.length_eq_countP_add_countP (· == '\n') (l := x.before)
  have hother : x.before.countP (fun c => ¬(c == '\n') = true) =
      x.before.countP (· ≠ '\n') := by
    congr 1
    funext c
    simp
  rw [hother] at hlength
  rw [position_line, List.count]
  omega

/-- The line is shown with its marks exactly if one character besides line breaks stands in front
of it, and the message has room for the line and for the marks. -/
theorem shown_iff (aMessage : List Char) :
    x.Shown (header x.position.line.2 aMessage) (getLexLastError x.position aMessage) ↔
      x.before.countP (· ≠ '\n') = 1 ∧
        (header x.position.line.2 aMessage).length + x.line.length + 1 + x.col + x.size ≤
          ERROR_SIZE - 8 := by
  rw [getLexLastError_eq, ← line_eq_iff]
  generalize header x.position.line.2 aMessage = sHeader
  by_cases hfits : sHeader.length < ERROR_SIZE
  · rw [if_pos hfits]
    by_cases hfit : sHeader.length + x.line.length < ERROR_SIZE - 8
    · rw [x.shown_iff_marks sHeader hfit, x.marks_right_iff sHeader hfit]
    · apply iff_of_false (x.not_shown_long sHeader (by omega))
      intro h
      omega
  · rw [if_neg hfits]
    apply iff_of_false
    · rintro ⟨_, _, heq, -⟩
      cases heq
    · intro h
      unfold ERROR_SIZE at *
      omega

/-- The word `ab` alone. -/
def firstWord : TokenLine :=
  ⟨[], ['a', 'b'], [], 0, 2, Or.inl rfl, by decide, Or.inl rfl, by decide, by decide⟩

/-- On the first line the marks are one column too far to the left. -/
theorem not_shown_firstWord : ¬∀ (x : TokenLine) (aMessage : List Char),
    x.Shown (header x.position.line.2 aMessage) (getLexLastError x.position aMessage) := by
  intro h
  obtain ⟨marks, rest, heq, hplain, hmarks⟩ := h firstWord "parse error".toList
  have hout : getLexLastError firstWord.position "parse error".toList =
      some (header firstWord.position.line.2 "parse error".toList ++
        (firstWord.line ++ '\n' :: ['^', '\n', '\n', '\x00'])) := by decide
  have htail := List.append_cancel_left (List.append_cancel_left
    (Option.some.inj (hout.symm.trans heq)))
  have hsecond := (hmarks 1).mpr (Or.inr rfl)
  cases marks with
  | nil => cases hsecond
  | cons c marks =>
    cases marks with
    | nil => cases hsecond
    | cons d marks =>
      have hbreak := (List.cons.inj (List.cons.inj (List.cons.inj htail).2).2).1
      apply hplain
      rw [hbreak]
      exact List.mem_cons_of_mem c List.mem_cons_self

end TokenLine

end Natc.Ats.LexError
