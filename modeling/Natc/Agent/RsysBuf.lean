import Mathlib.Data.List.Forall2
import Natc.Agent.Output

/-!
# The buffer of the output

`messagePrint` appends to the buffer of `RSYSTEM` with `strcat`, and keeps the end of the text in
`cursor`. A text that does not fit is left out as a whole.
-/

namespace Natc.Agent

/-- `rsysBuf`, with the characters of its array. -/
structure RsysBuf where
  cursor : Nat
  buffer : Bytes
  size : buffer.length = RSYSTEM_BUFFER_SIZE

namespace RsysBuf

/-- The string in the buffer. -/
def text (aRsysBuf : RsysBuf) : Bytes :=
  cString aRsysBuf.buffer

/-- `execute` empties the buffer before it looks at its operation. -/
def reset (aRsysBuf : RsysBuf) : RsysBuf where
  cursor := 0
  buffer := aRsysBuf.buffer.set 0 0
  size := by rw [List.length_set, aRsysBuf.size]

/-- Where `strcat` puts its text. -/
def strcatAt (aRsysBuf : RsysBuf) : Nat :=
  aRsysBuf.cursor + (cString (aRsysBuf.buffer.drop aRsysBuf.cursor)).length

/-- The buffer with a string and its NUL stored at a place. -/
def store (aRsysBuf : RsysBuf) (place : Nat) (aMessage : Bytes)
    (fits : place + aMessage.length < aRsysBuf.buffer.length) : RsysBuf where
  cursor := aRsysBuf.cursor + aMessage.length
  buffer := aRsysBuf.buffer.take place ++ aMessage ++
    0 :: aRsysBuf.buffer.drop (place + aMessage.length + 1)
  size := by
    have hsize := aRsysBuf.size
    simp only [List.length_append, List.length_take, List.length_cons, List.length_drop]
    omega

/-- `messagePrint` with its return code, or nothing where `strcat` leaves the buffer. -/
def messagePrint (aMessage : Bytes) (aRsysBuf : RsysBuf) : Option (Int × RsysBuf) :=
  if (cString aMessage).length + aRsysBuf.cursor < RSYSTEM_BUFFER_SIZE then
    if fits : aRsysBuf.strcatAt + (cString aMessage).length < aRsysBuf.buffer.length then
      some (0, aRsysBuf.store aRsysBuf.strcatAt (cString aMessage) fits)
    else none
  else some (-1, aRsysBuf)

/-- The messages one after the other; `executeOpt` does not look at the return codes. -/
def printAll (chunks : List Bytes) (aRsysBuf : RsysBuf) : Option RsysBuf :=
  chunks.foldlM (fun aRsysBuf chunk => (aRsysBuf.messagePrint chunk).map Prod.snd) aRsysBuf

/-- The buffer holds a text, with its end at `cursor`. -/
structure Holds (aRsysBuf : RsysBuf) (text : Bytes) : Prop where
  clean : 0 ∉ text
  buffer : ∃ rest, aRsysBuf.buffer = text ++ 0 :: rest
  cursor : aRsysBuf.cursor = text.length

end RsysBuf

theorem clean_cString (bs : Bytes) : 0 ∉ cString bs := by
  intro h
  exact absurd (List.mem_takeWhile_imp h) (by decide)

theorem cString_append_zero {text : Bytes} (h : 0 ∉ text) (rest : Bytes) :
    cString (text ++ 0 :: rest) = text := by
  have hall : ∀ c ∈ text, decide (c ≠ 0) = true :=
    fun c hc => decide_eq_true fun hzero => h (hzero ▸ hc)
  unfold cString
  rw [List.takeWhile_append_of_pos hall, List.takeWhile_cons_of_neg (by simp), List.append_nil]

namespace RsysBuf.Holds

variable {aRsysBuf : RsysBuf} {text : Bytes}

theorem text_eq (h : aRsysBuf.Holds text) : aRsysBuf.text = text := by
  obtain ⟨rest, hbuffer⟩ := h.buffer
  unfold RsysBuf.text
  rw [hbuffer, cString_append_zero h.clean]

theorem lt_size (h : aRsysBuf.Holds text) : text.length < RSYSTEM_BUFFER_SIZE := by
  obtain ⟨rest, hbuffer⟩ := h.buffer
  have hsize := aRsysBuf.size
  rw [hbuffer, List.length_append, List.length_cons] at hsize
  omega

theorem strcatAt_eq (h : aRsysBuf.Holds text) : aRsysBuf.strcatAt = text.length := by
  obtain ⟨rest, hbuffer⟩ := h.buffer
  unfold RsysBuf.strcatAt
  rw [h.cursor, hbuffer, List.drop_left]
  rfl

theorem reset (aRsysBuf : RsysBuf) : aRsysBuf.reset.Holds [] := by
  refine ⟨List.not_mem_nil, ?_, rfl⟩
  have hsize := aRsysBuf.size
  cases hb : aRsysBuf.buffer with
  | nil =>
    rw [hb] at hsize
    cases hsize
  | cons b rest =>
    refine ⟨rest, ?_⟩
    show aRsysBuf.buffer.set 0 0 = _
    rw [hb]
    rfl

/-- One message: what is printed is the text of the list model, whatever its length. -/
theorem messagePrint (h : aRsysBuf.Holds text) (aMessage : Bytes) :
    ∃ sRc s, aRsysBuf.messagePrint aMessage = some (sRc, s) ∧
      s.Holds (Agent.messagePrint (cString aMessage) text) := by
  obtain ⟨rest, hbuffer⟩ := h.buffer
  unfold RsysBuf.messagePrint Agent.messagePrint
  rw [h.cursor]
  by_cases hfits : (cString aMessage).length + text.length < RSYSTEM_BUFFER_SIZE
  · have hroom : aRsysBuf.strcatAt + (cString aMessage).length < aRsysBuf.buffer.length := by
      rw [h.strcatAt_eq, aRsysBuf.size]
      omega
    rw [if_pos hfits, if_pos hfits, dif_pos hroom]
    refine ⟨_, _, rfl, ?_, ⟨aRsysBuf.buffer.drop (text.length + (cString aMessage).length + 1), ?_⟩, ?_⟩
    · rw [List.mem_append, not_or]
      exact ⟨h.clean, clean_cString aMessage⟩
    · simp only [RsysBuf.store, h.strcatAt_eq]
      congr 2
      rw [hbuffer, List.take_left]
    · simp only [RsysBuf.store, h.cursor, List.length_append]
  · rw [if_neg hfits, if_neg hfits]
    exact ⟨_, _, rfl, h⟩

end RsysBuf.Holds

/-- What the list model prints of some messages. -/
def printed (text : Bytes) (chunks : List Bytes) : Bytes :=
  chunks.foldl (fun text chunk => messagePrint (cString chunk) text) text

@[simp] theorem printed_nil (text : Bytes) : printed text [] = text := rfl

@[simp] theorem printed_cons (text chunk : Bytes) (chunks : List Bytes) :
    printed text (chunk :: chunks) = printed (messagePrint (cString chunk) text) chunks := rfl

theorem printed_append (text : Bytes) (first second : List Bytes) :
    printed text (first ++ second) = printed (printed text first) second := by
  unfold printed
  rw [List.foldl_append]

theorem RsysBuf.Holds.printAll {aRsysBuf : RsysBuf} {text : Bytes} (h : aRsysBuf.Holds text)
    (chunks : List Bytes) :
    ∃ s, aRsysBuf.printAll chunks = some s ∧ s.Holds (printed text chunks) := by
  induction chunks generalizing aRsysBuf text with
  | nil => exact ⟨aRsysBuf, rfl, h⟩
  | cons chunk chunks ih =>
    obtain ⟨sRc, s, hprint, hs⟩ := h.messagePrint chunk
    obtain ⟨t, hall, ht⟩ := ih hs
    refine ⟨t, ?_, ht⟩
    unfold RsysBuf.printAll
    rw [List.foldlM_cons, hprint]
    exact hall

/-- After each message, the buffer holds a prefix of what has been received, and the cursor stands
at its end and in the buffer. -/
def Buffered (aRsysBuf : RsysBuf) (chunks : List Bytes) : Prop :=
  ∀ k ≤ chunks.length, ∃ s, aRsysBuf.reset.printAll (chunks.take k) = some s ∧
    s.text <+: (chunks.take k).flatten ∧ s.cursor = s.text.length ∧
      s.cursor < RSYSTEM_BUFFER_SIZE

/-- The cursor is right after any messages; what is left to say is about the text. -/
theorem buffered_iff_prefixes (aRsysBuf : RsysBuf) (chunks : List Bytes) :
    Buffered aRsysBuf chunks ↔
      ∀ k ≤ chunks.length, printed [] (chunks.take k) <+: (chunks.take k).flatten := by
  have hrun (k : Nat) := (RsysBuf.Holds.reset aRsysBuf).printAll (chunks.take k)
  constructor
  · intro h k hk
    obtain ⟨s, hs, hprefix, _⟩ := h k hk
    obtain ⟨t, ht, hholds⟩ := hrun k
    rw [hs] at ht
    cases ht
    rw [← hholds.text_eq]
    exact hprefix
  · intro h k hk
    obtain ⟨s, hs, hholds⟩ := hrun k
    refine ⟨s, hs, ?_, ?_, ?_⟩
    · rw [hholds.text_eq]
      exact h k hk
    · rw [hholds.text_eq, hholds.cursor]
    · rw [hholds.cursor]
      exact hholds.lt_size

/-- The length of a message and that of the string it starts with, which a NUL may cut short. -/
structure ChunkShape where
  length : Nat
  strlen : Nat
  le : strlen ≤ length

namespace ChunkShape

/-- The messages of a shape. -/
def Of (shape : ChunkShape) (chunk : Bytes) : Prop :=
  chunk.length = shape.length ∧ (cString chunk).length = shape.strlen

/-- The text of the message fits behind one of `cursor` characters. -/
def Fits (cursor : Nat) (shape : ChunkShape) : Prop :=
  shape.strlen + cursor < RSYSTEM_BUFFER_SIZE

instance (cursor : Nat) (shape : ChunkShape) : Decidable (shape.Fits cursor) :=
  inferInstanceAs (Decidable (_ < _))

/-- The text of the message is the message, and fits. -/
def Whole (cursor : Nat) (shape : ChunkShape) : Prop :=
  shape.strlen = shape.length ∧ shape.Fits cursor

instance (cursor : Nat) (shape : ChunkShape) : Decidable (shape.Whole cursor) :=
  inferInstanceAs (Decidable (_ ∧ _))

/-- Where the text ends behind the message. -/
def endOf (cursor : Nat) (shape : ChunkShape) : Nat :=
  if shape.Fits cursor then cursor + shape.strlen else cursor

/-- A message of the shape, of one character as far as its text goes. -/
def fill (c : UInt8) (shape : ChunkShape) : Bytes :=
  List.replicate shape.strlen c ++ List.replicate (shape.length - shape.strlen) 0

end ChunkShape

/-- Behind the first message that is not stored as a whole, no text fits any more but the empty
one. -/
def NoneFitsLater : Nat → List ChunkShape → Prop
  | _, [] => True
  | cursor, shape :: rest =>
      if shape.Whole cursor then NoneFitsLater (cursor + shape.length) rest
      else ∀ later ∈ rest, 0 < later.strlen → ¬later.Fits (shape.endOf cursor)

section Shapes

open ChunkShape

theorem fill_of {c : UInt8} (hc : c ≠ 0) (shape : ChunkShape) :
    shape.Of (shape.fill c) ∧ cString (shape.fill c) = List.replicate shape.strlen c := by
  have hle := shape.le
  have hzero : 0 ∉ List.replicate shape.strlen c := fun h => hc (List.eq_of_mem_replicate h).symm
  have hstring : cString (shape.fill c) = List.replicate shape.strlen c := by
    unfold fill
    cases hn : shape.length - shape.strlen with
    | zero =>
      have hall : ∀ b ∈ List.replicate shape.strlen c, decide (b ≠ 0) = true :=
        fun b hb => decide_eq_true fun hb0 => hzero (hb0 ▸ hb)
      rw [List.replicate_zero, List.append_nil]
      exact List.takeWhile_eq_self_iff.mpr hall
    | succ n =>
      rw [List.replicate_succ, cString_append_zero hzero]
  refine ⟨⟨?_, by rw [hstring, List.length_replicate]⟩, hstring⟩
  unfold fill
  rw [List.length_append, List.length_replicate, List.length_replicate]
  omega

/-- A message of a shape that has no NUL is its text. -/
theorem cString_whole {shape : ChunkShape} {chunk : Bytes} (hof : shape.Of chunk)
    (h : shape.strlen = shape.length) : cString chunk = chunk := by
  have hlen : (cString chunk).length = chunk.length := by rw [hof.1, hof.2, h]
  exact (List.takeWhile_prefix _).eq_of_length hlen

theorem messagePrint_of {shape : ChunkShape} {chunk : Bytes} (hof : shape.Of chunk)
    (text : Bytes) :
    messagePrint (cString chunk) text =
      if shape.Fits text.length then text ++ cString chunk else text := by
  unfold messagePrint
  rw [hof.2]
  rfl

theorem length_messagePrint_of {shape : ChunkShape} {chunk : Bytes} (hof : shape.Of chunk)
    (text : Bytes) : (messagePrint (cString chunk) text).length = shape.endOf text.length := by
  rw [messagePrint_of hof, ChunkShape.endOf]
  by_cases hfits : shape.Fits text.length
  · rw [if_pos hfits, if_pos hfits, List.length_append, hof.2]
  · rw [if_neg hfits, if_neg hfits]

/-- Whatever a message does to the text, that begins as the text and the message do. -/
theorem prefix_of_messagePrint (chunk text : Bytes) :
    messagePrint (cString chunk) text <+: text ++ chunk := by
  unfold messagePrint
  by_cases hfits : (cString chunk).length + text.length < RSYSTEM_BUFFER_SIZE
  · rw [if_pos hfits]
    exact (List.prefix_append_right_inj text).mpr (List.takeWhile_prefix _)
  · rw [if_neg hfits]
    exact List.prefix_append text chunk

/-- Messages of which none fits leave the text as it is. -/
theorem printed_none {text : Bytes} {shapes : List ChunkShape} {chunks : List Bytes}
    (hof : List.Forall₂ ChunkShape.Of shapes chunks)
    (h : ∀ shape ∈ shapes, 0 < shape.strlen → ¬shape.Fits text.length) (k : Nat) :
    printed text (chunks.take k) = text := by
  induction hof generalizing k with
  | nil => rw [List.take_nil]; rfl
  | @cons shape chunk shapes chunks hhead _ ih =>
    cases k with
    | zero => rfl
    | succ k =>
      have hstay : messagePrint (cString chunk) text = text := by
        rw [messagePrint_of hhead]
        by_cases hpos : 0 < shape.strlen
        · rw [if_neg (h shape List.mem_cons_self hpos)]
        · have hempty : cString chunk = [] := by
            rw [← List.length_eq_zero_iff, hhead.2]
            omega
          rw [hempty, List.append_nil, ite_self]
      rw [List.take_succ_cons, printed_cons, hstay]
      exact ih (fun s hs => h s (List.mem_cons_of_mem _ hs)) k

theorem printed_prefixes {text : Bytes} {shapes : List ChunkShape} {chunks : List Bytes}
    (hof : List.Forall₂ ChunkShape.Of shapes chunks) (h : NoneFitsLater text.length shapes)
    (k : Nat) : printed text (chunks.take k) <+: text ++ (chunks.take k).flatten := by
  induction hof generalizing text k with
  | nil =>
    rw [List.take_nil]
    exact List.prefix_append text _
  | @cons shape chunk shapes chunks hhead htail ih =>
    cases k with
    | zero => exact List.prefix_append text _
    | succ k =>
      rw [List.take_succ_cons, printed_cons, List.flatten_cons, ← List.append_assoc]
      rw [NoneFitsLater] at h
      by_cases hwhole : shape.Whole text.length
      · have hstep : messagePrint (cString chunk) text = text ++ chunk := by
          rw [messagePrint_of hhead, if_pos hwhole.2, cString_whole hhead hwhole.1]
        rw [if_pos hwhole, ← hhead.1, ← List.length_append] at h
        rw [hstep]
        exact ih h k
      · rw [if_neg hwhole, ← length_messagePrint_of hhead] at h
        rw [printed_none htail h]
        exact (prefix_of_messagePrint chunk text).trans (List.prefix_append _ _)

/-- The first of the later texts that fits is put behind the text. -/
theorem printed_later {text : Bytes} {shapes : List ChunkShape}
    (h : ∃ shape ∈ shapes, 0 < shape.strlen ∧ shape.Fits text.length) :
    ∃ k ≤ shapes.length,
      text ++ [98] <+: printed text ((shapes.map (ChunkShape.fill 98)).take k) := by
  induction shapes with
  | nil =>
    obtain ⟨shape, hmem, _⟩ := h
    cases hmem
  | cons shape shapes ih =>
    obtain ⟨hof, hstring⟩ := fill_of (c := 98) (by decide) shape
    by_cases hhere : 0 < shape.strlen ∧ shape.Fits text.length
    · refine ⟨1, by simp, ?_⟩
      have hpos : shape.strlen = (shape.strlen - 1) + 1 := by omega
      show text ++ [98] <+: messagePrint (cString (shape.fill 98)) text
      rw [messagePrint_of hof, if_pos hhere.2, hstring, hpos, List.replicate_succ]
      exact (List.prefix_append_right_inj text).mpr (List.prefix_append [98] _)
    · have hstay : messagePrint (cString (shape.fill 98)) text = text := by
        rw [messagePrint_of hof, hstring]
        by_cases hfits : shape.Fits text.length
        · have hzero : shape.strlen = 0 := by
            by_contra hne
            exact hhere ⟨Nat.pos_of_ne_zero hne, hfits⟩
          rw [hzero, List.replicate_zero, List.append_nil, ite_self]
        · rw [if_neg hfits]
      have hlater : ∃ shape ∈ shapes, 0 < shape.strlen ∧ shape.Fits text.length := by
        obtain ⟨later, hmem, hlater⟩ := h
        rcases List.mem_cons.mp hmem with rfl | hmem
        · exact absurd hlater hhere
        · exact ⟨later, hmem, hlater⟩
      obtain ⟨k, hk, hprefix⟩ := ih hlater
      refine ⟨k + 1, by simp [hk], ?_⟩
      rw [List.map_cons, List.take_succ_cons, printed_cons, hstay]
      exact hprefix

/-- Behind a message that is not stored as a whole, the stream does not go on with a `b`. -/
theorem fill_mismatch {text : Bytes} {shape : ChunkShape} (h : ¬shape.Whole text.length)
    (hsize : text.length < RSYSTEM_BUFFER_SIZE) :
    ∃ c, c ≠ 98 ∧
      messagePrint (cString (shape.fill 97)) text ++ [c] <+: text ++ shape.fill 97 := by
  obtain ⟨hof, hstring⟩ := fill_of (c := 97) (by decide) shape
  have hle := shape.le
  rw [messagePrint_of hof, hstring]
  by_cases hfits : shape.Fits text.length
  · have hlt : shape.length - shape.strlen = (shape.length - shape.strlen - 1) + 1 := by
      have hne : shape.strlen ≠ shape.length := fun heq => h ⟨heq, hfits⟩
      omega
    refine ⟨0, by decide, ?_⟩
    rw [if_pos hfits, ChunkShape.fill, hlt, List.replicate_succ, List.append_assoc]
    apply (List.prefix_append_right_inj text).mpr
    apply (List.prefix_append_right_inj _).mpr
    exact List.prefix_append [0] _
  · have hpos : shape.strlen = (shape.strlen - 1) + 1 := by
      unfold ChunkShape.Fits at hfits
      omega
    refine ⟨97, by decide, ?_⟩
    rw [if_neg hfits, ChunkShape.fill, hpos, List.replicate_succ, List.cons_append]
    exact (List.prefix_append_right_inj text).mpr (List.prefix_append [97] _)

theorem exists_not_prefixes {text : Bytes} {shapes : List ChunkShape}
    (h : ¬NoneFitsLater text.length shapes) (hsize : text.length < RSYSTEM_BUFFER_SIZE) :
    ∃ chunks, List.Forall₂ ChunkShape.Of shapes chunks ∧
      ∃ k ≤ shapes.length, ¬printed text (chunks.take k) <+: text ++ (chunks.take k).flatten := by
  induction shapes generalizing text with
  | nil => exact absurd trivial h
  | cons shape shapes ih =>
    obtain ⟨hof, hstring⟩ := fill_of (c := 97) (by decide) shape
    rw [NoneFitsLater] at h
    by_cases hwhole : shape.Whole text.length
    · have hstep : messagePrint (cString (shape.fill 97)) text = text ++ shape.fill 97 := by
        rw [messagePrint_of hof, if_pos hwhole.2, cString_whole hof hwhole.1]
      have hlen : (text ++ shape.fill 97).length = text.length + shape.length := by
        rw [List.length_append, hof.1]
      rw [if_pos hwhole, ← hlen] at h
      have hroom : (text ++ shape.fill 97).length < RSYSTEM_BUFFER_SIZE := by
        have hfits := hwhole.2
        unfold ChunkShape.Fits at hfits
        rw [hlen, ← hwhole.1]
        omega
      obtain ⟨chunks, hall, k, hk, hnot⟩ := ih h hroom
      refine ⟨shape.fill 97 :: chunks, .cons hof hall, k + 1, by simp [hk], ?_⟩
      rw [List.take_succ_cons, printed_cons, hstep, List.flatten_cons, ← List.append_assoc]
      exact hnot
    · rw [if_neg hwhole] at h
      push Not at h
      rw [← length_messagePrint_of hof] at h
      obtain ⟨k, hk, hlater⟩ := printed_later h
      obtain ⟨c, hc, hstream⟩ := fill_mismatch hwhole hsize
      refine ⟨shape.fill 97 :: shapes.map (ChunkShape.fill 98), .cons hof ?_, k + 1,
        by simp [hk], ?_⟩
      · rw [List.forall₂_map_right_iff, List.forall₂_same]
        exact fun later _ => (fill_of (by decide) later).1
      · rw [List.take_succ_cons, printed_cons, List.flatten_cons, ← List.append_assoc]
        intro hprefix
        -- the text goes on with a `b`, and the stream with another character
        have hb := hlater.trans hprefix
        have hother := hstream.trans (List.prefix_append _
          ((shapes.map (ChunkShape.fill 98)).take k).flatten)
        have heq := List.prefix_of_prefix_length_le hb hother (by simp)
        have := List.append_cancel_left (heq.eq_of_length (by simp))
        exact hc (List.cons.inj this).1.symm

end Shapes

/-- The buffer is right after each message, whatever the messages of these lengths hold, exactly
if no text but the empty one fits behind the first message that was not stored as a whole. -/
theorem buffered_iff (aRsysBuf : RsysBuf) (shapes : List ChunkShape) :
    (∀ chunks, List.Forall₂ ChunkShape.Of shapes chunks → Buffered aRsysBuf chunks) ↔
      NoneFitsLater 0 shapes := by
  constructor
  · intro h
    by_contra hnot
    obtain ⟨chunks, hof, k, hk, hprefix⟩ :=
      @exists_not_prefixes [] shapes hnot (by decide)
    have hlen := hof.length_eq
    exact hprefix ((buffered_iff_prefixes aRsysBuf chunks).mp (h chunks hof) k (by omega))
  · intro h chunks hof
    rw [buffered_iff_prefixes]
    intro k _
    exact @printed_prefixes [] shapes chunks hof h k

/-- What a message of 1024 characters does to a text of full messages. -/
theorem messagePrint_full {n : Nat} :
    messagePrint (cString (List.replicate 1024 97)) (List.replicate (1024 * n) 97) =
      if n < 31 then List.replicate (1024 * (n + 1)) 97 else List.replicate (1024 * n) 97 := by
  have hclean : cString (List.replicate 1024 97) = List.replicate 1024 97 := by
    refine List.takeWhile_eq_self_iff.mpr fun c hc => ?_
    rw [List.eq_of_mem_replicate hc]
    rfl
  rw [hclean, messagePrint, List.length_replicate, List.length_replicate,
    List.replicate_append_replicate, ← Nat.mul_succ]
  refine if_congr ?_ rfl rfl
  unfold RSYSTEM_BUFFER_SIZE
  omega

theorem printed_full {n : Nat} (hn : n ≤ 31) :
    printed [] (List.replicate n (List.replicate 1024 97)) = List.replicate (1024 * n) 97 := by
  induction n with
  | zero => rfl
  | succ n ih =>
    rw [List.replicate_succ', printed_append, ih (by omega), printed_cons, messagePrint_full,
      if_pos (by omega)]
    rfl

/-- Messages of 1024 characters, and a short one. -/
def longOutput : List Bytes :=
  List.replicate 31 (List.replicate 1024 97) ++ [List.replicate 1024 97, [98]]

theorem printed_longOutput : printed [] longOutput = List.replicate (1024 * 31) 97 ++ [98] := by
  have hshort : cString [98] = [98] := by decide
  rw [longOutput, printed_append, printed_full (le_refl 31), printed_cons, messagePrint_full,
    if_neg (lt_irrefl 31), printed_cons, hshort, messagePrint, List.length_replicate,
    if_pos (by decide), printed_nil]

theorem flatten_longOutput :
    longOutput.flatten = List.replicate (1024 * 31) 97 ++ 97 :: (List.replicate 1023 97 ++ [98]) := by
  have hsplit : List.replicate 1024 (97 : UInt8) = 97 :: List.replicate 1023 97 :=
    List.replicate_succ
  rw [longOutput, List.flatten_append, List.flatten_replicate_replicate, Nat.mul_comm 31,
    List.flatten_cons, List.flatten_cons, List.flatten_nil, List.append_nil, hsplit,
    List.cons_append]

/-- The last of the full messages does not fit, and the short one behind it does. -/
theorem late_message_stored :
    ¬∀ (aRsysBuf : RsysBuf) (chunks : List Bytes), Buffered aRsysBuf chunks := by
  intro h
  have hlen : longOutput.length = 33 := by
    rw [longOutput, List.length_append, List.length_replicate]
    rfl
  have hbuffered := h ⟨0, List.replicate RSYSTEM_BUFFER_SIZE 0, List.length_replicate⟩ longOutput
  rw [buffered_iff_prefixes] at hbuffered
  have hprefix := hbuffered 33 (le_of_eq hlen.symm)
  rw [List.take_of_length_le (le_of_eq hlen), printed_longOutput, flatten_longOutput,
    List.prefix_append_right_inj, List.cons_prefix_cons] at hprefix
  exact absurd hprefix.1 (by decide)

end Natc.Agent
