import Natc.Lib.Text

/-!
# Code pages

A text is encoded character by character. A decoder gives back the text of every whole encoding;
what it makes of other bytes is left open. A file that is decoded in blocks gives back its text,
whatever the decoder, exactly when no character lies across the end of a block.
-/

namespace Natc.Lib

structure CodePage where
  encodeChar : Char → List UInt8
  /-- Only a NUL has a zero byte. -/
  nul : ∀ c, 0 ∈ encodeChar c → c = '\x00'

namespace CodePage

def encode (page : CodePage) (t : Text) : List UInt8 := t.flatMap page.encodeChar

structure Decoder (page : CodePage) where
  decode : List UInt8 → Text
  decode_encode : ∀ t, decode (page.encode t) = t

variable {page : CodePage}

/-- A decoder that makes `filler` of everything that is not a whole encoding. -/
def Decoder.strict (dec : page.Decoder) (filler : Text) : page.Decoder where
  decode bs := if page.encode (dec.decode bs) = bs then dec.decode bs else filler
  decode_encode t := by rw [dec.decode_encode, if_pos rfl]

theorem encode_append (s t : Text) : page.encode (s ++ t) = page.encode s ++ page.encode t :=
  List.flatMap_append

theorem nul_notMem_encode {t : Text} (h : '\x00' ∉ t) : (0 : UInt8) ∉ page.encode t := by
  intro hmem
  obtain ⟨c, hc, hzero⟩ := List.mem_flatMap.mp hmem
  exact h (page.nul c hzero ▸ hc)

end CodePage

/-- The blocks of at most `n` bytes that are read up to the end of a file; `fuel` bounds their
number. -/
def readBlocks (n : Nat) : Nat → List UInt8 → List (List UInt8)
  | 0, _ => []
  | fuel + 1, bs => if bs.isEmpty then [] else bs.take n :: readBlocks n fuel (bs.drop n)

def blocks (n : Nat) (file : List UInt8) : List (List UInt8) := readBlocks n file.length file

theorem flatten_readBlocks {n fuel : Nat} (hn : 0 < n) {bs : List UInt8} (h : bs.length ≤ fuel) :
    (readBlocks n fuel bs).flatten = bs := by
  induction fuel generalizing bs with
  | zero =>
    rw [List.eq_nil_of_length_eq_zero (Nat.le_zero.mp h)]
    rfl
  | succ fuel ih =>
    rw [readBlocks]
    split
    · rename_i hempty
      rw [List.isEmpty_iff.mp hempty]
      rfl
    · have hrest : (bs.drop n).length ≤ fuel := by
        rw [List.length_drop]
        omega
      rw [List.flatten_cons, ih hrest, List.take_append_drop]

theorem flatten_blocks {n : Nat} (hn : 0 < n) (file : List UInt8) : (blocks n file).flatten = file :=
  flatten_readBlocks hn (Nat.le_refl _)

/-- The first block of a file. -/
theorem take_mem_blocks {n : Nat} {file : List UInt8} (h : file ≠ []) : file.take n ∈ blocks n file := by
  obtain ⟨b, bs, rfl⟩ := List.exists_cons_of_ne_nil h
  rw [blocks, List.length_cons, readBlocks, if_neg (by simp)]
  exact List.mem_cons_self

namespace CodePage

variable {page : CodePage} {n : Nat} {t : Text}

/-- Every block is decoded on its own. -/
def Decoder.decodeBlocks (dec : page.Decoder) (n : Nat) (file : List UInt8) : Text :=
  (blocks n file).flatMap dec.decode

/-- Every block of the encoded text is a whole encoding itself. -/
def WholeBlocks (page : CodePage) (n : Nat) (t : Text) : Prop :=
  ∀ b ∈ blocks n (page.encode t), ∃ part, page.encode part = b

/-- A text that fits one block. -/
theorem wholeBlocks_of_fit (h : (page.encode t).length ≤ n) : page.WholeBlocks n t := by
  intro b hb
  cases hfile : page.encode t with
  | nil =>
    rw [hfile] at hb
    cases hb
  | cons x bs =>
    have hrest : ∀ fuel, readBlocks n fuel [] = [] := by
      intro fuel
      cases fuel <;> rfl
    rw [blocks, hfile, List.length_cons, readBlocks, ← hfile, List.take_of_length_le h,
      List.drop_of_length_le h, hrest, hfile] at hb
    exact ⟨t, hfile.trans (List.mem_singleton.mp hb).symm⟩

/-- Whole blocks are decoded as the text they are part of. -/
theorem decodeBlocks_of_whole (dec : page.Decoder) (hn : 0 < n) (h : page.WholeBlocks n t) :
    dec.decodeBlocks n (page.encode t) = t := by
  have hparts : ∀ bs : List (List UInt8), (∀ b ∈ bs, ∃ part, page.encode part = b) →
      page.encode (bs.flatMap dec.decode) = bs.flatten := by
    intro bs hbs
    induction bs with
    | nil => rfl
    | cons b bs ih =>
      obtain ⟨⟨part, rfl⟩, hrest⟩ := List.forall_mem_cons.mp hbs
      rw [List.flatMap_cons, encode_append, dec.decode_encode, ih hrest, List.flatten_cons]
  have hfile : page.encode (dec.decodeBlocks n (page.encode t)) = page.encode t := by
    rw [Decoder.decodeBlocks, hparts _ h, flatten_blocks hn]
  calc dec.decodeBlocks n (page.encode t)
      = dec.decode (page.encode (dec.decodeBlocks n (page.encode t))) :=
        (dec.decode_encode _).symm
    _ = dec.decode (page.encode t) := by rw [hfile]
    _ = t := dec.decode_encode t

/-- A decoder for which other bytes become too long a text. -/
private theorem whole_of_strict (dec : page.Decoder) {filler : Text} (hlong : t.length < filler.length)
    (h : (dec.strict filler).decodeBlocks n (page.encode t) = t) : page.WholeBlocks n t := by
  intro b hb
  by_cases hwhole : page.encode (dec.decode b) = b
  · exact ⟨dec.decode b, hwhole⟩
  have hfiller : (dec.strict filler).decode b = filler := if_neg hwhole
  have hsub := List.sublist_flatten_of_mem (List.mem_map_of_mem (f := (dec.strict filler).decode) hb)
  rw [hfiller, ← List.flatMap_def] at hsub
  have hle := hsub.length_le
  rw [show (blocks n (page.encode t)).flatMap (dec.strict filler).decode = t from h] at hle
  omega

/-- A file of a text is decoded as this text, whatever a decoder makes of other bytes, if and only
if its blocks are whole. -/
theorem decodeBlocks_iff (dec : page.Decoder) (hn : 0 < n) :
    (∀ dec' : page.Decoder, dec'.decodeBlocks n (page.encode t) = t) ↔ page.WholeBlocks n t := by
  constructor
  · intro h
    refine whole_of_strict dec ?_ (h (dec.strict (List.replicate (t.length + 1) ' ')))
    rw [List.length_replicate]
    exact Nat.lt_succ_self _
  · exact fun h dec' => decodeBlocks_of_whole dec' hn h

end CodePage

private theorem utf8_nul (c : Char) (h : 0 ∈ String.utf8EncodeChar c) : c = '\x00' := by
  have hzero : ∀ v : Nat, 0 = UInt8.ofNat v → v % 256 = 0 := by
    intro v hv
    have htoNat := congrArg UInt8.toNat hv
    simpa using htoNat.symm
  have hval : c.val.toNat = 0 := by
    unfold String.utf8EncodeChar at h
    dsimp only at h
    split at h
    · have h := hzero _ (List.mem_singleton.mp h)
      omega
    -- every byte of a longer form has its highest bit set
    split at h
    · simp only [List.mem_cons, List.not_mem_nil, or_false] at h
      rcases h with h | h <;> have h := hzero _ h <;> omega
    split at h
    · simp only [List.mem_cons, List.not_mem_nil, or_false] at h
      rcases h with h | h | h <;> have h := hzero _ h <;> omega
    · simp only [List.mem_cons, List.not_mem_nil, or_false] at h
      rcases h with h | h | h | h <;> have h := hzero _ h <;> omega
  exact Char.ext (UInt32.toNat_inj.mp hval)

/-- UTF-8. -/
def utf8 : CodePage where
  encodeChar := String.utf8EncodeChar
  nul := utf8_nul

/-- Characters of one byte. -/
theorem length_utf8 {t : Text} (h : ∀ c ∈ t, c.utf8Size = 1) : (utf8.encode t).length = t.length := by
  have hone : ∀ c ∈ t, (String.utf8EncodeChar c).length = 1 := fun c hc =>
    (String.length_utf8EncodeChar c).trans (h c hc)
  show (t.flatMap String.utf8EncodeChar).length = t.length
  rw [List.length_flatMap, List.map_congr_left hone]
  simp

theorem toByteArray_utf8 (t : Text) : (utf8.encode t).toByteArray = t.utf8Encode := by
  rw [List.utf8Encode]
  rfl

/-- A decoder of UTF-8 that reads nothing of bytes that are not UTF-8. -/
def utf8Decoder : utf8.Decoder where
  decode bs := (bs.toByteArray.utf8Decode?.getD #[]).toList
  decode_encode t := by
    rw [toByteArray_utf8, List.utf8Decode?_utf8Encode]
    rfl

/-- What is encoded by the first bytes of a text is the beginning of the text. -/
theorem prefix_of_utf8 {s t : Text} {rest : List UInt8}
    (h : utf8.encode s ++ rest = utf8.encode t) : s <+: t := by
  have hbytes := congrArg List.toByteArray h
  rw [List.toByteArray_append, toByteArray_utf8, toByteArray_utf8] at hbytes
  exact List.isPrefix_of_utf8Encode_append_eq_utf8Encode _ hbytes

end Natc.Lib
