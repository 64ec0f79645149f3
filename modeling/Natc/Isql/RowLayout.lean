import Mathlib.Data.List.GetD
import Natc.Isql.Display

/-!
# Widths of columns and lines

Every column appends a block of a fixed width to the line, so that the places of the columns and
the widths of the lines can be found without the texts.
-/

namespace Natc.Isql.Display

/-! ## Lines -/

namespace Line

variable {len n pos : Nat} {t s : Bytes} {c : UInt8}

/-- A line that has been written from its begin. -/
def of (len : Nat) (t : Bytes) : Line :=
  ⟨t, t.length ≤ len⟩

theorem new_eq : new = of len [] := by
  rw [new, of, List.length_nil, decide_eq_true (Nat.zero_le len)]

theorem write_of : (of len t).write len c = of len (t ++ [c]) := by
  rw [write, of, of, List.length_append, List.length_singleton]
  congr 1
  rw [← Bool.decide_and]
  exact decide_eq_decide.mpr ⟨fun h => h.2, fun h => ⟨Nat.le_of_succ_le h, h⟩⟩

theorem writes_of : (of len t).writes len s = of len (t ++ s) := by
  rw [writes]
  induction s generalizing t with
  | nil => rw [List.foldl_nil, List.append_nil]
  | cons c s ih => rw [List.foldl_cons, write_of, ih, List.append_assoc, List.singleton_append]

theorem touch_writes (hs : s ≠ []) : ((of len t).touch len).writes len s = of len (t ++ s) := by
  obtain ⟨c, s, rfl⟩ := List.exists_cons_of_ne_nil hs
  have hwrite : ((of len t).touch len).write len c = (of len t).write len c := by
    rw [touch, write, write, of, Bool.and_assoc, Bool.and_self]
  rw [writes, List.foldl_cons, hwrite, ← List.foldl_cons, ← writes, writes_of]

/-- The line and its NUL lie in the buffer if there is room for two more characters. -/
theorem finish_inside : ((of len t).finish len).inside = decide (t.length + 2 ≤ len) := by
  rw [finish, write_of, touch, of]
  simp only [List.length_append, List.length_singleton]
  rw [← Bool.decide_and]
  exact decide_eq_decide.mpr ⟨fun h => h.2, fun h => ⟨by omega, h⟩⟩

theorem readLast_of (ht : t ≠ []) : (of len t).readLast = of len t := by
  rw [readLast, of, decide_eq_true ht, Bool.and_true]

end Line

open Line

theorem padded_length (n : Nat) (s : Bytes) : (padded n s).length = max n s.length := by
  rw [padded, List.length_append, List.length_replicate]
  omega

/-! ## Loops -/

section loops

variable {len n pos : Nat} {t value : Bytes}

theorem plainLoop_eq : plainLoop len value n pos (of len t) =
    (pos + min n (value.length - pos), of len (t ++ padded n ((value.drop pos).take n))) := by
  induction n generalizing pos t with
  | zero => simp [plainLoop, padded]
  | succ n ih =>
    rw [plainLoop]
    split
    · next hpos =>
      rw [write_of, ih, List.drop_eq_getElem_cons hpos, List.take_succ_cons,
        List.getD_eq_getElem _ _ hpos]
      refine Prod.ext (by dsimp only; omega) ?_
      simp only [padded, List.append_assoc, List.cons_append, List.nil_append, List.length_cons,
        Nat.add_sub_add_right]
    · next hpos =>
      have hdrop : value.drop pos = [] := List.drop_eq_nil_of_le (Nat.le_of_not_lt hpos)
      rw [write_of, ih, hdrop]
      refine Prod.ext (by dsimp only; omega) ?_
      simp only [padded, List.take_nil, List.nil_append, List.length_nil, Nat.sub_zero,
        List.append_assoc, List.singleton_append, List.replicate_succ]

/-- All but the last character of a piece are written as for a value that is cut off. -/
theorem textLoop_eq {l : Line} : textLoop len value (n + 1) pos l =
    textLoop len value 1 (plainLoop len value n pos l).1 (plainLoop len value n pos l).2 := by
  induction n generalizing pos l with
  | zero => rfl
  | succ n ih =>
    rw [textLoop, plainLoop]
    split
    · rw [if_neg (Nat.succ_ne_zero n), ih]
    · rw [ih]

/-- How many characters of a value are printed in a pass. -/
def moved (size pos : Nat) (value : Bytes) : Nat :=
  if pos + size < value.length ∧ 128 ≤ value.getD (pos + size - 1) 0 then size + 1
  else min size (value.length - pos)

theorem getLast?_drop_take (hn : 0 < n) (h : pos + n ≤ value.length) :
    ((value.drop pos).take n).getLast? = some (value.getD (pos + n - 1) 0) := by
  have hlength : ((value.drop pos).take n).length = n := by
    rw [List.length_take, List.length_drop]
    omega
  rw [List.getLast?_eq_getElem?, hlength, List.getElem?_take_of_lt (Nat.sub_lt hn Nat.one_pos),
    List.getElem?_drop, ← Nat.add_sub_assoc hn, List.getD_eq_getElem?_getD,
    List.getElem?_eq_getElem (show pos + n - 1 < value.length by omega), Option.getD_some]

theorem padded_succ {s : Bytes} (h : s.length ≤ n) : padded n s ++ [space] = padded (n + 1) s := by
  rw [padded, padded, List.append_assoc, ← List.replicate_succ', ← Nat.sub_add_comm h]

theorem padded_of_length {s : Bytes} (h : s.length = n) : padded n s = s := by
  rw [padded, h, Nat.sub_self, List.replicate_zero, List.append_nil]

/-- The value ends in the piece. -/
theorem textLoop_end (h : value.length ≤ pos + n) :
    textLoop len value (n + 1) pos (of len t) = (pos + min n (value.length - pos),
      of len (t ++ padded (n + 1) ((value.drop pos).take n))) := by
  have hshort : ((value.drop pos).take n).length ≤ n := by
    rw [List.length_take]
    exact Nat.min_le_left _ _
  rw [textLoop_eq, plainLoop_eq, textLoop, if_neg (by dsimp only; omega), textLoop, write_of,
    List.append_assoc, padded_succ hshort]

/-- The value goes on behind the piece. -/
theorem textLoop_more (hn : 0 < n) (h : pos + n < value.length) :
    textLoop len value (n + 1) pos (of len t) =
      if value.getD (pos + n - 1) 0 < 128 then
        (pos + n, of len (t ++ padded (n + 1) ((value.drop pos).take n)))
      else (pos + (n + 1), of len (t ++ padded (n + 1) ((value.drop pos).take (n + 1)))) := by
  have hmin : min n (value.length - pos) = n := by omega
  have hlength : ((value.drop pos).take n).length = n := by
    rw [List.length_take, List.length_drop, hmin]
  have hne : t ++ (value.drop pos).take n ≠ [] := by
    intro hnil
    rw [(List.append_eq_nil_iff.mp hnil).2, List.length_nil] at hlength
    exact absurd hlength.symm hn.ne'
  have hlast : (of len (t ++ (value.drop pos).take n)).last = value.getD (pos + n - 1) 0 := by
    rw [last, of, List.getLast?_append, getLast?_drop_take hn h.le, Option.some_or,
      Option.getD_some]
  have hnext : (value.drop pos).take (n + 1) =
      (value.drop pos).take n ++ [value.getD (pos + n) 0] := by
    rw [List.take_add_one, List.getElem?_drop, List.getElem?_eq_getElem h,
      List.getD_eq_getElem _ _ h]
    rfl
  have hfull : ((value.drop pos).take (n + 1)).length = n + 1 := by
    rw [hnext, List.length_append, hlength, List.length_singleton]
  rw [textLoop_eq, plainLoop_eq, hmin, padded_of_length hlength, textLoop, if_pos h, if_pos rfl,
    hlast, readLast_of hne]
  split
  · rw [write_of, List.append_assoc, ← padded_succ hlength.le, padded_of_length hlength]
  · rw [write_of, List.append_assoc, padded_of_length hfull, hnext, Nat.add_assoc]

/-- The loop for a piece. -/
theorem textLoop_of (h : 0 < n ∨ value.length ≤ pos) :
    textLoop len value (n + 1) pos (of len t) = (pos + moved n pos value,
      of len (t ++ padded (n + 1) ((value.drop pos).take (moved n pos value)))) := by
  by_cases hend : value.length ≤ pos + n
  · have htake : (value.drop pos).take (min n (value.length - pos)) = (value.drop pos).take n := by
      rw [List.take_eq_take_iff, List.length_drop]
      omega
    rw [textLoop_end hend, moved, if_neg fun hmore => absurd hmore.1 (Nat.not_lt_of_le hend), htake]
  · have hmore := Nat.lt_of_not_le hend
    have hn : 0 < n := h.resolve_right fun hle => hend (hle.trans (Nat.le_add_right pos n))
    rw [textLoop_more hn hmore, moved]
    by_cases hbyte : value.getD (pos + n - 1) 0 < 128
    · have hmin : min n (value.length - pos) = n := by omega
      rw [if_pos hbyte, if_neg fun hall => absurd hbyte (UInt8.not_lt.mpr hall.2), hmin]
    · rw [if_neg hbyte, if_pos ⟨hmore, UInt8.not_lt.mp hbyte⟩]

theorem moved_le : moved n pos value ≤ n + 1 := by
  rw [moved]
  split <;> omega

theorem length_piece :
    ((value.drop pos).take (moved n pos value)).length = moved n pos value := by
  rw [List.length_take, List.length_drop, moved]
  split <;> omega

theorem take_piece {s : Bytes} : (padded n s ++ [space]).take s.length = s := by
  rw [padded, List.append_assoc, List.take_left]

end loops

/-! ## Columns -/

namespace Field

variable (f : Field) (pos : Nat)

def moved : Nat :=
  Display.moved f.size pos f.text

/-- `nDisplayPos` behind a pass. -/
def next : Option Nat :=
  if f.m_Type.isText ∧ pos + f.moved pos < f.text.length then some (pos + f.moved pos) else none

/-- The width of a number and the blanks behind it. -/
def numberWidth (width : Nat) : Nat :=
  match f.number with
  | none => f.size + 1
  | some sTmp => max width sTmp.length + if width < f.size then f.size - width + 1 else 1

/-- The width of the column in a pass in which it is not finished. -/
def width : Nat :=
  match f.m_Type with
  | .char | .bytes | .nibble | .varchar => f.size + 2
  | .double => f.numberWidth 22
  | .real => f.numberWidth 13
  | .numeric | .decimal | .smallint | .integer | .bigint | .float | .typeDate | .date
  | .nativeTimestamp | .interval => f.size + 1
  | .null => 1

/-- The width of the column in a pass in which it is finished. -/
def padding : Nat :=
  (if f.m_Type.isPlain then f.size else f.size + 1) + 1

/-- A value is empty where its column has no width. -/
def Sized : Prop :=
  f.m_Type.isText → 0 < f.size ∨ f.text = []

variable {f}

theorem width_text (h : f.m_Type.isText = true) : f.width = f.size + 2 := by
  cases hm : f.m_Type <;> rw [hm] at h <;> first | (simp only [width, hm]; done) | cases h

theorem width_plain (h : f.m_Type.isPlain = true) : f.width = f.size + 1 := by
  cases hm : f.m_Type <;> rw [hm] at h <;> first | (simp only [width, hm]; done) | cases h

end Field

/-- What `showField` does to a line that has been written from its begin. -/
structure Shows (len : Nat) (f : Field) (pos : Nat) (t s : Bytes) : Prop where
  width : s.length = f.width
  next : (showField len f pos (of len t)).1 = f.next pos
  line : (showField len f pos (of len t)).2.2 = of len (t ++ s)
  piece : f.m_Type.isText → s.take (showField len f pos (of len t)).2.1 =
    (f.text.drop pos).take (f.moved pos)
  moved : f.m_Type.isText → (showField len f pos (of len t)).2.1 = f.moved pos

section column

variable {len pos : Nat} {t : Bytes} {f : Field}

theorem printNumber_of (width : Nat) : ∃ s : Bytes, s.length = f.numberWidth width ∧
    printNumber len width f (of len t) = of len (t ++ s) := by
  rw [printNumber, Field.numberWidth]
  cases f.number with
  | none => exact ⟨_, List.length_replicate, writes_of⟩
  | some sTmp =>
    simp only [writes_of]
    split
    · refine ⟨padded width sTmp ++ List.replicate (f.size - width + 1) space, ?_, ?_⟩
      · rw [List.length_append, padded_length, List.length_replicate]
      · rw [touch_writes (by simp), List.append_assoc]
    · refine ⟨padded width sTmp ++ [space], ?_, ?_⟩
      · rw [List.length_append, padded_length, List.length_singleton]
      · rw [← List.append_assoc]
        exact touch_writes (List.cons_ne_nil space [])

/-- The kinds of types that the display knows. -/
theorem SqlType.kinds (m : SqlType) :
    m.isText = true ∨ m.isPlain = true ∨ m = .double ∨ m = .real ∨ m = .null := by
  cases m <;> decide

theorem SqlType.not_isText_of_isPlain {m : SqlType} (h : m.isPlain = true) : m.isText = false := by
  cases m <;> first | rfl | cases h

theorem showField_text (htype : f.m_Type.isText) (h : f.Sized) :
    ∃ s, Shows len f pos t s := by
  have hsize : 0 < f.size ∨ f.text.length ≤ pos := by
    rcases h htype with hpos | hnil
    · exact Or.inl hpos
    · exact Or.inr (hnil ▸ Nat.zero_le pos)
  have hshow : showField len f pos (of len t) =
      (f.next pos, f.moved pos, of len (t ++
        (padded (f.size + 1) ((f.text.drop pos).take (f.moved pos)) ++ [space]))) := by
    have htext : showField len f pos (of len t) =
        let r := textLoop len f.text (f.size + 1) pos (of len t)
        (if r.1 < f.text.length then some r.1 else none, r.1 - pos, r.2.write len space) := by
      cases hm : f.m_Type <;> rw [hm] at htype <;>
        first | (simp only [showField, hm]; done) | cases htype
    rw [htext, textLoop_of hsize]
    simp only [write_of, Nat.add_sub_cancel_left, List.append_assoc, Field.next, htype, true_and]
    rfl
  have hlength : ((f.text.drop pos).take (f.moved pos)).length = f.moved pos := length_piece
  refine ⟨padded (f.size + 1) ((f.text.drop pos).take (f.moved pos)) ++ [space], ?_, ?_, ?_, ?_, ?_⟩
  · have hle : f.moved pos ≤ f.size + 1 := moved_le
    rw [Field.width_text htype, List.length_append, padded_length, hlength, List.length_singleton,
      max_eq_left hle]
  · rw [hshow]
  · rw [hshow]
  · intro _
    have htake := @take_piece (f.size + 1) ((f.text.drop pos).take (f.moved pos))
    rw [hlength] at htake
    rw [hshow]
    exact htake
  · exact fun _ => by rw [hshow]

theorem showField_plain (hplain : f.m_Type.isPlain = true) :
    showField len f pos (of len t) =
      (none, (plainLoop len f.text f.size pos (of len t)).1 - pos,
        (plainLoop len f.text f.size pos (of len t)).2.write len space) := by
  cases hm : f.m_Type <;> rw [hm] at hplain <;>
    first | (simp only [showField, hm]; done) | cases hplain

/-- A column that is finished behind its first pass. -/
theorem shows_other {s : Bytes} (htype : ¬f.m_Type.isText = true) (hwidth : s.length = f.width)
    (hnext : (showField len f pos (of len t)).1 = none)
    (hline : (showField len f pos (of len t)).2.2 = of len (t ++ s)) : Shows len f pos t s := by
  have hnone : f.next pos = none := by
    rw [Field.next, if_neg fun hall => htype hall.1]
  exact ⟨hwidth, hnext.trans hnone.symm, hline, fun ht => absurd ht htype,
    fun ht => absurd ht htype⟩

theorem showField_of (h : f.Sized) : ∃ s, Shows len f pos t s := by
  rcases f.m_Type.kinds with htext | hplain | hm | hm | hm
  · exact showField_text htext h
  · have hle : ((f.text.drop pos).take f.size).length ≤ f.size := by
      rw [List.length_take]
      exact Nat.min_le_left _ _
    have htype : ¬f.m_Type.isText = true := by
      rw [SqlType.not_isText_of_isPlain hplain]
      exact Bool.false_ne_true
    refine ⟨padded f.size ((f.text.drop pos).take f.size) ++ [space], shows_other htype ?_ ?_ ?_⟩
    · rw [Field.width_plain hplain, List.length_append, padded_length, List.length_singleton,
        max_eq_left hle]
    · rw [showField_plain hplain]
    · rw [showField_plain hplain, plainLoop_eq, write_of, List.append_assoc]
  · obtain ⟨s, hlength, hline⟩ := @printNumber_of len t f 22
    refine ⟨s, shows_other (by rw [hm]; decide) ?_ ?_ ?_⟩
    · simp only [Field.width, hm, hlength]
    · simp only [showField, hm]
    · simp only [showField, hm, hline]
  · obtain ⟨s, hlength, hline⟩ := @printNumber_of len t f 13
    refine ⟨s, shows_other (by rw [hm]; decide) ?_ ?_ ?_⟩
    · simp only [Field.width, hm, hlength]
    · simp only [showField, hm]
    · simp only [showField, hm, hline]
  · refine ⟨[space], shows_other (by rw [hm]; decide) ?_ ?_ ?_⟩
    · simp only [Field.width, hm, List.length_singleton]
    · simp only [showField, hm]
    · simp only [showField, hm, write_of]

theorem padField_of : padField len f (of len t) =
    of len (t ++ List.replicate f.padding space) := by
  rw [padField, writes_of, write_of, List.append_assoc, ← List.replicate_succ']
  rfl

end column

/-! ## Passes -/

/-- The places of the columns that a pass shows (the line and the offset), and the widths of its
lines. -/
structure Layout where
  places : List (Option (Nat × Nat))
  widths : List Nat
  deriving DecidableEq, Repr

/-- The layout of a pass: line `q`, the rest of `Header_row` from `q` on, `p`, and the width of the
line. -/
def layout (q : Nat) (rest : List Nat) (p offset : Nat) :
    List (Field × Option Nat) → Option Layout
  | [] => some ⟨[], [offset]⟩
  | (f, none) :: fields =>
      (layout q rest p (offset + f.padding) fields).map fun r =>
        { r with places := none :: r.places }
  | (f, some _) :: fields =>
      match breaks rest p with
      | none => none
      | some (n, rest, p) =>
          let start := if n = 0 then offset else 0
          let ended := if n = 0 then [] else offset :: List.replicate (n - 1) 0
          (layout (q + n) rest p (start + f.width) fields).map fun r =>
            ⟨some (q + n, start) :: r.places, ended ++ r.widths⟩

/-- `nDisplayPos` of a column behind a pass. -/
def advance (item : Field × Option Nat) : Option Nat :=
  item.2.bind item.1.next

/-- A part of a value is the next one. -/
def NextPiece (item : Field × Option Nat) (column : Option Nat × Option Shown) : Prop :=
  item.1.m_Type.isText → column.2.map Shown.piece =
    item.2.map fun pos => (item.1.text.drop pos).take (item.1.moved pos)

/-- A pass over these columns has this layout. -/
structure Lays (len : Nat) (fields : List (Field × Option Nat)) (r : Layout) (pass : Pass) :
    Prop where
  next : pass.columns.map Prod.fst = fields.map advance
  places : pass.columns.map (fun c => c.2.map fun s => (s.group, s.offset)) = r.places
  pieces : List.Forall₂ NextPiece fields pass.columns
  inside : pass.lines.map Line.inside = r.widths.map fun width => decide (width + 2 ≤ len)

theorem passLoop_layout {len q p : Nat} {rest : List Nat} {t : Bytes}
    {fields : List (Field × Option Nat)} {r : Layout} (hfields : ∀ item ∈ fields, item.1.Sized)
    (h : layout q rest p t.length fields = some r) :
    ∃ pass, passLoop len q rest p (of len t) fields = some pass ∧ Lays len fields r pass := by
  induction fields generalizing q p rest t r with
  | nil =>
    cases h
    refine ⟨_, rfl, rfl, rfl, List.Forall₂.nil, ?_⟩
    rw [List.map_singleton, List.map_singleton, finish_inside]
  | cons item fields ih =>
    obtain ⟨f, o⟩ := item
    have hrest := fun item hitem => hfields item (List.mem_cons_of_mem _ hitem)
    cases o with
    | none =>
      obtain ⟨r, hr, rfl⟩ := Option.map_eq_some_iff.mp h
      have hlength : (t ++ List.replicate f.padding space).length = t.length + f.padding := by
        rw [List.length_append, List.length_replicate]
      obtain ⟨pass, hpass, hlays⟩ := ih hrest (hlength ▸ hr)
      refine ⟨{ pass with columns := (none, none) :: pass.columns }, ?_, ?_, ?_, ?_, hlays.inside⟩
      · rw [passLoop, padField_of, hpass]
        rfl
      · rw [List.map_cons, hlays.next]
        rfl
      · rw [List.map_cons, hlays.places]
        rfl
      · exact List.Forall₂.cons (fun _ => rfl) hlays.pieces
    | some pos =>
      rw [layout] at h
      cases hbreaks : breaks rest p with
      | none =>
        rw [hbreaks] at h
        cases h
      | some b =>
        obtain ⟨n, rest', p'⟩ := b
        simp only [hbreaks] at h
        obtain ⟨r, hr, rfl⟩ := Option.map_eq_some_iff.mp h
        -- the line to which the column is appended
        obtain ⟨t', hstart, hoffset⟩ : ∃ t' : Bytes,
            (if n = 0 then of len t else Line.new) = of len t' ∧
              (if n = 0 then t.length else 0) = t'.length := by
          by_cases hn : n = 0
          · exact ⟨t, if_pos hn, if_pos hn⟩
          · exact ⟨[], (if_neg hn).trans new_eq, if_neg hn⟩
        obtain ⟨s, hs⟩ := @showField_of len pos t' f (hfields (f, some pos) List.mem_cons_self)
        have hlength : (t' ++ s).length = (if n = 0 then t.length else 0) + f.width := by
          rw [List.length_append, hs.width, hoffset]
        obtain ⟨pass, hpass, hlays⟩ := ih hrest (hlength ▸ hr)
        have hdrop : ((of len (t' ++ s)).text.drop (of len t').text.length) = s :=
          List.drop_left
        refine ⟨⟨((showField len f pos (of len t')).1, some ⟨q + n, t'.length,
            s.take (showField len f pos (of len t')).2.1⟩) :: pass.columns,
          (if n = 0 then [] else (of len t).finish len ::
            List.replicate (n - 1) (Line.new.finish len)) ++ pass.lines⟩, ?_, ?_, ?_, ?_, ?_⟩
        · rw [passLoop, hbreaks]
          simp only [hstart, hs.line, hpass, hdrop]
          rfl
        · rw [List.map_cons, hlays.next, List.map_cons, hs.next]
          rfl
        · rw [List.map_cons, hlays.places, hoffset]
          rfl
        · refine List.Forall₂.cons (fun htype => ?_) hlays.pieces
          exact congrArg some (hs.piece htype)
        · rw [List.map_append, hlays.inside, List.map_append]
          by_cases hn : n = 0
          · rw [if_pos hn, if_pos hn]
            rfl
          · rw [if_neg hn, if_neg hn, List.map_cons, List.map_cons, finish_inside,
              List.map_replicate, List.map_replicate, new_eq, finish_inside]
            rfl

/-! ## Rows -/

/-- `nDisplayPos` of a column in front of pass `t`. -/
def Field.at (f : Field) : (t : Nat) → Option Nat
  | 0 => some 0
  | t + 1 => (f.at t).bind f.next

/-- The columns in front of pass `t`. -/
def fieldsAt (fields : List Field) (t : Nat) : List (Field × Option Nat) :=
  fields.map fun f => (f, f.at t)

/-- A pass that is made: the first one, and every one in which there is a column that is not
finished. -/
def Made (fields : List Field) (t : Nat) : Prop :=
  t = 0 ∨ ∃ f ∈ fields, (f.at t).isSome

/-- The passes of a row from pass `t` on. -/
structure Passes (len : Nat) (Header_row : List Nat) (fields : List Field) (t : Nat)
    (passes : List Pass) : Prop where
  made : ∀ s, s < passes.length ↔ s = 0 ∨ ∃ f ∈ fields, (f.at (t + s)).isSome
  pass : ∀ s pass, passes[s]? = some pass →
    passLoop len 0 Header_row 0 Line.new (fieldsAt fields (t + s)) = some pass

section row

variable {len : Nat} {Header_row : List Nat} {fields : List Field}

theorem at_of_le {f : Field} {t t' : Nat} (h : t ≤ t') (hnone : f.at t = none) :
    f.at t' = none := by
  induction h with
  | refl => exact hnone
  | step _ ih => rw [Field.at, ih, Option.bind_none]

theorem fieldsAt_succ {t : Nat} {columns : List (Option Nat × Option Shown)}
    (h : columns.map Prod.fst = (fieldsAt fields t).map advance) :
    ((fieldsAt fields t).map Prod.fst).zip (columns.map Prod.fst) = fieldsAt fields (t + 1) := by
  have hfst : (fieldsAt fields t).map Prod.fst = fields := by
    rw [fieldsAt, List.map_map]
    exact List.map_id fields
  have hnext : (fieldsAt fields t).map advance = fields.map fun f => f.at (t + 1) := by
    rw [fieldsAt, List.map_map]
    rfl
  rw [h, hfst, hnext, fieldsAt]
  exact List.map_prod_left_eq_zip.symm

theorem complete_iff {t : Nat} {columns : List (Option Nat × Option Shown)}
    (h : columns.map Prod.fst = (fieldsAt fields t).map advance) :
    (columns.all fun c => c.1 = none) = true ↔ ¬∃ f ∈ fields, (f.at (t + 1)).isSome := by
  have hall : (columns.all fun c => c.1 = none) = (columns.map Prod.fst).all fun o => o = none := by
    rw [List.all_map]
    rfl
  rw [hall, h, fieldsAt, List.map_map, List.all_map, List.all_eq_true]
  simp only [Function.comp_apply, decide_eq_true_eq, not_exists, not_and,
    Option.not_isSome_iff_eq_none]
  rfl

theorem exists_pass (hsized : ∀ f ∈ fields, f.Sized) {t : Nat} {r : Layout}
    (h : layout 0 Header_row 0 0 (fieldsAt fields t) = some r) :
    ∃ pass, passLoop len 0 Header_row 0 Line.new (fieldsAt fields t) = some pass ∧
      Lays len (fieldsAt fields t) r pass := by
  have hfields : ∀ item ∈ fieldsAt fields t, item.1.Sized := by
    intro item hitem
    obtain ⟨f, hf, rfl⟩ := List.mem_map.mp hitem
    exact hsized f hf
  rw [new_eq]
  exact passLoop_layout hfields h

/-- A row whose columns are all finished behind this pass. -/
theorem rowLoop_last {t : Nat} {pass : Pass}
    (hpass : passLoop len 0 Header_row 0 Line.new (fieldsAt fields t) = some pass)
    (hnext : pass.columns.map Prod.fst = (fieldsAt fields t).map advance)
    (h : ¬∃ f ∈ fields, (f.at (t + 1)).isSome) :
    rowLoop len Header_row 1 (fieldsAt fields t) = some [pass] ∧
      Passes len Header_row fields t [pass] := by
  refine ⟨?_, fun s => ⟨fun hs => Or.inl (Nat.lt_one_iff.mp hs), ?_⟩, fun s pass' hs => ?_⟩
  · rw [rowLoop, hpass]
    exact if_pos ((complete_iff hnext).mpr h)
  · rintro (rfl | ⟨f, hf, hsome⟩)
    · exact Nat.one_pos
    · by_contra hs
      have hle : t + 1 ≤ t + s := Nat.add_le_add_left (Nat.not_lt.mp hs) t
      have hnone : f.at (t + 1) = none := by
        by_contra hne
        exact h ⟨f, hf, Option.isSome_iff_ne_none.mpr hne⟩
      rw [at_of_le hle hnone] at hsome
      cases hsome
  · cases s with
    | zero =>
      cases hs
      exact hpass
    | succ s => cases hs

/-- The passes of a row that ends. -/
theorem rowLoop_passes (hsized : ∀ f ∈ fields, f.Sized)
    (hlayout : ∀ t, ∃ r, layout 0 Header_row 0 0 (fieldsAt fields t) = some r) {d t : Nat}
    (hend : ∀ f ∈ fields, f.at (t + d + 1) = none) :
    ∃ fuel passes, rowLoop len Header_row fuel (fieldsAt fields t) = some passes ∧
      Passes len Header_row fields t passes := by
  induction d generalizing t with
  | zero =>
    obtain ⟨r, hr⟩ := hlayout t
    obtain ⟨pass, hpass, hlays⟩ := @exists_pass len _ _ hsized t r hr
    refine ⟨1, [pass], rowLoop_last hpass hlays.next ?_⟩
    rintro ⟨f, hf, hsome⟩
    rw [show f.at (t + 1) = none from hend f hf] at hsome
    cases hsome
  | succ d ih =>
    obtain ⟨r, hr⟩ := hlayout t
    obtain ⟨pass, hpass, hlays⟩ := @exists_pass len _ _ hsized t r hr
    by_cases hmore : ∃ f ∈ fields, (f.at (t + 1)).isSome
    · have hend' : ∀ f ∈ fields, f.at (t + 1 + d + 1) = none := by
        intro f hf
        rw [Nat.add_right_comm t 1 d, Nat.add_assoc t d 1]
        exact hend f hf
      obtain ⟨fuel, passes, hrun, hpasses⟩ := ih hend'
      refine ⟨fuel + 1, pass :: passes, ?_, fun s => ?_, fun s pass' hs => ?_⟩
      · rw [rowLoop, hpass]
        simp only [fieldsAt_succ hlays.next, hrun, Option.map_some]
        rw [if_neg fun hall => (complete_iff hlays.next).mp hall hmore]
      · cases s with
        | zero => simp
        | succ s =>
          have hs := hpasses.made s
          rw [List.length_cons, Nat.succ_lt_succ_iff, hs, Nat.add_right_comm t 1 s,
            Nat.add_assoc t s 1]
          constructor
          · rintro (rfl | hsome)
            · exact Or.inr hmore
            · exact Or.inr hsome
          · rintro (hzero | hsome)
            · cases hzero
            · exact Or.inr hsome
      · cases s with
        | zero =>
          cases hs
          exact hpass
        | succ s =>
          have hnext := hpasses.pass s pass' hs
          rwa [Nat.add_right_comm, Nat.add_assoc] at hnext
    · exact ⟨1, [pass], rowLoop_last hpass hlays.next hmore⟩

/-- The passes do not depend on the fuel. -/
theorem rowLoop_unique {fuel fuel' : Nat} {items : List (Field × Option Nat)}
    {passes passes' : List Pass} (h : rowLoop len Header_row fuel items = some passes)
    (h' : rowLoop len Header_row fuel' items = some passes') : passes = passes' := by
  induction fuel generalizing fuel' items passes passes' with
  | zero => cases h
  | succ fuel ih =>
    cases fuel' with
    | zero => cases h'
    | succ fuel' =>
      rw [rowLoop] at h h'
      cases hpass : passLoop len 0 Header_row 0 Line.new items with
      | none =>
        rw [hpass] at h
        cases h
      | some pass =>
        simp only [hpass] at h h'
        split at h
        · next hall =>
          rw [if_pos hall] at h'
          exact Option.some.inj (h.symm.trans h')
        · next hall =>
          rw [if_neg hall] at h'
          obtain ⟨rest, hrest, rfl⟩ := Option.map_eq_some_iff.mp h
          obtain ⟨rest', hrest', rfl⟩ := Option.map_eq_some_iff.mp h'
          rw [ih hrest hrest']

end row

end Natc.Isql.Display
