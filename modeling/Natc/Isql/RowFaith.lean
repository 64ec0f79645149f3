import Natc.Isql.Alignment
import Natc.Isql.RowBounds

/-!
# The display of a row

The pieces of a value are put together again by the passes of its row. The columns are under their
headings as long as no name is longer than its column and no finished column moves the others.
-/

namespace Natc.Isql.Display

/-! ## Pieces -/

/-- What pass `t` prints of a value that is printed in pieces. -/
def Field.pieceAt (f : Field) (t : Nat) : Bytes :=
  match f.at t with
  | none => []
  | some pos => (f.text.drop pos).take (f.moved pos)

/-- What the passes of a row print of the value of column `i`. -/
def piecesOf (passes : List Pass) (i : Nat) : Bytes :=
  passes.flatMap fun pass => ((pass.columns[i]?.bind Prod.snd).map Shown.piece).getD []

section pieces

variable {len sLineSize : Nat} {f : Field} {fields : List Field}

/-- The pieces of the first `n` passes. -/
theorem pieces_take (htype : f.m_Type.isText) (n : Nat) :
    (List.range n).flatMap f.pieceAt = f.text.take ((f.at n).getD f.text.length) := by
  induction n with
  | zero => rfl
  | succ n ih =>
    rw [List.range_succ, List.flatMap_append, ih, List.flatMap_singleton, Field.pieceAt, Field.at]
    cases hpos : f.at n with
    | none => exact List.append_nil _
    | some pos =>
      have hnext : (f.next pos).getD f.text.length = min (pos + f.moved pos) f.text.length := by
        rw [Field.next]
        split
        · next h => exact (min_eq_left h.2.le).symm
        · next h => exact (min_eq_right (Nat.not_lt.mp fun hlt => h ⟨htype, hlt⟩)).symm
      simp only [Option.getD_some, Option.bind_some]
      rw [hnext, ← List.take_add, List.take_eq_take_min]

theorem exists_of_forall₂ {α β : Type} {R : α → β → Prop} {xs : List α} {ys : List β} {x : α}
    {i : Nat} (h : List.Forall₂ R xs ys) (hi : xs[i]? = some x) : ∃ y, ys[i]? = some y ∧ R x y := by
  induction h generalizing i with
  | nil => cases hi
  | cons hfirst _ ih =>
    cases i with
    | zero =>
      cases hi
      exact ⟨_, rfl, hfirst⟩
    | succ i => exact ih hi

theorem piece_of_lays {t i : Nat} {r : Layout} {pass : Pass} (htype : f.m_Type.isText)
    (hi : fields[i]? = some f) (h : Lays len (fieldsAt fields t) r pass) :
    ((pass.columns[i]?.bind Prod.snd).map Shown.piece).getD [] = f.pieceAt t := by
  have hitem : (fieldsAt fields t)[i]? = some (f, f.at t) := by
    rw [fieldsAt, List.getElem?_map, hi]
    rfl
  obtain ⟨column, hcolumn, hpiece⟩ := exists_of_forall₂ h.pieces hitem
  rw [hcolumn, Option.bind_some, hpiece htype, Field.pieceAt]
  cases f.at t <;> rfl

/-- The pieces of a row are the value. -/
theorem piecesOf_eq {passes : List Pass} {i : Nat} (htype : f.m_Type.isText)
    (hi : fields[i]? = some f) (hmade : ∀ t, t < passes.length ↔ Made fields t)
    (hlays : ∀ t pass, passes[t]? = some pass →
      ∀ r ∈ layout 0 (headerRow sLineSize fields) 0 0 (fieldsAt fields t),
        Lays len (fieldsAt fields t) r pass) : piecesOf passes i = f.text := by
  have hpieces :
      passes.map (fun pass => ((pass.columns[i]?.bind Prod.snd).map Shown.piece).getD []) =
        (List.range passes.length).map f.pieceAt := by
    refine List.ext_getElem (by simp) fun t ht ht' => ?_
    rw [List.length_map] at ht
    obtain ⟨r, hr⟩ := @layout_row sLineSize t fields
    rw [List.getElem_map, List.getElem_map, List.getElem_range]
    exact piece_of_lays htype hi (hlays t _ (List.getElem?_eq_getElem ht) r hr)
  have hend : f.at passes.length = none := by
    by_contra hne
    have hnot := fun hmore => lt_irrefl _ ((hmade passes.length).mpr (Or.inr hmore))
    exact hnot ⟨f, List.mem_of_getElem? hi, Option.isSome_iff_ne_none.mpr hne⟩
  rw [piecesOf, List.flatMap_def, hpieces, ← List.flatMap_def, pieces_take htype, hend,
    Option.getD_none, List.take_length]

end pieces

/-! ## Unfinished columns -/

/-- The value is longer than `t` pieces. -/
def Long (t : Nat) (f : Field) : Prop :=
  f.m_Type.isText ∧ t * f.size < f.text.length

/-- A value whose pieces are as long as its column: its bytes are characters, or it is one piece. -/
def Field.Single (f : Field) : Prop :=
  f.m_Type.isText → (∀ b ∈ f.text, b < 128) ∨ f.text.length ≤ f.size

section unfinished

variable {f : Field} {t pos : Nat}

theorem moved_single (htype : f.m_Type.isText) (h : f.Single) :
    f.moved pos = min f.size (f.text.length - pos) := by
  rw [Field.moved, moved, if_neg]
  rintro ⟨hmore, hbyte⟩
  rcases h htype with hbytes | hshort
  · by_cases hsize : pos + f.size - 1 < f.text.length
    · rw [List.getD_eq_getElem _ _ hsize] at hbyte
      exact absurd (hbytes _ (List.getElem_mem hsize)) (UInt8.not_lt.mpr hbyte)
    · omega
  · omega

theorem at_single (h : f.Single) : f.at (t + 1) =
    if f.m_Type.isText ∧ (t + 1) * f.size < f.text.length then some ((t + 1) * f.size)
      else none := by
  have hstep : ∀ n, f.next (n * f.size) =
      if f.m_Type.isText ∧ (n + 1) * f.size < f.text.length then some ((n + 1) * f.size)
        else none := by
    intro n
    by_cases htype : f.m_Type.isText
    · rw [Field.next, moved_single htype h, Nat.succ_mul]
      by_cases hroom : n * f.size + f.size < f.text.length
      · rw [min_eq_left (by omega)]
      · rw [if_neg (by omega), if_neg (by omega)]
    · rw [Field.next, if_neg fun hall => htype hall.1, if_neg fun hall => htype hall.1]
  induction t with
  | zero =>
    have hfirst := hstep 0
    rwa [Nat.zero_mul] at hfirst
  | succ t ih =>
    rw [Field.at, ih]
    split
    · next hlong => exact hstep (t + 1)
    · next hlong =>
      rw [if_neg fun hlong' => hlong ⟨hlong'.1, ?_⟩]
      · rfl
      · exact lt_of_le_of_lt (Nat.mul_le_mul_right _ (Nat.le_succ _)) hlong'.2

theorem isSome_at_iff (h : f.Single) (ht : 0 < t) : (f.at t).isSome ↔ Long t f := by
  obtain ⟨t, rfl⟩ := Nat.exists_eq_add_one_of_ne_zero ht.ne'
  rw [at_single h]
  split
  · next hlong => exact iff_of_true rfl hlong
  · next hlong => exact iff_of_false Bool.false_ne_true hlong

end unfinished

/-! ## Widths of headings -/

/-- What the formats of DOUBLE and REAL promise. -/
structure Cell.Formatted (c : Cell) : Prop where
  double : c.m_Type = .double → ∀ sTmp ∈ c.number, sTmp.length ≤ 22
  real : c.m_Type = .real → ∀ sTmp ∈ c.number, sTmp.length ≤ 13

/-- The types for which a finished column is as wide as an unfinished one. -/
def SqlType.isEven (m : SqlType) : Bool :=
  m.isText || m.isPlain

section headings

variable {c : Cell} {sColSize t : Nat} {f : Field} {group : List Field}

/-- A column that falls short of its heading does so by what its name is too long. -/
structure Field.Fits (f : Field) : Prop where
  width : f.width + (f.m_Name.length - f.size) = (heading f).length
  padding : f.padding + (f.m_Name.length - f.size) =
    (heading f).length + if f.m_Type.isEven then 0 else 1

theorem length_heading (f : Field) :
    (heading f).length = max f.size f.m_Name.length + (if f.m_Type.isText then 1 else 0) + 1 := by
  have hextent := heading_length f
  rw [Field.extent, max_comm] at hextent
  omega

theorem numberWidth_eq {width : Nat} (hsize : f.size = width)
    (h : ∀ sTmp ∈ f.number, sTmp.length ≤ width) : f.numberWidth width = f.size + 1 := by
  rw [Field.numberWidth]
  cases hnumber : f.number with
  | none => rfl
  | some sTmp =>
    have hlength : sTmp.length ≤ width := h sTmp hnumber
    simp only [max_eq_left hlength, hsize, lt_irrefl, if_false]

theorem fits_text (h : f.m_Type.isText = true) : f.Fits := by
  have hplain : f.m_Type.isPlain = false := by
    by_contra hne
    rw [SqlType.not_isText_of_isPlain (Bool.eq_true_of_not_eq_false hne)] at h
    cases h
  have hlength := length_heading f
  rw [if_pos h] at hlength
  constructor
  · rw [Field.width_text h, hlength]
    omega
  · rw [Field.padding, hplain, SqlType.isEven, h, Bool.true_or, if_pos rfl, hlength]
    simp only [Bool.false_eq_true, if_false]
    omega

theorem fits_plain (h : f.m_Type.isPlain = true) : f.Fits := by
  have htext : f.m_Type.isText = false := SqlType.not_isText_of_isPlain h
  have hlength := length_heading f
  rw [htext] at hlength
  simp only [Bool.false_eq_true, if_false] at hlength
  constructor
  · rw [Field.width_plain h, hlength]
    omega
  · rw [Field.padding, h, SqlType.isEven, h, Bool.or_true, if_pos rfl, if_pos rfl, hlength]
    omega

/-- A column that is padded with one blank more than it had. -/
theorem fits_other (h : f.m_Type.isEven = false) (hwidth : f.width = f.size + 1) : f.Fits := by
  obtain ⟨htext, hplain⟩ := Bool.or_eq_false_iff.mp h
  have hlength := length_heading f
  rw [htext] at hlength
  simp only [Bool.false_eq_true, if_false] at hlength
  constructor
  · rw [hwidth, hlength]
    omega
  · rw [Field.padding, hplain, h, hlength]
    simp only [Bool.false_eq_true, if_false]
    omega

theorem Cell.Formatted.fits (h : c.Formatted) : (c.field sColSize).Fits := by
  have htype : (c.field sColSize).m_Type = c.m_Type := rfl
  rcases c.m_Type.kinds with htext | hplain | hm | hm | hm
  · exact fits_text htext
  · exact fits_plain hplain
  · have hsize : (c.field sColSize).size = 22 := by
      rw [Cell.field, hm, colSize]
    refine fits_other (by rw [htype, hm]; rfl) ?_
    simp only [Field.width, htype, hm, numberWidth_eq hsize (h.double hm)]
  · have hsize : (c.field sColSize).size = 13 := by
      rw [Cell.field, hm, colSize]
    refine fits_other (by rw [htype, hm]; rfl) ?_
    simp only [Field.width, htype, hm, numberWidth_eq hsize (h.real hm)]
  · have hsize : (c.field sColSize).size = 0 := by
      rw [Cell.field, hm, colSize]
    refine fits_other (by rw [htype, hm]; rfl) ?_
    simp only [Field.width, htype, hm, hsize]

/-! ## Lines of a pass -/

/-- In the first pass, columns are as wide as their headings if no name is too long. -/
theorem width_first_iff (h : ∀ f ∈ group, f.Fits) :
    ((fieldsAt group 0).map itemWidth).sum = headed group ↔
      ∀ f ∈ group, f.m_Name.length ≤ f.size := by
  have hsum : headed group = ((fieldsAt group 0).map itemWidth).sum +
      (group.map fun f => f.m_Name.length - f.size).sum := by
    rw [itemWidth_first, ← List.sum_map_add, headed]
    exact congrArg List.sum (List.map_congr_left fun f hf => (h f hf).width.symm)
  rw [hsum, left_eq_add, List.sum_eq_zero_iff_forall_eq_nat, List.forall_mem_map]
  simp only [Nat.sub_eq_zero_iff_le]

/-- In a later pass, the finished columns of some types are wider. -/
theorem width_later_iff (ht : 0 < t) (h : ∀ f ∈ group, f.Fits)
    (hname : ∀ f ∈ group, f.m_Name.length ≤ f.size) :
    ((fieldsAt group t).map itemWidth).sum = headed group ↔
      ∀ f ∈ group, f.m_Type.isEven = true := by
  have hwidth : ∀ f ∈ group, itemWidth (f, f.at t) =
      (heading f).length + if f.m_Type.isEven then 0 else 1 := by
    intro f hf
    have hexcess : f.m_Name.length - f.size = 0 := Nat.sub_eq_zero_of_le (hname f hf)
    rw [itemWidth]
    cases hat : f.at t with
    | none =>
      have hpadding := (h f hf).padding
      rwa [hexcess, Nat.add_zero] at hpadding
    | some pos =>
      obtain ⟨t, rfl⟩ := Nat.exists_eq_add_one_of_ne_zero ht.ne'
      obtain ⟨pos', -, hnext⟩ := Option.bind_eq_some_iff.mp hat
      have heven : f.m_Type.isEven = true := by
        rw [SqlType.isEven, (next_eq_some_iff.mp hnext).1, Bool.true_or]
      have hwidth := (h f hf).width
      rw [hexcess, Nat.add_zero] at hwidth
      rw [if_pos heven, Nat.add_zero]
      exact hwidth
  have hsum : ((fieldsAt group t).map itemWidth).sum =
      headed group + (group.map fun f => if f.m_Type.isEven then 0 else 1).sum := by
    rw [headed, ← List.sum_map_add, fieldsAt, List.map_map]
    exact congrArg List.sum (List.map_congr_left fun f hf => hwidth f hf)
  rw [hsum, add_eq_left, List.sum_eq_zero_iff_forall_eq_nat, List.forall_mem_map]
  refine forall₂_congr fun f _ => ?_
  cases f.m_Type.isEven <;> simp

theorem inLine_first_iff (h : ∀ f ∈ group, f.Fits) : InLine 0 group ↔
    ∀ before f behind, group = before ++ f :: behind → ∀ x ∈ before, x.m_Name.length ≤ x.size := by
  refine forall_congr' fun before => forall_congr' fun f => forall_congr' fun behind =>
    forall_congr' fun heq => ?_
  have hfits : ∀ x ∈ before, x.Fits := fun x hx => h x (heq ▸ List.mem_append_left _ hx)
  rw [← width_first_iff hfits]
  exact forall_prop_of_true rfl

theorem inLine_later_iff (ht : 0 < t) (h : ∀ f ∈ group, f.Fits) (hsingle : ∀ f ∈ group, f.Single)
    (hname : ∀ before f behind, group = before ++ f :: behind →
      ∀ x ∈ before, x.m_Name.length ≤ x.size) :
    InLine t group ↔ ∀ before f behind, group = before ++ f :: behind → Long t f →
      ∀ x ∈ before, x.m_Type.isEven = true := by
  refine forall_congr' fun before => forall_congr' fun f => forall_congr' fun behind =>
    forall_congr' fun heq => ?_
  have hfits : ∀ x ∈ before, x.Fits := fun x hx => h x (heq ▸ List.mem_append_left _ hx)
  have hf : f ∈ group := heq ▸ List.mem_append_right before List.mem_cons_self
  rw [isSome_at_iff (hsingle f hf) ht, width_later_iff ht hfits (hname before f behind heq)]

end headings

/-! ## Faithful rows -/

/-- The display of a row ends; the pieces of a CHAR or VARCHAR are its value, and what is shown is
shown under its heading. -/
def Faithful (s : Settings) (cells : List Cell) : Prop :=
  ∃ fuel passes, row s.CommandLen s.LineSize fuel (s.fields cells) = some passes ∧
    (∀ i f, (s.fields cells)[i]? = some f → f.m_Type = .char ∨ f.m_Type = .varchar →
      piecesOf passes i = f.text) ∧
    ∀ pass ∈ passes, List.Forall₂
      (fun column place => ∀ shown ∈ column.2, (shown.group, shown.offset) = place)
      pass.columns (headingPlaces 0 (printHeader s.LineSize [] 0 (s.fields cells)))

/-- Nothing moves a column away from its heading. -/
structure Steady (groups : List (List Field)) : Prop where
  /-- a name in front of another one on its line is not longer than its column -/
  names : ∀ g ∈ groups, ∀ before f behind, g = before ++ f :: behind →
    ∀ x ∈ before, x.m_Name.length ≤ x.size
  /-- there is no DOUBLE, REAL or NULL in front of a value that is longer than its column -/
  numbers : ∀ g ∈ groups, ∀ before f behind, g = before ++ f :: behind → Long 1 f →
    ∀ x ∈ before, x.m_Type.isEven = true
  /-- behind the first line, a value is only longer than one of `t` pieces if so are all values on
  the lines in front of it and the first one of its line -/
  lines : ∀ t, 0 < t → ∀ before g behind, groups = before ++ g :: behind → before ≠ [] →
    ∀ f ∈ g, Long t f → (∀ x ∈ before.flatten, Long t x) ∧ ∀ x ∈ g.head?, Long t x

section faithful

variable {s : Settings} {cells : List Cell} {fields : List Field} {groups : List (List Field)}

/-- A row is faithful if all its passes print the columns under their headings. -/
theorem faithful_iff_aligned (h : ∀ f ∈ s.fields cells, f.Sized) : Faithful s cells ↔
    ∀ t, Made (s.fields cells) t →
      ∀ r ∈ layout 0 (headerRow s.LineSize (s.fields cells)) 0 0 (fieldsAt (s.fields cells) t),
        Aligned r.places (headingPlaces 0 (printHeader s.LineSize [] 0 (s.fields cells))) := by
  obtain ⟨fuel, passes, hrun, hmade, hlays⟩ :=
    @exists_row s.CommandLen s.LineSize (s.fields cells) h
  have hshown : ∀ t pass, passes[t]? = some pass →
      ∀ r ∈ layout 0 (headerRow s.LineSize (s.fields cells)) 0 0 (fieldsAt (s.fields cells) t),
        (List.Forall₂ (fun column place => ∀ shown ∈ column.2, (shown.group, shown.offset) = place)
          pass.columns (headingPlaces 0 (printHeader s.LineSize [] 0 (s.fields cells))) ↔
        Aligned r.places (headingPlaces 0 (printHeader s.LineSize [] 0 (s.fields cells)))) := by
    intro t pass ht r hr
    rw [← (hlays t pass ht r hr).places, Aligned, List.forall₂_map_left_iff]
    simp only [AtHeading, Option.mem_map, forall_exists_index, and_imp, forall_apply_eq_imp_iff₂]
  constructor
  · rintro ⟨fuel', passes', hrun', -, hplaces⟩ t ht r hr
    obtain rfl := rowLoop_unique hrun' hrun
    have hlt := (hmade t).mpr ht
    exact (hshown t _ (List.getElem?_eq_getElem hlt) r hr).mp (hplaces _ (List.getElem_mem hlt))
  · refine fun hall => ⟨fuel, passes, hrun, fun i f hi htype => ?_, fun pass hmem => ?_⟩
    · have htext : f.m_Type.isText = true := by
        rcases htype with hm | hm <;> rw [hm] <;> rfl
      exact piecesOf_eq htext hi hmade hlays
    · obtain ⟨t, ht, rfl⟩ := List.getElem_of_mem hmem
      obtain ⟨r, hr⟩ := @layout_row s.LineSize t (s.fields cells)
      exact (hshown t _ (List.getElem?_eq_getElem ht) r hr).mpr (hall t ((hmade t).mp ht) r hr)

theorem full_iff {t : Nat} (h : ∀ g ∈ groups, ∀ f ∈ g, (f.at t).isSome = true ↔ Long t f) :
    Full t groups ↔ ∀ before g behind, groups = before ++ g :: behind → before ≠ [] →
      ∀ f ∈ g, Long t f → (∀ x ∈ before.flatten, Long t x) ∧ ∀ x ∈ g.head?, Long t x := by
  refine forall_congr' fun before => forall_congr' fun g => forall_congr' fun behind =>
    forall_congr' fun heq => forall_congr' fun _ => forall₂_congr fun f hf => ?_
  have hg : g ∈ groups := heq ▸ List.mem_append_right before List.mem_cons_self
  refine imp_congr (h g hg f hf) (and_congr ?_ ?_)
  · refine forall₂_congr fun x hx => ?_
    obtain ⟨g', hg', hx'⟩ := List.mem_flatten.mp hx
    exact h g' (heq ▸ List.mem_append_left _ hg') x hx'
  · exact forall₂_congr fun x hx => h g hg x (List.mem_of_mem_head? hx)

/-- The lines of all passes are the lines of the header. -/
theorem steady_iff (hmem : ∀ g ∈ groups, ∀ f ∈ g, f ∈ fields) (hfits : ∀ f ∈ fields, f.Fits)
    (hsingle : ∀ f ∈ fields, f.Single) :
    (∀ t, Made fields t → (∀ g ∈ groups, InLine t g) ∧ Full t groups) ↔ Steady groups := by
  have hlong : ∀ {t}, 0 < t → ∀ g ∈ groups, ∀ f ∈ g, (f.at t).isSome = true ↔ Long t f :=
    fun ht g hg f hf => isSome_at_iff (hsingle f (hmem g hg f hf)) ht
  have hgroupFits : ∀ g ∈ groups, ∀ f ∈ g, f.Fits := fun g hg f hf => hfits f (hmem g hg f hf)
  have hgroupSingle : ∀ g ∈ groups, ∀ f ∈ g, f.Single :=
    fun g hg f hf => hsingle f (hmem g hg f hf)
  constructor
  · intro h
    have hnames : ∀ g ∈ groups, ∀ before f behind, g = before ++ f :: behind →
        ∀ x ∈ before, x.m_Name.length ≤ x.size :=
      fun g hg => (inLine_first_iff (hgroupFits g hg)).mp ((h 0 (Or.inl rfl)).1 g hg)
    have hmade : ∀ {t}, 0 < t → ∀ g ∈ groups, ∀ f ∈ g, Long t f → Made fields t :=
      fun ht g hg f hf hf' => Or.inr ⟨f, hmem g hg f hf, (hlong ht g hg f hf).mpr hf'⟩
    refine ⟨hnames, fun g hg before f behind heq hf => ?_,
      fun t ht before g behind heq hne f hf hf' => ?_⟩
    · have hfg : f ∈ g := heq ▸ List.mem_append_right before List.mem_cons_self
      have hline := (h 1 (hmade Nat.one_pos g hg f hfg hf)).1 g hg
      exact (inLine_later_iff Nat.one_pos (hgroupFits g hg) (hgroupSingle g hg) (hnames g hg)).mp
        hline before f behind heq hf
    · have hg : g ∈ groups := heq ▸ List.mem_append_right before List.mem_cons_self
      have hfull := (h t (hmade ht g hg f hf hf')).2
      exact (full_iff (hlong ht)).mp hfull before g behind heq hne f hf hf'
  · intro h t _
    rcases Nat.eq_zero_or_pos t with rfl | ht
    · exact ⟨fun g hg => (inLine_first_iff (hgroupFits g hg)).mpr (h.names g hg),
        fun _ _ _ _ _ _ _ _ => ⟨fun _ _ => rfl, fun _ _ => rfl⟩⟩
    · refine ⟨fun g hg => ?_, (full_iff (hlong ht)).mpr (h.lines t ht)⟩
      refine (inLine_later_iff ht (hgroupFits g hg) (hgroupSingle g hg) (h.names g hg)).mpr
        fun before f behind heq hf => h.numbers g hg before f behind heq ⟨hf.1, ?_⟩
      exact lt_of_le_of_lt (Nat.mul_le_mul_right f.size ht) hf.2

/-- `ColSize` limits the columns of these two types only. -/
theorem colSize_of_other {m : SqlType} {sColSize m_Precision : Nat}
    (h : ¬(m = .char ∨ m = .varchar)) :
    colSize sColSize m m_Precision = colSize 0 m m_Precision := by
  cases m <;> first | rfl | exact absurd (Or.inl rfl) h | exact absurd (Or.inr rfl) h

theorem field_single {c : Cell} (hok : c.Ok)
    (h : c.m_Type = .char ∨ c.m_Type = .varchar → ∀ b ∈ c.m_CValue, b < 128) :
    (c.field s.ColSize).Single := by
  intro htype
  have hm : (c.field s.ColSize).m_Type = c.m_Type := rfl
  rw [hm] at htype
  by_cases hchar : c.m_Type = .char ∨ c.m_Type = .varchar
  · refine Or.inl fun b hb => h hchar b ?_
    rw [Field.text] at hb
    split at hb
    · exact (List.rdropWhile_prefix _ _).subset hb
    · exact hb
  · refine Or.inr ?_
    have hvalue := hok.value htype
    have htext : (c.field s.ColSize).text = c.m_CValue :=
      if_neg fun heq => hchar (Or.inl heq)
    rw [htext]
    exact hvalue.trans_eq (colSize_of_other hchar).symm

end faithful

/-- A row is displayed faithfully exactly if nothing moves its columns. -/
theorem faithful_iff (s : Settings) (cells : List Cell) (hok : ∀ c ∈ cells, c.Ok)
    (hformat : ∀ c ∈ cells, c.Formatted)
    (hsingle : ∀ c ∈ cells, c.m_Type = .char ∨ c.m_Type = .varchar → ∀ b ∈ c.m_CValue, b < 128) :
    Faithful s cells ↔ Steady (headerGroups s.LineSize [] (s.fields cells)) := by
  have hsized : ∀ f ∈ s.fields cells, f.Sized := by
    intro f hf
    obtain ⟨c, hc, rfl⟩ := fields_ok hok hf
    exact hc.sized
  have hfits : ∀ f ∈ s.fields cells, f.Fits := by
    intro f hf
    obtain ⟨c, hc, rfl⟩ := List.mem_map.mp hf
    exact (hformat c hc).fits
  have hbytes : ∀ f ∈ s.fields cells, f.Single := by
    intro f hf
    obtain ⟨c, hc, rfl⟩ := List.mem_map.mp hf
    exact field_single (hok c hc) (hsingle c hc)
  rw [faithful_iff_aligned hsized,
    ← steady_iff (fun g hg f hf => headerGroups_mem hg hf) hfits hbytes]
  exact forall₂_congr fun t _ => row_aligned_iff

/-- A VARCHAR that is printed in two pieces, and an INTEGER. -/
theorem faithful_pieces : Faithful ⟨3, 80, 65536, by decide, by decide, by decide, by decide⟩
    [⟨[65, 66], .varchar, 5, [97, 98, 99, 100], none⟩, ⟨[73], .integer, 10, [52, 50], none⟩] := by
  refine (faithful_iff _ _ ?_ ?_ ?_).mpr ?_
  · simp only [List.forall_mem_cons]
    exact ⟨⟨by decide, fun _ => by decide, nofun⟩, ⟨by decide, nofun, nofun⟩, nofun⟩
  · simp only [List.forall_mem_cons]
    exact ⟨⟨nofun, nofun⟩, ⟨nofun, nofun⟩, nofun⟩
  · simp only [List.forall_mem_cons]
    exact ⟨fun _ => by simp, fun _ => by simp, nofun⟩
  · -- the header has one line
    have hgroups : headerGroups 80 [] [⟨[65, 66], .varchar, 3, [97, 98, 99, 100], none⟩,
        ⟨[73], .integer, 11, [52, 50], none⟩] =
          [[⟨[65, 66], .varchar, 3, [97, 98, 99, 100], none⟩,
            ⟨[73], .integer, 11, [52, 50], none⟩]] := by
      decide
    have hall : ∀ g ∈ [[(⟨[65, 66], .varchar, 3, [97, 98, 99, 100], none⟩ : Field),
        ⟨[73], .integer, 11, [52, 50], none⟩]], ∀ x ∈ g,
          x.m_Name.length ≤ x.size ∧ x.m_Type.isEven = true := by
      decide
    refine hgroups ▸ ⟨fun g hg before f behind heq x hx => ?_,
      fun g hg before f behind heq _ x hx => ?_, fun t _ before g behind heq hne => ?_⟩
    · exact (hall g hg x (heq ▸ List.mem_append_left _ hx)).1
    · exact (hall g hg x (heq ▸ List.mem_append_left _ hx)).2
    · obtain ⟨g', before, rfl⟩ := List.exists_cons_of_ne_nil hne
      exact absurd (List.cons_eq_cons.mp heq).2.symm
        (List.append_ne_nil_of_right_ne_nil _ (List.cons_ne_nil g behind))

/-- A VARCHAR whose name is longer than its column, and an INTEGER. -/
theorem not_faithful_name :
    let s : Settings := ⟨0, 80, 65536, by decide, by decide, by decide, by decide⟩
    let cells : List Cell :=
      [⟨[65, 66], .varchar, 1, [120], none⟩, ⟨[67], .integer, 10, [49], none⟩]
    (∀ c ∈ cells, c.Ok) ∧ (∀ c ∈ cells, c.Formatted) ∧
      (∀ c ∈ cells, c.m_Type = .char ∨ c.m_Type = .varchar →
        0 < colSize s.ColSize c.m_Type c.m_Precision ∧ ∀ b ∈ c.m_CValue, b < 128) ∧
      ¬Faithful s cells := by
  intro s cells
  have hok : ∀ c ∈ cells, c.Ok := by
    simp only [cells, List.forall_mem_cons]
    exact ⟨⟨by decide, fun _ => by decide, nofun⟩, ⟨by decide, nofun, nofun⟩, nofun⟩
  refine ⟨hok, ?_, ?_, fun h => ?_⟩
  · simp only [cells, List.forall_mem_cons]
    exact ⟨⟨nofun, nofun⟩, ⟨nofun, nofun⟩, nofun⟩
  · simp only [cells, List.forall_mem_cons]
    exact ⟨fun _ => ⟨by decide, by simp⟩, fun _ => ⟨by decide, by simp⟩, nofun⟩
  · have hsized : ∀ f ∈ s.fields cells, f.Sized := by
      intro f hf
      obtain ⟨c, hc, rfl⟩ := fields_ok hok hf
      exact hc.sized
    have hlines := (row_aligned_iff.mp ((faithful_iff_aligned hsized).mp h 0 (Or.inl rfl))).1
    have hgroup : [⟨[65, 66], .varchar, 1, [120], none⟩, ⟨[67], .integer, 11, [49], none⟩] ∈
        headerGroups s.LineSize [] (s.fields cells) := by
      decide
    -- the heading of the second column is behind 4 characters, its value behind 3
    have hsum := hlines _ hgroup [⟨[65, 66], .varchar, 1, [120], none⟩] _ [] rfl rfl
    exact absurd hsum (by decide)

end Natc.Isql.Display
