import Mathlib.Algebra.Order.BigOperators.Group.List
import Mathlib.Algebra.Order.Group.Nat
import Natc.Isql.HeaderGroups

/-!
# The bounds of a row

The first pass of a row has the lines of the header. In a later pass the columns that are finished
are not counted, so that a line may hold more columns than a line of the header.
-/

namespace Natc.Isql.Display

/-! ## Widths of lines -/

/-- The line of the header with column `n`, where the lines have these numbers of columns. -/
def lineOf : List Nat → Nat → Nat
  | [], _ => 0
  | h :: rest, n => if n < h then 0 else lineOf rest (n - h) + 1

/-- The width of line `k` of a pass, where `c` columns have been counted. A column is on the line on
which the header has as many columns in front of it as have been counted, and a finished one, which
is not counted, on that of the last one. -/
def lineWidth (sizes : List Nat) (k : Nat) : (c : Nat) → List Item → Nat
  | _, [] => 0
  | c, item :: items =>
      let c := if item.2.isSome then c + 1 else c
      (if lineOf sizes (c - 1) = k then itemWidth item else 0) + lineWidth sizes k c items

section widths

variable {h c k p q offset : Nat} {rest sizes : List Nat} {items : List Item} {r : Layout}

theorem lineOf_of_lt {n : Nat} (hn : n < h) : lineOf (h :: rest) n = 0 := by
  rw [lineOf, if_pos hn]

theorem lineOf_add (n : Nat) : lineOf (h :: sizes) (h + n) = lineOf sizes n + 1 := by
  rw [lineOf, if_neg (Nat.not_lt.mpr (Nat.le_add_right h n)), Nat.add_sub_cancel_left]

theorem lineOf_self {h' : Nat} (hh' : 0 < h') : lineOf (h :: h' :: rest) h = 1 := by
  rw [lineOf, if_neg (Nat.lt_irrefl h), Nat.sub_self, lineOf_of_lt hh']

theorem lineOf_pred (hc : 0 < c) : lineOf (h :: sizes) (h + c - 1) = lineOf sizes (c - 1) + 1 := by
  rw [Nat.add_sub_assoc hc, lineOf_add]

theorem count_add (item : Item) :
    (if item.2.isSome then h + c + 1 else h + c) = h + if item.2.isSome then c + 1 else c := by
  split <;> rfl

theorem count_pos (item : Item) (hc : 0 < c) : 0 < if item.2.isSome then c + 1 else c := by
  split <;> omega

/-- Behind a full line, there are no columns for it. -/
theorem lineWidth_zero (hc : 0 < c) : lineWidth (h :: sizes) 0 (h + c) items = 0 := by
  induction items generalizing c with
  | nil => rfl
  | cons item items ih =>
    rw [lineWidth]
    simp only [count_add, lineOf_pred (count_pos item hc), ih (count_pos item hc)]
    rfl

/-- Behind a full line, the columns are counted as for the rest of the header. -/
theorem lineWidth_succ (hc : 0 < c) :
    lineWidth (h :: sizes) (k + 1) (h + c) items = lineWidth sizes k c items := by
  induction items generalizing c with
  | nil => rfl
  | cons item items ih =>
    rw [lineWidth, lineWidth]
    simp only [count_add, lineOf_pred (count_pos item hc), ih (count_pos item hc),
      Nat.add_right_cancel_iff]

theorem layout_widths (hh : 0 < h) (hrest : ∀ h' ∈ rest, 0 < h') (hp : p ≤ h)
    (hr : layout q (h :: rest) p offset items = some r) (k : Nat) :
    r.widths.getD k 0 = (if k = 0 then offset else 0) + lineWidth (h :: rest) k p items := by
  induction items generalizing q h rest p offset r k with
  | nil =>
    cases hr
    cases k <;> rfl
  | cons item items ih =>
    obtain ⟨f, o⟩ := item
    cases o with
    | none =>
      obtain ⟨r, hr', rfl⟩ := Option.map_eq_some_iff.mp hr
      have hwidth : lineWidth (h :: rest) k p ((f, none) :: items) =
          (if k = 0 then f.padding else 0) + lineWidth (h :: rest) k p items := by
        rw [lineWidth]
        simp only [Option.isSome_none, Bool.false_eq_true, if_false]
        rw [lineOf_of_lt (by omega)]
        simp only [eq_comm, itemWidth]
      rw [ih hh hrest hp hr' k, hwidth]
      split <;> omega
    | some pos =>
      rcases Nat.lt_or_eq_of_le hp with hlt | rfl
      · rw [layout, breaks_of_lt hlt] at hr
        obtain ⟨r, hr', rfl⟩ := Option.map_eq_some_iff.mp hr
        have hwidth : lineWidth (h :: rest) k p ((f, some pos) :: items) =
            (if k = 0 then f.width else 0) + lineWidth (h :: rest) k (p + 1) items := by
          rw [lineWidth]
          simp only [Option.isSome_some, if_true, Nat.add_sub_cancel]
          rw [lineOf_of_lt hlt]
          simp only [eq_comm, itemWidth]
        have hrun := ih hh hrest (show p + 1 ≤ h from hlt) hr' k
        rw [hwidth]
        simp only [if_true, List.nil_append] at hrun ⊢
        rw [hrun]
        split <;> omega
      · cases rest with
        | nil =>
          rw [layout, breaks, if_neg (Nat.lt_irrefl _)] at hr
          cases hr
        | cons h' rest =>
          have hh' := hrest h' List.mem_cons_self
          rw [layout_break hh'] at hr
          obtain ⟨r, hr', rfl⟩ := Option.map_eq_some_iff.mp hr
          have hwidth : lineWidth (p :: h' :: rest) k p ((f, some pos) :: items) =
              (if k = 1 then f.width else 0) + lineWidth (p :: h' :: rest) k (p + 1) items := by
            rw [lineWidth]
            simp only [Option.isSome_some, if_true, Nat.add_sub_cancel]
            rw [lineOf_self hh']
            simp only [eq_comm, itemWidth]
          rw [hwidth]
          cases k with
          | zero =>
            rw [lineWidth_zero Nat.one_pos]
            rfl
          | succ k =>
            have hrun := ih hh' (fun g hg => hrest g (List.mem_cons_of_mem _ hg)) hh' hr' k
            rw [List.getD_cons_succ, hrun, lineWidth_succ Nat.one_pos]
            simp

/-- The lines of a pass have room exactly if what is on them has. -/
theorem widths_iff {len : Nat} (hlen : 2 ≤ len) (hh : 0 < h) (hrest : ∀ h' ∈ rest, 0 < h')
    (hr : layout 0 (h :: rest) 0 0 items = some r) :
    (∀ width ∈ r.widths, width + 2 ≤ len) ↔ ∀ k, lineWidth (h :: rest) k 0 items + 2 ≤ len := by
  have hwidth : ∀ k, r.widths.getD k 0 = lineWidth (h :: rest) k 0 items := by
    intro k
    rw [layout_widths hh hrest (Nat.zero_le h) hr k, ite_self, Nat.zero_add]
  constructor
  · intro hall k
    rw [← hwidth k, List.getD_eq_getElem?_getD]
    cases hk : r.widths[k]? with
    | none => exact hlen
    | some width => exact hall width (List.mem_of_getElem? hk)
  · intro hall width hmem
    obtain ⟨k, hk, rfl⟩ := List.getElem_of_mem hmem
    have hline := hall k
    rwa [← hwidth k, List.getD_eq_getElem _ _ hk] at hline

end widths

/-! ## Passes in the buffer -/

section bounds

variable {len sLineSize t : Nat} {fields : List Field}

theorem Lays.inside_iff {items : List Item} {r : Layout} {pass : Pass} (h : Lays len items r pass) :
    (∀ line ∈ pass.lines, line.inside = true) ↔ ∀ width ∈ r.widths, width + 2 ≤ len := by
  have hlines : (∀ b ∈ pass.lines.map Line.inside, b = true) ↔
      ∀ b ∈ r.widths.map fun width => decide (width + 2 ≤ len), b = true := by
    rw [h.inside]
  simpa only [List.forall_mem_map, decide_eq_true_eq] using hlines

theorem next_eq_some_iff {f : Field} {pos pos' : Nat} : f.next pos = some pos' ↔
    f.m_Type.isText ∧ pos + f.moved pos = pos' ∧ pos' < f.text.length := by
  rw [Field.next]
  split
  · next h =>
    rw [Option.some.injEq]
    exact ⟨fun heq => ⟨h.1, heq, heq ▸ h.2⟩, fun hall => hall.2.1⟩
  · next h =>
    refine iff_of_false (fun hnone => ?_) fun hall => h ⟨hall.1, hall.2.1.symm ▸ hall.2.2⟩
    cases hnone

theorem moved_pos {n pos : Nat} {value : Bytes} (hn : 0 < n) (h : pos < value.length) :
    0 < moved n pos value := by
  rw [moved]
  split <;> omega

/-- Each pass prints a character at least of a value that is not finished. -/
theorem at_bounds {f : Field} (h : f.Sized) {pos : Nat} (hat : f.at (t + 1) = some pos) :
    t < pos ∧ pos < f.text.length := by
  induction t generalizing pos with
  | zero =>
    obtain ⟨htype, rfl, hlt⟩ := next_eq_some_iff.mp hat
    have hne : f.text ≠ [] := List.length_pos_iff.mp (Nat.zero_lt_of_lt hlt)
    have hmoved : 0 < f.moved 0 :=
      moved_pos ((h htype).resolve_right hne) (List.length_pos_iff.mpr hne)
    exact ⟨by omega, hlt⟩
  | succ t ih =>
    obtain ⟨pos', hpos', hnext⟩ := Option.bind_eq_some_iff.mp hat
    obtain ⟨hle, hlt'⟩ := ih hpos'
    obtain ⟨htype, rfl, hlt⟩ := next_eq_some_iff.mp hnext
    have hne : f.text ≠ [] := List.length_pos_iff.mp (Nat.zero_lt_of_lt hlt)
    have hmoved : 0 < f.moved pos' := moved_pos ((h htype).resolve_right hne) hlt'
    exact ⟨by omega, hlt⟩

theorem exists_end (h : ∀ f ∈ fields, f.Sized) : ∃ d, ∀ f ∈ fields, f.at (0 + d + 1) = none := by
  refine ⟨(fields.map fun f => f.text.length).sum, fun f hf => ?_⟩
  rw [Nat.zero_add]
  by_contra hne
  obtain ⟨pos, hpos⟩ := Option.ne_none_iff_exists'.mp hne
  have hbounds := at_bounds (h f hf) hpos
  have hle : f.text.length ≤ (fields.map fun f => f.text.length).sum :=
    List.le_sum_of_mem (List.mem_map.mpr ⟨f, hf, rfl⟩)
  omega

/-- A row ends, and its passes are the ones in which a column is not finished. -/
theorem exists_row (h : ∀ f ∈ fields, f.Sized) :
    ∃ fuel passes, row len sLineSize fuel fields = some passes ∧
      (∀ t, t < passes.length ↔ Made fields t) ∧
      ∀ t pass, passes[t]? = some pass →
        ∀ r ∈ layout 0 (headerRow sLineSize fields) 0 0 (fieldsAt fields t),
          Lays len (fieldsAt fields t) r pass := by
  obtain ⟨d, hend⟩ := exists_end h
  obtain ⟨fuel, passes, hrun, hpasses⟩ := @rowLoop_passes len (headerRow sLineSize fields) fields h
    (fun t => layout_row) d 0 hend
  refine ⟨fuel, passes, hrun, fun t => ?_, fun t pass ht r hr => ?_⟩
  · have hmade := hpasses.made t
    rwa [Nat.zero_add] at hmade
  · obtain ⟨pass', hpass', hlays⟩ := @exists_pass len _ _ h t r hr
    have hsame := hpasses.pass t pass ht
    rw [Nat.zero_add, hpass', Option.some.injEq] at hsame
    exact hsame ▸ hlays

/-- A row ends, and its lines lie in the buffer exactly if they are not too long. -/
theorem row_inside_iff (h : ∀ f ∈ fields, f.Sized) :
    (∃ fuel passes, row len sLineSize fuel fields = some passes ∧
        ∀ pass ∈ passes, ∀ line ∈ pass.lines, line.inside = true) ↔
      ∀ t, Made fields t →
        ∀ r ∈ layout 0 (headerRow sLineSize fields) 0 0 (fieldsAt fields t),
          ∀ width ∈ r.widths, width + 2 ≤ len := by
  obtain ⟨fuel, passes, hrun, hmade, hlays⟩ := @exists_row len sLineSize fields h
  constructor
  · rintro ⟨fuel', passes', hrun', hinside⟩ t ht r hr
    obtain rfl := rowLoop_unique hrun' hrun
    have hlt := (hmade t).mpr ht
    exact (hlays t _ (List.getElem?_eq_getElem hlt) r hr).inside_iff.mp
      (hinside _ (List.getElem_mem hlt))
  · intro hwidths
    refine ⟨fuel, passes, hrun, fun pass hmem => ?_⟩
    obtain ⟨t, ht, rfl⟩ := List.getElem_of_mem hmem
    obtain ⟨r, hr⟩ := @layout_row sLineSize t fields
    exact (hlays t _ (List.getElem?_eq_getElem ht) r hr).inside_iff.mpr
      (hwidths t ((hmade t).mp ht) r hr)

end bounds

/-! ## Settings and values -/

/-- The settings that `SetColSize` and `SetLineSize` accept, and a size of the buffer with which
`main` goes on. -/
structure Settings where
  ColSize : Nat
  LineSize : Nat
  CommandLen : Nat
  colSize_le : ColSize ≤ 32767
  lineSize_ge : 10 ≤ LineSize
  lineSize_le : LineSize ≤ 32767
  commandLen_ge : 65536 ≤ CommandLen

/-- A cell as `SelectExecute` binds it: a name has at most `QP_MAX_NAME_LEN` characters, a value
fits in the memory that it is given, and a number in the array `sTmp`. -/
structure Cell.Ok (c : Cell) : Prop where
  name : c.m_Name.length ≤ qpMaxNameLen
  value : c.m_Type.isText → c.m_CValue.length ≤ colSize 0 c.m_Type c.m_Precision
  number : ∀ sTmp ∈ c.number, sTmp.length < if c.m_Type = .real then 16 else 32

def Settings.fields (s : Settings) (cells : List Cell) : List Field :=
  cells.map fun c => c.field s.ColSize

/-- The display of the header and of a row ends, and stays in the buffer. -/
structure StaysInside (s : Settings) (cells : List Cell) : Prop where
  headings : ∀ line ∈ printHeader s.LineSize [] 0 (s.fields cells), ∀ h ∈ line.headings,
    h.length + 1 ≤ s.CommandLen
  dashes : ∀ line ∈ printHeader s.LineSize [] 0 (s.fields cells), line.LineSize + 3 ≤ s.CommandLen
  row : ∃ fuel passes, row s.CommandLen s.LineSize fuel (s.fields cells) = some passes ∧
    ∀ pass ∈ passes, ∀ line ∈ pass.lines, line.inside = true

/-- From the second pass on, the finished columns, which are not counted, and the others do not make
a line too long. -/
def Roomy (s : Settings) (cells : List Cell) : Prop :=
  ∀ t, 0 < t → (∃ f ∈ s.fields cells, (f.at t).isSome) → ∀ k,
    lineWidth ((headerGroups s.LineSize [] (s.fields cells)).map List.length) k 0
      (fieldsAt (s.fields cells) t) + 2 ≤ s.CommandLen

section settings

variable {s : Settings} {c : Cell} {cells : List Cell} {group : List Field}

theorem Cell.Ok.sized (h : c.Ok) : (c.field s.ColSize).Sized := by
  intro htype
  by_cases hsize : 0 < (c.field s.ColSize).size
  · exact Or.inl hsize
  · have hvalue := h.value htype
    have hzero : colSize 0 c.m_Type c.m_Precision = 0 := by
      have hsize' : ¬0 < colSize s.ColSize c.m_Type c.m_Precision := hsize
      cases hm : c.m_Type <;> rw [hm] at hsize' <;> simp only [colSize] at hsize' ⊢ <;>
        (try split_ifs at hsize' ⊢) <;> omega
    rw [hzero, Nat.le_zero, List.length_eq_zero_iff] at hvalue
    refine Or.inr ?_
    rw [Field.text, Cell.field]
    simp only [hvalue, List.rdropWhile_nil, ite_self]

theorem size_le_extent (f : Field) : f.size + 2 ≤ f.extent := by
  rw [Field.extent]
  omega

theorem size_le_extent_text {f : Field} (h : f.m_Type.isText = true) : f.size + 3 ≤ f.extent := by
  rw [Field.extent, if_pos h]
  omega

/-- The array `sTmp` bounds the width of a number. -/
theorem numberWidth_le {f : Field} {width n : Nat} (hsize : f.size = width) (hwidth : width < n)
    (h : ∀ sTmp ∈ f.number, sTmp.length < n) : f.numberWidth width ≤ n := by
  rw [Field.numberWidth]
  cases hnumber : f.number with
  | none =>
    dsimp only
    omega
  | some sTmp =>
    have hlength : sTmp.length < n := h sTmp hnumber
    have hnot : ¬width < f.size := by omega
    simp only [if_neg hnot]
    omega

/-- The width of a column in the first pass, against `ColSize` and against the header. -/
theorem Cell.Ok.width_le (h : c.Ok) :
    (c.field s.ColSize).width ≤ (c.field s.ColSize).size + 10 ∧
      3 * (c.field s.ColSize).width ≤ 4 * (c.field s.ColSize).extent := by
  have hextent := size_le_extent (c.field s.ColSize)
  rcases (c.field s.ColSize).m_Type.kinds with htext | hplain | hm | hm | hm
  · have htextent := size_le_extent_text htext
    rw [Field.width_text htext]
    omega
  · rw [Field.width_plain hplain]
    omega
  · have hsize : (c.field s.ColSize).size = 22 := by
      have hm' : c.m_Type = .double := hm
      rw [Cell.field, hm', colSize]
    have hnumber : (c.field s.ColSize).numberWidth 22 ≤ 32 := by
      refine numberWidth_le hsize (by decide) fun sTmp hsTmp => ?_
      have hlength := h.number sTmp hsTmp
      rwa [if_neg (show ¬c.m_Type = .real from fun heq => by cases hm.symm.trans heq)] at hlength
    have hwidth : (c.field s.ColSize).width = (c.field s.ColSize).numberWidth 22 := by
      simp only [Field.width, hm]
    omega
  · have hm' : c.m_Type = .real := hm
    have hsize : (c.field s.ColSize).size = 13 := by
      rw [Cell.field, hm', colSize]
    have hnumber : (c.field s.ColSize).numberWidth 13 ≤ 16 := by
      refine numberWidth_le hsize (by decide) fun sTmp hsTmp => ?_
      have hlength := h.number sTmp hsTmp
      rwa [if_pos hm'] at hlength
    have hwidth : (c.field s.ColSize).width = (c.field s.ColSize).numberWidth 13 := by
      simp only [Field.width, hm]
    omega
  · have hwidth : (c.field s.ColSize).width = 1 := by
      simp only [Field.width, hm]
    omega

theorem Cell.Ok.extent_le (h : c.Ok) :
    (c.field s.ColSize).extent ≤ (c.field s.ColSize).size + 43 := by
  have hname : (c.field s.ColSize).m_Name.length ≤ 40 := h.name
  rw [Field.extent]
  split <;> omega

theorem sum_width_le (hok : ∀ f ∈ group, ∃ c : Cell, c.Ok ∧ f = c.field s.ColSize) :
    3 * (group.map Field.width).sum ≤ 4 * lineSize group := by
  induction group with
  | nil => exact Nat.le_refl 0
  | cons f group ih =>
    obtain ⟨c, hc, rfl⟩ := hok f List.mem_cons_self
    have hwidth := (hc.width_le (s := s)).2
    have hrest := ih fun g hg => hok g (List.mem_cons_of_mem _ hg)
    rw [lineSize] at hrest ⊢
    rw [List.map_cons, List.sum_cons, List.map_cons, List.sum_cons]
    omega

/-- A line of the header has room for its row. -/
theorem group_bounds (hok : ∀ f ∈ group, ∃ c : Cell, c.Ok ∧ f = c.field s.ColSize)
    (hhalf : ∀ f ∈ group, 2 * f.size < s.CommandLen) (hne : group ≠ [])
    (hfitted : Fitted s.LineSize group) :
    (group.map Field.width).sum + 2 ≤ s.CommandLen ∧ lineSize group + 3 ≤ s.CommandLen := by
  obtain ⟨before, f, rfl⟩ := (List.eq_nil_or_concat' group).resolve_left hne
  have hmem : f ∈ before ++ [f] := List.mem_append_right before List.mem_cons_self
  obtain ⟨c, hc, hf⟩ := hok f hmem
  have hwidth : f.width ≤ f.size + 10 := hf ▸ (hc.width_le (s := s)).1
  have hextent : f.extent ≤ f.size + 43 := hf ▸ hc.extent_le (s := s)
  have hsize := hhalf f hmem
  have hlen := s.commandLen_ge
  have hline : lineSize (before ++ [f]) = lineSize before + f.extent := by
    rw [lineSize, List.map_append, List.sum_append, List.map_singleton, List.sum_singleton,
      lineSize]
  rw [List.map_append, List.sum_append, List.map_singleton, List.sum_singleton, hline]
  by_cases hbefore : before = []
  · subst hbefore
    rw [List.map_nil, List.sum_nil, lineSize, List.map_nil, List.sum_nil]
    omega
  · have hroom := hfitted before f rfl hbefore
    have hmax := s.lineSize_le
    have hsum := sum_width_le (s := s) fun g hg => hok g (List.mem_append_left _ hg)
    omega

theorem heading_length (f : Field) : (heading f).length + 1 = f.extent := by
  rw [heading, List.length_append, List.length_append, padded_length, List.length_singleton,
    Field.extent]
  split
  · rw [List.length_singleton]
    omega
  · rw [List.length_nil]
    omega

theorem fields_ok (hok : ∀ c ∈ cells, c.Ok) {f : Field} (hf : f ∈ s.fields cells) :
    ∃ c : Cell, c.Ok ∧ f = c.field s.ColSize := by
  obtain ⟨c, hc, rfl⟩ := List.mem_map.mp hf
  exact ⟨c, hok c hc, rfl⟩

/-- The lines of the header have room. -/
theorem headerGroups_bounds (hok : ∀ c ∈ cells, c.Ok)
    (hhalf : ∀ c ∈ cells, 2 * colSize s.ColSize c.m_Type c.m_Precision < s.CommandLen)
    (hmem : group ∈ headerGroups s.LineSize [] (s.fields cells)) :
    (group.map Field.width).sum + 2 ≤ s.CommandLen ∧ lineSize group + 3 ≤ s.CommandLen := by
  have hsub : ∀ f ∈ group, f ∈ s.fields cells := fun f hf => headerGroups_mem hmem hf
  apply group_bounds
  · exact fun f hf => fields_ok hok (hsub f hf)
  · intro f hf
    obtain ⟨c, hc, rfl⟩ := List.mem_map.mp (hsub f hf)
    exact hhalf c hc
  · exact headerGroups_ne_nil hmem
  · exact fitted_headerGroups (fun h => absurd rfl h) hmem

theorem printHeader_groups : printHeader s.LineSize [] 0 (s.fields cells) =
    (headerGroups s.LineSize [] (s.fields cells)).map headerLine :=
  @printHeader_eq s.LineSize [] (s.fields cells)

theorem row_first (hok : ∀ c ∈ cells, c.Ok)
    (hhalf : ∀ c ∈ cells, 2 * colSize s.ColSize c.m_Type c.m_Precision < s.CommandLen) {r : Layout}
    (hr : layout 0 (headerRow s.LineSize (s.fields cells)) 0 0 (fieldsAt (s.fields cells) 0) =
      some r) : ∀ width ∈ r.widths, width + 2 ≤ s.CommandLen := by
  by_cases hne : s.fields cells = []
  · rw [hne] at hr
    cases hr
    intro width hwidth
    rw [List.mem_singleton.mp hwidth]
    have hlen := s.commandLen_ge
    omega
  · rw [widths_first hne hr, List.forall_mem_map]
    exact fun group hmem => (headerGroups_bounds hok hhalf hmem).1

/-- A pass that is not the first has room exactly if its lines have. -/
theorem row_later {t : Nat} (hmore : ∃ f ∈ s.fields cells, (f.at t).isSome) :
    (∀ r ∈ layout 0 (headerRow s.LineSize (s.fields cells)) 0 0 (fieldsAt (s.fields cells) t),
      ∀ width ∈ r.widths, width + 2 ≤ s.CommandLen) ↔
    ∀ k, lineWidth ((headerGroups s.LineSize [] (s.fields cells)).map List.length) k 0
      (fieldsAt (s.fields cells) t) + 2 ≤ s.CommandLen := by
  obtain ⟨f, hf, -⟩ := hmore
  obtain ⟨g, gs, hgroups, -, hrow, hne, -⟩ :=
    @exists_groups s.LineSize (s.fields cells) (List.ne_nil_of_mem hf)
  obtain ⟨r, hr⟩ := @layout_row s.LineSize t (s.fields cells)
  have hlen : 2 ≤ s.CommandLen := le_trans (by decide) s.commandLen_ge
  have hg : 0 < g.length := List.length_pos_iff.mpr (hne g List.mem_cons_self)
  have hgs : ∀ h ∈ gs.map List.length, 0 < h := by
    rw [List.forall_mem_map]
    exact fun g' hg' => List.length_pos_iff.mpr (hne g' (List.mem_cons_of_mem g hg'))
  rw [hrow] at hr ⊢
  rw [hgroups, List.map_cons, ← widths_iff hlen hg hgs hr, hr]
  simp only [Option.mem_some_iff, forall_eq']

end settings

/-- The display of a row ends and stays in the buffer exactly if the later passes have room. -/
theorem staysInside_iff (s : Settings) (cells : List Cell) (hok : ∀ c ∈ cells, c.Ok)
    (hhalf : ∀ c ∈ cells, 2 * colSize s.ColSize c.m_Type c.m_Precision < s.CommandLen) :
    StaysInside s cells ↔ Roomy s cells := by
  have hsized : ∀ f ∈ s.fields cells, f.Sized := by
    intro f hf
    obtain ⟨c, hc, rfl⟩ := fields_ok hok hf
    exact hc.sized
  have hrow := @row_inside_iff s.CommandLen s.LineSize _ hsized
  constructor
  · intro h t ht hmore
    exact (row_later hmore).mp (hrow.mp h.row t (Or.inr hmore))
  · refine fun h => ⟨?_, ?_, hrow.mpr fun t hmade r hr => ?_⟩
    · rw [printHeader_groups, List.forall_mem_map]
      intro group hmem heading' hheading
      obtain ⟨f, hf, rfl⟩ := List.mem_map.mp hheading
      have hle : f.extent ≤ lineSize group := List.le_sum_of_mem (List.mem_map.mpr ⟨f, hf, rfl⟩)
      have hline := (headerGroups_bounds hok hhalf hmem).2
      rw [heading_length]
      omega
    · rw [printHeader_groups, List.forall_mem_map]
      exact fun group hmem => (headerGroups_bounds hok hhalf hmem).2
    · rcases Nat.eq_zero_or_pos t with rfl | ht
      · exact row_first hok hhalf hr
      · have hmore := hmade.resolve_left ht.ne'
        exact (row_later hmore).mpr (h t ht hmore) r hr

/-- An INTEGER and a VARCHAR that fits into its column. -/
theorem staysInside_short : StaysInside ⟨0, 80, 65536, by decide, by decide, by decide, by decide⟩
    [⟨[73], .integer, 10, [52, 50], none⟩, ⟨[65, 66], .varchar, 5, [97, 98, 99], none⟩] := by
  refine (staysInside_iff _ _ ?_ ?_).mpr ?_
  · simp only [List.forall_mem_cons]
    exact ⟨⟨by decide, nofun, nofun⟩, ⟨by decide, fun _ => by decide, nofun⟩, nofun⟩
  · simp only [List.forall_mem_cons]
    exact ⟨by decide, by decide, nofun⟩
  · rintro t ht ⟨f, hf, hsome⟩
    -- both columns are finished behind the first pass
    have hnone : f.at 1 = none := by
      rcases List.mem_cons.mp hf with rfl | hf
      · rfl
      · rw [List.mem_singleton.mp hf]
        rfl
    rw [at_of_le ht hnone] at hsome
    cases hsome

/-! ## A row that leaves the buffer -/

def wideSettings : Settings :=
  ⟨32000, 80, 65536, by decide, by decide, by decide, by decide⟩

def wideCell (m_Name : UInt8) (m_CValue : Bytes) : Cell :=
  ⟨[m_Name], .varchar, 32001, m_CValue, none⟩

/-- Two values that are finished behind the first pass, and one that is not. -/
def wideCells : List Cell :=
  [wideCell 65 [], wideCell 66 [], wideCell 67 (List.replicate 32001 97)]

theorem wide_at {value : Bytes} (m_Name : UInt8) (hlength : value.length = 32001)
    (hbyte : value.getD 31999 0 = 97) :
    ((wideCell m_Name value).field 32000).at 1 = some 32000 := by
  have htext : ((wideCell m_Name value).field 32000).text = value := rfl
  have hsize : ((wideCell m_Name value).field 32000).size = 32000 := rfl
  have hmoved : ((wideCell m_Name value).field 32000).moved 0 = 32000 := by
    rw [Field.moved, htext, hsize, moved, hlength, hbyte, if_neg (by decide)]
    rfl
  exact next_eq_some_iff.mpr ⟨rfl, by rw [hmoved], by rw [htext, hlength]; decide⟩

theorem wide_ok {m_Name : UInt8} {value : Bytes} (h : value.length ≤ 32001) :
    (wideCell m_Name value).Ok where
  name := show 1 ≤ 40 by decide
  value := fun _ => h
  number := fun _ hnone => by cases hnone

/-- The third column of `wideCells` is printed behind the blanks for the two others. -/
theorem not_staysInside_wide : (∀ c ∈ wideCells, c.Ok) ∧
    (∀ c ∈ wideCells, 2 * colSize wideSettings.ColSize c.m_Type c.m_Precision <
      wideSettings.CommandLen) ∧ ¬StaysInside wideSettings wideCells := by
  have hok : ∀ c ∈ wideCells, c.Ok := by
    simp only [wideCells, List.forall_mem_cons]
    refine ⟨wide_ok (Nat.zero_le _), wide_ok (Nat.zero_le _), wide_ok ?_, nofun⟩
    rw [List.length_replicate]
  have hhalf : ∀ c ∈ wideCells, 2 * colSize wideSettings.ColSize c.m_Type c.m_Precision <
      wideSettings.CommandLen := by
    simp only [wideCells, List.forall_mem_cons]
    exact ⟨by decide, by decide, by decide, nofun⟩
  refine ⟨hok, hhalf, fun h => ?_⟩
  have hsized : ∀ f ∈ wideSettings.fields wideCells, f.Sized := by
    intro f hf
    obtain ⟨c, hc, rfl⟩ := fields_ok hok hf
    exact hc.sized
  have hrow : headerRow 80 (wideSettings.fields wideCells) = [1, 1, 1] := by
    rw [headerRow_eq]
    rfl
  have hthird : ((wideCell 67 (List.replicate 32001 97)).field 32000).at 1 = some 32000 := by
    exact wide_at 67 List.length_replicate (List.getD_replicate 97 (by decide))
  have hlayout : layout 0 (headerRow 80 (wideSettings.fields wideCells)) 0 0
      (fieldsAt (wideSettings.fields wideCells) 1) =
        some ⟨[none, none, some (0, 64004)], [96006]⟩ := by
    have hfields : fieldsAt (wideSettings.fields wideCells) 1 =
        [((wideCell 65 []).field 32000, none), ((wideCell 66 []).field 32000, none),
          ((wideCell 67 (List.replicate 32001 97)).field 32000, some 32000)] := by
      rw [← hthird]
      rfl
    rw [hrow, hfields]
    rfl
  have hmade : Made (wideSettings.fields wideCells) 1 := by
    refine Or.inr ⟨(wideCell 67 (List.replicate 32001 97)).field 32000, ?_, ?_⟩
    · exact List.mem_map_of_mem (List.mem_cons_of_mem _ (List.mem_cons_of_mem _ List.mem_cons_self))
    · rw [hthird]
      rfl
  have hwidth := (row_inside_iff hsized).mp h.row 1 hmade _ hlayout 96006 List.mem_cons_self
  exact absurd hwidth (by decide)

end Natc.Isql.Display
