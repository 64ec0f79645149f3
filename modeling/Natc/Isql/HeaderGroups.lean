import Mathlib.Algebra.GroupWithZero.Nat
import Natc.Isql.RowLayout

/-!
# The lines of the header

`PrintHeader` divides the columns into groups, one for each line. The first pass of a row has the
same lines.
-/

namespace Natc.Isql.Display

/-! ## Groups -/

/-- What a column adds to `LineSize`. -/
def Field.extent (f : Field) : Nat :=
  max f.m_Name.length f.size + (if f.m_Type.isText then 1 else 0) + 2

def lineSize (group : List Field) : Nat :=
  (group.map Field.extent).sum

/-- The columns of the lines of the header, where `group` is the begin of the first line. -/
def headerGroups (sLineSize : Nat) (group : List Field) : List Field → List (List Field)
  | [] => []
  | f :: fields =>
      match fields with
      | [] => [group ++ [f]]
      | g :: _ =>
          if sLineSize < lineSize (group ++ [f]) + g.size then
            (group ++ [f]) :: headerGroups sLineSize [] fields
          else headerGroups sLineSize (group ++ [f]) fields

def headerLine (group : List Field) : HeaderLine where
  headings := group.map heading
  LineSize := lineSize group

/-- Each column but the first of a line has found room in `LINESIZE`. -/
def Fitted (sLineSize : Nat) (group : List Field) : Prop :=
  ∀ before f, group = before ++ [f] → before ≠ [] → lineSize before + f.size ≤ sLineSize

section groups

variable {sLineSize : Nat} {group fields : List Field} {f : Field}

theorem lineSize_append : lineSize (group ++ [f]) = lineSize group +
    max f.m_Name.length f.size + (if f.m_Type.isText then 1 else 0) + 2 := by
  rw [lineSize, List.map_append, List.sum_append, List.map_singleton, List.sum_singleton,
    Field.extent, lineSize]
  omega

theorem printHeader_eq : printHeader sLineSize (group.map heading) (lineSize group) fields =
    (headerGroups sLineSize group fields).map headerLine := by
  induction fields generalizing group with
  | nil => rfl
  | cons f fields ih =>
    have hgroup := @ih (group ++ [f])
    have hempty := @ih []
    rw [List.map_append, List.map_singleton, lineSize_append] at hgroup
    cases fields with
    | nil =>
      simp only [printHeader, headerGroups, List.map_singleton, headerLine, List.map_append,
        lineSize_append]
    | cons g fields =>
      rw [printHeader, headerGroups, ← lineSize_append]
      split
      · rw [List.map_cons, ← hempty]
        simp only [headerLine, List.map_append, List.map_singleton]
        rfl
      · rw [← hgroup, lineSize_append]

theorem headerRow_eq :
    headerRow sLineSize fields = (headerGroups sLineSize [] fields).map List.length := by
  have hheader := @printHeader_eq sLineSize [] fields
  rw [headerRow]
  rw [List.map_nil] at hheader
  rw [show (0 : Nat) = lineSize [] from rfl, hheader, List.map_map]
  refine List.map_congr_left fun group _ => ?_
  exact List.length_map heading

theorem flatten_headerGroups (h : fields ≠ []) :
    (headerGroups sLineSize group fields).flatten = group ++ fields := by
  induction fields generalizing group with
  | nil => exact absurd rfl h
  | cons f fields ih =>
    cases fields with
    | nil => exact List.append_nil _
    | cons g fields =>
      have hmore := List.cons_ne_nil g fields
      rw [headerGroups]
      split
      · rw [List.flatten_cons, ih hmore, List.nil_append, List.append_assoc, List.singleton_append]
      · rw [ih hmore, List.append_assoc, List.singleton_append]

theorem headerGroups_mem {g : List Field} (hg : g ∈ headerGroups sLineSize [] fields) (hf : f ∈ g) :
    f ∈ fields := by
  have hne : fields ≠ [] := by
    rintro rfl
    exact List.not_mem_nil hg
  have hflatten := @flatten_headerGroups sLineSize [] fields hne
  rw [List.nil_append] at hflatten
  rw [← hflatten]
  exact List.mem_flatten_of_mem hg hf

theorem headerGroups_ne_nil {g : List Field} (hg : g ∈ headerGroups sLineSize group fields) :
    g ≠ [] := by
  induction fields generalizing group with
  | nil => exact absurd hg List.not_mem_nil
  | cons f fields ih =>
    cases fields with
    | nil =>
      rw [List.mem_singleton.mp hg]
      exact List.append_ne_nil_of_right_ne_nil _ (List.cons_ne_nil f [])
    | cons d fields =>
      rw [headerGroups] at hg
      split at hg
      · rcases List.mem_cons.mp hg with rfl | hg
        · exact List.append_ne_nil_of_right_ne_nil _ (List.cons_ne_nil f [])
        · exact ih hg
      · exact ih hg

theorem fitted_append (h : group ≠ [] → lineSize group + f.size ≤ sLineSize) :
    Fitted sLineSize (group ++ [f]) := by
  intro before g heq hne
  obtain ⟨rfl, hlast⟩ := List.append_inj' heq rfl
  rw [← List.head_eq_of_cons_eq hlast]
  exact h hne

/-- The lines of the header are filled up to `LINESIZE`. -/
theorem fitted_headerGroups {g : List Field}
    (h : group ≠ [] → ∀ f ∈ fields.head?, lineSize group + f.size ≤ sLineSize)
    (hg : g ∈ headerGroups sLineSize group fields) : Fitted sLineSize g := by
  induction fields generalizing group with
  | nil => exact absurd hg List.not_mem_nil
  | cons f fields ih =>
    have hfirst : Fitted sLineSize (group ++ [f]) := fitted_append fun hne => h hne f rfl
    cases fields with
    | nil =>
      rw [List.mem_singleton.mp hg]
      exact hfirst
    | cons d fields =>
      rw [headerGroups] at hg
      split at hg
      · rcases List.mem_cons.mp hg with rfl | hg
        · exact hfirst
        · exact ih (fun hne => absurd rfl hne) hg
      · next hroom =>
        refine ih (fun _ e he => ?_) hg
        rw [List.head?_cons, Option.mem_some_iff] at he
        rw [← he]
        exact Nat.not_lt.mp hroom

end groups

/-! ## Layouts -/

abbrev Item := Field × Option Nat

def itemWidth (item : Item) : Nat :=
  match item.2 with
  | none => item.1.padding
  | some _ => item.1.width

/-- The columns that are counted, as they are not finished. -/
def counted (items : List Item) : Nat :=
  items.countP fun item => item.2.isSome

/-- The places of columns on one line. -/
def placesIn (q offset : Nat) : List Item → List (Option (Nat × Nat))
  | [] => []
  | item :: items =>
      (item.2.map fun _ => (q, offset)) :: placesIn q (offset + itemWidth item) items

section layouts

variable {q h p offset : Nat} {rest : List Nat} {items more : List Item} {f : Field} {pos : Nat}

theorem breaks_of_lt (hp : p < h) : breaks (h :: rest) p = some (0, h :: rest, p + 1) := by
  rw [breaks, if_pos hp]

theorem breaks_full {h' : Nat} (hpos : 0 < h') :
    breaks (h :: h' :: rest) h = some (1, h' :: rest, 1) := by
  rw [breaks, if_neg (Nat.lt_irrefl h), breaks_of_lt hpos]
  rfl

theorem counted_cons (item : Item) (items : List Item) :
    counted (item :: items) = counted items + if item.2.isSome then 1 else 0 :=
  List.countP_cons

/-- Columns for which there is room on the line. -/
theorem layout_append (hp : p + counted items ≤ h) :
    layout q (h :: rest) p offset (items ++ more) =
      (layout q (h :: rest) (p + counted items) (offset + (items.map itemWidth).sum) more).map
        fun r => { r with places := placesIn q offset items ++ r.places } := by
  induction items generalizing p offset with
  | nil =>
    rw [List.nil_append]
    exact Option.map_id'.symm
  | cons item items ih =>
    obtain ⟨f, o⟩ := item
    rw [counted_cons] at hp
    cases o with
    | none =>
      have hcounted : counted ((f, none) :: items) = counted items := rfl
      have hp' : p + counted items ≤ h := hp
      rw [List.cons_append, layout, ih hp', hcounted, List.map_cons, List.sum_cons, ← Nat.add_assoc,
        Option.map_map]
      rfl
    | some pos =>
      have hcounted : counted ((f, some pos) :: items) = counted items + 1 := counted_cons _ _
      have hp' : p + 1 + counted items ≤ h := by
        rw [Option.isSome_some, if_pos rfl] at hp
        omega
      have hcount : p + counted ((f, some pos) :: items) = p + 1 + counted items := by
        rw [hcounted, Nat.add_comm (counted items), Nat.add_assoc]
      rw [List.cons_append, layout, breaks_of_lt (by omega), hcount, List.map_cons, List.sum_cons,
        ← Nat.add_assoc]
      simp only [if_true, Nat.add_zero, ih hp', Option.map_map]
      rfl

/-- A column for which there is no room begins the next line. -/
theorem layout_break {h' : Nat} (hpos : 0 < h') :
    layout q (h :: h' :: rest) h offset ((f, some pos) :: more) =
      (layout (q + 1) (h' :: rest) 1 f.width more).map fun r =>
        ⟨some (q + 1, 0) :: r.places, offset :: r.widths⟩ := by
  rw [layout, breaks_full hpos]
  simp only [Nat.one_ne_zero, if_false, Nat.zero_add]
  rfl

/-- There is a layout if there are no more columns than in the header. -/
theorem layout_exists (hpos : ∀ h ∈ rest, 0 < h) (hp : p ≤ h)
    (hcount : p + counted items ≤ (h :: rest).sum) :
    ∃ r, layout q (h :: rest) p offset items = some r := by
  induction items generalizing q h rest p offset with
  | nil => exact ⟨_, rfl⟩
  | cons item items ih =>
    obtain ⟨f, o⟩ := item
    rw [counted_cons] at hcount
    cases o with
    | none =>
      obtain ⟨r, hr⟩ := @ih q h p (offset + f.padding) rest hpos hp hcount
      exact ⟨_, by rw [layout, hr, Option.map_some]⟩
    | some pos =>
      rw [Option.isSome_some, if_pos rfl] at hcount
      rcases Nat.lt_or_eq_of_le hp with hlt | rfl
      · obtain ⟨r, hr⟩ := @ih q h (p + 1) (offset + f.width) rest hpos hlt (by omega)
        refine ⟨⟨some (q, offset) :: r.places, r.widths⟩, ?_⟩
        rw [layout, breaks_of_lt hlt]
        simp only [if_true, Nat.add_zero, hr, Option.map_some]
        rfl
      · cases rest with
        | nil =>
          rw [List.sum_singleton] at hcount
          omega
        | cons h' rest =>
          have hh' := hpos h' List.mem_cons_self
          rw [List.sum_cons] at hcount
          obtain ⟨r, hr⟩ := @ih (q + 1) h' 1 f.width rest
            (fun h hh => hpos h (List.mem_cons_of_mem h' hh)) hh' (by omega)
          exact ⟨_, by rw [layout_break hh', hr, Option.map_some]⟩

/-- A group whose first column begins a line. -/
theorem layout_group {h' : Nat} (hcount : counted ((f, some pos) :: items) ≤ h') :
    layout q (h :: h' :: rest) h offset ((f, some pos) :: items ++ more) =
      (layout (q + 1) (h' :: rest) (counted ((f, some pos) :: items))
        (((f, some pos) :: items).map itemWidth).sum more).map fun r =>
          ⟨placesIn (q + 1) 0 ((f, some pos) :: items) ++ r.places, offset :: r.widths⟩ := by
  have hcounted : counted ((f, some pos) :: items) = 1 + counted items := by
    rw [counted_cons, Nat.add_comm]
    rfl
  rw [hcounted] at hcount ⊢
  have hpos : 0 < h' := by omega
  rw [List.cons_append, layout_break hpos, layout_append hcount, Option.map_map, List.map_cons,
    List.sum_cons]
  have hfirst : placesIn (q + 1) 0 ((f, some pos) :: items) =
      some (q + 1, 0) :: placesIn (q + 1) f.width items := by
    rw [placesIn, Nat.zero_add]
    rfl
  rw [hfirst]
  rfl

end layouts

/-! ## Layouts of a row -/

section row

variable {sLineSize t : Nat} {fields group : List Field}

theorem fieldsAt_append (before behind : List Field) :
    fieldsAt (before ++ behind) t = fieldsAt before t ++ fieldsAt behind t :=
  List.map_append

theorem counted_fieldsAt_le : counted (fieldsAt group t) ≤ group.length := by
  have hle := @List.countP_le_length _ (fun item : Item => item.2.isSome) (fieldsAt group t)
  rwa [fieldsAt, List.length_map] at hle

theorem counted_first : counted (fieldsAt group 0) = group.length := by
  have hall : ∀ item ∈ fieldsAt group 0, item.2.isSome = true := by
    intro item hitem
    obtain ⟨f, -, rfl⟩ := List.mem_map.mp hitem
    rfl
  rw [counted, List.countP_eq_length.mpr hall, fieldsAt, List.length_map]

/-- The header of a row that has columns. -/
theorem exists_groups (h : fields ≠ []) : ∃ g gs, headerGroups sLineSize [] fields = g :: gs ∧
    fields = g ++ gs.flatten ∧ headerRow sLineSize fields = g.length :: gs.map List.length ∧
    (∀ g' ∈ g :: gs, g' ≠ []) ∧ ∀ g' ∈ g :: gs, Fitted sLineSize g' := by
  have hflatten := @flatten_headerGroups sLineSize [] fields h
  rw [List.nil_append] at hflatten
  cases hgroups : headerGroups sLineSize [] fields with
  | nil =>
    rw [hgroups] at hflatten
    exact absurd hflatten.symm h
  | cons g gs =>
    rw [hgroups, List.flatten_cons] at hflatten
    refine ⟨g, gs, rfl, hflatten.symm, ?_, fun g' hg' => ?_, fun g' hg' => ?_⟩
    · rw [headerRow_eq, hgroups, List.map_cons]
    · exact headerGroups_ne_nil (hgroups ▸ hg')
    · exact fitted_headerGroups (fun hne => absurd rfl hne) (hgroups ▸ hg')

theorem sum_lengths (gs : List (List Field)) : (gs.map List.length).sum = gs.flatten.length :=
  List.length_flatten.symm

/-- Every pass of a row has a layout. -/
theorem layout_row :
    ∃ r, layout 0 (headerRow sLineSize fields) 0 0 (fieldsAt fields t) = some r := by
  by_cases h : fields = []
  · subst h
    exact ⟨_, rfl⟩
  · obtain ⟨g, gs, -, hfields, hrow, hne, -⟩ := @exists_groups sLineSize fields h
    rw [hrow]
    apply layout_exists
    · intro k hk
      obtain ⟨g', hg', rfl⟩ := List.mem_map.mp hk
      exact List.length_pos_iff.mpr (hne g' (List.mem_cons_of_mem g hg'))
    · exact Nat.zero_le _
    · rw [Nat.zero_add, List.sum_cons, sum_lengths, ← List.length_append, ← hfields]
      exact counted_fieldsAt_le

theorem itemWidth_first : (fieldsAt group 0).map itemWidth = group.map Field.width := by
  rw [fieldsAt, List.map_map]
  rfl

/-- Behind a full line, the first pass goes on with the lines of the header. -/
theorem layout_first {q h offset : Nat} {gs : List (List Field)} {r : Layout}
    (hne : ∀ g ∈ gs, g ≠ [])
    (hr : layout q (h :: gs.map List.length) h offset (fieldsAt gs.flatten 0) = some r) :
    r.widths = offset :: gs.map fun g => (g.map Field.width).sum := by
  induction gs generalizing q h offset r with
  | nil =>
    cases hr
    rfl
  | cons g gs ih =>
    obtain ⟨f, g', rfl⟩ := List.exists_cons_of_ne_nil (hne g List.mem_cons_self)
    have hcount : counted ((f, some 0) :: fieldsAt g' 0) = (f :: g').length :=
      @counted_first (f :: g')
    have hwidths : ((f, some 0) :: fieldsAt g' 0).map itemWidth = (f :: g').map Field.width :=
      @itemWidth_first (f :: g')
    have hitems : fieldsAt (List.flatten ((f :: g') :: gs)) 0 =
        (f, some 0) :: fieldsAt g' 0 ++ fieldsAt gs.flatten 0 := by
      rw [List.flatten_cons, fieldsAt_append]
      rfl
    rw [hitems, List.map_cons, layout_group hcount.le, hcount, hwidths] at hr
    obtain ⟨r, hrest, rfl⟩ := Option.map_eq_some_iff.mp hr
    rw [List.map_cons, ← ih (fun g hg => hne g (List.mem_cons_of_mem _ hg)) hrest]

/-- The first pass has the lines of the header. -/
theorem widths_first {r : Layout} (h : fields ≠ [])
    (hr : layout 0 (headerRow sLineSize fields) 0 0 (fieldsAt fields 0) = some r) :
    r.widths = (headerGroups sLineSize [] fields).map fun g => (g.map Field.width).sum := by
  obtain ⟨g, gs, hgroups, hfields, hrow, hne, -⟩ := @exists_groups sLineSize fields h
  have hcount : 0 + counted (fieldsAt g 0) ≤ g.length := by
    rw [counted_first, Nat.zero_add]
  rw [hrow, hfields, fieldsAt_append, layout_append hcount, counted_first, itemWidth_first,
    Nat.zero_add, Nat.zero_add] at hr
  obtain ⟨r, hrest, rfl⟩ := Option.map_eq_some_iff.mp hr
  have hwidths := layout_first (fun g' hg' => hne g' (List.mem_cons_of_mem g hg')) hrest
  rw [hgroups, List.map_cons]
  exact hwidths

end row

end Natc.Isql.Display
