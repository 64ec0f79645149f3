import Mathlib.Data.List.Forall2
import Natc.Isql.HeaderGroups

/-!
# Columns under their headings

A pass prints a column under its heading if the columns in front of it on its line are as wide as
their headings, and the lines begin with the columns with which the lines of the header begin.
-/

namespace Natc.Isql.Display

/-! ## Places of headings -/

/-- The places of the headings of a line. -/
def placesOf (q offset : Nat) : List Bytes → List (Nat × Nat)
  | [] => []
  | h :: headings => (q, offset) :: placesOf q (offset + h.length) headings

/-- The line and the offset of each heading. -/
def headingPlaces (q : Nat) : List HeaderLine → List (Nat × Nat)
  | [] => []
  | line :: lines => placesOf q 0 line.headings ++ headingPlaces (q + 1) lines

/-- A column that is shown is shown under its heading. -/
def AtHeading (place : Option (Nat × Nat)) (heading : Nat × Nat) : Prop :=
  ∀ p ∈ place, p = heading

abbrev Aligned (places : List (Option (Nat × Nat))) (headings : List (Nat × Nat)) : Prop :=
  List.Forall₂ AtHeading places headings

/-- The width of the headings of columns. -/
def headed (fields : List Field) : Nat :=
  (fields.map fun f => (heading f).length).sum

/-- The columns in front of a column that is shown are as wide as their headings. -/
def InLine (t : Nat) (group : List Field) : Prop :=
  ∀ before f behind, group = before ++ f :: behind → (f.at t).isSome →
    ((fieldsAt before t).map itemWidth).sum = headed before

/-- If a column is shown, the lines in front of its line are full, and the first column of its line
is shown; `full` is about the lines in front of `groups`. -/
def Kept (t : Nat) (full : Prop) (groups : List (List Field)) : Prop :=
  ∀ before g behind, groups = before ++ g :: behind → ∀ f ∈ g, (f.at t).isSome →
    full ∧ (∀ x ∈ before.flatten, (x.at t).isSome) ∧ ∀ x ∈ g.head?, (x.at t).isSome

/-- The same for a row, whose first line always begins with the first column. -/
def Full (t : Nat) (groups : List (List Field)) : Prop :=
  ∀ before g behind, groups = before ++ g :: behind → before ≠ [] → ∀ f ∈ g, (f.at t).isSome →
    (∀ x ∈ before.flatten, (x.at t).isSome) ∧ ∀ x ∈ g.head?, (x.at t).isSome

section lists

variable {α β : Type} {R : α → β → Prop}

theorem forall₂_append {xs xs' : List α} {ys ys' : List β} (h : xs.length = ys.length) :
    List.Forall₂ R (xs ++ xs') (ys ++ ys') ↔ List.Forall₂ R xs ys ∧ List.Forall₂ R xs' ys' := by
  induction xs generalizing ys with
  | nil =>
    rw [List.eq_nil_of_length_eq_zero h.symm]
    simp
  | cons x xs ih =>
    obtain ⟨y, ys, rfl⟩ := List.exists_cons_of_length_eq_add_one h.symm
    rw [List.cons_append, List.cons_append, List.forall₂_cons, List.forall₂_cons,
      ih (Nat.succ.inj h), and_assoc]

theorem forall_split_cons {x : α} {xs : List α} {P : List α → α → List α → Prop} :
    (∀ before f behind, x :: xs = before ++ f :: behind → P before f behind) ↔
      P [] x xs ∧ ∀ before f behind, xs = before ++ f :: behind → P (x :: before) f behind := by
  constructor
  · intro h
    exact ⟨h [] x xs rfl, fun before f behind heq => h (x :: before) f behind (heq ▸ rfl)⟩
  · rintro ⟨hfirst, hrest⟩ before f behind heq
    cases before with
    | nil =>
      obtain ⟨rfl, rfl⟩ := List.cons_eq_cons.mp heq
      exact hfirst
    | cons y before =>
      obtain ⟨rfl, htail⟩ := List.cons_eq_cons.mp heq
      exact hrest before f behind htail

/-- The first member with a property. -/
theorem exists_first {p : α → Bool} {xs : List α} (h : ∃ x ∈ xs, p x = true) :
    ∃ before x behind, xs = before ++ x :: behind ∧ p x = true ∧ ∀ y ∈ before, p y = false := by
  obtain ⟨x, hx, hpx⟩ := h
  cases hfind : xs.find? p with
  | none => exact absurd hpx (List.find?_eq_none.mp hfind x hx)
  | some y =>
    obtain ⟨hy, before, behind, heq, hbefore⟩ := List.find?_eq_some_iff_append.mp hfind
    refine ⟨before, y, behind, heq, hy, fun z hz => ?_⟩
    simpa using hbefore z hz

end lists

section lines

variable {q q' h p offset offset' t : Nat} {f : Field} {group fields : List Field}
  {gs : List (List Field)} {r : Layout} {items : List Item}

theorem length_placesIn : (placesIn q offset items).length = items.length := by
  induction items generalizing offset with
  | nil => rfl
  | cons item items ih => rw [placesIn, List.length_cons, ih, List.length_cons]

theorem length_placesOf {headings : List Bytes} :
    (placesOf q offset headings).length = headings.length := by
  induction headings generalizing offset with
  | nil => rfl
  | cons h headings ih => rw [placesOf, List.length_cons, ih, List.length_cons]

theorem length_places : (placesIn q offset (fieldsAt group t)).length =
    (placesOf q' offset' (group.map heading)).length := by
  rw [length_placesIn, length_placesOf, fieldsAt, List.length_map, List.length_map]

theorem placesOf_le {place : Nat × Nat} {headings : List Bytes}
    (h : place ∈ placesOf q offset headings) : place.1 = q ∧ offset ≤ place.2 := by
  induction headings generalizing offset with
  | nil => exact absurd h List.not_mem_nil
  | cons s headings ih =>
    rcases List.mem_cons.mp h with rfl | h
    · exact ⟨rfl, Nat.le_refl offset⟩
    · exact ⟨(ih h).1, le_trans (Nat.le_add_right _ _) (ih h).2⟩

theorem headingPlaces_le {place : Nat × Nat} {lines : List HeaderLine}
    (h : place ∈ headingPlaces q lines) : q ≤ place.1 := by
  induction lines generalizing q with
  | nil => exact absurd h List.not_mem_nil
  | cons line lines ih =>
    rcases List.mem_append.mp h with h | h
    · exact (placesOf_le h).1.ge
    · exact Nat.le_of_succ_le (ih h)

theorem Aligned.mem {places : List (Option (Nat × Nat))} {headings : List (Nat × Nat)}
    (h : Aligned places headings) {place : Nat × Nat} (hplace : some place ∈ places) :
    place ∈ headings := by
  induction h with
  | nil => exact absurd hplace List.not_mem_nil
  | cons hfirst _ ih =>
    rcases List.mem_cons.mp hplace with heq | hplace
    · exact hfirst place heq.symm ▸ List.mem_cons_self
    · exact List.mem_cons_of_mem _ (ih hplace)

theorem aligned_append {places places' : List (Option (Nat × Nat))}
    {headings headings' : List (Nat × Nat)} (h : places.length = headings.length) :
    Aligned (places ++ places') (headings ++ headings') ↔
      Aligned places headings ∧ Aligned places' headings' :=
  forall₂_append h

/-- The columns of a line of the header. -/
theorem aligned_line_iff :
    Aligned (placesIn q offset (fieldsAt group t)) (placesOf q offset' (group.map heading)) ↔
      ∀ before f behind, group = before ++ f :: behind → (f.at t).isSome →
        offset + ((fieldsAt before t).map itemWidth).sum = offset' + headed before := by
  induction group generalizing offset offset' with
  | nil =>
    refine iff_of_true List.Forall₂.nil fun before f behind heq => ?_
    exact absurd heq (List.append_ne_nil_of_right_ne_nil _ (List.cons_ne_nil f behind)).symm
  | cons x group ih =>
    have hfirst : AtHeading ((x.at t).map fun _ => (q, offset)) (q, offset') ↔
        ((x.at t).isSome → offset + ((fieldsAt [] t).map itemWidth).sum = offset' + headed []) := by
      cases x.at t with
      | none => exact iff_of_true nofun nofun
      | some pos =>
        simp only [AtHeading, Option.map_some, Option.mem_some_iff, forall_eq', Prod.mk.injEq,
          true_and, Option.isSome_some, forall_const]
        rfl
    have hsums : ∀ before : List Field,
        offset + ((fieldsAt (x :: before) t).map itemWidth).sum = offset' + headed (x :: before) ↔
          offset + itemWidth (x, x.at t) + ((fieldsAt before t).map itemWidth).sum =
            offset' + (heading x).length + headed before := by
      intro before
      rw [fieldsAt, List.map_cons, List.map_cons, List.sum_cons, headed, List.map_cons,
        List.sum_cons, ← Nat.add_assoc, ← Nat.add_assoc]
      rfl
    rw [forall_split_cons]
    simp only [hsums, ← hfirst, ← ih]
    exact List.forall₂_cons

theorem inLine_iff : InLine t group ↔
    Aligned (placesIn q 0 (fieldsAt group t)) (placesOf q 0 (group.map heading)) := by
  rw [aligned_line_iff]
  simp only [InLine, Nat.zero_add]

theorem heading_pos (f : Field) : 0 < (heading f).length := by
  rw [heading, List.length_append, List.length_singleton]
  exact Nat.succ_pos _

theorem counted_finished (h : ∀ f ∈ fields, f.at t = none) : counted (fieldsAt fields t) = 0 := by
  rw [counted, List.countP_eq_zero]
  intro item hitem
  obtain ⟨f, hf, rfl⟩ := List.mem_map.mp hitem
  rw [h f hf]
  exact Bool.false_ne_true

theorem aligned_finished (h : ∀ f ∈ fields, f.at t = none) {headings : List (Nat × Nat)}
    (hlength : headings.length = fields.length) :
    Aligned (placesIn q offset (fieldsAt fields t)) headings := by
  induction fields generalizing offset headings with
  | nil =>
    rw [List.eq_nil_of_length_eq_zero hlength]
    exact List.Forall₂.nil
  | cons f fields ih =>
    obtain ⟨place, headings, rfl⟩ := List.exists_cons_of_length_eq_add_one hlength
    have hfirst : f.at t = none := h f List.mem_cons_self
    refine List.Forall₂.cons ?_ (ih (fun g hg => h g (List.mem_cons_of_mem f hg))
      (Nat.succ.inj hlength))
    dsimp only
    rw [hfirst]
    exact nofun

theorem length_headingPlaces :
    (headingPlaces q (gs.map headerLine)).length = gs.flatten.length := by
  induction gs generalizing q with
  | nil => rfl
  | cons g gs ih =>
    rw [List.map_cons, headingPlaces, List.length_append, ih, length_placesOf, List.flatten_cons,
      List.length_append, headerLine, List.length_map]

theorem fieldsAt_cons {pos : Nat} (hpos : f.at t = some pos) :
    fieldsAt (f :: fields) t = (f, some pos) :: fieldsAt fields t := by
  rw [← hpos]
  rfl

/-- Behind finished columns, a column goes on the line, or begins the next one. -/
theorem layout_behind {before : List Field} {rest : List Nat} {more : List Item}
    (hp : p ≤ h) (h0 : ∀ x ∈ before, x.at t = none)
    (hr : layout q (h :: rest) p offset (fieldsAt before t ++ more) = some r) :
    ∃ offset' r', layout q (h :: rest) p offset' more = some r' ∧
      r.places = placesIn q offset (fieldsAt before t) ++ r'.places := by
  have hcount : p + counted (fieldsAt before t) ≤ h := by
    rwa [counted_finished h0]
  rw [layout_append hcount, counted_finished h0] at hr
  obtain ⟨r', hr', rfl⟩ := Option.map_eq_some_iff.mp hr
  exact ⟨_, r', hr', rfl⟩

theorem layout_finished {rest : List Nat} (hp : p ≤ h) (h0 : ∀ x ∈ fields, x.at t = none)
    (hr : layout q (h :: rest) p offset (fieldsAt fields t) = some r)
    {headings : List (Nat × Nat)} (hlength : headings.length = fields.length) :
    Aligned r.places headings := by
  rw [← List.append_nil (fieldsAt fields t)] at hr
  obtain ⟨offset', r', hr', hplaces⟩ := layout_behind hp h0 hr
  cases hr'
  rw [hplaces, List.append_nil]
  exact aligned_finished h0 hlength

/-- Behind a line that is not full, the first column that is shown is on it. -/
theorem not_aligned_room (hp : p < h) (hmore : ∃ f ∈ gs.flatten, (f.at t).isSome)
    (hr : layout q (h :: gs.map List.length) p offset (fieldsAt gs.flatten t) = some r) :
    ¬Aligned r.places (headingPlaces (q + 1) (gs.map headerLine)) := by
  intro haligned
  obtain ⟨before, f, behind, heq, hsome, hbefore⟩ := exists_first hmore
  obtain ⟨pos, hpos⟩ := Option.isSome_iff_exists.mp hsome
  have h0 : ∀ x ∈ before, x.at t = none := fun x hx => by simpa using hbefore x hx
  rw [heq, fieldsAt_append, fieldsAt_cons hpos] at hr
  obtain ⟨offset', r', hr', hplaces⟩ := layout_behind hp.le h0 hr
  rw [layout, breaks_of_lt hp] at hr'
  obtain ⟨r'', -, rfl⟩ := Option.map_eq_some_iff.mp hr'
  have hmem : some (q, offset') ∈ r.places := by
    rw [hplaces]
    exact List.mem_append_right _ List.mem_cons_self
  exact absurd (headingPlaces_le (haligned.mem hmem)) (Nat.not_succ_le_self q)

/-- Behind a full line, the first column that is shown begins the next one. -/
theorem not_aligned_first (hg : group ≠ []) (hfirst : ∀ x ∈ group.head?, x.at t = none)
    (hmore : ∃ f ∈ group ++ gs.flatten, (f.at t).isSome)
    (hr : layout q (h :: group.length :: gs.map List.length) h offset
      (fieldsAt (group ++ gs.flatten) t) = some r) :
    ¬Aligned r.places (headingPlaces (q + 1) ((group :: gs).map headerLine)) := by
  intro haligned
  obtain ⟨before, f, behind, heq, hsome, hbefore⟩ := exists_first hmore
  obtain ⟨pos, hpos⟩ := Option.isSome_iff_exists.mp hsome
  have h0 : ∀ x ∈ before, x.at t = none := fun x hx => by simpa using hbefore x hx
  obtain ⟨x, group, rfl⟩ := List.exists_cons_of_ne_nil hg
  have hx : x.at t = none := hfirst x rfl
  obtain ⟨before, rfl⟩ : ∃ before', before = x :: before' := by
    cases before with
    | nil =>
      rw [List.nil_append, List.cons_append] at heq
      rw [← (List.cons_eq_cons.mp heq).1, hx] at hpos
      cases hpos
    | cons y before =>
      rw [List.cons_append, List.cons_append] at heq
      exact ⟨before, by rw [(List.cons_eq_cons.mp heq).1]⟩
  rw [heq, fieldsAt_append, fieldsAt_cons hpos] at hr
  obtain ⟨offset', r', hr', hplaces⟩ := layout_behind (Nat.le_refl h) h0 hr
  rw [layout_break (List.length_pos_iff.mpr hg)] at hr'
  obtain ⟨r'', -, rfl⟩ := Option.map_eq_some_iff.mp hr'
  -- the column that is shown is not the first one of the line of the header
  rw [hplaces] at haligned
  have htail : Aligned (placesIn q (offset + itemWidth (x, x.at t)) (fieldsAt before t) ++
      some (q + 1, 0) :: r''.places) (placesOf (q + 1) (0 + (heading x).length)
        (group.map heading) ++ headingPlaces (q + 2) (gs.map headerLine)) :=
    (List.forall₂_cons.mp haligned).2
  have hmem := htail.mem (List.mem_append_right _ List.mem_cons_self)
  rcases List.mem_append.mp hmem with hmem | hmem
  · exact absurd (placesOf_le hmem).2 (by have := heading_pos x; dsimp only; omega)
  · exact absurd (headingPlaces_le hmem) (Nat.not_succ_le_self _)

theorem kept_cons {full : Prop} : Kept t full (group :: gs) ↔
    (∀ f ∈ group, (f.at t).isSome → full ∧ ∀ x ∈ group.head?, (x.at t).isSome) ∧
      Kept t (full ∧ ∀ x ∈ group, (x.at t).isSome) gs := by
  rw [Kept, forall_split_cons]
  refine and_congr ?_ ?_
  · simp only [List.flatten_nil, List.not_mem_nil, false_implies, implies_true, true_and]
  · simp only [Kept, List.flatten_cons, List.forall_mem_append, and_assoc]

theorem full_cons : Full t (group :: gs) ↔ Kept t (∀ x ∈ group, (x.at t).isSome) gs := by
  rw [Full, forall_split_cons, and_iff_right (fun hne => absurd rfl hne)]
  simp only [Kept, List.flatten_cons, List.forall_mem_append, and_assoc, ne_eq, reduceCtorEq,
    not_false_eq_true, forall_const]

theorem Kept.of_mem {full : Prop} (h : Kept t full gs) (hf : ∃ f ∈ gs.flatten, (f.at t).isSome) :
    full := by
  obtain ⟨f, hf, hsome⟩ := hf
  obtain ⟨g, hg, hfg⟩ := List.mem_flatten.mp hf
  obtain ⟨before, behind, heq⟩ := List.mem_iff_append.mp hg
  exact (h before g behind heq f hfg hsome).1

theorem kept_finished {full : Prop} (h : ¬∃ f ∈ gs.flatten, (f.at t).isSome) :
    (∀ g ∈ gs, InLine t g) ∧ Kept t full gs := by
  refine ⟨fun g hg before f behind heq hsome => ?_, fun before g behind heq f hf hsome => ?_⟩
  · refine absurd ⟨f, List.mem_flatten_of_mem hg ?_, hsome⟩ h
    rw [heq]
    exact List.mem_append_right before List.mem_cons_self
  · refine absurd ⟨f, List.mem_flatten_of_mem ?_ hf, hsome⟩ h
    rw [heq]
    exact List.mem_append_right before List.mem_cons_self

theorem counted_eq_iff :
    counted (fieldsAt group t) = group.length ↔ ∀ x ∈ group, (x.at t).isSome := by
  have hlength : (fieldsAt group t).length = group.length := List.length_map _
  rw [← hlength, counted, List.countP_eq_length, fieldsAt, List.forall_mem_map]

/-- The columns behind the columns of a line of the header. -/
theorem aligned_rest_iff (hne : ∀ g ∈ gs, g ≠ []) (hp : p ≤ h)
    (hr : layout q (h :: gs.map List.length) p offset (fieldsAt gs.flatten t) = some r) :
    Aligned r.places (headingPlaces (q + 1) (gs.map headerLine)) ↔
      (∀ g ∈ gs, InLine t g) ∧ Kept t (p = h) gs := by
  induction gs generalizing q h p offset r with
  | nil =>
    cases hr
    exact iff_of_true List.Forall₂.nil (kept_finished (by simp))
  | cons g gs ih =>
    by_cases hmore : ∃ f ∈ (g :: gs).flatten, (f.at t).isSome
    · rcases Nat.lt_or_eq_of_le hp with hlt | rfl
      · exact iff_of_false (not_aligned_room hlt hmore hr) fun hall =>
          hlt.ne (hall.2.of_mem hmore)
      · have hg := hne g List.mem_cons_self
        obtain ⟨x, g, rfl⟩ := List.exists_cons_of_ne_nil hg
        cases hx : x.at t with
        | none =>
          have hfirst : ∀ y ∈ (x :: g).head?, y.at t = none := by
            intro y hy
            exact Option.mem_some_iff.mp hy ▸ hx
          refine iff_of_false (not_aligned_first hg hfirst hmore hr) fun hall => ?_
          obtain ⟨hgroup, hrest⟩ := kept_cons.mp hall.2
          obtain ⟨f, hf, hsome⟩ := hmore
          have hxsome : (x.at t).isSome := by
            rcases List.mem_append.mp hf with hf | hf
            · exact (hgroup f hf hsome).2 x rfl
            · exact (hrest.of_mem ⟨f, hf, hsome⟩).2 x List.mem_cons_self
          rw [hx] at hxsome
          cases hxsome
        | some pos =>
          have hitems : fieldsAt ((x :: g) :: gs).flatten t =
              (x, some pos) :: fieldsAt g t ++ fieldsAt gs.flatten t := by
            rw [List.flatten_cons, fieldsAt_append, fieldsAt_cons hx]
          have hcount : counted ((x, some pos) :: fieldsAt g t) ≤ (x :: g).length := by
            rw [← fieldsAt_cons hx]
            exact counted_fieldsAt_le
          rw [hitems, List.map_cons, layout_group hcount] at hr
          obtain ⟨r', hr', rfl⟩ := Option.map_eq_some_iff.mp hr
          have hrest := ih (fun g' hg' => hne g' (List.mem_cons_of_mem _ hg')) hcount hr'
          have hfull : counted ((x, some pos) :: fieldsAt g t) = (x :: g).length ↔
              ∀ y ∈ x :: g, (y.at t).isSome := by
            rw [← fieldsAt_cons hx, counted_eq_iff]
          have hhead : ∀ f ∈ x :: g, (f.at t).isSome →
              p = p ∧ ∀ y ∈ (x :: g).head?, (y.at t).isSome := by
            refine fun f _ _ => ⟨rfl, fun y hy => ?_⟩
            rw [← Option.mem_some_iff.mp hy, hx]
            rfl
          rw [List.map_cons, headingPlaces, ← fieldsAt_cons hx]
          refine (aligned_append length_places).trans ?_
          rw [← inLine_iff, hrest, List.forall_mem_cons, kept_cons, hfull, and_assoc,
            and_iff_right hhead, eq_self_iff_true, true_and]
    · refine iff_of_true (layout_finished hp (fun x hx => ?_) hr ?_) (kept_finished hmore)
      · by_contra hnone
        exact hmore ⟨x, hx, Option.isSome_iff_ne_none.mpr hnone⟩
      · exact length_headingPlaces

/-- A pass prints the columns under their headings exactly if it is so on each line, and no line
goes on with the columns of another. -/
theorem aligned_iff {sLineSize : Nat} (hne : fields ≠ [])
    (hr : layout 0 (headerRow sLineSize fields) 0 0 (fieldsAt fields t) = some r) :
    Aligned r.places (headingPlaces 0 (printHeader sLineSize [] 0 fields)) ↔
      (∀ g ∈ headerGroups sLineSize [] fields, InLine t g) ∧
        Full t (headerGroups sLineSize [] fields) := by
  obtain ⟨g, gs, hgroups, hfields, hrow, hnil, -⟩ := @exists_groups sLineSize fields hne
  have hheader : printHeader sLineSize [] 0 fields = (g :: gs).map headerLine := by
    rw [← hgroups]
    exact @printHeader_eq sLineSize [] fields
  have hcount : 0 + counted (fieldsAt g t) ≤ g.length := by
    rw [Nat.zero_add]
    exact counted_fieldsAt_le
  rw [hrow, hfields, fieldsAt_append, layout_append hcount] at hr
  obtain ⟨r', hr', rfl⟩ := Option.map_eq_some_iff.mp hr
  have hrest := aligned_rest_iff (fun g' hg' => hnil g' (List.mem_cons_of_mem g hg')) hcount hr'
  rw [hheader, hgroups, List.map_cons, headingPlaces]
  refine (aligned_append length_places).trans ?_
  rw [← inLine_iff, hrest, List.forall_mem_cons, Nat.zero_add, counted_eq_iff, full_cons, and_assoc]

/-- The same, also for a row without columns. -/
theorem row_aligned_iff {sLineSize : Nat} :
    (∀ r ∈ layout 0 (headerRow sLineSize fields) 0 0 (fieldsAt fields t),
      Aligned r.places (headingPlaces 0 (printHeader sLineSize [] 0 fields))) ↔
      (∀ g ∈ headerGroups sLineSize [] fields, InLine t g) ∧
        Full t (headerGroups sLineSize [] fields) := by
  obtain ⟨r, hr⟩ := @layout_row sLineSize t fields
  have hone : (∀ r ∈ layout 0 (headerRow sLineSize fields) 0 0 (fieldsAt fields t),
      Aligned r.places (headingPlaces 0 (printHeader sLineSize [] 0 fields))) ↔
      Aligned r.places (headingPlaces 0 (printHeader sLineSize [] 0 fields)) := by
    rw [hr]
    simp only [Option.mem_some_iff, forall_eq']
  rw [hone]
  by_cases hne : fields = []
  · subst hne
    cases hr
    refine iff_of_true List.Forall₂.nil ⟨fun g hg => absurd hg List.not_mem_nil, ?_⟩
    intro before g behind heq
    exact absurd heq (List.append_ne_nil_of_right_ne_nil _ (List.cons_ne_nil g behind)).symm
  · exact aligned_iff hne hr

end lines

end Natc.Isql.Display
