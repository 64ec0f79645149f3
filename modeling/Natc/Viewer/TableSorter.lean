import Mathlib
import Natc.Lib.StableMerge

/-!
# Sorting the rows of a table

`TableSorter` shows the rows of a table in the order of an array of indexes. A click on a column
sorts the array by the cells of the column with `shuttlesort`, which shuttles the entries between
two arrays and leaves out the merge of parts that are in order. The sort is stable, so the clicks
before decide between rows that are even in the last column.
-/

namespace Natc.Viewer

open Lib

/-! ## The code -/

/-- What the comparison asks of the class of a column. -/
inductive ColumnClass where
  | number | date | string | boolean | other
  deriving DecidableEq, Repr

/-- An object of a cell with what its class holds, and its `toString`. -/
inductive Kind (δ : Type*) where
  | number (doubleValue : δ)
  | date (time : Int)
  | string (value : List Nat)
  | boolean (booleanValue : Bool)
  | other

structure Obj (δ : Type*) where
  kind : Kind δ
  toString : List Nat

/-- The table behind the sorter. A cell is `null` or an object. `none` stands for a method that
throws. -/
structure TableModel (δ : Type*) where
  getRowCount : Nat
  getValueAt : Nat → Nat → Option (Option (Obj δ))
  getColumnClass : Nat → Option ColumnClass

/-- `compareTo` of strings: the difference of the first characters that differ, or of the lengths. -/
def compareTo : List Nat → List Nat → Int
  | [], t => -t.length
  | s, [] => s.length
  | c :: s, d :: t => if c = d then compareTo s t else c - d

/-- A comparison made with `<` and `>`. -/
def threeWay {τ : Type*} [LT τ] [DecidableLT τ] (a b : τ) : Int :=
  if a < b then -1 else if b < a then 1 else 0

/-- The sign of a result of `compareTo`. -/
def signOf (result : Int) : Int := if result < 0 then -1 else if 0 < result then 1 else 0

section

variable {δ : Type*} [LT δ] [DecidableLT δ]

/-- The comparison of two objects by the class of the column. A cast that fails throws. -/
def compareObjects (type : ColumnClass) (o1 o2 : Obj δ) : Option Int :=
  match type, o1.kind, o2.kind with
  | .number, .number d1, .number d2 => some (threeWay d1 d2)
  | .date, .date n1, .date n2 => some (threeWay n1 n2)
  | .string, .string s1, .string s2 => some (signOf (compareTo s1 s2))
  | .boolean, .boolean b1, .boolean b2 =>
      some (if b1 = b2 then 0 else if b1 then 1 else -1)
  | .other, _, _ => some (signOf (compareTo o1.toString o2.toString))
  | _, _, _ => none

/-- `compareRowsByColumn`. -/
def compareRowsByColumn (model : TableModel δ) (row1 row2 column : Nat) : Option Int :=
  match model.getColumnClass column, model.getValueAt row1 column,
      model.getValueAt row2 column with
  | some _, some none, some none => some 0
  | some _, some none, some (some _) => some (-1)
  | some _, some (some _), some none => some 1
  | some type, some (some o1), some (some o2) => compareObjects type o1 o2
  | _, _, _ => none

/-- `compare`. -/
def compare (model : TableModel δ) (ascending : Bool) (sortingColumns : List Nat)
    (row1 row2 : Nat) : Option Int :=
  match sortingColumns with
  | [] => some 0
  | column :: columns =>
      match compareRowsByColumn model row1 row2 column with
      | none => none
      | some result =>
          if result ≠ 0 then some (if ascending then result else -result)
          else compare model ascending columns row1 row2

end

/-- `to[i] = v`. An index out of bounds throws. -/
def store (to_ : List Nat) (i v : Nat) : Option (List Nat) :=
  if i < to_.length then some (to_.set i v) else none

/-- The loop that copies the entries from `i` on. -/
def copyLoop (from_ : List Nat) : Nat → Nat → List Nat → Option (List Nat)
  | 0, _, to_ => some to_
  | n + 1, i, to_ =>
      match from_[i]? with
      | none => none
      | some v =>
          match store to_ i v with
          | none => none
          | some to_ => copyLoop from_ n (i + 1) to_

/-- The merge of `[p, middle)` and `[q, high)` to the entries from `i` on. -/
def mergeLoop (compare : Nat → Nat → Option Int) (from_ : List Nat) (middle high : Nat) :
    Nat → Nat → Nat → Nat → List Nat → Option (List Nat)
  | 0, _, _, _, to_ => some to_
  | n + 1, i, p, q, to_ =>
      let left : Option Bool :=
        if high ≤ q then some true
        else if p < middle then
          match from_[p]?, from_[q]? with
          | some a, some b => (compare a b).map (decide <| · ≤ 0)
          | _, _ => none
        else some false
      match left with
      | none => none
      | some true =>
          match from_[p]? with
          | none => none
          | some v =>
              match store to_ i v with
              | none => none
              | some to_ => mergeLoop compare from_ middle high n (i + 1) (p + 1) q to_
      | some false =>
          match from_[q]? with
          | none => none
          | some v =>
              match store to_ i v with
              | none => none
              | some to_ => mergeLoop compare from_ middle high n (i + 1) p (q + 1) to_

/-- The test of the short-cut. -/
def inOrder (compare : Nat → Nat → Option Int) (from_ : List Nat) (low middle high : Nat) :
    Option Bool :=
  if 4 ≤ high - low then
    match from_[middle - 1]?, from_[middle]? with
    | some a, some b => (compare a b).map (decide <| · ≤ 0)
    | _, _ => none
  else some false

/-- `shuttlesort`: the arrays `from` and `to` behind it. -/
def shuttlesort (compare : Nat → Nat → Option Int) (low high : Nat) (from_ to_ : List Nat) :
    Option (List Nat × List Nat) :=
  if high - low < 2 then some (from_, to_)
  else
    let middle := (low + high) / 2
    match shuttlesort compare low middle to_ from_ with
    | none => none
    | some (to_, from_) =>
        match shuttlesort compare middle high to_ from_ with
        | none => none
        | some (to_, from_) =>
            match inOrder compare from_ low middle high with
            | none => none
            | some true => (copyLoop from_ (high - low) low to_).map (from_, ·)
            | some false =>
                (mergeLoop compare from_ middle high (high - low) low low middle to_).map (from_, ·)
termination_by high - low

/-- The sorter: its indexes, and by what they were sorted. -/
structure TableSorter where
  indexes : List Nat
  sortingColumns : List Nat
  ascending : Bool
  deriving DecidableEq, Repr

section

variable {δ : Type*} (model : TableModel δ)

/-- `reallocateIndexes`, as the constructor and `tableChanged` call it. -/
def TableSorter.reallocateIndexes (s : TableSorter) : TableSorter :=
  { s with indexes := List.range model.getRowCount }

/-- A sorter on the model. -/
def TableSorter.new : TableSorter :=
  TableSorter.reallocateIndexes model ⟨[], [], true⟩

variable [LT δ] [DecidableLT δ]

/-- `sort`. The first array is a clone of the indexes. -/
def TableSorter.sort (s : TableSorter) : Option TableSorter :=
  (shuttlesort (compare model s.ascending s.sortingColumns) 0 s.indexes.length s.indexes
    s.indexes).map fun arrays => { s with indexes := arrays.2 }

/-- `sortByColumn`. -/
def TableSorter.sortByColumn (s : TableSorter) (column : Nat) (ascending : Bool) :
    Option TableSorter :=
  TableSorter.sort model { s with sortingColumns := [column], ascending }

end

/-- A row of the view: its time, and the lines of the processes. -/
structure TdxRow where
  value : Int
  row : List (Option (List Nat))
  deriving DecidableEq, Repr

/-- `Long.toString`. -/
def longToString (n : Int) : List Nat := (toString n).toList.map Char.toNat

/-- `get` of the row. The conversion of a `long` to a `double` is a parameter. -/
def TdxRow.get {δ : Type*} (doubleValue : Int → δ) (r : TdxRow) (idx : Nat) : Option (Obj δ) :=
  if idx = 0 then some ⟨.number (doubleValue r.value), longToString r.value⟩
  else if r.row.length < idx then some ⟨.string [], []⟩
  else r.row[idx - 1]?.join.map fun s => ⟨.string s, s⟩

/-- The class of an object as the comparison asks for it. -/
def Kind.getClass {δ : Type*} : Kind δ → ColumnClass
  | .number _ => .number
  | .date _ => .date
  | .string _ => .string
  | .boolean _ => .boolean
  | .other => .other

/-- The table of `JTableTDX`. The class of a column is that of its first cell. -/
def tdxModel {δ : Type*} (doubleValue : Int → δ) (rows : List (Option TdxRow)) : TableModel δ where
  getRowCount := rows.length
  getValueAt row col := rows[row]?.join.map (·.get doubleValue col)
  getColumnClass col :=
    match rows[0]?.join.map (·.get doubleValue col) with
    | some (some o) => some o.kind.getClass
    | _ => none

/-! ## Arrays -/

section arrays

variable {from_ b w c rest s : List Nat} {i n p v : Nat}

/-- The entry where a part of the array begins. -/
theorem getElem?_of_drop (h : from_.drop p = v :: rest) :
    from_[p]? = some v ∧ from_.drop (p + 1) = rest := by
  constructor
  · rw [← Nat.add_zero p, ← List.getElem?_drop, h, List.getElem?_cons_zero]
  · rw [← List.drop_drop, h, List.drop_one, List.tail_cons]

theorem store_append {d : Nat} (hi : b.length = i) :
    store (b ++ d :: w) i v = some ((b ++ [v]) ++ w) := by
  rw [store, if_pos, List.set_append_right _ _ hi.le, hi, Nat.sub_self, List.set_cons_zero,
    List.append_assoc, List.singleton_append]
  rw [List.length_append, List.length_cons]
  omega

theorem copyLoop_eq (hdrop : from_.drop i = s ++ rest) (hb : b.length = i)
    (hw : w.length = s.length) :
    copyLoop from_ s.length i (b ++ (w ++ c)) = some (b ++ (s ++ c)) := by
  induction s generalizing i b w with
  | nil =>
    obtain rfl := List.length_eq_zero_iff.mp hw
    rfl
  | cons v s ih =>
    obtain ⟨d, w, rfl⟩ := List.exists_cons_of_length_eq_add_one hw
    obtain ⟨hget, htail⟩ := getElem?_of_drop hdrop
    rw [List.length_cons, copyLoop, hget]
    simp only
    rw [List.cons_append, store_append hb]
    simp only
    rw [ih htail (by rw [List.length_append, hb, List.length_singleton]) (Nat.succ.inj hw)]
    simp

end arrays

/-! ## The sort -/

section sort

variable {compare : Nat → Nat → Option Int} {le : Nat → Nat → Bool}

/-- The comparison answers for the entries, and as `le` does. -/
def Answers (compare : Nat → Nat → Option Int) (le : Nat → Nat → Bool) (s : List Nat) : Prop :=
  ∀ x ∈ s, ∀ y ∈ s, (compare x y).map (decide <| · ≤ 0) = some (le x y)

theorem Answers.sublist {s t : List Nat} (h : Answers compare le s) (hst : t.Sublist s) :
    Answers compare le t := fun x hx y hy => h x (hst.subset hx) y (hst.subset hy)

theorem mergeLoop_eq {from_ L R restL restR b w c : List Nat} {i p q middle high n : Nat}
    (h : Answers compare le (L ++ R)) (hL : from_.drop p = L ++ restL)
    (hmiddle : p + L.length = middle) (hR : from_.drop q = R ++ restR)
    (hhigh : q + R.length = high) (hb : b.length = i) (hw : w.length = n)
    (hn : L.length + R.length = n) :
    mergeLoop compare from_ middle high n i p q (b ++ (w ++ c)) =
      some (b ++ (List.merge L R le ++ c)) := by
  induction n generalizing L R i p q b w with
  | zero =>
    obtain rfl := List.length_eq_zero_iff.mp (show L.length = 0 by omega)
    obtain rfl := List.length_eq_zero_iff.mp (show R.length = 0 by omega)
    obtain rfl := List.length_eq_zero_iff.mp hw
    rw [List.nil_merge]
    rfl
  | succ n ih =>
    obtain ⟨d, w, rfl⟩ := List.exists_cons_of_length_eq_add_one hw
    have hw : w.length = n := Nat.succ.inj hw
    have hb' : ∀ v, (b ++ [v]).length = i + 1 := by
      intro v
      rw [List.length_append, hb, List.length_singleton]
    rw [List.cons_append, mergeLoop]
    cases R with
    | nil =>
      cases L with
      | nil => simp at hn
      | cons x L =>
        obtain ⟨hget, htail⟩ := getElem?_of_drop hL
        rw [List.length_cons] at hmiddle hn
        have hq : high ≤ q := hhigh.symm.le
        simp only [hq, if_true, hget, store_append hb]
        rw [ih (h.sublist ((List.sublist_cons_self x L).append_right [])) htail (by omega) hR hhigh
          (hb' x) hw (by omega)]
        simp
    | cons y R =>
      rw [List.length_cons] at hhigh hn
      obtain ⟨hgety, htaily⟩ := getElem?_of_drop hR
      have hq : ¬ high ≤ q := by omega
      cases L with
      | nil =>
        rw [List.length_nil] at hmiddle hn
        have hp : ¬ p < middle := by omega
        simp only [hq, if_false, hp, hgety, store_append hb]
        rw [ih (h.sublist ((List.sublist_cons_self y R).append_left [])) hL hmiddle htaily (by omega)
          (hb' y) hw (by rw [List.length_nil]; omega)]
        simp
      | cons x L =>
        obtain ⟨hgetx, htailx⟩ := getElem?_of_drop hL
        rw [List.length_cons] at hmiddle hn
        have hp : p < middle := by omega
        have hanswer := h x (by simp) y (by simp)
        rw [List.cons_merge_cons]
        simp only [hq, if_false, hp, if_true, hgetx, hgety, hanswer]
        cases le x y with
        | true =>
          simp only [store_append hb]
          rw [ih (h.sublist (List.sublist_cons_self x _)) htailx (by omega) hR
            (by rw [List.length_cons]; omega) (hb' x) hw (by rw [List.length_cons]; omega)]
          simp
        | false =>
          simp only [store_append hb]
          rw [ih (h.sublist ((List.sublist_cons_self y R).append_left (x :: L))) hL
            (by rw [List.length_cons]; omega) htaily (by omega) (hb' y) hw
            (by rw [List.length_cons]; omega)]
          simp

/-- The short-cut is taken only if the parts are in order. -/
theorem inOrder_eq {from_ l r : List Nat} {low middle high : Nat} (hl : l ≠ []) (hr : r ≠ [])
    (h : Answers compare le (l ++ r)) (hlast : from_[middle - 1]? = l.getLast?)
    (hhead : from_[middle]? = r.head?) :
    ∃ result, inOrder compare from_ low middle high = some result ∧
      (result = true → ∃ x y, l.getLast? = some x ∧ r.head? = some y ∧ le x y = true) := by
  obtain ⟨x, hx⟩ : ∃ x, l.getLast? = some x := ⟨_, List.getLast?_eq_some_getLast hl⟩
  obtain ⟨y, hy⟩ : ∃ y, r.head? = some y := ⟨_, List.head?_eq_some_head hr⟩
  rw [inOrder]
  split
  · have hanswer := h x (List.mem_append_left _ (List.mem_of_getLast? hx)) y
      (List.mem_append_right _ (List.mem_of_mem_head? hy))
    rw [hlast, hhead, hx, hy]
    exact ⟨le x y, hanswer, fun hle => ⟨x, y, rfl, rfl, hle⟩⟩
  · exact ⟨false, rfl, fun hfalse => nomatch hfalse⟩

/-- The part of `to` is sorted, and nothing but that part of both arrays is written. -/
theorem shuttlesort_sorts (hle : Compares le) {s : List Nat} (h : Answers compare le s)
    {a a' : List Nat} (c c' : List Nat) {low : Nat} (ha : a.length = low) (ha' : a'.length = low) :
    ∃ s₁ s', shuttlesort compare low (low + s.length) (a ++ (s ++ c)) (a' ++ (s ++ c')) =
        some (a ++ (s₁ ++ c), a' ++ (s' ++ c')) ∧ s₁.length = s.length ∧ Sorts le s s' := by
  induction hn : s.length using Nat.strong_induction_on generalizing s a a' c c' low with
  | _ n ih =>
    rw [shuttlesort, Nat.add_sub_cancel_left]
    split
    · next hshort => exact ⟨s, s, rfl, hn, Sorts.short (hn ▸ hshort)⟩
    · next hlong =>
      have hmiddle : (low + (low + n)) / 2 = low + n / 2 := by omega
      have hhigh : low + n = low + n / 2 + (n - n / 2) := by omega
      obtain ⟨l, r, rfl, hl, hr⟩ : ∃ l r, s = l ++ r ∧ l.length = n / 2 ∧ r.length = n - n / 2 := by
        refine ⟨s.take (n / 2), s.drop (n / 2), (List.take_append_drop _ _).symm, ?_, ?_⟩
        · rw [List.length_take]
          omega
        · rw [List.length_drop, hn]
      obtain ⟨t₁, l', hfirst, ht₁, hsl⟩ := ih (n / 2) (by omega)
        (h.sublist (List.sublist_append_left l r)) (r ++ c') (r ++ c) ha' ha hl
      have haux : (a ++ l').length = low + n / 2 := by
        rw [List.length_append, ha, hsl.perm.length_eq, hl]
      have haux' : (a' ++ t₁).length = low + n / 2 := by
        rw [List.length_append, ha', ht₁]
      obtain ⟨t₂, r', hsecond, ht₂, hsr⟩ := ih (n - n / 2) (by omega)
        (h.sublist (List.sublist_append_right l r)) c' c haux' haux hr
      simp only [hmiddle]
      simp only [List.append_assoc] at hfirst hsecond ⊢
      rw [hfirst]
      simp only
      rw [hhigh, hsecond]
      simp only
      have hl' : l'.length = n / 2 := hsl.perm.length_eq.trans hl
      have hr' : r'.length = n - n / 2 := hsr.perm.length_eq.trans hr
      have hdrop : (a ++ (l' ++ (r' ++ c))).drop low = l' ++ (r' ++ c) := by
        rw [List.drop_append, ha, Nat.sub_self, List.drop_zero, List.drop_of_length_le ha.le,
          List.nil_append]
      have hdrop' : (a ++ (l' ++ (r' ++ c))).drop (low + n / 2) = r' ++ c := by
        rw [← List.append_assoc, List.drop_append, haux, Nat.sub_self, List.drop_zero,
          List.drop_of_length_le haux.le, List.nil_append]
      have hanswers : Answers compare le (l' ++ r') := fun x hx y hy =>
        h x ((hsl.perm.append hsr.perm).subset hx) y ((hsl.perm.append hsr.perm).subset hy)
      have hlast : (a ++ (l' ++ (r' ++ c)))[low + n / 2 - 1]? = l'.getLast? := by
        rw [List.getElem?_append_right (by omega), List.getElem?_append_left (by omega),
          List.getLast?_eq_getElem?, hl']
        congr 1
        omega
      have hhead : (a ++ (l' ++ (r' ++ c)))[low + n / 2]? = r'.head? := by
        rw [← List.append_assoc, List.getElem?_append_right haux.le, haux, Nat.sub_self,
          List.getElem?_append_left (by omega), List.head?_eq_getElem?]
      obtain ⟨result, hresult, htrue⟩ := @inOrder_eq compare le _ l' r' low _ (low + n)
        (List.ne_nil_of_length_pos (by omega)) (List.ne_nil_of_length_pos (by omega)) hanswers hlast
        hhead
      rw [← hhigh, hresult]
      have hboth : (l' ++ r').length = n := by
        rw [List.length_append]
        omega
      cases result with
      | true =>
        obtain ⟨x, y, hx, hy, hxy⟩ := htrue rfl
        have hall : (a ++ (l' ++ (r' ++ c))).drop low = (l' ++ r') ++ c := by
          rw [hdrop, List.append_assoc]
        have hcopy := copyLoop_eq (c := c') (w := t₁ ++ t₂) hall ha'
          (by simp only [List.length_append]; omega)
        rw [hboth, List.append_assoc, List.append_assoc] at hcopy
        simp only [hcopy]
        refine ⟨l' ++ r', l' ++ r', ?_, hboth, hsl.append hle hsr hx hy hxy⟩
        simp
      | false =>
        have hmerge := mergeLoop_eq (c := c') (w := t₁ ++ t₂) hanswers hdrop
          (by rw [hl'] : low + l'.length = low + n / 2) hdrop'
          (by rw [hr', hhigh] : low + n / 2 + r'.length = low + n) ha' rfl
          (by simp only [List.length_append]; omega)
        rw [List.append_assoc, List.length_append, show t₁.length + t₂.length = n by omega] at hmerge
        simp only [hmerge]
        refine ⟨l' ++ r', List.merge l' r' le, ?_, hboth, hsl.merge hle hsr⟩
        simp

end sort

/-! ## Comparisons -/

section comparisons

variable {τ : Type*} [LinearOrder τ]

/-- A comparison that changes its sign with the order of the arguments, and is transitive. -/
structure Consistent (cmp : Nat → Nat → Int) : Prop where
  antisymm : ∀ x y, cmp y x = -cmp x y
  trans : ∀ x y z, cmp x y ≤ 0 → cmp y z ≤ 0 → cmp x z ≤ 0

theorem threeWay_nonpos {a b : τ} : threeWay a b ≤ 0 ↔ a ≤ b := by
  rw [threeWay]
  split
  · next h => exact ⟨fun _ => h.le, fun _ => by decide⟩
  · next h =>
    split
    · next h' => exact ⟨fun hone => absurd hone (by decide), fun hle => absurd h' hle.not_gt⟩
    · next h' => exact ⟨fun _ => not_lt.mp h', fun _ => Int.le_refl 0⟩

theorem threeWay_swap (a b : τ) : threeWay b a = -threeWay a b := by
  rw [threeWay, threeWay]
  rcases lt_trichotomy a b with h | rfl | h
  · simp [h, h.asymm]
  · simp
  · simp [h, h.asymm]

theorem consistent_threeWay (key : Nat → τ) : Consistent fun x y => threeWay (key x) (key y) where
  antisymm _ _ := threeWay_swap _ _
  trans _ _ _ hxy hyz := threeWay_nonpos.mpr
    ((threeWay_nonpos.mp hxy).trans (threeWay_nonpos.mp hyz))

/-- The other direction. -/
theorem Consistent.neg {cmp : Nat → Nat → Int} (h : Consistent cmp) :
    Consistent fun x y => -cmp x y where
  antisymm x y := congrArg Neg.neg (h.antisymm x y)
  trans x y z hxy hyz := by
    rw [← h.antisymm] at hxy hyz ⊢
    exact h.trans z y x hyz hxy

theorem Consistent.compares {cmp : Nat → Nat → Int} (h : Consistent cmp) :
    Compares fun x y => decide (cmp x y ≤ 0) where
  trans x y z hxy hyz :=
    decide_eq_true (h.trans x y z (of_decide_eq_true hxy) (of_decide_eq_true hyz))
  total x y := by
    have := h.antisymm x y
    simp only [decide_eq_true_eq]
    omega

/-- `compareTo` is the order of the lists of characters. -/
theorem signOf_compareTo (s t : List Nat) : signOf (compareTo s t) = threeWay s t := by
  induction s generalizing t with
  | nil =>
    cases t with
    | nil => decide
    | cons d t =>
      have hlt : ([] : List Nat) < d :: t := List.nil_lt_cons d t
      rw [compareTo, signOf, threeWay, if_pos hlt, if_pos]
      rw [List.length_cons]
      omega
  | cons c s ih =>
    cases t with
    | nil =>
      have hlt : ([] : List Nat) < c :: s := List.nil_lt_cons c s
      rw [compareTo, signOf, threeWay, if_neg hlt.asymm, if_pos hlt, if_neg, if_pos]
      · rw [List.length_cons]
        omega
      · rw [List.length_cons]
        omega
      · simp
    | cons d t =>
      rw [compareTo]
      split
      · next heq =>
        subst heq
        rw [ih, threeWay, threeWay]
        simp only [List.cons_lt_cons_self]
      · next hne =>
        have hlt : ∀ {c d : Nat} {s t : List Nat}, c ≠ d → (c :: s < d :: t ↔ c < d) := by
          intro c d s t hne
          rw [List.cons_lt_cons_iff]
          simp [hne]
        rw [signOf, threeWay]
        simp only [hlt hne, hlt (Ne.symm hne)]
        split <;> split <;> omega

theorem signOf_compareTo_coe {inst : DecidableLT (WithBot (List Nat))} (s t : List Nat) :
    signOf (compareTo s t) = @threeWay (WithBot (List Nat)) _ inst s t := by
  rw [signOf_compareTo]
  simp only [threeWay, WithBot.coe_lt_coe]

theorem threeWay_coe (a b : τ) : threeWay (a : WithBot τ) (b : WithBot τ) = threeWay a b := by
  simp only [threeWay, WithBot.coe_lt_coe]

end comparisons

/-! ## Columns -/

section columns

variable {δ : Type*} {model : TableModel δ} {column : Nat} {type : ColumnClass}

/-- The cast of the object to the class succeeds. -/
def Fits : ColumnClass → Kind δ → Prop
  | .number, .number _ | .date, .date _ | .string, .string _ | .boolean, .boolean _ => True
  | .other, _ => True
  | _, _ => False

/-- The column has a class, and its cells are `null` or of that class. -/
def WellTyped (model : TableModel δ) (column : Nat) : Prop :=
  ∃ type, model.getColumnClass column = some type ∧ ∀ row < model.getRowCount,
    ∃ cell, model.getValueAt row column = some cell ∧ ∀ o ∈ cell, Fits type o.kind

variable [LinearOrder δ]

/-- The objects of a class are compared by a key. -/
structure Keyed {τ : Type*} [LinearOrder τ] (type : ColumnClass) (key : Obj δ → WithBot τ) :
    Prop where
  value : ∀ o, Fits type o.kind → ∃ t : τ, key o = t
  compare : ∀ o1 o2, Fits type o1.kind → Fits type o2.kind →
    compareObjects type o1 o2 = some (threeWay (key o1) (key o2))

/-- Then the rows are compared by it, with `null` below all objects. -/
theorem Keyed.exists_cmp {τ : Type*} [LinearOrder τ] {key : Obj δ → WithBot τ}
    (h : Keyed type key) (htype : model.getColumnClass column = some type)
    (hcells : ∀ row < model.getRowCount, ∃ cell, model.getValueAt row column = some cell ∧
      ∀ o ∈ cell, Fits type o.kind) :
    ∃ cmp, Consistent cmp ∧ ∀ x < model.getRowCount, ∀ y < model.getRowCount,
      compareRowsByColumn model x y column = some (cmp x y) := by
  let rowKey : Nat → WithBot τ := fun row => (model.getValueAt row column).join.elim ⊥ key
  refine ⟨_, consistent_threeWay rowKey, fun x hx y hy => ?_⟩
  obtain ⟨cell, hxcell, hxfits⟩ := hcells x hx
  obtain ⟨cell', hycell, hyfits⟩ := hcells y hy
  simp only [compareRowsByColumn, htype, hxcell, hycell, rowKey, Option.join_some]
  rcases cell with - | o1 <;> rcases cell' with - | o2
  · simp [threeWay]
  · obtain ⟨t, ht⟩ := h.value o2 (hyfits o2 rfl)
    simp [threeWay, ht]
  · obtain ⟨t, ht⟩ := h.value o1 (hxfits o1 rfl)
    simp [threeWay, ht]
  · exact h.compare o1 o2 (hxfits o1 rfl) (hyfits o2 rfl)

def numberKey (o : Obj δ) : WithBot δ :=
  match o.kind with
  | .number d => d
  | _ => ⊥

def dateKey (o : Obj δ) : WithBot Int :=
  match o.kind with
  | .date n => n
  | _ => ⊥

def stringKey (o : Obj δ) : WithBot (List Nat) :=
  match o.kind with
  | .string s => s
  | _ => ⊥

def booleanKey (o : Obj δ) : WithBot Bool :=
  match o.kind with
  | .boolean b => b
  | _ => ⊥

/-- A class whose objects hold a value each is compared by the values. -/
theorem keyed_of_value {τ : Type*} [LinearOrder τ] {key : Obj δ → WithBot τ} (make : τ → Kind δ)
    (hkey : ∀ t text, key ⟨make t, text⟩ = t)
    (hfits : ∀ kind, Fits type kind → ∃ t, kind = make t)
    (hcompare : ∀ t t' text text',
      compareObjects type ⟨make t, text⟩ ⟨make t', text'⟩ = some (threeWay t t')) :
    Keyed type key where
  value o h := by
    obtain ⟨kind, text⟩ := o
    obtain ⟨t, rfl⟩ := hfits kind h
    exact ⟨t, hkey t text⟩
  compare o1 o2 h h' := by
    obtain ⟨kind, text⟩ := o1
    obtain ⟨kind', text'⟩ := o2
    obtain ⟨t, rfl⟩ := hfits kind h
    obtain ⟨t', rfl⟩ := hfits kind' h'
    rw [hcompare, hkey, hkey, threeWay_coe]

theorem keyed_number : Keyed .number (numberKey (δ := δ)) := by
  refine keyed_of_value .number (fun _ _ => rfl) (fun kind h => ?_) fun _ _ _ _ => rfl
  cases kind <;> first | exact ⟨_, rfl⟩ | exact h.elim

theorem keyed_date : Keyed .date (dateKey (δ := δ)) := by
  refine keyed_of_value .date (fun _ _ => rfl) (fun kind h => ?_) fun _ _ _ _ => rfl
  cases kind <;> first | exact ⟨_, rfl⟩ | exact h.elim

theorem keyed_string : Keyed .string (stringKey (δ := δ)) := by
  refine keyed_of_value .string (fun _ _ => rfl) (fun kind h => ?_) fun s t _ _ =>
    congrArg some ((signOf_compareTo_coe s t).trans (threeWay_coe s t))
  cases kind <;> first | exact ⟨_, rfl⟩ | exact h.elim

theorem keyed_boolean : Keyed .boolean (booleanKey (δ := δ)) := by
  have hbool : ∀ b1 b2 : Bool, (if b1 = b2 then 0 else if b1 then 1 else -1 : Int) =
      threeWay b1 b2 := by decide
  refine keyed_of_value .boolean (fun _ _ => rfl) (fun kind h => ?_) fun b1 b2 _ _ =>
    congrArg some (hbool b1 b2)
  cases kind <;> first | exact ⟨_, rfl⟩ | exact h.elim

theorem keyed_other : Keyed .other fun o : Obj δ => (o.toString : WithBot (List Nat)) where
  value o _ := ⟨o.toString, rfl⟩
  compare _ _ _ _ := congrArg some (signOf_compareTo_coe _ _)

/-- The rows are compared consistently by a column that is well typed. -/
theorem WellTyped.exists_cmp (h : WellTyped model column) :
    ∃ cmp, Consistent cmp ∧ ∀ x < model.getRowCount, ∀ y < model.getRowCount,
      compareRowsByColumn model x y column = some (cmp x y) := by
  obtain ⟨type, htype, hcells⟩ := h
  cases type with
  | number => exact keyed_number.exists_cmp htype hcells
  | date => exact keyed_date.exists_cmp htype hcells
  | string => exact keyed_string.exists_cmp htype hcells
  | boolean => exact keyed_boolean.exists_cmp htype hcells
  | other => exact keyed_other.exists_cmp htype hcells

end columns

section tdx

variable {δ : Type*} {doubleValue : Int → δ} {rows : List (Option TdxRow)} {column : Nat}

/-- A cell of the view holds a number in the first column, and a string in the others. -/
theorem TdxRow.fits_get {type : ColumnClass} {r r' : TdxRow} {o o' : Obj δ}
    (ho : r.get doubleValue column = some o) (ho' : r'.get doubleValue column = some o')
    (htype : type = o.kind.getClass) : Fits type o'.kind := by
  subst htype
  rw [TdxRow.get] at ho ho'
  have hstring : ∀ {r : TdxRow} {o : Obj δ},
      (if r.row.length < column then some ⟨.string [], []⟩
        else r.row[column - 1]?.join.map fun s => ⟨.string s, s⟩) = some o →
      ∃ s, o.kind = .string s := by
    intro r o h
    split at h
    · exact ⟨[], by rw [← Option.some.inj h]⟩
    · obtain ⟨s, -, rfl⟩ := Option.map_eq_some_iff.mp h
      exact ⟨s, rfl⟩
  by_cases hcolumn : column = 0
  · rw [if_pos hcolumn] at ho ho'
    rw [← Option.some.inj ho, ← Option.some.inj ho']
    trivial
  · rw [if_neg hcolumn] at ho ho'
    obtain ⟨s, hs⟩ := hstring ho
    obtain ⟨s', hs'⟩ := hstring ho'
    rw [hs, hs']
    trivial

/-- The columns of the view are well typed if all rows are there and the first cell is no
`null`. -/
theorem wellTyped_tdxModel (hrows : ∀ r ∈ rows, r ≠ none)
    (hfirst : ∃ r o, rows[0]? = some (some r) ∧ r.get doubleValue column = some o) :
    WellTyped (tdxModel doubleValue rows) column := by
  obtain ⟨r, o, hr, ho⟩ := hfirst
  refine ⟨o.kind.getClass, ?_, fun row hrow => ?_⟩
  · simp [tdxModel, hr, ho]
  · have hget : rows[row]? = some rows[row] := List.getElem?_eq_getElem hrow
    obtain ⟨r', hr'⟩ := Option.ne_none_iff_exists'.mp (hrows _ (List.getElem_mem hrow))
    refine ⟨r'.get doubleValue column, ?_, fun o' ho' => TdxRow.fits_get ho ho' rfl⟩
    simp only [tdxModel, hget, hr', Option.join_some, Option.map_some]

end tdx

/-! ## Clicks -/

section clicks

variable {δ : Type*} [LinearOrder δ] (model : TableModel δ)

/-- By a click on a column, the row is not to be shown behind the other one. -/
def notBehind (click : Nat × Bool) (x y : Nat) : Bool :=
  match compareRowsByColumn model x y click.1 with
  | some result => decide ((if click.2 then result else -result) ≤ 0)
  | none => false

/-- The order of the rows after clicks, the last one first: rows that are even in the column of a
click stay in the order of the clicks before, and at last in that of the table. -/
def ClickOrder : List (Nat × Bool) → Nat → Nat → Prop
  | [] => fun x y => x < y
  | click :: earlier => Ahead (notBehind model click) (ClickOrder earlier)

/-- The clicks one after the other. -/
def TableSorter.clicks (s : TableSorter) : List (Nat × Bool) → Option TableSorter
  | [] => some s
  | click :: rest =>
      match TableSorter.sortByColumn model s click.1 click.2 with
      | none => none
      | some s => TableSorter.clicks s rest

variable {model} {s : TableSorter} {column : Nat}

/-- The comparison by a column answers for all rows, in one direction as in the other. -/
theorem WellTyped.exists_compares (h : WellTyped model column) (ascending : Bool) :
    ∃ le, Compares le ∧ ∀ x < model.getRowCount, ∀ y < model.getRowCount,
      le x y = notBehind model (column, ascending) x y ∧
        (compare model ascending [column] x y).map (decide <| · ≤ 0) = some (le x y) := by
  obtain ⟨cmp, hcmp, hrows⟩ := h.exists_cmp
  let signed : Nat → Nat → Int := if ascending then cmp else fun x y => -cmp x y
  have hsigned : Consistent signed := by
    cases ascending with
    | true => exact hcmp
    | false => exact hcmp.neg
  have hvalue : ∀ x y, signed x y = if ascending then cmp x y else -cmp x y := by
    intro x y
    cases ascending <;> rfl
  refine ⟨_, hsigned.compares, fun x hx y hy => ⟨?_, ?_⟩⟩
  · rw [notBehind, hrows x hx y hy, hvalue]
  · simp only [compare, hrows x hx y hy, hvalue]
    by_cases hzero : cmp x y = 0
    · simp [hzero]
    · simp [hzero]

/-- A click sorts the rows stably. -/
theorem sortByColumn_sorts (h : WellTyped model column) (ascending : Bool)
    (hs : ∀ i ∈ s.indexes, i < model.getRowCount) :
    ∃ indexes, TableSorter.sortByColumn model s column ascending =
        some ⟨indexes, [column], ascending⟩ ∧
      Sorts (notBehind model (column, ascending)) s.indexes indexes := by
  obtain ⟨le, hle, hrows⟩ := h.exists_compares ascending
  have hanswers : Answers (compare model ascending [column]) le s.indexes :=
    fun x hx y hy => (hrows x (hs x hx) y (hs y hy)).2
  have hempty : ([] : List Nat).length = 0 := rfl
  obtain ⟨s₁, s', heq, -, hsorts⟩ := shuttlesort_sorts hle hanswers [] [] hempty hempty
  simp only [List.nil_append, List.append_nil, Nat.zero_add] at heq
  refine ⟨s', ?_, hsorts.congr fun x hx y hy => (hrows x (hs x hx) y (hs y hy)).1⟩
  simp only [TableSorter.sortByColumn, TableSorter.sort, heq, Option.map_some]

/-- A click is one call of a stable merge sort by the cells of its column: neither the shuttling
nor the short-cut makes a difference. -/
theorem sortByColumn_eq_mergeSort (h : WellTyped model column) (ascending : Bool)
    (hs : s.indexes.Perm (List.range model.getRowCount)) :
    TableSorter.sortByColumn model s column ascending =
      some ⟨s.indexes.mergeSort (notBehind model (column, ascending)), [column], ascending⟩ := by
  have hlt : ∀ i ∈ s.indexes, i < model.getRowCount :=
    fun i hi => List.mem_range.mp (hs.subset hi)
  obtain ⟨indexes, heq, hsorts⟩ := sortByColumn_sorts h ascending hlt
  obtain ⟨le, hle, hrows⟩ := h.exists_compares ascending
  have hmerge := sorts_mergeSort_of hle fun x hx y hy => (hrows x (hlt x hx) y (hlt y hy)).1
  rw [heq, hsorts.eq (hs.nodup_iff.mpr List.nodup_range) hmerge]

theorem sortByColumn_eq_mergeSort_two :
    TableSorter.sortByColumn (tdxModel id [some ⟨7, []⟩, some ⟨5, []⟩])
        (TableSorter.new (tdxModel id [some ⟨7, []⟩, some ⟨5, []⟩])) 0 true =
      some ⟨(List.range 2).mergeSort
        (notBehind (tdxModel id [some ⟨7, []⟩, some ⟨5, []⟩]) (0, true)), [0], true⟩ :=
  sortByColumn_eq_mergeSort (wellTyped_tdxModel (by simp) ⟨⟨7, []⟩, _, rfl, rfl⟩) true (.refl _)

theorem clicks_from {clicks earlier : List (Nat × Bool)}
    (h : ∀ click ∈ clicks, WellTyped model click.1)
    (hperm : s.indexes.Perm (List.range model.getRowCount))
    (hs : s.indexes.Pairwise (ClickOrder model earlier)) :
    ∃ s', TableSorter.clicks model s clicks = some s' ∧
      s'.indexes.Perm (List.range model.getRowCount) ∧
      s'.indexes.Pairwise (ClickOrder model (clicks.reverse ++ earlier)) := by
  induction clicks generalizing s earlier with
  | nil => exact ⟨s, rfl, hperm, hs⟩
  | cons click rest ih =>
    obtain ⟨indexes, heq, hsorts⟩ := sortByColumn_sorts (h click List.mem_cons_self) click.2
      fun i hi => List.mem_range.mp (hperm.subset hi)
    have hnext : indexes.Pairwise (ClickOrder model (click :: earlier)) := hsorts.ahead _ hs
    obtain ⟨s', hs', hperm', hpairwise⟩ := ih (s := ⟨indexes, [click.1], click.2⟩)
      (fun c hc => h c (List.mem_cons_of_mem _ hc)) (hsorts.perm.trans hperm) hnext
    refine ⟨s', ?_, hperm', ?_⟩
    · rw [TableSorter.clicks, heq]
      exact hs'
    · rwa [List.reverse_cons, List.append_assoc, List.singleton_append]

/-- After any clicks on columns that are well typed, the sorter shows every row once, in the order
of the clicks. -/
theorem clicks_sorted (model : TableModel δ) (clicks : List (Nat × Bool))
    (h : ∀ click ∈ clicks, WellTyped model click.1) :
    ∃ s, TableSorter.clicks model (TableSorter.new model) clicks = some s ∧
      s.indexes.Perm (List.range model.getRowCount) ∧
      s.indexes.Pairwise (ClickOrder model clicks.reverse) := by
  have hstart : (TableSorter.new model).indexes.Pairwise (ClickOrder model []) :=
    List.pairwise_lt_range
  have hclicks := clicks_from h (.refl _) hstart
  rwa [List.append_nil] at hclicks

/-- Two rows by their lines, and then by their times downwards. -/
theorem clicks_sorted_two :
    ∃ s, TableSorter.clicks (tdxModel id [some ⟨5, [some [97]]⟩, some ⟨7, [some [97]]⟩])
          (TableSorter.new (tdxModel id [some ⟨5, [some [97]]⟩, some ⟨7, [some [97]]⟩]))
          [(1, true), (0, false)] = some s ∧
      s.indexes.Perm (List.range 2) ∧
      s.indexes.Pairwise (ClickOrder (tdxModel id [some ⟨5, [some [97]]⟩, some ⟨7, [some [97]]⟩])
        [(0, false), (1, true)]) := by
  refine clicks_sorted _ [(1, true), (0, false)] fun click hclick => ?_
  refine wellTyped_tdxModel (by simp) ⟨⟨5, [some [97]]⟩, ?_⟩
  rcases List.mem_pair.mp hclick with rfl | rfl
  · exact ⟨_, rfl, rfl⟩
  · exact ⟨_, rfl, rfl⟩

end clicks

end Natc.Viewer
