import Natc.Lib.Matchings
import Natc.Lib.Piles

/-!
# Longest common subsequences

`Diff.pm` pairs the positions of two sequences. It prunes what they have in common at both ends and
puts the pairs of equal elements in between on piles, row by row and from the last column to the
first. The last of the links leads back through a longest common subsequence.
-/

namespace Natc.Harness.Diff

open Lib

variable {α κ : Type*} [DecidableEq κ]

/-! ## The code -/

/-- `$array->[ $k ] = $v`. The array is filled up to the index. -/
def assign {γ : Type*} (undef : γ) (array : List γ) (k : Nat) (v : γ) : List γ :=
  (array ++ List.replicate (k + 1 - array.length) undef).set k v

/-- The index goes to those of its key. -/
def pushPosition (keys : List κ) (d : κ → Option (List Nat)) (index : Nat) :
    κ → Option (List Nat) :=
  match keys[index]? with
  | none => d
  | some key =>
      match d key with
      | some positions => Function.update d key (some (positions ++ [index]))
      | none => Function.update d key (some [index])

/-- `_withPositionsOfInInterval` over the keys of the collection. `stop` is `$end + 1`. -/
def withPositionsOfInInterval (keys : List κ) (start stop : Nat) : κ → Option (List Nat) :=
  (List.range' start (stop - start)).foldl (pushPosition keys) fun _ => none

/-- The binary search for the insertion point. `stop` is `$high + 1`. -/
def search (array : List Nat) (aValue low stop : Nat) : Option Nat :=
  if low < stop then
    let index := (stop - 1 + low) / 2
    let found := array.getD index 0
    if aValue = found then none
    else if found < aValue then search array aValue (index + 1) stop
    else search array aValue low index
  else some low
termination_by stop - low

/-- `$high ||= $#$array`, and one more. -/
def stopOf (array : List Nat) : Option Nat → Nat
  | some (k + 1) => k + 2
  | _ => array.length

/-- `_replaceNextLargerWith`: what is returned, and the array. -/
def replaceNextLargerWith (array : List Nat) (aValue : Nat) (high : Option Nat) :
    Option Nat × List Nat :=
  let stop := stopOf array high
  if stop = 0 ∨ array.getLast?.any (· < aValue) then (some stop, array ++ [aValue])
  else
    match search array aValue 0 stop with
    | none => (none, array)
    | some low => (some low, assign 0 array low aValue)

/-- A link with all that it leads back to: the index in the first sequence and that in the second. -/
abbrev Link := List (Nat × Nat)

/-- `$thresh` and `$links`. -/
structure Tables where
  thresh : List Nat
  links : List Link
  deriving DecidableEq, Repr

/-- `$links->[ $k ]` is set. -/
def Tables.link (t : Tables) (k i j : Nat) : Tables :=
  { t with links := assign [] t.links k ((i, j) :: if k ≠ 0 then t.links.getD (k - 1) [] else []) }

/-- The place of `j`. Mostly it is the one of the last match, or else it is searched for up to that. -/
def placeMatch (thresh : List Nat) (k : Option Nat) (j : Nat) : Option Nat × List Nat :=
  match k with
  | some (k + 1) =>
      if j < thresh.getD (k + 1) 0 ∧ thresh.getD k 0 < j then
        (some (k + 1), assign 0 thresh (k + 1) j)
      else replaceNextLargerWith thresh j (some (k + 1))
  | high => replaceNextLargerWith thresh j high

/-- The round of the inner loop for the match of `i` and `j`. -/
def matchRound (i : Nat) (s : Option Nat × Tables) (j : Nat) : Option Nat × Tables :=
  match placeMatch s.2.thresh s.1 j with
  | (none, thresh) => (none, { s.2 with thresh })
  | (some k, thresh) => (some k, Tables.link { s.2 with thresh } k i j)

/-- The round of the loop over the first sequence. -/
def rowRound (keys : List κ) (bMatches : κ → Option (List Nat)) (t : Tables) (i : Nat) : Tables :=
  match keys[i]?.bind bMatches with
  | none => t
  | some js => (js.reverse.foldl (matchRound i) (some 0, t)).2

/-- Common elements at the beginning. `aStop` and `bStop` are `$aFinish + 1` and `$bFinish + 1`. -/
def pruneStart (x y : List κ) (aStop bStop aStart bStart : Nat) (matchVector : List (Option Nat)) :
    Nat × Nat × List (Option Nat) :=
  if aStart < aStop ∧ bStart < bStop ∧ x[aStart]? = y[bStart]? then
    pruneStart x y aStop bStop (aStart + 1) (bStart + 1)
      (assign none matchVector aStart (some bStart))
  else (aStart, bStart, matchVector)
termination_by aStop - aStart

/-- Common elements at the end. -/
def pruneEnd (x y : List κ) (aStart bStart : Nat) :
    Nat → Nat → List (Option Nat) → Nat × Nat × List (Option Nat)
  | aFinish + 1, bFinish + 1, matchVector =>
      if aStart ≤ aFinish ∧ bStart ≤ bFinish ∧ x[aFinish]? = y[bFinish]? then
        pruneEnd x y aStart bStart aFinish bFinish
          (assign none matchVector aFinish (some bFinish))
      else (aFinish + 1, bFinish + 1, matchVector)
  | aStop, bStop, matchVector => (aStop, bStop, matchVector)

/-- The pairs of a link go into the vector. -/
def assignLink (matchVector : List (Option Nat)) (link : Link) : List (Option Nat) :=
  link.foldl (fun v p => assign none v p.1 (some p.2)) matchVector

/-- `_longestCommonSubsequence` on the keys of the two sequences. -/
def matchVector (x y : List κ) : List (Option Nat) :=
  let (aStart, bStart, pruned) := pruneStart x y x.length y.length 0 0 []
  let (aStop, bStop, vector) := pruneEnd x y aStart bStart x.length y.length pruned
  let bMatches := withPositionsOfInInterval y bStart bStop
  let tables := (List.range' aStart (aStop - aStart)).foldl (rowRound x bMatches) ⟨[], []⟩
  if tables.thresh ≠ [] then
    assignLink vector (tables.links.getD (tables.thresh.length - 1) [])
  else vector

/-- `_longestCommonSubsequence`. -/
def longestCommonSubsequence (keyGen : α → κ) (a b : List α) : List (Option Nat) :=
  matchVector (a.map keyGen) (b.map keyGen)

/-- `LCS`. -/
def LCS (keyGen : α → κ) (a b : List α) : List α :=
  let matchVector := longestCommonSubsequence keyGen a b
  (List.range matchVector.length).filterMap fun i =>
    match matchVector[i]? with
    | some (some _) => a[i]?
    | _ => none

/-! ## Arrays -/

section arrays

variable {γ : Type*} {undef v : γ} {array : List γ} {k i : Nat}

theorem length_assign : (assign undef array k v).length = max array.length (k + 1) := by
  rw [assign, List.length_set, List.length_append, List.length_replicate]
  omega

theorem getElem?_assign_self : (assign undef array k v)[k]? = some v := by
  rw [assign, List.getElem?_set_self]
  rw [List.length_append, List.length_replicate]
  omega

theorem getElem?_assign_of_lt (hi : i < array.length) (hne : i ≠ k) :
    (assign undef array k v)[i]? = array[i]? := by
  rw [assign, List.getElem?_set_ne hne.symm, List.getElem?_append_left hi]

/-- No gap is filled by an index that is at most the length. -/
theorem getElem?_assign_ne (hk : k ≤ array.length) (hne : i ≠ k) :
    (assign undef array k v)[i]? = array[i]? := by
  rcases Nat.lt_or_ge i array.length with hi | hi
  · exact getElem?_assign_of_lt hi hne
  · rw [List.getElem?_eq_none hi, List.getElem?_eq_none]
    rw [length_assign]
    omega

theorem assign_length : assign undef array array.length v = array ++ [v] := by
  rw [assign, Nat.add_sub_cancel_left, List.replicate_one, List.set_append_right _ _ le_rfl,
    Nat.sub_self, List.set_cons_zero]

end arrays

/-! ## The insertion point -/

section insertion

variable {array : List Nat} {v low stop k : Nat}

/-- All before the point is smaller, and all from it on is larger. -/
structure Insertion (array : List Nat) (v k : Nat) : Prop where
  le_length : k ≤ array.length
  before : ∀ m < k, ∀ w, array[m]? = some w → w < v
  from_on : ∀ m, k ≤ m → ∀ w, array[m]? = some w → v < w

/-- The value was in the array, or it is put where it belongs. -/
def Placed (array : List Nat) (v : Nat) : Option Nat × List Nat → Prop
  | (none, array') => array' = array ∧ ∃ k : Nat, array[k]? = some v
  | (some k, array') => Insertion array v k ∧ array' = assign 0 array k v

theorem lt_of_pairwise (h : array.Pairwise (· < ·)) {m n w z : Nat} (hmn : m < n)
    (hw : array[m]? = some w) (hz : array[n]? = some z) : w < z := by
  obtain ⟨hm, rfl⟩ := List.getElem?_eq_some_iff.mp hw
  obtain ⟨hn, rfl⟩ := List.getElem?_eq_some_iff.mp hz
  exact List.pairwise_iff_getElem.mp h m n hm hn hmn

theorem le_of_pairwise (h : array.Pairwise (· < ·)) {m n w z : Nat} (hmn : m ≤ n)
    (hw : array[m]? = some w) (hz : array[n]? = some z) : w ≤ z := by
  rcases hmn.lt_or_eq with hmn | rfl
  · exact (lt_of_pairwise h hmn hw hz).le
  · exact (Option.some.inj (hw.symm.trans hz)).le

theorem getElem?_getD (h : k < array.length) : array[k]? = some (array.getD k 0) := by
  rw [List.getElem?_eq_getElem h, List.getD_eq_getElem _ _ h]

/-- The search keeps the smaller values before `low` and the larger ones from `stop` on. -/
theorem search_spec (h : array.Pairwise (· < ·)) (hle : low ≤ stop) (hstop : stop ≤ array.length)
    (hbefore : ∀ m < low, ∀ w, array[m]? = some w → w < v)
    (hfrom : ∀ m, stop ≤ m → ∀ w, array[m]? = some w → v < w) :
    match search array v low stop with
    | none => ∃ k : Nat, array[k]? = some v
    | some k => Insertion array v k := by
  induction low, stop using search.induct array v with
  | case1 low stop hlt index found heq =>
    rw [search, if_pos hlt]
    have hget : array[index]? = some found := getElem?_getD (by omega)
    simp only [show v = array.getD ((stop - 1 + low) / 2) 0 from heq, if_true]
    exact ⟨index, hget⟩
  | case2 low stop hlt index found hne hfound ih =>
    have hindex : index < stop := by omega
    have hget : array[index]? = some found := getElem?_getD (hindex.trans_le hstop)
    have hstep := ih hindex hstop (fun m hm w hw =>
      (le_of_pairwise h (Nat.lt_succ_iff.mp hm) hw hget).trans_lt hfound) hfrom
    rw [search, if_pos hlt]
    simp only [if_neg (show ¬ v = array.getD ((stop - 1 + low) / 2) 0 from hne),
      if_pos (show array.getD ((stop - 1 + low) / 2) 0 < v from hfound)]
    exact hstep
  | case3 low stop hlt index found hne hfound ih =>
    have hindex : index < stop := by omega
    have hget : array[index]? = some found := getElem?_getD (hindex.trans_le hstop)
    have hstep := ih (by omega) (hindex.le.trans hstop) hbefore (fun m hm w hw =>
      (show v < found by omega).trans_le (le_of_pairwise h hm hget hw))
    rw [search, if_pos hlt]
    simp only [if_neg (show ¬ v = array.getD ((stop - 1 + low) / 2) 0 from hne),
      if_neg (show ¬ array.getD ((stop - 1 + low) / 2) 0 < v from hfound)]
    exact hstep
  | case4 low stop hlt =>
    rw [search, if_neg hlt]
    obtain rfl : low = stop := by omega
    exact ⟨hstop, hbefore, hfrom⟩

/-- The last entry is the largest. -/
theorem le_getLast (h : array.Pairwise (· < ·)) {m w last : Nat} (hw : array[m]? = some w)
    (hlast : array.getLast? = some last) : w ≤ last := by
  rw [List.getLast?_eq_getElem?] at hlast
  have hm := (List.getElem?_eq_some_iff.mp hw).1
  exact le_of_pairwise h (Nat.le_sub_one_of_lt hm) hw hlast

/-- A bound that is given is larger than the value. -/
theorem replaceNextLargerWith_spec (h : array.Pairwise (· < ·)) {high : Option Nat}
    (hhigh : ∀ k, high = some (k + 1) → ∃ w, array[k + 1]? = some w ∧ v < w) :
    Placed array v (replaceNextLargerWith array v high) := by
  obtain ⟨stop, hstop⟩ : ∃ stop, stop = stopOf array high := ⟨_, rfl⟩
  -- The bound is the length, or a larger value stands just before it.
  have hbound : stop = array.length ∨
      ∃ k w, stop = k + 2 ∧ array[k + 1]? = some w ∧ v < w := by
    rcases high with - | - | k
    · exact .inl hstop
    · exact .inl hstop
    · obtain ⟨w, hw, hlt⟩ := hhigh k rfl
      exact .inr ⟨k, w, hstop, hw, hlt⟩
  have hle : stop ≤ array.length := by
    rcases hbound with rfl | ⟨k, w, rfl, hw, -⟩
    · exact le_rfl
    · exact (List.getElem?_eq_some_iff.mp hw).1
  rw [replaceNextLargerWith]
  simp only [← hstop]
  split
  · next hpush =>
    have hall : ∀ m w : Nat, array[m]? = some w → w < v := by
      intro m w hw
      rcases hpush with rfl | hlast
      · rcases hbound with hzero | ⟨k, -, hzero, -⟩
        · have hm := (List.getElem?_eq_some_iff.mp hw).1
          omega
        · omega
      · obtain ⟨last, hget, hlt⟩ := (Option.any_eq_true _ _).mp hlast
        exact (le_getLast h hw hget).trans_lt (of_decide_eq_true hlt)
    obtain rfl : stop = array.length := by
      rcases hbound with heq | ⟨k, w, -, hw, hlt⟩
      · exact heq
      · exact absurd (hall _ _ hw) hlt.not_gt
    refine ⟨⟨le_rfl, fun m _ => hall m, fun m hm w hw => ?_⟩, assign_length.symm⟩
    exact absurd (List.getElem?_eq_some_iff.mp hw).1 hm.not_gt
  · have hspec := search_spec h (Nat.zero_le stop) hle (v := v)
      (fun m hm => absurd hm (Nat.not_lt_zero m)) fun m hm w hw => by
        rcases hbound with rfl | ⟨k, z, rfl, hz, hlt⟩
        · exact absurd (List.getElem?_eq_some_iff.mp hw).1 hm.not_gt
        · exact hlt.trans_le (le_of_pairwise h (by omega) hz hw)
    revert hspec
    cases search array v 0 stop with
    | none => exact fun hspec => ⟨rfl, hspec⟩
    | some k => exact fun hspec => ⟨hspec, rfl⟩

/-- The last match, if it was put anywhere, stands above the value. -/
theorem placeMatch_spec (h : array.Pairwise (· < ·)) {last : Option Nat}
    (hlast : ∀ k, last = some (k + 1) → ∃ w, array[k + 1]? = some w ∧ v < w) :
    Placed array v (placeMatch array last v) := by
  rcases last with - | - | k
  · exact replaceNextLargerWith_spec h hlast
  · exact replaceNextLargerWith_spec h hlast
  · rw [placeMatch]
    split
    · next hbetween =>
      obtain ⟨w, hw, hlt⟩ := hlast k rfl
      have hk := (List.getElem?_eq_some_iff.mp hw).1
      refine ⟨⟨hk.le, fun m hm z hz => ?_, fun m hm z hz => ?_⟩, rfl⟩
      · have hget := getElem?_getD (Nat.lt_of_succ_lt hk)
        exact (le_of_pairwise h (Nat.lt_succ_iff.mp hm) hz hget).trans_lt hbetween.2
      · exact hlt.trans_le (le_of_pairwise h hm hw hz)
    · exact replaceNextLargerWith_spec h hlast

end insertion

/-! ## The tables -/

section tables

variable {t : Tables} {done : List (Nat × Nat)} {i j k w : Nat}

/-- The column of the last match of a link. -/
def top (link : Link) : Nat := (link.headD (0, 0)).2

/-- The links are the piles of the matches so far, and the thresholds are their tops. -/
structure Tables.Inv (t : Tables) (done : List (Nat × Nat)) : Prop where
  piles : Piles Prod.snd done t.links
  thresh : t.thresh = t.links.map top

theorem Tables.Inv.getElem? (h : t.Inv done) (hw : t.thresh[k]? = some w) :
    ∃ p link, t.links[k]? = some (p :: link) ∧ p.2 = w := by
  rw [h.thresh, List.getElem?_map] at hw
  obtain ⟨link, hlink, rfl⟩ := Option.map_eq_some_iff.mp hw
  obtain ⟨p, rest, rfl⟩ := h.piles.exists_top hlink
  exact ⟨p, rest, hlink, rfl⟩

theorem Tables.Inv.pairwise (h : t.Inv done) : t.thresh.Pairwise (· < ·) := by
  rw [List.pairwise_iff_getElem]
  intro m n hm hn hmn
  obtain ⟨p, link, hp, hpm⟩ := h.getElem? (List.getElem?_eq_getElem hm)
  obtain ⟨q, link', hq, hqn⟩ := h.getElem? (List.getElem?_eq_getElem hn)
  exact hpm ▸ hqn ▸ h.piles.top_lt hmn hp hq

theorem map_assign {γ δ : Type*} (f : γ → δ) (undef v : γ) (array : List γ) :
    (assign undef array k v).map f = assign (f undef) (array.map f) k (f v) := by
  rw [assign, assign, List.map_set, List.map_append, List.map_replicate, List.length_map]

/-- The place in the thresholds is the place on the piles. -/
theorem Tables.Inv.fits (h : t.Inv done) (hk : Insertion t.thresh j k) :
    Fits Prod.snd t.links (i, j) k := by
  have hget : ∀ {m : Nat} {p : Nat × Nat} {link}, t.links[m]? = some (p :: link) →
      t.thresh[m]? = some p.2 := by
    intro m p link hm
    rw [h.thresh, List.getElem?_map, hm]
    rfl
  refine ⟨?_, fun m hm p link hp => hk.before m hm _ (hget hp),
    fun p link hp => (hk.from_on k le_rfl _ (hget hp)).le⟩
  have hle := hk.le_length
  rwa [h.thresh, List.length_map] at hle

/-- A match keeps the tables, and its place is told. -/
theorem matchRound_inv (h : t.Inv done) {last : Option Nat}
    (hlast : ∀ k, last = some (k + 1) → ∃ w, t.thresh[k + 1]? = some w ∧ j < w) :
    (matchRound i (last, t) j).2.Inv ((i, j) :: done) ∧
      ∀ k, (matchRound i (last, t) j).1 = some k →
        (matchRound i (last, t) j).2.thresh[k]? = some j := by
  have hspec := placeMatch_spec h.pairwise hlast
  rw [matchRound]
  revert hspec
  rcases placeMatch t.thresh last j with ⟨- | k, thresh⟩
  · rintro ⟨rfl, k, hk⟩
    obtain ⟨p, link, hp, heq⟩ := h.getElem? hk
    exact ⟨⟨h.piles.skip hp heq.symm, h.thresh⟩, fun k hk => nomatch hk⟩
  · rintro ⟨hins, rfl⟩
    have hfits := h.fits (i := i) hins
    have hunder : (if k ≠ 0 then t.links.getD (k - 1) [] else []) = under t.links k := by
      cases k <;> rfl
    refine ⟨⟨h.piles.place hfits ?_ fun m hm => getElem?_assign_ne hfits.le_length hm, ?_⟩, ?_⟩
    · exact hunder ▸ getElem?_assign_self
    · change assign 0 t.thresh k j = (assign [] t.links k _).map top
      rw [map_assign, h.thresh]
      rfl
    · intro m hm
      obtain rfl := Option.some.inj hm
      exact getElem?_assign_self

/-- The matches of a row, from the last column to the first. -/
theorem foldl_matchRound_inv {js : List Nat} (hjs : js.Pairwise (· > ·)) (h : t.Inv done)
    {last : Option Nat}
    (hlast : ∀ k, last = some (k + 1) → ∃ w, t.thresh[k + 1]? = some w ∧ ∀ j ∈ js, j < w) :
    (js.foldl (matchRound i) (last, t)).2.Inv ((js.map (i, ·)).reverse ++ done) := by
  induction js generalizing t done last with
  | nil => exact h
  | cons j js ih =>
    rw [List.pairwise_cons] at hjs
    have hfirst : ∀ k, last = some (k + 1) → ∃ w, t.thresh[k + 1]? = some w ∧ j < w :=
      fun k hk => (hlast k hk).imp fun w hw => ⟨hw.1, hw.2 j List.mem_cons_self⟩
    obtain ⟨hinv, hplace⟩ := matchRound_inv (i := i) h hfirst
    rw [List.foldl_cons, List.map_cons, List.reverse_cons, List.append_assoc]
    exact ih hjs.2 hinv fun k hk => ⟨j, hplace _ hk, hjs.1⟩

end tables

/-! ## The matches -/

section rows

variable {x y : List κ} {t : Tables} {done : List (Nat × Nat)}

/-- The positions of a key in the interval. -/
def positions (y : List κ) (is : List Nat) (key : κ) : List Nat := is.filter (y[·]? = some key)

theorem getD_pushPosition (d : κ → Option (List Nat)) (index : Nat) (key : κ) :
    (pushPosition y d index key).getD [] =
      (d key).getD [] ++ if y[index]? = some key then [index] else [] := by
  rw [pushPosition]
  cases y[index]? with
  | none => simp
  | some key' =>
    by_cases hkey : key = key'
    · subst hkey
      cases hd : d key <;> simp [hd]
    · have hne : ¬ key' = key := Ne.symm hkey
      cases hd : d key' <;> simp [hd, hkey, hne]

/-- The keys that are in the table have their positions in it. -/
theorem getD_withPositionsOfInInterval (start stop : Nat) (key : κ) :
    (withPositionsOfInInterval y start stop key).getD [] =
      positions y (List.range' start (stop - start)) key := by
  rw [withPositionsOfInInterval]
  induction List.range' start (stop - start) using List.reverseRecOn with
  | nil => rfl
  | append_singleton is index ih =>
    rw [List.foldl_append, List.foldl_cons, List.foldl_nil, getD_pushPosition, ih, positions,
      positions, List.filter_append, List.filter_singleton]
    simp

/-- The columns of the matches of a row, in increasing order. -/
def columns (x y : List κ) (bStart bStop i : Nat) : List Nat :=
  match x[i]? with
  | none => []
  | some key => positions y (List.range' bStart (bStop - bStart)) key

theorem rowRound_eq (bStart bStop i : Nat) :
    rowRound x (withPositionsOfInInterval y bStart bStop) t i =
      ((columns x y bStart bStop i).reverse.foldl (matchRound i) (some 0, t)).2 := by
  rw [rowRound, columns]
  cases x[i]? with
  | none => rfl
  | some key =>
    simp only [Option.bind_some, ← getD_withPositionsOfInInterval]
    cases withPositionsOfInInterval y bStart bStop key <;> rfl

theorem mem_columns {bStart bStop i j : Nat} :
    j ∈ columns x y bStart bStop i ↔
      (bStart ≤ j ∧ j < bStop) ∧ ∃ a, x[i]? = some a ∧ y[j]? = some a := by
  rw [columns]
  cases x[i]? with
  | none => simp
  | some key =>
    simp only [positions, List.mem_filter, List.mem_range'_1, decide_eq_true_eq,
      Option.some.injEq, exists_eq_left']
    refine and_congr_left fun _ => ?_
    omega

theorem pairwise_columns {bStart bStop i : Nat} :
    (columns x y bStart bStop i).Pairwise (· < ·) := by
  rw [columns]
  cases x[i]? with
  | none => exact .nil
  | some key => exact (List.pairwise_lt_range' 1).sublist List.filter_sublist

/-- The matches of the rows, in the order in which they are put into the tables. -/
def candidates (x y : List κ) (bStart bStop : Nat) (is : List Nat) : List (Nat × Nat) :=
  is.flatMap fun i => (columns x y bStart bStop i).reverse.map (i, ·)

/-- The rows of the loop keep the tables. -/
theorem foldl_rowRound_inv (bStart bStop : Nat) {is : List Nat} (h : t.Inv done) :
    (is.foldl (rowRound x (withPositionsOfInInterval y bStart bStop)) t).Inv
      ((candidates x y bStart bStop is).reverse ++ done) := by
  induction is generalizing t done with
  | nil => exact h
  | cons i is ih =>
    rw [List.foldl_cons, candidates, List.flatMap_cons, List.reverse_append, List.append_assoc]
    refine ih ?_
    rw [rowRound_eq]
    exact foldl_matchRound_inv (List.pairwise_reverse.mpr pairwise_columns) h
      fun k hk => nomatch Option.some.inj hk

/-- The order in which matches are put into the tables. -/
def Before (p q : Nat × Nat) : Prop := p.1 < q.1 ∨ p.1 = q.1 ∧ q.2 < p.2

instance : Std.Irrefl Before := ⟨fun p h => by
  rcases h with h | ⟨-, h⟩ <;> exact h.false⟩

instance : Std.Antisymm Before := ⟨fun p q hpq hqp => by
  rcases hpq with h | ⟨heq, h⟩ <;> rcases hqp with h' | ⟨heq', h'⟩ <;> omega⟩

theorem pairwise_candidates {bStart bStop : Nat} {is : List Nat} (his : is.Pairwise (· < ·)) :
    (candidates x y bStart bStop is).Pairwise Before := by
  rw [candidates, List.pairwise_flatMap]
  refine ⟨fun i _ => ?_, his.imp fun hlt p hp q hq => ?_⟩
  · refine List.pairwise_map.mpr (List.pairwise_reverse.mpr ?_)
    exact pairwise_columns.imp fun hlt => .inr ⟨rfl, hlt⟩
  · obtain ⟨j, -, rfl⟩ := List.mem_map.mp hp
    obtain ⟨j', -, rfl⟩ := List.mem_map.mp hq
    exact .inl hlt

theorem mem_candidates {bStart bStop : Nat} {is : List Nat} {p : Nat × Nat} :
    p ∈ candidates x y bStart bStop is ↔
      p.1 ∈ is ∧ (bStart ≤ p.2 ∧ p.2 < bStop) ∧ ∃ a, x[p.1]? = some a ∧ y[p.2]? = some a := by
  rw [candidates, List.mem_flatMap]
  constructor
  · rintro ⟨i, hi, hp⟩
    obtain ⟨j, hj, rfl⟩ := List.mem_map.mp hp
    exact ⟨hi, mem_columns.mp (List.mem_reverse.mp hj)⟩
  · rintro ⟨hi, hp⟩
    exact ⟨p.1, hi, List.mem_map.mpr ⟨p.2, List.mem_reverse.mpr (mem_columns.mpr hp), rfl⟩⟩

/-- A link leads back through a matching. -/
theorem matching_of_climb {bStart bStop : Nat} {is : List Nat} (his : is.Pairwise (· < ·))
    {link : Link} (h : Climb Prod.snd (candidates x y bStart bStop is).reverse link) :
    Matching x y link.reverse ∧
      ∀ p ∈ link.reverse, p.1 ∈ is ∧ bStart ≤ p.2 ∧ p.2 < bStop := by
  have hsub : link.reverse.Sublist (candidates x y bStart bStop is) := by
    simpa using h.sublist.reverse
  have hmem : ∀ p ∈ link.reverse, p ∈ candidates x y bStart bStop is := fun p hp => hsub.subset hp
  refine ⟨⟨?_, fun p hp => (mem_candidates.mp (hmem p hp)).2.2⟩, fun p hp =>
    ⟨(mem_candidates.mp (hmem p hp)).1, (mem_candidates.mp (hmem p hp)).2.1⟩⟩
  have hbefore := (pairwise_candidates his).sublist hsub
  have hcolumns : link.reverse.Pairwise fun p q => p.2 < q.2 :=
    List.pairwise_reverse.mpr h.increasing
  refine hbefore.imp₂ (fun p q hpq hlt => ⟨?_, hlt⟩) hcolumns
  rcases hpq with hrow | ⟨-, hgt⟩
  · exact hrow
  · exact absurd hlt hgt.asymm

/-- A matching inside of the window is among the candidates. -/
theorem climb_of_matching {bStart bStop : Nat} {is : List Nat} (his : is.Pairwise (· < ·))
    {qs : List (Nat × Nat)} (h : Matching x y qs)
    (hqs : ∀ q ∈ qs, q.1 ∈ is ∧ bStart ≤ q.2 ∧ q.2 < bStop) :
    Climb Prod.snd (candidates x y bStart bStop is).reverse qs.reverse := by
  have hbefore : qs.Pairwise Before := h.rising.imp fun hpq => .inl hpq.1
  have hsub : qs.Sublist (candidates x y bStart bStop is) := by
    refine List.sublist_of_subperm_of_pairwise ?_ hbefore (pairwise_candidates his)
    refine List.subperm_of_subset hbefore.nodup fun q hq => ?_
    exact mem_candidates.mpr ⟨(hqs q hq).1, (hqs q hq).2, h.same q hq⟩
  exact ⟨hsub.reverse, List.pairwise_reverse.mpr (h.rising.imp And.right)⟩

/-- The link that the loop ends with. -/
def lastLink (t : Tables) : Link :=
  if t.thresh ≠ [] then t.links.getD (t.thresh.length - 1) [] else []

theorem Tables.Inv.lastLink (h : t.Inv done) :
    Climb Prod.snd done (lastLink t) ∧
      ∀ c, Climb Prod.snd done c → c.length ≤ (Diff.lastLink t).length := by
  have heq : Diff.lastLink t = t.links.getLast?.getD [] := by
    rw [Diff.lastLink, h.thresh, List.length_map, List.getLast?_eq_getElem?,
      ← List.getD_eq_getElem?_getD]
    split
    · rfl
    · next hnil =>
      rw [not_not, List.map_eq_nil_iff] at hnil
      rw [hnil]
      rfl
  obtain ⟨hclimb, hlength⟩ := h.piles.last
  rw [heq]
  exact ⟨hclimb, fun c hc => hlength ▸ h.piles.length_le_length hc⟩

end rows

/-! ## The vector -/

section vector

variable {v : List (Option Nat)} {ps : List (Nat × Nat)} {i j k w : Nat}

/-- The element is matched with the other one. -/
def Entry (v : List (Option Nat)) (i j : Nat) : Prop := v[i]? = some (some j)

/-- The last entry, if any, is a match. -/
def Ends (v : List (Option Nat)) : Prop := v.getLast? ≠ some none

theorem entry_assign : Entry (assign none v k (some w)) i j ↔
    (i, j) = (k, w) ∨ i ≠ k ∧ Entry v i j := by
  by_cases hi : i = k
  · subst hi
    rw [Entry, getElem?_assign_self]
    simp [eq_comm]
  · have hpair : ¬ (i, j) = (k, w) := fun h => hi (Prod.mk.inj h).1
    rw [Entry, Entry]
    rcases Nat.lt_or_ge i v.length with hlt | hge
    · rw [getElem?_assign_of_lt hlt hi]
      simp [hi]
    · have hnone : v[i]? = none := List.getElem?_eq_none hge
      rw [assign, List.getElem?_set_ne (Ne.symm hi), List.getElem?_append_right hge, hnone,
        List.getElem?_replicate]
      split <;> simp [hi]

theorem ends_assign (h : Ends v) : Ends (assign none v k (some w)) := by
  rw [Ends, List.getLast?_eq_getElem?, length_assign]
  rcases Nat.lt_or_ge k (v.length - 1) with hk | hk
  · rw [show max v.length (k + 1) - 1 = v.length - 1 by omega,
      getElem?_assign_of_lt (by omega) (by omega), ← List.getLast?_eq_getElem?]
    exact h
  · rw [show max v.length (k + 1) - 1 = k by omega, getElem?_assign_self]
    simp

theorem entry_assignLink (hps : (ps.map Prod.fst).Nodup) : Entry (assignLink v ps) i j ↔
    (i, j) ∈ ps ∨ i ∉ ps.map Prod.fst ∧ Entry v i j := by
  induction ps generalizing v with
  | nil => simp [assignLink]
  | cons p ps ih =>
    rw [List.map_cons, List.nodup_cons] at hps
    have hstep : assignLink v (p :: ps) = assignLink (assign none v p.1 (some p.2)) ps := rfl
    have hself : (i, j) = (p.1, p.2) → i ∉ ps.map Prod.fst :=
      fun heq => (Prod.mk.inj heq).1 ▸ hps.1
    rw [hstep, ih hps.2, entry_assign, List.mem_cons, List.map_cons, List.mem_cons, not_or]
    tauto

theorem ends_assignLink (h : Ends v) : Ends (assignLink v ps) := by
  induction ps generalizing v with
  | nil => exact h
  | cons p ps ih => exact ih (ends_assign h)

/-- The matches of a vector in their order. -/
def pairs (v : List (Option Nat)) : List (Nat × Nat) :=
  (List.range v.length).filterMap fun i => v[i]?.join.map (i, ·)

theorem mem_pairs : (i, j) ∈ pairs v ↔ Entry v i j := by
  rw [pairs, List.mem_filterMap, Entry]
  constructor
  · rintro ⟨m, -, hm⟩
    obtain ⟨n, hn, heq⟩ := Option.map_eq_some_iff.mp hm
    obtain ⟨rfl, rfl⟩ := Prod.mk.inj heq
    exact Option.join_eq_some_iff.mp hn
  · intro h
    refine ⟨i, List.mem_range.mpr (List.getElem?_eq_some_iff.mp h).1, ?_⟩
    rw [h]
    rfl

theorem pairwise_pairs : (pairs v).Pairwise fun p q => p.1 < q.1 := by
  rw [pairs, List.pairwise_filterMap]
  refine List.pairwise_lt_range.imp fun hlt p hp q hq => ?_
  obtain ⟨-, -, rfl⟩ := Option.map_eq_some_iff.mp hp
  obtain ⟨-, -, rfl⟩ := Option.map_eq_some_iff.mp hq
  exact hlt

end vector

/-! ## Pruning -/

section prune

variable {x y : List κ}

/-- The positions that are paired at the beginning. -/
def startPairs (n : Nat) : List (Nat × Nat) := (List.range n).map fun i => (i, i)

/-- The positions that are paired at the end, from the last one on. -/
def endPairs (aStop bStop n : Nat) : List (Nat × Nat) :=
  (List.range n).map fun t => (aStop - 1 - t, bStop - 1 - t)

theorem assignLink_append (v : List (Option Nat)) (ps qs : List (Nat × Nat)) :
    assignLink v (ps ++ qs) = assignLink (assignLink v ps) qs := List.foldl_append

theorem pruneStart_eq (aStop bStop s : Nat) (v : List (Option Nat)) :
    ∃ n, pruneStart x y aStop bStop s s v =
        (s + n, s + n, assignLink v ((List.range' s n).map fun i => (i, i))) ∧
      ∀ i, s ≤ i → i < s + n → i < aStop ∧ i < bStop ∧ x[i]? = y[i]? := by
  induction hk : aStop - s generalizing s v with
  | zero =>
    refine ⟨0, ?_, fun i hi hlt => absurd hlt hi.not_gt⟩
    rw [pruneStart, if_neg (by omega)]
    rfl
  | succ k ih =>
    by_cases hc : s < aStop ∧ s < bStop ∧ x[s]? = y[s]?
    · obtain ⟨n, heq, hall⟩ := ih (s + 1) (assign none v s (some s)) (by omega)
      refine ⟨n + 1, ?_, fun i hi hlt => ?_⟩
      · rw [pruneStart, if_pos hc, heq, List.range'_succ, Nat.add_right_comm, Nat.add_assoc s n 1]
        rfl
      · rcases hi.eq_or_lt with rfl | hi
        · exact hc
        · exact hall i hi (by omega)
    · refine ⟨0, ?_, fun i hi hlt => absurd hlt hi.not_gt⟩
      rw [pruneStart, if_neg hc]
      rfl

theorem endPairs_succ (a b n : Nat) :
    endPairs (a + 1) (b + 1) (n + 1) = (a, b) :: endPairs a b n := by
  rw [endPairs, endPairs, List.range_succ_eq_map, List.map_cons, List.map_map]
  refine congrArg₂ _ rfl (List.map_congr_left fun t _ => ?_)
  exact Prod.ext (by simp only [Function.comp]; omega) (by simp only [Function.comp]; omega)

theorem pruneEnd_eq (aStart bStart aStop bStop : Nat) (v : List (Option Nat)) :
    ∃ n, pruneEnd x y aStart bStart aStop bStop v =
        (aStop - n, bStop - n, assignLink v (endPairs aStop bStop n)) ∧
      ∀ t < n, aStart + t < aStop ∧ bStart + t < bStop ∧
        x[aStop - 1 - t]? = y[bStop - 1 - t]? := by
  induction aStop, bStop, v using pruneEnd.induct x y aStart bStart with
  | case1 aFinish bFinish v hc ih =>
    obtain ⟨n, heq, hall⟩ := ih
    refine ⟨n + 1, ?_, fun t ht => ?_⟩
    · rw [pruneEnd, if_pos hc, heq, endPairs_succ, Nat.succ_sub_succ, Nat.succ_sub_succ]
      rfl
    · cases t with
      | zero => exact ⟨by omega, by omega, hc.2.2⟩
      | succ t =>
        obtain ⟨ha, hb, hsame⟩ := hall t (by omega)
        refine ⟨by omega, by omega, ?_⟩
        rwa [show aFinish + 1 - 1 - (t + 1) = aFinish - 1 - t by omega,
          show bFinish + 1 - 1 - (t + 1) = bFinish - 1 - t by omega]
  | case2 aFinish bFinish v hc =>
    refine ⟨0, ?_, fun t ht => absurd ht (Nat.not_lt_zero t)⟩
    rw [pruneEnd, if_neg hc]
    rfl
  | case3 aStop bStop v hcase =>
    refine ⟨0, ?_, fun t ht => absurd ht (Nat.not_lt_zero t)⟩
    rw [pruneEnd.eq_2 _ _ _ _ _ _ _ hcase]
    rfl

omit [DecidableEq κ] in
theorem matching_startPairs {n : Nat}
    (h : ∀ i, i < n → i < x.length ∧ i < y.length ∧ x[i]? = y[i]?) :
    Matching x y (startPairs n) where
  rising := List.pairwise_map.mpr (List.pairwise_lt_range.imp fun hlt => ⟨hlt, hlt⟩)
  same p hp := by
    obtain ⟨i, hi, rfl⟩ := List.mem_map.mp hp
    obtain ⟨hx, -, hsame⟩ := h i (List.mem_range.mp hi)
    exact ⟨x[i], List.getElem?_eq_getElem hx, hsame ▸ List.getElem?_eq_getElem hx⟩

omit [DecidableEq κ] in
theorem matching_endPairs {n aStart bStart : Nat}
    (h : ∀ t < n, aStart + t < x.length ∧ bStart + t < y.length ∧
      x[x.length - 1 - t]? = y[y.length - 1 - t]?) :
    Matching x y (endPairs x.length y.length n).reverse where
  rising := by
    refine List.pairwise_reverse.mpr (List.pairwise_map.mpr ?_)
    refine List.pairwise_lt_range.imp_of_mem fun {s t} _ ht hlt => ?_
    obtain ⟨hx, hy, -⟩ := h t (List.mem_range.mp ht)
    exact ⟨by omega, by omega⟩
  same p hp := by
    obtain ⟨t, ht, rfl⟩ := List.mem_map.mp (List.mem_reverse.mp hp)
    obtain ⟨hx, -, hsame⟩ := h t (List.mem_range.mp ht)
    have hlt : x.length - 1 - t < x.length := by omega
    exact ⟨x[x.length - 1 - t], List.getElem?_eq_getElem hlt,
      hsame ▸ List.getElem?_eq_getElem hlt⟩

end prune

/-! ## The result -/

section result

variable {x y : List κ}

/-- The vector is a matching, no other one is longer, and it ends with a match. -/
structure Longest (x y : List κ) (v : List (Option Nat)) : Prop where
  matching : Matching x y (pairs v)
  longest : ∀ ps, Matching x y ps → ps.length ≤ (pairs v).length
  ends : Ends v

/-- The pairs that stand in the vector are those that are put into it. -/
theorem pairs_assignLink {ps qs : List (Nat × Nat)} (hqs : Rising qs) (hperm : ps.Perm qs) :
    pairs (assignLink [] ps) = qs := by
  have hnodup : (ps.map Prod.fst).Nodup :=
    (hperm.map Prod.fst).nodup_iff.mpr (hqs.fst.imp Nat.ne_of_lt)
  have hsorted : qs.Pairwise fun p q => p.1 < q.1 := hqs.imp And.left
  have hirrefl : Std.Irrefl fun p q : Nat × Nat => p.1 < q.1 := ⟨fun p => Nat.lt_irrefl p.1⟩
  have hantisymm : Std.Antisymm fun p q : Nat × Nat => p.1 < q.1 :=
    ⟨fun p q h h' => absurd h h'.asymm⟩
  refine List.Pairwise.eq_of_mem_iff pairwise_pairs hsorted fun p => ?_
  rw [← hperm.mem_iff, ← Prod.mk.eta (p := p), mem_pairs, entry_assignLink hnodup]
  simp [Entry]

theorem startPairs_lt {n : Nat} : ∀ p ∈ startPairs n, p.1 < n ∧ p.2 < n := by
  intro p hp
  obtain ⟨i, hi, rfl⟩ := List.mem_map.mp hp
  exact ⟨List.mem_range.mp hi, List.mem_range.mp hi⟩

/-- The vector is a longest matching. -/
theorem matchVector_longest (x y : List κ) : Longest x y (matchVector x y) := by
  obtain ⟨n, hstart, hfirst⟩ := pruneStart_eq (x := x) (y := y) x.length y.length 0 []
  obtain ⟨m, hend, hlast⟩ := pruneEnd_eq (x := x) (y := y) n n x.length y.length
    (assignLink [] (startPairs n))
  rw [Nat.zero_add, ← List.range_eq_range'] at hstart
  -- The rows and columns that are left.
  let is := List.range' n (x.length - m - n)
  have his : is.Pairwise (· < ·) := List.pairwise_lt_range' 1
  let t := is.foldl (rowRound x (withPositionsOfInInterval y n (y.length - m))) ⟨[], []⟩
  have hvector : matchVector x y =
      assignLink [] (startPairs n ++ (endPairs x.length y.length m ++ lastLink t)) := by
    rw [matchVector, hstart]
    simp only
    rw [show (List.range n).map (fun i => (i, i)) = startPairs n from rfl, hend]
    simp only
    rw [assignLink_append, assignLink_append, lastLink]
    split <;> rfl
  have hinv : t.Inv ((candidates x y n (y.length - m) is).reverse ++ []) :=
    foldl_rowRound_inv n _ ⟨Piles.nil, rfl⟩
  rw [List.append_nil] at hinv
  obtain ⟨hclimb, hmost⟩ := hinv.lastLink
  obtain ⟨hlink, hwindow⟩ := matching_of_climb his hclimb
  have hinside : ∀ p ∈ (lastLink t).reverse,
      (n ≤ p.1 ∧ p.1 + m < x.length) ∧ n ≤ p.2 ∧ p.2 + m < y.length := by
    intro p hp
    obtain ⟨hrow, hcolumn⟩ := hwindow p hp
    have hrow := List.mem_range'_1.mp hrow
    omega
  have hfirst' : Matching x y (startPairs n) :=
    matching_startPairs fun i hi => hfirst i (Nat.zero_le i) (by omega)
  have hlast' := matching_endPairs hlast
  have hends : ∀ p ∈ (endPairs x.length y.length m).reverse,
      (n ≤ p.1 ∧ n ≤ p.2) ∧ x.length ≤ p.1 + m ∧ y.length ≤ p.2 + m := by
    intro p hp
    obtain ⟨s, hs, rfl⟩ := List.mem_map.mp (List.mem_reverse.mp hp)
    have hs := List.mem_range.mp hs
    obtain ⟨hx, hy, -⟩ := hlast s hs
    exact ⟨⟨by omega, by omega⟩, by omega, by omega⟩
  have hmatching : Matching x y (startPairs n ++
      ((lastLink t).reverse ++ (endPairs x.length y.length m).reverse)) := by
    refine hfirst'.append (hlink.append hlast' fun p hp q hq => ?_) fun p hp q hq => ?_
    · have hp := hinside p hp
      have hq := hends q hq
      exact ⟨by omega, by omega⟩
    · have hp := startPairs_lt p hp
      rcases List.mem_append.mp hq with hq | hq
      · have hq := hinside q hq
        exact ⟨by omega, by omega⟩
      · have hq := hends q hq
        exact ⟨by omega, by omega⟩
  have hpairs : pairs (matchVector x y) = startPairs n ++
      ((lastLink t).reverse ++ (endPairs x.length y.length m).reverse) := by
    rw [hvector]
    refine pairs_assignLink hmatching.rising (List.Perm.append_left _ ?_)
    exact List.perm_append_comm.trans
      ((List.reverse_perm _).symm.append (List.reverse_perm _).symm)
  refine ⟨hpairs ▸ hmatching, fun ps hps => ?_, hvector ▸ ends_assignLink (by simp [Ends])⟩
  obtain ⟨qs, hqs, hlength, hin⟩ := hps.window n m
  have hleft : ∀ q ∈ qs, q.1 ∈ is ∧ n ≤ q.2 ∧ q.2 < y.length - m := by
    intro q hq
    obtain ⟨hlow, hhigh⟩ := hin q hq
    refine ⟨List.mem_range'_1.mpr ?_, ?_⟩ <;> omega
  have hle := hmost _ (climb_of_matching his hqs hleft)
  rw [List.length_reverse] at hle
  rw [hpairs]
  simp only [List.length_append, List.length_reverse, startPairs, endPairs, List.length_map,
    List.length_range]
  omega

/-- What `LCS` collects are the matched elements. -/
theorem LCS_eq (keyGen : α → κ) (a b : List α) :
    LCS keyGen a b = matched a (pairs (longestCommonSubsequence keyGen a b)) := by
  rw [LCS, matched, pairs, List.filterMap_filterMap]
  refine List.filterMap_congr fun i _ => ?_
  rcases (longestCommonSubsequence keyGen a b)[i]? with - | - | j <;> rfl

/-- `LCS` returns a subsequence of the first sequence whose keys are a longest common subsequence
of the keys. -/
theorem LCS_longest (keyGen : α → κ) (a b : List α) :
    (LCS keyGen a b).Sublist a ∧ ((LCS keyGen a b).map keyGen).Sublist (b.map keyGen) ∧
      ∀ c : List κ, c.Sublist (a.map keyGen) → c.Sublist (b.map keyGen) →
        c.length ≤ (LCS keyGen a b).length := by
  have h := matchVector_longest (a.map keyGen) (b.map keyGen)
  have hkeys : (LCS keyGen a b).map keyGen =
      matched (a.map keyGen) (pairs (longestCommonSubsequence keyGen a b)) := by
    rw [LCS_eq, matched, matched, List.map_filterMap]
    exact List.filterMap_congr fun p _ => (List.getElem?_map ..).symm
  have hlength : (LCS keyGen a b).length =
      (pairs (longestCommonSubsequence keyGen a b)).length := by
    rw [← List.length_map (f := keyGen), hkeys]
    exact h.matching.length_matched
  refine ⟨?_, hkeys ▸ h.matching.matched_sublist_right, fun c hca hcb => ?_⟩
  · have heq : LCS keyGen a b =
        ((pairs (longestCommonSubsequence keyGen a b)).map Prod.fst).filterMap (a[·]?) := by
      rw [LCS_eq, List.filterMap_map]
      rfl
    exact heq ▸ filterMap_sublist h.matching.rising.fst
  · obtain ⟨ps, hps, hlen⟩ := exists_matching hca hcb
    rw [hlength, ← hlen]
    exact h.longest ps hps

end result

end Natc.Harness.Diff
