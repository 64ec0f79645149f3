import Natc.Harness.Diff
import Natc.Lib.Decimal
import Natc.Lib.Lines

/-!
# The calls of a traversal and the hunks of a difference

`traverse_sequences` goes over both sequences along the longest matching and calls back for each
element. `diff` collects what is not matched into hunks. The calls are a shortest edit of the first
sequence into the second, and the hunks tell a sequence of lines from any other one.
-/

namespace Natc.Harness.Diff

open Lib

variable {α κ : Type*}

/-! ## The code -/

/-- A call of one of the functions that are handed over, with its indices. -/
inductive Call where
  | match (ai bi : Nat)
  | discardA (ai bi : Nat)
  | discardB (ai bi : Nat)
  | finishedA (ai : Nat)
  | finishedB (bi : Nat)
  deriving DecidableEq, Repr

/-- `DISCARD_A` from `ai` on. -/
def discardAs (bi ai stop : Nat) : List Call :=
  (List.range' ai (stop - ai)).map (.discardA · bi)

/-- `DISCARD_B` from `bi` on. -/
def discardBs (ai bi stop : Nat) : List Call :=
  (List.range' bi (stop - bi)).map (.discardB ai ·)

/-- The loop over the match vector from `$ai` on: the calls, and both indices behind it. -/
def traverseMatches : List (Option Nat) → Nat → Nat → List Call × Nat × Nat
  | [], ai, bi => ([], ai, bi)
  | some bLine :: rest, ai, bi =>
      let behind := traverseMatches rest (ai + 1) (max bi bLine + 1)
      (discardBs ai bi bLine ++ .match ai (max bi bLine) :: behind.1, behind.2)
  | none :: rest, ai, bi =>
      let behind := traverseMatches rest (ai + 1) bi
      (.discardA ai bi :: behind.1, behind.2)

/-- `traverse_sequences`. The flags tell whether `A_FINISHED` and `B_FINISHED` are defined. -/
def traverseSequences [DecidableEq κ] (finishedA finishedB : Bool) (keyGen : α → κ)
    (a b : List α) : List Call :=
  let (calls, ai, bi) := traverseMatches (longestCommonSubsequence keyGen a b) 0 0
  let (restA, ai) :=
    if finishedB ∧ ai < a.length then ([.finishedB bi], ai)
    else (discardAs bi ai a.length, max ai a.length)
  let restB :=
    if finishedA ∧ bi < b.length then [.finishedA ai] else discardBs ai bi b.length
  calls ++ (restA ++ restB)

/-- `$hunk.='-'. $_[ 0 ]. ">" . $a->[ $_[ 0 ] ]`, or the same with `+` and the other index. -/
def hunkLine (sign : Char) (index : Nat) (element : Text) : Text :=
  sign :: (Nat.toDigits 10 index ++ '>' :: element)

/-- `if $hunk`. -/
def truthy (hunk : Option Text) : Bool := hunk.any fun t => t ≠ [] && t ≠ ['0']

/-- `$match`. -/
def flush (s : Option Text × List Text) : Option Text × List Text :=
  (none, if truthy s.1 then s.2 ++ [s.1.getD []] else s.2)

/-- What the functions that `diff` hands over do to `$hunk` and `$retval`. -/
def callBack (a b : List Text) (s : Option Text × List Text) : Call → Option Text × List Text
  | .discardA ai _ => (some (s.1.getD [] ++ hunkLine '-' ai (a.getD ai [])), s.2)
  | .discardB _ bi => (some (s.1.getD [] ++ hunkLine '+' bi (b.getD bi [])), s.2)
  | .match _ _ => flush s
  | .finishedA _ | .finishedB _ => s

/-- `diff`. -/
def diff [DecidableEq κ] (keyGen : Text → κ) (a b : List Text) : List Text :=
  (flush ((traverseSequences false false keyGen a b).foldl (callBack a b) (none, []))).2

/-! ## Walks -/

section walks

variable {x y : List κ} {ai bi aj bj : Nat} {calls calls' : List Call}

/-- Calls that lead from two indices to two others, with the indices at which they are made. -/
inductive Walk (x y : List κ) : Nat → Nat → List Call → Nat → Nat → Prop
  | stop {ai bi : Nat} : Walk x y ai bi [] ai bi
  | discardA {ai bi aj bj : Nat} {calls : List Call} : ai < x.length →
      Walk x y (ai + 1) bi calls aj bj → Walk x y ai bi (.discardA ai bi :: calls) aj bj
  | discardB {ai bi aj bj : Nat} {calls : List Call} : bi < y.length →
      Walk x y ai (bi + 1) calls aj bj → Walk x y ai bi (.discardB ai bi :: calls) aj bj
  | match {ai bi aj bj : Nat} {calls : List Call} {a : κ} : x[ai]? = some a → y[bi]? = some a →
      Walk x y (ai + 1) (bi + 1) calls aj bj → Walk x y ai bi (.match ai bi :: calls) aj bj

theorem Walk.trans {ak bk : Nat} (h : Walk x y ai bi calls aj bj)
    (h' : Walk x y aj bj calls' ak bk) : Walk x y ai bi (calls ++ calls') ak bk := by
  induction h with
  | stop => exact h'
  | discardA hlt _ ih => exact .discardA hlt (ih h')
  | discardB hlt _ ih => exact .discardB hlt (ih h')
  | «match» ha hb _ ih => exact .match ha hb (ih h')

theorem walk_discardAs {stop : Nat} (hle : ai ≤ stop) (hstop : stop ≤ x.length) :
    Walk x y ai bi (discardAs bi ai stop) stop bi := by
  induction hk : stop - ai generalizing ai with
  | zero =>
    obtain rfl : ai = stop := by omega
    rw [discardAs, Nat.sub_self]
    exact .stop
  | succ k ih =>
    have hrest := @ih (ai + 1) (by omega) (by omega)
    rw [discardAs, hk, List.range'_succ]
    rw [discardAs, show stop - (ai + 1) = k by omega] at hrest
    exact .discardA (by omega) hrest

theorem walk_discardBs {stop : Nat} (hle : bi ≤ stop) (hstop : stop ≤ y.length) :
    Walk x y ai bi (discardBs ai bi stop) ai stop := by
  induction hk : stop - bi generalizing bi with
  | zero =>
    obtain rfl : bi = stop := by omega
    rw [discardBs, Nat.sub_self]
    exact .stop
  | succ k ih =>
    have hrest := @ih (bi + 1) (by omega) (by omega)
    rw [discardBs, hk, List.range'_succ]
    rw [discardBs, show stop - (bi + 1) = k by omega] at hrest
    exact .discardB (by omega) hrest

/-- What a call does to the element that it is made for. -/
def Call.edit : Call → Option Edit
  | .match _ _ => some .keep
  | .discardA _ _ => some .remove
  | .discardB _ _ => some .insert
  | .finishedA _ | .finishedB _ => none

/-- A walk to the ends edits what is left of one sequence into what is left of the other. -/
theorem Walk.transforms (h : Walk x y ai bi calls x.length y.length) :
    Transforms (x.drop ai) (y.drop bi) (calls.filterMap Call.edit) := by
  generalize haj : x.length = aj, hbj : y.length = bj at h
  induction h with
  | stop =>
    subst haj hbj
    rw [List.drop_length, List.drop_length]
    exact .nil
  | discardA hlt _ ih =>
    rw [List.drop_eq_getElem_cons hlt]
    exact .remove (ih haj hbj)
  | discardB hlt _ ih =>
    rw [List.drop_eq_getElem_cons hlt]
    exact .insert (ih haj hbj)
  | «match» ha hb _ ih =>
    obtain ⟨hlta, rfl⟩ := List.getElem?_eq_some_iff.mp ha
    obtain ⟨hltb, hb⟩ := List.getElem?_eq_some_iff.mp hb
    rw [List.drop_eq_getElem_cons hlta, List.drop_eq_getElem_cons hltb, hb]
    exact .keep (ih haj hbj)

end walks

/-! ## The traversal -/

section traversal

variable {x y : List κ} {v : List (Option Nat)} {ai bi : Nat}

/-- The matches of the rest of a vector lie ahead in both sequences. -/
structure Ahead (x y : List κ) (v : List (Option Nat)) (ai bi : Nat) : Prop where
  length_le : ai + v.length ≤ x.length
  le_length : bi ≤ y.length
  same : ∀ k j : Nat, v[k]? = some (some j) → bi ≤ j ∧ ∃ a, x[ai + k]? = some a ∧ y[j]? = some a
  rising : ∀ k k' j j' : Nat, k < k' → v[k]? = some (some j) → v[k']? = some (some j') → j < j'

theorem Ahead.tail {e : Option Nat} (h : Ahead x y (e :: v) ai bi) {bj : Nat}
    (hle : bj ≤ y.length) (hbj : ∀ k j : Nat, v[k]? = some (some j) → bj ≤ j) :
    Ahead x y v (ai + 1) bj where
  length_le := by
    have := h.length_le
    rw [List.length_cons] at this
    omega
  le_length := hle
  same k j hj := by
    refine ⟨hbj k j hj, ?_⟩
    rw [Nat.add_right_comm]
    exact (h.same (k + 1) j hj).2
  rising k k' j j' hlt hj hj' := h.rising (k + 1) (k' + 1) j j' (by omega) hj hj'

/-- The loop walks to the end of the vector. -/
theorem walk_traverseMatches (h : Ahead x y v ai bi) :
    Walk x y ai bi (traverseMatches v ai bi).1
        (traverseMatches v ai bi).2.1 (traverseMatches v ai bi).2.2 ∧
      (traverseMatches v ai bi).2.1 = ai + v.length ∧
      (traverseMatches v ai bi).2.2 ≤ y.length := by
  induction v generalizing ai bi with
  | nil => exact ⟨.stop, rfl, h.le_length⟩
  | cons e v ih =>
    rcases e with - | j
    · obtain ⟨hwalk, hai, hbi⟩ :=
        ih (h.tail h.le_length fun k j hj => (h.same (k + 1) j hj).1)
      have hlt := h.length_le
      rw [List.length_cons] at hlt
      refine ⟨.discardA (by omega) hwalk, ?_, hbi⟩
      rw [List.length_cons]
      exact hai.trans (by omega)
    · obtain ⟨hle, a, hx, hy⟩ := h.same 0 j rfl
      have hj : j < y.length := (List.getElem?_eq_some_iff.mp hy).1
      have hmax : max bi j = j := Nat.max_eq_right hle
      obtain ⟨hwalk, hai, hbi⟩ :=
        ih (h.tail (Nat.succ_le_of_lt hj) fun k j' hj' => h.rising 0 (k + 1) j j' (by omega) rfl hj')
      rw [traverseMatches, hmax]
      refine ⟨(walk_discardBs hle hj.le).trans (.match hx hy hwalk), ?_, hbi⟩
      rw [List.length_cons]
      exact hai.trans (by omega)

theorem count_keep_discardAs (bi ai stop : Nat) :
    ((discardAs bi ai stop).filterMap Call.edit).count .keep = 0 := by
  rw [List.count_eq_zero, List.mem_filterMap]
  rintro ⟨call, hcall, hedit⟩
  obtain ⟨i, -, rfl⟩ := List.mem_map.mp hcall
  exact nomatch Option.some.inj hedit

theorem count_keep_discardBs (ai bi stop : Nat) :
    ((discardBs ai bi stop).filterMap Call.edit).count .keep = 0 := by
  rw [List.count_eq_zero, List.mem_filterMap]
  rintro ⟨call, hcall, hedit⟩
  obtain ⟨j, -, rfl⟩ := List.mem_map.mp hcall
  exact nomatch Option.some.inj hedit

/-- Each entry that is matched makes a call for it. -/
theorem count_traverseMatches (v : List (Option Nat)) (ai bi : Nat) :
    ((traverseMatches v ai bi).1.filterMap Call.edit).count .keep = v.countP (·.isSome) := by
  induction v generalizing ai bi with
  | nil => rfl
  | cons e v ih =>
    rcases e with - | j
    · change (Edit.remove :: ((traverseMatches v (ai + 1) bi).1.filterMap Call.edit)).count .keep = _
      rw [List.count_cons_of_ne (by decide), ih, List.countP_cons_of_neg (by decide)]
    · have hmatch : ∀ calls : List Call, (Call.match ai (max bi j) :: calls).filterMap Call.edit =
          .keep :: calls.filterMap Call.edit := fun _ => rfl
      rw [traverseMatches, List.filterMap_append, List.count_append, count_keep_discardBs, hmatch,
        List.count_cons_self, ih, List.countP_cons_of_pos rfl, Nat.zero_add]

theorem length_pairs (v : List (Option Nat)) : (pairs v).length = v.countP (·.isSome) := by
  induction v using List.reverseRecOn with
  | nil => rfl
  | append_singleton v e ih =>
    have hold : (List.range v.length).filterMap (fun i => (v ++ [e])[i]?.join.map (i, ·)) =
        pairs v := by
      refine List.filterMap_congr fun i hi => ?_
      rw [List.getElem?_append_left (List.mem_range.mp hi)]
    rw [pairs, List.length_append, List.length_singleton, List.range_succ, List.filterMap_append,
      hold, List.length_append, ih, List.countP_append]
    congr 1
    rcases e with - | j <;> simp

/-- The longest matching lies ahead of the start. -/
theorem Longest.ahead (h : Longest x y v) : Ahead x y v 0 0 where
  length_le := by
    rw [Nat.zero_add]
    by_contra hlong
    have hpos : 0 < v.length := by omega
    have hlast := List.getElem?_eq_getElem (Nat.sub_lt hpos Nat.one_pos)
    rcases he : v[v.length - 1] with - | j
    · refine h.ends ?_
      rw [List.getLast?_eq_getElem?, hlast, he]
    · rw [he] at hlast
      have hlt := (h.matching.lt_length _ (mem_pairs.mpr hlast)).1
      simp only at hlt
      omega
  le_length := Nat.zero_le _
  same k j hj := by
    rw [Nat.zero_add]
    exact ⟨Nat.zero_le j, h.matching.same _ (mem_pairs.mpr hj)⟩
  rising k k' j j' hlt hj hj' :=
    h.matching.rising.snd_lt (mem_pairs.mpr hj) (mem_pairs.mpr hj') hlt

variable [DecidableEq κ] (keyGen : α → κ) (a b : List α)

/-- With neither of the functions for an end the traversal goes on to both ends. -/
theorem walk_traverseSequences :
    Walk (a.map keyGen) (b.map keyGen) 0 0 (traverseSequences false false keyGen a b)
      (a.map keyGen).length (b.map keyGen).length := by
  obtain ⟨hwalk, hai, hbi⟩ :=
    walk_traverseMatches (matchVector_longest (a.map keyGen) (b.map keyGen)).ahead
  have hlength := (matchVector_longest (a.map keyGen) (b.map keyGen)).ahead.length_le
  rw [traverseSequences]
  simp only [Bool.false_eq_true, false_and, if_false]
  have ha : a.length = (a.map keyGen).length := (List.length_map keyGen).symm
  have hb : b.length = (b.map keyGen).length := (List.length_map keyGen).symm
  rw [longestCommonSubsequence, ha, hb]
  rw [Nat.zero_add] at hai hlength
  rw [Nat.max_eq_right (hai.le.trans hlength)]
  exact hwalk.trans ((walk_discardAs (hai.le.trans hlength) le_rfl).trans
    (walk_discardBs hbi le_rfl))

theorem count_keep_traverseSequences :
    ((traverseSequences false false keyGen a b).filterMap Call.edit).count .keep =
      (pairs (longestCommonSubsequence keyGen a b)).length := by
  rw [traverseSequences]
  simp only [Bool.false_eq_true, false_and, if_false]
  rw [List.filterMap_append, List.filterMap_append, List.count_append, List.count_append,
    count_traverseMatches, count_keep_discardAs, count_keep_discardBs, length_pairs,
    Nat.add_zero]

/-- The calls visit each element of both sequences once, in order and with its indices, and match
equal keys only. No edit of the one sequence into the other removes and inserts fewer elements. -/
theorem traverseSequences_shortest :
    Walk (a.map keyGen) (b.map keyGen) 0 0 (traverseSequences false false keyGen a b)
        a.length b.length ∧
      ∀ es, Transforms (a.map keyGen) (b.map keyGen) es →
        changes ((traverseSequences false false keyGen a b).filterMap Call.edit) ≤
          changes es := by
  have hwalk := walk_traverseSequences keyGen a b
  refine ⟨by simpa using hwalk, fun es hes => ?_⟩
  obtain ⟨c, -, -, hkept, hcount⟩ := hwalk.transforms.exists_common
  obtain ⟨c', hx, hy, -, hcount'⟩ := hes.exists_common
  obtain ⟨ps, hps, hlength⟩ := exists_matching hx hy
  have hle := (matchVector_longest (a.map keyGen) (b.map keyGen)).longest ps hps
  rw [count_keep_traverseSequences, longestCommonSubsequence] at hkept
  rw [List.drop_zero, List.drop_zero] at hcount
  omega

end traversal

/-! ## Hunks -/

section hunks

variable {a b b' : List Text} {s : Option Text × List Text} {calls : List Call}

/-- What a call adds to a hunk. -/
def callText (a b : List Text) : Call → Text
  | .discardA ai _ => hunkLine '-' ai (a.getD ai [])
  | .discardB _ bi => hunkLine '+' bi (b.getD bi [])
  | .match _ _ | .finishedA _ | .finishedB _ => []

/-- A hunk is undefined or starts with a sign. -/
def Signed (hunk : Option Text) : Prop := ∀ t ∈ hunk, ∃ c rest, t = c :: rest ∧ (c = '-' ∨ c = '+')

theorem Signed.truthy {t : Text} (h : Signed (some t)) : truthy (some t) = true := by
  obtain ⟨c, rest, rfl, hc⟩ := h t rfl
  rcases hc with rfl | rfl <;> simp [Diff.truthy]

theorem signed_append (h : Signed s.1) {sign : Char} (hsign : sign = '-' ∨ sign = '+')
    (index : Nat) (element : Text) :
    Signed (some (s.1.getD [] ++ hunkLine sign index element)) := by
  intro t ht
  obtain rfl := Option.some.inj ht
  rcases hs : s.1 with - | t
  · exact ⟨sign, _, rfl, hsign⟩
  · obtain ⟨c, rest, rfl, hc⟩ := h t hs
    exact ⟨c, rest ++ hunkLine sign index element, rfl, hc⟩

/-- What was collected is kept by the end of a hunk. -/
theorem flatten_flush (h : Signed s.1) : (flush s).2.flatten = s.2.flatten ++ s.1.getD [] := by
  obtain ⟨hunk, retval⟩ := s
  rcases hunk with - | t
  · simp [flush, truthy]
  · have htruthy : truthy (some t) = true := Signed.truthy h
    simp [flush, htruthy]

theorem forall_ne_nil_flush (h : Signed s.1) (hs : ∀ t ∈ s.2, t ≠ []) :
    ∀ t ∈ (flush s).2, t ≠ [] := by
  obtain ⟨hunk, retval⟩ := s
  rcases hunk with - | t
  · simpa [flush, truthy] using hs
  · have htruthy : truthy (some t) = true := Signed.truthy h
    obtain ⟨c, rest, rfl, -⟩ := h t rfl
    intro u hu
    simp only [flush, htruthy, if_true, Option.getD_some, List.mem_append,
      List.mem_singleton] at hu
    rcases hu with hu | rfl
    · exact hs u hu
    · exact List.cons_ne_nil _ _

/-- The hunks hold what the calls add, in order, and none of them is empty. -/
theorem foldl_callBack (h : Signed s.1) (hs : ∀ t ∈ s.2, t ≠ []) (calls : List Call) :
    (flush (calls.foldl (callBack a b) s)).2.flatten =
        s.2.flatten ++ (s.1.getD [] ++ calls.flatMap (callText a b)) ∧
      ∀ t ∈ (flush (calls.foldl (callBack a b) s)).2, t ≠ [] := by
  induction calls generalizing s with
  | nil =>
    refine ⟨?_, forall_ne_nil_flush h hs⟩
    rw [List.foldl_nil, List.flatMap_nil, List.append_nil]
    exact flatten_flush h
  | cons call calls ih =>
    rw [List.foldl_cons, List.flatMap_cons]
    cases call with
    | discardA ai bi =>
      have hstep := ih (s := callBack a b s (.discardA ai bi)) (signed_append h (.inl rfl) _ _) hs
      simpa [callBack, callText] using hstep
    | discardB ai bi =>
      have hstep := ih (s := callBack a b s (.discardB ai bi)) (signed_append h (.inr rfl) _ _) hs
      simpa [callBack, callText] using hstep
    | «match» ai bi =>
      have hnone : Signed (flush s).1 := fun t ht => nomatch ht
      obtain ⟨hflat, hne⟩ := ih (s := flush s) hnone (forall_ne_nil_flush h hs)
      refine ⟨hflat.trans ?_, hne⟩
      rw [flatten_flush h, List.append_assoc]
      rfl
    | finishedA ai => exact ih h hs
    | finishedB bi => exact ih h hs

variable [DecidableEq κ] (keyGen : Text → κ)

theorem flatten_diff (a b : List Text) : (diff keyGen a b).flatten =
    (traverseSequences false false keyGen a b).flatMap (callText a b) := by
  have h := (foldl_callBack (a := a) (b := b) (s := (none, [])) (fun _ ht => nomatch ht)
    (fun _ ht => absurd ht List.not_mem_nil) (traverseSequences false false keyGen a b)).1
  simpa [diff] using h

theorem forall_ne_nil_diff (a b : List Text) : ∀ t ∈ diff keyGen a b, t ≠ [] :=
  (foldl_callBack (a := a) (b := b) (s := (none, [])) (fun _ ht => nomatch ht)
    (fun _ ht => absurd ht List.not_mem_nil) (traverseSequences false false keyGen a b)).2

omit [DecidableEq κ] in
theorem changes_eq_zero_iff (a b : List Text) (calls : List Call) :
    changes (calls.filterMap Call.edit) = 0 ↔ calls.flatMap (callText a b) = [] := by
  rw [changes, List.countP_eq_zero, List.flatMap_eq_nil_iff]
  simp only [List.mem_filterMap, forall_exists_index, and_imp]
  constructor
  · intro h call hcall
    cases call with
    | discardA ai bi => exact absurd (h .remove _ hcall rfl) (by decide)
    | discardB ai bi => exact absurd (h .insert _ hcall rfl) (by decide)
    | «match» ai bi => rfl
    | finishedA ai => rfl
    | finishedB bi => rfl
  · intro h e call hcall he
    cases call with
    | discardA ai bi => exact absurd (h _ hcall) (List.cons_ne_nil _ _)
    | discardB ai bi => exact absurd (h _ hcall) (List.cons_ne_nil _ _)
    | «match» ai bi =>
      obtain rfl := Option.some.inj he
      decide
    | finishedA ai => cases he
    | finishedB bi => cases he

/-- There is no hunk if and only if the sequences have the same keys. -/
theorem diff_eq_nil_iff (a b : List Text) :
    diff keyGen a b = [] ↔ a.map keyGen = b.map keyGen := by
  obtain ⟨-, hleast⟩ := traverseSequences_shortest keyGen a b
  have hwalk := (walk_traverseSequences keyGen a b).transforms
  rw [List.drop_zero, List.drop_zero] at hwalk
  constructor
  · intro hnil
    have hflat := flatten_diff keyGen a b
    rw [hnil, List.flatten_nil] at hflat
    exact hwalk.eq_of_changes ((changes_eq_zero_iff a b _).mpr hflat.symm)
  · intro hsame
    rw [← hsame] at hleast
    have hself := hleast _ (transforms_self (a.map keyGen))
    rw [changes_replicate_keep] at hself
    have hflat := (changes_eq_zero_iff a b _).mp (Nat.le_zero.mp hself)
    rw [← flatten_diff, List.flatten_eq_nil_iff] at hflat
    exact List.eq_nil_iff_forall_not_mem.mpr fun t ht =>
      forall_ne_nil_diff keyGen a b t ht (hflat t ht)

end hunks

/-! ## The second sequence from the hunks -/

section lossless

variable {a b b' : List Text} {calls calls' : List Call}

/-- A line with its end. -/
def IsLine (t : Text) : Prop := ∃ body, '\n' ∉ body ∧ t = body ++ ['\n']

/-- What a line of a hunk tells: its sign, index and element. -/
def note (a b : List Text) : Call → Option (Char × Nat × Text)
  | .discardA ai _ => some ('-', ai, a.getD ai [])
  | .discardB _ bi => some ('+', bi, b.getD bi [])
  | .match _ _ | .finishedA _ | .finishedB _ => none

def notes (a b : List Text) (calls : List Call) : List (Char × Nat × Text) :=
  calls.filterMap (note a b)

def noteLine (n : Char × Nat × Text) : Text := hunkLine n.1 n.2.1 n.2.2

theorem flatMap_callText (a b : List Text) (calls : List Call) :
    calls.flatMap (callText a b) = (notes a b calls).flatMap noteLine := by
  induction calls with
  | nil => rfl
  | cons call calls ih =>
    rw [List.flatMap_cons, ih, notes]
    cases call <;> rfl

theorem append_cons_inj {γ : Type*} {c : γ} {x y s t : List γ} (hx : c ∉ x) (hy : c ∉ y)
    (h : x ++ c :: s = y ++ c :: t) : x = y ∧ s = t := by
  induction x generalizing y with
  | nil =>
    cases y with
    | nil => exact ⟨rfl, (List.cons.inj h).2⟩
    | cons d y => exact absurd (List.cons.inj h).1 (List.ne_of_not_mem_cons hy)
  | cons d x ih =>
    cases y with
    | nil => exact absurd (List.cons.inj h).1.symm (List.ne_of_not_mem_cons hx)
    | cons e y =>
      obtain ⟨rfl, htail⟩ := List.cons.inj h
      obtain ⟨rfl, hst⟩ :=
        ih (List.not_mem_of_not_mem_cons hx) (List.not_mem_of_not_mem_cons hy) htail
      exact ⟨rfl, hst⟩

theorem noteLine_injective : Function.Injective noteLine := by
  rintro ⟨c, i, t⟩ ⟨c', i', t'⟩ h
  obtain ⟨rfl, h⟩ := List.cons.inj h
  have hdigits : ∀ n, '>' ∉ Nat.toDigits 10 n :=
    fun n hmem => absurd (isDigits_toDigits n _ hmem) (by decide)
  obtain ⟨hi, rfl⟩ := append_cons_inj (hdigits i) (hdigits i') h
  rw [toDigits_inj.mp hi]

/-- A line of a hunk ends with the only newline of it. -/
theorem isLine_noteLine {n : Char × Nat × Text} (hsign : n.1 ≠ '\n') (h : IsLine n.2.2) :
    IsLine (noteLine n) := by
  obtain ⟨body, hbody, heq⟩ := h
  refine ⟨n.1 :: (Nat.toDigits 10 n.2.1 ++ '>' :: body), ?_, ?_⟩
  · have hdigits : '\n' ∉ Nat.toDigits 10 n.2.1 :=
      fun hmem => absurd (isDigits_toDigits _ _ hmem) (by decide)
    simp [hdigits, hbody, hsign.symm]
  · rw [noteLine, hunkLine, heq]
    simp

/-- Texts of lines are divided into lines in one way. -/
theorem eq_of_flatten_eq {ls ls' : List Text} (hls : ∀ l ∈ ls, IsLine l)
    (hls' : ∀ l ∈ ls', IsLine l) (h : ls.flatten = ls'.flatten) : ls = ls' := by
  have hbodies : ∀ {ls : List Text}, (∀ l ∈ ls, IsLine l) →
      ∃ bodies : List Text, (∀ l ∈ bodies, '\n' ∉ l) ∧ ls = bodies.map (· ++ ['\n']) := by
    intro ls hls
    induction ls with
    | nil => exact ⟨[], by simp, rfl⟩
    | cons l ls ih =>
      obtain ⟨body, hbody, rfl⟩ := hls l List.mem_cons_self
      obtain ⟨bodies, hbodies, rfl⟩ := ih fun l hl => hls l (List.mem_cons_of_mem _ hl)
      exact ⟨body :: bodies, List.forall_mem_cons.mpr ⟨hbody, hbodies⟩, rfl⟩
  obtain ⟨bodies, hmem, rfl⟩ := hbodies hls
  obtain ⟨bodies', hmem', rfl⟩ := hbodies hls'
  rw [← List.flatMap_def, ← List.flatMap_def] at h
  rw [← chompedLines_flatMap hmem, h, chompedLines_flatMap hmem']

variable {x y y' : List κ} {ai bi aj bj : Nat}

theorem minus_ne_plus : ('-' : Char) ≠ '+' := by decide

/-- The indices that are told lie ahead. -/
theorem Walk.le_notes (h : Walk x y ai bi calls aj bj) :
    ∀ n ∈ notes a b calls, (n.1 = '-' → ai ≤ n.2.1) ∧ (n.1 = '+' → bi ≤ n.2.1) := by
  induction h with
  | stop => exact fun n hn => absurd hn List.not_mem_nil
  | discardA _ _ ih =>
    refine List.forall_mem_cons.mpr ⟨⟨fun _ => le_rfl, fun hsign => absurd hsign minus_ne_plus⟩, ?_⟩
    exact fun n hn => ⟨fun hsign => Nat.le_of_succ_le ((ih n hn).1 hsign), (ih n hn).2⟩
  | discardB _ _ ih =>
    refine List.forall_mem_cons.mpr ⟨⟨fun hsign => absurd hsign.symm minus_ne_plus, fun _ => le_rfl⟩, ?_⟩
    exact fun n hn => ⟨(ih n hn).1, fun hsign => Nat.le_of_succ_le ((ih n hn).2 hsign)⟩
  | «match» _ _ _ ih =>
    exact fun n hn => ⟨fun hsign => Nat.le_of_succ_le ((ih n hn).1 hsign),
      fun hsign => Nat.le_of_succ_le ((ih n hn).2 hsign)⟩

theorem Walk.removed_ne (h : Walk x y (ai + 1) bi calls aj bj) (t : Text)
    (rest : List (Char × Nat × Text)) : ('-', ai, t) :: rest ≠ notes a b calls := fun heq =>
  absurd ((h.le_notes _ (heq ▸ List.mem_cons_self)).1 rfl) (Nat.not_succ_le_self ai)

theorem Walk.inserted_ne (h : Walk x y ai (bi + 1) calls aj bj) (t : Text)
    (rest : List (Char × Nat × Text)) : ('+', bi, t) :: rest ≠ notes a b calls := fun heq =>
  absurd ((h.le_notes _ (heq ▸ List.mem_cons_self)).2 rfl) (Nat.not_succ_le_self bi)

/-- What is told are elements of the sequences. -/
theorem Walk.mem_notes (h : Walk x y ai bi calls aj bj) (ha : x.length = a.length)
    (hb : y.length = b.length) :
    ∀ n ∈ notes a b calls, n.1 ≠ '\n' ∧ (n.2.2 ∈ a ∨ n.2.2 ∈ b) := by
  have hget : ∀ {l : List Text} {i : Nat}, i < l.length → l.getD i [] ∈ l := by
    intro l i hi
    rw [List.getD_eq_getElem _ _ hi]
    exact List.getElem_mem hi
  induction h with
  | stop => exact fun n hn => absurd hn List.not_mem_nil
  | discardA hlt _ ih =>
    exact List.forall_mem_cons.mpr ⟨⟨by simp, .inl (hget (ha ▸ hlt))⟩, ih⟩
  | discardB hlt _ ih =>
    exact List.forall_mem_cons.mpr ⟨⟨by simp, .inr (hget (hb ▸ hlt))⟩, ih⟩
  | «match» _ _ _ ih => exact ih

/-- Two walks from the same indices tell the same only if the rests of the second sequences are the
same. -/
theorem Walk.drop_eq {keyGen : Text → κ} (hkey : Function.Injective keyGen)
    (h : Walk x (b.map keyGen) ai bi calls aj bj) (hai : aj = x.length) (hbj : bj = b.length)
    {bj' : Nat} (h' : Walk x (b'.map keyGen) ai bi calls' aj bj') (hbj' : bj' = b'.length)
    (hnotes : notes a b calls = notes a b' calls') : b.drop bi = b'.drop bi := by
  have hcons : ∀ {l : List Text} {i : Nat}, i < l.length → l.drop i = l.getD i [] :: l.drop (i + 1) := by
    intro l i hi
    rw [List.getD_eq_getElem _ _ hi]
    exact List.drop_eq_getElem_cons hi
  induction h generalizing calls' with
  | stop =>
    cases h' with
    | stop => rw [hbj, List.drop_length, ← hbj, hbj', List.drop_length]
    | discardA hlt _ => omega
    | discardB _ _ => exact absurd hnotes.symm (List.cons_ne_nil _ _)
    | «match» ha _ _ => exact absurd (List.getElem?_eq_some_iff.mp ha).1 (by omega)
  | discardA hlt hrest ih =>
    cases h' with
    | stop => exact absurd hnotes (List.cons_ne_nil _ _)
    | discardA _ hrest' => exact ih hai hbj hrest' (List.cons.inj hnotes).2
    | discardB _ _ => exact absurd (congrArg Prod.fst (List.cons.inj hnotes).1) minus_ne_plus
    | «match» _ _ hrest' => exact absurd hnotes (hrest'.removed_ne _ _)
  | discardB hlt hrest ih =>
    cases h' with
    | stop => exact absurd hnotes (List.cons_ne_nil _ _)
    | discardA _ _ => exact absurd (congrArg Prod.fst (List.cons.inj hnotes).1).symm minus_ne_plus
    | discardB hlt' hrest' =>
      obtain ⟨hhead, htail⟩ := List.cons.inj hnotes
      rw [List.length_map] at hlt hlt'
      rw [hcons hlt, hcons hlt', ih hai hbj hrest' htail]
      exact congrArg (· :: _) (congrArg (·.2.2) hhead)
    | «match» _ _ hrest' => exact absurd hnotes (hrest'.inserted_ne _ _)
  | «match» ha hb hrest ih =>
    cases h' with
    | stop => exact absurd (List.getElem?_eq_some_iff.mp ha).1 (by omega)
    | discardA _ _ => exact absurd hnotes.symm (hrest.removed_ne _ _)
    | discardB _ _ => exact absurd hnotes.symm (hrest.inserted_ne _ _)
    | «match» ha' hb' hrest' =>
      obtain ⟨hlt, hb⟩ := List.getElem?_eq_some_iff.mp hb
      obtain ⟨hlt', hb'⟩ := List.getElem?_eq_some_iff.mp hb'
      rw [List.length_map] at hlt hlt'
      have hsame := hb.trans ((Option.some.inj (ha.symm.trans ha')).trans hb'.symm)
      rw [List.getElem_map, List.getElem_map] at hsame
      rw [hcons hlt, hcons hlt', ih hai hbj hrest' hnotes, List.getD_eq_getElem _ _ hlt,
        List.getD_eq_getElem _ _ hlt', hkey hsame]

/-- The hunks against the same lines tell the other lines. -/
theorem diff_inj [DecidableEq κ] {keyGen : Text → κ} (hkey : Function.Injective keyGen)
    (ha : ∀ t ∈ a, IsLine t) (hb : ∀ t ∈ b, IsLine t) (hb' : ∀ t ∈ b', IsLine t) :
    diff keyGen a b = diff keyGen a b' ↔ b = b' := by
  refine ⟨fun h => ?_, fun h => h ▸ rfl⟩
  have hlines : ∀ {b : List Text}, (∀ t ∈ b, IsLine t) →
      ∀ l ∈ (notes a b (traverseSequences false false keyGen a b)).map noteLine, IsLine l := by
    intro b hb l hl
    obtain ⟨n, hn, rfl⟩ := List.mem_map.mp hl
    obtain ⟨hsign, hmem⟩ := (walk_traverseSequences keyGen a b).mem_notes (List.length_map _)
      (List.length_map _) n hn
    exact isLine_noteLine hsign (hmem.elim (ha _) (hb _))
  have hflat := congrArg List.flatten h
  rw [flatten_diff, flatten_diff, flatMap_callText, flatMap_callText, List.flatMap_def,
    List.flatMap_def] at hflat
  have hnotes := List.map_injective_iff.mpr noteLine_injective
    (eq_of_flatten_eq (hlines hb) (hlines hb') hflat)
  have hdrop := (walk_traverseSequences keyGen a b).drop_eq hkey rfl (List.length_map _)
    (walk_traverseSequences keyGen a b') (List.length_map _) hnotes
  rwa [List.drop_zero, List.drop_zero] at hdrop

theorem diff_inj_two : diff id [['x', '\n']] [['y', '\n'], ['x', '\n']] =
    diff id [['x', '\n']] [['x', '\n'], ['y', '\n']] ↔
      [['y', '\n'], ['x', '\n']] = [['x', '\n'], ['y', '\n']] := by
  have hline : ∀ c : Char, c ≠ '\n' → IsLine [c, '\n'] :=
    fun c hc => ⟨[c], by simpa using hc.symm, rfl⟩
  have hx := hline 'x' (by decide)
  have hy := hline 'y' (by decide)
  exact diff_inj Function.injective_id (by simpa using hx) (by simp [hx, hy]) (by simp [hx, hy])

end lossless

end Natc.Harness.Diff
