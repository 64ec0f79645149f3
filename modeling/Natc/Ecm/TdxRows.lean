import Natc.Ecm.FileLines

/-!
# The rows of a TDX file

When the table that `readFile` fills has a row for each text line, with its time and in the column
of its process.
-/

namespace Natc.Ecm

open Lib FileLine

section Plain

/-- A text without delimiters, carriage returns and NULs. -/
def Plain (t : Text) : Prop := '&' ∉ t ∧ '^' ∉ t ∧ '\r' ∉ t ∧ '\x00' ∉ t

variable {es : List Entry} {L : List FileLine}

theorem head_of_mem_addText {t : Text} (ht : '&' ∉ t)
    (hL : ∀ line, .more line ∈ L → line.head? ≠ some '&') :
    ∀ line, .more line ∈ addText t L → line.head? ≠ some '&' := by
  induction t with
  | nil => exact hL
  | cons c cs ih =>
    rw [List.mem_cons, not_or] at ht
    intro line hline
    rw [addText] at hline
    split at hline
    · rcases List.mem_cons.mp hline with h | h
      · cases h
        simp
      · exact ih ht.2 line h
    · cases hadd : addText cs L with
      | nil =>
        rw [hadd, consLine, List.mem_singleton] at hline
        cases hline
        simpa using Ne.symm ht.1
      | cons b bs =>
        rw [hadd] at hline
        rcases List.mem_cons.mp hline with h | h
        · cases h
          simpa using Ne.symm ht.1
        · exact ih ht.2 line (hadd ▸ List.mem_cons_of_mem _ h)

theorem head_of_mem_fileLines (hes : ∀ e ∈ es, Plain e.text) :
    ∀ line, .more line ∈ fileLines es → line.head? ≠ some '&' := by
  induction es with
  | nil =>
    intro line hline
    simp only [fileLines, List.foldr_nil, ends, List.mem_cons, FileLine.more.injEq,
      List.not_mem_nil, or_false] at hline
    rcases hline with rfl | rfl
    · decide
    · decide
  | cons e es ih =>
    rw [List.forall_mem_cons] at hes
    intro line hline
    rw [fileLines, List.foldr_cons, addEntry] at hline
    have hadd := head_of_mem_addText hes.1.1 (ih hes.2) line
    rw [fileLines] at hadd
    split at hline
    · simp at hline
    · rename_i b bs hbs
      rw [hbs] at hadd
      rcases List.mem_cons.mp hline with h | h
      · cases h
      · exact hadd (List.mem_cons_of_mem _ h)

theorem saveTDX_eq (hes : ∀ e ∈ es, Plain e.text) :
    saveTDX es = es.flatMap Entry.recorded ++ '\n' :: endMark := by
  have hnul : ∀ c ∈ es.flatMap Entry.recorded, decide (c ≠ '\x00') = true := by
    intro c hc
    obtain ⟨e, he, hc⟩ := List.mem_flatMap.mp hc
    rw [decide_eq_true_eq]
    intro h
    subst h
    rcases List.mem_append.mp hc with hc | hc
    · exact notMem_makeTdxPrefix e (by decide) (by decide) (by decide) hc
    · exact (hes e he).2.2.2 hc
  rw [saveTDX, List.takeWhile_eq_self_iff.mpr hnul]

/-- What `readFile` makes of plain entries. -/
theorem readFile_plain (hes : ∀ e ∈ es, Plain e.text)
    (hstart : ∀ e ∈ starts (fileLines es), e.time < 2 ^ 31 ∧ e.process < 2 ^ 31) {M : Nat}
    (hM : maxProcess (starts (fileLines es)) = M) :
    (readFile (saveTDX es)).max_process = M ∧
    (readFile (saveTDX es)).tableData.length =
      ((((fileLines es).length - 1 : Int) * (M + 2)).bmod (2 ^ 32)).toNat ∧
    ∃ p ≤ M, ∀ R ≤ (fileLines es).length,
      R * (M + 2) = ((((fileLines es).length - 1 : Int) * (M + 2)).bmod (2 ^ 32)).toNat →
      (readFile (saveTDX es)).tableData = ((viewRows M 0 p (fileLines es)).take R).flatten := by
  have hmore : ∀ line, .more line ∈ fileLines es → ReadFile.isStart line = false :=
    fun line h => isStart_eq_false (head_of_mem_fileLines hes line h)
  have hlines : readLines (saveTDX es) = (fileLines es).map text := by
    rw [saveTDX_eq hes]
    exact readLines_body fun e he => (hes e he).2.2.1
  obtain ⟨p, hp, hfold⟩ := foldl_count hmore (fun e he => (hstart e he).2) 0 0 le_rfl (-1)
  rw [Nat.zero_max, hM] at hp hfold
  have hcounts : ((fileLines es).map text).foldl ReadFile.count ⟨0, -1, 0⟩ =
      ⟨M, -1 + (fileLines es).length, p⟩ := hfold
  have hsize : (-1 + (fileLines es).length : Int) = (fileLines es).length - 1 := by omega
  rw [readFile, hlines]
  dsimp only
  rw [hcounts, hsize]
  constructor
  · rfl
  constructor
  · rw [viewLines_length, List.length_replicate]
  · use p, hp
    intro R hR hRsize
    rw [← hRsize]
    have hlegible : ∀ b ∈ fileLines es, Legible M b := by
      intro b hb
      cases b with
      | start e x =>
        have he : e ∈ starts (fileLines es) := List.mem_filterMap.mpr ⟨_, hb, rfl⟩
        exact ⟨(hstart e he).1, (lead_le_self _).trans (hM ▸ le_maxProcess he)⟩
      | more line => exact hmore line hb
    exact viewLines_rows hlegible hR [] 0 hp

end Plain

section Necessary

variable {es : List Entry}

theorem mem_of_mem_consHead {c d : Char} {l : Text} {ls : List Text} (hl : l ∈ consHead c ls)
    (hd : d ∈ l) : d = c ∨ ∃ l' ∈ ls, d ∈ l' := by
  cases ls with
  | nil =>
    rw [consHead, List.mem_singleton] at hl
    exact .inl (List.mem_singleton.mp (hl ▸ hd))
  | cons b bs =>
    rcases List.mem_cons.mp hl with rfl | hl
    · rcases List.mem_cons.mp hd with h | h
      · exact .inl h
      · exact .inr ⟨b, List.mem_cons_self, h⟩
    · exact .inr ⟨l, List.mem_cons_of_mem _ hl, hd⟩

/-- What stands in a line stands in the file, and is no line end. -/
theorem mem_of_mem_readLines {s l : Text} (hl : l ∈ readLines s) {d : Char} (hd : d ∈ l) :
    d ∈ s ∧ d ≠ '\n' ∧ d ≠ '\r' := by
  fun_induction readLines s generalizing l with
  | case1 => cases hl
  | case2 cs ih =>
    rcases List.mem_cons.mp hl with rfl | hl
    · cases hd
    · have hin := ih hl hd
      exact ⟨List.mem_cons_of_mem _ (List.mem_cons_of_mem _ hin.1), hin.2⟩
  | case3 c cs _ hc ih =>
    rcases List.mem_cons.mp hl with rfl | hl
    · cases hd
    · have hin := ih hl hd
      exact ⟨List.mem_cons_of_mem _ hin.1, hin.2⟩
  | case4 c cs _ hc ih =>
    rw [not_or] at hc
    rcases mem_of_mem_consHead hl hd with rfl | ⟨l', hl', hd'⟩
    · exact ⟨List.mem_cons_self, hc⟩
    · have hin := ih hl' hd'
      exact ⟨List.mem_cons_of_mem _ hin.1, hin.2⟩

theorem mem_textLines {t : Text} {c : Char} (hc : c ∈ t) (hn : c ≠ '\n') :
    ∃ l ∈ textLines t, c ∈ l := by
  fun_induction textLines t with
  | case1 => cases hc
  | case2 => simp [hn] at hc
  | case3 cs _ ih =>
    rcases List.mem_cons.mp hc with h | h
    · exact absurd h hn
    · obtain ⟨l, hl, hcl⟩ := ih h
      exact ⟨l, List.mem_cons_of_mem _ hl, hcl⟩
  | case4 d cs _ hd ih =>
    cases hls : textLines cs with
    | nil =>
      rcases List.mem_cons.mp hc with rfl | h
      · exact ⟨[c], by simp [consHead], List.mem_singleton_self c⟩
      · obtain ⟨l, hl, -⟩ := ih h
        simp [hls] at hl
    | cons b bs =>
      rcases List.mem_cons.mp hc with rfl | h
      · exact ⟨c :: b, List.mem_cons_self, List.mem_cons_self⟩
      · obtain ⟨l, hl, hcl⟩ := ih h
        rw [hls] at hl
        rcases List.mem_cons.mp hl with rfl | hl
        · exact ⟨d :: l, List.mem_cons_self, List.mem_cons_of_mem _ hcl⟩
        · exact ⟨l, List.mem_cons_of_mem _ hl, hcl⟩

theorem nul_notMem_saveTDX (es : List Entry) : '\x00' ∉ saveTDX es := by
  intro h
  rcases List.mem_append.mp h with h | h
  · simpa using List.mem_takeWhile_imp h
  · exact absurd h (by decide)

theorem plain_valueOf (n : Int) : Plain (valueOf n) := by
  have hnum : ∀ c, c.isDigit = false → c ≠ '-' → c ∉ valueOf n := by
    intro c hd hm
    rw [valueOf]
    split
    · simp [hm, notMem_decimal hd]
    · exact notMem_decimal hd _
  exact ⟨hnum _ rfl (by decide), hnum _ rfl (by decide), hnum _ rfl (by decide),
    hnum _ rfl (by decide)⟩

/-- No cell of the table has a delimiter, a carriage return or a NUL in it. -/
theorem plain_of_mem_tableData {cell : Text} (h : cell ∈ (readFile (saveTDX es)).tableData) :
    Plain cell := by
  revert cell
  rw [readFile]
  apply viewLines_invariant (P := fun v => ∀ cell ∈ v, Plain cell)
  case hval =>
    intro v i n hv cell hcell
    rcases List.mem_or_eq_of_mem_set hcell with h | rfl
    · exact hv cell h
    · exact plain_valueOf n
  case htok =>
    intro v i line hline strToken htok hv cell hcell
    rcases List.mem_or_eq_of_mem_set hcell with h | rfl
    · exact hv cell h
    · obtain ⟨hword, hchars⟩ := isWord_of_mem_tokens htok
      constructor
      · intro h
        simpa using hword _ h
      constructor
      · intro h
        simpa using hword _ h
      constructor
      · intro h
        exact (mem_of_mem_readLines hline (hchars _ h)).2.2 rfl
      · intro h
        exact nul_notMem_saveTDX es (mem_of_mem_readLines hline (hchars _ h)).1
  case h =>
    intro cell hcell
    obtain rfl := List.eq_of_mem_replicate hcell
    simp [Plain]

theorem line_mem_cells {M : Nat} {r : Row} (h : r.process ≤ M) : r.line ∈ r.cells M := by
  apply List.mem_cons_of_mem
  apply List.mem_map.mpr
  use r.process
  simp [Nat.lt_succ_iff.mpr h]

/-- The texts of a table that has all rows are plain. -/
theorem RoundTrip.plain (h : RoundTrip es) : ∀ e ∈ es, Plain e.text := by
  intro e he
  have hline : ∀ l ∈ textLines e.text, Plain l := by
    intro l hl
    refine plain_of_mem_tableData (?_ : l ∈ (readFile (saveTDX es)).tableData)
    rw [h.rows]
    apply List.mem_flatMap.mpr
    use ⟨e.time, e.process, l⟩
    constructor
    · exact List.mem_flatMap.mpr ⟨e, he, List.mem_map.mpr ⟨l, hl, rfl⟩⟩
    · exact line_mem_cells (le_maxProcess he)
  have hchar : ∀ c, c ≠ '\n' → (∀ l ∈ textLines e.text, c ∉ l) → c ∉ e.text := by
    intro c hn hall hc
    obtain ⟨l, hl, hcl⟩ := mem_textLines hc hn
    exact hall l hl hcl
  exact ⟨hchar _ (by decide) fun l hl => (hline l hl).1,
    hchar _ (by decide) fun l hl => (hline l hl).2.1,
    hchar _ (by decide) fun l hl => (hline l hl).2.2.1,
    hchar _ (by decide) fun l hl => (hline l hl).2.2.2⟩

theorem length_flatMap_cells (M : Nat) (rows : List Row) :
    (rows.flatMap (Row.cells M)).length = rows.length * (M + 2) := by
  induction rows with
  | nil => simp
  | cons r rows ih =>
    rw [List.flatMap_cons, List.length_append, ih, length_cells, List.length_cons]
    ring

/-- The cells of all rows can be counted in an int. -/
theorem RoundTrip.fits (h : RoundTrip es) :
    (es.flatMap Entry.rows).length * (maxProcess es + 2) < 2 ^ 31 := by
  have hlen := congrArg List.length h.rows
  rw [length_flatMap_cells, readFile] at hlen
  dsimp only at hlen
  rw [viewLines_length, List.length_replicate] at hlen
  rw [← hlen]
  generalize ((readLines (saveTDX es)).foldl ReadFile.count ⟨0, -1, 0⟩).total_line_cnt *
    (((readLines (saveTDX es)).foldl ReadFile.count ⟨0, -1, 0⟩).max_process + 2) = n
  have hbound : n.bmod (2 ^ 32) < 2 ^ 31 := Int.bmod_lt (by decide)
  omega

end Necessary

section Starts

variable {es : List Entry} {L : List FileLine}

theorem starts_consLine (c : Char) (L : List FileLine) : starts (consLine c L) = starts L.tail := by
  cases L with
  | nil => rfl
  | cons b bs => rfl

theorem mem_starts_of_tail {e : Entry} (h : e ∈ starts L.tail) : e ∈ starts L := by
  cases L with
  | nil => exact h
  | cons b bs =>
    obtain ⟨b', hb', he⟩ := List.mem_filterMap.mp h
    exact List.mem_filterMap.mpr ⟨b', List.mem_cons_of_mem _ hb', he⟩

theorem mem_starts_addText {t : Text} {e : Entry} (h : e ∈ starts (addText t L)) :
    e ∈ starts L := by
  induction t with
  | nil => exact h
  | cons c cs ih =>
    rw [addText] at h
    split at h
    · exact ih h
    · rw [starts_consLine] at h
      exact ih (mem_starts_of_tail h)

/-- Behind a text without a newline at its end no prefix begins a line. -/
theorem mem_starts_addText_open {t : Text} (hne : t ≠ []) (ht : t.getLast? ≠ some '\n') {e : Entry}
    (h : e ∈ starts (addText t L)) : e ∈ starts L.tail := by
  induction t with
  | nil => exact absurd rfl hne
  | cons c cs ih =>
    rw [addText] at h
    cases cs with
    | nil =>
      have hc : c ≠ '\n' := by simpa using ht
      rwa [if_neg hc, starts_consLine] at h
    | cons d ds =>
      have hds : (d :: ds).getLast? ≠ some '\n' := by simpa using ht
      split at h
      · exact ih (List.cons_ne_nil _ _) hds h
      · rw [starts_consLine] at h
        exact ih (List.cons_ne_nil _ _) hds (mem_starts_of_tail h)

theorem mem_starts_tail_addEntry {e e' : Entry} (h : e' ∈ starts (addEntry e L).tail) :
    e' ∈ starts (addText e.text L).tail := by
  rw [addEntry] at h
  split at h
  · cases h
  · rename_i b bs hbs
    rw [hbs]
    exact h

theorem mem_starts_addEntry {e e' : Entry} (h : e' ∈ starts (addEntry e L)) :
    e' = e ∨ e' ∈ starts (addText e.text L).tail := by
  rw [addEntry] at h
  split at h
  · exact .inl (List.mem_singleton.mp h)
  · rename_i b bs hbs
    rcases List.mem_cons.mp h with h | h
    · exact .inl h
    · rw [hbs]
      exact .inr h

theorem mem_starts_addEntry_open {e e' : Entry} (he : e.text.getLast? ≠ some '\n')
    (h : e' ∈ starts (addEntry e L)) : e' = e ∨ e' ∈ starts L.tail := by
  rcases mem_starts_addEntry h with h | h
  · exact .inl h
  · by_cases hne : e.text = []
    · rw [hne] at h
      exact .inr h
    · exact .inr (mem_starts_addText_open hne he (mem_starts_of_tail h))

theorem mem_of_mem_starts {e : Entry} (h : e ∈ starts (fileLines es)) : e ∈ es := by
  induction es with
  | nil => simp [fileLines, starts, ends, entry?] at h
  | cons e' es ih =>
    rcases mem_starts_addEntry h with rfl | h
    · exact List.mem_cons_self
    · exact List.mem_cons_of_mem _ (ih (mem_starts_addText (mem_starts_of_tail h)))

/-- The prefix of an entry behind a text that does not end its line begins no line. -/
theorem mem_starts_behind {pre post : List Entry} {e e' x : Entry}
    (he : e.text.getLast? ≠ some '\n') (h : x ∈ starts (fileLines (pre ++ e :: e' :: post))) :
    x ∈ pre ++ e :: post := by
  induction pre with
  | nil =>
    rcases mem_starts_addEntry_open he h with rfl | h
    · exact List.mem_cons_self
    · have hpost := mem_starts_tail_addEntry h
      exact List.mem_cons_of_mem _
        (mem_of_mem_starts (mem_starts_addText (mem_starts_of_tail hpost)))
  | cons e'' pre ih =>
    rcases mem_starts_addEntry h with rfl | h
    · exact List.mem_cons_self
    · exact List.mem_cons_of_mem _ (ih (mem_starts_addText (mem_starts_of_tail h)))

end Starts

section View

variable {es : List Entry} {M : Nat}

theorem textLines_ne_nil (t : Text) : textLines t ≠ [] := by
  fun_induction textLines t with
  | case1 => exact List.cons_ne_nil _ _
  | case2 => exact List.cons_ne_nil _ _
  | case3 cs _ ih => exact List.cons_ne_nil _ _
  | case4 c cs _ hc ih =>
    cases h : textLines cs with
    | nil => exact absurd h ih
    | cons b bs => exact List.cons_ne_nil _ _

theorem rows_ne_nil (hne : es ≠ []) : es.flatMap Entry.rows ≠ [] := by
  cases es with
  | nil => exact absurd rfl hne
  | cons e es => simp [Entry.rows, textLines_ne_nil]

/-- Lists of rows of one length are equal when their cells are. -/
theorem rows_eq_of_flatten_eq {A B : List (List Text)} {n : Nat} (hA : ∀ a ∈ A, a.length = n)
    (hB : ∀ b ∈ B, b.length = n) (hlen : A.length = B.length) (h : A.flatten = B.flatten) :
    A = B := by
  apply List.eq_iff_flatten_eq.mpr
  constructor
  · exact h
  · rw [List.map_congr_left hA, List.map_congr_left hB, List.map_const', List.map_const', hlen]

theorem bmod_toNat_le (n : Nat) : ((n : Int).bmod (2 ^ 32)).toNat ≤ n := by
  have hle : (n : Int).bmod (2 ^ 32) ≤ n := by
    rw [Int.bmod_def]
    split <;> omega
  omega

/-- With all rows, the lines of the file fill the rows of the texts. -/
theorem RoundTrip.view (h : RoundTrip es) (hne : es ≠ []) (ht : ∀ e ∈ es, e.time < 2 ^ 31) :
    (es.flatMap Entry.rows).length * (maxProcess es + 2) =
      ((((fileLines es).length - 1 : Int) * (maxProcess es + 2)).bmod (2 ^ 32)).toNat ∧
    ∃ p ≤ maxProcess es, (viewRows (maxProcess es) 0 p (fileLines es)).take
      (es.flatMap Entry.rows).length = (es.flatMap Entry.rows).map (Row.cells (maxProcess es)) := by
  have hfits := h.fits
  have hpos : 0 < (es.flatMap Entry.rows).length := List.length_pos_of_ne_nil (rows_ne_nil hne)
  have hwidth : maxProcess es + 2 ≤ (es.flatMap Entry.rows).length * (maxProcess es + 2) :=
    Nat.le_mul_of_pos_left _ hpos
  have hstart : ∀ e ∈ starts (fileLines es), e.time < 2 ^ 31 ∧ e.process < 2 ^ 31 := by
    intro e he
    have hes := mem_of_mem_starts he
    have hle := le_maxProcess hes
    exact ⟨ht e hes, by omega⟩
  obtain ⟨hcols, hlen, p, hp, hrows⟩ := readFile_plain h.plain hstart rfl
  have hM : maxProcess (starts (fileLines es)) = maxProcess es := by
    have hcolumns := h.columns
    omega
  rw [hM] at hlen hp hrows
  rw [h.rows, length_flatMap_cells] at hlen
  have hsize : (es.flatMap Entry.rows).length ≤ (fileLines es).length := by
    obtain ⟨n, hn⟩ : ∃ n, (fileLines es).length = n + 1 :=
      ⟨_, (Nat.succ_pred_eq_of_pos (List.length_pos_of_ne_nil (fileLines_ne_nil es))).symm⟩
    have hcast : (((fileLines es).length - 1 : Int) * (maxProcess es + 2)) =
        ((n * (maxProcess es + 2) : Nat) : Int) := by
      rw [hn]
      push_cast
      ring
    rw [hcast] at hlen
    have hle := hlen.trans_le (bmod_toNat_le _)
    have hcancel := Nat.le_of_mul_le_mul_right hle (by omega)
    omega
  refine ⟨hlen, p, hp, ?_⟩
  have htable := hrows _ hsize hlen
  rw [h.rows, List.flatMap_def] at htable
  apply rows_eq_of_flatten_eq (n := maxProcess es + 2)
  · exact fun row hrow => length_of_mem_viewRows (List.mem_of_mem_take hrow)
  · intro row hrow
    obtain ⟨r, -, rfl⟩ := List.mem_map.mp hrow
    exact length_cells r
  · rw [List.length_take, length_viewRows, List.length_map, Nat.min_eq_left hsize]
  · exact htable.symm

/-- Column 0 has times of the lines with a prefix, or the time before them. -/
theorem head_of_mem_viewRows {t p : Nat} {L : List FileLine} {row : List Text}
    (h : row ∈ viewRows M t p L) : row.head? = some [] ∨ row.head? = some (decimal t) ∨
      ∃ e ∈ starts L, row.head? = some (decimal e.time) := by
  induction L generalizing t p with
  | nil => cases h
  | cons b L ih =>
    cases b with
    | start e x =>
      have he : e ∈ starts (.start e x :: L) := List.mem_cons_self
      rcases List.mem_cons.mp h with rfl | h
      · exact .inr (.inr ⟨e, he, rfl⟩)
      · rcases ih h with h | h | ⟨e', he', h⟩
        · exact .inl h
        · exact .inr (.inr ⟨e, he, h⟩)
        · exact .inr (.inr ⟨e', List.mem_cons_of_mem _ he', h⟩)
    | more line =>
      rw [viewRows] at h
      rcases List.mem_cons.mp h with rfl | h
      · exact .inr (.inl rfl)
      · split at h
        · obtain ⟨b', -, rfl⟩ := List.mem_map.mp h
          exact .inl rfl
        · exact ih h

/-- An entry whose text does not end its line hides the time of the next one. -/
theorem not_roundTrip_of_open {pre post : List Entry} {e e' : Entry}
    (he : e.text.getLast? ≠ some '\n') (ht : ∀ x ∈ pre ++ e :: e' :: post, x.time < 2 ^ 31)
    (hzero : e'.time ≠ 0) (htimes : ∀ x ∈ pre ++ e :: post, x.time ≠ e'.time) :
    ¬RoundTrip (pre ++ e :: e' :: post) := by
  intro h
  obtain ⟨-, p, -, hview⟩ := h.view (by simp) ht
  obtain ⟨l, hl⟩ := List.exists_mem_of_ne_nil _ (textLines_ne_nil e'.text)
  have hrow : (⟨e'.time, e'.process, l⟩ : Row) ∈ (pre ++ e :: e' :: post).flatMap Entry.rows :=
    List.mem_flatMap.mpr ⟨e', by simp, List.mem_map.mpr ⟨l, hl, rfl⟩⟩
  have hcells := List.mem_map_of_mem (f := Row.cells (maxProcess (pre ++ e :: e' :: post))) hrow
  rw [← hview] at hcells
  rcases head_of_mem_viewRows (List.mem_of_mem_take hcells) with h | h | ⟨x, hx, h⟩
  · exact decimal_ne_nil _ (Option.some.inj h)
  · exact hzero (decimal_injective (Option.some.inj h))
  · exact htimes x (mem_starts_behind he hx) (decimal_injective (Option.some.inj h)).symm

end View

section Entries

variable {es : List Entry} {L : List FileLine} {M : Nat}

/-- The lines of an entry whose text ends its last line. -/
def entryLines (e : Entry) : List FileLine :=
  match textLines e.text with
  | [] => []
  | h :: tl => .start e h :: tl.map .more

theorem map_more_consHead (c : Char) {ls : List Text} (hls : ls ≠ []) (L : List FileLine) :
    (consHead c ls).map FileLine.more ++ L = consLine c (ls.map .more ++ L) := by
  cases ls with
  | nil => exact absurd rfl hls
  | cons b bs => rfl

theorem addText_ended {t : Text} (ht : t.getLast? = some '\n') (L : List FileLine) :
    addText t L = (textLines t).map .more ++ L := by
  fun_induction textLines t with
  | case1 => cases ht
  | case2 => rfl
  | case3 cs hne ih =>
    cases cs with
    | nil => exact absurd rfl (hne rfl)
    | cons d ds =>
      rw [addText, if_pos rfl, ih (by simpa using ht)]
      rfl
  | case4 c cs _ hc ih =>
    cases cs with
    | nil => simp [hc] at ht
    | cons d ds =>
      rw [addText, if_neg hc, ih (by simpa using ht),
        map_more_consHead c (textLines_ne_nil _)]

theorem addText_open {t : Text} (ht : t.getLast? ≠ some '\n') (L : List FileLine) :
    addText t (.more [] :: L) = (textLines t).map .more ++ L := by
  fun_induction textLines t with
  | case1 => rfl
  | case2 => exact absurd rfl ht
  | case3 cs hne ih =>
    cases cs with
    | nil => exact absurd rfl ht
    | cons d ds =>
      rw [addText, if_pos rfl, ih (by simpa using ht)]
      rfl
  | case4 c cs _ hc ih =>
    have hcs : cs.getLast? ≠ some '\n' := by
      cases cs with
      | nil => simp
      | cons d ds => simpa using ht
    rw [addText, if_neg hc, ih hcs, map_more_consHead c (textLines_ne_nil _)]

theorem addEntry_eq {e : Entry} {L' : List FileLine}
    (h : addText e.text L = (textLines e.text).map .more ++ L') :
    addEntry e L = entryLines e ++ L' := by
  rw [addEntry, h, entryLines]
  cases hls : textLines e.text with
  | nil => exact absurd hls (textLines_ne_nil _)
  | cons l ls => rfl

/-- Every text but the last ends its last line. -/
def Ended (es : List Entry) : Prop := ∀ e ∈ es.dropLast, e.text.getLast? = some '\n'

/-- What stands behind the lines of the entries: with a newline behind the last text, the newline
in front of the end mark makes a line of its own. -/
def behind (es : List Entry) : List FileLine :=
  if (es.getLast?.bind fun e => e.text.getLast?) = some '\n' then ends else [.more endMark]

theorem fileLines_ended (hne : es ≠ []) (h : Ended es) :
    fileLines es = es.flatMap entryLines ++ behind es := by
  induction es with
  | nil => exact absurd rfl hne
  | cons e es ih =>
    cases es with
    | nil =>
      rw [List.flatMap_singleton, behind]
      split
      · rename_i hlast
        exact addEntry_eq (addText_ended (by simpa using hlast) ends)
      · rename_i hlast
        exact addEntry_eq (addText_open (by simpa using hlast) [.more endMark])
    | cons e' es =>
      have he : e.text.getLast? = some '\n' := h e (by simp)
      have hrest : Ended (e' :: es) := by
        intro x hx
        exact h x (by simp [hx])
      have hback : behind (e :: e' :: es) = behind (e' :: es) := by simp [behind]
      rw [List.flatMap_cons, List.append_assoc, hback, ← ih (List.cons_ne_nil _ _) hrest]
      exact addEntry_eq (addText_ended he _)

theorem length_entryLines (e : Entry) : (entryLines e).length = e.rows.length := by
  rw [entryLines, Entry.rows, List.length_map]
  cases textLines e.text with
  | nil => rfl
  | cons h tl => simp

theorem length_flatMap_entryLines (es : List Entry) :
    (es.flatMap entryLines).length = (es.flatMap Entry.rows).length := by
  induction es with
  | nil => rfl
  | cons e es ih =>
    rw [List.flatMap_cons, List.flatMap_cons, List.length_append, List.length_append, ih,
      length_entryLines]

theorem take_viewRows (t p : Nat) (A B : List FileLine) :
    (viewRows M t p (A ++ B)).take A.length = viewRows M t p A := by
  induction A generalizing t p with
  | nil => rfl
  | cons b A ih =>
    cases b with
    | start e x => simp [viewRows, ih]
    | more line =>
      rw [List.cons_append, viewRows, viewRows, List.length_cons, List.take_succ_cons]
      split
      · rw [List.map_append, List.take_left' (List.length_map _)]
      · rw [ih]

theorem starts_flatMap_entryLines (es : List Entry) : starts (es.flatMap entryLines) = es := by
  induction es with
  | nil => rfl
  | cons e es ih =>
    have hentry : starts (entryLines e) = [e] := by
      rw [entryLines]
      cases h : textLines e.text with
      | nil => exact absurd h (textLines_ne_nil _)
      | cons l ls => simp [starts, entry?, List.filterMap_map, Function.comp_def]
    rw [List.flatMap_cons]
    rw [starts] at ih hentry ⊢
    rw [List.filterMap_append, hentry, ih]
    rfl

theorem mem_of_mem_textLines {t l : Text} (hl : l ∈ textLines t) {c : Char} (hc : c ∈ l) :
    c ∈ t := by
  fun_induction textLines t generalizing l with
  | case1 => simp_all
  | case2 => simp_all
  | case3 cs _ ih =>
    rcases List.mem_cons.mp hl with rfl | hl
    · cases hc
    · exact List.mem_cons_of_mem _ (ih hl hc)
  | case4 d cs _ hd ih =>
    rcases mem_of_mem_consHead hl hc with rfl | ⟨l', hl', hc'⟩
    · exact List.mem_cons_self
    · exact List.mem_cons_of_mem _ (ih hl' hc')

theorem tokenize_line {t l : Text} (ht : Plain t) (hl : l ∈ textLines t) :
    tokenize l = if l = [] then [] else [l] := by
  split
  · rename_i h
    subst h
    decide
  · rename_i h
    exact tokenize_word (fun hc => ht.1 (mem_of_mem_textLines hl hc))
      (fun hc => ht.2.1 (mem_of_mem_textLines hl hc)) h

theorem shown_line {t l : Text} (ht : Plain t) (hl : l ∈ textLines t) : shown l = l := by
  rw [shown, tokenize_line ht hl]
  split
  · rename_i h
    exact h.symm
  · rfl

/-- The last line of a text that does not end it is not blank, unless it is the only one. -/
theorem getLast?_textLines {t : Text} (hne : t ≠ []) (ht : t.getLast? ≠ some '\n') :
    (textLines t).getLast? ≠ some [] := by
  fun_induction textLines t with
  | case1 => exact absurd rfl hne
  | case2 => exact absurd rfl ht
  | case3 cs hcs ih =>
    cases cs with
    | nil => exact absurd rfl ht
    | cons d ds =>
      have hlast := ih (List.cons_ne_nil _ _) (by simpa using ht)
      rwa [List.getLast?_cons_of_ne_nil (textLines_ne_nil _)]
  | case4 c cs _ hc ih =>
    cases hls : textLines cs with
    | nil => exact absurd hls (textLines_ne_nil _)
    | cons b bs =>
      cases bs with
      | nil => simp [consHead]
      | cons b' bs =>
        have hcs : cs ≠ [] := by
          intro h
          subst h
          simp [textLines] at hls
        have hopen : cs.getLast? ≠ some '\n' := by
          cases cs with
          | nil => simp
          | cons d ds => simpa using ht
        have hlast := ih hcs hopen
        rw [hls] at hlast
        simpa [consHead] using hlast

theorem cells_eq_iff {t d n : Nat} (hd : d ≤ M) (l : Text) :
    Row.cells M ⟨t, d, l⟩ = Row.cells M ⟨t, n, l⟩ ↔ l = [] ∨ d = n := by
  constructor
  · intro h
    have hcol := List.map_inj_left.mp (List.cons.inj h).2 d (by simp; omega)
    by_cases hdn : d = n
    · exact .inr hdn
    · exact .inl (by simpa [hdn] using hcol)
  · rintro (rfl | rfl)
    · simp [Row.cells]
    · rfl

theorem cells_ne_blank (r : Row) : r.cells M ≠ blank M := by
  intro h
  exact decimal_ne_nil _ (List.cons.inj h).1

/-- The further lines of an entry fill their rows when none is blank and the process read is the
entry's: a blank line ends the loop, and there are rows behind it. -/
theorem viewRows_more_iff {t d n : Nat} {tl : List Text} {E : List (List Text)} (hd : d ≤ M)
    (htl : ∀ l ∈ tl, tokenize l = if l = [] then [] else [l]) (hE : E.length = L.length)
    (hblank : blank M ∉ E) (hlast : L ≠ [] ∨ tl.getLast? ≠ some []) :
    viewRows M t d (tl.map .more ++ L) = tl.map (fun l => Row.cells M ⟨t, n, l⟩) ++ E ↔
      (∀ l ∈ tl, l ≠ [] ∧ d = n) ∧ viewRows M t d L = E := by
  induction tl with
  | nil => simp
  | cons l tl ih =>
    rw [List.forall_mem_cons] at htl
    by_cases hl : l = []
    · subst hl
      have htok : (tokenize []).isEmpty = true := by decide
      constructor
      · intro h
        simp only [List.map_cons, List.cons_append, viewRows, htok, if_true, List.cons.injEq] at h
        cases tl with
        | nil =>
          have hL : L ≠ [] := hlast.resolve_right (by simp)
          obtain ⟨b, L, rfl⟩ := List.exists_cons_of_ne_nil hL
          have hrest : (blank M :: L.map fun _ => blank M) = E := h.2
          exact absurd (hrest ▸ List.mem_cons_self) hblank
        | cons l' tl =>
          exact absurd (List.cons.inj h.2).1.symm (cells_ne_blank _)
      · intro h
        exact absurd rfl (h.1 [] List.mem_cons_self).1
    · have htok : (tokenize l).isEmpty = false := by simp [htl.1, hl]
      have hshown : shown l = l := by simp [shown, htl.1, hl]
      have hlast' : L ≠ [] ∨ tl.getLast? ≠ some [] := by
        rcases hlast with h | h
        · exact .inl h
        · right
          cases tl with
          | nil => simp
          | cons l' tl => simpa using h
      simp only [List.map_cons, List.cons_append, viewRows, htok, hshown, List.cons.injEq,
        cells_eq_iff hd, hl, false_or, List.forall_mem_cons, Bool.false_eq_true, if_false,
        ih htl.2 hlast', ne_eq, not_false_eq_true, true_and, and_assoc]

/-- The condition on one entry: no further line is blank, and the process has one digit or there is
nothing to put in its column. -/
def Shows (process : Nat) (text : Text) : Prop :=
  (∀ l ∈ (textLines text).tail, l ≠ []) ∧ (process ≤ 9 ∨ ∀ l ∈ textLines text, l = [])

theorem viewRows_entry_iff {e : Entry} (hM : e.process ≤ M) (he : Plain e.text) (t p : Nat)
    {E : List (List Text)} (hE : E.length = L.length) (hblank : blank M ∉ E)
    (hlast : L ≠ [] ∨ e.text.getLast? ≠ some '\n') :
    viewRows M t p (entryLines e ++ L) = e.rows.map (Row.cells M) ++ E ↔
      Shows e.process e.text ∧ viewRows M e.time (lead e.process) L = E := by
  have hlead : lead e.process ≤ M := (lead_le_self _).trans hM
  rw [entryLines, Entry.rows, Shows]
  cases hls : textLines e.text with
  | nil => exact absurd hls (textLines_ne_nil _)
  | cons h tl =>
    have hmem : ∀ l ∈ h :: tl, l ∈ textLines e.text := fun l hl => hls ▸ hl
    have hshown : shown h = h := shown_line he (hmem h List.mem_cons_self)
    have htl : ∀ l ∈ tl, tokenize l = if l = [] then [] else [l] :=
      fun l hl => tokenize_line he (hmem l (List.mem_cons_of_mem _ hl))
    have hlast' : L ≠ [] ∨ tl.getLast? ≠ some [] := by
      rcases hlast with hL | hopen
      · exact .inl hL
      · right
        by_cases hne : e.text = []
        · rw [hne] at hls
          cases hls
          simp
        · have hget := getLast?_textLines hne hopen
          cases tl with
          | nil => simp
          | cons l tl =>
            rw [hls] at hget
            simpa using hget
    have hmore := viewRows_more_iff (t := e.time) (n := e.process) hlead htl hE hblank hlast'
    simp only [List.map_map, List.map_cons, List.cons_append, viewRows, hshown, List.cons.injEq,
      Function.comp_def, List.tail_cons, List.forall_mem_cons]
    rw [hmore, cells_eq_iff hlead, lead_eq_iff]
    constructor
    · rintro ⟨hhead, htail, hrest⟩
      refine ⟨⟨fun l hl => (htail l hl).1, ?_⟩, hrest⟩
      rcases hhead with hh | hh
      · by_cases htl0 : tl = []
        · exact .inr ⟨hh, by simp [htl0]⟩
        · obtain ⟨l, hl⟩ := List.exists_mem_of_ne_nil tl htl0
          exact .inl (htail l hl).2
      · exact .inl hh
    · rintro ⟨⟨htail, hdigit⟩, hrest⟩
      rcases hdigit with hd | ⟨hh, hall⟩
      · exact ⟨.inr hd, fun l hl => ⟨htail l hl, hd⟩, hrest⟩
      · exact ⟨.inl hh, fun l hl => absurd (hall l hl) (htail l hl), hrest⟩

theorem blank_notMem_cells (rows : List Row) : blank M ∉ rows.map (Row.cells M) := by
  intro h
  obtain ⟨r, -, hr⟩ := List.mem_map.mp h
  exact cells_ne_blank r hr

/-- The lines of ended entries fill the rows of their texts just if each entry shows. -/
theorem viewRows_iff (hM : ∀ e ∈ es, e.process ≤ M) (hes : ∀ e ∈ es, Plain e.text)
    (hlast : (es.getLast?.bind fun e => e.text.getLast?) ≠ some '\n') (t p : Nat) :
    viewRows M t p (es.flatMap entryLines) = (es.flatMap Entry.rows).map (Row.cells M) ↔
      ∀ e ∈ es, Shows e.process e.text := by
  induction es generalizing t p with
  | nil => simp [viewRows]
  | cons e es ih =>
    rw [List.forall_mem_cons] at hM hes
    have hrest : (es.getLast?.bind fun e => e.text.getLast?) ≠ some '\n' := by
      cases es with
      | nil => simp
      | cons e' es => simpa using hlast
    have hopen : es.flatMap entryLines ≠ [] ∨ e.text.getLast? ≠ some '\n' := by
      cases es with
      | nil => exact .inr (by simpa using hlast)
      | cons e' es =>
        left
        apply List.ne_nil_of_length_pos
        rw [length_flatMap_entryLines]
        exact List.length_pos_of_ne_nil (rows_ne_nil (List.cons_ne_nil _ _))
    have hlen : ((es.flatMap Entry.rows).map (Row.cells M)).length =
        (es.flatMap entryLines).length := by
      rw [List.length_map, length_flatMap_entryLines]
    rw [List.flatMap_cons, List.flatMap_cons, List.map_append,
      viewRows_entry_iff hM.1 hes.1 t p hlen (blank_notMem_cells _) hopen, ih hM.2 hes.2 hrest,
      List.forall_mem_cons]

end Entries

section Condition

variable {es : List Entry}

/-- When the table has every row: there is an entry; the texts are plain; every text but the last
ends with a newline, and the last does not; no line of a text but the first is blank; a process
beyond the ninth has a blank text; and the cells can be counted in an int. -/
structure Readable (ps : List (Nat × Text)) : Prop where
  nonempty : ps ≠ []
  plain : ∀ p ∈ ps, Plain p.2
  ended : ∀ p ∈ ps.dropLast, p.2.getLast? = some '\n'
  last : (ps.getLast?.bind fun p => p.2.getLast?) ≠ some '\n'
  shows : ∀ p ∈ ps, Shows p.1 p.2
  fits : (ps.flatMap fun p => textLines p.2).length * ((ps.map Prod.fst).foldr max 0 + 2) < 2 ^ 31

def Entry.record (e : Entry) : Nat × Text := (e.process, e.text)

theorem length_rows (es : List Entry) :
    ((es.map Entry.record).flatMap fun p => textLines p.2).length =
      (es.flatMap Entry.rows).length := by
  simp [List.length_flatMap, Entry.rows, Entry.record, Function.comp_def]

theorem maxProcess_record (es : List Entry) :
    ((es.map Entry.record).map Prod.fst).foldr max 0 = maxProcess es := by
  rw [List.map_map, maxProcess]
  rfl

theorem getLast?_record (es : List Entry) : ((es.map Entry.record).getLast?.bind fun p =>
    p.2.getLast?) = es.getLast?.bind fun e => e.text.getLast? := by
  rw [List.getLast?_map]
  cases es.getLast? with
  | none => rfl
  | some e => rfl

theorem ended_record (es : List Entry) :
    (∀ p ∈ (es.map Entry.record).dropLast, p.2.getLast? = some '\n') ↔ Ended es := by
  simp [← List.map_dropLast, Ended, Entry.record]

/-- A newline behind the last text makes a line too many. -/
theorem RoundTrip.last (h : RoundTrip es) (hne : es ≠ []) (ht : ∀ e ∈ es, e.time < 2 ^ 31)
    (hended : Ended es) : (es.getLast?.bind fun e => e.text.getLast?) ≠ some '\n' := by
  intro hlast
  have hsize := (h.view hne ht).1
  have hfits := h.fits
  have hpos : 0 < (es.flatMap Entry.rows).length := List.length_pos_of_ne_nil (rows_ne_nil hne)
  have hwidth : maxProcess es + 2 ≤ (es.flatMap Entry.rows).length * (maxProcess es + 2) :=
    Nat.le_mul_of_pos_left _ hpos
  rw [fileLines_ended hne hended, behind, if_pos hlast, List.length_append,
    length_flatMap_entryLines] at hsize
  have hcells : (((es.flatMap Entry.rows).length + ends.length : Nat) - 1 : Int) *
      (maxProcess es + 2) = (((es.flatMap Entry.rows).length * (maxProcess es + 2) +
        (maxProcess es + 2) : Nat) : Int) := by
    simp only [ends, List.length_cons, List.length_nil]
    push_cast
    ring
  rw [hcells] at hsize
  generalize (es.flatMap Entry.rows).length * (maxProcess es + 2) = n at *
  rw [Int.bmod_def] at hsize
  split at hsize <;> omega

/-- For entries with ended texts, the rows are those of the texts under the condition. -/
theorem roundTrip_iff (hne : es ≠ []) (ht : ∀ e ∈ es, e.time < 2 ^ 31) (hended : Ended es)
    (hes : ∀ e ∈ es, Plain e.text)
    (hlast : (es.getLast?.bind fun e => e.text.getLast?) ≠ some '\n') :
    RoundTrip es ↔ (∀ e ∈ es, Shows e.process e.text) ∧
      (es.flatMap Entry.rows).length * (maxProcess es + 2) < 2 ^ 31 := by
  have hfile : fileLines es = es.flatMap entryLines ++ [.more endMark] := by
    rw [fileLines_ended hne hended, behind, if_neg hlast]
  constructor
  · intro h
    obtain ⟨-, p, -, hview⟩ := h.view hne ht
    rw [hfile, ← length_flatMap_entryLines, take_viewRows,
      viewRows_iff (fun _ => le_maxProcess) hes hlast] at hview
    exact ⟨hview, h.fits⟩
  · rintro ⟨hshows, hfits⟩
    have hstarts : starts (fileLines es) = es := by
      rw [hfile, starts, List.filterMap_append]
      exact (List.append_nil _).trans (starts_flatMap_entryLines es)
    have hpos : 0 < (es.flatMap Entry.rows).length := List.length_pos_of_ne_nil (rows_ne_nil hne)
    have hwidth : maxProcess es + 2 ≤ (es.flatMap Entry.rows).length * (maxProcess es + 2) :=
      Nat.le_mul_of_pos_left _ hpos
    have hstart : ∀ e ∈ starts (fileLines es), e.time < 2 ^ 31 ∧ e.process < 2 ^ 31 := by
      intro e he
      rw [hstarts] at he
      have hle := le_maxProcess he
      exact ⟨ht e he, by omega⟩
    have hM : maxProcess (starts (fileLines es)) = maxProcess es := by rw [hstarts]
    obtain ⟨hcols, -, p, hp, hrows⟩ := readFile_plain hes hstart hM
    have hlen : (fileLines es).length = (es.flatMap Entry.rows).length + 1 := by
      rw [hfile, List.length_append, length_flatMap_entryLines]
      rfl
    have hsize : (es.flatMap Entry.rows).length * (maxProcess es + 2) =
        ((((fileLines es).length - 1 : Int) * (maxProcess es + 2)).bmod (2 ^ 32)).toNat := by
      have hcells : ((fileLines es).length - 1 : Int) * (maxProcess es + 2) =
          (((es.flatMap Entry.rows).length * (maxProcess es + 2) : Nat) : Int) := by
        rw [hlen]
        push_cast
        ring
      rw [hcells]
      generalize (es.flatMap Entry.rows).length * (maxProcess es + 2) = n at *
      rw [Int.bmod_def]
      split <;> omega
    constructor
    case columns => exact hcols
    case rows =>
      rw [hrows _ (by omega) hsize, hfile, ← length_flatMap_entryLines, take_viewRows,
        (viewRows_iff (fun _ => le_maxProcess) hes hlast 0 p).mpr hshows, ← List.flatMap_def]

end Condition

section Recorded

/-- The entries that are recorded, with the times that `makeTdxPrefix` gives them. -/
def entries (times : Nat → Nat) (ps : List (Nat × Text)) : List Entry :=
  ps.mapIdx fun i p => ⟨times i, p.1, p.2⟩

theorem map_record_entries (times : Nat → Nat) (ps : List (Nat × Text)) :
    (entries times ps).map Entry.record = ps := by
  apply List.ext_getElem
  · simp [entries]
  · intro i h h'
    simp [entries, Entry.record]

theorem time_of_mem_entries {times : Nat → Nat} {ps : List (Nat × Text)} {e : Entry}
    (he : e ∈ entries times ps) : ∃ i < ps.length, e.time = times i := by
  obtain ⟨i, hi, rfl⟩ := List.mem_mapIdx.mp he
  exact ⟨i, hi, rfl⟩

/-- The text that is followed by an entry on the same line, and what stands around it. -/
theorem exists_open {ps : List (Nat × Text)}
    (h : ¬∀ p ∈ ps.dropLast, p.2.getLast? = some '\n') :
    ∃ pre p p' post, ps = pre ++ p :: p' :: post ∧ p.2.getLast? ≠ some '\n' := by
  simp only [not_forall] at h
  obtain ⟨p, hp, hopen⟩ := h
  obtain ⟨pre, post, hsplit⟩ := List.append_of_mem hp
  have hne : ps ≠ [] := by
    rintro rfl
    cases hp
  have hps := List.dropLast_append_getLast hne
  rw [hsplit, List.append_assoc, List.cons_append] at hps
  cases post with
  | nil => exact ⟨pre, p, _, [], hps.symm, hopen⟩
  | cons p' post => exact ⟨pre, p, p', post ++ [ps.getLast hne], hps.symm, hopen⟩

/-- A text that does not end its line is followed by no entry. -/
theorem ended_of_roundTrip {ps : List (Nat × Text)}
    (h : ∀ times : Nat → Nat, (∀ i, times i < 10 ^ 9) → RoundTrip (entries times ps)) :
    ∀ p ∈ ps.dropLast, p.2.getLast? = some '\n' := by
  by_contra hopen
  obtain ⟨pre, p, p', post, rfl, hp⟩ := exists_open hopen
  -- the entry behind it gets a time of its own
  let times : Nat → Nat := fun i => if i = pre.length + 1 then 1 else 0
  have hsmall : ∀ i, times i < 10 ^ 9 := by
    intro i
    simp only [times]
    split <;> decide
  have hround := h times hsmall
  have hsplit : entries times (pre ++ p :: p' :: post) =
      entries times pre ++ ⟨times pre.length, p.1, p.2⟩ ::
        ⟨times (pre.length + 1), p'.1, p'.2⟩ ::
          entries (fun i => times (i + 1 + 1 + pre.length)) post := by
    simp [entries, List.mapIdx_append, List.mapIdx_cons, Nat.add_comm, Nat.add_left_comm]
  rw [hsplit] at hround
  revert hround
  apply not_roundTrip_of_open hp
  · intro x hx
    rw [← hsplit] at hx
    obtain ⟨i, -, hi⟩ := time_of_mem_entries hx
    exact hi ▸ (hsmall i).trans (by decide)
  · simp [times]
  · intro x hx
    have hzero : x.time = 0 := by
      rcases List.mem_append.mp hx with hx | hx
      · obtain ⟨i, hi, ht⟩ := time_of_mem_entries hx
        rw [ht]
        exact if_neg (by omega)
      · rcases List.mem_cons.mp hx with rfl | hx
        · simp [times]
        · obtain ⟨i, hi, ht⟩ := time_of_mem_entries hx
          rw [ht]
          exact if_neg (by omega)
    simp [hzero, times]

/-- Whatever times the entries get, the table has a row for each text line, with the time and with
the whole line in the column of the process, just if the recorded texts meet the condition. -/
theorem roundTrip_iff_readable (ps : List (Nat × Text)) :
    (∀ times : Nat → Nat, (∀ i, times i < 10 ^ 9) → RoundTrip (entries times ps)) ↔
      Readable ps := by
  have htime : ∀ times : Nat → Nat, (∀ i, times i < 10 ^ 9) →
      ∀ e ∈ entries times ps, e.time < 2 ^ 31 := by
    intro times hsmall e he
    obtain ⟨i, -, hi⟩ := time_of_mem_entries he
    exact hi ▸ (hsmall i).trans (by decide)
  have hmem : ∀ (times : Nat → Nat) (P : Nat × Text → Prop),
      (∀ e ∈ entries times ps, P e.record) ↔ ∀ p ∈ ps, P p := by
    intro times P
    conv_rhs => rw [← map_record_entries times ps]
    simp
  constructor
  · intro h
    have hzero : ∀ _ : Nat, 0 < 10 ^ 9 := fun _ => by decide
    have hround := h (fun _ => 0) hzero
    have hne : ps ≠ [] := by
      rintro rfl
      exact absurd hround.rows (by decide)
    have hended := ended_of_roundTrip h
    have hes : entries (fun _ => 0) ps ≠ [] := by simpa [entries] using hne
    have hended' : Ended (entries (fun _ => 0) ps) := by
      rw [← ended_record, map_record_entries]
      exact hended
    have hlast := hround.last hes (htime _ hzero) hended'
    have hcond := (roundTrip_iff hes (htime _ hzero) hended' hround.plain hlast).mp hround
    constructor
    case nonempty => exact hne
    case plain => exact (hmem _ fun p => Plain p.2).mp hround.plain
    case ended => exact hended
    case last => rwa [← getLast?_record, map_record_entries] at hlast
    case shows => exact (hmem _ fun p => Shows p.1 p.2).mp hcond.1
    case fits =>
      have hfits := hcond.2
      rwa [← length_rows, ← maxProcess_record, map_record_entries] at hfits
  · intro h times hsmall
    have hes : entries times ps ≠ [] := by simpa [entries] using h.nonempty
    have hended : Ended (entries times ps) := by
      rw [← ended_record, map_record_entries]
      exact h.ended
    have hlast : ((entries times ps).getLast?.bind fun e => e.text.getLast?) ≠ some '\n' := by
      rw [← getLast?_record, map_record_entries]
      exact h.last
    apply (roundTrip_iff hes (htime _ hsmall) hended ((hmem _ fun p => Plain p.2).mpr h.plain)
      hlast).mpr
    constructor
    · exact (hmem _ fun p => Shows p.1 p.2).mpr h.shows
    · rw [← length_rows, ← maxProcess_record, map_record_entries]
      exact h.fits

/-- A line with an ampersand is cut in front of it. -/
theorem ampersand_cut : ¬∀ es : List Entry, RoundTrip es := by
  intro hall
  have hplain := (hall [⟨1, 0, ['a', '&', 'b']⟩]).plain _ List.mem_cons_self
  exact hplain.1 (by decide)

end Recorded

end Natc.Ecm
