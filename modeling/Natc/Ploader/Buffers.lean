import Natc.Ploader.Enclosing
import Natc.Ploader.Resync

/-!
# Buffers for a value

`GetToken` collects a value with what ends it in `m_TokenValue`, and `SetAttrValue` copies it into
`C_Col` or `B_Val`. The test for a full `m_TokenValue` stands between the store of a character and
the NUL, and the three buffers have three sizes.
-/

namespace Natc.Ploader

/-! ## What is written -/

/-- Where `GetToken` writes the NUL; it returns a terminator without one. -/
def nulWrite : DataToken → Bytes → List Nat
  | .fieldTerm, _ | .rowTerm, _ => []
  | .value, text | .eof, text => [text.length]

/-- The indices at which the loop of `GetToken` writes into `m_TokenValue`, over the characters
that are delivered to it. -/
def scanWrites (f : Format) : Scan → Bytes → List Nat
  | s, [] => [s.text.length]
  | s, ch :: rest =>
      s.text.length ::
        match scanStep f s ch with
        | .more t => scanWrites f t rest
        | .token t text _ => nulWrite t text

/-- The indices at which `GetToken` writes into `m_TokenValue`. -/
def tokenWrites (f : Format) (d : DataFile) : List Nat :=
  match d.eNextToken with
  | some _ => []
  | none => if delivered d.rest = [] then [] else scanWrites f .start (delivered d.rest)

/-- The size of `C_Col` or, for the binary types, of `B_Val`. -/
def Table.columnSize (t : Table) (i : Nat) : Nat :=
  if (t.attrType i).binary then maxVarcharSize * 2 + 1 else maxVarcharSize

/-- A call of `GetToken` writes inside `m_TokenValue`, and the value it reads for a column is copied
with its NUL inside the buffer of the column. -/
structure WritesInside (f : Format) (t : Table) (d : DataFile) (i : Nat) : Prop where
  token : ∀ k ∈ tokenWrites f d, k < maxTokenValueLen
  column : ∀ v e, getToken f d = (.value, v, e) → (cString v).length + 1 ≤ t.columnSize i

/-! ## Where a field lies -/

/-- The field at the place of the reader: its value, and the terminator or mark that ends it. A
value at the end of the file is ended by nothing. Up to `m_nEnLen` marks in a row open a value. -/
inductive Format.Lies (f : Format) : Bytes → Bytes → Bytes → Prop
  | closed (hf : f.Plain) (tk : DataToken) (v u : Bytes) : tk = .fieldTerm ∨ tk = .rowTerm →
      f.Closes tk v → Lies f (v ++ f.term tk ++ u) v (f.term tk)
  | last (hf : f.Plain) (v : Bytes) : v ≠ [] → f.Quiet v → Lies f v v []
  | enclosed (hf : f.Enclosed) (k : Nat) (v u : Bytes) : (∀ c ∈ f.mark, c < 128) → 0 < k →
      k ≤ f.mark.length → v ≠ [] → (∀ c ∈ v, c ∉ f.mark) →
      Lies f ((List.replicate k f.mark).flatten ++ (v ++ f.mark ++ u)) v f.mark
  | empty (hf : f.Enclosed) (u : Bytes) : (∀ c ∈ f.mark, c < 128) →
      Lies f ((List.replicate f.mark.length f.mark).flatten ++ (f.mark ++ u)) [] f.mark
  | unclosed (hf : f.Enclosed) (k : Nat) (v : Bytes) : (∀ c ∈ f.mark, c < 128) → 0 < k →
      k ≤ f.mark.length → (∀ c ∈ v, c ∉ f.mark) →
      Lies f ((List.replicate k f.mark).flatten ++ v) v []
  | between (hf : f.Enclosed) (tk : DataToken) (u : Bytes) : tk = .fieldTerm ∨ tk = .rowTerm →
      ascii (f.term tk) → Lies f (f.term tk ++ u) [] (f.term tk)

section writes

variable {f : Format} {t : Table} {s m : Scan} {ch : UInt8} {w u v e : Bytes} {i : Nat}
  {input : Bytes}

/-- The loop goes on only while the text and one character more have room. -/
theorem room_of_more (h : scanStep f s ch = .more m) : s.text.length + 1 < maxTokenValueLen := by
  by_contra hfull
  have hover : maxTokenValueLen ≤ (s.text ++ [ch]).length := by
    rw [List.length_append, List.length_singleton]
    exact not_lt.mp hfull
  simp only [scanStep, if_pos hover] at h
  cases h

/-- Characters that are taken are written inside the buffer. -/
theorem Passes.writes (h : Passes f s w m) :
    (∀ k ∈ scanWrites f s (w ++ u), k < maxTokenValueLen) ↔
      ∀ k ∈ scanWrites f m u, k < maxTokenValueLen := by
  induction w generalizing s with
  | nil =>
    cases h
    rfl
  | cons c w ih =>
    obtain ⟨n, hstep, hafter⟩ := h
    have hroom := room_of_more hstep
    rw [List.cons_append, scanWrites, hstep, List.forall_mem_cons, ← ih hafter]
    exact and_iff_right (by omega)

theorem tokenWrites_eq (h : delivered input ≠ []) :
    tokenWrites f ⟨input, none⟩ = scanWrites f .start (delivered input) :=
  if_neg h

/-- A character that finds the buffer full but for one byte is stored, and the NUL behind it. -/
theorem not_writesInside (h : delivered input = w ++ ch :: u) (hpasses : Passes f .start w s)
    (hfull : s.text.length + 1 = maxTokenValueLen) : ¬WritesInside f t ⟨input, none⟩ i := by
  intro hinside
  have htoken := hinside.token
  have hover : maxTokenValueLen ≤ (s.text ++ [ch]).length := by
    rw [List.length_append, List.length_singleton]
    omega
  have hstep : scanStep f s ch = .token .eof (s.text ++ [ch]) none := by
    simp only [scanStep, if_pos hover]
  rw [tokenWrites_eq (by rw [h]; simp), h, hpasses.writes, scanWrites, hstep] at htoken
  have hnul : (s.text ++ [ch]).length < maxTokenValueLen := htoken _ (by simp [nulWrite])
  exact absurd hnul hover.not_gt

/-- A token that a character ends is written inside the buffer, and its value is all that is left to
be copied. -/
theorem writesInside_token {tk : DataToken} {text : Bytes} {next : Option DataToken}
    (h : delivered input = w ++ ch :: u) (hpasses : Passes f .start w s)
    (hstep : scanStep f s ch = .token tk text next) (hs : s.text.length < maxTokenValueLen)
    (htext : text.length < maxTokenValueLen) :
    WritesInside f t ⟨input, none⟩ i ↔
      (tk = .value → (cString text).length + 1 ≤ t.columnSize i) := by
  have hne : delivered input ≠ [] := by
    rw [h]
    simp
  obtain ⟨input', hdelivered, hscan⟩ := scan_passes hpasses h
  obtain ⟨input'', -, -, htoken⟩ := @scan_next f ch input' u hdelivered
  have hget : getToken f ⟨input, none⟩ = (tk, text, ⟨input'', next⟩) := by
    rw [getToken_delivered hne, hscan, htoken s tk text next hstep]
  constructor
  · rintro hinside rfl
    exact hinside.column _ _ hget
  · intro hcolumn
    refine ⟨?_, fun v e hvalue => ?_⟩
    · rw [tokenWrites_eq hne, h, hpasses.writes, scanWrites, hstep]
      intro k hk
      rcases List.mem_cons.mp hk with rfl | hnul
      · exact hs
      · cases tk with
        | fieldTerm => cases hnul
        | rowTerm => cases hnul
        | value =>
          rw [List.mem_singleton.mp hnul]
          exact htext
        | eof =>
          rw [List.mem_singleton.mp hnul]
          exact htext
    · cases hget.symm.trans hvalue
      exact hcolumn rfl

/-- The text at the end of the file. -/
theorem writesInside_end (hne : delivered input ≠ []) (hpasses : Passes f .start (delivered input) s)
    (hs : s.text.length < maxTokenValueLen) :
    WritesInside f t ⟨input, none⟩ i ↔ (cString s.text).length + 1 ≤ t.columnSize i := by
  obtain ⟨input', hdelivered, hscan⟩ := scan_passes hpasses (List.append_nil _).symm
  have hget : getToken f ⟨input, none⟩ = (.value, s.text, ⟨[], some .eof⟩) := by
    rw [getToken_delivered hne, hscan]
    cases eq_of_delivered_nil hdelivered with
    | inl hnil => rw [hnil, scan]
    | inr hreturn =>
      rw [hreturn, scan.eq_def]
      rfl
  constructor
  · exact fun hinside => hinside.column _ _ hget
  · intro hcolumn
    refine ⟨?_, fun v e hvalue => ?_⟩
    · rw [tokenWrites_eq hne, ← List.append_nil (delivered input), hpasses.writes, scanWrites]
      intro k hk
      rw [List.mem_singleton.mp hk]
      exact hs
    · cases hget.symm.trans hvalue
      exact hcolumn

/-- Characters that are collected behind others and leave no room. -/
theorem not_writesInside_take (h : delivered input = w ++ (v ++ u))
    (hlong : maxTokenValueLen ≤ v.length)
    (hpasses : Passes f .start (w ++ v.take (maxTokenValueLen - 1)) s)
    (htext : s.text = v.take (maxTokenValueLen - 1)) : ¬WritesInside f t ⟨input, none⟩ i := by
  have hpos : 0 < maxTokenValueLen := by simp [maxTokenValueLen]
  have hlt : maxTokenValueLen - 1 < v.length := by omega
  have hsplit : delivered input = w ++ v.take (maxTokenValueLen - 1) ++
      v[maxTokenValueLen - 1] :: (v.drop (maxTokenValueLen - 1 + 1) ++ u) := by
    rw [h, ← List.cons_append, ← List.drop_eq_getElem_cons hlt, List.append_assoc,
      ← List.append_assoc (v.take _), List.take_append_drop]
  refine not_writesInside hsplit hpasses ?_
  rw [htext, List.length_take]
  omega

/-! ## The column -/

theorem length_cString_le (v : Bytes) : (cString v).length ≤ v.length :=
  (List.takeWhile_prefix _).length_le

theorem columnSize_pos (t : Table) (i : Nat) : 0 + 1 ≤ t.columnSize i := by
  simp only [Table.columnSize, maxVarcharSize]
  split
  · omega
  · omega

/-- A value that `m_TokenValue` holds is shorter than `B_Val`. -/
theorem column_iff (hv : v.length < maxTokenValueLen) :
    (cString v).length + 1 ≤ t.columnSize i ↔
      ((t.attrType i).binary = false → (cString v).length < maxVarcharSize) := by
  have hle := length_cString_le v
  have hsize : maxVarcharSize * 2 = maxTokenValueLen := rfl
  rw [Table.columnSize]
  by_cases hbinary : (t.attrType i).binary = true
  · rw [if_pos hbinary]
    exact iff_of_true (by omega) fun hfalse => absurd hbinary (by simp [hfalse])
  · rw [if_neg hbinary]
    exact ⟨fun h _ => h, fun h => h (Bool.eq_false_of_not_eq_true hbinary)⟩

/-- A field that has room, with what ends it, and whose value has room in its column. -/
def Fits (t : Table) (i : Nat) (v e : Bytes) : Prop :=
  v.length + e.length < maxTokenValueLen ∧
    ((t.attrType i).binary = false → (cString v).length < maxVarcharSize)

/-- What is left to show of a field of either kind. -/
theorem writesInside_fits (hlong : maxTokenValueLen ≤ v.length + e.length →
      ¬WritesInside f t ⟨input, none⟩ i)
    (hshort : v.length + e.length < maxTokenValueLen → (WritesInside f t ⟨input, none⟩ i ↔
      (cString v).length + 1 ≤ t.columnSize i)) :
    WritesInside f t ⟨input, none⟩ i ↔ Fits t i v e := by
  by_cases hroom : v.length + e.length < maxTokenValueLen
  · rw [hshort hroom, column_iff (by omega)]
    exact (and_iff_right hroom).symm
  · exact iff_of_false (hlong (not_lt.mp hroom)) fun hfits => hroom hfits.1

/-! ## Fields without an enclosing -/

theorem Format.Quiet.of_prefix (h : f.Quiet w) (hv : v <+: w) : f.Quiet v :=
  fun _ hp => h _ (hp.trans hv)

theorem take_prefix_dropLast {n : Nat} (hn : n < w.length) : w.take n <+: w.dropLast := by
  rw [List.dropLast_eq_take]
  exact List.take_prefix_take_left (by omega)

theorem closed_iff (hf : f.Plain) {tk : DataToken} (htk : tk = .fieldTerm ∨ tk = .rowTerm)
    (hcloses : f.Closes tk v) (h : delivered input = v ++ f.term tk ++ u) :
    WritesInside f t ⟨input, none⟩ i ↔ Fits t i v (f.term tk) := by
  refine writesInside_fits (fun hlong => ?_) fun hshort => ?_
  · rw [← List.length_append] at hlong
    have hpos : 0 < maxTokenValueLen := by simp [maxTokenValueLen]
    have hquiet := hcloses.quiet.of_prefix
      (take_prefix_dropLast (n := maxTokenValueLen - 1) (by omega))
    obtain ⟨s, hpasses, hs⟩ := @quiet_passes f .start [] hf _ (Scan.start_follows hf) hquiet
      (by rw [List.nil_append, List.length_take]; omega)
    exact @not_writesInside_take f t s [] u _ i input h hlong hpasses hs.text
  · rw [← List.length_append] at hshort
    have hends : f.Ends tk v := ⟨hcloses.ascii, hcloses.quiet, hcloses.first, hshort⟩
    have hterm : f.term tk ≠ [] := by
      rcases htk with rfl | rfl
      · exact hf.field_ne
      · exact hf.row_ne
    have hne : v ++ f.term tk ≠ [] := List.append_ne_nil_of_right_ne_nil v hterm
    have hlast := List.dropLast_append_getLast hne
    have hdrop : (v ++ f.term tk).dropLast.length < maxTokenValueLen := by
      rw [List.length_dropLast]
      omega
    obtain ⟨s, hpasses, hs⟩ := @quiet_passes f .start [] hf _ (Scan.start_follows hf) hends.quiet
      hdrop
    have hstep := hs.step_term hf hends htk hlast
    have htext : s.text.length < maxTokenValueLen := hs.text ▸ hdrop
    rw [List.length_append] at hshort
    rw [← hlast, List.append_assoc, List.singleton_append] at h
    split at hstep
    · next hnil =>
      rw [writesInside_token h hpasses hstep htext (by omega), hnil]
      refine iff_of_true ?_ (columnSize_pos t i)
      rintro rfl
      simp at htk
    · rw [writesInside_token h hpasses hstep htext (by omega)]
      exact forall_prop_of_true rfl

theorem last_iff (hf : f.Plain) (hne : v ≠ []) (hquiet : f.Quiet v) (h : delivered input = v) :
    WritesInside f t ⟨input, none⟩ i ↔ Fits t i v [] := by
  refine writesInside_fits (fun hlong => ?_) fun hshort => ?_
  · rw [List.length_nil, Nat.add_zero] at hlong
    have hpos : 0 < maxTokenValueLen := by simp [maxTokenValueLen]
    obtain ⟨s, hpasses, hs⟩ := @quiet_passes f .start [] hf _ (Scan.start_follows hf)
      (hquiet.of_prefix (List.take_prefix (maxTokenValueLen - 1) v))
      (by rw [List.nil_append, List.length_take]; omega)
    exact @not_writesInside_take f t s [] [] v i input (by rw [h]; simp) hlong hpasses hs.text
  · rw [List.length_nil, Nat.add_zero] at hshort
    obtain ⟨s, hpasses, hs⟩ := @quiet_passes f .start [] hf v (Scan.start_follows hf) hquiet hshort
    have htext : s.text = v := hs.text
    subst h
    rw [writesInside_end hne hpasses (htext ▸ hshort), htext]

/-! ## Fields with an enclosing -/

/-- A mark that opens a value. -/
theorem opening_passes (hf : f.Enclosed) (hascii : ∀ c ∈ f.mark, c < 128) (hs : s.Inside f [] 0)
    (hcnt : s.encloseLoopCnt ≠ f.mark.length) :
    Passes f s f.mark (.opened (s.encloseLoopCnt + 1)) := by
  have hpos := List.length_pos_of_ne_nil hf.mark_ne
  have hmax := hf.mark_length
  obtain ⟨m, hpasses, hm, hsame⟩ := @mark_passes f s [] hf hascii (f.mark.length - 1) 0 (by omega)
    (by rw [List.length_nil, maxTokenValueLen]; omega) hs
  rw [List.drop_zero] at hpasses
  rw [Nat.zero_add] at hm
  have hlast := mark_last hf hascii (Nat.sub_add_cancel hpos)
    (by rw [List.nil_append, maxTokenValueLen]; omega) hm
  rw [if_pos rfl, hsame, if_neg hcnt] at hlast
  have hwhole := hpasses.concat hlast
  rw [← append_last (Nat.sub_add_cancel hpos), List.append_nil] at hwhole
  exact hwhole

theorem Scan.opened_inside (hf : f.Enclosed) (k : Nat) : (Scan.opened k).Inside f [] 0 :=
  ⟨rfl, rfl, List.length_pos_of_ne_nil hf.field_ne, List.length_pos_of_ne_nil hf.row_ne⟩

/-- The marks that open a value. -/
theorem marks_passes (hf : f.Enclosed) (hascii : ∀ c ∈ f.mark, c < 128) {k : Nat}
    (hk : k < f.mark.length) :
    Passes f .start (List.replicate (k + 1) f.mark).flatten (.opened (k + 1)) := by
  induction k with
  | zero =>
    rw [Nat.zero_add, List.replicate_one, List.flatten_singleton]
    exact @opening_passes f .start hf hascii
      ⟨rfl, rfl, List.length_pos_of_ne_nil hf.field_ne, List.length_pos_of_ne_nil hf.row_ne⟩ hk.ne
  | succ k ih =>
    rw [List.replicate_succ', List.flatten_append, List.flatten_singleton]
    exact (ih (by omega)).append
      (@opening_passes f (.opened (k + 1)) hf hascii (Scan.opened_inside hf _) hk.ne)

variable {k : Nat}

/-- The characters of a value between its marks. -/
theorem inner_passes (hf : f.Enclosed) (hascii : ∀ c ∈ f.mark, c < 128) (hk : 0 < k)
    (hle : k ≤ f.mark.length) (hv : ∀ c ∈ v, c ∉ f.mark) (hroom : v.length < maxTokenValueLen) :
    Passes f .start ((List.replicate k f.mark).flatten ++ v) { Scan.opened k with text := v } := by
  obtain ⟨k, rfl⟩ := Nat.exists_eq_succ_of_ne_zero hk.ne'
  have hvalue := @value_passes f (.opened (k + 1)) v hf ⟨rfl, rfl, rfl⟩ rfl hv
    (by change 0 + v.length < maxTokenValueLen; omega)
  exact (marks_passes hf hascii hle).append hvalue

/-- The characters of a value with some of those of its closing mark. -/
theorem closing_passes (hf : f.Enclosed) (hascii : ∀ c ∈ f.mark, c < 128) (hk : 0 < k)
    (hle : k ≤ f.mark.length) (hv : ∀ c ∈ v, c ∉ f.mark) {d : Nat} (hd : d < f.mark.length)
    (hroom : v.length + d < maxTokenValueLen) :
    ∃ m, Passes f .start ((List.replicate k f.mark).flatten ++ (v ++ f.mark.take d)) m ∧
      m.Inside f v d ∧ m.encloseLoopCnt = k := by
  have hinner := inner_passes hf hascii hk hle hv (by omega)
  obtain ⟨m, hpasses, hm, hcnt⟩ := @mark_passes f { Scan.opened k with text := v } v hf hascii d 0
    (by omega) (by omega) ⟨(List.append_nil v).symm, rfl, List.length_pos_of_ne_nil hf.field_ne,
      List.length_pos_of_ne_nil hf.row_ne⟩
  rw [List.drop_zero] at hpasses
  rw [Nat.zero_add] at hm
  have hwhole := hinner.append hpasses
  rw [List.append_assoc] at hwhole
  exact ⟨m, hwhole, hm, hcnt⟩

/-- A value and its closing mark, as far as there is room. -/
theorem room_passes (hf : f.Enclosed) (hascii : ∀ c ∈ f.mark, c < 128) (hk : 0 < k)
    (hle : k ≤ f.mark.length) (hv : ∀ c ∈ v, c ∉ f.mark) {n : Nat}
    (hn : n < (v ++ f.mark).length) (hroom : n < maxTokenValueLen) :
    ∃ m, Passes f .start ((List.replicate k f.mark).flatten ++ (v ++ f.mark).take n) m ∧
      m.text = (v ++ f.mark).take n := by
  rw [List.take_append]
  rw [List.length_append] at hn
  rcases Nat.lt_or_ge n v.length with hinside | hbehind
  · rw [Nat.sub_eq_zero_of_le hinside.le, List.take_zero, List.append_nil]
    exact ⟨_, inner_passes hf hascii hk hle (fun c hc => hv c (List.mem_of_mem_take hc))
      (by rw [List.length_take]; omega), rfl⟩
  · rw [List.take_of_length_le hbehind]
    obtain ⟨m, hpasses, hm, -⟩ := @closing_passes f v k hf hascii hk hle hv (n - v.length) (by omega)
      (by omega)
    exact ⟨m, hpasses, hm.text⟩

theorem enclosed_iff (hf : f.Enclosed) (hascii : ∀ c ∈ f.mark, c < 128) (hk : 0 < k)
    (hle : k ≤ f.mark.length) (hne : v ≠ []) (hv : ∀ c ∈ v, c ∉ f.mark)
    (h : delivered input = (List.replicate k f.mark).flatten ++ (v ++ f.mark ++ u)) :
    WritesInside f t ⟨input, none⟩ i ↔ Fits t i v f.mark := by
  have hpos := List.length_pos_of_ne_nil hf.mark_ne
  refine writesInside_fits (fun hlong => ?_) fun hshort => ?_
  · rw [← List.length_append] at hlong
    have hmax : 0 < maxTokenValueLen := by simp [maxTokenValueLen]
    obtain ⟨m, hpasses, hm⟩ := @room_passes f v k hf hascii hk hle hv (maxTokenValueLen - 1)
      (by omega) (by omega)
    exact not_writesInside_take h hlong hpasses hm
  · obtain ⟨m, hpasses, hm, hcnt⟩ := @closing_passes f v k hf hascii hk hle hv (f.mark.length - 1)
      (by omega) (by omega)
    have hlast := mark_last hf hascii (Nat.sub_add_cancel hpos)
      (by rw [List.length_append]; exact hshort) hm
    rw [if_neg hne] at hlast
    have hsplit : delivered input = (List.replicate k f.mark).flatten ++
        (v ++ f.mark.take (f.mark.length - 1)) ++ f.mark.getD (f.mark.length - 1) 0 :: u := by
      rw [h, List.append_assoc v, append_last (Nat.sub_add_cancel hpos)]
      simp only [List.append_assoc]
    have htext : m.text.length < maxTokenValueLen := by
      rw [hm.text, List.length_append, List.length_take]
      omega
    rw [writesInside_token hsplit hpasses hlast htext (by omega)]
    exact forall_prop_of_true rfl

/-- As many marks in a row as the mark has characters, and one more. -/
theorem empty_iff (hf : f.Enclosed) (hascii : ∀ c ∈ f.mark, c < 128)
    (h : delivered input = (List.replicate f.mark.length f.mark).flatten ++ (f.mark ++ u)) :
    WritesInside f t ⟨input, none⟩ i ↔ Fits t i [] f.mark := by
  have hpos := List.length_pos_of_ne_nil hf.mark_ne
  have hmax := hf.mark_length
  have hroom : ([] : Bytes).length + f.mark.length < maxTokenValueLen := by
    rw [List.length_nil, maxTokenValueLen]
    omega
  refine writesInside_fits (fun hlong => absurd hroom hlong.not_gt) fun _ => ?_
  obtain ⟨m, hpasses, hm, hcnt⟩ := @closing_passes f [] f.mark.length hf hascii hpos le_rfl
    (by simp) (f.mark.length - 1) (by omega) (by omega)
  have hlast := mark_last hf hascii (Nat.sub_add_cancel hpos)
    (by rw [List.length_append]; exact hroom) hm
  rw [if_pos rfl, if_pos hcnt] at hlast
  have hsplit : delivered input = (List.replicate f.mark.length f.mark).flatten ++
      ([] ++ f.mark.take (f.mark.length - 1)) ++ f.mark.getD (f.mark.length - 1) 0 :: u := by
    rw [h, append_last (Nat.sub_add_cancel hpos)]
    simp only [List.append_assoc, List.nil_append]
  have htext : m.text.length < maxTokenValueLen := by
    rw [hm.text, List.length_append, List.length_take]
    omega
  rw [writesInside_token hsplit hpasses hlast htext (by omega)]
  exact forall_prop_of_true rfl

theorem unclosed_iff (hf : f.Enclosed) (hascii : ∀ c ∈ f.mark, c < 128) (hk : 0 < k)
    (hle : k ≤ f.mark.length) (hv : ∀ c ∈ v, c ∉ f.mark)
    (h : delivered input = (List.replicate k f.mark).flatten ++ v) :
    WritesInside f t ⟨input, none⟩ i ↔ Fits t i v [] := by
  have hmax : 0 < maxTokenValueLen := by simp [maxTokenValueLen]
  refine writesInside_fits (fun hlong => ?_) fun hshort => ?_
  · rw [List.length_nil, Nat.add_zero] at hlong
    have hpasses := inner_passes (v := v.take (maxTokenValueLen - 1)) hf hascii hk hle
      (fun c hc => hv c (List.mem_of_mem_take hc)) (by rw [List.length_take]; omega)
    exact @not_writesInside_take f t _ _ [] v i input (by rw [h, List.append_nil]) hlong hpasses rfl
  · rw [List.length_nil, Nat.add_zero] at hshort
    have hpasses := inner_passes hf hascii hk hle hv hshort
    rw [← h] at hpasses
    refine writesInside_end ?_ hpasses hshort
    obtain ⟨k, rfl⟩ := Nat.exists_eq_succ_of_ne_zero hk.ne'
    rw [h, List.replicate_succ, List.flatten_cons, List.append_assoc]
    exact List.append_ne_nil_of_left_ne_nil hf.mark_ne _

theorem between_iff (hf : f.Enclosed) {tk : DataToken} (htk : tk = .fieldTerm ∨ tk = .rowTerm)
    (hascii : ascii (f.term tk)) (h : delivered input = f.term tk ++ u) :
    WritesInside f t ⟨input, none⟩ i ↔ Fits t i [] (f.term tk) := by
  have hshort : ∀ {term : Bytes}, term.length ≤ 10 →
      ([] : Bytes).length + term.length < maxTokenValueLen := by
    intro term hterm
    rw [List.length_nil, maxTokenValueLen]
    omega
  rcases htk with rfl | rfl
  · have hpos := List.length_pos_of_ne_nil hf.field_ne
    have hmax := hf.field_length
    have hroom := hshort hmax
    have hpasses := @field_passes f [] hf.toApart hascii (by simp) 0 0 (f.m_FieldTerm.length - 1) 0
      (by omega) (by simp only [List.length_nil, maxTokenValueLen]; omega)
    have hlast := @field_last f [] hascii (by simp) 0 0 _ (Nat.sub_add_cancel hpos)
      (by rw [List.nil_append, maxTokenValueLen]; omega)
    rw [List.drop_zero, Nat.zero_add] at hpasses
    rw [Format.term, append_last (Nat.sub_add_cancel hpos)] at h
    refine writesInside_fits (fun hlong => absurd hroom hlong.not_gt) fun _ => ?_
    rw [writesInside_token h hpasses hlast
      (by simp only [List.nil_append, List.length_take, maxTokenValueLen]; omega)
      (by rw [maxTokenValueLen]; omega)]
    exact iff_of_true (fun hvalue => by cases hvalue) (columnSize_pos t i)
  · have hpos := List.length_pos_of_ne_nil hf.row_ne
    have hmax := hf.row_length
    have hroom := hshort hmax
    have hpasses := @row_passes f [] hf.toApart hascii (by simp) 0 0 (f.m_RowTerm.length - 1) 0
      (by omega) (by simp only [List.length_nil, maxTokenValueLen]; omega)
    have hlast := @row_last f [] hf.toApart hascii (by simp) 0 0 _ (Nat.sub_add_cancel hpos)
      (by rw [List.nil_append, maxTokenValueLen]; omega)
    rw [List.drop_zero, Nat.zero_add] at hpasses
    rw [Format.term, append_last (Nat.sub_add_cancel hpos)] at h
    refine writesInside_fits (fun hlong => absurd hroom hlong.not_gt) fun _ => ?_
    rw [writesInside_token h hpasses hlast
      (by simp only [List.nil_append, List.length_take, maxTokenValueLen]; omega)
      (by rw [maxTokenValueLen]; omega)]
    exact iff_of_true (fun hvalue => by cases hvalue) (columnSize_pos t i)

end writes

section lies

variable {f : Format} {v e w u : Bytes}

/-- Without an enclosing a field lies at every place of the file but its end. -/
theorem Format.Quiet.lies (hf : f.Plain) (hw : f.Quiet w) (hne : w ++ u ≠ []) :
    ∃ v e, f.Lies (w ++ u) v e := by
  induction u generalizing w with
  | nil =>
    rw [List.append_nil] at hne ⊢
    exact ⟨w, [], .last hf w hne hw⟩
  | cons c u ih =>
    have hnext : w ++ c :: u = w ++ [c] ++ u := by simp
    rw [hnext] at hne ⊢
    by_cases hstop : f.Stops (w ++ [c])
    · obtain ⟨tk, v, htk, hcloses, heq⟩ := exists_closes hw hstop
      rw [heq]
      exact ⟨v, f.term tk, .closed hf tk v u htk hcloses⟩
    · exact ih (hw.concat hstop) hne

theorem exists_lies (hf : f.Plain) (hne : w ≠ []) : ∃ v e, f.Lies w v e :=
  (f.quiet_nil hf).lies hf hne

end lies

/-- A field of letters and its terminator. -/
def letters (n : Nat) : Bytes :=
  List.replicate n 97 ++ [94]

theorem letters_quiet (n : Nat) : caretLines.Quiet (List.replicate n 97) := by
  induction n with
  | zero => exact caretLines.quiet_nil caretLines_plain
  | succ n ih =>
    rw [List.replicate_succ']
    apply ih.concat
    intro hstop
    have hlast : ∀ {c : UInt8} {w : Bytes}, [c] <:+ w ++ [97] → c = 97 := by
      rintro c w ⟨z, hz⟩
      exact List.singleton_inj.mp (List.append_inj' hz rfl).2
    cases hstop with
    | inl h => exact absurd (hlast h.2) (by decide)
    | inr h => exact absurd (hlast h.2) (by decide)

theorem letters_closes (n : Nat) : caretLines.Closes .fieldTerm (List.replicate n 97) := by
  refine ⟨by decide, ?_, by simp⟩
  rw [Format.term, show caretLines.m_FieldTerm = [94] from rfl, List.dropLast_concat]
  exact letters_quiet n

theorem letters_delivered (n : Nat) : delivered (letters n) =
    List.replicate n 97 ++ caretLines.term .fieldTerm ++ [] := by
  rw [List.append_nil]
  apply delivered_eq_self
  rw [letters, List.mem_append]
  rintro (h | h)
  · exact absurd (List.eq_of_mem_replicate h) (by decide)
  · exact absurd h (by decide)

end Natc.Ploader
