import Natc.Ats.ScriptActions

/-!
# Files of LOAD_SQL

`Servicer::loadCASE` reads a script line by line and calls itself for each file that a LOAD_SQL line
names. The result of the inner call is not looked at, and nothing bounds the depth.
-/

namespace Natc.Ats.LoadSql

open Lib Script SetEnv

/-- A file that was opened, with its lines as `fgets` gives them. -/
structure File where
  lines : List Line
  whole : ∀ l ∈ lines, l.text ≠ [] ∧ '\n' ∉ l.text.dropLast
  /-- The result of `fclose`. -/
  closes : Bool

/-- The directory of the script and the files that can be opened. -/
structure Disk where
  dir : Text
  fopen : Text → Option File

def Disk.path (disk : Disk) (aIn : Text) : Text := disk.dir ++ '/' :: aIn

def sizeofLine : Nat := 65536

inductive Result where
  /-- A path that does not fit the buffer, or a name behind the end of its line. -/
  | undefined
  | returned (rc : Bool) (aData : Text)
  deriving DecidableEq

section Load

variable (w : StafWords) (disk : Disk)

/-- The loop of `loadCASE`, with the recursive call as `load`. -/
def loadLines (load : Text → Text → Option Result) : List Line → Text → Option Result
  | [], aData => some (.returned true aData)
  | sLine :: lines, aData =>
    if sLine.isLoad then
      if sLine.text.length < 12 then some .undefined
      else
        match load (sLine.loadName w) (aData ++ sLine.loadMark w "BEGIN") with
        | some (.returned _ aData) => loadLines load lines (aData ++ sLine.loadMark w "END")
        | r => r
    else loadLines load lines (aData ++ loadLine w.staf sLine.text)

/-- `Servicer::loadCASE`; `none` if the calls go deeper than `fuel`. -/
def loadCASE : Nat → Text → Text → Option Result
  | 0, _, _ => none
  | fuel + 1, aIn, aData =>
    let sLine := disk.path aIn
    if sizeofLine ≤ sLine.length then some .undefined
    else
      match disk.fopen sLine with
      | none => some (.returned false aData)
      | some sIn =>
        match loadLines w (loadCASE fuel) sIn.lines aData with
        | some (.returned _ aData) => some (.returned sIn.closes aData)
        | r => r

end Load

section Expansion

variable (w : StafWords) (disk : Disk)

/-- The next character stands at the start of a line. -/
def AtLineStart (text : Text) : Prop := text = [] ∨ text.getLast? = some '\n'

/-- The first text grows to the second one by the lines of a file: each line starts on its own line,
and what a LOAD_SQL line names stands between its BEGIN and END lines. -/
inductive Expands : List Line → Text → Text → Prop
  | done (before : Text) : Expands [] before before
  | line {sLine : Line} {lines : List Line} {before after : Text} (hline : sLine.isLoad = false)
      (hstart : AtLineStart before)
      (h : Expands lines (before ++ loadLine w.staf sLine.text) after) :
      Expands (sLine :: lines) before after
  | load {sLine : Line} {lines : List Line} {sIn : File} {before inside after : Text}
      (hload : sLine.isLoad = true) (hstart : AtLineStart before)
      (hopen : disk.fopen (disk.path (sLine.loadName w)) = some sIn)
      (hinner : Expands sIn.lines (before ++ sLine.loadMark w "BEGIN") inside)
      (hend : AtLineStart inside) (h : Expands lines (inside ++ sLine.loadMark w "END") after) :
      Expands (sLine :: lines) before after

/-- The files that are named, from `aIn` on. -/
inductive Named (aIn : Text) : Text → Prop
  | top : Named aIn aIn
  | load {name : Text} {sIn : File} {sLine : Line} (h : Named aIn name)
      (hopen : disk.fopen (disk.path name) = some sIn) (hmem : sLine ∈ sIn.lines)
      (hload : sLine.isLoad = true) : Named aIn (sLine.loadName w)

/-- Loading ends; it succeeds only with the whole expansion, and fails if a file is missing. -/
structure LoadsAll (aIn : Text) : Prop where
  returns : ∃ fuel rc aData, loadCASE w disk fuel aIn [] = some (.returned rc aData)
  opened : ∀ fuel aData, loadCASE w disk fuel aIn [] = some (.returned true aData) →
    ∀ name, Named w disk aIn name → (disk.fopen (disk.path name)).isSome
  expanded : ∀ fuel aData, loadCASE w disk fuel aIn [] = some (.returned true aData) →
    ∃ sIn, disk.fopen (disk.path aIn) = some sIn ∧ Expands w disk sIn.lines [] aData
  missing : ∀ fuel rc aData name, Named w disk aIn name → disk.fopen (disk.path name) = none →
    loadCASE w disk fuel aIn [] = some (.returned rc aData) → rc = false

/-- The LOAD_SQL lines of a file have names and lead into no endless descent. -/
inductive Ends : List Line → Prop
  | done : Ends []
  | line {sLine : Line} {lines : List Line} (hline : sLine.isLoad = false) (h : Ends lines) :
      Ends (sLine :: lines)
  | load {sLine : Line} {lines : List Line} (hload : sLine.isLoad = true)
      (hname : 12 ≤ sLine.text.length)
      (hpath : (disk.path (sLine.loadName w)).length < sizeofLine)
      (hinner : ∀ sIn, disk.fopen (disk.path (sLine.loadName w)) = some sIn → Ends sIn.lines)
      (h : Ends lines) : Ends (sLine :: lines)

def Line.isClosed (sLine : Line) : Prop := sLine.text.getLast? = some '\n'

/-- The files that the LOAD_SQL lines of a file name are there at every depth, and each line ends
with a newline, unless it is the last one of the script itself or a LOAD_SQL line. -/
inductive Whole : Bool → List Line → Prop
  | done (included : Bool) : Whole included []
  | line {included : Bool} {sLine : Line} {lines : List Line} (hline : sLine.isLoad = false)
      (hclosed : Line.isClosed sLine ∨ lines = [] ∧ included = false) (h : Whole included lines) :
      Whole included (sLine :: lines)
  | load {included : Bool} {sLine : Line} {lines : List Line} {sIn : File}
      (hload : sLine.isLoad = true)
      (hopen : disk.fopen (disk.path (sLine.loadName w)) = some sIn)
      (hinner : Whole true sIn.lines) (h : Whole included lines) : Whole included (sLine :: lines)

end Expansion

/-! ## The end of a line -/

section lines

variable (staf : Staf)

theorem getLast?_render (ms : List Piece) :
    (render ms).getLast? = some '\n' ↔ (source ms).getLast? = some '\n' := by
  rcases List.eq_nil_or_concat ms with rfl | ⟨front, m, rfl⟩
  · rfl
  · have hne : m.text ≠ [] := by
      cases m with
      | kept c => exact List.cons_ne_nil _ _
      | semicolon => rw [Piece.text, innerSemicolon_eq]; exact List.cons_ne_nil _ _
      | slash => rw [Piece.text, innerSlash_eq]; exact List.cons_ne_nil _ _
    rw [List.concat_eq_append, render_append, source_append, render_single, source_single,
      List.getLast?_append_of_ne_nil _ hne, List.getLast?_concat]
    cases m with
    | kept c => exact Iff.rfl
    | semicolon =>
      rw [Piece.text, innerSemicolon_eq]
      decide
    | slash =>
      rw [Piece.text, innerSlash_eq]
      decide

theorem render_eq_nil_iff (ms : List Piece) : render ms = [] ↔ source ms = [] := by
  cases ms with
  | nil => exact Iff.rfl
  | cons m ms =>
    refine iff_of_false (fun h => ?_) (List.cons_ne_nil _ _)
    rw [render_cons, List.append_eq_nil_iff] at h
    cases m with
    | kept c => cases h.1
    | semicolon =>
      rw [Piece.text, innerSemicolon_eq] at h
      cases h.1
    | slash =>
      rw [Piece.text, innerSlash_eq] at h
      cases h.1

/-- What is appended for a line ends with a newline if the line does. -/
theorem atLineStart_append_iff {before sLine : Text} (hne : sLine ≠ []) :
    AtLineStart (before ++ loadLine staf sLine) ↔ sLine.getLast? = some '\n' := by
  have hload : loadLine staf sLine ≠ [] := by
    rw [← render_markLine, Ne, render_eq_nil_iff, source_markLine]
    exact hne
  rw [AtLineStart, List.getLast?_append_of_ne_nil _ hload, or_iff_right
    fun h => hload (List.append_eq_nil_iff.mp h).2, ← render_markLine, getLast?_render,
    source_markLine]

theorem atLineStart_loadMark (w : StafWords) (before : Text) (sLine : Line) (word : String) :
    AtLineStart (before ++ sLine.loadMark w word) := by
  have hend : (" <=\n".toList).getLast? = some '\n' := by decide
  have hne : " <=\n".toList ≠ [] := by decide
  unfold AtLineStart Line.loadMark
  -- the text of the closing itself is not to be unfolded
  generalize " <=\n".toList = closing at hend hne ⊢
  rw [← List.append_assoc, List.getLast?_append_of_ne_nil _ hne]
  exact .inr hend

end lines

/-! ## The depth of the calls -/

section depth

variable {w : StafWords} {disk : Disk} {fuel : Nat} {aIn before aData : Text} {lines : List Line}
  {rc : Bool} {r : Result}

/-- What a call with more fuel gives. -/
theorem loadLines_mono {load load' : Text → Text → Option Result}
    (hload : ∀ name text r, load name text = some r → load' name text = some r)
    (h : loadLines w load lines before = some r) : loadLines w load' lines before = some r := by
  induction lines generalizing before with
  | nil => exact h
  | cons sLine lines ih =>
    rw [loadLines] at h ⊢
    split
    · next hl =>
      rw [if_pos hl] at h
      split
      · next hname =>
        rwa [if_pos hname] at h
      · next hname =>
        rw [if_neg hname] at h
        cases hinner : load (sLine.loadName w) (before ++ sLine.loadMark w "BEGIN") with
        | none =>
          rw [hinner] at h
          cases h
        | some r' =>
          rw [hload _ _ _ hinner]
          rw [hinner] at h
          cases r' with
          | undefined => exact h
          | returned rc inside => exact ih h
    · next hl =>
      rw [if_neg hl] at h
      exact ih h

theorem loadCASE_mono {k : Nat} (hle : fuel ≤ k) (h : loadCASE w disk fuel aIn before = some r) :
    loadCASE w disk k aIn before = some r := by
  induction fuel generalizing k aIn before r with
  | zero => cases h
  | succ fuel ih =>
    obtain ⟨k, rfl⟩ := Nat.exists_eq_succ_of_ne_zero (by omega : k ≠ 0)
    rw [loadCASE] at h ⊢
    split
    · next hpath => rwa [if_pos hpath] at h
    · next hpath =>
      rw [if_neg hpath] at h
      cases hopen : disk.fopen (disk.path aIn) with
      | none =>
        rw [hopen] at h
        exact h
      | some sIn =>
        rw [hopen] at h
        dsimp only at h ⊢
        cases hlines : loadLines w (loadCASE w disk fuel) sIn.lines before with
        | none =>
          rw [hlines] at h
          cases h
        | some r' =>
          rw [hlines] at h
          rw [loadLines_mono (fun name text r hr => ih (Nat.le_of_succ_le_succ hle) hr) hlines]
          exact h

/-- A call that returns from a file. -/
theorem loadCASE_returned (h : loadCASE w disk fuel aIn before = some (.returned rc aData)) :
    (disk.path aIn).length < sizeofLine ∧ ∃ n, fuel = n + 1 ∧
      ((disk.fopen (disk.path aIn) = none ∧ rc = false ∧ aData = before) ∨
        ∃ sIn rc', disk.fopen (disk.path aIn) = some sIn ∧ rc = sIn.closes ∧
          loadLines w (loadCASE w disk n) sIn.lines before = some (.returned rc' aData)) := by
  cases fuel with
  | zero => cases h
  | succ n =>
    rw [loadCASE] at h
    split at h
    · cases h
    · next hpath =>
      refine ⟨not_le.mp hpath, n, rfl, ?_⟩
      cases hopen : disk.fopen (disk.path aIn) with
      | none =>
        rw [hopen] at h
        cases h
        exact .inl ⟨rfl, rfl, rfl⟩
      | some sIn =>
        rw [hopen] at h
        dsimp only at h
        cases hlines : loadLines w (loadCASE w disk n) sIn.lines before with
        | none =>
          rw [hlines] at h
          cases h
        | some r' =>
          rw [hlines] at h
          cases r' with
          | undefined => cases h
          | returned rc' inside =>
            cases h
            exact .inr ⟨sIn, rc', rfl, rfl, hlines⟩

/-- The loop returns only from lines that end. -/
theorem ends_of_loadLines {load : Text → Text → Option Result}
    (hload : ∀ name text rc aData, load name text = some (.returned rc aData) →
      (disk.path name).length < sizeofLine ∧
        ∀ sIn, disk.fopen (disk.path name) = some sIn → Ends w disk sIn.lines)
    (h : loadLines w load lines before = some (.returned rc aData)) : Ends w disk lines := by
  induction lines generalizing before with
  | nil => exact .done
  | cons sLine lines ih =>
    rw [loadLines] at h
    split at h
    · next hl =>
      split at h
      · cases h
      · next hname =>
        cases hinner : load (sLine.loadName w) (before ++ sLine.loadMark w "BEGIN") with
        | none =>
          rw [hinner] at h
          cases h
        | some r' =>
          rw [hinner] at h
          cases r' with
          | undefined => cases h
          | returned rc' inside =>
            obtain ⟨hpath, hends⟩ := hload _ _ _ _ hinner
            exact .load hl (not_lt.mp hname) hpath hends (ih h)
    · next hl => exact .line (by simpa using hl) (ih h)

theorem ends_of_loadCASE (h : loadCASE w disk fuel aIn before = some (.returned rc aData)) :
    (disk.path aIn).length < sizeofLine ∧
      ∀ sIn, disk.fopen (disk.path aIn) = some sIn → Ends w disk sIn.lines := by
  induction fuel generalizing aIn before rc aData with
  | zero => cases h
  | succ fuel ih =>
    obtain ⟨hpath, n, hn, hcases⟩ := loadCASE_returned h
    obtain rfl := Nat.succ.inj hn
    refine ⟨hpath, fun sIn hopen => ?_⟩
    rcases hcases with ⟨hnone, -, -⟩ | ⟨sIn', rc', hsome, -, hlines⟩
    · rw [hnone] at hopen
      cases hopen
    · rw [hsome] at hopen
      cases hopen
      exact ends_of_loadLines (fun name text rc aData hr => ih hr) hlines

/-- Lines that end are loaded with enough fuel. -/
theorem loadLines_of_ends (h : Ends w disk lines) (before : Text) :
    ∃ fuel aData,
      loadLines w (loadCASE w disk fuel) lines before = some (.returned true aData) := by
  induction h generalizing before with
  | done => exact ⟨0, before, rfl⟩
  | @line sLine lines hline h ih =>
    obtain ⟨fuel, aData, hlines⟩ := ih (before ++ loadLine w.staf sLine.text)
    refine ⟨fuel, aData, ?_⟩
    rw [loadLines, hline, if_neg Bool.false_ne_true]
    exact hlines
  | @load sLine lines hload hname hpath hinner h ihinner ih =>
    have hcall : ∃ fuel rc inside, loadCASE w disk fuel (sLine.loadName w)
        (before ++ sLine.loadMark w "BEGIN") = some (.returned rc inside) := by
      cases hopen : disk.fopen (disk.path (sLine.loadName w)) with
      | none =>
        refine ⟨1, false, before ++ sLine.loadMark w "BEGIN", ?_⟩
        rw [loadCASE, if_neg (not_le.mpr hpath), hopen]
      | some sIn =>
        obtain ⟨fuel, inside, hlines⟩ := ihinner sIn hopen (before ++ sLine.loadMark w "BEGIN")
        refine ⟨fuel + 1, sIn.closes, inside, ?_⟩
        rw [loadCASE, if_neg (not_le.mpr hpath), hopen]
        dsimp only
        rw [hlines]
    obtain ⟨k, rc, inside, hcall⟩ := hcall
    obtain ⟨n, aData, hlines⟩ := ih (inside ++ sLine.loadMark w "END")
    refine ⟨max k n, aData, ?_⟩
    rw [loadLines, if_pos hload, if_neg (not_lt.mpr hname),
      loadCASE_mono (le_max_left k n) hcall]
    exact loadLines_mono (fun name text r hr => loadCASE_mono (le_max_right k n) hr) hlines

end depth

/-! ## The expansion -/

section expansion

variable {w : StafWords} {disk : Disk} {fuel : Nat} {aIn before after aData : Text}
  {lines : List Line} {included rc : Bool}

/-- Whole files are expanded. -/
theorem expands_of_whole (h : Whole w disk included lines)
    (hwhole : ∀ l ∈ lines, l.text ≠ [] ∧ '\n' ∉ l.text.dropLast)
    (hbefore : AtLineStart before)
    (hrun : loadLines w (loadCASE w disk fuel) lines before = some (.returned rc after)) :
    Expands w disk lines before after ∧ (included = true → AtLineStart after) := by
  induction h generalizing fuel before rc after with
  | done included =>
    cases hrun
    exact ⟨.done before, fun _ => hbefore⟩
  | @line included sLine lines hline hclosed h ih =>
    obtain ⟨hhead, hrest⟩ := List.forall_mem_cons.mp hwhole
    rw [loadLines, hline, if_neg Bool.false_ne_true] at hrun
    rcases hclosed with hclosed | ⟨rfl, rfl⟩
    · obtain ⟨hexpands, hafter⟩ := ih hrest
        ((atLineStart_append_iff w.staf hhead.1).mpr hclosed) hrun
      exact ⟨.line hline hbefore hexpands, hafter⟩
    · cases hrun
      exact ⟨.line hline hbefore (.done _), fun h => absurd h Bool.false_ne_true⟩
  | @load included sLine lines sIn hload hopen hinner h ihinner ih =>
    obtain ⟨hhead, hrest⟩ := List.forall_mem_cons.mp hwhole
    rw [loadLines, if_pos hload] at hrun
    split at hrun
    · cases hrun
    · cases hcall : loadCASE w disk fuel (sLine.loadName w)
          (before ++ sLine.loadMark w "BEGIN") with
      | none =>
        rw [hcall] at hrun
        cases hrun
      | some r =>
        rw [hcall] at hrun
        cases r with
        | undefined => cases hrun
        | returned rc' inside =>
          obtain ⟨-, n, -, hcases⟩ := loadCASE_returned hcall
          rcases hcases with ⟨hnone, -, -⟩ | ⟨sIn', rc'', hsome, -, hlines⟩
          · rw [hnone] at hopen
            cases hopen
          · rw [hsome] at hopen
            cases hopen
            obtain ⟨hinside, hend⟩ := ihinner sIn.whole (atLineStart_loadMark w _ _ _) hlines
            obtain ⟨hexpands, hafter⟩ := ih hrest (atLineStart_loadMark w _ _ _) hrun
            exact ⟨.load hload hbefore hsome hinside (hend rfl) hexpands, hafter⟩

/-- What has an expansion is whole. -/
theorem whole_of_expands (h : Expands w disk lines before after)
    (hwhole : ∀ l ∈ lines, l.text ≠ [] ∧ '\n' ∉ l.text.dropLast)
    (hafter : included = true → AtLineStart after) : Whole w disk included lines := by
  induction h generalizing included with
  | done before => exact .done included
  | @line sLine lines before after hline hstart h ih =>
    obtain ⟨hhead, hrest⟩ := List.forall_mem_cons.mp hwhole
    refine .line hline ?_ (ih hrest hafter)
    have hclosed := @atLineStart_append_iff w.staf before sLine.text hhead.1
    cases h with
    | done =>
      cases included with
      | false => exact .inr ⟨rfl, rfl⟩
      | true => exact .inl (hclosed.mp (hafter rfl))
    | line _ hstart' => exact .inl (hclosed.mp hstart')
    | load _ hstart' => exact .inl (hclosed.mp hstart')
  | @load sLine lines sIn before inside after hload hstart hopen hinner hend h ihinner ih =>
    obtain ⟨-, hrest⟩ := List.forall_mem_cons.mp hwhole
    exact .load hload hopen (ihinner sIn.whole fun _ => hend) (ih hrest hafter)

theorem expands_of_mem (h : Expands w disk lines before after) {sLine : Line}
    (hmem : sLine ∈ lines) (hload : sLine.isLoad = true) :
    ∃ sIn start stop, disk.fopen (disk.path (sLine.loadName w)) = some sIn ∧
      Expands w disk sIn.lines start stop := by
  induction h with
  | done => cases hmem
  | line hline _ _ ih =>
    rcases List.mem_cons.mp hmem with rfl | hmem
    · rw [hline] at hload
      cases hload
    · exact ih hmem
  | load _ _ hopen hinner _ _ _ ih =>
    rcases List.mem_cons.mp hmem with rfl | hmem
    · exact ⟨_, _, _, hopen, hinner⟩
    · exact ih hmem

/-- An expansion opens all files that are named. -/
theorem opened_of_expands {sIn : File} (hopen : disk.fopen (disk.path aIn) = some sIn)
    (h : Expands w disk sIn.lines before after) {name : Text} (hname : Named w disk aIn name) :
    ∃ sIn start stop, disk.fopen (disk.path name) = some sIn ∧
      Expands w disk sIn.lines start stop := by
  induction hname with
  | top => exact ⟨sIn, before, after, hopen, h⟩
  | load _ hopen' hmem hload ih =>
    obtain ⟨sIn', start, stop, hsome, hexpands⟩ := ih
    rw [hopen'] at hsome
    cases hsome
    exact expands_of_mem hexpands hmem hload

end expansion

/-- Loading a script keeps to its files if the script is not there, or its LOAD_SQL lines end, and
all files are there with closed lines. -/
theorem loadsAll_iff (w : StafWords) (disk : Disk) (aIn : Text) :
    LoadsAll w disk aIn ↔ (disk.path aIn).length < sizeofLine ∧
      ∀ sIn, disk.fopen (disk.path aIn) = some sIn →
        Ends w disk sIn.lines ∧ (sIn.closes = true → Whole w disk false sIn.lines) := by
  constructor
  · intro h
    obtain ⟨fuel, rc, aData, hrun⟩ := h.returns
    obtain ⟨hpath, hends⟩ := ends_of_loadCASE hrun
    refine ⟨hpath, fun sIn hopen => ⟨hends sIn hopen, fun hcloses => ?_⟩⟩
    obtain ⟨-, n, -, hcases⟩ := loadCASE_returned hrun
    rcases hcases with ⟨hnone, -, -⟩ | ⟨sIn', rc', hsome, hrc, -⟩
    · rw [hnone] at hopen
      cases hopen
    · have hsame : sIn' = sIn := Option.some.inj (hsome.symm.trans hopen)
      rw [hrc, hsame, hcloses] at hrun
      obtain ⟨sIn'', hsome', hexpands⟩ := h.expanded fuel aData hrun
      have hsame' : sIn'' = sIn := Option.some.inj (hsome'.symm.trans hopen)
      rw [hsame'] at hexpands
      exact whole_of_expands hexpands sIn.whole fun h => absurd h Bool.false_ne_true
  · rintro ⟨hpath, h⟩
    have hexpanded : ∀ fuel aData, loadCASE w disk fuel aIn [] = some (.returned true aData) →
        ∃ sIn, disk.fopen (disk.path aIn) = some sIn ∧ Expands w disk sIn.lines [] aData := by
      intro fuel aData hrun
      obtain ⟨-, n, -, hcases⟩ := loadCASE_returned hrun
      rcases hcases with ⟨-, hrc, -⟩ | ⟨sIn, rc', hopen, hrc, hlines⟩
      · cases hrc
      · exact ⟨sIn, hopen, (expands_of_whole ((h sIn hopen).2 hrc.symm) sIn.whole (.inl rfl)
          hlines).1⟩
    have hopened : ∀ fuel aData, loadCASE w disk fuel aIn [] = some (.returned true aData) →
        ∀ name, Named w disk aIn name → (disk.fopen (disk.path name)).isSome := by
      intro fuel aData hrun name hname
      obtain ⟨sIn, hopen, hexpands⟩ := hexpanded fuel aData hrun
      obtain ⟨sIn', -, -, hsome, -⟩ := opened_of_expands hopen hexpands hname
      rw [hsome]
      rfl
    refine ⟨?_, hopened, hexpanded, fun fuel rc aData name hname hnone hrun => ?_⟩
    · cases hopen : disk.fopen (disk.path aIn) with
      | none =>
        refine ⟨1, false, [], ?_⟩
        rw [loadCASE, if_neg (not_le.mpr hpath), hopen]
      | some sIn =>
        obtain ⟨fuel, aData, hlines⟩ := loadLines_of_ends (h sIn hopen).1 []
        refine ⟨fuel + 1, sIn.closes, aData, ?_⟩
        rw [loadCASE, if_neg (not_le.mpr hpath), hopen]
        dsimp only
        rw [hlines]
    · cases rc with
      | false => rfl
      | true =>
        have hsome := hopened fuel aData hrun name hname
        rw [hnone] at hsome
        cases hsome

/-- A script with one LOAD_SQL line. -/
def loadsOther : File where
  lines := [⟨"--+LOAD_SQL b\n".toList, by decide +kernel, by decide +kernel⟩]
  whole := List.forall_mem_singleton.mpr (by decide +kernel)
  closes := true

/-- The file that it names is not there. -/
def missingFile : Disk where
  dir := ['t']
  fopen path := if path = ['t', '/', 'a'] then some loadsOther else none

/-- The missing file goes unnoticed. -/
theorem not_loadsAll_missing : ¬ ∀ (w : StafWords) (disk : Disk) (aIn : Text),
    LoadsAll w disk aIn := by
  intro h
  have hload := h asciiWords missingFile ['a']
  obtain ⟨fuel, rc, aData, hrun⟩ := hload.returns
  have hopen : missingFile.fopen (missingFile.path ['a']) = some loadsOther := by
    dsimp only [missingFile, Disk.path]
    exact if_pos rfl
  have hmissing : missingFile.fopen (missingFile.path ['b']) = none := by
    dsimp only [missingFile, Disk.path]
    exact if_neg (by decide)
  have hrc : rc = true := by
    obtain ⟨-, n, -, hcases⟩ := loadCASE_returned hrun
    rcases hcases with ⟨hnone, -, -⟩ | ⟨sIn, rc', hsome, hrc, -⟩
    · rw [hopen] at hnone
      cases hnone
    · rw [hopen] at hsome
      cases hsome
      exact hrc
  have hname : Line.loadName asciiWords
      ⟨"--+LOAD_SQL b\n".toList, by decide +kernel, by decide +kernel⟩ = ['b'] := by
    decide +kernel
  have hnamed := @Named.load asciiWords _ _ _ _ _ .top hopen List.mem_cons_self (by decide +kernel)
  rw [hname] at hnamed
  have hfalse := hload.missing fuel rc aData ['b'] hnamed hmissing hrun
  rw [hrc] at hfalse
  cases hfalse

end Natc.Ats.LoadSql
