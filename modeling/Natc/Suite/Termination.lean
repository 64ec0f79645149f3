import Mathlib.Data.Fintype.Card
import Mathlib.Data.Set.Finite.List
import Natc.Lib.Descent
import Natc.Suite.CaseManager

/-!
# When the loading of a suite returns

Nothing keeps a suite from including itself. The loading returns if and only if no suite that it
reaches does, and all names fit their buffers.
-/

namespace Natc.Suite

open Lib Relation

/-- What the load makes of a line that names a case; `isSuite` tells whether it reads the case. -/
structure Hop where
  path : Text
  disabled : Bool
  isSuite : Bool
  deriving DecidableEq, Repr

/-- The case that a line of a file names. -/
def lineHop (aFileName sBuffer : Text) : Option Hop :=
  match scanLine sBuffer with
  | none => none
  | some line =>
      let sTmp := dirOf aFileName ++ line.sLine
      if line.sLine = [] ∨ strstr line.sLine "TestSuiteDescription".toList ∨
          !strstr line.sLine ['.'] then none
      else
        (getcasetype sTmp).map fun _ =>
          ⟨sTmp, line.disabled, strstr line.sLine ".ts".toList || strstr line.sLine ".tl".toList⟩

/-- The mark of the case, under a suite of mark `aMark`. -/
def Hop.mark (ctx : Context) (aMark : CaseMark) (hop : Hop) : CaseMark :=
  if ctx.listed hop.path then .RUNSKIP else if hop.disabled then .NOTRUNABLE else aMark

/-- The scan of a line stays in its buffer, and so does the name of its case. -/
def LineFits (aFileName sBuffer : Text) : Prop :=
  ∃ line, scanLine sBuffer = some line ∧
    (line.sLine ≠ [] → (dirOf aFileName ++ line.sLine).length < LINE_BUFFER)

section Line

variable (ctx : Context) (load : Text → Nat → CaseMark → CaseManager → Except LoadFault CaseManager)
  {aFileName sBuffer : Text} (aCurDepth : Nat) (aMark : CaseMark) (lines : List Text)

theorem choosePlatform_mCaseList (m : CaseManager) (l : Locals) :
    (choosePlatform aCurDepth m l).1.mCaseList = m.mCaseList := by
  unfold choosePlatform
  dsimp only
  split_ifs <;> rfl

theorem choosePlatform_caseMark (m : CaseManager) (l : Locals) :
    (choosePlatform aCurDepth m l).2.caseMark = l.mCaseInfo.caseMark := by
  unfold choosePlatform
  dsimp only
  split_ifs <;> rfl

/-- Nothing but a platform, a comment or a description stands in a line. -/
def Line.HoldsNothing (line : Line) : Prop :=
  line.sLine = [] ∨ strstr line.sLine "TestSuiteDescription".toList = true

/-- What the load does with a line that names no case. -/
theorem loadLines_pass_cases (hfits : LineFits aFileName sBuffer)
    (hhop : lineHop aFileName sBuffer = none) (l : Locals) (m : CaseManager) :
    ∃ line, scanLine sBuffer = some line ∧
      (line.HoldsNothing ∧ loadLines ctx load aFileName aCurDepth aMark (sBuffer :: lines) l m =
          loadLines ctx load aFileName aCurDepth aMark lines (l.scanned aMark line) m ∨
        ¬line.HoldsNothing ∧ strstr line.sLine ['.'] = false ∧
          loadLines ctx load aFileName aCurDepth aMark (sBuffer :: lines) l m =
            loadLines ctx load aFileName aCurDepth aMark lines
              { l.scanned aMark line with sPlatformName := [] } m ∨
        ¬line.HoldsNothing ∧ strstr line.sLine ['.'] = true ∧
          loadLines ctx load aFileName aCurDepth aMark (sBuffer :: lines) l m =
            loadLines ctx load aFileName aCurDepth aMark lines
              { l.scanned aMark line with
                mCaseInfo := (choosePlatform aCurDepth m (l.scanned aMark line)).2 }
              (choosePlatform aCurDepth m (l.scanned aMark line)).1) := by
  obtain ⟨line, hscan, hroom⟩ := hfits
  simp only [lineHop, hscan] at hhop
  refine ⟨line, hscan, ?_⟩
  rw [loadLines, hscan]
  dsimp only
  by_cases hempty : line.sLine = []
  · rw [if_pos hempty]
    exact Or.inl ⟨Or.inl hempty, rfl⟩
  · have hlength := Nat.not_le.mpr (hroom hempty)
    rw [if_neg hempty, if_neg hlength]
    by_cases hdesc : strstr line.sLine "TestSuiteDescription".toList
    · rw [if_pos hdesc]
      exact Or.inl ⟨Or.inr hdesc, rfl⟩
    · have hholds : ¬line.HoldsNothing := not_or.mpr ⟨hempty, hdesc⟩
      rw [if_neg hdesc]
      by_cases hdot : !strstr line.sLine ['.']
      · rw [if_pos hdot]
        exact Or.inr (Or.inl ⟨hholds, Bool.not_eq_true _ ▸ (by simpa using hdot), rfl⟩)
      · rw [if_neg hdot]
        rw [if_neg (not_or.mpr ⟨hempty, not_or.mpr ⟨hdesc, hdot⟩⟩), Option.map_eq_none_iff] at hhop
        rw [hhop]
        exact Or.inr (Or.inr ⟨hholds, by simpa using hdot, rfl⟩)

/-- A line that names no case leaves the list as it is. -/
theorem loadLines_pass (hfits : LineFits aFileName sBuffer)
    (hhop : lineHop aFileName sBuffer = none) (l : Locals) (m : CaseManager) :
    ∃ l' m', m'.mCaseList = m.mCaseList ∧
      loadLines ctx load aFileName aCurDepth aMark (sBuffer :: lines) l m =
        loadLines ctx load aFileName aCurDepth aMark lines l' m' := by
  obtain ⟨line, _, hcases⟩ := loadLines_pass_cases ctx load aCurDepth aMark lines hfits hhop l m
  rcases hcases with ⟨_, heq⟩ | ⟨_, _, heq⟩ | ⟨_, _, heq⟩
  · exact ⟨_, m, rfl, heq⟩
  · exact ⟨_, m, rfl, heq⟩
  · exact ⟨_, _, choosePlatform_mCaseList aCurDepth m _, heq⟩

/-- The case that the load puts on the list for a line. -/
def chosenCase (aFileName : Text) (line : Line) (path : Text) (sCaseType : CaseType)
    (l : Locals) (m : CaseManager) : CaseInfo :=
  lineCase ctx aFileName line path sCaseType (choosePlatform aCurDepth m (l.scanned aMark line)).2

/-- The manager with this case on its list. -/
def chosenManager (line : Line) (info : CaseInfo) (l : Locals) (m : CaseManager) : CaseManager :=
  { (choosePlatform aCurDepth m (l.scanned aMark line)).1 with
    mCaseList := (choosePlatform aCurDepth m (l.scanned aMark line)).1.mCaseList ++ [info] }

/-- What the load does with a line that names a case. -/
theorem loadLines_hop_eq (hfits : LineFits aFileName sBuffer) {hop : Hop}
    (hhop : lineHop aFileName sBuffer = some hop) (l : Locals) (m : CaseManager) :
    ∃ line sCaseType info, scanLine sBuffer = some line ∧ hop.disabled = line.disabled ∧
      info = chosenCase ctx aCurDepth aMark aFileName line hop.path sCaseType l m ∧
      loadLines ctx load aFileName aCurDepth aMark (sBuffer :: lines) l m =
        (if hop.isSuite then
          load hop.path (aCurDepth + 1) info.caseMark (chosenManager aCurDepth aMark line info l m)
        else .ok (chosenManager aCurDepth aMark line info l m)).bind
          (loadLines ctx load aFileName aCurDepth aMark lines
            ⟨[], (l.scanned aMark line).sFlag, info⟩) := by
  obtain ⟨line, hscan, hroom⟩ := hfits
  simp only [lineHop, hscan] at hhop
  split at hhop
  · cases hhop
  · rename_i hnames
    obtain ⟨hempty, hrest⟩ := not_or.mp hnames
    obtain ⟨hdesc, hdot⟩ := not_or.mp hrest
    obtain ⟨sCaseType, htype, rfl⟩ := Option.map_eq_some_iff.mp hhop
    have hlength := Nat.not_le.mpr (hroom hempty)
    refine ⟨line, sCaseType, _, hscan, rfl, rfl, ?_⟩
    rw [loadLines, hscan]
    dsimp only
    rw [if_neg hempty, if_neg hlength, if_neg hdesc, if_neg hdot, htype]
    dsimp only [chosenManager, chosenCase]
    split
    · cases load (dirOf aFileName ++ line.sLine) (aCurDepth + 1) _ _ <;> rfl
    · rfl

/-- A line that names a case puts it on the list, and the load goes on with its file. -/
theorem loadLines_hop (hfits : LineFits aFileName sBuffer) {hop : Hop}
    (hhop : lineHop aFileName sBuffer = some hop) (l : Locals) (m : CaseManager) :
    ∃ l' m' info, m'.mCaseList = m.mCaseList ++ [info] ∧ info.caseName = hop.path ∧
      info.caseMark = hop.mark ctx aMark ∧
      loadLines ctx load aFileName aCurDepth aMark (sBuffer :: lines) l m =
        (if hop.isSuite then load hop.path (aCurDepth + 1) info.caseMark m' else .ok m').bind
          (loadLines ctx load aFileName aCurDepth aMark lines l') := by
  obtain ⟨line, sCaseType, info, _, hdisabled, hinfo, heq⟩ :=
    loadLines_hop_eq ctx load aCurDepth aMark lines hfits hhop l m
  refine ⟨_, _, info, ?_, by rw [hinfo]; rfl, ?_, heq⟩
  · exact congrArg (· ++ [info]) (choosePlatform_mCaseList aCurDepth m _)
  · have hmark : (choosePlatform aCurDepth m (l.scanned aMark line)).2.caseMark =
        if line.disabled then .NOTRUNABLE else aMark := choosePlatform_caseMark aCurDepth m _
    simp only [hinfo, chosenCase, lineCase, Hop.mark, hmark, hdisabled]

theorem loadLines_overflow (hfits : ¬ LineFits aFileName sBuffer) (l : Locals) (m : CaseManager) :
    loadLines ctx load aFileName aCurDepth aMark (sBuffer :: lines) l m = .error .overflow := by
  rw [loadLines]
  cases hscan : scanLine sBuffer with
  | none => rfl
  | some line =>
    have hroom : line.sLine ≠ [] ∧ LINE_BUFFER ≤ (dirOf aFileName ++ line.sLine).length := by
      by_contra hnot
      apply hfits
      refine ⟨line, hscan, ?_⟩
      intro hne
      exact Nat.lt_of_not_le fun hle => hnot ⟨hne, hle⟩
    dsimp only
    rw [if_neg hroom.1, if_pos hroom.2]

end Line

section Returns

variable (ctx : Context)

/-- A line of a file names a case. -/
def Names (aFileName : Text) (hop : Hop) : Prop :=
  ∃ content, ctx.fopen aFileName = some content ∧ ∃ sBuffer ∈ fileLines content,
    lineHop aFileName sBuffer = some hop

/-- A file includes the suites that it names. -/
def Includes (aFileName path : Text) : Prop :=
  ∃ hop, Names ctx aFileName hop ∧ hop.isSuite ∧ hop.path = path

/-- The name of a file and all its lines fit the buffers. -/
def FileFits (aFileName : Text) : Prop :=
  aFileName.length < LINE_BUFFER ∧
    ∀ content, ctx.fopen aFileName = some content → ∀ sBuffer ∈ fileLines content,
      LineFits aFileName sBuffer

def Returns (result : Except LoadFault CaseManager) : Prop := ∃ m, result = .ok m

variable {ctx}

private theorem returns_bind {result : Except LoadFault CaseManager}
    {next : CaseManager → Except LoadFault CaseManager} {P : Prop}
    (hnext : ∀ m, Returns (next m) ↔ P) : Returns (result.bind next) ↔ Returns result ∧ P := by
  cases result with
  | error fault => simp [Returns, Except.bind]
  | ok m =>
    have h := hnext m
    simpa [Returns, Except.bind] using h

private theorem returns_loadLines {load : Text → Nat → CaseMark → CaseManager →
    Except LoadFault CaseManager} {aFileName : Text} {aCurDepth : Nat} {aMark : CaseMark}
    {H : Text → Prop}
    (hload : ∀ path mark m, Returns (load path (aCurDepth + 1) mark m) ↔ H path)
    (lines : List Text) (l : Locals) (m : CaseManager) :
    Returns (loadLines ctx load aFileName aCurDepth aMark lines l m) ↔
      ∀ sBuffer ∈ lines, LineFits aFileName sBuffer ∧
        ∀ hop, lineHop aFileName sBuffer = some hop → hop.isSuite → H hop.path := by
  induction lines generalizing l m with
  | nil => simp [loadLines, Returns]
  | cons sBuffer lines ih =>
    rw [List.forall_mem_cons]
    by_cases hfits : LineFits aFileName sBuffer
    · rw [and_iff_right hfits]
      cases hhop : lineHop aFileName sBuffer with
      | none =>
        obtain ⟨l', m', _, heq⟩ :=
          loadLines_pass ctx load aCurDepth aMark lines hfits hhop l m
        rw [heq, ih]
        simp
      | some hop =>
        obtain ⟨l', m', info, _, _, _, heq⟩ :=
          loadLines_hop ctx load aCurDepth aMark lines hfits hhop l m
        rw [heq, returns_bind (ih l')]
        apply and_congr_left
        intro _
        cases hsuite : hop.isSuite with
        | false => simp [hsuite, Returns]
        | true => simp [hsuite, hload]
    · rw [loadLines_overflow ctx load aCurDepth aMark lines hfits]
      simp [hfits, Returns]

private theorem lines_within_iff {aFileName content : Text} {n : Nat}
    (hopen : ctx.fopen aFileName = some content) :
    (∀ sBuffer ∈ fileLines content, LineFits aFileName sBuffer ∧
      ∀ hop, lineHop aFileName sBuffer = some hop → hop.isSuite →
        Within (Includes ctx) (FileFits ctx) n hop.path) ↔
      (∀ content, ctx.fopen aFileName = some content → ∀ sBuffer ∈ fileLines content,
        LineFits aFileName sBuffer) ∧
      ∀ path, Includes ctx aFileName path → Within (Includes ctx) (FileFits ctx) n path := by
  constructor
  · intro h
    constructor
    · intro content' hopen' sBuffer hline
      obtain rfl : content = content' := Option.some.inj (hopen.symm.trans hopen')
      exact (h sBuffer hline).1
    · rintro path ⟨hop, ⟨content', hopen', sBuffer, hline, hhop⟩, hsuite, rfl⟩
      obtain rfl : content = content' := Option.some.inj (hopen.symm.trans hopen')
      exact (h sBuffer hline).2 hop hhop hsuite
  · intro h sBuffer hline
    refine ⟨h.1 content hopen sBuffer hline, ?_⟩
    intro hop hhop hsuite
    exact h.2 hop.path ⟨hop, ⟨content, hopen, sBuffer, hline, hhop⟩, hsuite, rfl⟩

private theorem returns_load_iff (n : Nat) (aFileName : Text) (aCurDepth : Nat) (aMark : CaseMark)
    (m : CaseManager) :
    Returns (load ctx n aFileName (aCurDepth + 1) aMark m) ↔
      Within (Includes ctx) (FileFits ctx) n aFileName := by
  induction n generalizing aFileName aCurDepth aMark m with
  | zero => simp [load, Returns, Within]
  | succ n ih =>
    rw [load, Within, FileFits]
    by_cases hname : LINE_BUFFER ≤ aFileName.length
    · rw [if_pos hname]
      simp [Returns, Nat.not_lt.mpr hname]
    · rw [if_neg hname, if_neg (Nat.succ_ne_zero aCurDepth), and_iff_right (Nat.lt_of_not_le hname)]
      cases hopen : ctx.fopen aFileName with
      | none => simp [Returns, Includes, Names, hopen]
      | some content =>
        have hrec : ∀ path mark m, Returns (load ctx n path (aCurDepth + 1 + 1) mark m) ↔
            Within (Includes ctx) (FileFits ctx) n path :=
          fun path mark m => ih path (aCurDepth + 1) mark m
        have hlines := lines_within_iff (n := n) hopen
        simp only [hopen] at hlines
        exact (returns_loadLines hrec _ _ m).trans hlines

/-- The files that the load of a suite reads. -/
def IsSuite (aFileName : Text) : Prop :=
  getcasetype aFileName = some .TS ∨ getcasetype aFileName = some .TL

theorem returns_root_iff (n : Nat) (aFileName : Text) (aMark : CaseMark)
    (m : CaseManager) :
    Returns (load ctx (n + 1) aFileName 0 aMark m) ↔ aFileName.length < LINE_BUFFER ∧
      (IsSuite aFileName → Within (Includes ctx) (FileFits ctx) (n + 1) aFileName) := by
  rw [load, Within, FileFits]
  by_cases hname : LINE_BUFFER ≤ aFileName.length
  · rw [if_pos hname]
    simp [Returns, Nat.not_lt.mpr hname]
  · rw [if_neg hname, if_pos rfl, and_iff_right (Nat.lt_of_not_le hname),
      and_iff_right (Nat.lt_of_not_le hname), IsSuite]
    cases htype : getcasetype aFileName with
    | none => simp [Returns]
    | some sCaseType =>
      dsimp only
      by_cases hcase : sCaseType = .SQL ∨ sCaseType = .XML
      · rw [if_pos hcase]
        rcases hcase with rfl | rfl <;> simp [Returns]
      · have hsuite : some sCaseType = some .TS ∨ some sCaseType = some .TL := by
          cases sCaseType <;> simp at hcase ⊢
        rw [if_neg hcase, forall_prop_of_true hsuite]
        cases hopen : ctx.fopen aFileName with
        | none => simp [Returns, Includes, Names, hopen]
        | some content =>
          have hrec : ∀ path mark m, Returns (load ctx n path (0 + 1) mark m) ↔
              Within (Includes ctx) (FileFits ctx) n path :=
            fun path mark m => returns_load_iff n path 0 mark m
          have hlines := lines_within_iff (n := n) hopen
          simp only [hopen] at hlines
          exact (returns_loadLines hrec _ _ _).trans hlines

private theorem finite_includes (ctx : Context) (aFileName : Text) :
    {path | Includes ctx aFileName path}.Finite := by
  cases hopen : ctx.fopen aFileName with
  | none => simp [Includes, Names, hopen]
  | some content =>
    apply ((fileLines content).finite_toSet.image
      fun sBuffer => ((lineHop aFileName sBuffer).map Hop.path).getD []).subset
    rintro path ⟨hop, ⟨content', hopen', sBuffer, hline, hhop⟩, _, rfl⟩
    obtain rfl : content = content' := Option.some.inj (hopen.symm.trans hopen')
    exact ⟨sBuffer, hline, by simp [hhop]⟩

private theorem finite_char : Finite Char := by
  apply Finite.of_injective fun c : Char => (⟨c.toNat, c.val.toNat_lt⟩ : Fin (2 ^ 32))
  intro c d h
  exact Char.toNat_inj.mp (Fin.val_eq_of_eq h)

private theorem finite_fits (ctx : Context) : {aFileName | FileFits ctx aFileName}.Finite := by
  have := finite_char
  exact (List.finite_length_lt Char LINE_BUFFER).subset fun _ h => h.1

theorem not_cycle_of_returns {n : Nat} {aFileName : Text} {aMark : CaseMark} {m : CaseManager}
    (h : Returns (load ctx n aFileName 0 aMark m)) (hsuite : IsSuite aFileName) :
    ¬ TransGen (Includes ctx) aFileName aFileName := by
  cases n with
  | zero => simp [load, Returns] at h
  | succ n => exact not_cycle_of_acc (((returns_root_iff n aFileName aMark m).mp h).2 hsuite).acc

end Returns

section Cycle

/-- One suite file, which has its own name on its only line. -/
def selfIncluding : Context where
  staf := .ascii
  sEnvCASE := "TC".toList
  sEnvCASE_USER := "TC".toList
  fopen path := if path = "a.ts".toList then some "a.ts\n".toList else none
  aSkipMap := []
  uninitialised := ⟨[], 0, [], [], none, .RUNABLE, []⟩

def emptyManager : CaseManager := ⟨[], [], 0, 0⟩

end Cycle

end Natc.Suite
