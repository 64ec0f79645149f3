import Mathlib.Data.List.Forall2
import Natc.Suite.Termination

/-!
# The marks of the cases of a suite

A case is reached through the lines of suites, one in the other. Its mark in the list follows from
the marks of these lines; that of the suite the load begins with is not passed on.
-/

namespace Natc.Suite

open Lib

/-- The lines through which a case is reached from a file, the line of the case last. -/
inductive Reached (ctx : Context) : Text → List Hop → Prop where
  | case {aFileName : Text} {hop : Hop} : Names ctx aFileName hop → Reached ctx aFileName [hop]
  | through {aFileName : Text} {hop : Hop} {chain : List Hop} : Names ctx aFileName hop →
      hop.isSuite → Reached ctx hop.path chain → Reached ctx aFileName (hop :: chain)

/-- The name of the case that a chain of lines ends in. -/
def chainPath (aFileName : Text) (chain : List Hop) : Text :=
  (chain.getLast?.map Hop.path).getD aFileName

/-- A line that is disabled, or whose case is listed. -/
def Hop.marked (ctx : Context) (hop : Hop) : Bool := hop.disabled || ctx.listed hop.path

/-- The cases of a line, for the cases of its file. -/
def lineCases (sub : Text → List (List Hop)) (aFileName sBuffer : Text) : List (List Hop) :=
  match lineHop aFileName sBuffer with
  | none => []
  | some hop => [hop] :: (if hop.isSuite then (sub hop.path).map (hop :: ·) else [])

/-- The cases of a file in the order of the load, each by its chain. -/
def fileCases (ctx : Context) : Nat → Text → List (List Hop)
  | 0, _ => []
  | n + 1, aFileName =>
      match ctx.fopen aFileName with
      | none => []
      | some content => (fileLines content).flatMap (lineCases (fileCases ctx n) aFileName)

/-- An entry of the list carries the name and the mark of its chain. -/
def Placed (ctx : Context) (aFileName : Text) (aMark : CaseMark) (chain : List Hop)
    (info : CaseInfo) : Prop :=
  info.caseName = chainPath aFileName chain ∧
    info.caseMark = chain.foldl (fun mark hop => hop.mark ctx mark) aMark

section Placed

variable {ctx : Context} {load : Text → Nat → CaseMark → CaseManager → Except LoadFault CaseManager}
  {sub : Text → List (List Hop)} {aFileName : Text} {aCurDepth : Nat} {aMark : CaseMark}

theorem chainPath_cons (hop : Hop) (chain : List Hop) :
    chainPath aFileName (hop :: chain) = chainPath hop.path chain := by
  unfold chainPath
  rw [List.getLast?_cons]
  cases chain.getLast? <;> rfl

private theorem placed_cons {hop : Hop} {chain : List Hop} {info : CaseInfo}
    (h : Placed ctx hop.path (hop.mark ctx aMark) chain info) :
    Placed ctx aFileName aMark (hop :: chain) info := by
  refine ⟨?_, h.2⟩
  rw [chainPath_cons]
  exact h.1

/-- A load that places the cases of each file in the list. -/
def Places (ctx : Context)
    (load : Text → Nat → CaseMark → CaseManager → Except LoadFault CaseManager)
    (sub : Text → List (List Hop)) (aCurDepth : Nat) : Prop :=
  ∀ path mark m m', load path aCurDepth mark m = .ok m' →
    ∃ infos, m'.mCaseList = m.mCaseList ++ infos ∧ List.Forall₂ (Placed ctx path mark) (sub path) infos

theorem ok_of_bind {result : Except LoadFault CaseManager}
    {next : CaseManager → Except LoadFault CaseManager} {m' : CaseManager}
    (h : result.bind next = .ok m') : ∃ m, result = .ok m ∧ next m = .ok m' := by
  cases result with
  | error fault => cases h
  | ok m => exact ⟨m, rfl, h⟩

/-- The cases of the file of a line, where it is read. -/
private theorem placed_below (hload : Places ctx load sub (aCurDepth + 1)) {hop : Hop}
    {mark : CaseMark} (hmark : mark = hop.mark ctx aMark) {m m' : CaseManager}
    (h : (if hop.isSuite then load hop.path (aCurDepth + 1) mark m else .ok m) = .ok m') :
    ∃ below, m'.mCaseList = m.mCaseList ++ below ∧ List.Forall₂ (Placed ctx aFileName aMark)
      (if hop.isSuite then (sub hop.path).map (hop :: ·) else []) below := by
  cases hsuite : hop.isSuite with
  | false =>
    rw [hsuite] at h
    cases h
    exact ⟨[], by simp, by simp⟩
  | true =>
    rw [hsuite, if_pos rfl] at h
    obtain ⟨below, hbelow, hplaced⟩ := hload _ _ _ _ h
    refine ⟨below, hbelow, ?_⟩
    rw [if_pos rfl, List.forall₂_map_left_iff]
    rw [hmark] at hplaced
    exact hplaced.imp fun _ _ => placed_cons

private theorem placed_loadLines (hload : Places ctx load sub (aCurDepth + 1)) (lines : List Text)
    (l : Locals) (m m' : CaseManager)
    (h : loadLines ctx load aFileName aCurDepth aMark lines l m = .ok m') :
    ∃ infos, m'.mCaseList = m.mCaseList ++ infos ∧
      List.Forall₂ (Placed ctx aFileName aMark) (lines.flatMap (lineCases sub aFileName)) infos := by
  induction lines generalizing l m with
  | nil =>
    cases h
    exact ⟨[], by simp, by simp⟩
  | cons sBuffer lines ih =>
    by_cases hfits : LineFits aFileName sBuffer
    · rw [List.flatMap_cons, lineCases]
      cases hhop : lineHop aFileName sBuffer with
      | none =>
        obtain ⟨l', m₁, hlist, heq⟩ := loadLines_pass ctx load aCurDepth aMark lines hfits hhop l m
        rw [heq] at h
        have hrest := ih l' m₁ h
        rwa [hlist] at hrest
      | some hop =>
        obtain ⟨l', m₁, info, hlist, hname, hmark, heq⟩ :=
          loadLines_hop ctx load aCurDepth aMark lines hfits hhop l m
        rw [heq] at h
        obtain ⟨m₂, hdeep, hrest⟩ := ok_of_bind h
        obtain ⟨infos, hinfos, hplaced⟩ := ih l' m₂ hrest
        obtain ⟨below, hbelow, hsub⟩ := placed_below hload hmark hdeep
        refine ⟨info :: (below ++ infos), by simp [hinfos, hbelow, hlist], ?_⟩
        have hself : Placed ctx aFileName aMark [hop] info := ⟨hname, hmark⟩
        exact .cons hself (List.rel_append hsub hplaced)
    · rw [loadLines_overflow ctx load aCurDepth aMark lines hfits] at h
      cases h

private theorem places_load (n : Nat) (aCurDepth : Nat) :
    Places ctx (Suite.load ctx n) (fileCases ctx n) (aCurDepth + 1) := by
  induction n generalizing aCurDepth with
  | zero =>
    intro path mark m m' h
    cases h
  | succ n ih =>
    intro path mark m m' h
    rw [Suite.load] at h
    rw [fileCases]
    split at h
    · cases h
    · rw [if_neg (Nat.succ_ne_zero aCurDepth)] at h
      cases hopen : ctx.fopen path with
      | none =>
        rw [hopen] at h
        cases h
        exact ⟨[], by simp, by simp⟩
      | some content =>
        rw [hopen] at h
        exact placed_loadLines (ih (aCurDepth + 1)) _ _ _ _ h

end Placed

section Chains

variable {ctx : Context}

theorem reached_of_mem_fileCases (n : Nat) (aFileName : Text) (chain : List Hop)
    (h : chain ∈ fileCases ctx n aFileName) : Reached ctx aFileName chain := by
  induction n generalizing aFileName chain with
  | zero => cases h
  | succ n ih =>
    rw [fileCases] at h
    cases hopen : ctx.fopen aFileName with
    | none => simp [hopen] at h
    | some content =>
      simp only [hopen] at h
      obtain ⟨sBuffer, hline, hchain⟩ := List.mem_flatMap.mp h
      rw [lineCases] at hchain
      cases hhop : lineHop aFileName sBuffer with
      | none => simp [hhop] at hchain
      | some hop =>
        have hnames : Names ctx aFileName hop := ⟨content, hopen, sBuffer, hline, hhop⟩
        simp only [hhop] at hchain
        rcases List.mem_cons.mp hchain with rfl | hchain
        · exact .case hnames
        · cases hsuite : hop.isSuite with
          | false => simp [hsuite] at hchain
          | true =>
            rw [hsuite, if_pos rfl] at hchain
            obtain ⟨deeper, hdeeper, rfl⟩ := List.mem_map.mp hchain
            exact .through hnames hsuite (ih hop.path deeper hdeeper)

/-- A line of the file contributes its cases. -/
private theorem mem_fileCases_of_names {n : Nat} {aFileName : Text} {hop : Hop} {chain : List Hop}
    (hnames : Names ctx aFileName hop)
    (hchain : chain = [hop] ∨ hop.isSuite ∧ ∃ deeper ∈ fileCases ctx n hop.path,
      chain = hop :: deeper) : chain ∈ fileCases ctx (n + 1) aFileName := by
  obtain ⟨content, hopen, sBuffer, hline, hhop⟩ := hnames
  rw [fileCases, hopen]
  apply List.mem_flatMap.mpr
  refine ⟨sBuffer, hline, ?_⟩
  rw [lineCases, hhop]
  rcases hchain with rfl | ⟨hsuite, deeper, hdeeper, rfl⟩
  · exact List.mem_cons_self
  · apply List.mem_cons_of_mem
    rw [hsuite, if_pos rfl]
    exact List.mem_map_of_mem hdeeper

theorem mem_fileCases_of_reached {n : Nat} {aFileName : Text} {chain : List Hop}
    (h : Reached ctx aFileName chain)
    (hwithin : Within (Includes ctx) (FileFits ctx) n aFileName) :
    chain ∈ fileCases ctx n aFileName := by
  induction h generalizing n with
  | case hnames =>
    cases n with
    | zero => exact hwithin.elim
    | succ n => exact mem_fileCases_of_names hnames (.inl rfl)
  | through hnames hsuite _ ih =>
    cases n with
    | zero => exact hwithin.elim
    | succ n =>
      have hdeeper := ih (hwithin.2 _ ⟨_, hnames, hsuite, rfl⟩)
      exact mem_fileCases_of_names hnames (.inr ⟨hsuite, _, hdeeper, rfl⟩)

end Chains

section Runnable

variable {ctx : Context}

/-- What `runnable` makes of a case by its platform alone. -/
def onPlatform (contains : Text → Bool) (aIn : CaseInfo) : Bool :=
  runnable contains { aIn with caseMark := .RUNABLE }

theorem runnable_eq (contains : Text → Bool) (aIn : CaseInfo) :
    runnable contains aIn = (aIn.caseMark = .RUNABLE && onPlatform contains aIn) := by
  cases h : aIn.caseMark <;> simp [runnable, onPlatform, h]

/-- Some machine has the platform of a case. -/
theorem exists_onPlatform (aIn : CaseInfo) : ∃ contains, onPlatform contains aIn := by
  by_cases hflag : aIn.caseFlag = PLAT_ON
  · exact ⟨fun _ => false, by simp [onPlatform, runnable, hflag]⟩
  · exact ⟨fun _ => true, by simp [onPlatform, runnable, hflag]⟩

private theorem mark_eq_runable_iff (aMark : CaseMark) (hop : Hop) :
    hop.mark ctx aMark = .RUNABLE ↔ aMark = .RUNABLE ∧ ¬ hop.marked ctx := by
  unfold Hop.mark Hop.marked
  cases ctx.listed hop.path <;> cases hop.disabled <;> simp

theorem foldl_mark_eq_runable_iff (chain : List Hop) (aMark : CaseMark) :
    chain.foldl (fun mark hop => hop.mark ctx mark) aMark = .RUNABLE ↔
      aMark = .RUNABLE ∧ ∀ hop ∈ chain, ¬ hop.marked ctx := by
  induction chain generalizing aMark with
  | nil => simp
  | cons hop chain ih =>
    rw [List.foldl_cons, ih, mark_eq_runable_iff, List.forall_mem_cons, and_assoc]

end Runnable

section Skips

variable (ctx : Context)

/-- The chains of the cases that the load of a file has to put on the list. The empty one is the
file itself. -/
def Loaded (aFileName : Text) (chain : List Hop) : Prop :=
  getcasetype aFileName ≠ none ∧
    (chain = [] ∨ IsSuite aFileName ∧ Reached ctx aFileName chain)

/-- A case is not runnable below a marked line or a listed file, and else runnable on its
platform. -/
def Propagated (contains : Text → Bool) (aFileName : Text) (chain : List Hop)
    (info : CaseInfo) : Prop :=
  info.caseName = chainPath aFileName chain ∧
    if ctx.listed aFileName ∨ ∃ hop ∈ chain, hop.marked ctx then runnable contains info = false
    else runnable contains info = onPlatform contains info

/-- The entries are those of the cases loaded, each as its chain wants it. -/
def SkipsPropagate (aFileName : Text) (infos : List CaseInfo) : Prop :=
  ∃ chains : List (List Hop), (∀ chain, chain ∈ chains ↔ Loaded ctx aFileName chain) ∧
    ∀ contains, List.Forall₂ (Propagated ctx contains aFileName) chains infos

variable {ctx}

private theorem load_root {n : Nat} {aFileName : Text} {aMark : CaseMark} {m m' : CaseManager}
    (h : load ctx n aFileName 0 aMark m = .ok m') :
    getcasetype aFileName = none ∧ m'.mCaseList = m.mCaseList ∨
      ∃ sCaseType chains infos, getcasetype aFileName = some sCaseType ∧
        m'.mCaseList = m.mCaseList ++ rootCase ctx aFileName sCaseType aMark :: infos ∧
        (∀ chain, chain ∈ chains ↔ IsSuite aFileName ∧ Reached ctx aFileName chain) ∧
        List.Forall₂ (Placed ctx aFileName aMark) chains infos := by
  cases n with
  | zero => cases h
  | succ n =>
    have hwithin := ((returns_root_iff n aFileName aMark m).mp ⟨m', h⟩).2
    rw [load] at h
    split at h
    · cases h
    · rw [if_pos rfl] at h
      cases htype : getcasetype aFileName with
      | none =>
        rw [htype] at h
        cases h
        exact .inl ⟨rfl, rfl⟩
      | some sCaseType =>
        rw [htype] at h
        dsimp only at h
        by_cases hcase : sCaseType = .SQL ∨ sCaseType = .XML
        · have hfile : ¬ IsSuite aFileName := by
            rw [IsSuite, htype]
            rcases hcase with rfl | rfl <;> simp
          rw [if_pos hcase] at h
          cases h
          exact .inr ⟨sCaseType, [], [], rfl, rfl, by simp [hfile], by simp⟩
        · have hsuite : IsSuite aFileName := by
            rw [IsSuite, htype]
            cases sCaseType <;> simp at hcase ⊢
          have hmem : ∀ chain, chain ∈ fileCases ctx (n + 1) aFileName ↔
              IsSuite aFileName ∧ Reached ctx aFileName chain := by
            intro chain
            rw [and_iff_right hsuite]
            exact ⟨reached_of_mem_fileCases (n + 1) aFileName chain,
              fun hreach => mem_fileCases_of_reached hreach (hwithin hsuite)⟩
          rw [if_neg hcase] at h
          rw [fileCases] at hmem
          cases hopen : ctx.fopen aFileName with
          | none =>
            rw [hopen] at h hmem
            cases h
            exact .inr ⟨sCaseType, [], [], rfl, rfl, hmem, by simp⟩
          | some content =>
            rw [hopen] at h hmem
            obtain ⟨infos, hlist, hplaced⟩ := placed_loadLines (places_load n 0) _ _ _ _ h
            exact .inr ⟨sCaseType, _, infos, rfl, by simp [hlist], hmem, hplaced⟩

/-- Two lists related in two ways are so at the same place. -/
theorem exists_related {α β : Type} {R S : α → β → Prop} {xs : List α} {ys : List β}
    (hR : List.Forall₂ R xs ys) (hS : List.Forall₂ S xs ys) :
    ∀ x ∈ xs, ∃ y ∈ ys, R x y ∧ S x y := by
  induction hR with
  | nil => exact List.forall_mem_nil _
  | cons hxy _ ih =>
    cases hS with
    | cons hxy' hS =>
      refine List.forall_mem_cons.mpr ⟨⟨_, List.mem_cons_self, hxy, hxy'⟩, fun x hx => ?_⟩
      obtain ⟨y, hy, hboth⟩ := ih hS x hx
      exact ⟨y, List.mem_cons_of_mem _ hy, hboth⟩

/-- Every case of a listed file that is put on the list is kept from running. -/
private theorem runnable_of_skipsPropagate {aFileName : Text} {infos : List CaseInfo}
    (h : SkipsPropagate ctx aFileName infos) (hlisted : ctx.listed aFileName)
    {info : CaseInfo} (hinfo : info ∈ infos) (contains : Text → Bool) :
    runnable contains info = false := by
  obtain ⟨chains, _, hall⟩ := h
  have hback : List.Forall₂ (flip (Propagated ctx contains aFileName)) infos chains :=
    List.Forall₂.flip (hall contains)
  obtain ⟨chain, -, ⟨-, hprop⟩, -⟩ := exists_related hback hback info hinfo
  rwa [if_pos (.inl hlisted)] at hprop

private theorem propagated_of_placed {aFileName : Text} {chain : List Hop} {info : CaseInfo}
    (h : Placed ctx aFileName .RUNABLE chain info) (contains : Text → Bool)
    (hmarked : ctx.listed aFileName → ∃ hop ∈ chain, hop.marked ctx) :
    Propagated ctx contains aFileName chain info := by
  refine ⟨h.1, ?_⟩
  have hmark : info.caseMark = .RUNABLE ↔ ∀ hop ∈ chain, ¬ hop.marked ctx := by
    rw [h.2, foldl_mark_eq_runable_iff]
    exact and_iff_right rfl
  rw [runnable_eq]
  split
  · rename_i hskip
    obtain ⟨hop, hhop, hopMarked⟩ := hskip.elim hmarked id
    have hne : info.caseMark ≠ .RUNABLE := fun heq => hmark.mp heq hop hhop hopMarked
    simp [hne]
  · rename_i hskip
    have heq : info.caseMark = .RUNABLE :=
      hmark.mpr fun hop hhop hm => hskip (.inr ⟨hop, hhop, hm⟩)
    simp [heq]

end Skips

section RootListed

/-- A listed suite with one case. -/
def listedSuite : Context where
  staf := .ascii
  sEnvCASE := "TC/".toList
  sEnvCASE_USER := "USER/".toList
  fopen path := if path = "TC/a.ts".toList then some "b.sql\n".toList else none
  aSkipMap := ["a.ts".toList]
  uninitialised := ⟨[], 0, [], [], none, .RUNABLE, []⟩

/-- The list after the load of the suite. -/
def listedSuiteCases : List CaseInfo :=
  [⟨"TC/a.ts".toList, 1, [], [], some .TS, .RUNSKIP, "TC/a.ts".toList⟩,
    ⟨"TC/b.sql".toList, PLAT_OFF, [], [], some .SQL, .RUNABLE, "TC/a.ts".toList⟩]

private theorem load_listedSuite :
    load listedSuite 1 "TC/a.ts".toList 0 .RUNABLE emptyManager =
      .ok ⟨listedSuiteCases, [], PLAT_OFF, 0⟩ := by
  rfl

end RootListed

end Natc.Suite
