import Natc.Suite.Marks

/-!
# The platforms of the cases of a suite

A case is meant for the platform of the outermost line with a platform through which it is reached.
The load keeps a platform in the manager and the name it read last in a buffer of its own.
-/

namespace Natc.Suite

open Lib

/-! ## Tags -/

/-- The first platform that is not empty. -/
def outermost : List Text → Text
  | [] => []
  | tag :: tags => if tag = [] then outermost tags else tag

theorem outermost_eq_nil_iff {tags : List Text} : outermost tags = [] ↔ ∀ tag ∈ tags, tag = [] := by
  induction tags with
  | nil => exact iff_of_true rfl (List.forall_mem_nil _)
  | cons tag tags ih =>
    rw [outermost, List.forall_mem_cons]
    by_cases htag : tag = []
    · rw [if_pos htag, ih, and_iff_right htag]
    · rw [if_neg htag]
      exact iff_of_false htag fun h => htag h.1

theorem outermost_assoc (first second : Text) (tags : List Text) :
    outermost (outermost [first, second] :: tags) = outermost (first :: second :: tags) := by
  by_cases hfirst : first = []
  · by_cases hsecond : second = []
    · simp only [outermost, if_pos hfirst, if_pos hsecond, if_true]
    · simp only [outermost, if_pos hfirst, if_neg hsecond]
  · simp only [outermost, if_neg hfirst]

/-- The platform that stands in the line. -/
def Line.tag (line : Line) : Text := (line.platform.map Prod.fst).getD []

/-- What is in the buffer behind the scan of the line. -/
def Line.readTag (line : Line) (sPlatformName : Text) : Text :=
  (line.platform.map Prod.fst).getD sPlatformName

/-- What is left in the buffer behind a line that names no case. -/
def Line.leaves (line : Line) (sPlatformName : Text) : Text :=
  if line.sLine = [] ∨ strstr line.sLine "TestSuiteDescription".toList = true ∨
      strstr line.sLine ['.'] = true then line.readTag sPlatformName
  else []

theorem Line.readTag_eq_tag {line : Line} (h : line.tag ≠ []) (sPlatformName : Text) :
    line.readTag sPlatformName = line.tag := by
  unfold Line.tag at h
  unfold Line.readTag Line.tag
  cases hplatform : line.platform with
  | none =>
    rw [hplatform] at h
    exact absurd rfl h
  | some platform => rfl

/-- A line that names a case, with the platform in it and the one that is read with it. -/
structure TagHop where
  hop : Hop
  tag : Text
  read : Text

/-- The lines of a file that name cases, for what is in the buffer in front of them. -/
def tagHops (aFileName : Text) : Text → List Text → List TagHop
  | _, [] => []
  | sPlatformName, sBuffer :: lines =>
      match scanLine sBuffer, lineHop aFileName sBuffer with
      | some line, some hop =>
          ⟨hop, line.tag, line.readTag sPlatformName⟩ :: tagHops aFileName [] lines
      | some line, none => tagHops aFileName (line.leaves sPlatformName) lines
      | none, _ => []

/-- The chains of lines through which cases are reached by the lines of a file. -/
def tagChains (sub : Text → List (List TagHop)) (hops : List TagHop) : List (List TagHop) :=
  hops.flatMap fun t => [t] :: (if t.hop.isSuite then (sub t.hop.path).map (t :: ·) else [])

/-- The cases of a file in the order of the load. -/
def fileTags (ctx : Context) : Nat → Text → List (List TagHop)
  | 0, _ => []
  | n + 1, aFileName =>
      match ctx.fopen aFileName with
      | none => []
      | some content =>
          tagChains (fileTags ctx n) (tagHops aFileName [] (fileLines content))

/-- All cases of a load; the empty chain is the file that it begins with. -/
def loadedTags (ctx : Context) (n : Nat) (aFileName : Text) : List (List TagHop) :=
  match getcasetype aFileName with
  | none => []
  | some sCaseType =>
      [] :: (if sCaseType = .SQL ∨ sCaseType = .XML then [] else fileTags ctx n aFileName)

/-- The entry is that of the case of a chain, with the outermost platform on it. -/
def Effective (aFileName : Text) (chain : List TagHop) (info : CaseInfo) : Prop :=
  info.caseName = chainPath aFileName (chain.map TagHop.hop) ∧
    info.casePlatformName = outermost (chain.map TagHop.tag)

/-- No platform is read with a line that has none, where no line above has one. -/
def NothingLeft (chains : List (List TagHop)) : Prop :=
  ∀ chain ∈ chains, (∀ t ∈ chain, t.tag = []) → ∀ t ∈ chain, t.read = []

/-! ## The choice of a platform -/

/-- What the manager holds while lines at depth `aCurDepth` are read below lines with the platform
`above`. -/
structure Standing (aCurDepth : Nat) (above : Text) (m : CaseManager) : Prop where
  inherited : above ≠ [] → m.mPlatformName = above ∧ m.mFindLevel < aCurDepth
  own : above = [] → m.mPlatformName ≠ [] → aCurDepth ≤ m.mFindLevel

/-- Where nothing is chosen, the entry of the line before had no platform. -/
def Fresh (aCurDepth : Nat) (above : Text) (m : CaseManager) (info : CaseInfo) : Prop :=
  above = [] → m.mPlatformName = [] → m.mFindLevel < aCurDepth → info.casePlatformName = []

/-- What an inherited platform rests on is not touched. -/
def Kept (above : Text) (m m' : CaseManager) : Prop :=
  above ≠ [] → m'.mPlatformName = m.mPlatformName ∧ m'.mFindLevel = m.mFindLevel

structure Chosen (aCurDepth : Nat) (above sPlatformName : Text) (m : CaseManager)
    (chosen : CaseManager × CaseInfo) : Prop where
  platform : chosen.2.casePlatformName = outermost [above, sPlatformName]
  standing : Standing aCurDepth above chosen.1
  below : Standing (aCurDepth + 1) (outermost [above, sPlatformName]) chosen.1
  fresh : Fresh aCurDepth above chosen.1 chosen.2
  kept : Kept above m chosen.1

section Choose

variable {aCurDepth : Nat} {m : CaseManager} {l : Locals}

theorem choosePlatform_inherited (hname : m.mPlatformName ≠ []) (hlevel : m.mFindLevel < aCurDepth) :
    choosePlatform aCurDepth m l =
      (m, l.mCaseInfo.withPlatform m.mPlatformName m.mIsSetPlatformInfo) := by
  have hnot := Nat.not_le.mpr hlevel
  unfold choosePlatform
  simp [hname, hlevel, hnot]

theorem choosePlatform_own (hown : l.sPlatformName ≠ [])
    (h : m.mPlatformName ≠ [] → aCurDepth ≤ m.mFindLevel) :
    choosePlatform aCurDepth m l =
      (m.setPlatform aCurDepth l, l.mCaseInfo.withPlatform l.sPlatformName l.sFlag) := by
  unfold choosePlatform
  by_cases hname : m.mPlatformName = []
  · simp [hown, hname, CaseManager.setPlatform, CaseInfo.withPlatform]
  · have hlevel := h hname
    have hnot := Nat.not_lt.mpr hlevel
    simp [hown, hname, hlevel, hnot, CaseManager.setPlatform, CaseInfo.withPlatform]

theorem choosePlatform_cleared (hown : l.sPlatformName = []) (hlevel : aCurDepth ≤ m.mFindLevel) :
    choosePlatform aCurDepth m l =
      ({ m with mPlatformName := [], mIsSetPlatformInfo := PLAT_OFF },
        l.mCaseInfo.withPlatform [] PLAT_OFF) := by
  have hnot := Nat.not_lt.mpr hlevel
  unfold choosePlatform
  simp [hown, hlevel, hnot]

theorem choosePlatform_untouched (hown : l.sPlatformName = []) (hname : m.mPlatformName = [])
    (hlevel : m.mFindLevel < aCurDepth) : choosePlatform aCurDepth m l = (m, l.mCaseInfo) := by
  have hnot := Nat.not_le.mpr hlevel
  unfold choosePlatform
  simp [hown, hname, hnot]

/-- The platform that is chosen is the outermost one that was read. -/
theorem choosePlatform_chosen {above : Text} (h : Standing aCurDepth above m)
    (hfresh : Fresh aCurDepth above m l.mCaseInfo) :
    Chosen aCurDepth above l.sPlatformName m (choosePlatform aCurDepth m l) := by
  by_cases habove : above = []
  · subst habove
    have hown := h.own rfl
    have hkept : ∀ m', Kept [] m m' := fun _ hne => absurd rfl hne
    by_cases hread : l.sPlatformName = []
    · have houter : outermost [[], l.sPlatformName] = [] := by
        simp only [outermost, hread, if_true]
      by_cases hlevel : aCurDepth ≤ m.mFindLevel
      · rw [choosePlatform_cleared hread hlevel]
        refine ⟨houter.symm, ?_, ?_, fun _ _ _ => rfl, hkept _⟩
        · exact ⟨fun hne => absurd rfl hne, fun _ hne => absurd rfl hne⟩
        · rw [houter]
          exact ⟨fun hne => absurd rfl hne, fun _ hne => absurd rfl hne⟩
      · have hlt := Nat.not_le.mp hlevel
        have hname : m.mPlatformName = [] := by
          by_contra hne
          exact hlevel (hown hne)
        have hcase := hfresh rfl hname hlt
        rw [choosePlatform_untouched hread hname hlt]
        refine ⟨hcase.trans houter.symm, h, ?_, fun _ _ _ => hcase, hkept _⟩
        rw [houter]
        exact ⟨fun hne => absurd rfl hne, fun _ hne => absurd hname hne⟩
    · have houter : outermost [[], l.sPlatformName] = l.sPlatformName := by
        simp only [outermost, if_true, if_neg hread]
      rw [choosePlatform_own hread hown]
      refine ⟨houter.symm, ?_, ?_, fun _ hname => absurd hname hread, hkept _⟩
      · exact ⟨fun hne => absurd rfl hne, fun _ _ => Nat.le_refl _⟩
      · rw [houter]
        exact ⟨fun _ => ⟨rfl, Nat.lt_succ_self _⟩, fun hnil => absurd hnil hread⟩
  · obtain ⟨hname, hlevel⟩ := h.inherited habove
    have hne : m.mPlatformName ≠ [] := hname ▸ habove
    have houter : outermost [above, l.sPlatformName] = above := by
      simp only [outermost, if_neg habove]
    rw [choosePlatform_inherited hne hlevel]
    refine ⟨hname.trans houter.symm, h, ?_, fun hnil => absurd hnil habove, fun _ => ⟨rfl, rfl⟩⟩
    rw [houter]
    exact ⟨fun _ => ⟨hname, Nat.lt_succ_of_lt hlevel⟩, fun hnil => absurd hnil habove⟩

end Choose

/-! ## The load of a file -/

/-- The entry is that of the case of a chain, with the outermost platform that was read. -/
def Seen (above aFileName : Text) (chain : List TagHop) (info : CaseInfo) : Prop :=
  info.caseName = chainPath aFileName (chain.map TagHop.hop) ∧
    info.casePlatformName = outermost (above :: chain.map TagHop.read)

section Seen

variable {ctx : Context} {load : Text → Nat → CaseMark → CaseManager → Except LoadFault CaseManager}
  {sub : Text → List (List TagHop)} {above aFileName : Text} {aCurDepth : Nat} {aMark : CaseMark}

/-- The cases of a file get the outermost platform that was read, and a platform from above is kept
for the lines that follow. -/
def SeesTags (load : Text → Nat → CaseMark → CaseManager → Except LoadFault CaseManager)
    (sub : Text → List (List TagHop)) (aCurDepth : Nat) : Prop :=
  ∀ above path mark m m', Standing aCurDepth above m → load path aCurDepth mark m = .ok m' →
    ∃ infos, m'.mCaseList = m.mCaseList ++ infos ∧
      List.Forall₂ (Seen above path) (sub path) infos ∧ Standing aCurDepth above m' ∧
        Kept above m m'

theorem Standing.congr {m m' : CaseManager} (h : Standing aCurDepth above m)
    (hname : m'.mPlatformName = m.mPlatformName) (hlevel : m'.mFindLevel = m.mFindLevel) :
    Standing aCurDepth above m' := by
  constructor
  · rw [hname, hlevel]
    exact h.inherited
  · rw [hname, hlevel]
    exact h.own

theorem Fresh.congr {m : CaseManager} {info info' : CaseInfo} (h : Fresh aCurDepth above m info)
    (heq : info'.casePlatformName = info.casePlatformName) : Fresh aCurDepth above m info' :=
  fun habove hname hlevel => heq.trans (h habove hname hlevel)

/-- The state for the next line, when the file of a line was read. -/
theorem Chosen.after {read : Text} {m m₂ : CaseManager} {chosen : CaseManager × CaseInfo}
    (h : Chosen aCurDepth above read m chosen)
    (hbelow : Standing (aCurDepth + 1) (outermost [above, read]) m₂)
    (hkept : Kept (outermost [above, read]) chosen.1 m₂) :
    Standing aCurDepth above m₂ ∧ Fresh aCurDepth above m₂ chosen.2 ∧ Kept above m m₂ := by
  by_cases houter : outermost [above, read] = []
  · have habove : above = [] := outermost_eq_nil_iff.mp houter above List.mem_cons_self
    have hown := hbelow.own houter
    refine ⟨⟨fun hne => absurd habove hne, fun _ hne => ?_⟩, fun _ _ _ => ?_, fun hne =>
      absurd habove hne⟩
    · exact Nat.le_of_succ_le (hown hne)
    · exact h.platform.trans houter
  · obtain ⟨hname, hlevel⟩ := hkept houter
    refine ⟨h.standing.congr hname hlevel, fun _ hnil => ?_, fun hne => ?_⟩
    · have hinherited := (h.below.inherited houter).1
      exact absurd (hinherited.symm.trans (hname.symm.trans hnil)) houter
    · obtain ⟨hname', hlevel'⟩ := h.kept hne
      exact ⟨hname.trans hname', hlevel.trans hlevel'⟩

/-- The entries of a line and of the file that it names. -/
theorem seen_line {t : TagHop} {info : CaseInfo} {infos : List CaseInfo}
    (hname : info.caseName = t.hop.path)
    (hplatform : info.casePlatformName = outermost [above, t.read])
    (hbelow : List.Forall₂ (Seen (outermost [above, t.read]) t.hop.path)
      (if t.hop.isSuite then sub t.hop.path else []) infos) :
    List.Forall₂ (Seen above aFileName)
      ([t] :: (if t.hop.isSuite then (sub t.hop.path).map (t :: ·) else [])) (info :: infos) := by
  apply List.Forall₂.cons
  · exact ⟨hname, hplatform⟩
  · have hmap : (if t.hop.isSuite then (sub t.hop.path).map (t :: ·) else []) =
        (if t.hop.isSuite then sub t.hop.path else []).map (t :: ·) := by
      split <;> rfl
    rw [hmap, List.forall₂_map_left_iff]
    apply hbelow.imp
    intro chain info' h
    refine ⟨?_, ?_⟩
    · rw [List.map_cons, chainPath_cons]
      exact h.1
    · rw [List.map_cons, ← outermost_assoc]
      exact h.2

theorem tagHops_pass {sPlatformName sBuffer : Text} {line : Line}
    (hscan : scanLine sBuffer = some line) (hhop : lineHop aFileName sBuffer = none)
    (lines : List Text) : tagHops aFileName sPlatformName (sBuffer :: lines) =
      tagHops aFileName (line.leaves sPlatformName) lines := by
  rw [tagHops, hscan, hhop]

theorem tagHops_hop {sPlatformName sBuffer : Text} {line : Line} {hop : Hop}
    (hscan : scanLine sBuffer = some line) (hhop : lineHop aFileName sBuffer = some hop)
    (lines : List Text) : tagHops aFileName sPlatformName (sBuffer :: lines) =
      ⟨hop, line.tag, line.readTag sPlatformName⟩ :: tagHops aFileName [] lines := by
  rw [tagHops, hscan, hhop]

variable (ctx load aMark) in
/-- A line without a case leaves the platform from above and what it read. -/
theorem pass_standing (lines : List Text) {l : Locals} {m : CaseManager} {sBuffer : Text}
    (hfits : LineFits aFileName sBuffer) (hhop : lineHop aFileName sBuffer = none)
    (h : Standing aCurDepth above m) (hfresh : Fresh aCurDepth above m l.mCaseInfo) :
    ∃ l' m', m'.mCaseList = m.mCaseList ∧ Standing aCurDepth above m' ∧
      Fresh aCurDepth above m' l'.mCaseInfo ∧ Kept above m m' ∧
      tagHops aFileName l.sPlatformName (sBuffer :: lines) =
        tagHops aFileName l'.sPlatformName lines ∧
      loadLines ctx load aFileName aCurDepth aMark (sBuffer :: lines) l m =
        loadLines ctx load aFileName aCurDepth aMark lines l' m' := by
  obtain ⟨line, hscan, hcases⟩ := loadLines_pass_cases ctx load aCurDepth aMark lines hfits hhop l m
  have htags : ∀ s, tagHops aFileName s (sBuffer :: lines) =
      tagHops aFileName (line.leaves s) lines := fun _ => tagHops_pass hscan hhop lines
  have hself : Kept above m m := fun _ => ⟨rfl, rfl⟩
  rcases hcases with ⟨hnothing, heq⟩ | ⟨hholds, hdot, heq⟩ | ⟨hholds, hdot, heq⟩
  · refine ⟨l.scanned aMark line, m, rfl, h, hfresh, hself, ?_, heq⟩
    rw [htags, Line.leaves, if_pos (hnothing.imp_right Or.inl)]
    rfl
  · refine ⟨{ l.scanned aMark line with sPlatformName := [] }, m, rfl, h, hfresh, hself, ?_, heq⟩
    have hnot : ¬(line.sLine = [] ∨ strstr line.sLine "TestSuiteDescription".toList = true ∨
        strstr line.sLine ['.'] = true) := by
      rw [← or_assoc, hdot]
      exact fun hor => hor.elim hholds (fun hd => by cases hd)
    rw [htags, Line.leaves, if_neg hnot]
  · have hchosen := choosePlatform_chosen (l := l.scanned aMark line) h hfresh
    refine ⟨{ l.scanned aMark line with
      mCaseInfo := (choosePlatform aCurDepth m (l.scanned aMark line)).2 }, _,
      choosePlatform_mCaseList aCurDepth m _, hchosen.standing, hchosen.fresh, hchosen.kept,
      ?_, heq⟩
    rw [htags, Line.leaves, if_pos (Or.inr (Or.inr hdot))]
    rfl

/-- The file of a line is read where the line names a suite. -/
theorem seen_below (hload : SeesTags load sub (aCurDepth + 1)) {tag : Text} {hop : Hop}
    {mark : CaseMark} {m m' : CaseManager} (hstanding : Standing (aCurDepth + 1) tag m)
    (h : (if hop.isSuite then load hop.path (aCurDepth + 1) mark m else .ok m) = .ok m') :
    ∃ below, m'.mCaseList = m.mCaseList ++ below ∧
      List.Forall₂ (Seen tag hop.path) (if hop.isSuite then sub hop.path else []) below ∧
        Standing (aCurDepth + 1) tag m' ∧ Kept tag m m' := by
  cases hsuite : hop.isSuite with
  | false =>
    rw [hsuite] at h
    cases h
    exact ⟨[], (List.append_nil _).symm, .nil, hstanding, fun _ => ⟨rfl, rfl⟩⟩
  | true =>
    rw [hsuite, if_pos rfl] at h
    exact hload _ _ _ _ _ hstanding h

theorem seen_loadLines (hload : SeesTags load sub (aCurDepth + 1)) (lines : List Text)
    {l : Locals} {m m' : CaseManager} (hstanding : Standing aCurDepth above m)
    (hfresh : Fresh aCurDepth above m l.mCaseInfo)
    (h : loadLines ctx load aFileName aCurDepth aMark lines l m = .ok m') :
    ∃ infos, m'.mCaseList = m.mCaseList ++ infos ∧
      List.Forall₂ (Seen above aFileName) (tagChains sub (tagHops aFileName l.sPlatformName lines))
        infos ∧ Standing aCurDepth above m' ∧ Kept above m m' := by
  induction lines generalizing l m with
  | nil =>
    cases h
    exact ⟨[], (List.append_nil _).symm, .nil, hstanding, fun _ => ⟨rfl, rfl⟩⟩
  | cons sBuffer lines ih =>
    by_cases hfits : LineFits aFileName sBuffer
    · cases hhop : lineHop aFileName sBuffer with
      | none =>
        obtain ⟨l', m₁, hlist, hstanding', hfresh', hkept, htags, heq⟩ :=
          pass_standing ctx load aMark lines hfits hhop hstanding hfresh
        rw [heq] at h
        obtain ⟨infos, hinfos, hseen, hend, hkept'⟩ := ih hstanding' hfresh' h
        refine ⟨infos, by rw [hinfos, hlist], htags ▸ hseen, hend, fun hne => ?_⟩
        exact ⟨(hkept' hne).1.trans (hkept hne).1, (hkept' hne).2.trans (hkept hne).2⟩
      | some hop =>
        obtain ⟨line, sCaseType, info, hscan, _, hinfo, heq⟩ :=
          loadLines_hop_eq ctx load aCurDepth aMark lines hfits hhop l m
        rw [heq] at h
        obtain ⟨m₂, hdeep, hrest⟩ := ok_of_bind h
        have hchosen := choosePlatform_chosen (l := l.scanned aMark line) hstanding hfresh
        have hlist : (chosenManager aCurDepth aMark line info l m).mCaseList =
            m.mCaseList ++ [info] :=
          congrArg (· ++ [info]) (choosePlatform_mCaseList aCurDepth m _)
        have hchosen₁ : Standing (aCurDepth + 1) (outermost [above, line.readTag l.sPlatformName])
            (chosenManager aCurDepth aMark line info l m) := hchosen.below.congr rfl rfl
        obtain ⟨below, hbelow, hseen, hstanding', hkept⟩ := seen_below hload hchosen₁ hdeep
        obtain ⟨hstanding₂, hfresh₂, hkept₂⟩ := hchosen.after hstanding' hkept
        have hplatform : info.casePlatformName =
            outermost [above, line.readTag l.sPlatformName] := by
          rw [hinfo]
          exact hchosen.platform
        obtain ⟨infos, hinfos, hseen', hend, hkept'⟩ :=
          ih hstanding₂ (hfresh₂.congr (by rw [hinfo]; rfl)) hrest
        refine ⟨info :: (below ++ infos), ?_, ?_, hend, fun hne => ?_⟩
        · rw [hinfos, hbelow, hlist]
          simp only [List.append_assoc, List.cons_append, List.nil_append]
        · rw [tagHops_hop hscan hhop, tagChains, List.flatMap_cons, ← List.cons_append]
          apply List.rel_append _ hseen'
          exact seen_line (by rw [hinfo]; rfl) hplatform hseen
        · exact ⟨(hkept' hne).1.trans (hkept₂ hne).1, (hkept' hne).2.trans (hkept₂ hne).2⟩
    · rw [loadLines_overflow ctx load aCurDepth aMark lines hfits] at h
      cases h

/-- The string class makes strings empty. -/
theorem seesTags_load (hempty : ctx.uninitialised.casePlatformName = []) (n : Nat)
    (aCurDepth : Nat) : SeesTags (Suite.load ctx n) (fileTags ctx n) (aCurDepth + 1) := by
  induction n generalizing aCurDepth with
  | zero =>
    intro above path mark m m' _ h
    cases h
  | succ n ih =>
    intro above path mark m m' hstanding h
    rw [Suite.load] at h
    rw [fileTags]
    split at h
    · cases h
    · rw [if_neg (Nat.succ_ne_zero aCurDepth)] at h
      cases hopen : ctx.fopen path with
      | none =>
        rw [hopen] at h
        cases h
        exact ⟨[], (List.append_nil _).symm, .nil, hstanding, fun _ => ⟨rfl, rfl⟩⟩
      | some content =>
        rw [hopen] at h
        exact seen_loadLines (ih (aCurDepth + 1)) _ hstanding (fun _ _ _ => hempty) h

end Seen

/-! ## The whole load -/

section Load

variable {ctx : Context}

/-- A root suite is read at depth zero, with nothing above it. -/
theorem load_seen (hempty : ctx.uninitialised.casePlatformName = []) {n : Nat} {aFileName : Text}
    {aMark : CaseMark} {m m' : CaseManager} (h : load ctx n aFileName 0 aMark m = .ok m') :
    ∃ infos, m'.mCaseList = m.mCaseList ++ infos ∧
      List.Forall₂ (Seen [] aFileName) (loadedTags ctx n aFileName) infos := by
  unfold loadedTags
  cases n with
  | zero => cases h
  | succ n =>
    rw [load] at h
    split at h
    · cases h
    · rw [if_pos rfl] at h
      cases htype : getcasetype aFileName with
      | none =>
        rw [htype] at h
        cases h
        exact ⟨[], (List.append_nil _).symm, .nil⟩
      | some sCaseType =>
        rw [htype] at h
        dsimp only at h ⊢
        have hroot : Seen [] aFileName [] (rootCase ctx aFileName sCaseType aMark) := ⟨rfl, rfl⟩
        by_cases hcase : sCaseType = .SQL ∨ sCaseType = .XML
        · rw [if_pos hcase] at h
          cases h
          refine ⟨[_], rfl, ?_⟩
          rw [if_pos hcase]
          exact .cons hroot .nil
        · rw [if_neg hcase] at h
          rw [if_neg hcase, fileTags]
          cases hopen : ctx.fopen aFileName with
          | none =>
            rw [hopen] at h
            cases h
            exact ⟨[_], rfl, .cons hroot .nil⟩
          | some content =>
            rw [hopen] at h
            have hstanding : ∀ list : List CaseInfo, Standing 0 []
                ⟨list, [], 0, m.mFindLevel⟩ := fun _ =>
              ⟨fun hne => absurd rfl hne, fun _ hne => absurd rfl hne⟩
            obtain ⟨infos, hlist, hseen, _⟩ := seen_loadLines (seesTags_load hempty n 0) _
              (hstanding _) (fun _ _ _ => rfl) h
            refine ⟨_ :: infos, ?_, .cons hroot hseen⟩
            rw [hlist, List.append_assoc, List.singleton_append]

theorem tagHops_read {aFileName sPlatformName : Text} {lines : List Text} {t : TagHop}
    (h : t ∈ tagHops aFileName sPlatformName lines) (htag : t.tag ≠ []) : t.read = t.tag := by
  induction lines generalizing sPlatformName with
  | nil => cases h
  | cons sBuffer lines ih =>
    rw [tagHops] at h
    split at h
    · rcases List.mem_cons.mp h with rfl | h
      · exact Line.readTag_eq_tag htag _
      · exact ih h
    · exact ih h
    · cases h

theorem mem_tagChains {sub : Text → List (List TagHop)} {hops : List TagHop}
    {chain : List TagHop} : chain ∈ tagChains sub hops ↔
      ∃ t ∈ hops, chain = [t] ∨ t.hop.isSuite = true ∧ ∃ deeper ∈ sub t.hop.path,
        chain = t :: deeper := by
  unfold tagChains
  rw [List.mem_flatMap]
  constructor
  · rintro ⟨t, ht, hchain⟩
    rcases List.mem_cons.mp hchain with rfl | hchain
    · exact ⟨t, ht, Or.inl rfl⟩
    · cases hsuite : t.hop.isSuite with
      | false =>
        rw [hsuite] at hchain
        cases hchain
      | true =>
        rw [hsuite, if_pos rfl] at hchain
        obtain ⟨deeper, hdeeper, rfl⟩ := List.mem_map.mp hchain
        exact ⟨t, ht, Or.inr ⟨hsuite, deeper, hdeeper, rfl⟩⟩
  · rintro ⟨t, ht, rfl | ⟨hsuite, deeper, hdeeper, rfl⟩⟩
    · exact ⟨t, ht, List.mem_cons_self⟩
    · refine ⟨t, ht, List.mem_cons_of_mem _ ?_⟩
      rw [if_pos hsuite]
      exact List.mem_map_of_mem hdeeper

/-- A platform that stands in a line is the one that is read. -/
theorem fileTags_read {n : Nat} {aFileName : Text} {chain : List TagHop}
    (h : chain ∈ fileTags ctx n aFileName) : ∀ t ∈ chain, t.tag ≠ [] → t.read = t.tag := by
  induction n generalizing aFileName chain with
  | zero => cases h
  | succ n ih =>
    rw [fileTags] at h
    split at h
    · cases h
    · obtain ⟨t, ht, rfl | ⟨_, deeper, hdeeper, rfl⟩⟩ := mem_tagChains.mp h
      · intro u hu
        obtain rfl := List.mem_singleton.mp hu
        exact tagHops_read ht
      · rw [List.forall_mem_cons]
        exact ⟨tagHops_read ht, ih hdeeper⟩

/-- The lines through which a case is reached are cases themselves. -/
theorem fileTags_closed {n : Nat} {aFileName : Text} {front back : List TagHop}
    (h : front ++ back ∈ fileTags ctx n aFileName) (hne : front ≠ []) :
    front ∈ fileTags ctx n aFileName := by
  induction n generalizing aFileName front with
  | zero => cases h
  | succ n ih =>
    rw [fileTags] at h ⊢
    split at h
    · cases h
    · obtain ⟨u, front, rfl⟩ := List.exists_cons_of_ne_nil hne
      rw [List.cons_append] at h
      obtain ⟨t, ht, hchain⟩ := mem_tagChains.mp h
      apply mem_tagChains.mpr
      rcases hchain with hsingle | ⟨hsuite, deeper, hdeeper, hcons⟩
      · obtain ⟨rfl, hnil⟩ := List.cons_eq_cons.mp hsingle
        rw [(List.append_eq_nil_iff.mp hnil).1]
        exact ⟨u, ht, Or.inl rfl⟩
      · obtain ⟨rfl, rfl⟩ := List.cons_eq_cons.mp hcons
        by_cases hfront : front = []
        · subst hfront
          exact ⟨u, ht, Or.inl rfl⟩
        · exact ⟨u, ht, Or.inr ⟨hsuite, front, ih hdeeper hfront, rfl⟩⟩

theorem outermost_append {front : List Text} (h : ∀ tag ∈ front, tag = []) (back : List Text) :
    outermost (front ++ back) = outermost back := by
  induction front with
  | nil => rfl
  | cons tag front ih =>
    obtain ⟨htag, hfront⟩ := List.forall_mem_cons.mp h
    rw [List.cons_append, outermost, if_pos htag, ih hfront]

theorem outermost_read {n : Nat} {aFileName : Text} (hleft : NothingLeft (fileTags ctx n aFileName))
    {chain : List TagHop} (h : chain ∈ fileTags ctx n aFileName) :
    outermost (chain.map TagHop.read) = outermost (chain.map TagHop.tag) := by
  by_cases htags : ∀ t ∈ chain, t.tag = []
  · have hnone : ∀ tag ∈ chain.map TagHop.tag, tag = [] := List.forall_mem_map.mpr htags
    have hread : ∀ tag ∈ chain.map TagHop.read, tag = [] :=
      List.forall_mem_map.mpr (hleft chain h htags)
    rw [outermost_eq_nil_iff.mpr hnone, outermost_eq_nil_iff.mpr hread]
  · -- the first line with a platform splits the chain
    have hsplit := List.takeWhile_append_dropWhile (p := fun t : TagHop => t.tag = []) (l := chain)
    have hfront : ∀ t ∈ chain.takeWhile (fun t => t.tag = []), t.tag = [] := by
      intro t ht
      simpa using List.mem_takeWhile_imp ht
    obtain ⟨t, back, hback⟩ : ∃ t back, chain.dropWhile (fun t => t.tag = []) = t :: back := by
      apply List.exists_cons_of_ne_nil
      rw [ne_eq, List.dropWhile_eq_nil_iff]
      exact fun hall => htags fun t ht => of_decide_eq_true (hall t ht)
    have htag : t.tag ≠ [] := by
      have hne : chain.dropWhile (fun t => t.tag = []) ≠ [] := by
        rw [hback]
        exact List.cons_ne_nil _ _
      have hhead := List.head_dropWhile_not _ hne
      simp only [hback, List.head_cons] at hhead
      exact of_decide_eq_false hhead
    rw [hback] at hsplit
    have hread : t.read = t.tag := by
      apply fileTags_read h t _ htag
      rw [← hsplit]
      exact List.mem_append_right _ List.mem_cons_self
    have hreads : ∀ u ∈ chain.takeWhile (fun t => t.tag = []), u.read = [] := by
      by_cases hempty : chain.takeWhile (fun t => t.tag = []) = []
      · rw [hempty]
        exact List.forall_mem_nil _
      · rw [← hsplit] at h
        exact hleft _ (fileTags_closed h hempty) hfront
    rw [← hsplit, List.map_append, List.map_append,
      outermost_append (List.forall_mem_map.mpr hreads),
      outermost_append (List.forall_mem_map.mpr hfront), List.map_cons, List.map_cons, hread,
      outermost, outermost, if_neg htag, if_neg htag]

theorem mem_loadedTags {n : Nat} {aFileName : Text} {chain : List TagHop}
    (h : chain ∈ loadedTags ctx n aFileName) :
    chain = [] ∨ chain ∈ fileTags ctx n aFileName ∧
      ∀ c ∈ fileTags ctx n aFileName, c ∈ loadedTags ctx n aFileName := by
  unfold loadedTags at h ⊢
  cases htype : getcasetype aFileName with
  | none =>
    rw [htype] at h
    cases h
  | some sCaseType =>
    rw [htype] at h
    dsimp only at h ⊢
    by_cases hcase : sCaseType = .SQL ∨ sCaseType = .XML
    · rw [if_pos hcase] at h
      exact Or.inl (List.mem_singleton.mp h)
    · rw [if_neg hcase] at h ⊢
      rcases List.mem_cons.mp h with hnil | hchain
      · exact Or.inl hnil
      · exact Or.inr ⟨hchain, fun c hc => List.mem_cons_of_mem _ hc⟩

end Load

section Example

/-- A suite `TC/a.ts` alone. -/
def suiteOf (content : Text) : Context where
  staf := .ascii
  sEnvCASE := "TC/".toList
  sEnvCASE_USER := "USER/".toList
  fopen path := if path = "TC/a.ts".toList then some content else none
  aSkipMap := []
  uninitialised := ⟨[], 0, [], [], none, .RUNABLE, []⟩

/-- The list after its load, for the cases of its lines. -/
def suiteCases (cases : List CaseInfo) : List CaseInfo :=
  ⟨"TC/a.ts".toList, 1, [], [], some .TS, .RUNABLE, "TC/a.ts".toList⟩ :: cases

def sqlCase (caseName casePlatformName : Text) : CaseInfo :=
  ⟨caseName, PLAT_OFF, casePlatformName, [], some .SQL, .RUNABLE, "TC/a.ts".toList⟩

end Example

end Natc.Suite
