import Mathlib.Data.List.Nodup
import Natc.Staf

/-!
# Result paths

`Servicer::runReal` makes the paths of the result, the TDX file, the archive and the oracle from
the path of the script. Directory and suffix are exchanged by replacing their texts everywhere in
the path.
-/

namespace Natc.Ats.ResultPaths

open Lib

/-- A directory by its absolute path, without a separator at the end. -/
structure Directory where
  text : Text
  absolute : text.head? = some '/'
  closed : text.getLast? ≠ some '/'

/-- What the service has from its own environment. -/
structure PathEnv where
  mEnvCASE : Directory
  mEnvCASE_USER : Directory
  mEnvRESULT : Directory
  mEnvSUFFIX_RE : Text
  /-- The words of `mEnvSUFFIX_OR`. -/
  mEnvSUFFIX_OR : List Text
  suffix_name : '/' ∉ mEnvSUFFIX_RE

section Derive

variable (staf : Staf) (env : PathEnv)

/-- The path in which the suffix is exchanged. -/
def derivedFrom (aIn : Text) : Text :=
  if staf.contains aIn env.mEnvCASE.text = false ∧
      staf.contains aIn env.mEnvCASE_USER.text = false then aIn
  else if staf.contains aIn env.mEnvCASE.text = false then
    env.mEnvRESULT.text ++ staf.replace aIn env.mEnvCASE_USER.text []
  else env.mEnvRESULT.text ++ staf.replace aIn env.mEnvCASE.text []

def derive (ext aIn : Text) : Text :=
  staf.replace (derivedFrom staf env aIn) ".sql".toList (env.mEnvSUFFIX_RE ++ ext)

def mRe : Text → Text := derive staf env ".out".toList

def mTdx : Text → Text := derive staf env ".tdx".toList

/-- The archive of `$ALTIBASE_HOME` after a crash. -/
def mTgz : Text → Text := derive staf env ".tgz".toList

/-- The oracle: the last one of the suffixes for which a file exists. -/
def mLs (exist : Text → Bool) (aIn : Text) : Text :=
  env.mEnvSUFFIX_OR.foldl (fun mLs sWord =>
      let sLs := staf.replace aIn ".sql".toList (staf.strip sWord ++ ".lst".toList)
      if exist sLs then sLs else mLs)
    (staf.replace aIn ".sql".toList ("_A4_64".toList ++ ".lst".toList))

end Derive

/-- Two scripts below the case directory. The stem is the path from there on, without `.sql`. -/
structure ScriptPair where
  one : Text
  two : Text
  one_below : one.head? = some '/'
  two_below : two.head? = some '/'
  differ : one ≠ two

def Directory.script (dir : Directory) (stem : Text) : Text := dir.text ++ (stem ++ ".sql".toList)

/-- The path does not lead into the directory. -/
def Directory.Excludes (dir : Directory) (aIn : Text) : Prop := ¬dir.text ++ ['/'] <+: aIn

section Law

variable (staf : Staf) (env : PathEnv)

/-- The three files of a script. -/
def files (aIn : Text) : List Text := [mRe staf env aIn, mTdx staf env aIn, mTgz staf env aIn]

/-- The places below the result directory that belong to the stem. -/
def places (stem : Text) : List Text :=
  [".out".toList, ".tdx".toList, ".tgz".toList].map fun ext =>
    env.mEnvRESULT.text ++ (stem ++ (env.mEnvSUFFIX_RE ++ ext))

/-- The files of two scripts lie at their places and are six files; a script outside the case
directories is none of its own files. -/
structure PathsApart (pair : ScriptPair) : Prop where
  one : files staf env (env.mEnvCASE.script pair.one) = places env pair.one
  two : files staf env (env.mEnvCASE.script pair.two) = places env pair.two
  distinct : (files staf env (env.mEnvCASE.script pair.one) ++
    files staf env (env.mEnvCASE.script pair.two)).Nodup
  outside : ∀ aIn, ".sql".toList <:+ aIn → env.mEnvCASE.Excludes aIn →
    env.mEnvCASE_USER.Excludes aIn → aIn ∉ files staf env aIn

/-- The text of the case directory does not come again, and `.sql` only at the end. -/
structure Plain (stem : Text) : Prop where
  caseDir : ¬env.mEnvCASE.text <:+: stem ++ ".sql".toList
  suffix : ¬".sql".toList <:+: env.mEnvRESULT.text ++ stem

end Law

private theorem sql_eq : ".sql".toList = '.' :: "sql".toList := by decide

private theorem dot_notMem : '.' ∉ "sql".toList := by decide

private theorem sql_ne_nil : ".sql".toList ≠ [] := by decide

section Derived

variable {staf : Staf} {env : PathEnv}

theorem Directory.ne_nil (dir : Directory) : dir.text ≠ [] := by
  intro h
  have habsolute := dir.absolute
  rw [h] at habsolute
  exact absurd habsolute (by simp)

theorem Directory.separator_mem (dir : Directory) : '/' ∈ dir.text :=
  List.mem_of_mem_head? dir.absolute

variable (staf) in
/-- The case directory at the front is dropped, and then all its further occurrences. -/
theorem derivedFrom_script (stem : Text) :
    derivedFrom staf env (env.mEnvCASE.script stem) =
      env.mEnvRESULT.text ++ replaceAll env.mEnvCASE.text [] (stem ++ ".sql".toList) := by
  have hfound : staf.contains (env.mEnvCASE.script stem) env.mEnvCASE.text = true :=
    (staf.contains_iff _ _).mpr (List.prefix_append _ _).isInfix
  rw [derivedFrom, if_neg (by simp [hfound]), if_neg (by simp [hfound]),
    staf.replace_eq _ _ _ env.mEnvCASE.ne_nil, Directory.script,
    replaceAll_append _ _ _ env.mEnvCASE.ne_nil, List.nil_append]

theorem derive_eq (ext aIn : Text) : derive staf env ext aIn =
    replaceAll ".sql".toList (env.mEnvSUFFIX_RE ++ ext) (derivedFrom staf env aIn) :=
  staf.replace_eq _ _ _ sql_ne_nil

theorem derive_of_plain {stem : Text} (h : Plain env stem) (ext : Text) :
    derive staf env ext (env.mEnvCASE.script stem) =
      env.mEnvRESULT.text ++ (stem ++ (env.mEnvSUFFIX_RE ++ ext)) := by
  have hsuffix := h.suffix
  rw [derive_eq, derivedFrom_script, replaceAll_of_absent _ h.caseDir]
  rw [sql_eq] at hsuffix ⊢
  rw [← List.append_assoc, replaceAll_append_self dot_notMem hsuffix, List.append_assoc]

/-- The text of the case directory takes separators away wherever it stands. -/
private theorem caseDir_of_place {stem : Text} (hplace : derive staf env ".out".toList
      (env.mEnvCASE.script stem) =
      env.mEnvRESULT.text ++ (stem ++ (env.mEnvSUFFIX_RE ++ ".out".toList))) :
    ¬env.mEnvCASE.text <:+: stem ++ ".sql".toList := by
  intro hin
  have hsuffix : (env.mEnvSUFFIX_RE ++ ".out".toList).count '/' = 0 := by
    rw [List.count_append, List.count_eq_zero.mpr env.suffix_name]
    decide
  have hsql : (".sql".toList).count '/' = 0 := by decide
  have hcase : ([] : Text).count '/' < env.mEnvCASE.text.count '/' :=
    List.count_pos_iff.mpr env.mEnvCASE.separator_mem
  have hlost := count_replaceAll_lt env.mEnvCASE.ne_nil hcase hin
  rw [replaceAll_self env.mEnvCASE.ne_nil, List.count_append, hsql] at hlost
  have hkept : (env.mEnvSUFFIX_RE ++ ".out".toList).count '/' ≤ (".sql".toList).count '/' :=
    hsuffix.trans_le (Nat.zero_le _)
  have hgained := count_replaceAll_le sql_ne_nil hkept
    (env.mEnvRESULT.text ++ replaceAll env.mEnvCASE.text [] (stem ++ ".sql".toList))
  rw [replaceAll_self sql_ne_nil, ← derivedFrom_script staf, ← derive_eq, hplace,
    derivedFrom_script] at hgained
  simp only [List.count_append] at hgained
  omega

/-- An `o` more for each occurrence tells how often the suffix was exchanged. -/
private theorem suffix_of_place {stem : Text}
    (hcase : ¬env.mEnvCASE.text <:+: stem ++ ".sql".toList)
    (hre : derive staf env ".out".toList (env.mEnvCASE.script stem) =
      env.mEnvRESULT.text ++ (stem ++ (env.mEnvSUFFIX_RE ++ ".out".toList)))
    (htdx : derive staf env ".tdx".toList (env.mEnvCASE.script stem) =
      env.mEnvRESULT.text ++ (stem ++ (env.mEnvSUFFIX_RE ++ ".tdx".toList))) :
    ¬".sql".toList <:+: env.mEnvRESULT.text ++ stem := by
  intro hin
  obtain ⟨u, v, -, hscan⟩ := exists_replaceAll_append sql_ne_nil hin
  have hmore : (env.mEnvSUFFIX_RE ++ ".tdx".toList).count 'o' <
      (env.mEnvSUFFIX_RE ++ ".out".toList).count 'o' := by
    rw [List.count_append, List.count_append]
    exact Nat.add_lt_add_left (by decide) _
  have hrest := count_replaceAll_lt sql_ne_nil hmore
    (List.suffix_append v ".sql".toList).isInfix
  rw [derive_eq, derivedFrom_script, replaceAll_of_absent _ hcase, ← List.append_assoc,
    hscan, ← List.append_assoc] at hre htdx
  have hreCount := congrArg (List.count 'o') hre
  have htdxCount := congrArg (List.count 'o') htdx
  simp only [List.count_append] at hreCount htdxCount hrest
  omega

variable (staf) in
theorem files_eq_places_iff (stem : Text) :
    files staf env (env.mEnvCASE.script stem) = places env stem ↔ Plain env stem := by
  constructor
  · intro h
    obtain ⟨hre, htdx, -⟩ : _ ∧ _ ∧ _ := by
      simpa only [files, places, List.map_cons, List.map_nil, List.cons.injEq] using h
    have hcase := caseDir_of_place hre
    exact ⟨hcase, suffix_of_place hcase hre htdx⟩
  · intro h
    simp only [files, places, mRe, mTdx, mTgz, derive_of_plain h, List.map_cons, List.map_nil]

/-- A derived path never ends with the suffix of a script, if its own ending does not. -/
theorem derive_ne {ext aIn : Text} {a : Char} (hext : ext.getLast? = some a)
    (ha : a ∉ ".sql".toList) (hsql : ".sql".toList <:+ aIn) : derive staf env ext aIn ≠ aIn := by
  have hlast : (env.mEnvSUFFIX_RE ++ ext).getLast? = some a := by
    rw [List.getLast?_append, hext]
    rfl
  intro heq
  rw [derive_eq] at heq
  exact not_suffix_replaceAll sql_ne_nil hlast ha _ (heq ▸ hsql)

private theorem place_inj {stem stem' ext ext' : Text} (hlength : ext.length = ext'.length)
    (h : env.mEnvRESULT.text ++ (stem ++ (env.mEnvSUFFIX_RE ++ ext)) =
      env.mEnvRESULT.text ++ (stem' ++ (env.mEnvSUFFIX_RE ++ ext'))) :
    stem = stem' ∧ ext = ext' := by
  obtain ⟨hstem, htail⟩ := List.append_inj' (List.append_cancel_left h) (by simp [hlength])
  exact ⟨hstem, List.append_cancel_left htail⟩

theorem nodup_places {stem stem' : Text} (hne : stem ≠ stem') :
    (places env stem ++ places env stem').Nodup := by
  have hexts : [".out".toList, ".tdx".toList, ".tgz".toList].Nodup := by decide
  have hlength : ∀ ext ∈ [".out".toList, ".tdx".toList, ".tgz".toList], ext.length = 4 := by
    decide
  have hplaces : ∀ stem, (places env stem).Nodup := by
    intro stem
    refine List.Nodup.map_on (fun ext hext ext' hext' h => ?_) hexts
    exact (place_inj ((hlength ext hext).trans (hlength ext' hext').symm) h).2
  rw [List.nodup_append]
  refine ⟨hplaces stem, hplaces stem', ?_⟩
  intro path hpath path' hpath' h
  obtain ⟨ext, hext, rfl⟩ := List.mem_map.mp hpath
  obtain ⟨ext', hext', rfl⟩ := List.mem_map.mp hpath'
  exact hne (place_inj ((hlength ext hext).trans (hlength ext' hext').symm) h).1

theorem notMem_files {aIn : Text} (hsql : ".sql".toList <:+ aIn) : aIn ∉ files staf env aIn := by
  intro h
  rcases List.mem_cons.mp h with h | h
  · exact derive_ne (a := 't') rfl (by decide) hsql h.symm
  rcases List.mem_cons.mp h with h | h
  · exact derive_ne (a := 'x') rfl (by decide) hsql h.symm
  · exact derive_ne (a := 'z') rfl (by decide) hsql (List.mem_singleton.mp h).symm

/-- Every oracle that is looked for is a file other than the script. -/
theorem mLs_ne {exist : Text → Bool} {aIn : Text} (hsql : ".sql".toList <:+ aIn) :
    mLs staf env exist aIn ≠ aIn := by
  have hls : ∀ s : Text, staf.replace aIn ".sql".toList (s ++ ".lst".toList) ≠ aIn := by
    intro s heq
    have hlast : (s ++ ".lst".toList).getLast? = some 't' := by
      rw [List.getLast?_append]
      rfl
    rw [staf.replace_eq _ _ _ sql_ne_nil] at heq
    exact not_suffix_replaceAll sql_ne_nil hlast (by decide) _ (heq ▸ hsql)
  refine List.foldlRecOn env.mEnvSUFFIX_OR _ (motive := (· ≠ aIn)) (hls _) ?_
  intro ls hne sWord _
  dsimp only
  split
  · exact hls _
  · exact hne

end Derived

theorem pathsApart_iff (staf : Staf) (env : PathEnv) (pair : ScriptPair) :
    PathsApart staf env pair ↔ Plain env pair.one ∧ Plain env pair.two := by
  constructor
  · intro h
    exact ⟨(files_eq_places_iff staf pair.one).mp h.one,
      (files_eq_places_iff staf pair.two).mp h.two⟩
  · rintro ⟨hone, htwo⟩
    have hfiles := (files_eq_places_iff staf pair.one).mpr hone
    have hfiles' := (files_eq_places_iff staf pair.two).mpr htwo
    refine ⟨hfiles, hfiles', ?_, fun aIn hsql _ _ => notMem_files hsql⟩
    rw [hfiles, hfiles']
    exact nodup_places pair.differ

/-- The text of the case directory `/c` stands twice in the path of `/c/c/x.sql`. -/
def twice : ScriptPair where
  one := "/x".toList
  two := "/c/x".toList
  one_below := rfl
  two_below := rfl
  differ := by decide +kernel

def twiceEnv : PathEnv where
  mEnvCASE := ⟨"/c".toList, rfl, by decide +kernel⟩
  mEnvCASE_USER := ⟨"/u".toList, rfl, by decide +kernel⟩
  mEnvRESULT := ⟨"/r".toList, rfl, by decide +kernel⟩
  mEnvSUFFIX_RE := []
  mEnvSUFFIX_OR := []
  suffix_name := List.not_mem_nil

/-- The two scripts get the same files. -/
theorem not_pathsApart_twice : ¬PathsApart Staf.ascii twiceEnv twice := by
  intro h
  have hdistinct := h.distinct
  revert hdistinct
  decide +kernel

end Natc.Ats.ResultPaths
