import Natc.Ats.SetEnv
import Natc.Lib.Expand

/-!
# Variable references in the value of a variable

`addEnv` replaces the references to one variable after the other, in the order of the map behind
the two directories of the framework. Each pass goes over the whole text that the passes before it
have left.
-/

namespace Natc.Ats.Expansion

open Lib Lib.Expand SetEnv

variable (w : StafWords) (env : ServiceEnv) (s : Servicer) (aKey : Key) (aEnv aAlias : Text)

/-- The variables in the order in which `addEnv` replaces them. -/
def replaced (entries : List (Text × Text)) : List (Binding Char) :=
  [("ATC_HOME".toList, s.mEnvCASE), ("ALTIBASE_HOME".toList, s.mEnvHOME)] ++ entries

/-- The variable has the text as its value, with all references expanded at once, whatever the
order of the map. -/
def Expanded (s' : Servicer) : Prop :=
  ∀ entries, entries.Perm (s.mServerMap aAlias).entries →
    (s'.mServerMap aAlias).find aKey.text =
      some (w.staf.strip (expandAll '$' (replaced s entries) aEnv))

/-- The text does not ask for the database key, and when the turn of a variable comes its name
stands behind a dollar only where the text refers to it. -/
def Separate : Prop :=
  ¬"%SHM_DB_KEY".toList <:+: aEnv ∧
    Apart '$' (pieces '$' (replaced s (s.mServerMap aAlias).entries) aEnv) []
      (replaced s (s.mServerMap aAlias).entries)

variable {w env s aKey aEnv aAlias}

theorem ite_replace_eq {p : Text} (hp : p ≠ []) (text r : Text) :
    (if w.staf.contains text p = true then w.staf.replace text p r else text) =
      replaceAll p r text := by
  by_cases h : w.staf.contains text p = true
  · rw [if_pos h, w.staf.replace_eq _ _ _ hp]
  · rw [if_neg h, replaceAll_of_absent]
    exact fun hinfix => h ((w.staf.contains_iff _ _).mpr hinfix)

theorem foldl_replace_eq (entries : List (Text × Text)) (text : Text) :
    entries.foldl (fun sEnv entry => w.staf.replace sEnv ('$' :: entry.1) entry.2) text =
      replaceEach '$' entries text := by
  induction entries generalizing text with
  | nil => rfl
  | cons entry entries ih =>
    rw [List.foldl_cons, w.staf.replace_eq _ _ _ (List.cons_ne_nil _ _), ih]
    rfl

/-- The blanks that the code puts behind the text do not change anything. -/
theorem addEnv_eq (hport : ¬"%SHM_DB_KEY".toList <:+: aEnv) :
    s.addEnv w env aKey aEnv aAlias =
      s.withParams aAlias ((s.mServerMap aAlias).set aKey
        (w.staf.strip (replaceEach '$' (replaced s (s.mServerMap aAlias).entries) aEnv))) := by
  have hblank : ∀ c ∈ List.replicate (65536 - 1) ' ', c = ' ' := by
    intro c hc
    exact List.eq_of_mem_replicate hc
  have hcontains : ¬w.staf.contains (aEnv ++ List.replicate (65536 - 1) ' ')
      "%SHM_DB_KEY".toList = true := by
    rw [w.staf.contains_iff, infix_append_right_iff (by decide)]
    · exact hport
    · intro c hc
      rw [hblank c hc]
      decide
  have hvariable : ∀ b ∈ replaced s (s.mServerMap aAlias).entries, ' ' ∉ b.1 := by
    intro b hb
    rcases List.mem_append.mp hb with hb | hb
    · rcases List.mem_cons.mp hb with rfl | hb
      · show ' ' ∉ "ATC_HOME".toList
        decide
      · rw [List.mem_singleton.mp hb]
        show ' ' ∉ "ALTIBASE_HOME".toList
        decide
    · exact (s.mServerMap aAlias).noBlank b hb
  have hpad : replaceEach '$' (replaced s (s.mServerMap aAlias).entries)
      (aEnv ++ List.replicate (65536 - 1) ' ') =
      replaceEach '$' (replaced s (s.mServerMap aAlias).entries) aEnv ++
        List.replicate (65536 - 1) ' ' := by
    apply replaceEach_append
    · intro hmem
      exact absurd (hblank _ hmem) (by decide)
    · intro b hb c hc
      rw [hblank c hc]
      exact hvariable b hb
  unfold Servicer.addEnv
  simp only [if_neg hcontains]
  rw [if_neg (fun hand => hcontains hand.1), ite_replace_eq (by decide), ite_replace_eq (by decide),
    foldl_replace_eq, w.staf.strip_eq, w.staf.strip_eq]
  show s.withParams aAlias ((s.mServerMap aAlias).set aKey (stripWith w.staf.white
    (replaceEach '$' (replaced s (s.mServerMap aAlias).entries) (aEnv ++ _)))) = _
  rw [hpad, stripWith_append_replicate w.staf.white_blank]

/-- The value is right where no variable finds its name in something that is not a reference to
it. -/
theorem addEnv_expanded (w : StafWords) (env : ServiceEnv) (s : Servicer) (aKey : Key)
    (aEnv aAlias : Text) (hmap : ((s.mServerMap aAlias).entries.map Prod.fst).Nodup)
    (hseparate : Separate s aEnv aAlias) :
    Expanded w s aKey aEnv aAlias (s.addEnv w env aKey aEnv aAlias) := by
  intro entries hperm
  rw [addEnv_eq hseparate.1, withParams_self, Params.find_set, if_pos rfl,
    replaceEach_eq_expandAll hseparate.2]
  show some (w.staf.strip (expandAll '$' (_ ++ _) aEnv)) = some _
  rw [← expandAll_perm hperm hmap]
  rfl

section Example

def entriesAB (value : Text) : Params where
  entries := [(['A'], ['1']), (['A', 'B'], value)]
  noBlank := by simp

/-- Two variables of the default server; the name of one is a prefix of the name of the other. -/
def prefixNames : Servicer := ⟨fun _ => entriesAB ['2'], fun _ => [], ['c'], ['h']⟩

theorem addEnv_expanded_A :
    Expanded asciiWords prefixNames ⟨['K'], by decide⟩ "x$A/$ATC_HOME".toList "DEFAULT".toList
      (prefixNames.addEnv asciiWords ⟨[], []⟩ ⟨['K'], by decide⟩ "x$A/$ATC_HOME".toList
        "DEFAULT".toList) :=
  addEnv_expanded _ _ _ _ _ _ (by decide) ⟨by decide, by decide⟩

/-- `$AB` becomes `1B`: the pass for `A` comes first. -/
theorem not_expanded_AB :
    ¬∀ (w : StafWords) (env : ServiceEnv) (s : Servicer) (aKey : Key) (aEnv aAlias : Text),
      ((s.mServerMap aAlias).entries.map Prod.fst).Nodup →
        Expanded w s aKey aEnv aAlias (s.addEnv w env aKey aEnv aAlias) := by
  intro h
  have hvalue := h asciiWords ⟨[], []⟩ prefixNames ⟨['K'], by decide⟩ "$AB".toList
    "DEFAULT".toList (by decide) _ (List.Perm.refl _)
  rw [addEnv_eq (by decide), withParams_self, Params.find_set, if_pos rfl] at hvalue
  exact absurd hvalue (by decide)

end Example

end Natc.Ats.Expansion
