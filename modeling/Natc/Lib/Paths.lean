import Natc.Lib.Tokens

/-!
# Path names

What a path name denotes: whether it begins at the root, and its components. Separators that follow
one another count as one. A name behind a directory goes on from it if the directory ends with a
separator, and else runs into its last component.
-/

namespace Natc.Lib

/-- A place in a tree of directories. -/
structure Path (α : Type*) where
  absolute : Bool
  parts : List (List α)
  deriving DecidableEq

namespace Path

variable {α : Type*}

def join (p q : Path α) : Path α := ⟨p.absolute, p.parts ++ q.parts⟩

def parent (p : Path α) : Path α := ⟨p.absolute, p.parts.dropLast⟩

def root : Path α := ⟨true, []⟩

/-- Where relative names begin. -/
def here : Path α := ⟨false, []⟩

/-- A place in front of an absolute one is the root. -/
theorem join_eq_right_iff {p q : Path α} (hq : q.absolute = true) : join p q = q ↔ p = root := by
  cases p
  cases q
  simp only at hq
  simp [join, root, hq]

/-- A name that is empty or ends with a separator. -/
def Closed (sep : α) (s : List α) : Prop := ∀ c ∈ s.getLast?, c = sep

theorem closed_nil {sep : α} : Closed sep [] := fun c hc => by simp at hc

theorem closed_append_sep {sep : α} (s : List α) : Closed sep (s ++ [sep]) := by
  intro c hc
  rw [List.getLast?_concat, Option.mem_some_iff] at hc
  exact hc.symm

theorem Closed.eq {sep : α} {s : List α} (h : Closed sep s) : s = [] ∨ ∃ u, s = u ++ [sep] := by
  rcases List.eq_nil_or_concat s with hnil | ⟨u, c, rfl⟩
  · exact Or.inl hnil
  · rw [List.concat_eq_append] at h ⊢
    have hc : c = sep := h c (by simp)
    exact Or.inr ⟨u, by rw [hc]⟩

theorem not_closed_append {sep : α} {t : List α} (h : ¬Closed sep t) (s : List α) :
    ¬Closed sep (s ++ t) := by
  intro hclosed
  have ht : t ≠ [] := fun heq => h (heq ▸ closed_nil)
  refine h fun c hc => hclosed c ?_
  rw [List.getLast?_append_of_ne_nil _ ht]
  exact hc

variable [DecidableEq α] (sep : α)

def isAbsolute (s : List α) : Bool := s.head? = some sep

def components (s : List α) : List (List α) := tokens (fun c => c = sep) s

/-- What a name denotes. -/
def of (s : List α) : Path α := ⟨isAbsolute sep s, components sep s⟩

/-- The name up to its last separator. -/
def dirName (s : List α) : List α := s.rdropWhile fun c => c ≠ sep

/-- The name behind its last separator. -/
def baseName (s : List α) : List α := s.rtakeWhile fun c => c ≠ sep

theorem dirName_append_baseName (s : List α) : dirName sep s ++ baseName sep s = s :=
  List.rdropWhile_append_rtakeWhile

variable {sep} {s t u : List α}

@[simp] theorem of_nil : of sep [] = here := rfl

theorem isWord_iff {w : List α} : IsWord (fun c => c = sep) w ↔ ∀ c ∈ w, c ≠ sep :=
  forall₂_congr fun _ _ => decide_eq_false_iff_not

/-- A name goes on behind a directory that ends with a separator. -/
theorem components_append (h : Closed sep s) (t : List α) :
    components sep (s ++ t) = components sep s ++ components sep t :=
  tokens_append_of_last (fun c hc => decide_eq_true (h c hc)) t

theorem isAbsolute_append (h : s ≠ []) (t : List α) :
    isAbsolute sep (s ++ t) = isAbsolute sep s := by
  rw [isAbsolute, List.head?_append_of_ne_nil _ h, isAbsolute]

theorem of_append_sep (hs : s ≠ []) : of sep (s ++ [sep]) = of sep s := by
  have hparts := @tokens_append _ (fun c => decide (c = sep)) sep (decide_eq_true rfl) s []
  rw [of, isAbsolute_append hs, components, hparts, of]
  exact congrArg _ (List.append_nil _)

theorem of_append (h : Closed sep s) (hne : s ≠ []) (t : List α) :
    of sep (s ++ t) = join (of sep s) (of sep t) := by
  rw [of, components_append h, isAbsolute_append hne]
  rfl

/-- A relative name goes on behind any directory, also behind the empty one. -/
theorem of_append_relative (h : Closed sep s) (ht : isAbsolute sep t = false) :
    of sep (s ++ t) = join (of sep s) (of sep t) := by
  by_cases hne : s = []
  · rw [hne, List.nil_append, of_nil, of, ht]
    rfl
  · exact of_append h hne t

/-! ## The directory of a name -/

theorem closed_dirName (s : List α) : Closed sep (dirName sep s) := by
  intro c hc
  by_contra hne
  have hnil : dirName sep s ≠ [] := by
    rintro heq
    rw [heq] at hc
    simp at hc
  have hlast := List.rdropWhile_last_not (fun c => decide (c ≠ sep)) s hnil
  rw [List.getLast?_eq_some_getLast hnil, Option.mem_some_iff] at hc
  exact hlast (decide_eq_true (hc ▸ hne))

theorem ne_sep_of_mem_baseName {c : α} (h : c ∈ baseName sep s) : c ≠ sep :=
  of_decide_eq_true (@List.mem_rtakeWhile_imp _ (fun c => decide (c ≠ sep)) s c h)

theorem components_dirName (h : baseName sep s ≠ []) :
    components sep s = components sep (dirName sep s) ++ [baseName sep s] := by
  have hbase : IsWord (fun c => c = sep) (baseName sep s) :=
    isWord_iff.mpr fun c hc => ne_sep_of_mem_baseName hc
  rw [← tokens_word hbase h, ← components, ← components_append (closed_dirName s),
    dirName_append_baseName]

/-- The directory of a file is the place that its name begins with. -/
theorem of_dirName (h : baseName sep s ≠ []) : of sep (dirName sep s) = parent (of sep s) := by
  rw [parent, of, of, components_dirName h, List.dropLast_concat, Path.mk.injEq]
  refine ⟨?_, rfl⟩
  have hsplit := dirName_append_baseName sep s
  by_cases hdir : dirName sep s = []
  · rw [hdir, List.nil_append] at hsplit
    rw [hdir]
    refine (decide_eq_false fun heq => ?_).symm
    exact ne_sep_of_mem_baseName (hsplit.symm ▸ List.mem_of_mem_head? heq) rfl
  · rw [← isAbsolute_append hdir (baseName sep s), hsplit]

theorem baseName_ne_nil (h : ¬Closed sep s) : baseName sep s ≠ [] := by
  intro heq
  have hsplit := dirName_append_baseName sep s
  rw [heq, List.append_nil] at hsplit
  exact h (hsplit ▸ closed_dirName s)

theorem Closed.baseName_eq_nil (h : Closed sep s) : baseName sep s = [] := by
  rcases h.eq with rfl | ⟨u, rfl⟩
  · rfl
  · exact List.rtakeWhile_concat_neg _ _ _ (by simp)

/-- A name behind a directory that does not end with a separator runs into it: one component is
lost. -/
theorem length_components_append (hs : ¬Closed sep s) (ht : isAbsolute sep t = false)
    (hne : t ≠ []) : (components sep (s ++ t)).length + 1 =
      (components sep s).length + (components sep t).length := by
  obtain ⟨c, u, rfl⟩ := List.exists_cons_of_ne_nil hne
  have hc : ¬decide (c = sep) = true := fun heq =>
    of_decide_eq_false ht (congrArg some (of_decide_eq_true heq))
  -- the first component of the name joins the last one of the directory
  have hdrop : (c :: u).dropWhile (fun c => decide (c = sep)) = c :: u := by
    rw [List.dropWhile_cons, if_neg hc]
  have hsplit := @firstWord_append_afterWord _ (fun c => decide (c = sep)) (c :: u)
  rw [hdrop] at hsplit
  have hfirst : firstWord (fun c => decide (c = sep)) (c :: u) ≠ [] := by
    rw [firstWord, hdrop, List.takeWhile_cons, if_pos (by simpa using hc)]
    exact List.cons_ne_nil _ _
  have hrest := @sep_of_head?_afterWord _ (fun c => decide (c = sep)) (c :: u)
  have hjoined : IsWord (fun c => decide (c = sep))
      (baseName sep s ++ firstWord (fun c => decide (c = sep)) (c :: u)) := by
    intro d hd
    rcases List.mem_append.mp hd with hd | hd
    · exact decide_eq_false (ne_sep_of_mem_baseName hd)
    · exact isWord_firstWord _ d hd
  have hwhole : s ++ (c :: u) = dirName sep s ++
      ((baseName sep s ++ firstWord (fun c => decide (c = sep)) (c :: u)) ++
        afterWord (fun c => decide (c = sep)) (c :: u)) := by
    rw [List.append_assoc, hsplit, ← List.append_assoc, dirName_append_baseName]
  rw [hwhole, components_append (closed_dirName s), components_dirName (baseName_ne_nil hs),
    components, components, tokens_append_of_head hrest,
    tokens_word hjoined (List.append_ne_nil_of_right_ne_nil _ hfirst), components,
    tokens_eq_firstWord _ hfirst]
  simp only [List.length_append, List.length_cons, List.length_nil]
  omega

end Path

end Natc.Lib
