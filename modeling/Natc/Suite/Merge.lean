import Mathlib.Data.List.InsertIdx
import Natc.Suite.CaseManager

/-!
# Merging the cases of a user

`mergeCase` puts the cases of the user's list into the shared list. A case that the shared list has
under the corresponding name is copied over it, field by field, and the others are inserted.
-/

namespace Natc.Suite

open Lib

/-- A node of `mCaseList`, and whether the merge has inserted it. -/
structure Node where
  info : CaseInfo
  inserted : Bool
  deriving DecidableEq, Repr

/-- What `mergeCase` copies of a user's case. -/
def CaseInfo.update (shared user : CaseInfo) : CaseInfo :=
  { shared with
    caseName := user.caseName
    caseType := user.caseType
    caseComment := user.caseComment
    caseFlag := user.caseFlag
    caseMark := user.caseMark }

/-- The variables of the loop; the iterators are positions, with the length for `end()`. -/
structure Merge where
  mCaseList : List Node
  sIteratorKeep : Nat
  /-- The user's list is at its first case. -/
  begin : Bool
  deriving DecidableEq, Repr

section Merge

variable (sUserCasePath sSharedCasePath : Text)

/-- The name of the case below the directory of the user, put below the shared one. -/
def sCompareName (user : CaseInfo) : Text :=
  sSharedCasePath ++ user.caseName.drop sUserCasePath.length

def Merge.step (s : Merge) (user : CaseInfo) : Merge :=
  let found := s.mCaseList.findIdx? fun node =>
    node.info.caseName = sCompareName sUserCasePath sSharedCasePath user
  match found with
  | some sIteratorTmp =>
      { mCaseList := s.mCaseList.modify sIteratorTmp fun node =>
          { node with info := node.info.update user }
        sIteratorKeep := sIteratorTmp + 1
        begin := false }
  | none =>
      if s.begin then
        { mCaseList := s.mCaseList.insertIdx s.mCaseList.length ⟨user, true⟩
          sIteratorKeep := s.mCaseList.length + 1
          begin := false }
      else
        { mCaseList := s.mCaseList.insertIdx s.sIteratorKeep ⟨user, true⟩
          sIteratorKeep := s.sIteratorKeep + 1
          begin := false }

/-- `sIteratorKeep` is not used before it is set. -/
def mergeCase (mCaseList mLocalCaseList : List CaseInfo) : List Node :=
  (mLocalCaseList.foldl (Merge.step sUserCasePath sSharedCasePath)
    ⟨mCaseList.map fun shared => ⟨shared, false⟩, 0, true⟩).mCaseList

/-! ## What a merge is for -/

/-- A case of the shared list with the user's case that overrides it. -/
structure Slot where
  shared : CaseInfo
  user : Option CaseInfo
  deriving DecidableEq, Repr

/-- The case that belongs in the place. -/
def Slot.case (slot : Slot) : CaseInfo := slot.user.getD slot.shared

/-- The places of the shared list, and the cases of the user that override none. -/
structure Overrides where
  slots : List Slot
  extra : List CaseInfo
  deriving DecidableEq, Repr

/-- A user's case overrides the first case of its name that no other one has overridden. -/
def Overrides.take (o : Overrides) (user : CaseInfo) : Overrides :=
  let found := o.slots.findIdx? fun slot => slot.user = none ∧
    slot.shared.caseName = sCompareName sUserCasePath sSharedCasePath user
  match found with
  | some i => { o with slots := o.slots.modify i fun slot => { slot with user := some user } }
  | none => { o with extra := user :: o.extra }

def overrides (mCaseList mLocalCaseList : List CaseInfo) : Overrides :=
  mLocalCaseList.foldl (Overrides.take sUserCasePath sSharedCasePath)
    ⟨mCaseList.map fun shared => ⟨shared, none⟩, []⟩

/-- Every case of either list is there once: the places of the shared list hold their own case or
the one that overrides it, in order, and the other cases of the user have been inserted. -/
def Merged (mCaseList mLocalCaseList : List CaseInfo) (nodes : List Node) : Prop :=
  (nodes.filter fun node => !node.inserted).map Node.info =
      (overrides sUserCasePath sSharedCasePath mCaseList mLocalCaseList).slots.map Slot.case ∧
    ((nodes.filter Node.inserted).map Node.info).Perm
      (overrides sUserCasePath sSharedCasePath mCaseList mLocalCaseList).extra

/-- No case of the user has the shared name of a later one as its own. -/
def Separate (mLocalCaseList : List CaseInfo) : Prop :=
  mLocalCaseList.Pairwise fun earlier later =>
    earlier.caseName ≠ sCompareName sUserCasePath sSharedCasePath later

/-- An overridden case has the platform and the suite of the one that overrides it. -/
def Agree (mCaseList mLocalCaseList : List CaseInfo) : Prop :=
  ∀ slot ∈ (overrides sUserCasePath sSharedCasePath mCaseList mLocalCaseList).slots,
    ∀ user, slot.user = some user →
      slot.shared.casePlatformName = user.casePlatformName ∧ slot.shared.tsName = user.tsName

end Merge

/-- What the merge leaves in a place. -/
def Slot.merged (slot : Slot) : CaseInfo :=
  match slot.user with
  | none => slot.shared
  | some user => slot.shared.update user

theorem update_eq_iff (shared user : CaseInfo) :
    shared.update user = user ↔
      shared.casePlatformName = user.casePlatformName ∧ shared.tsName = user.tsName := by
  cases shared
  cases user
  simp [CaseInfo.update]

theorem merged_eq_case_iff (slot : Slot) :
    slot.merged = slot.case ↔ ∀ user, slot.user = some user →
      slot.shared.casePlatformName = user.casePlatformName ∧ slot.shared.tsName = user.tsName := by
  obtain ⟨shared, user⟩ := slot
  cases user with
  | none =>
    refine ⟨fun _ user h => ?_, fun _ => rfl⟩
    cases h
  | some user =>
    show shared.update user = user ↔ _
    rw [update_eq_iff]
    refine ⟨fun h other hother => ?_, fun h => h user rfl⟩
    cases hother
    exact h

theorem mem_modify_cases {α : Type} {f : α → α} {l : List α} {i : Nat} {x : α}
    (h : x ∈ l.modify i f) : x ∈ l ∨ ∃ y ∈ l, x = f y := by
  induction l generalizing i with
  | nil =>
    rw [List.modify_nil] at h
    exact Or.inl h
  | cons y l ih =>
    cases i with
    | zero =>
      rw [List.modify_zero_cons] at h
      rcases List.mem_cons.mp h with rfl | h
      · exact Or.inr ⟨y, List.mem_cons_self, rfl⟩
      · exact Or.inl (List.mem_cons_of_mem _ h)
    | succ i =>
      rw [List.modify_succ_cons] at h
      rcases List.mem_cons.mp h with rfl | h
      · exact Or.inl List.mem_cons_self
      · rcases ih h with h | ⟨z, hz, rfl⟩
        · exact Or.inl (List.mem_cons_of_mem _ h)
        · exact Or.inr ⟨z, List.mem_cons_of_mem _ hz, rfl⟩

/-- The nodes are the places in order, with inserted nodes anywhere between them. -/
inductive Holds : List Node → List Slot → Prop
  | nil : Holds [] []
  | inserted {info : CaseInfo} {nodes : List Node} {slots : List Slot} :
      Holds nodes slots → Holds (⟨info, true⟩ :: nodes) slots
  | place {slot : Slot} {nodes : List Node} {slots : List Slot} :
      Holds nodes slots → Holds (⟨slot.merged, false⟩ :: nodes) (slot :: slots)

namespace Holds

variable {nodes : List Node} {slots : List Slot}

theorem start (mCaseList : List CaseInfo) :
    Holds (mCaseList.map fun shared => ⟨shared, false⟩)
      (mCaseList.map fun shared => ⟨shared, none⟩) := by
  induction mCaseList with
  | nil => exact .nil
  | cons shared rest ih => exact @place ⟨shared, none⟩ _ _ ih

theorem places (h : Holds nodes slots) :
    (nodes.filter fun node => !node.inserted).map Node.info = slots.map Slot.merged := by
  induction h with
  | nil => rfl
  | inserted _ ih => exact ih
  | place _ ih =>
    rw [List.filter_cons_of_pos rfl, List.map_cons, List.map_cons, ih]

theorem insertIdx (h : Holds nodes slots) (user : CaseInfo) {k : Nat} (hk : k ≤ nodes.length) :
    Holds (nodes.insertIdx k ⟨user, true⟩) slots := by
  induction h generalizing k with
  | nil =>
    obtain rfl := Nat.le_zero.mp hk
    exact .inserted .nil
  | inserted h ih =>
    cases k with
    | zero => exact .inserted (.inserted h)
    | succ k => exact .inserted (ih (Nat.le_of_succ_le_succ hk))
  | place h ih =>
    cases k with
    | zero => exact .inserted (.place h)
    | succ k => exact .place (ih (Nat.le_of_succ_le_succ hk))

/-- The search finds the place that the case is to override, when no node of the user has the
name. -/
theorem find (h : Holds nodes slots) (name : Text) (user : CaseInfo)
    (hinserted : ∀ node ∈ nodes, node.inserted = true → node.info.caseName ≠ name)
    (hslots : ∀ slot ∈ slots, ∀ u, slot.user = some u → u.caseName ≠ name) :
    (nodes.findIdx? (fun node => node.info.caseName = name) = none ∧
        slots.findIdx? (fun slot => slot.user = none ∧ slot.shared.caseName = name) = none) ∨
      ∃ i k, nodes.findIdx? (fun node => node.info.caseName = name) = some i ∧
        slots.findIdx? (fun slot => slot.user = none ∧ slot.shared.caseName = name) = some k ∧
        Holds (nodes.modify i fun node => { node with info := node.info.update user })
          (slots.modify k fun slot => { slot with user := some user }) ∧
        ((nodes.modify i fun node => { node with info := node.info.update user }).filter
          Node.inserted) = nodes.filter Node.inserted ∧ i < nodes.length := by
  induction h with
  | nil => exact Or.inl ⟨rfl, rfl⟩
  | @inserted info nodes slots h ih =>
    have hne : info.caseName ≠ name := hinserted ⟨info, true⟩ List.mem_cons_self rfl
    rw [List.findIdx?_cons, if_neg (by simpa using hne)]
    rcases ih (fun node hnode => hinserted node (List.mem_cons_of_mem _ hnode)) hslots with
      ⟨hnone, hfree⟩ | ⟨i, k, hfind, hfree, hholds, hkeep, hlt⟩
    · exact Or.inl ⟨by rw [hnone]; rfl, hfree⟩
    · refine Or.inr ⟨i + 1, k, by rw [hfind]; rfl, hfree, .inserted hholds, ?_, Nat.succ_lt_succ hlt⟩
      rw [List.modify_succ_cons, List.filter_cons_of_pos rfl, List.filter_cons_of_pos rfl, hkeep]
  | @place slot nodes slots h ih =>
    have hsame : (decide (slot.merged.caseName = name) = true) ↔
        decide (slot.user = none ∧ slot.shared.caseName = name) = true := by
      rw [decide_eq_true_eq, decide_eq_true_eq]
      obtain ⟨shared, taken⟩ := slot
      cases taken with
      | none => exact ⟨fun h => ⟨rfl, h⟩, fun h => h.2⟩
      | some u =>
        exact ⟨fun h => absurd h (hslots _ List.mem_cons_self u rfl), fun h => by cases h.1⟩
    rw [List.findIdx?_cons, List.findIdx?_cons]
    by_cases hhere : slot.user = none ∧ slot.shared.caseName = name
    · rw [if_pos (hsame.mpr (decide_eq_true hhere)), if_pos (decide_eq_true hhere)]
      refine Or.inr ⟨0, 0, rfl, rfl, ?_, ?_, Nat.zero_lt_succ _⟩
      · obtain ⟨shared, taken⟩ := slot
        obtain rfl := hhere.1
        exact @place ⟨shared, some user⟩ _ _ h
      · rw [List.modify_zero_cons, List.filter_cons_of_neg Bool.false_ne_true,
          List.filter_cons_of_neg Bool.false_ne_true]
    · have hskip : ¬decide (slot.user = none ∧ slot.shared.caseName = name) = true :=
        fun h => hhere (of_decide_eq_true h)
      rw [if_neg (fun h => hskip (hsame.mp h)), if_neg hskip]
      rcases ih (fun node hnode => hinserted node (List.mem_cons_of_mem _ hnode))
          (fun s hs => hslots s (List.mem_cons_of_mem _ hs)) with
        ⟨hnone, hfree⟩ | ⟨i, k, hfind, hfree, hholds, hkeep, hlt⟩
      · exact Or.inl ⟨by rw [hnone]; rfl, by rw [hfree]; rfl⟩
      · refine Or.inr ⟨i + 1, k + 1, by rw [hfind]; rfl, by rw [hfree]; rfl, .place hholds, ?_,
          Nat.succ_lt_succ hlt⟩
        rw [List.modify_succ_cons, List.filter_cons_of_neg Bool.false_ne_true,
          List.filter_cons_of_neg Bool.false_ne_true, hkeep]

end Holds

section Run

variable {sUserCasePath sSharedCasePath : Text}

/-- The merge behind some cases of the user. -/
structure Going (handled : List CaseInfo) (s : Merge) (o : Overrides) : Prop where
  holds : Holds s.mCaseList o.slots
  perm : ((s.mCaseList.filter Node.inserted).map Node.info).Perm o.extra
  extra : ∀ user ∈ o.extra, user ∈ handled
  taken : ∀ slot ∈ o.slots, ∀ user, slot.user = some user → user ∈ handled
  keep : s.begin = false → s.sIteratorKeep ≤ s.mCaseList.length

namespace Going

variable {handled : List CaseInfo} {s : Merge} {o : Overrides}

theorem start (mCaseList : List CaseInfo) :
    Going [] ⟨mCaseList.map fun shared => ⟨shared, false⟩, 0, true⟩
      ⟨mCaseList.map fun shared => ⟨shared, none⟩, []⟩ where
  holds := Holds.start mCaseList
  perm := by
    have hnone : (mCaseList.map fun shared => (⟨shared, false⟩ : Node)).filter Node.inserted = [] := by
      rw [List.filter_eq_nil_iff]
      intro node hnode
      obtain ⟨shared, _, rfl⟩ := List.mem_map.mp hnode
      exact Bool.false_ne_true
    rw [hnone]
    exact List.Perm.refl []
  extra user h := absurd h List.not_mem_nil
  taken slot hslot user huser := by
    obtain ⟨shared, _, rfl⟩ := List.mem_map.mp hslot
    cases huser
  keep h := by cases h

/-- An insertion, wherever it is made. -/
theorem insert (h : Going handled s o) (user : CaseInfo) {k : Nat}
    (hk : k ≤ s.mCaseList.length) :
    Going (user :: handled) ⟨s.mCaseList.insertIdx k ⟨user, true⟩, k + 1, false⟩
      { o with extra := user :: o.extra } where
  holds := h.holds.insertIdx user hk
  perm := by
    have hperm := ((List.perm_insertIdx (⟨user, true⟩ : Node) s.mCaseList hk).filter
      Node.inserted).map Node.info
    rw [List.filter_cons_of_pos rfl, List.map_cons] at hperm
    exact hperm.trans (h.perm.cons user)
  extra other hother := by
    rcases List.mem_cons.mp hother with rfl | hother
    · exact List.mem_cons_self
    · exact List.mem_cons_of_mem _ (h.extra other hother)
  taken slot hslot other hother := List.mem_cons_of_mem _ (h.taken slot hslot other hother)
  keep _ := by
    show k + 1 ≤ (s.mCaseList.insertIdx k ⟨user, true⟩).length
    rw [List.length_insertIdx_of_le_length hk]
    omega

theorem step (h : Going handled s o) (user : CaseInfo)
    (hsep : ∀ earlier ∈ handled,
      earlier.caseName ≠ sCompareName sUserCasePath sSharedCasePath user) :
    Going (user :: handled) (s.step sUserCasePath sSharedCasePath user)
      (o.take sUserCasePath sSharedCasePath user) := by
  have hinserted : ∀ node ∈ s.mCaseList, node.inserted = true →
      node.info.caseName ≠ sCompareName sUserCasePath sSharedCasePath user := by
    intro node hnode hins
    have hmem : node.info ∈ (s.mCaseList.filter Node.inserted).map Node.info :=
      List.mem_map_of_mem (List.mem_filter.mpr ⟨hnode, hins⟩)
    exact hsep _ (h.extra _ (h.perm.mem_iff.mp hmem))
  have hslots : ∀ slot ∈ o.slots, ∀ u, slot.user = some u →
      u.caseName ≠ sCompareName sUserCasePath sSharedCasePath user :=
    fun slot hslot u hu => hsep u (h.taken slot hslot u hu)
  unfold Merge.step Overrides.take
  rcases h.holds.find (sCompareName sUserCasePath sSharedCasePath user) user hinserted hslots with
    ⟨hnone, hfree⟩ | ⟨i, k, hfind, hfree, hholds, hkeep, hlt⟩
  · rw [hnone, hfree]
    dsimp only
    by_cases hbegin : s.begin = true
    · rw [if_pos hbegin]
      exact h.insert user le_rfl
    · rw [if_neg hbegin]
      exact h.insert user (h.keep (Bool.eq_false_iff.mpr hbegin))
  · rw [hfind, hfree]
    refine ⟨hholds, ?_, ?_, ?_, ?_⟩
    · rw [hkeep]
      exact h.perm
    · exact fun other hother => List.mem_cons_of_mem _ (h.extra other hother)
    · intro slot hslot other hother
      rcases mem_modify_cases hslot with hslot | ⟨old, _, rfl⟩
      · exact List.mem_cons_of_mem _ (h.taken slot hslot other hother)
      · cases hother
        exact List.mem_cons_self
    · intro _
      show i + 1 ≤ (s.mCaseList.modify i _).length
      rw [List.length_modify]
      exact hlt

theorem run (h : Going handled s o) (users : List CaseInfo)
    (hsep : ∀ later ∈ users, ∀ earlier ∈ handled,
      earlier.caseName ≠ sCompareName sUserCasePath sSharedCasePath later)
    (hpair : Separate sUserCasePath sSharedCasePath users) :
    ∃ handled', Going handled' (users.foldl (Merge.step sUserCasePath sSharedCasePath) s)
      (users.foldl (Overrides.take sUserCasePath sSharedCasePath) o) := by
  induction users generalizing handled s o with
  | nil => exact ⟨handled, h⟩
  | cons user users ih =>
    obtain ⟨hfirst, hrest⟩ := List.pairwise_cons.mp hpair
    refine ih (h.step user (hsep user List.mem_cons_self)) ?_ hrest
    intro later hlater earlier hearlier
    rcases List.mem_cons.mp hearlier with rfl | hearlier
    · exact hfirst later hlater
    · exact hsep later (List.mem_cons_of_mem _ hlater) earlier hearlier

end Going

end Run

section Example

/-- A case of a suite of the shared directory or of the user's. -/
def namedCase (caseName tsName : String) (casePlatformName : Text) (caseFlag : Int) : CaseInfo where
  caseName := caseName.toList
  caseFlag := caseFlag
  casePlatformName := casePlatformName
  caseComment := []
  caseType := some .SQL
  caseMark := .RUNABLE
  tsName := tsName.toList

/-- That case on another machine. -/
example :
    (mergeCase "/u".toList "/s".toList [namedCase "/s/a.sql" "/s/a.ts" "linux".toList PLAT_OFF]
        [namedCase "/u/a.sql" "/u/a.ts" [] PLAT_OFF]).map
          (fun node => runnable (fun _ => false) node.info) = [false] ∧
      runnable (fun _ => false) (namedCase "/u/a.sql" "/u/a.ts" [] PLAT_OFF) = true := by
  decide

end Example

end Natc.Suite
