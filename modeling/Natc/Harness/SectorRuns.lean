import Natc.Harness.Dispatch
import Mathlib.Algebra.Order.BigOperators.Group.List
import Mathlib.Algebra.Order.Group.Nat

/-!
# Runs of a script

Whatever the order in which the processes go on, a complete run in LST mode leaves all that was
recorded, and a complete compare run judges every section once, against the lines that were loaded
for it.
-/

namespace Natc.Harness.Golden

open Lib

section Step

variable {LST is_parallel : Bool} {b b' : Bench} {key : Text}

@[simp] theorem Bench.set_isql (t : Isql) : (b.set key t).isql key = t :=
  Function.update_self ..

theorem Bench.set_isql_of_ne {t : Isql} {j : Text} (h : j ≠ key) :
    (b.set key t).isql j = b.isql j :=
  Function.update_of_ne h ..

@[simp] theorem Bench.set_set (t t' : Isql) : (b.set key t).set key t' = b.set key t' := by
  rw [set, set, set, Function.update_idem]

/-- What is still to be done for a process. -/
def Isql.size (t : Isql) : Nat := t.IN.length + if t.finished then 0 else 1

theorem Isql.ok_sector_eq (is_parallel : Bool) (t : Isql) (expect : List Text) : ∃ out index,
    (t.ok_sector is_parallel expect).1 = { t with
      OUT := out
      OutIndex := index } := by
  rw [ok_sector]
  split
  · exact ⟨_, _, rfl⟩
  · exact ⟨_, t.OutIndex, rfl⟩

/-- Leaving a sector changes the output of the process only. -/
theorem Bench.leave_isql (LST is_parallel : Bool) (b : Bench) (key : Text) (t : Isql)
    (sector : Option Nat) : ∃ out index,
    ((b.set key t).leave LST is_parallel key sector).isql = Function.update b.isql key { t with
      OUT := out
      OutIndex := index } := by
  cases sector with
  | none => exact ⟨t.OUT, t.OutIndex, rfl⟩
  | some n =>
    rw [leave]
    split
    · exact ⟨t.OUT, t.OutIndex, rfl⟩
    · obtain ⟨out, index, heq⟩ := t.ok_sector_eq is_parallel
        ((b.set key t).Expect.lst (.num n))
      use out, index
      rw [judge, set_isql, heq]
      show ((b.set key t).set key _).isql = _
      rw [set_set]
      rfl

/-- A step takes the next entry of its process, or finishes it. -/
theorem Bench.step_isql (h : b.step LST is_parallel key = some b') :
    (b'.isql key).size < (b.isql key).size ∧ ∀ j ≠ key, b'.isql j = b.isql j := by
  rw [step] at h
  dsimp only at h
  split at h
  · rename_i hd IN hIN
    obtain ⟨out, index, hleave⟩ := leave_isql LST is_parallel b key { b.isql key with
        IN := IN
        Sector_Key := some hd.q_sct } (b.isql key).Sector_Key
    cases h
    split
    · rw [hleave]
      constructor
      · rw [Function.update_self, Isql.size, Isql.size, hIN, List.length_cons]
        dsimp only
        omega
      · intro j hj
        rw [Function.update_of_ne hj]
    · constructor
      · rw [set_isql, Isql.size, Isql.size, hIN, List.length_cons, hleave, Function.update_self]
        dsimp only
        omega
      · intro j hj
        rw [set_isql_of_ne hj, hleave, Function.update_of_ne hj]
  · rename_i ls IN hIN
    cases h
    constructor
    · rw [set_isql, Isql.size, Isql.size, hIN, List.length_cons]
      dsimp only
      omega
    · intro j hj
      exact set_isql_of_ne hj
  · rename_i hIN
    split at h
    · cases h
    · rename_i hfin
      obtain ⟨out, index, hleave⟩ := leave_isql LST is_parallel b key
        { b.isql key with finished := true } (b.isql key).Sector_Key
      cases h
      rw [hleave]
      constructor
      · rw [Function.update_self, Isql.size, Isql.size, hIN, if_neg hfin]
        simp
      · intro j hj
        rw [Function.update_of_ne hj]

theorem Bench.step_isSome (h : (b.isql key).finished = false) :
    (b.step LST is_parallel key).isSome := by
  rw [step]
  dsimp only
  split
  · rfl
  · rfl
  · rw [h]
    rfl

end Step

section Complete

variable (script : Script) (out : Outputs)

/-- Every run can go on until all processes have finished. -/
theorem Script.exists_complete (LST : Bool) (e : Expect) :
    ∃ b, (script.run out LST e).Reachable b ∧ b.Complete script.keys := by
  suffices h : ∀ (n : Nat) (b : Bench), (script.run out LST e).Reachable b →
      (script.keys.map fun key => (b.isql key).size).sum ≤ n →
      ∃ b, (script.run out LST e).Reachable b ∧ b.Complete script.keys from
    h _ _ .start le_rfl
  intro n
  induction n with
  | zero =>
    intro b hb hsize
    refine ⟨b, hb, fun key hkey => ?_⟩
    have hzero : (b.isql key).size = 0 := by
      have hle := List.single_le_sum (fun _ _ => Nat.zero_le _) _
        (List.mem_map_of_mem (f := fun key => (b.isql key).size) hkey)
      omega
    rw [Isql.size] at hzero
    cases hfin : (b.isql key).finished with
    | true => rfl
    | false => simp [hfin] at hzero
  | succ n ih =>
    intro b hb hsize
    by_cases hall : b.Complete script.keys
    · exact ⟨b, hb, hall⟩
    · simp only [Bench.Complete, not_forall] at hall
      obtain ⟨key, hkey, hfin⟩ := hall
      have hsome : (b.step LST script.is_parallel key).isSome :=
        Bench.step_isSome (Bool.eq_false_iff.mpr hfin)
      obtain ⟨b', hstep⟩ := Option.isSome_iff_exists.mp hsome
      obtain ⟨hlt, hother⟩ := Bench.step_isql hstep
      apply ih b'
      · exact .next hb trivial (by rw [← hstep]; exact if_pos (List.contains_iff_mem.mpr hkey))
      · have hsum : (script.keys.map fun key => (b'.isql key).size).sum <
            (script.keys.map fun key => (b.isql key).size).sum := by
          apply List.sum_lt_sum
          · intro j _
            by_cases hj : j = key
            · rw [hj]
              exact hlt.le
            · rw [hother j hj]
          · exact ⟨key, hkey, hlt⟩
        omega

end Complete

section Golden

variable {script : Script} {out : Outputs} {e : Golden.Expect} {b : Bench}

/-- In LST mode the output grows by what the entries record. -/
theorem Bench.step_LST {is_parallel : Bool} {key : Text} {b' : Bench}
    (h : b.step true is_parallel key = some b')
    (hfin : (b.isql key).finished = true → (b.isql key).IN = []) :
    (b'.isql key).OUT ++ recorded (b'.isql key).IN =
      (b.isql key).OUT ++ recorded (b.isql key).IN ∧
    ((b'.isql key).finished = true → (b'.isql key).IN = []) := by
  have hleave : ∀ (c : Bench) sector, c.leave true is_parallel key sector = c := by
    intro c sector
    cases sector <;> rfl
  rw [step] at h
  dsimp only at h
  split at h
  · rename_i hd IN hIN
    rw [hIN] at hfin
    cases h
    rw [hleave, set_isql, hIN, recorded]
    split
    · rename_i hnil
      rw [set_isql, hnil]
      exact ⟨rfl, fun _ => rfl⟩
    · rw [set_set, set_isql]
      dsimp only
      rw [List.append_assoc]
      exact ⟨rfl, fun h => absurd (hfin h) (by simp)⟩
  · rename_i ls IN hIN
    rw [hIN] at hfin
    cases h
    rw [set_isql, hIN, recorded]
    dsimp only
    rw [List.append_assoc]
    exact ⟨rfl, fun h => absurd (hfin h) (by simp)⟩
  · rename_i hIN
    split at h
    · cases h
    · cases h
      rw [hleave, set_isql]
      exact ⟨rfl, fun _ => hIN⟩

/-- A complete run in LST mode leaves all that was recorded. -/
theorem golden_OUT (hb : (script.run out true e).Reachable b) (hc : b.Complete script.keys)
    {key : Text} (hkey : key ∈ script.keys) :
    (b.isql key).OUT = recorded (script.acts out key) := by
  have hinv : ∀ key, (b.isql key).OUT ++ recorded (b.isql key).IN =
      recorded (script.acts out key) ∧
      ((b.isql key).finished = true → (b.isql key).IN = []) := by
    refine hb.invariant (I := fun b : Bench => ∀ key, (b.isql key).OUT ++ recorded (b.isql key).IN =
      recorded (script.acts out key) ∧
      ((b.isql key).finished = true → (b.isql key).IN = [])) ?_ ?_
    · intro key
      exact ⟨rfl, fun h => by cases h⟩
    · intro b key b' hb _ hstep j
      dsimp only [Script.run] at hstep
      split at hstep
      · obtain ⟨hout, hfin⟩ := Bench.step_LST hstep (hb key).2
        by_cases hj : j = key
        · subst hj
          exact ⟨hout.trans (hb j).1, hfin⟩
        · rw [(Bench.step_isql hstep).2 j hj]
          exact hb j
      · cases hstep
  have hdone := (hinv key).2 (hc key hkey)
  have heq := (hinv key).1
  rw [hdone, recorded, List.append_nil] at heq
  exact heq

end Golden

section Judge

variable {is_parallel : Bool} {t : Isql} {before got expect : List Text}

/-- The lines of the output that belong to the sector under way. -/
structure Isql.Holds (is_parallel : Bool) (t : Isql) (before got : List Text) : Prop where
  out : t.OUT = before ++ got
  index : is_parallel = true → t.OutIndex = before.length
  serial : is_parallel = false → before = []

theorem Isql.completed_of_ne (hout : t.OUT = before ++ got) (hne : got ≠ [] ∨ expect = []) :
    t.completed expect = before ++
      if expect.getLast? = some [] ∧ got.getLast?.any (· ≠ []) then got ++ [[]] else got := by
  rw [completed, hout]
  by_cases hgot : got = []
  · have hnil : expect = [] := hne.resolve_left fun h => h hgot
    simp [hnil]
  · rw [List.getLast?_append_of_ne_nil _ hgot]
    split
    · rw [List.append_assoc]
    · rfl

/-- A sector is judged by its own lines, wherever they stand in the output. -/
theorem Isql.ok_sector_result (h : t.Holds is_parallel before got)
    (hne : got ≠ [] ∨ expect = []) :
    (t.ok_sector is_parallel expect).2 = passes got expect := by
  rw [ok_sector, completed_of_ne h.out hne]
  cases hp : is_parallel with
  | true =>
    rw [if_pos rfl, h.index hp, List.drop_left]
    rfl
  | false =>
    rw [if_neg Bool.false_ne_true, h.serial hp, List.nil_append]
    rfl

/-- Behind a sector that was judged the next one starts with no lines. -/
theorem Isql.ok_sector_next (is_parallel : Bool) (t : Isql) (expect : List Text) : ∃ out index,
    (t.ok_sector is_parallel expect).1 = { t with
      OUT := out
      OutIndex := index } ∧
    (t.ok_sector is_parallel expect).1.Holds is_parallel out [] := by
  rw [ok_sector]
  cases is_parallel with
  | true =>
    refine ⟨_, _, rfl, ?_⟩
    constructor
    · exact (List.append_nil _).symm
    · exact fun _ => rfl
    · intro h
      cases h
  | false =>
    refine ⟨[], t.OutIndex, rfl, ?_⟩
    constructor
    · rfl
    · intro h
      cases h
    · exact fun _ => rfl

end Judge

section Compare

variable {is_parallel : Bool} {acts : List Act} {t t' : Isql} {b b' : Bench} {key : Text}

/-- How a process stands to its acts: at the start, in a section, or at the end. -/
inductive Tracks (is_parallel : Bool) (acts : List Act) : Isql → Prop where
  | start (h : Header) (as : List Act) (hacts : acts = .SECTOR h :: as) :
    Tracks is_parallel acts ⟨acts, [], 0, none, false⟩
  | within {t : Isql} (s : Section) (done : List Section) (before got : List Text)
    (hfin : t.finished = false) (hkey : t.Sector_Key = some s.h.q_sct)
    (hsections : sections acts = done ++ s :: sections t.IN)
    (hlines : s.lines = got ++ (cut t.IN).1) (hout : t.Holds is_parallel before got) :
    Tracks is_parallel acts t
  | finish {t : Isql} (hfin : t.finished = true) (hIN : t.IN = []) : Tracks is_parallel acts t

/-- The sectors of a process that are not judged yet. -/
def pending (t : Isql) : List Nat :=
  if t.finished then [] else t.Sector_Key.toList ++ (sections t.IN).map (·.h.q_sct)

/-- A result of a sector, when nothing unexpected stands for a sector without lines. -/
def Judged (all : List Section) (e : Expect) (r : Nat × Bool) : Prop :=
  ∃ s ∈ all, s.h.q_sct = r.1 ∧
    ((s.lines ≠ [] ∨ e.lst (.num r.1) = []) → r.2 = passes s.lines (e.lst (.num r.1)))

/-- What a step of a compare run does: its process goes on, and the sector it leaves is judged. -/
inductive Advances (is_parallel : Bool) (acts : List Act) (b : Bench) (key : Text) : Bench → Prop
    where
  | quiet (t' : Isql) (htracks : Tracks is_parallel acts t')
    (hpending : pending (b.isql key) = pending t') : Advances is_parallel acts b key (b.set key t')
  | judged (t' : Isql) (r : Nat × Bool) (htracks : Tracks is_parallel acts t')
    (hpending : pending (b.isql key) = r.1 :: pending t')
    (hr : Judged (sections acts) b.Expect r) : Advances is_parallel acts b key
      { b.set key t' with
        Expect := b.Expect.erase (.num r.1)
        results := b.results ++ [r] }

theorem Isql.Holds.append {before got : List Text} (h : t.Holds is_parallel before got)
    (ls : List Text) (IN : List Act) : Isql.Holds is_parallel { t with
      IN := IN
      OUT := t.OUT ++ ls } before (got ++ ls) where
  out := by
    dsimp only
    rw [h.out, List.append_assoc]
  index := h.index
  serial := h.serial

theorem Bench.judge_set (t : Isql) (n : Nat) : (b.set key t).judge is_parallel key n =
    { b.set key (t.ok_sector is_parallel (b.Expect.lst (.num n))).1 with
      Expect := b.Expect.erase (.num n)
      results := b.results ++ [(n, (t.ok_sector is_parallel (b.Expect.lst (.num n))).2)] } := by
  rw [judge, set_isql, set_set]
  rfl

/-- A process goes on behind a verdict. -/
theorem set_judged (t t' : Isql) (e : Expect) (rs : List (Nat × Bool)) :
    Bench.set { b.set key t with
      Expect := e
      results := rs } key t' = { b.set key t' with
      Expect := e
      results := rs } := by
  rw [Bench.set]
  dsimp only [Bench.set]
  rw [Function.update_idem]

/-- The section that a process leaves is judged by its lines. -/
theorem judged_of_holds {e : Expect} {s : Section} {before got : List Text}
    (hs : s ∈ sections acts) (hgot : s.lines = got) (hout : t.Holds is_parallel before got) :
    Judged (sections acts) e
      (s.h.q_sct, (t.ok_sector is_parallel (e.lst (.num s.h.q_sct))).2) := by
  refine ⟨s, hs, rfl, fun hne => ?_⟩
  rw [hgot] at hne ⊢
  exact Isql.ok_sector_result hout hne

/-- A header in the queue starts the next section. -/
theorem tracks_header {h : Header} {as : List Act} {done : List Section} {before : List Text}
    (hfin : t.finished = false) (hIN : t.IN = as) (hkey : t.Sector_Key = some h.q_sct)
    (hsections : sections acts = done ++ sections (.SECTOR h :: as))
    (hout : t.Holds is_parallel before []) :
    (as = [] → Tracks is_parallel acts t) ∧
    (as ≠ [] → Tracks is_parallel acts { t with OUT := t.OUT ++ h.lines }) := by
  rw [sections_SECTOR, ← hIN] at hsections
  constructor
  · intro has
    rw [has] at hIN
    exact .within _ done before [] hfin hkey hsections (by rw [hIN]; rfl) hout
  · intro has
    have hprinted : (!t.IN.isEmpty) = true := by simpa [hIN] using has
    refine .within _ done before h.lines hfin hkey hsections ?_ ?_
    · dsimp only [Section.lines]
      rw [hprinted, if_pos rfl]
    · have happend := hout.append h.lines t.IN
      rwa [List.nil_append] at happend

theorem advances_of_step (ht : Tracks is_parallel acts (b.isql key))
    (h : b.step false is_parallel key = some b') : Advances is_parallel acts b key b' := by
  rw [Bench.step] at h
  dsimp only at h
  generalize htk : b.isql key = t at ht h
  cases ht with
  | start hd as hacts =>
    subst hacts
    cases h
    have hpending : pending (b.isql key) = hd.q_sct :: (sections as).map (·.h.q_sct) := by
      rw [htk]
      rfl
    obtain ⟨hnil, hcons⟩ := @tracks_header is_parallel (.SECTOR hd :: as)
      ⟨as, [], 0, some hd.q_sct, false⟩ hd as [] [] rfl rfl rfl rfl ⟨rfl, fun _ => rfl, fun _ => rfl⟩
    by_cases has : as = []
    · rw [if_pos has]
      exact .quiet _ (hnil has) hpending
    · rw [if_neg has]
      dsimp only [Bench.leave]
      rw [Bench.set_isql, Bench.set_set]
      exact .quiet _ (hcons has) hpending
  | within s done before got hfin hkey hsections hlines hout =>
    have hpending : pending (b.isql key) = s.h.q_sct :: (sections t.IN).map (·.h.q_sct) := by
      rw [htk, pending, hfin, hkey]
      rfl
    have hs : s ∈ sections acts := by
      rw [hsections]
      exact List.mem_append_right _ List.mem_cons_self
    split at h
    · rename_i hd IN hIN
      rw [hIN] at hlines hsections hpending
      rw [hkey] at h
      obtain ⟨t₁, ht₁⟩ : ∃ t₁, t₁ = { t with
        IN := IN
        Sector_Key := some hd.q_sct } := ⟨_, rfl⟩
      rw [← ht₁] at h
      have hout₁ : t₁.Holds is_parallel before got := by
        rw [ht₁]
        exact ⟨hout.out, hout.index, hout.serial⟩
      have hjudged := judged_of_holds (e := b.Expect) hs (hlines.trans (List.append_nil _)) hout₁
      obtain ⟨out, index, heq, hnext⟩ := t₁.ok_sector_next is_parallel
        (b.Expect.lst (.num s.h.q_sct))
      cases h
      rw [Bench.leave, if_neg Bool.false_ne_true, Bench.judge_set]
      generalize t₁.ok_sector is_parallel (b.Expect.lst (.num s.h.q_sct)) = r at *
      have hfin₂ : r.1.finished = false := by
        rw [heq, ht₁]
        exact hfin
      have hIN₂ : r.1.IN = IN := by rw [heq, ht₁]
      have hkey₂ : r.1.Sector_Key = some hd.q_sct := by rw [heq, ht₁]
      have hsections₂ : sections acts = (done ++ [s]) ++ sections (.SECTOR hd :: IN) := by
        rw [hsections, List.append_assoc]
        rfl
      obtain ⟨hnil, hcons⟩ := tracks_header hfin₂ hIN₂ hkey₂ hsections₂ hnext
      have hrest : pending r.1 = hd.q_sct :: (sections IN).map (·.h.q_sct) := by
        rw [pending, hfin₂, hkey₂, hIN₂]
        rfl
      by_cases has : IN = []
      · rw [if_pos has]
        exact .judged _ (s.h.q_sct, _) (hnil has) (by rw [hpending, hrest]; rfl) hjudged
      · rw [if_neg has]
        rw [set_judged]
        have hisql : (b.set key r.1).isql key = r.1 := Bench.set_isql _
        dsimp only
        rw [hisql]
        exact .judged _ (s.h.q_sct, _) (hcons has) (by rw [hpending]; exact congrArg _ hrest.symm)
          hjudged
    · rename_i ls IN hIN
      rw [hIN] at hlines hsections hpending
      cases h
      refine .quiet _ (.within s done before (got ++ ls) hfin hkey hsections ?_
        (hout.append ls IN)) ?_
      · rw [hlines, cut, List.append_assoc]
      · rw [hpending, pending, hfin, hkey]
        rfl
    · rename_i hIN
      rw [hIN] at hlines hpending
      rw [hfin, if_neg Bool.false_ne_true] at h
      obtain ⟨t₁, ht₁⟩ : ∃ t₁, t₁ = { t with finished := true } := ⟨_, rfl⟩
      rw [← ht₁, hkey] at h
      have hout₁ : t₁.Holds is_parallel before got := by
        rw [ht₁]
        exact ⟨hout.out, hout.index, hout.serial⟩
      have hjudged := judged_of_holds (e := b.Expect) hs (hlines.trans (List.append_nil _)) hout₁
      obtain ⟨out, index, heq, -⟩ := t₁.ok_sector_next is_parallel
        (b.Expect.lst (.num s.h.q_sct))
      cases h
      rw [Bench.leave, if_neg Bool.false_ne_true, Bench.judge_set]
      generalize t₁.ok_sector is_parallel (b.Expect.lst (.num s.h.q_sct)) = r at *
      have hfin₂ : r.1.finished = true := by rw [heq, ht₁]
      refine .judged _ (s.h.q_sct, _) (.finish hfin₂ ?_) ?_ hjudged
      · rw [heq, ht₁]
        exact hIN
      · rw [hpending, pending, hfin₂]
        rfl
  | finish hfin hIN =>
    rw [hIN] at h
    simp [hfin] at h

end Compare

section Results

variable {script : Script} {out : Outputs} {e : Expect} {b b' : Bench}

/-- One process hands on the first part of its list. -/
theorem perm_flatMap {α : Type} {keys : List Text} (hnodup : keys.Nodup) {key : Text}
    (hkey : key ∈ keys) (f g : Text → List α) (l : List α) (hf : f key = l ++ g key)
    (hother : ∀ j ≠ key, f j = g j) : (keys.flatMap f).Perm (l ++ keys.flatMap g) := by
  induction keys with
  | nil => cases hkey
  | cons j keys ih =>
    obtain ⟨hj, hnodup⟩ := List.nodup_cons.mp hnodup
    rw [List.flatMap_cons, List.flatMap_cons]
    by_cases heq : j = key
    · subst heq
      have hrest : keys.flatMap f = keys.flatMap g :=
        List.flatMap_congr fun i hi => hother i fun h => hj (h ▸ hi)
      rw [hf, hrest, List.append_assoc]
    · have hkey' : key ∈ keys := (List.mem_cons.mp hkey).resolve_left fun h => heq h.symm
      rw [hother j heq, ← List.append_assoc]
      refine ((ih hnodup hkey').append_left _).trans ?_
      rw [← List.append_assoc]
      exact List.perm_append_comm.append_right _

/-- Every sector is judged at most once, against what was loaded for it. -/
structure Compared (script : Script) (out : Outputs) (e : Expect) (b : Bench) : Prop where
  tracks : ∀ key ∈ script.keys, Tracks script.is_parallel (script.acts out key) (b.isql key)
  perm : (b.results.map Prod.fst ++ script.keys.flatMap fun key => pending (b.isql key)).Perm
    ((script.allSections out).map (·.h.q_sct))
  expect : ∀ n : Nat, b.Expect.lookup (.num n) =
    if n ∈ b.results.map Prod.fst then none else e.lookup (.num n)
  other : ∀ k ∈ b.Expect, k ∈ e
  judged : ∀ r ∈ b.results, Judged (script.allSections out) e r

theorem Compared.start : Compared script out e ((script.run out false e).start) where
  tracks key hkey := by
    obtain ⟨h, as, hacts, -⟩ := script.acts_eq out hkey
    exact .start h as hacts
  perm := by
    show ([] ++ script.keys.flatMap fun key => (sections (script.acts out key)).map _).Perm _
    rw [List.nil_append, ← List.map_flatMap]
    exact .refl _
  expect n := rfl
  other k hk := hk
  judged r hr := by cases hr

theorem Compared.step {key : Text} (h : Compared script out e b) (hkey : key ∈ script.keys)
    (hstep : b.step false script.is_parallel key = some b') : Compared script out e b' := by
  have htracks : ∀ t', Tracks script.is_parallel (script.acts out key) t' → ∀ j ∈ script.keys,
      Tracks script.is_parallel (script.acts out j) ((b.set key t').isql j) := by
    intro t' ht' j hj
    by_cases heq : j = key
    · subst heq
      rw [Bench.set_isql]
      exact ht'
    · rw [Bench.set_isql_of_ne heq]
      exact h.tracks j hj
  have hpending : ∀ t' l, pending (b.isql key) = l ++ pending t' →
      (script.keys.flatMap fun j => pending (b.isql j)).Perm
        (l ++ script.keys.flatMap fun j => pending ((b.set key t').isql j)) := by
    intro t' l hl
    apply perm_flatMap script.nodup_keys hkey
    · rw [Bench.set_isql, hl]
    · intro j hj
      rw [Bench.set_isql_of_ne hj]
  cases advances_of_step (h.tracks key hkey) hstep with
  | quiet t' ht' hp =>
    exact ⟨htracks t' ht', ((hpending t' [] hp).symm.append_left _).trans h.perm, h.expect, h.other,
      h.judged⟩
  | judged t' r ht' hp hr =>
    have hperm := ((hpending t' [r.1] hp).symm.append_left (b.results.map Prod.fst)).trans h.perm
    have hfresh : r.1 ∉ b.results.map Prod.fst := by
      intro hmem
      have hnodup := (hperm.nodup_iff.mpr (script.nodup_allSections out))
      exact (List.nodup_append.mp hnodup).2.2 _ hmem _ (by simp) rfl
    have hlst : b.Expect.lst (.num r.1) = e.lst (.num r.1) := by
      rw [Expect.lst, h.expect, if_neg hfresh, Expect.lst]
    constructor
    case tracks => exact htracks t' ht'
    case perm =>
      rw [List.map_append, List.append_assoc]
      exact hperm
    case expect =>
      intro n
      dsimp only
      simp only [List.map_append, List.mem_append, List.map_singleton, List.mem_singleton]
      by_cases hn : n = r.1
      · rw [hn, AList.lookup_erase, if_pos (.inr rfl)]
      · have hne : SectKey.num n ≠ .num r.1 := by
          intro heq
          rw [SectKey.num.injEq, Int.ofNat_inj] at heq
          exact hn heq
        rw [AList.lookup_erase_ne hne, h.expect]
        simp only [hn, or_false]
    case other =>
      intro k hk
      exact h.other k (AList.mem_erase.mp hk).2
    case judged =>
      intro r' hr'
      rcases List.mem_append.mp hr' with hr' | hr'
      · exact h.judged r' hr'
      · rw [List.mem_singleton.mp hr']
        obtain ⟨s, hs, hnum, hres⟩ := hr
        rw [hlst] at hres
        exact ⟨s, List.mem_flatMap.mpr ⟨key, hkey, hs⟩, hnum, hres⟩

theorem compared_of_reachable (h : (script.run out false e).Reachable b) :
    Compared script out e b := by
  refine h.invariant .start ?_
  intro b key b' hb _ hstep
  dsimp only [Script.run] at hstep
  split at hstep
  · rename_i hkey
    exact hb.step (List.contains_iff_mem.mp hkey) hstep
  · cases hstep

/-- At the end every sector was judged once. -/
theorem Compared.perm_results (h : Compared script out e b) (hc : b.Complete script.keys) :
    (b.results.map Prod.fst).Perm (List.range script.dispatch.q_sct) := by
  have hnil : (script.keys.flatMap fun key => pending (b.isql key)) = [] := by
    rw [List.flatMap_eq_nil_iff]
    intro key hkey
    rw [pending, if_pos (hc key hkey)]
  have hperm := h.perm
  rw [hnil, List.append_nil] at hperm
  exact hperm.trans (script.perm_allSections out)

theorem Compared.length_results (h : Compared script out e b) (hc : b.Complete script.keys) :
    b.results.length = script.dispatch.q_sct := by
  have hlen := (h.perm_results hc).length_eq
  rwa [List.length_map, List.length_range] at hlen

/-- The case passes exactly when all sectors did and none is left. -/
theorem report_TC_eq_PASS (h : Compared script out e b) (hc : b.Complete script.keys) :
    b.report_TC script.dispatch.q_sct = .PASS ↔
      (∀ r ∈ b.results, r.2 = true) ∧ b.Expect.keys = [] := by
  rw [Bench.report_TC, ← h.length_results hc]
  have hcount : b.results.length = b.results.countP (·.2) ↔ ∀ r ∈ b.results, r.2 = true := by
    rw [eq_comm, List.countP_eq_length]
  split
  · rename_i hfail
    constructor
    · intro hpass
      cases hpass
    · intro ⟨hall, hkeys⟩
      rcases hfail with hne | hne
      · exact absurd (hcount.mpr hall) hne
      · exact absurd hkeys hne
  · rename_i hpass
    constructor
    · intro _
      constructor
      · exact hcount.mp (not_not.mp fun hne => hpass (.inl hne))
      · exact not_not.mp fun hne => hpass (.inr hne)
    · intro _
      rfl

/-- Nothing is left when only sectors of the script were loaded. -/
theorem Compared.keys_eq_nil (h : Compared script out e b) (hc : b.Complete script.keys)
    (he : ∀ k ∈ e, ∃ n < script.dispatch.q_sct, k = .num n) : b.Expect.keys = [] := by
  apply List.eq_nil_iff_forall_not_mem.mpr
  intro k hk
  obtain ⟨n, hn, rfl⟩ := he k (h.other k hk)
  have hmem : n ∈ b.results.map Prod.fst :=
    (h.perm_results hc).mem_iff.mpr (List.mem_range.mpr hn)
  have hlookup := h.expect n
  rw [if_pos hmem] at hlookup
  exact AList.lookup_eq_none.mp hlookup hk

/-- The result of a section with lines. -/
theorem Compared.result (h : Compared script out e b) (hc : b.Complete script.keys) {s : Section}
    (hs : s ∈ script.allSections out) (hne : s.lines ≠ [] ∨ e.lst (.num s.h.q_sct) = []) :
    (s.h.q_sct, passes s.lines (e.lst (.num s.h.q_sct))) ∈ b.results := by
  have hmem : s.h.q_sct ∈ b.results.map Prod.fst := by
    rw [(h.perm_results hc).mem_iff, ← (script.perm_allSections out).mem_iff]
    exact List.mem_map_of_mem hs
  obtain ⟨r, hr, hnum⟩ := List.mem_map.mp hmem
  obtain ⟨s', hs', hnum', hres⟩ := h.judged r hr
  have heq : s' = s :=
    List.inj_on_of_nodup_map (script.nodup_allSections out) hs' hs (hnum'.trans hnum)
  subst heq
  rw [← hnum] at hne ⊢
  rw [← hres hne]
  exact hr

end Results

end Natc.Harness.Golden
