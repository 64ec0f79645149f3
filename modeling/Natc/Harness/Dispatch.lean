import Natc.Harness.Sections
import Mathlib.Data.List.Perm.Basic

/-!
# The queues of the processes

The dispatcher numbers the SECTOR commands of all processes in one sequence, and every process
starts with one of its own. The acts of a process are cut into sections with these numbers.
-/

namespace Natc.Harness.Golden

open Lib

/-- The numbers of the SECTOR commands of a queue. -/
def numbers : List Entry → List Nat
  | [] => []
  | .SECTOR h :: es => h.q_sct :: numbers es
  | .other :: es => numbers es

theorem numbers_append (es es' : List Entry) : numbers (es ++ es') = numbers es ++ numbers es' := by
  induction es with
  | nil => rfl
  | cons e es ih => cases e <;> simp [numbers, ih]

/-- A queue starts with a header of the harness. -/
def Starts (es : List Entry) : Prop := ∃ h rest, es = .SECTOR h :: rest ∧ byATC <:+: h.mess

theorem Starts.append {es : List Entry} (h : Starts es) (es' : List Entry) : Starts (es ++ es') := by
  obtain ⟨h, rest, rfl, hatc⟩ := h
  exact ⟨h, rest ++ es', rfl, hatc⟩

/-- The headers of a queue are lines. -/
def PlainQueue (es : List Entry) : Prop := ∀ h, .SECTOR h ∈ es → '\n' ∉ h.text

theorem plain_text {n : Nat} {parm mess : Text} (hparm : '\n' ∉ parm) (hmess : '\n' ∉ mess) :
    '\n' ∉ Header.text ⟨n, parm, mess⟩ := by
  intro hmem
  rw [Header.text, List.mem_append, List.mem_cons, List.mem_append, List.mem_append,
    List.mem_cons] at hmem
  rcases hmem with hmem | hmem | hmem | hmem | hmem | hmem
  · revert hmem
    decide
  · cases hmem
  · exact absurd (Nat.isDigit_of_mem_toDigits (by decide) (by decide) hmem) (by decide)
  · split at hmem
    · cases hmem
    · rcases List.mem_cons.mp hmem with h | h
      · cases h
      · exact hparm h
  · cases hmem
  · exact hmess hmem

namespace Dispatch

variable {d : Dispatch} {key : Text} {e : Entry}

structure Sound (d : Dispatch) : Prop where
  nodup : d.keys.Nodup
  current : d.current_isql ∈ d.keys
  first : P0 ∈ d.keys
  perm : (d.iSQL_pool.flatMap fun p => numbers p.2).Perm (List.range d.q_sct)
  starts : ∀ p ∈ d.iSQL_pool, Starts p.2
  plain : ∀ p ∈ d.iSQL_pool, PlainQueue p.2

@[simp] theorem keys_push : (d.push key e).keys = d.keys := by
  rw [keys, push, List.map_map, keys]
  apply List.map_congr_left
  intro p _
  rw [Function.comp_apply]
  split <;> rfl

theorem mem_push {p : Text × List Entry} (h : p ∈ (d.push key e).iSQL_pool) :
    p ∈ d.iSQL_pool ∨ ∃ q ∈ d.iSQL_pool, p = (q.1, q.2 ++ [e]) := by
  obtain ⟨q, hq, rfl⟩ := List.mem_map.mp h
  split
  · exact .inr ⟨q, hq, rfl⟩
  · exact .inl hq

/-- A SECTOR command in the queue of one process adds its number. -/
theorem perm_push (h : Header) (hnodup : d.keys.Nodup) (hkey : key ∈ d.keys) :
    ((d.push key (.SECTOR h)).iSQL_pool.flatMap fun p => numbers p.2).Perm
      (h.q_sct :: d.iSQL_pool.flatMap fun p => numbers p.2) := by
  rw [keys] at hnodup hkey
  rw [push]
  dsimp only
  generalize d.iSQL_pool = pool at hnodup hkey ⊢
  induction pool with
  | nil => cases hkey
  | cons p pool ih =>
    rw [List.map_cons, List.nodup_cons] at hnodup
    rw [List.map_cons, List.flatMap_cons, List.flatMap_cons]
    by_cases hp : p.1 = key
    · have hrest : (pool.map fun p => if p.1 = key then (p.1, p.2 ++ [Entry.SECTOR h]) else p) =
          pool := by
        conv_rhs => rw [← List.map_id pool]
        apply List.map_congr_left
        intro q hq
        rw [if_neg]
        · rfl
        · intro hqk
          apply hnodup.1
          rw [hp, ← hqk]
          exact List.mem_map_of_mem hq
      rw [if_pos hp, hrest, numbers_append, List.append_assoc]
      exact List.perm_middle
    · have hkey' : key ∈ pool.map Prod.fst :=
        (List.mem_cons.mp hkey).resolve_left fun heq => hp heq.symm
      rw [if_neg hp]
      exact ((ih hnodup.2 hkey').append_left _).trans List.perm_middle

theorem flatMap_push_other :
    ((d.push key .other).iSQL_pool.flatMap fun p => numbers p.2) =
      d.iSQL_pool.flatMap fun p => numbers p.2 := by
  rw [push, List.flatMap_map]
  apply List.flatMap_congr
  intro p _
  split
  · rw [numbers_append, numbers, numbers, List.append_nil]
  · rfl

namespace Sound

variable (h : d.Sound)
include h

theorem push_other : (d.push key .other).Sound where
  nodup := by rw [keys_push]; exact h.nodup
  current := by rw [keys_push]; exact h.current
  first := by rw [keys_push]; exact h.first
  perm := by rw [flatMap_push_other]; exact h.perm
  starts p hp := by
    rcases mem_push hp with hp | ⟨q, hq, rfl⟩
    · exact h.starts p hp
    · exact (h.starts q hq).append _
  plain p hp := by
    rcases mem_push hp with hp | ⟨q, hq, rfl⟩
    · exact h.plain p hp
    · intro h' hmem
      rcases List.mem_append.mp hmem with hmem | hmem
      · exact h.plain q hq h' hmem
      · cases List.mem_singleton.mp hmem

theorem current_set (hkey : key ∈ d.keys) : Sound { d with current_isql := key } where
  nodup := h.nodup
  current := hkey
  first := h.first
  perm := h.perm
  starts := h.starts
  plain := h.plain

theorem ts_SECTOR {parm mess : Text} (hparm : '\n' ∉ parm) (hmess : '\n' ∉ mess) :
    (d.ts_SECTOR parm mess).Sound where
  nodup := by
    show (d.push _ _).keys.Nodup
    rw [keys_push]
    exact h.nodup
  current := by
    show d.current_isql ∈ (d.push _ _).keys
    rw [keys_push]
    exact h.current
  first := by
    show P0 ∈ (d.push _ _).keys
    rw [keys_push]
    exact h.first
  perm := by
    show List.Perm _ (List.range (d.q_sct + 1))
    rw [List.range_succ]
    exact ((perm_push _ h.nodup h.current).trans (h.perm.cons _)).trans
      (List.perm_append_singleton _ _).symm
  starts p hp := by
    rcases mem_push hp with hp | ⟨q, hq, rfl⟩
    · exact h.starts p hp
    · exact (h.starts q hq).append _
  plain p hp := by
    rcases mem_push hp with hp | ⟨q, hq, rfl⟩
    · exact h.plain p hp
    · intro h' hmem
      rcases List.mem_append.mp hmem with hmem | hmem
      · exact h.plain q hq h' hmem
      · cases List.mem_singleton.mp hmem
        exact plain_text hparm hmess

theorem ts_PWAIT (cs : List Text) : (d.ts_PWAIT cs).Sound := by
  rw [Dispatch.ts_PWAIT]
  have hstart : ({ d with current_isql := P0 }.push P0 .other).Sound :=
    (h.current_set h.first).push_other
  generalize (if cs = [] then _ else cs) = names
  revert hstart
  generalize ({ d with current_isql := P0 }.push P0 .other) = d'
  intro h'
  induction names generalizing d' with
  | nil => exact h'
  | cons key names ih =>
    rw [List.foldl_cons]
    apply ih
    split
    · exact h'
    · exact h'.push_other

end Sound

theorem push_new {pool : List (Text × List Entry)} (hnew : key ∉ pool.map Prod.fst)
    (es : List Entry) :
    ((pool ++ [(key, es)]).map fun p => if p.1 = key then (p.1, p.2 ++ [e]) else p) =
      pool ++ [(key, es ++ [e])] := by
  rw [List.map_append, List.map_singleton, if_pos rfl]
  congr 1
  conv_rhs => rw [← List.map_id pool]
  apply List.map_congr_left
  intro p hp
  rw [if_neg]
  · rfl
  · intro hpk
    apply hnew
    rw [← hpk]
    exact List.mem_map_of_mem hp

/-- A new process gets a header of its own before anything else. -/
theorem sound_new {mess : Text} (hnodup : d.keys.Nodup)
    (hperm : (d.iSQL_pool.flatMap fun p => numbers p.2).Perm (List.range d.q_sct))
    (hstarts : ∀ p ∈ d.iSQL_pool, Starts p.2) (hplain : ∀ p ∈ d.iSQL_pool, PlainQueue p.2)
    (hfirst : P0 ∈ d.keys ∨ key = P0) (hnew : key ∉ d.keys) (hmess : '\n' ∉ mess) :
    (d.ts_PROCESS key mess).Sound := by
  rw [ts_PROCESS, if_neg fun h => hnew (List.contains_iff_mem.mp h)]
  apply Sound.push_other
  have hpool : ({ d with
      iSQL_pool := d.iSQL_pool ++ [(key, [])]
      current_isql := key }.ts_SECTOR [] (mess ++ ' ' :: byATC)) =
      ⟨d.iSQL_pool ++ [(key, [.SECTOR ⟨d.q_sct, [], mess ++ ' ' :: byATC⟩])], key,
        d.q_sct + 1⟩ := by
    rw [Dispatch.ts_SECTOR, push]
    dsimp only
    rw [push_new hnew, List.nil_append]
  have hkeys : keys ⟨d.iSQL_pool ++ [(key, [.SECTOR ⟨d.q_sct, [], mess ++ ' ' :: byATC⟩])], key,
      d.q_sct + 1⟩ = d.keys ++ [key] := by
    rw [keys, List.map_append, List.map_singleton, keys]
  rw [hpool]
  constructor
  case nodup =>
    rw [hkeys]
    exact List.nodup_append.mpr ⟨hnodup, List.nodup_singleton _, by
      intro a ha b hb heq
      rw [List.mem_singleton.mp hb] at heq
      exact hnew (heq ▸ ha)⟩
  case current =>
    rw [hkeys]
    exact List.mem_append_right _ (List.mem_singleton_self _)
  case first =>
    rw [hkeys]
    rcases hfirst with h | h
    · exact List.mem_append_left _ h
    · exact List.mem_append_right _ (List.mem_singleton.mpr h.symm)
  case perm =>
    rw [List.flatMap_append, List.range_succ]
    exact hperm.append_right _
  case starts =>
    intro p hp
    rcases List.mem_append.mp hp with hp | hp
    · exact hstarts p hp
    · rw [List.mem_singleton.mp hp]
      exact ⟨_, [], rfl, mess ++ [' '], [], by simp⟩
  case plain =>
    intro p hp
    rcases List.mem_append.mp hp with hp | hp
    · exact hplain p hp
    · rw [List.mem_singleton.mp hp]
      intro h hmem
      cases List.mem_singleton.mp hmem
      apply plain_text (by simp)
      intro hn
      rcases List.mem_append.mp hn with hn | hn
      · exact hmess hn
      · revert hn
        decide

theorem Sound.ts_PROCESS (h : d.Sound) {mess : Text} (hmess : '\n' ∉ mess) :
    (d.ts_PROCESS key mess).Sound := by
  by_cases hkey : key ∈ d.keys
  · rw [Dispatch.ts_PROCESS, if_pos (List.contains_iff_mem.mpr hkey)]
    exact (h.current_set hkey).ts_SECTOR (by simp) (by decide)
  · exact sound_new h.nodup h.perm h.starts h.plain (.inl h.first) hkey hmess

theorem Sound.item (h : d.Sound) {i : Item} (hi : i.Plain) : (d.item i).Sound := by
  cases i with
  | PROCESS key mess => exact h.ts_PROCESS hi
  | SECTOR parm mess => exact h.ts_SECTOR hi.1 hi.2.1
  | PWAIT cs => exact h.ts_PWAIT cs
  | line => exact h.push_other

end Dispatch

namespace Script

variable (script : Script)

theorem sound_dispatch : script.dispatch.Sound := by
  have hstart : ((⟨[], [], 0⟩ : Dispatch).ts_PROCESS P0 []).Sound :=
    Dispatch.sound_new .nil (.refl _) (by simp) (by simp) (.inr rfl) (by simp [Dispatch.keys])
      (by simp)
  rw [dispatch]
  generalize ((⟨[], [], 0⟩ : Dispatch).ts_PROCESS P0 []) = d at hstart ⊢
  have hplain := script.plain
  generalize script.items = items at hplain ⊢
  induction items generalizing d with
  | nil => exact hstart
  | cons i items ih =>
    rw [List.foldl_cons]
    exact ih _ (hstart.item (hplain i List.mem_cons_self))
      fun j hj => hplain j (List.mem_cons_of_mem _ hj)

theorem nodup_keys : script.keys.Nodup := script.sound_dispatch.nodup

theorem lookup_of_mem {pool : List (Text × List Entry)} (hnodup : (pool.map Prod.fst).Nodup)
    {p : Text × List Entry} (hp : p ∈ pool) : pool.lookup p.1 = some p.2 := by
  induction pool with
  | nil => cases hp
  | cons q pool ih =>
    obtain ⟨hq, hnodup⟩ := List.nodup_cons.mp hnodup
    rcases List.mem_cons.mp hp with rfl | hp
    · rw [List.lookup_cons, beq_self_eq_true]
    · have hne : (p.1 == q.1) = false := by
        rw [beq_eq_false_iff_ne]
        intro heq
        exact hq (heq ▸ List.mem_map_of_mem hp)
      rw [List.lookup_cons, hne]
      exact ih hnodup hp

theorem queue_of_mem {p : Text × List Entry} (hp : p ∈ script.dispatch.iSQL_pool) :
    script.queue p.1 = p.2 := by
  rw [queue, lookup_of_mem script.nodup_keys hp, Option.getD_some]

theorem mem_pool {key : Text} (hkey : key ∈ script.keys) :
    (key, script.queue key) ∈ script.dispatch.iSQL_pool := by
  obtain ⟨p, hp, rfl⟩ := List.mem_map.mp hkey
  rw [script.queue_of_mem hp]
  exact hp

theorem starts_queue {key : Text} (hkey : key ∈ script.keys) : Starts (script.queue key) :=
  script.sound_dispatch.starts _ (script.mem_pool hkey)

theorem plain_queue {key : Text} (hkey : key ∈ script.keys) : PlainQueue (script.queue key) :=
  script.sound_dispatch.plain _ (script.mem_pool hkey)

theorem perm_numbers :
    (script.keys.flatMap fun key => numbers (script.queue key)).Perm
      (List.range script.dispatch.q_sct) := by
  have heq : (script.keys.flatMap fun key => numbers (script.queue key)) =
      script.dispatch.iSQL_pool.flatMap fun p => numbers p.2 := by
    rw [keys, Dispatch.keys, List.flatMap_map]
    apply List.flatMap_congr
    intro p hp
    rw [script.queue_of_mem hp]
  rw [heq]
  exact script.sound_dispatch.perm

end Script

section Acts

/-- The acts are cut at the SECTOR commands of the queue. -/
theorem numbers_sections (es : List Entry) (f : Nat → List Text) :
    (sections (es.mapIdx fun i e => e.act (f i))).map (·.h.q_sct) = numbers es := by
  induction es generalizing f with
  | nil => rfl
  | cons e es ih =>
    rw [List.mapIdx_cons]
    cases e with
    | SECTOR h =>
      rw [Entry.act, sections_SECTOR, List.map_cons, numbers, ih fun i => f (i + 1)]
    | other => rw [Entry.act, sections_lines, numbers, ih fun i => f (i + 1)]

variable (script : Script) (out : Outputs)

/-- The sections of all processes. -/
def Script.allSections : List Section :=
  script.keys.flatMap fun key => sections (script.acts out key)

theorem Script.perm_allSections :
    ((script.allSections out).map (·.h.q_sct)).Perm (List.range script.dispatch.q_sct) := by
  have heq : (script.allSections out).map (·.h.q_sct) =
      script.keys.flatMap fun key => numbers (script.queue key) := by
    rw [Script.allSections, List.map_flatMap]
    apply List.flatMap_congr
    intro key _
    exact numbers_sections _ _
  rw [heq]
  exact script.perm_numbers

theorem Script.nodup_allSections : ((script.allSections out).map (·.h.q_sct)).Nodup :=
  (script.perm_allSections out).nodup_iff.mpr List.nodup_range

/-- The acts of a process start with a header of the harness. -/
theorem Script.acts_eq {key : Text} (hkey : key ∈ script.keys) :
    ∃ h as, script.acts out key = .SECTOR h :: as ∧ byATC <:+: h.mess := by
  obtain ⟨h, rest, hqueue, hatc⟩ := script.starts_queue hkey
  rw [Script.acts, hqueue, List.mapIdx_cons]
  exact ⟨h, _, rfl, hatc⟩

end Acts

end Natc.Harness.Golden
