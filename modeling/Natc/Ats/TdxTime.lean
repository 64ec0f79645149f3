import Mathlib.Data.UInt
import Mathlib.Data.List.Pairwise
import Mathlib.Tactic.Ring
import Natc.Lib.Machine

/-!
# The times of the TDX prefixes

Every entry of a TDX file begins with a prefix that carries a time. `Laborer::makeTdxPrefix`
advances the counter of the service thread and reads it again, in two calls. A laborer holds only
its own lock meanwhile, so that the calls of several laborers interleave.
-/

namespace Natc.Ats

open Lib

/-- A prefix as it was written: the laborer, the steps at which its call of `makeTdxPrefix` began
and completed, and the number in the text. -/
structure TdxPrefix (ι : Type*) where
  process : ι
  began : Nat
  completed : Nat
  time : Int

/-- The service thread's counter, with the laborers that have advanced it and not read it yet. -/
structure TdxClock (ι : Type*) where
  mTdxTime : UInt32
  clock : Nat
  inside : List (ι × Nat)
  prefixes : List (TdxPrefix ι)
  overrun : Bool

inductive TdxCall (ι : Type*)
  | incrTdxTime (i : ι)
  | getTdxTime (i : ι)

/-- What `%d` prints for an unsigned number. -/
def printed (t : UInt32) : Int :=
  if t.toNat < 2 ^ 31 then t.toNat else t.toNat - 2 ^ 32

/-- Whether the printed number and its terminator have room in `sTimeStr`. -/
def fitsTimeStr (t : Int) : Bool := decide (-10 ^ 8 < t) && decide (t < 10 ^ 9)

variable {ι : Type*}

namespace TdxClock

/-- Up to `incrTdxTime`, the first half of `makeTdxPrefix`. -/
def incrTdxTime (s : TdxClock ι) (i : ι) : TdxClock ι :=
  { s with
    mTdxTime := s.mTdxTime + 1
    clock := s.clock + 1
    inside := (i, s.clock) :: s.inside }

/-- From `getTdxTime` on: the counter is read and printed. -/
def getTdxTime [DecidableEq ι] (s : TdxClock ι) (e : ι × Nat) : TdxClock ι :=
  { s with
    clock := s.clock + 1
    inside := s.inside.erase e
    prefixes := ⟨e.1, e.2, s.clock, printed s.mTdxTime⟩ :: s.prefixes
    overrun := s.overrun || !fitsTimeStr (printed s.mTdxTime) }

def step [DecidableEq ι] (s : TdxClock ι) : TdxCall ι → Option (TdxClock ι)
  | .incrTdxTime i => if s.inside.any (·.1 = i) then none else some (s.incrTdxTime i)
  | .getTdxTime i => (s.inside.find? (·.1 = i)).map s.getTdxTime

/-- The service thread starts with the time 0 and no laborer. -/
def machine (ι : Type*) [DecidableEq ι] : Machine (TdxClock ι) (TdxCall ι) where
  start := ⟨0, 0, [], [], false⟩
  step := step

/-- The times tell the entries apart and order them as they were made. -/
structure Lawful (s : TdxClock ι) : Prop where
  written : s.overrun = false
  distinct : s.prefixes.Pairwise fun a b => a.time ≠ b.time
  ordered : ∀ a ∈ s.prefixes, ∀ b ∈ s.prefixes, a.completed < b.began → a.time < b.time

/-- A laborer begins a prefix while no other is between its two calls, and before the counter
has used up its nine digits. -/
def Alone (s : TdxClock ι) : TdxCall ι → Prop
  | .incrTdxTime _ => s.inside = [] ∧ s.mTdxTime.toNat < 999999999
  | .getTdxTime _ => True

/-- A step does one of two things. -/
theorem step_cases [DecidableEq ι] {s s' : TdxClock ι} {c : TdxCall ι} (h : s.step c = some s') :
    (∃ i, c = .incrTdxTime i ∧ s' = s.incrTdxTime i) ∨
      (∃ e ∈ s.inside, c = .getTdxTime e.1 ∧ s' = s.getTdxTime e) := by
  cases c with
  | incrTdxTime i =>
    rw [step] at h
    split at h
    · cases h
    · cases h
      exact .inl ⟨i, rfl, rfl⟩
  | getTdxTime i =>
    rw [step] at h
    obtain ⟨e, he, hs⟩ := Option.map_eq_some_iff.mp h
    have hi : e.1 = i := by simpa using List.find?_some he
    exact .inr ⟨e, List.mem_of_find?_eq_some he, hi ▸ rfl, hs.symm⟩

section Alone

/-- While the laborers take turns, the prefixes were made one after the other, with ascending
times, and a laborer between its calls has advanced the counter beyond all of them. -/
structure Turns (s : TdxClock ι) : Prop where
  one : s.inside.length ≤ 1
  bound : s.mTdxTime.toNat ≤ 999999999
  written : s.overrun = false
  past : ∀ a ∈ s.prefixes, a.began < a.completed ∧ a.completed < s.clock ∧
    a.time + s.inside.length ≤ s.mTdxTime.toNat
  entered : ∀ e ∈ s.inside, e.2 < s.clock ∧ ∀ a ∈ s.prefixes, a.completed < e.2
  descending : s.prefixes.Pairwise fun a b => b.time < a.time ∧ b.completed < a.began

theorem printed_of_le {t : UInt32} (h : t.toNat ≤ 999999999) : printed t = t.toNat :=
  if_pos (Nat.lt_of_le_of_lt h (by decide))

theorem toNat_incr {t : UInt32} (h : t.toNat < 999999999) : (t + 1).toNat = t.toNat + 1 := by
  have hlt : t.toNat + 1 < 2 ^ 32 := Nat.lt_of_lt_of_le (Nat.succ_lt_succ h) (by decide)
  rw [UInt32.toNat_add, UInt32.toNat_one, Nat.mod_eq_of_lt hlt]

theorem Turns.incr {s : TdxClock ι} (h : s.Turns) (i : ι) (hin : s.inside = [])
    (ht : s.mTdxTime.toNat < 999999999) : (s.incrTdxTime i).Turns := by
  have htime := toNat_incr ht
  refine ⟨by simp [incrTdxTime, hin], ?_, h.written, ?_, ?_, h.descending⟩
  · show (s.mTdxTime + 1).toNat ≤ _
    omega
  · intro a ha
    obtain ⟨hb, hc, hle⟩ := h.past a ha
    simp only [incrTdxTime, hin, List.length_cons, List.length_nil, htime] at hle ⊢
    omega
  · intro e he
    have heq : e = (i, s.clock) := by simpa [incrTdxTime, hin] using he
    subst heq
    exact ⟨Nat.lt_succ_self _, fun a ha => (h.past a ha).2.1⟩

theorem Turns.get [DecidableEq ι] {s : TdxClock ι} (h : s.Turns) {e : ι × Nat} (he : e ∈ s.inside) :
    (s.getTdxTime e).Turns := by
  have hprint := printed_of_le h.bound
  have hone : s.inside = [e] := by
    obtain ⟨x, hx⟩ := List.length_eq_one_iff.mp
      (Nat.le_antisymm h.one (List.length_pos_of_mem he))
    rw [hx, List.mem_singleton] at he
    rw [hx, he]
  have hin : s.inside.erase e = [] := by simp [hone]
  have hfit : fitsTimeStr (printed s.mTdxTime) = true := by
    have := h.bound
    rw [hprint, fitsTimeStr]
    simp only [Bool.and_eq_true, decide_eq_true_eq]
    omega
  obtain ⟨hlt, hafter⟩ := h.entered e he
  refine ⟨?_, h.bound, ?_, ?_, ?_, ?_⟩
  · simp [getTdxTime, hin]
  · simp [getTdxTime, h.written, hfit]
  · intro a ha
    simp only [getTdxTime, List.mem_cons] at ha
    simp only [getTdxTime, hin, List.length_nil]
    rcases ha with rfl | ha
    · exact ⟨hlt, Nat.lt_succ_self _, by simp [hprint]⟩
    · obtain ⟨hb, hc, hle⟩ := h.past a ha
      simp only [hone, List.length_cons, List.length_nil] at hle
      exact ⟨hb, Nat.lt_succ_of_lt hc, by omega⟩
  · intro x hx
    simp [getTdxTime, hin] at hx
  · refine List.pairwise_cons.mpr ⟨?_, h.descending⟩
    intro a ha
    have := (h.past a ha).2.2
    simp only [hone, List.length_cons, List.length_nil] at this
    simp only [hprint]
    exact ⟨by omega, hafter a ha⟩

/-- As long as the laborers take turns, so do the prefixes. -/
theorem turns_of_reach [DecidableEq ι] {s : TdxClock ι} (h : (machine ι).Reach Alone s) : s.Turns := by
  apply h.invariant
  · exact ⟨Nat.zero_le _, Nat.zero_le _, rfl, by simp [machine], by simp [machine], .nil⟩
  · intro s c s' hs hok hstep
    rcases step_cases hstep with ⟨i, rfl, rfl⟩ | ⟨e, he, rfl, rfl⟩
    · exact hs.incr i hok.1 hok.2
    · exact hs.get he

theorem Turns.lawful {s : TdxClock ι} (h : s.Turns) : s.Lawful := by
  refine ⟨h.written, h.descending.imp fun hab => (ne_of_lt hab.1).symm, ?_⟩
  have hpair : ∀ a ∈ s.prefixes, ∀ b ∈ s.prefixes,
      (a.completed < b.began → a.time < b.time) ∧ (b.completed < a.began → b.time < a.time) := by
    have hsymm : Std.Symm fun a b : TdxPrefix ι =>
        (a.completed < b.began → a.time < b.time) ∧ (b.completed < a.began → b.time < a.time) :=
      ⟨fun a b hab => ⟨hab.2, hab.1⟩⟩
    apply List.Pairwise.forall_of_forall
    · intro a ha
      have := (h.past a ha).1
      exact ⟨fun _ => by omega, fun _ => by omega⟩
    · apply h.descending.imp_of_mem
      intro a b ha hb hab
      have := (h.past a ha).1
      have := (h.past b hb).1
      exact ⟨fun _ => by omega, fun _ => hab.1⟩
  exact fun a ha b hb => (hpair a ha b hb).1

end Alone

section Together

variable [DecidableEq ι]

/-- What is left of a begun prefix that was not alone: two laborers inside, or one whose time is
already taken or has no room. -/
inductive Doomed (s : TdxClock ι) : Prop
  | repeated (h : ¬s.prefixes.Pairwise fun a b => a.time ≠ b.time)
  | overrun (h : s.overrun = true)
  | crowded (h : 2 ≤ s.inside.length)
  | taken (h : s.inside ≠ []) (e : TdxPrefix ι) (he : e ∈ s.prefixes)
      (ht : e.time = printed s.mTdxTime)
  | tooLong (h : s.inside ≠ []) (ht : fitsTimeStr (printed s.mTdxTime) = false)

omit [DecidableEq ι] in
theorem Doomed.incr {s : TdxClock ι} (h : s.Doomed) (i : ι) : (s.incrTdxTime i).Doomed := by
  cases h with
  | repeated h => exact .repeated h
  | overrun h => exact .overrun h
  | crowded h => exact .crowded (Nat.le_succ_of_le h)
  | taken h _ _ _ => exact .crowded (Nat.succ_le_succ (List.length_pos_iff.mpr h))
  | tooLong h _ => exact .crowded (Nat.succ_le_succ (List.length_pos_iff.mpr h))

theorem Doomed.get {s : TdxClock ι} (h : s.Doomed) {e : ι × Nat} (he : e ∈ s.inside) :
    (s.getTdxTime e).Doomed := by
  cases h with
  | repeated h => exact .repeated fun hp => h (List.pairwise_cons.mp hp).2
  | overrun h => exact .overrun (by simp [getTdxTime, h])
  | crowded h =>
    have hlen : (s.inside.erase e).length = s.inside.length - 1 := List.length_erase_of_mem he
    have hne : s.inside.erase e ≠ [] := by
      apply List.length_pos_iff.mp
      omega
    exact .taken hne ⟨e.1, e.2, s.clock, printed s.mTdxTime⟩ List.mem_cons_self rfl
  | taken _ a ha ht =>
    exact .repeated fun hp => (List.pairwise_cons.mp hp).1 a ha ht.symm
  | tooLong _ ht => exact .overrun (by simp [getTdxTime, ht])

theorem not_fits_of_eq {t : UInt32} (h : t.toNat = 999999999) :
    fitsTimeStr (printed (t + 1)) = false := by
  have hsucc : (t + 1).toNat = 1000000000 := by
    rw [UInt32.toNat_add, h]
    rfl
  rw [printed, hsucc]
  decide

/-- In every run the laborers have taken turns, or the prefixes went wrong. -/
theorem alone_or_doomed {s : TdxClock ι} (h : (machine ι).Reachable s) :
    (machine ι).Reach Alone s ∨ s.Doomed := by
  apply h.invariant
  · exact .inl .start
  · intro s c s' hs _ hstep
    rcases hs with hs | hs
    · rcases step_cases hstep with ⟨i, rfl, rfl⟩ | ⟨e, _, rfl, rfl⟩
      · have hturns := turns_of_reach hs
        by_cases hin : s.inside = []
        · by_cases ht : s.mTdxTime.toNat < 999999999
          · exact .inl (.next hs (show s.Alone (.incrTdxTime i) from ⟨hin, ht⟩) hstep)
          · have hlast : s.mTdxTime.toNat = 999999999 := by
              have := hturns.bound
              omega
            exact .inr (.tooLong (List.cons_ne_nil _ _) (not_fits_of_eq hlast))
        · exact .inr (.crowded (Nat.succ_le_succ (List.length_pos_iff.mpr hin)))
      · exact .inl (.next hs (show s.Alone (.getTdxTime e.1) from trivial) hstep)
    · rcases step_cases hstep with ⟨i, _, rfl⟩ | ⟨e, he, _, rfl⟩
      · exact .inr (hs.incr i)
      · exact .inr (hs.get he)

omit [DecidableEq ι] in
theorem Lawful.not_doomed {s : TdxClock ι} (h : s.Lawful) (hin : s.inside = []) : ¬s.Doomed := by
  intro hd
  cases hd with
  | repeated hr => exact hr h.distinct
  | overrun ho => simp [h.written] at ho
  | crowded hc => simp [hin] at hc
  | taken hne _ _ _ => exact hne hin
  | tooLong hne _ => exact hne hin

/-- The times order the prefixes in every run in which each prefix is begun alone; and when no
laborer is left between its two calls, in no other. -/
theorem times_order_run (s : TdxClock ι) (h : (machine ι).Reachable s) :
    ((machine ι).Reach Alone s → s.Lawful) ∧
      (s.inside = [] → s.Lawful → (machine ι).Reach Alone s) := by
  refine ⟨fun ha => (turns_of_reach ha).lawful, ?_⟩
  intro hin hl
  rcases alone_or_doomed h with ha | hd
  · exact ha
  · exact absurd hd (hl.not_doomed hin)

/-- Two laborers write a prefix, one after the other. -/
theorem times_order_run_turns : ∃ s : TdxClock Bool, s.prefixes.length = 2 ∧
    ((machine Bool).Reach Alone s → s.Lawful) ∧
      (s.inside = [] → s.Lawful → (machine Bool).Reach Alone s) := by
  obtain ⟨s, hs, hlen⟩ := Machine.exists_reach_of_exec (machine Bool) (fun _ _ => true)
    (fun s => s.prefixes.length == 2)
    [.incrTdxTime true, .getTdxTime true, .incrTdxTime false, .getTdxTime false] (by decide)
  exact ⟨s, by simpa using hlen, times_order_run s (hs.mono fun _ _ _ => trivial)⟩

/-- Two laborers advance the counter before either reads it, and write the same time. -/
theorem same_time_twice : ¬∀ s : TdxClock Bool, (machine Bool).Reachable s → s.Lawful := by
  intro hall
  obtain ⟨s, hs, htwice⟩ := Machine.exists_reach_of_exec (machine Bool) (fun _ _ => true)
    (fun s => s.prefixes.map (·.time) == [2, 2])
    [.incrTdxTime true, .incrTdxTime false, .getTdxTime true, .getTdxTime false] (by decide)
  have hdistinct := (hall s (hs.mono fun _ _ _ => trivial)).distinct
  rw [← List.pairwise_map (f := TdxPrefix.time), beq_iff_eq.mp htwice] at hdistinct
  exact absurd hdistinct (by decide)

end Together

end TdxClock

end Natc.Ats
