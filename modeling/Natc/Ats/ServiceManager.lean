import Natc.Lib.Machine
import Mathlib.Logic.Function.Basic
import Mathlib.Data.List.Nodup

/-!
# The list of running services

A `RUN` request creates a `Servicer`, puts it into `mServicerList` while it runs and takes it out
again; a `STATUS` request asks every `Servicer` of the list. The threads of the requests share the
list and its mutex.
-/

namespace Natc.Ats

open Lib

/-- Where `handleRun` stands. -/
inductive RunPc where
  | new         -- `new Servicer`
  | initializing  -- `Servicer::initialize`
  | addLock     -- `addService`
  | addPush
  | addUnlock
  | start
  | join        -- with `message`
  | rmLock      -- `rmService`
  | rmErase
  | rmUnlock
  | destroy
  | failed      -- an exception label that calls `destroy`
  | deleting
  | returned
  deriving DecidableEq, Repr

/-- Where `handleStatus` stands; `calling` is inside `status` of a `Servicer`. -/
inductive StatusPc (ρ : Type*) where
  | lock
  | iterating (n : Nat)
  | calling (n : Nat) (i : ρ)
  | unlock
  | returned
  | faulted   -- the label of the failed calls, which reads a result that is not there
  deriving DecidableEq

/-- The threads of the requests; each `RUN` request has its own `Servicer`. -/
structure ServiceManager (ρ τ : Type*) where
  run : ρ → RunPc
  status : τ → StatusPc ρ
  mServicerList : List ρ
  mMutex : Option (ρ ⊕ τ)
  /-- How often `destroy` was called. -/
  destroys : ρ → Nat
  deleted : ρ → Bool

/-- A thread takes its next step; what can fail succeeds or not. -/
inductive ManagerStep (ρ τ : Type*) where
  | run (i : ρ) (ok : Bool)
  | status (j : τ) (ok : Bool)

namespace ServiceManager

variable {ρ τ : Type*} [DecidableEq ρ] [DecidableEq τ]

def goRun (s : ServiceManager ρ τ) (i : ρ) (pc : RunPc) : ServiceManager ρ τ :=
  { s with run := Function.update s.run i pc }

def goStatus (s : ServiceManager ρ τ) (j : τ) (pc : StatusPc ρ) : ServiceManager ρ τ :=
  { s with status := Function.update s.status j pc }

/-- `Servicer::destroy`. -/
def destroy (s : ServiceManager ρ τ) (i : ρ) : ServiceManager ρ τ :=
  { s with destroys := Function.update s.destroys i (s.destroys i + 1) }

def delete (s : ServiceManager ρ τ) (i : ρ) : ServiceManager ρ τ :=
  { s with deleted := Function.update s.deleted i true }

/-- `lock` waits for the mutex or fails. -/
def lockRun (s : ServiceManager ρ τ) (i : ρ) (ok : Bool) (pc : RunPc) :
    Option (ServiceManager ρ τ) :=
  if ok then if s.mMutex = none then some ({ s with mMutex := some (.inl i) }.goRun i pc) else none
  else some (s.goRun i .failed)

/-- An `unlock` that fails leaves the mutex as it is. -/
def unlockRun (s : ServiceManager ρ τ) (i : ρ) (ok : Bool) (pc : RunPc) : ServiceManager ρ τ :=
  if ok then { s with mMutex := none }.goRun i pc else s.goRun i .failed

/-- `handleRun`. -/
def handleRun (s : ServiceManager ρ τ) (i : ρ) (ok : Bool) : Option (ServiceManager ρ τ) :=
  match s.run i with
  | .new => some (s.goRun i (if ok then .initializing else .returned))
  | .initializing => some (s.goRun i (if ok then .addLock else .deleting))
  | .addLock => s.lockRun i ok .addPush
  | .addPush => some ({ s with mServicerList := s.mServicerList ++ [i] }.goRun i .addUnlock)
  | .addUnlock => some (s.unlockRun i ok .start)
  | .start => some (s.goRun i (if ok then .join else .failed))
  | .join => some (s.goRun i (if ok then .rmLock else .failed))
  | .rmLock => s.lockRun i ok .rmErase
  | .rmErase => some ({ s with mServicerList := s.mServicerList.erase i }.goRun i .rmUnlock)
  | .rmUnlock => some (s.unlockRun i ok .destroy)
  | .destroy => some ((s.destroy i).goRun i (if ok then .deleting else .failed))
  | .failed => some ((s.destroy i).goRun i .deleting)
  | .deleting => some ((s.delete i).goRun i .returned)
  | .returned => none

/-- `handleStatus`. -/
def handleStatus (s : ServiceManager ρ τ) (j : τ) (ok : Bool) : Option (ServiceManager ρ τ) :=
  match s.status j with
  | .lock =>
      if ok then
        if s.mMutex = none then some ({ s with mMutex := some (.inr j) }.goStatus j (.iterating 0))
        else none
      else some (s.goStatus j .faulted)
  | .iterating n =>
      match s.mServicerList[n]? with
      | some i => some (s.goStatus j (.calling n i))
      | none => some (s.goStatus j .unlock)
  | .calling n _ => some (s.goStatus j (.iterating (n + 1)))
  | .unlock =>
      some (if ok then { s with mMutex := none }.goStatus j .returned else s.goStatus j .faulted)
  | .returned => none
  | .faulted => none

def step (s : ServiceManager ρ τ) : ManagerStep ρ τ → Option (ServiceManager ρ τ)
  | .run i ok => s.handleRun i ok
  | .status j ok => s.handleStatus j ok

/-- No request has come yet. -/
def machine (ρ τ : Type*) [DecidableEq ρ] [DecidableEq τ] :
    Machine (ServiceManager ρ τ) (ManagerStep ρ τ) where
  start := ⟨fun _ => .new, fun _ => .lock, [], none, fun _ => 0, fun _ => false⟩
  step := step

end ServiceManager

/-- What is promised of the list. -/
structure RegistrySafe {ρ τ : Type*} (s : ServiceManager ρ τ) : Prop where
  unlisted : ∀ i, s.run i = .returned → i ∉ s.mServicerList
  unlocked : ∀ i, s.run i = .returned → s.mMutex ≠ some (.inl i)
  once : ∀ i, s.destroys i ≤ 1
  alive : ∀ j n i, s.status j = .calling n i → s.deleted i = false

/-- The failures behind which `handleRun` cleans up what there is. -/
def RunPc.cleansUp : RunPc → Bool
  | .addUnlock | .start | .join | .rmLock | .rmUnlock | .destroy => false
  | _ => true

/-- The step does not fail, or its failure is cleaned up. -/
def CleansUp {ρ τ : Type*} (s : ServiceManager ρ τ) : ManagerStep ρ τ → Prop
  | .run i ok => ok ∨ (s.run i).cleansUp
  | .status _ _ => True

section Invariant

variable {ρ τ : Type*}

/-- The thread of the request has the mutex. -/
def RunPc.holds : RunPc → Bool
  | .addPush | .addUnlock | .rmErase | .rmUnlock => true
  | _ => false

/-- The `Servicer` is in the list. -/
def RunPc.listed : RunPc → Bool
  | .addUnlock | .start | .join | .rmLock | .rmErase => true
  | _ => false

/-- `destroy` has been called if it ever will. -/
def RunPc.over : RunPc → Bool
  | .deleting | .returned => true
  | _ => false

def StatusPc.holds : StatusPc ρ → Bool
  | .iterating _ | .calling _ _ | .unlock => true
  | _ => false

structure RegistryInv (s : ServiceManager ρ τ) : Prop where
  owner : ∀ i, s.mMutex = some (.inl i) ↔ (s.run i).holds
  watcher : ∀ j, (s.status j).holds → s.mMutex = some (.inr j)
  listed : ∀ i, i ∈ s.mServicerList ↔ (s.run i).listed
  nodup : s.mServicerList.Nodup
  destroys : ∀ i, s.destroys i ≤ if (s.run i).over then 1 else 0
  deleted : ∀ i, s.deleted i → s.run i = .returned
  calling : ∀ j n i, s.status j = .calling n i → i ∈ s.mServicerList

theorem RegistryInv.safe {s : ServiceManager ρ τ} (h : RegistryInv s) : RegistrySafe s where
  unlisted i hi := by
    rw [h.listed, hi]
    decide
  unlocked i hi := by
    rw [Ne, h.owner, hi]
    decide
  once i := by
    have hle := h.destroys i
    split at hle <;> omega
  alive j n i hcalling := by
    have hlisted := (h.listed i).mp (h.calling j n i hcalling)
    cases hdeleted : s.deleted i with
    | false => rfl
    | true =>
      rw [h.deleted i hdeleted] at hlisted
      cases hlisted

variable {s s' : ServiceManager ρ τ} {i : ρ} {j : τ} {ok : Bool}

/-- While a `RUN` thread changes the list, no `STATUS` thread goes through it. -/
private theorem status_not_holds (h : RegistryInv s) (hi : (s.run i).holds) (j : τ) :
    (s.status j).holds = false := by
  cases hj : (s.status j).holds with
  | false => rfl
  | true =>
    have howner := (h.owner i).mpr hi
    rw [h.watcher j hj] at howner
    cases howner

section Run

variable [DecidableEq ρ]

/-- What a step of `handleRun` does: to the mutex, to the list, and to its `Servicer`. -/
structure RunEffect (s s' : ServiceManager ρ τ) (i : ρ) : Prop where
  status : s'.status = s.status
  others : ∀ k, k ≠ i → s'.run k = s.run k ∧ s'.destroys k = s.destroys k ∧
    s'.deleted k = s.deleted k
  mutex : s'.mMutex = s.mMutex ∧ (s'.run i).holds = (s.run i).holds ∨
    s.mMutex = none ∧ s'.mMutex = some (.inl i) ∧ (s'.run i).holds ∨
    (s.run i).holds ∧ s'.mMutex = none ∧ (s'.run i).holds = false
  list : s'.mServicerList = s.mServicerList ∧ (s'.run i).listed = (s.run i).listed ∨
    (s.run i).holds ∧ (s.run i).listed = false ∧ (s'.run i).listed ∧
      s'.mServicerList = s.mServicerList ++ [i] ∨
    (s.run i).holds ∧ (s'.run i).listed = false ∧ s'.mServicerList = s.mServicerList.erase i
  destroys : (s.run i).over = false ∧
      s'.destroys i ≤ s.destroys i + (if (s'.run i).over then 1 else 0) ∨
    (s'.run i).over ∧ s'.destroys i = s.destroys i
  deleted : s'.deleted i = s.deleted i ∧ s.run i ≠ .returned ∨ s'.run i = .returned

private theorem runEffect_go {pc : RunPc} (hholds : pc.holds = (s.run i).holds)
    (hlisted : pc.listed = (s.run i).listed) (hover : (s.run i).over = false) :
    RunEffect s (s.goRun i pc) i where
  status := rfl
  others k hk := by simp [ServiceManager.goRun, hk]
  mutex := .inl (by simp [ServiceManager.goRun, hholds])
  list := .inl (by simp [ServiceManager.goRun, hlisted])
  destroys := .inl ⟨hover, Nat.le_add_right _ _⟩
  deleted := .inl ⟨rfl, fun h => by simp [h, RunPc.over] at hover⟩

private theorem runEffect_lock {pc : RunPc} (hfree : s.mMutex = none) (hholds : pc.holds)
    (hlisted : pc.listed = (s.run i).listed) (hover : (s.run i).over = false) :
    RunEffect s ({ s with mMutex := some (.inl i) }.goRun i pc) i where
  status := rfl
  others k hk := by simp [ServiceManager.goRun, hk]
  mutex := .inr (.inl (by simp [ServiceManager.goRun, hholds, hfree]))
  list := .inl (by simp [ServiceManager.goRun, hlisted])
  destroys := .inl ⟨hover, Nat.le_add_right _ _⟩
  deleted := .inl ⟨rfl, fun h => by simp [h, RunPc.over] at hover⟩

private theorem runEffect_unlock {pc : RunPc} (hhad : (s.run i).holds) (hholds : pc.holds = false)
    (hlisted : pc.listed = (s.run i).listed) (hover : (s.run i).over = false) :
    RunEffect s ({ s with mMutex := none }.goRun i pc) i where
  status := rfl
  others k hk := by simp [ServiceManager.goRun, hk]
  mutex := .inr (.inr (by simp [ServiceManager.goRun, hholds, hhad]))
  list := .inl (by simp [ServiceManager.goRun, hlisted])
  destroys := .inl ⟨hover, Nat.le_add_right _ _⟩
  deleted := .inl ⟨rfl, fun h => by simp [h, RunPc.over] at hover⟩

private theorem runEffect_list {l : List ρ} {pc : RunPc} (hhad : (s.run i).holds)
    (hholds : pc.holds)
    (hl : (s.run i).listed = false ∧ pc.listed ∧ l = s.mServicerList ++ [i] ∨
      pc.listed = false ∧ l = s.mServicerList.erase i) (hover : (s.run i).over = false) :
    RunEffect s ({ s with mServicerList := l }.goRun i pc) i where
  status := rfl
  others k hk := by simp [ServiceManager.goRun, hk]
  mutex := .inl (by simp [ServiceManager.goRun, hholds, hhad])
  list := by
    rcases hl with ⟨h₁, h₂, rfl⟩ | ⟨h, rfl⟩
    · exact .inr (.inl ⟨hhad, h₁, by simpa [ServiceManager.goRun] using h₂, rfl⟩)
    · exact .inr (.inr ⟨hhad, by simpa [ServiceManager.goRun] using h, rfl⟩)
  destroys := .inl ⟨hover, Nat.le_add_right _ _⟩
  deleted := .inl ⟨rfl, fun h => by simp [h, RunPc.over] at hover⟩

private theorem runEffect_destroy {pc : RunPc} (hholds : pc.holds = (s.run i).holds)
    (hlisted : pc.listed = (s.run i).listed) (hover : (s.run i).over = false) (hnow : pc.over) :
    RunEffect s ((s.destroy i).goRun i pc) i where
  status := rfl
  others k hk := by simp [ServiceManager.goRun, ServiceManager.destroy, hk]
  mutex := .inl (by simp [ServiceManager.goRun, ServiceManager.destroy, hholds])
  list := .inl (by simp [ServiceManager.goRun, ServiceManager.destroy, hlisted])
  destroys := .inl ⟨hover, by simp [ServiceManager.goRun, ServiceManager.destroy, hnow]⟩
  deleted := .inl ⟨rfl, fun h => by simp [h, RunPc.over] at hover⟩

private theorem runEffect_delete (hpc : s.run i = .deleting) :
    RunEffect s ((s.delete i).goRun i .returned) i where
  status := rfl
  others k hk := by simp [ServiceManager.goRun, ServiceManager.delete, hk]
  mutex := .inl (by simp [ServiceManager.goRun, ServiceManager.delete, hpc, RunPc.holds])
  list := .inl (by simp [ServiceManager.goRun, ServiceManager.delete, hpc, RunPc.listed])
  destroys := .inr (by simp [ServiceManager.goRun, ServiceManager.delete, RunPc.over])
  deleted := .inr (by simp [ServiceManager.goRun])

theorem runEffect_of_step (h : s.handleRun i ok = some s') (hok : ok ∨ (s.run i).cleansUp) :
    RunEffect s s' i := by
  -- a failure that is not cleaned up is excluded
  have hsucceeds : (s.run i).cleansUp = false → ok = true := fun hnot => by simpa [hnot] using hok
  rw [ServiceManager.handleRun] at h
  cases hpc : s.run i with
  | new | initializing =>
    rw [hpc, Option.some.injEq] at h
    subst h
    cases ok <;> apply runEffect_go <;> rw [hpc] <;> rfl
  | addLock =>
    simp only [hpc, ServiceManager.lockRun] at h
    cases ok with
    | false =>
      cases h
      apply runEffect_go <;> rw [hpc] <;> rfl
    | true =>
      obtain ⟨hfree, rfl⟩ : s.mMutex = none ∧ _ := by simpa using h
      apply runEffect_lock hfree rfl <;> rw [hpc] <;> rfl
  | addPush =>
    simp only [hpc, Option.some.injEq] at h
    subst h
    apply runEffect_list (by rw [hpc]; rfl) rfl (.inl ⟨by rw [hpc]; rfl, rfl, rfl⟩)
    rw [hpc]
    rfl
  | addUnlock | rmUnlock =>
    obtain rfl := hsucceeds (by rw [hpc]; rfl)
    simp only [hpc, ServiceManager.unlockRun, if_true, Option.some.injEq] at h
    subst h
    apply runEffect_unlock <;> first | rfl | rw [hpc]; rfl
  | start | join =>
    obtain rfl := hsucceeds (by rw [hpc]; rfl)
    simp only [hpc, if_true, Option.some.injEq] at h
    subst h
    apply runEffect_go <;> rw [hpc] <;> rfl
  | rmLock =>
    obtain rfl := hsucceeds (by rw [hpc]; rfl)
    obtain ⟨hfree, rfl⟩ : s.mMutex = none ∧ _ := by simpa [hpc, ServiceManager.lockRun] using h
    apply runEffect_lock hfree rfl <;> rw [hpc] <;> rfl
  | rmErase =>
    simp only [hpc, Option.some.injEq] at h
    subst h
    apply runEffect_list (by rw [hpc]; rfl) rfl (.inr ⟨rfl, rfl⟩)
    rw [hpc]
    rfl
  | destroy =>
    obtain rfl := hsucceeds (by rw [hpc]; rfl)
    simp only [hpc, if_true, Option.some.injEq] at h
    subst h
    apply runEffect_destroy <;> first | rfl | rw [hpc]; rfl
  | failed =>
    simp only [hpc, Option.some.injEq] at h
    subst h
    apply runEffect_destroy <;> first | rfl | rw [hpc]; rfl
  | deleting =>
    simp only [hpc, Option.some.injEq] at h
    subst h
    exact runEffect_delete hpc
  | returned =>
    rw [hpc] at h
    cases h

theorem RegistryInv.run (h : RegistryInv s) (he : RunEffect s s' i) : RegistryInv s' where
  owner k := by
    by_cases hk : k = i
    · subst hk
      have howner := h.owner k
      rcases he.mutex with ⟨hm, hholds⟩ | ⟨_, hm, hholds⟩ | ⟨_, hm, hholds⟩
      · rw [hm, hholds, howner]
      · simp [hm, hholds]
      · simp [hm, hholds]
    · rw [(he.others k hk).1, ← h.owner k]
      have howner := h.owner i
      rcases he.mutex with ⟨hm, _⟩ | ⟨hm, hm', _⟩ | ⟨hholds, hm, _⟩
      · rw [hm]
      · simp [hm, hm', Ne.symm hk]
      · simp [hm, howner.mpr hholds, Ne.symm hk]
  watcher k hk := by
    rw [he.status] at hk
    have hwatcher := h.watcher k hk
    rcases he.mutex with ⟨hm, _⟩ | ⟨hm, _⟩ | ⟨hholds, _⟩
    · rw [hm, hwatcher]
    · rw [hm] at hwatcher
      cases hwatcher
    · rw [status_not_holds h hholds k] at hk
      cases hk
  listed k := by
    by_cases hk : k = i
    · subst hk
      rcases he.list with ⟨hl, hlisted⟩ | ⟨_, _, hlisted, hl⟩ | ⟨_, hlisted, hl⟩
      · rw [hl, hlisted, h.listed]
      · simp [hl, hlisted]
      · simp [hl, hlisted, h.nodup.mem_erase_iff]
    · rw [(he.others k hk).1, ← h.listed k]
      rcases he.list with ⟨hl, _⟩ | ⟨_, _, _, hl⟩ | ⟨_, _, hl⟩
      · rw [hl]
      · simp [hl, hk]
      · simp [hl, h.nodup.mem_erase_iff, hk]
  nodup := by
    rcases he.list with ⟨hl, _⟩ | ⟨_, hlisted, _, hl⟩ | ⟨_, _, hl⟩
    · exact hl ▸ h.nodup
    · have hnot : i ∉ s.mServicerList := by simp [h.listed, hlisted]
      rw [hl]
      exact List.Nodup.append h.nodup (List.nodup_singleton i) (by simpa using hnot)
    · exact hl ▸ h.nodup.erase i
  destroys k := by
    by_cases hk : k = i
    · subst hk
      have hle := h.destroys k
      rcases he.destroys with ⟨hover, hstep⟩ | ⟨hover, hstep⟩
      · simp only [hover, Bool.false_eq_true, if_false] at hle
        omega
      · simp only [hover, if_true]
        split at hle <;> omega
    · rw [(he.others k hk).1, (he.others k hk).2.1]
      exact h.destroys k
  deleted k hdeleted := by
    by_cases hk : k = i
    · subst hk
      rcases he.deleted with ⟨hsame, hpc⟩ | hpc
      · exact absurd (h.deleted k (hsame ▸ hdeleted)) hpc
      · exact hpc
    · rw [(he.others k hk).1]
      exact h.deleted k ((he.others k hk).2.2 ▸ hdeleted)
  calling k n m hcalling := by
    rw [he.status] at hcalling
    have hin := h.calling k n m hcalling
    have hbusy : (s.status k).holds = true := by rw [hcalling]; rfl
    rcases he.list with ⟨hl, _⟩ | ⟨hholds, _⟩ | ⟨hholds, _⟩
    · exact hl ▸ hin
    · rw [status_not_holds h hholds k] at hbusy
      cases hbusy
    · rw [status_not_holds h hholds k] at hbusy
      cases hbusy

end Run

section Status

variable [DecidableEq τ]

/-- A step of `handleStatus` changes its own thread and at most the mutex. -/
private theorem RegistryInv.goStatus (h : RegistryInv s) {m : Option (ρ ⊕ τ)} {pc : StatusPc ρ}
    (hm : m = s.mMutex ∧ (pc.holds → s.mMutex = some (.inr j)) ∨
      s.mMutex = none ∧ m = some (.inr j) ∨
      s.mMutex = some (.inr j) ∧ m = none ∧ pc.holds = false)
    (hcalling : ∀ n i, pc = .calling n i → i ∈ s.mServicerList) :
    RegistryInv ({ s with mMutex := m }.goStatus j pc) where
  owner k := by
    show m = some (.inl k) ↔ (s.run k).holds = true
    rw [← h.owner k]
    rcases hm with ⟨rfl, _⟩ | ⟨hfree, rfl⟩ | ⟨hmine, rfl, _⟩
    · rfl
    · simp [hfree]
    · simp [hmine]
  watcher k hk := by
    show m = some (.inr k)
    by_cases hkj : k = j
    · subst hkj
      simp only [ServiceManager.goStatus, Function.update_self] at hk
      rcases hm with ⟨rfl, hmine⟩ | ⟨_, rfl⟩ | ⟨_, _, hnot⟩
      · exact hmine hk
      · rfl
      · rw [hnot] at hk
        cases hk
    · simp only [ServiceManager.goStatus, Function.update_of_ne hkj] at hk
      have hwatcher := h.watcher k hk
      rcases hm with ⟨rfl, _⟩ | ⟨hfree, _⟩ | ⟨hmine, _, _⟩
      · exact hwatcher
      · rw [hfree] at hwatcher
        cases hwatcher
      · rw [hmine, Option.some.injEq, Sum.inr.injEq] at hwatcher
        exact absurd hwatcher.symm hkj
  listed := h.listed
  nodup := h.nodup
  destroys := h.destroys
  deleted := h.deleted
  calling k n i hk := by
    by_cases hkj : k = j
    · subst hkj
      exact hcalling n i (by simpa [ServiceManager.goStatus] using hk)
    · exact h.calling k n i (by simpa [ServiceManager.goStatus, hkj] using hk)

theorem RegistryInv.status (h : RegistryInv s) (hs : s.handleStatus j ok = some s') :
    RegistryInv s' := by
  have hmine : (s.status j).holds → s.mMutex = some (.inr j) := h.watcher j
  rw [ServiceManager.handleStatus] at hs
  cases hpc : s.status j with
  | lock =>
    simp only [hpc] at hs
    cases ok with
    | false =>
      cases hs
      exact h.goStatus (.inl ⟨rfl, fun hholds => by cases hholds⟩) fun n i hcall => by cases hcall
    | true =>
      obtain ⟨hfree, rfl⟩ : s.mMutex = none ∧ _ := by simpa using hs
      exact h.goStatus (.inr (.inl ⟨hfree, rfl⟩)) fun n i hcall => by cases hcall
  | iterating n =>
    rw [hpc] at hmine
    simp only [hpc] at hs
    cases hnext : s.mServicerList[n]? with
    | some i =>
      rw [hnext] at hs
      cases hs
      refine h.goStatus (.inl ⟨rfl, fun _ => hmine rfl⟩) fun n' i' hcall => ?_
      cases hcall
      exact List.mem_of_getElem? hnext
    | none =>
      rw [hnext] at hs
      cases hs
      exact h.goStatus (.inl ⟨rfl, fun _ => hmine rfl⟩) fun n i hcall => by cases hcall
  | calling n i =>
    rw [hpc] at hmine
    simp only [hpc, Option.some.injEq] at hs
    subst hs
    exact h.goStatus (.inl ⟨rfl, fun _ => hmine rfl⟩) fun n i hcall => by cases hcall
  | unlock =>
    rw [hpc] at hmine
    simp only [hpc, Option.some.injEq] at hs
    subst hs
    cases ok with
    | false =>
      exact h.goStatus (.inl ⟨rfl, fun hholds => by cases hholds⟩) fun n i hcall => by cases hcall
    | true =>
      exact h.goStatus (.inr (.inr ⟨hmine rfl, rfl, rfl⟩)) fun n i hcall => by cases hcall
  | returned =>
    rw [hpc] at hs
    cases hs
  | faulted =>
    rw [hpc] at hs
    cases hs

end Status

end Invariant

section Failure

variable {ρ τ : Type*} [DecidableEq ρ]

/-- Any other failure breaks the promise as soon as the thread has gone on to its end. -/
theorem not_safe_of_failure {s s' : ServiceManager ρ τ} {i : ρ} (hinv : RegistryInv s)
    (hpc : (s.run i).cleansUp = false) (hstep : s.handleRun i false = some s') :
    ¬ RegistrySafe (((s'.destroy i).goRun i .deleting).delete i |>.goRun i .returned) ∧
      s'.run i = .failed := by
  have hlisted := hinv.listed i
  have howner := hinv.owner i
  rw [ServiceManager.handleRun] at hstep
  have hreturned : ∀ t : ServiceManager ρ τ,
      (((t.destroy i).goRun i .deleting).delete i |>.goRun i .returned).run i = .returned :=
    fun t => Function.update_self ..
  cases hrun : s.run i with
  | addUnlock | start | join | rmLock =>
    rw [hrun] at hstep hlisted
    cases hstep
    refine ⟨fun hsafe => hsafe.unlisted i (hreturned _) (hlisted.mpr rfl), Function.update_self ..⟩
  | rmUnlock =>
    rw [hrun] at hstep howner
    cases hstep
    exact ⟨fun hsafe => hsafe.unlocked i (hreturned _) (howner.mpr rfl), Function.update_self ..⟩
  | destroy =>
    rw [hrun] at hstep
    cases hstep
    refine ⟨fun hsafe => ?_, Function.update_self ..⟩
    have htwice := hsafe.once i
    simp [ServiceManager.destroy, ServiceManager.goRun, ServiceManager.delete] at htwice
  | new | initializing | addLock | addPush | rmErase | failed | deleting | returned =>
    rw [hrun] at hpc
    cases hpc

end Failure

section Runs

variable {ρ τ : Type*} [DecidableEq ρ] [DecidableEq τ]

theorem registryInv_start : RegistryInv (ServiceManager.machine ρ τ).start where
  owner i := by simp [ServiceManager.machine, RunPc.holds]
  watcher j hj := by cases hj
  listed i := by simp [ServiceManager.machine, RunPc.listed]
  nodup := List.nodup_nil
  destroys i := Nat.zero_le _
  deleted i hi := by cases hi
  calling j n i hcall := by cases hcall

/-- In every run in which only such calls fail behind which everything is cleaned up, the list is
safe. -/
theorem registry_safe {s : ServiceManager ρ τ}
    (h : (ServiceManager.machine ρ τ).Reach CleansUp s) : RegistrySafe s := by
  refine (h.invariant registryInv_start fun s l s' hinv hok hstep => ?_).safe
  cases l with
  | run i ok => exact hinv.run (runEffect_of_step hstep hok)
  | status j ok => exact hinv.status hstep

instance (s : ServiceManager ρ τ) (l : ManagerStep ρ τ) : Decidable (CleansUp s l) :=
  match l with
  | .run _ _ => inferInstanceAs (Decidable (_ ∨ _))
  | .status _ _ => inferInstanceAs (Decidable True)

end Runs

section Examples

/-- A request that is served while another one asks for the status. -/
private def served : List (ManagerStep Unit Unit) :=
  List.replicate 5 (.run () true) ++ List.replicate 5 (.status () true) ++
    List.replicate 7 (.run () true)

theorem registry_safe_served :
    ∃ s : ServiceManager Unit Unit, s.run () = .returned ∧ RegistrySafe s := by
  obtain ⟨s, hreach, hrun⟩ := (ServiceManager.machine Unit Unit).exists_reach_of_exec
    (fun s l => decide (CleansUp s l)) (fun s => decide (s.run () = .returned)) served (by decide)
  refine ⟨s, by simpa using hrun, registry_safe ?_⟩
  exact hreach.mono fun _ _ h => by simpa using h

/-- The thread of the `Servicer` cannot be started: the `Servicer` is deleted in the list. -/
theorem start_failure_dangles :
    ¬ ∀ s : ServiceManager Unit Unit, (ServiceManager.machine Unit Unit).Reachable s →
      RegistrySafe s := by
  intro h
  obtain ⟨s, hreach, hbad⟩ := (ServiceManager.machine Unit Unit).exists_reach_of_exec
    (fun _ _ => true) (fun s => decide (s.run () = .returned ∧ () ∈ s.mServicerList))
    (List.replicate 5 (.run () true) ++ .run () false :: List.replicate 2 (.run () true))
    (by decide)
  have hbad : s.run () = .returned ∧ () ∈ s.mServicerList := by simpa using hbad
  exact (h s (hreach.mono fun _ _ _ => trivial)).unlisted () hbad.1 hbad.2

end Examples

end Natc.Ats
