import Mathlib.Algebra.Order.Group.Int
import Mathlib.Logic.Function.Basic
import Natc.Allim.Kept

/-!
# The wasted descriptors

`allimDesc` opens or closes sockets until as many are open as were asked for. The sockets are in an
array of `ALLIM_DESCMAX` slots, and the number that was asked for is taken as it is.
-/

namespace Natc.Allim.Desc

open Lib Shared

/-- Which slots of `sSocks` hold an open socket. -/
abbrev Socks := Int → Bool

/-- How many sockets are open: those in the first slots. -/
structure Count where
  val : Int
  nonneg : 0 ≤ val
  le : val ≤ descMax

/-- The first slots are open. -/
def Holds (n : Int) (sSocks : Socks) : Prop := ∀ i, sSocks i = true ↔ 0 ≤ i ∧ i < n

/-- `openSocks` with the array. -/
def openSlots (acpSockOpen : Int → AcpRc) : Nat → Int → Socks → Option (Int × Socks)
  | 0, sCurrent, sSocks => some (sCurrent, sSocks)
  | n + 1, sCurrent, sSocks =>
      if ¬InSocks sCurrent then none
      else if acpSockOpen sCurrent ≠ .success then some (sCurrent, sSocks)
      else openSlots acpSockOpen n (sCurrent + 1) (Function.update sSocks sCurrent true)

/-- `closeSocks` with the array. -/
def closeSlots : Nat → Int → Socks → Option (Int × Socks)
  | 0, sCurrent, sSocks => some (sCurrent, sSocks)
  | n + 1, sCurrent, sSocks =>
      if ¬InSocks (sCurrent - 1) then none
      else closeSlots n (sCurrent - 1) (Function.update sSocks (sCurrent - 1) false)

/-- `changeDesc` with the array. -/
def changeSlots (acpSockOpen : Int → AcpRc) (sCurrent sDest : Int) (sSocks : Socks) :
    Option (Int × Socks) :=
  if sCurrent < sDest then openSlots acpSockOpen (sDest - sCurrent).toNat sCurrent sSocks
  else closeSlots (sCurrent - sDest).toNat sCurrent sSocks

/-- The two numbers that `allimDesc` reads. -/
def numbers (s : State) : Int × Int := (s.region.mDesc, s.region.mDestDesc)

theorem aside_numbers : Aside numbers := fun _ _ _ _ => rfl

/-- However the call goes otherwise, it touches no slot that is not there, and where it succeeds
exactly the requested number of sockets is open. -/
def DescRight (acpSockOpen : Int → AcpRc) (sCurrent sDest : Int) : Prop :=
  ∀ (r : Replies) (s : State), r.acpSockOpen = acpSockOpen → numbers s = (sCurrent, sDest) →
    (allimDesc r s).Safe fun out t => out.1 = .success →
      t.region.mDesc = sDest ∧ ∀ sSocks, Holds sCurrent sSocks →
        ∃ after, changeSlots acpSockOpen sCurrent sDest sSocks = some (sDest, after) ∧
          Holds sDest after

/-! ## The loops -/

section Loops

variable {acpSockOpen : Int → AcpRc} {sCurrent sDest : Int} {sSocks : Socks}

theorem openSlots_count (n : Nat) :
    (openSlots acpSockOpen n sCurrent sSocks).map Prod.fst = openSocks acpSockOpen n sCurrent := by
  induction n generalizing sCurrent sSocks with
  | zero => rfl
  | succ n ih =>
    unfold openSlots openSocks
    split
    · rfl
    · split
      · rfl
      · exact ih

theorem closeSlots_count (n : Nat) :
    (closeSlots n sCurrent sSocks).map Prod.fst = closeSocks n sCurrent := by
  induction n generalizing sCurrent sSocks with
  | zero => rfl
  | succ n ih =>
    unfold closeSlots closeSocks
    split
    · rfl
    · exact ih

/-- The array goes along with the counts. -/
theorem changeSlots_count (r : Replies) :
    (changeSlots r.acpSockOpen sCurrent sDest sSocks).map Prod.fst =
      changeDesc r sCurrent sDest := by
  unfold changeSlots changeDesc
  split
  · exact openSlots_count _
  · exact closeSlots_count _

theorem Holds.open_next (h : Holds sCurrent sSocks) (hpos : 0 ≤ sCurrent) :
    Holds (sCurrent + 1) (Function.update sSocks sCurrent true) := by
  intro i
  by_cases hi : i = sCurrent
  · subst hi
    rw [Function.update_self]
    simpa using hpos
  · rw [Function.update_of_ne hi, h i]
    omega

theorem Holds.close_last (h : Holds sCurrent sSocks) :
    Holds (sCurrent - 1) (Function.update sSocks (sCurrent - 1) false) := by
  intro i
  by_cases hi : i = sCurrent - 1
  · subst hi
    rw [Function.update_self]
    simp
  · rw [Function.update_of_ne hi, h i]
    omega

/-- The loop that opens reaches its end exactly when every slot is there and every socket opens. -/
theorem openSlots_eq_iff (n : Nat) (hpos : 0 ≤ sCurrent) (h : Holds sCurrent sSocks) :
    (∃ after, openSlots acpSockOpen n sCurrent sSocks = some (sCurrent + n, after) ∧
        Holds (sCurrent + n) after) ↔
      ∀ i, sCurrent ≤ i → i < sCurrent + n → i < descMax ∧ acpSockOpen i = .success := by
  induction n generalizing sCurrent sSocks with
  | zero =>
    have hzero : sCurrent + ((0 : Nat) : Int) = sCurrent := by omega
    rw [hzero]
    refine iff_of_true ⟨sSocks, rfl, h⟩ ?_
    intro i hle hlt
    omega
  | succ n ih =>
    have hcast : sCurrent + ((n + 1 : Nat) : Int) = sCurrent + 1 + n := by omega
    rw [hcast, openSlots]
    by_cases hslot : InSocks sCurrent
    · rw [if_neg (not_not_intro hslot)]
      by_cases hopen : acpSockOpen sCurrent = .success
      · rw [if_neg (not_not_intro hopen), ih (by omega) (h.open_next hpos)]
        constructor
        · intro hall i hle hlt
          rcases Int.le_iff_eq_or_lt.mp hle with rfl | hless
          · exact ⟨hslot.2, hopen⟩
          · exact hall i (by omega) hlt
        · intro hall i hle hlt
          exact hall i (by omega) hlt
      · rw [if_pos hopen]
        refine iff_of_false ?_ fun hall => hopen (hall sCurrent (Int.le_refl _) (by omega)).2
        rintro ⟨after, heq, -⟩
        have hfst := congrArg Prod.fst (Option.some.inj heq)
        dsimp only at hfst
        omega
    · rw [if_pos hslot]
      refine iff_of_false ?_ fun hall => hslot ⟨hpos, (hall sCurrent (Int.le_refl _) (by omega)).1⟩
      rintro ⟨after, heq, -⟩
      cases heq

/-- The loop that closes reaches its end exactly when it does not go below the first slot. -/
theorem closeSlots_eq_iff (n : Nat) (hle : sCurrent ≤ descMax) (h : Holds sCurrent sSocks)
    (hpos : 0 ≤ sCurrent) :
    (∃ after, closeSlots n sCurrent sSocks = some (sCurrent - n, after) ∧
        Holds (sCurrent - n) after) ↔ 0 ≤ sCurrent - n := by
  induction n generalizing sCurrent sSocks with
  | zero =>
    have hzero : sCurrent - ((0 : Nat) : Int) = sCurrent := by omega
    rw [hzero]
    exact iff_of_true ⟨sSocks, rfl, h⟩ hpos
  | succ n ih =>
    have hcast : sCurrent - ((n + 1 : Nat) : Int) = sCurrent - 1 - n := by omega
    rw [hcast, closeSlots]
    by_cases hslot : InSocks (sCurrent - 1)
    · rw [if_neg (not_not_intro hslot)]
      exact ih (by omega) h.close_last hslot.1
    · rw [if_pos hslot]
      refine iff_of_false ?_ ?_
      · rintro ⟨after, heq, -⟩
        cases heq
      · intro hnonneg
        exact hslot ⟨by omega, by omega⟩

theorem openSocks_range (n : Nat) {out : Int} (hpos : 0 ≤ sCurrent) (hle : sCurrent ≤ descMax)
    (h : openSocks acpSockOpen n sCurrent = some out) : 0 ≤ out ∧ out ≤ descMax := by
  induction n generalizing sCurrent with
  | zero =>
    cases h
    exact ⟨hpos, hle⟩
  | succ n ih =>
    unfold openSocks at h
    split at h
    · cases h
    · next hslot =>
      have hlt := (not_not.mp hslot).2
      split at h
      · cases h
        exact ⟨hpos, hle⟩
      · exact ih (by omega) (by omega) h

theorem closeSocks_range (n : Nat) {out : Int} (hpos : 0 ≤ sCurrent) (hle : sCurrent ≤ descMax)
    (h : closeSocks n sCurrent = some out) : 0 ≤ out ∧ out ≤ descMax := by
  induction n generalizing sCurrent with
  | zero =>
    cases h
    exact ⟨hpos, hle⟩
  | succ n ih =>
    unfold closeSocks at h
    split at h
    · cases h
    · next hslot => exact ih (not_not.mp hslot).1 (by omega) h

/-- What the call needs of the numbers and of the sockets. -/
def Attainable (acpSockOpen : Int → AcpRc) (sCurrent sDest : Int) : Prop :=
  0 ≤ sDest ∧ sDest ≤ descMax ∧ ∀ i, sCurrent ≤ i → i < sDest → acpSockOpen i = .success

theorem changeSlots_eq_iff (current : Count) (h : Holds current.val sSocks) :
    (∃ after, changeSlots acpSockOpen current.val sDest sSocks = some (sDest, after) ∧
        Holds sDest after) ↔ Attainable acpSockOpen current.val sDest := by
  have hnonneg := current.nonneg
  have hle := current.le
  unfold changeSlots Attainable
  by_cases hlt : current.val < sDest
  · have hdest : current.val + (sDest - current.val).toNat = sDest := by omega
    have hloop := @openSlots_eq_iff acpSockOpen current.val sSocks (sDest - current.val).toNat
      hnonneg h
    rw [hdest] at hloop
    rw [if_pos hlt, hloop]
    constructor
    · intro hall
      have hlast := (hall (sDest - 1) (by omega) (by omega)).1
      exact ⟨by omega, by omega, fun i hi hd => (hall i hi hd).2⟩
    · rintro ⟨-, hmax, hall⟩ i hi hd
      exact ⟨by omega, hall i hi hd⟩
  · have hdest : current.val - (current.val - sDest).toNat = sDest := by omega
    have hloop := closeSlots_eq_iff (current.val - sDest).toNat hle h hnonneg
    rw [hdest] at hloop
    rw [if_neg hlt, hloop]
    constructor
    · intro hpos
      exact ⟨hpos, by omega, fun i hi hd => by omega⟩
    · exact fun hall => hall.1

end Loops

/-! ## The call -/

section Call

variable {acpSockOpen : Int → AcpRc} {sDest : Int}

theorem changeDesc_of_attainable {r : Replies} {current : Count}
    (h : Attainable r.acpSockOpen current.val sDest) :
    changeDesc r current.val sDest = some sDest := by
  have hfirst : Holds current.val fun i => decide (0 ≤ i ∧ i < current.val) :=
    fun i => decide_eq_true_iff
  obtain ⟨after, heq, -⟩ := (changeSlots_eq_iff current hfirst).mpr h
  have hcount := @changeSlots_count current.val sDest
    (fun i => decide (0 ≤ i ∧ i < current.val)) r
  rw [← hcount, heq]
  rfl

theorem descRight_of_attainable {current : Count}
    (h : Attainable acpSockOpen current.val sDest) : DescRight acpSockOpen current.val sDest := by
  intro r s hr hs
  have hslots : ∀ sSocks, Holds current.val sSocks →
      ∃ after, changeSlots acpSockOpen current.val sDest sSocks = some (sDest, after) ∧
        Holds sDest after :=
    fun sSocks hholds => (changeSlots_eq_iff current hholds).mpr h
  apply withPoint_safe aside_numbers
  · intro t ht
    have hnumbers : numbers t = (current.val, sDest) := ht.trans hs
    have hdesc : t.region.mDesc = current.val := congrArg Prod.fst hnumbers
    have hdest : t.region.mDestDesc = sDest := congrArg Prod.snd hnumbers
    show Ending.Safe _ ((if t.region.mDestDesc ≠ t.region.mDesc then
      descChanged r (changeDesc r t.region.mDesc t.region.mDestDesc)
      else pure (.success, ()) : LibProg _) t)
    rw [hdesc, hdest]
    by_cases hne : sDest = current.val
    · rw [if_neg (not_not_intro hne)]
      intro u hu
      refine ⟨fun hfailed => absurd rfl hfailed, fun _ _ => ⟨?_, hslots⟩⟩
      exact (congrArg Prod.fst hu).trans (hdesc.trans hne.symm)
    · rw [if_pos hne, changeDesc_of_attainable (by rw [hr]; exact h)]
      unfold descChanged
      rw [Prog.safe_bind_iff]
      refine (keeps_logWhen aside_numbers _ _ t).mono fun _ u _ => ?_
      intro u' hu'
      refine ⟨fun hfailed => absurd rfl hfailed, fun _ _ => ⟨?_, hslots⟩⟩
      exact congrArg Prod.fst hu'
  · intro sRC t hrc hsuccess
    exact absurd hsuccess hrc

/-- Answers without an error, apart from the sockets. -/
def quietFile : FileReplies where
  acpEnvGet := .success
  acpFileOpen := .success
  acpFileSeek := .success
  acpFileRead := .success
  acpCStrToInt32 := .success
  acpSnprintf := .success
  acpFileWrite _ := .success
  acpFileClose := .success

def quietReplies (acpSockOpen : Int → AcpRc) : Replies where
  shmLog := quietFile
  sKey := 1
  acpShmAttach := .success
  acpShmDetach := .success
  acpShmCreate := .success
  acpShmDestroy := .success
  created := quietFile
  logs _ := quietFile
  acpThrGetSelfID := ⟨1, Nat.one_ne_zero⟩
  acpMemAlloc _ := .success
  acpSockOpen := acpSockOpen

/-- A process that knows the key, without a log. -/
def quietState (sCurrent sDest : Int) : State where
  region := { Region.created with mDesc := sCurrent, mDestDesc := sDest, mLog := 0 }
  process := ⟨false, 1, 0⟩

/-- The same, behind a change of the sockets. -/
def quietState.changed (sCurrent sDest n : Int) : State :=
  { quietState sCurrent sDest with region := { (quietState sCurrent sDest).region with mDesc := n } }

theorem allimDesc_quiet (sCurrent : Int) :
    allimDesc (quietReplies acpSockOpen) (quietState sCurrent sDest) =
      ((if sDest ≠ sCurrent then
          descChanged (quietReplies acpSockOpen)
            (changeDesc (quietReplies acpSockOpen) sCurrent sDest)
        else pure (.success, ()) : LibProg (AcpRc × Unit)) >>= fun out => do
          unlockLock
          let sRC ← allimReleaseSharedMemory (quietReplies acpSockOpen)
          if out.1 ≠ .success then pure out else pure (sRC, out.2))
        { quietState sCurrent sDest with
          region := { (quietState sCurrent sDest).region with mLock := true } } := rfl

theorem allimDesc_quiet_fault {sCurrent : Int} (hne : sDest ≠ sCurrent)
    (h : changeDesc (quietReplies acpSockOpen) sCurrent sDest = none) :
    allimDesc (quietReplies acpSockOpen) (quietState sCurrent sDest) = .faulted := by
  rw [allimDesc_quiet, if_pos hne, h]
  rfl

theorem allimDesc_quiet_returns {sCurrent : Int}
    (h : sDest ≠ sCurrent →
      (changeDesc (quietReplies acpSockOpen) sCurrent sDest).isSome) :
    ∃ t, allimDesc (quietReplies acpSockOpen) (quietState sCurrent sDest) =
      .returned (.success, ()) t := by
  rw [allimDesc_quiet]
  by_cases hne : sDest = sCurrent
  · rw [if_neg (not_not_intro hne)]
    exact ⟨quietState sCurrent sDest, rfl⟩
  · obtain ⟨n, hn⟩ := Option.isSome_iff_exists.mp (h hne)
    rw [if_pos hne, hn]
    exact ⟨quietState.changed sCurrent sDest n, rfl⟩

theorem attainable_of_descRight {current : Count}
    (h : DescRight acpSockOpen current.val sDest) : Attainable acpSockOpen current.val sDest := by
  have hfirst : Holds current.val fun i => decide (0 ≤ i ∧ i < current.val) :=
    fun i => decide_eq_true_iff
  have hsafe := h (quietReplies acpSockOpen) (quietState current.val sDest) rfl rfl
  have hreturns : sDest ≠ current.val →
      (changeDesc (quietReplies acpSockOpen) current.val sDest).isSome := by
    intro hne
    rw [Option.isSome_iff_ne_none]
    intro hnone
    rw [allimDesc_quiet_fault hne hnone] at hsafe
    exact hsafe
  obtain ⟨t, ht⟩ := allimDesc_quiet_returns hreturns
  rw [ht] at hsafe
  exact (changeSlots_eq_iff current hfirst).mp ((hsafe rfl).2 _ hfirst)

/-- A call is right exactly when the requested number is one of slots, and every socket on the way
to it opens. -/
theorem descRight_iff (acpSockOpen : Int → AcpRc) (current : Count) (sDest : Int) :
    DescRight acpSockOpen current.val sDest ↔ Attainable acpSockOpen current.val sDest :=
  ⟨attainable_of_descRight, descRight_of_attainable⟩

/-- Whatever the call makes of the count, it is one of slots again. -/
theorem count_of_changeDesc {r : Replies} {current : Count} {n : Int}
    (h : changeDesc r current.val sDest = some n) : 0 ≤ n ∧ n ≤ descMax := by
  unfold changeDesc at h
  split at h
  · exact openSocks_range _ current.nonneg current.le h
  · exact closeSocks_range _ current.nonneg current.le h

/-- With a target below zero the call closes the slot in front of the array. -/
theorem not_descRight_negative :
    ¬∀ (acpSockOpen : Int → AcpRc) (current : Count) (sDest : Int),
      DescRight acpSockOpen current.val sDest := by
  intro h
  have hsafe := h (fun _ => .success) ⟨0, by decide, by decide⟩ (-1)
    (quietReplies fun _ => .success) (quietState 0 (-1)) rfl rfl
  rw [allimDesc_quiet_fault (by decide) rfl] at hsafe
  exact hsafe

end Call

end Natc.Allim.Desc
