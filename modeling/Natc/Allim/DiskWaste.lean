import Mathlib.Algebra.Group.Nat.Defs
import Natc.Allim.Desc
import Natc.Lib.Loops

/-!
# The wasted disk

`setlimitreal` cuts the junk file of a directory to the requested size, or writes blocks to its end
until it is large enough. What `wasteDisk` passes out is recorded in the region.
-/

namespace Natc.Allim.DiskWaste

open Lib Shared

/-- `sizeof(sJunk)`. -/
def sizeofJunk : Nat := 1024

/-- The largest `acp_offset_t`. -/
def offsetMax : Nat := 2 ^ 63 - 1

/-- What the file system answers to one call of `wasteDisk`. -/
structure FileSystem where
  acpFileOpen : AcpRc
  acpFileSeek : AcpRc
  acpFileTruncate : AcpRc
  /-- The answer to each write at the end of a file of this size, and the bytes it has written. -/
  acpFileWrite : Nat → Nat → AcpRc × Nat
  /-- The second seek, behind the change. -/
  acpFileSeekAfter : AcpRc
  fits : ∀ i size, (acpFileWrite i size).1 = .success →
    (acpFileWrite i size).2 ≤ sizeofJunk ∧ size + (acpFileWrite i size).2 ≤ offsetMax

/-- The variables of the loop that writes, and the number of the round. -/
structure Growing where
  round : Nat
  sOffset : Nat
  sRC : AcpRc

/-- No write has left the loop by `break`, and the file is too small. -/
def Growing.goesOn (aWaste : Nat) (g : Growing) : Bool := g.sRC = .success ∧ g.sOffset < aWaste

def Growing.write (os : FileSystem) (g : Growing) : Growing :=
  let (sRC, sWritten) := os.acpFileWrite g.round g.sOffset
  if sRC ≠ .success then { g with sRC }
  else ⟨g.round + 1, g.sOffset + sWritten, .success⟩

/-- `*aAfterWaste`, which was `aAfterWaste` before the call, for a file of this size. -/
def measure (os : FileSystem) (size : Nat) (sRC : AcpRc) (aAfterWaste : Nat) : Nat :=
  if sRC = .success ∨ sRC = .enospc then
    if os.acpFileSeekAfter ≠ .success then aAfterWaste else size
  else aAfterWaste

/-- The size of the junk file and `*aAfterWaste` behind the call. -/
def wasteDisk (os : FileSystem) (size aWaste aAfterWaste fuel : Nat) : Option (Nat × Nat) :=
  if os.acpFileOpen ≠ .success then some (size, aAfterWaste)
  else if os.acpFileSeek ≠ .success then some (size, aAfterWaste)
  else if aWaste ≤ size then
    if os.acpFileTruncate ≠ .success then some (size, aAfterWaste)
    else some (aWaste, measure os aWaste .success aAfterWaste)
  else
    (loop (Growing.goesOn aWaste) (fun g => some (g.write os)) fuel
      ⟨0, size, .success⟩).map fun g => (g.sOffset, measure os g.sOffset g.sRC aAfterWaste)

/-- What `parseCmdLine` does for `sNeedDisk`: `sDisk` goes into `wasteDisk` and comes out of it. The
size of the junk file, and the call that is made then. -/
def parseCmdLine (pf : Platform) (os : FileSystem) (sPath : Text) (size sDisk fuel : Nat) :
    Option (Nat × (Replies → LibProg (AcpRc × Unit))) :=
  (wasteDisk os size sDisk sDisk fuel).map fun out =>
    (out.1, fun r => allimSetDiskWaste pf sPath out.2 r)

/-- How large the file is behind so many writes, if all of them succeed. -/
def sizeAfter (os : FileSystem) (size : Nat) : Nat → Option Nat
  | 0 => some size
  | k + 1 => (sizeAfter os size k).bind fun s =>
      if (os.acpFileWrite k s).1 = .success then some (s + (os.acpFileWrite k s).2) else none

/-- An operation that the call comes to fails, or the disk is full. -/
def Fails (os : FileSystem) (size aWaste : Nat) : Prop :=
  os.acpFileOpen ≠ .success ∨ os.acpFileSeek ≠ .success ∨
    (aWaste ≤ size ∧ os.acpFileTruncate ≠ .success) ∨
    (∃ k s, sizeAfter os size k = some s ∧ s < aWaste ∧ (os.acpFileWrite k s).1 ≠ .success) ∨
    os.acpFileSeekAfter ≠ .success

/-- `wasteDisk` returns, what is recorded is the size of the junk file, and this is the requested
one unless something fails. -/
def WasteRight (pf : Platform) (os : FileSystem) (sPath : Text) (size aWaste : Nat) : Prop :=
  ∃ (fuel after : Nat) (record : Replies → LibProg (AcpRc × Unit)),
    parseCmdLine pf os sPath size aWaste fuel = some (after, record) ∧
    (∀ r s, (record r s).Safe fun out t => out.1 = .success → t.region.mDisk = (after : Int)) ∧
    (after = aWaste ∨ Fails os size aWaste)

/-- The writes come to the requested size itself. -/
def Reaches (os : FileSystem) (size aWaste : Nat) : Prop := ∃ k, sizeAfter os size k = some aWaste

/-- The disk is full in front of the requested size, and the end of the file is found. -/
def Fills (os : FileSystem) (size aWaste : Nat) : Prop :=
  os.acpFileSeekAfter = .success ∧
    ∃ k s, sizeAfter os size k = some s ∧ s < aWaste ∧ (os.acpFileWrite k s).1 = .enospc

/-- What the call needs of the file system. -/
def Attainable (os : FileSystem) (size aWaste : Nat) : Prop :=
  if os.acpFileOpen = .success ∧ os.acpFileSeek = .success then
    if aWaste ≤ size then os.acpFileTruncate = .success ∨ size = aWaste
    else Reaches os size aWaste ∨ Fills os size aWaste
  else size = aWaste

/-! ## What is recorded -/

section Recorded

theorem aside_disk : Aside fun s => s.region.mDisk := fun _ _ _ _ => rfl

/-- A process that finds the region, and nothing fails. -/
theorem allimSetDiskWaste_quiet (pf : Platform) (sPath : Text) (sDisk : Int) :
    ∃ t, allimSetDiskWaste pf sPath sDisk (Desc.quietReplies fun _ => .success)
        (Desc.quietState 0 0) = .returned (.success, ()) t ∧ t.region.mDisk = sDisk :=
  ⟨_, rfl, rfl⟩

/-- The recorded amount is the one of the call, wherever it succeeds. -/
theorem records_iff (pf : Platform) (sPath : Text) (sDisk after : Nat) :
    (∀ r s, (allimSetDiskWaste pf sPath sDisk r s).Safe fun out t =>
      out.1 = .success → t.region.mDisk = (after : Int)) ↔ sDisk = after := by
  constructor
  · intro h
    obtain ⟨t, hreturned, hdisk⟩ := allimSetDiskWaste_quiet pf sPath sDisk
    have hsafe := h (Desc.quietReplies fun _ => .success) (Desc.quietState 0 0)
    rw [hreturned] at hsafe
    exact Int.ofNat_inj.mp (hdisk.symm.trans (hsafe rfl))
  · rintro rfl r s
    apply withPoint_safe aside_disk
    · intro t _
      show Ending.Safe _ ((logWhen Region.mLogReal (r.logs 0) >>= fun _ => pure (AcpRc.success, ()))
        { t with region := { t.region with
          mDestDisk := sDisk, mDisk := sDisk, mDestPath := pf.strCpy sPath pf.pathMaxLength } })
      rw [Prog.safe_bind_iff]
      refine (keeps_logWhen aside_disk _ _ _).mono fun _ u hu => ?_
      intro u' hu'
      exact ⟨fun hfailed => absurd rfl hfailed, fun _ _ => hu'.trans hu⟩
    · intro sRC t hrc hsuccess
      exact absurd hsuccess hrc

theorem wasteRight_iff (pf : Platform) (os : FileSystem) (sPath : Text) (size aWaste : Nat) :
    WasteRight pf os sPath size aWaste ↔
      ∃ fuel after, wasteDisk os size aWaste aWaste fuel = some (after, after) ∧
        (after = aWaste ∨ Fails os size aWaste) := by
  constructor
  · rintro ⟨fuel, after, record, hrun, hrecord, hexact⟩
    obtain ⟨⟨after, sDisk⟩, hwaste, hout⟩ := Option.map_eq_some_iff.mp hrun
    cases hout
    have hsame : sDisk = after := (records_iff pf sPath sDisk after).mp hrecord
    exact ⟨fuel, after, hsame ▸ hwaste, hexact⟩
  · rintro ⟨fuel, after, hwaste, hexact⟩
    refine ⟨fuel, after, fun r => allimSetDiskWaste pf sPath after r, ?_, ?_, hexact⟩
    · rw [parseCmdLine, hwaste]
      rfl
    · exact (records_iff pf sPath after after).mpr rfl

end Recorded

/-! ## The loop -/

section Loop

variable {os : FileSystem} {size aWaste : Nat}

theorem sizeAfter_succ {k s : Nat} (h : sizeAfter os size (k + 1) = some s) :
    ∃ r, sizeAfter os size k = some r ∧ (os.acpFileWrite k r).1 = .success ∧
      s = r + (os.acpFileWrite k r).2 := by
  obtain ⟨r, hr, hs⟩ := Option.bind_eq_some_iff.mp h
  split at hs
  · next hsuccess => exact ⟨r, hr, hsuccess, (Option.some.inj hs).symm⟩
  · cases hs

theorem sizeAfter_mono {j k a b : Nat} (hle : j ≤ k) (ha : sizeAfter os size j = some a)
    (hb : sizeAfter os size k = some b) : a ≤ b := by
  induction hle generalizing b with
  | refl => exact (Option.some.inj (ha.symm.trans hb)).le
  | step _ ih =>
    obtain ⟨r, hr, -, rfl⟩ := sizeAfter_succ hb
    exact (ih hr).trans (Nat.le_add_right r _)

/-- A write that fails is the last. -/
theorem le_of_sizeAfter {j k a b : Nat} (ha : sizeAfter os size j = some a)
    (hfail : (os.acpFileWrite j a).1 ≠ .success) (hb : sizeAfter os size k = some b) : k ≤ j := by
  induction k generalizing b with
  | zero => exact Nat.zero_le j
  | succ k ih =>
    obtain ⟨r, hr, hsuccess, -⟩ := sizeAfter_succ hb
    refine Nat.lt_of_le_of_ne (ih hr) fun hsame => ?_
    subst hsame
    rw [Option.some.inj (hr.symm.trans ha)] at hsuccess
    exact hfail hsuccess

theorem goesOn_iff {g : Growing} :
    g.goesOn aWaste = true ↔ g.sRC = .success ∧ g.sOffset < aWaste := decide_eq_true_iff

theorem goesOn_eq_false_iff {g : Growing} :
    g.goesOn aWaste = false ↔ (g.sRC = .success → aWaste ≤ g.sOffset) := by
  rw [← Bool.not_eq_true, goesOn_iff, not_and]
  exact imp_congr_right fun _ => Nat.not_lt

theorem write_of_success {g : Growing} (h : (os.acpFileWrite g.round g.sOffset).1 = .success) :
    g.write os =
      ⟨g.round + 1, g.sOffset + (os.acpFileWrite g.round g.sOffset).2, .success⟩ :=
  if_neg (not_not_intro h)

theorem write_of_failed {g : Growing} (h : (os.acpFileWrite g.round g.sOffset).1 ≠ .success) :
    g.write os = { g with sRC := (os.acpFileWrite g.round g.sOffset).1 } :=
  if_pos h

/-- The file has the size that the rounds so far make, and a loop that is left by `break` is left
with the error of the write. -/
structure Growing.Follows (os : FileSystem) (size aWaste : Nat) (g : Growing) : Prop where
  sized : sizeAfter os size g.round = some g.sOffset
  broken : g.sRC ≠ .success →
    g.sOffset < aWaste ∧ (os.acpFileWrite g.round g.sOffset).1 = g.sRC

theorem follows_write {g : Growing} (htest : g.goesOn aWaste = true)
    (h : g.Follows os size aWaste) : (g.write os).Follows os size aWaste := by
  by_cases hwrite : (os.acpFileWrite g.round g.sOffset).1 = .success
  · rw [write_of_success hwrite]
    refine ⟨?_, fun hrc => absurd rfl hrc⟩
    show (sizeAfter os size g.round).bind _ = _
    rw [h.sized, Option.bind_some, if_pos hwrite]
  · rw [write_of_failed hwrite]
    exact ⟨h.sized, fun _ => ⟨(goesOn_iff.mp htest).2, rfl⟩⟩

/-- The loop of `wasteDisk`. -/
abbrev growth (os : FileSystem) (aWaste : Nat) : Nat → Growing → Option Growing := fun fuel =>
  loop (Growing.goesOn aWaste) (fun g => some (g.write os)) fuel

theorem growth_follows {g : Growing} (h : Ends (growth os aWaste) ⟨0, size, .success⟩ g) :
    g.Follows os size aWaste ∧ (g.sRC = .success → aWaste ≤ g.sOffset) := by
  have hstart : Growing.Follows os size aWaste ⟨0, size, .success⟩ :=
    ⟨rfl, fun hrc => absurd rfl hrc⟩
  have hkeep : ∀ (_ : Nat) (s t : Growing), s.goesOn aWaste = true →
      s.Follows os size aWaste → some (s.write os) = some t → t.Follows os size aWaste := by
    intro _ s t htest hs ht
    cases ht
    exact follows_write htest hs
  obtain ⟨hfollows, hend⟩ := ends_loop_keeps hkeep hstart h
  exact ⟨hfollows, goesOn_eq_false_iff.mp hend⟩

theorem growth_round {g t : Growing} (htest : g.goesOn aWaste = true) :
    Ends (growth os aWaste) g t ↔ Ends (growth os aWaste) (g.write os) t := by
  refine (ends_loop (Grows.const fun g => some (g.write os)) htest).trans ?_
  constructor
  · rintro ⟨u, hu, ht⟩
    cases (ends_const _ _ _).mp hu
    exact ht
  · exact fun ht => ⟨g.write os, (ends_const _ _ _).mpr rfl, ht⟩

/-- The loop comes to every round in front of which the file is too small. -/
theorem growth_from {k s : Nat} {t : Growing} (hsize : sizeAfter os size k = some s)
    (hsmall : ∀ j r, j < k → sizeAfter os size j = some r → r < aWaste)
    (h : Ends (growth os aWaste) ⟨k, s, .success⟩ t) :
    Ends (growth os aWaste) ⟨0, size, .success⟩ t := by
  induction k generalizing s with
  | zero =>
    cases hsize
    exact h
  | succ k ih =>
    obtain ⟨r, hr, hsuccess, rfl⟩ := sizeAfter_succ hsize
    refine ih hr (fun j q hj => hsmall j q (Nat.lt_succ_of_lt hj)) ?_
    have htest : Growing.goesOn aWaste ⟨k, r, .success⟩ = true :=
      goesOn_iff.mpr ⟨rfl, hsmall k r (Nat.lt_succ_self k) hr⟩
    rw [growth_round htest, @write_of_success os ⟨k, r, .success⟩ hsuccess]
    exact h

theorem growth_stops {t : Growing} (h : t.goesOn aWaste = false) :
    Ends (growth os aWaste) t t :=
  (@ends_loop_of_not _ _ (fun _ g => some (g.write os)) t t h).mpr rfl

theorem growth_of_reaches (h : Reaches os size aWaste) :
    ∃ g, Ends (growth os aWaste) ⟨0, size, .success⟩ g ∧ g.sRC = .success ∧
      g.sOffset = aWaste := by
  classical
  -- the loop ends in the first round in which the size is right
  have hfirst := Nat.find_spec h
  refine ⟨⟨Nat.find h, aWaste, .success⟩, ?_, rfl, rfl⟩
  refine growth_from hfirst (fun j r hj hr => ?_) (growth_stops ?_)
  · refine Nat.lt_of_le_of_ne (sizeAfter_mono hj.le hr hfirst) fun hsame => ?_
    exact Nat.find_min h hj (hsame ▸ hr)
  · exact goesOn_eq_false_iff.mpr fun _ => le_rfl

theorem growth_of_full {k s : Nat} (hsize : sizeAfter os size k = some s) (hlt : s < aWaste)
    (hfull : (os.acpFileWrite k s).1 = .enospc) :
    Ends (growth os aWaste) ⟨0, size, .success⟩ ⟨k, s, .enospc⟩ := by
  have hfail : (os.acpFileWrite k s).1 ≠ .success := by
    rw [hfull]
    decide
  have htest : Growing.goesOn aWaste ⟨k, s, .success⟩ = true := goesOn_iff.mpr ⟨rfl, hlt⟩
  refine growth_from hsize (fun j r hj hr => ?_) ?_
  · exact (sizeAfter_mono hj.le hr hsize).trans_lt hlt
  · rw [growth_round htest, @write_of_failed os ⟨k, s, .success⟩ hfail, hfull]
    exact growth_stops (goesOn_eq_false_iff.mpr fun hrc => nomatch hrc)

end Loop

/-! ## The call -/

section Call

variable {os : FileSystem} {size aWaste aAfterWaste : Nat}

theorem measure_same (os : FileSystem) (size : Nat) (sRC : AcpRc) :
    measure os size sRC size = size := by
  unfold measure
  split
  · split <;> rfl
  · rfl

theorem measure_of_found {sRC : AcpRc} (hrc : sRC = .success ∨ sRC = .enospc)
    (hseek : os.acpFileSeekAfter = .success) : measure os size sRC aAfterWaste = size := by
  rw [measure, if_pos hrc, if_neg (not_not_intro hseek)]

/-- The size is passed out only where the end of the file is found. -/
theorem found_of_measure {sRC : AcpRc} (h : measure os size sRC aAfterWaste = size)
    (hne : aAfterWaste ≠ size) :
    (sRC = .success ∨ sRC = .enospc) ∧ os.acpFileSeekAfter = .success := by
  unfold measure at h
  split at h
  · next hrc =>
    split at h
    · exact absurd h hne
    · next hseek => exact ⟨hrc, not_not.mp hseek⟩
  · exact absurd h hne

theorem wasteDisk_unopened (h : ¬(os.acpFileOpen = .success ∧ os.acpFileSeek = .success))
    (fuel : Nat) : wasteDisk os size aWaste aAfterWaste fuel = some (size, aAfterWaste) := by
  unfold wasteDisk
  by_cases hopen : os.acpFileOpen = .success
  · rw [if_neg (not_not_intro hopen), if_pos fun hseek => h ⟨hopen, hseek⟩]
  · rw [if_pos hopen]

theorem wasteDisk_opened (h : os.acpFileOpen = .success ∧ os.acpFileSeek = .success)
    (fuel : Nat) : wasteDisk os size aWaste aAfterWaste fuel =
      if aWaste ≤ size then
        if os.acpFileTruncate ≠ .success then some (size, aAfterWaste)
        else some (aWaste, measure os aWaste .success aAfterWaste)
      else (growth os aWaste fuel ⟨0, size, .success⟩).map fun g =>
        (g.sOffset, measure os g.sOffset g.sRC aAfterWaste) := by
  unfold wasteDisk
  rw [if_neg (not_not_intro h.1), if_neg (not_not_intro h.2)]

/-- The file was opened, and a write fails or the end is not found where the file has to grow. -/
theorem fails_growing (h : os.acpFileOpen = .success ∧ os.acpFileSeek = .success)
    (hlt : size < aWaste) (hfails : Fails os size aWaste) :
    (∃ k s, sizeAfter os size k = some s ∧ s < aWaste ∧ (os.acpFileWrite k s).1 ≠ .success) ∨
      os.acpFileSeekAfter ≠ .success := by
  obtain hopen | hseek | ⟨hle, -⟩ | hrest := hfails
  · exact absurd h.1 hopen
  · exact absurd h.2 hseek
  · exact absurd hle (Nat.not_le.mpr hlt)
  · exact hrest

theorem right_unopened_iff (h : ¬(os.acpFileOpen = .success ∧ os.acpFileSeek = .success)) :
    (∃ fuel after, wasteDisk os size aWaste aWaste fuel = some (after, after) ∧
      (after = aWaste ∨ Fails os size aWaste)) ↔ size = aWaste := by
  constructor
  · rintro ⟨fuel, after, hwaste, -⟩
    rw [wasteDisk_unopened h] at hwaste
    cases hwaste
    rfl
  · rintro rfl
    exact ⟨0, size, wasteDisk_unopened h 0, .inl rfl⟩

theorem right_cut_iff (h : os.acpFileOpen = .success ∧ os.acpFileSeek = .success)
    (hle : aWaste ≤ size) :
    (∃ fuel after, wasteDisk os size aWaste aWaste fuel = some (after, after) ∧
      (after = aWaste ∨ Fails os size aWaste)) ↔
      os.acpFileTruncate = .success ∨ size = aWaste := by
  constructor
  · rintro ⟨fuel, after, hwaste, -⟩
    rw [wasteDisk_opened h, if_pos hle] at hwaste
    by_cases htrunc : os.acpFileTruncate = .success
    · exact .inl htrunc
    · rw [if_pos htrunc] at hwaste
      cases hwaste
      exact .inr rfl
  · intro hcut
    refine ⟨0, aWaste, ?_, .inl rfl⟩
    rw [wasteDisk_opened h, if_pos hle]
    by_cases htrunc : os.acpFileTruncate = .success
    · rw [if_neg (not_not_intro htrunc), measure_same]
    · rw [if_pos htrunc, hcut.resolve_left htrunc]

theorem reaches_or_fills (h : os.acpFileOpen = .success ∧ os.acpFileSeek = .success)
    (hlt : size < aWaste) {fuel after : Nat}
    (hwaste : wasteDisk os size aWaste aWaste fuel = some (after, after))
    (hexact : after = aWaste ∨ Fails os size aWaste) :
    Reaches os size aWaste ∨ Fills os size aWaste := by
  rw [wasteDisk_opened h, if_neg (Nat.not_le.mpr hlt)] at hwaste
  obtain ⟨g, hrun, hout⟩ := Option.map_eq_some_iff.mp hwaste
  obtain ⟨rfl, hmeasure⟩ := Prod.mk.inj hout
  obtain ⟨⟨hsized, hbroken⟩, hend⟩ := growth_follows ⟨fuel, hrun⟩
  by_cases hsame : g.sOffset = aWaste
  · exact .inl ⟨g.round, hsame ▸ hsized⟩
  obtain ⟨hrc, hseek⟩ := found_of_measure hmeasure (Ne.symm hsame)
  obtain hsuccess | hfull := hrc
  · -- the file is too large, so a write had to fail on the way
    have hle := hend hsuccess
    obtain ⟨k, s, hs, hslt, hfail⟩ | hnoseek :=
      fails_growing h hlt (hexact.resolve_left hsame)
    · have hround : g.round ≤ k := le_of_sizeAfter hs hfail hsized
      have hsmall : g.sOffset ≤ s := sizeAfter_mono hround hsized hs
      omega
    · exact absurd hseek hnoseek
  · obtain ⟨hsmall, hwrite⟩ := hbroken (by rw [hfull]; decide)
    exact .inr ⟨hseek, g.round, g.sOffset, hsized, hsmall, hwrite.trans hfull⟩

theorem right_grown_iff (h : os.acpFileOpen = .success ∧ os.acpFileSeek = .success)
    (hlt : size < aWaste) :
    (∃ fuel after, wasteDisk os size aWaste aWaste fuel = some (after, after) ∧
      (after = aWaste ∨ Fails os size aWaste)) ↔
      Reaches os size aWaste ∨ Fills os size aWaste := by
  constructor
  · rintro ⟨fuel, after, hwaste, hexact⟩
    exact reaches_or_fills h hlt hwaste hexact
  · rintro (hreaches | ⟨hseek, k, s, hs, hslt, hfull⟩)
    · obtain ⟨g, ⟨fuel, hrun⟩, hrc, hsame⟩ := growth_of_reaches hreaches
      refine ⟨fuel, aWaste, ?_, .inl rfl⟩
      rw [wasteDisk_opened h, if_neg (Nat.not_le.mpr hlt), hrun, Option.map_some, hrc, hsame,
        measure_same]
    · obtain ⟨fuel, hrun⟩ := growth_of_full hs hslt hfull
      have hfail : (os.acpFileWrite k s).1 ≠ .success := by
        rw [hfull]
        decide
      refine ⟨fuel, s, ?_, .inr (.inr (.inr (.inr (.inl ⟨k, s, hs, hslt, hfail⟩))))⟩
      rw [wasteDisk_opened h, if_neg (Nat.not_le.mpr hlt), hrun, Option.map_some,
        measure_of_found (.inr rfl) hseek]

/-- No size on the way is past the largest offset, so the sum that `sOffset` becomes fits it. -/
theorem sizeAfter_le (hsize : size ≤ offsetMax) {k s : Nat} (h : sizeAfter os size k = some s) :
    s ≤ offsetMax := by
  cases k with
  | zero =>
    cases h
    exact hsize
  | succ k =>
    obtain ⟨r, -, hsuccess, rfl⟩ := sizeAfter_succ h
    exact (os.fits k r hsuccess).2

theorem wasteDisk_size_le (hsize : size ≤ offsetMax) (hwaste : aWaste ≤ offsetMax)
    {fuel after sDisk : Nat}
    (h : wasteDisk os size aWaste aAfterWaste fuel = some (after, sDisk)) : after ≤ offsetMax := by
  by_cases hopened : os.acpFileOpen = .success ∧ os.acpFileSeek = .success
  · rw [wasteDisk_opened hopened] at h
    split at h
    · split at h
      · cases h
        exact hsize
      · cases h
        exact hwaste
    · obtain ⟨g, hrun, hout⟩ := Option.map_eq_some_iff.mp h
      cases hout
      exact sizeAfter_le hsize (growth_follows ⟨fuel, hrun⟩).1.sized
  · rw [wasteDisk_unopened hopened] at h
    cases h
    exact hsize

/-- The loop ends when no write that succeeds is empty. -/
theorem growth_ends (hpos : ∀ k s, (os.acpFileWrite k s).1 = .success →
    0 < (os.acpFileWrite k s).2) (k s : Nat) :
    ∃ g, Ends (growth os aWaste) ⟨k, s, .success⟩ g := by
  induction hn : aWaste - s using Nat.strong_induction_on generalizing k s with
  | h n ih =>
    cases htest : Growing.goesOn aWaste ⟨k, s, .success⟩ with
    | false => exact ⟨_, growth_stops htest⟩
    | true =>
      have hlt : s < aWaste := (goesOn_iff.mp htest).2
      by_cases hwrite : (os.acpFileWrite k s).1 = .success
      · have hgrown := hpos k s hwrite
        obtain ⟨g, hg⟩ := ih (aWaste - (s + (os.acpFileWrite k s).2)) (by omega) (k + 1) _ rfl
        refine ⟨g, (growth_round htest).mpr ?_⟩
        rwa [@write_of_success os ⟨k, s, .success⟩ hwrite]
      · refine ⟨⟨k, s, (os.acpFileWrite k s).1⟩, (growth_round htest).mpr ?_⟩
        rw [@write_of_failed os ⟨k, s, .success⟩ hwrite]
        exact growth_stops (goesOn_eq_false_iff.mpr fun hrc => absurd hrc hwrite)

theorem wasteDisk_returns (hpos : ∀ k s, (os.acpFileWrite k s).1 = .success →
    0 < (os.acpFileWrite k s).2) (size aWaste aAfterWaste : Nat) :
    ∃ fuel out, wasteDisk os size aWaste aAfterWaste fuel = some out := by
  by_cases hopened : os.acpFileOpen = .success ∧ os.acpFileSeek = .success
  · obtain ⟨g, fuel, hrun⟩ := @growth_ends os aWaste hpos 0 size
    refine ⟨fuel, ?_⟩
    rw [wasteDisk_opened hopened, hrun]
    split
    · split <;> exact ⟨_, rfl⟩
    · exact ⟨_, rfl⟩
  · exact ⟨0, _, wasteDisk_unopened hopened 0⟩

theorem dvd_of_sizeAfter
    (hfull : ∀ k s, s < aWaste → os.acpFileWrite k s = (.success, sizeofJunk)) {k s : Nat}
    (h : sizeAfter os size k = some s) (hle : s ≤ aWaste) : sizeofJunk ∣ s - size := by
  induction k generalizing s with
  | zero =>
    cases h
    simp
  | succ k ih =>
    obtain ⟨r, hr, -, rfl⟩ := sizeAfter_succ h
    have hsize : size ≤ r := sizeAfter_mono (Nat.zero_le k) rfl hr
    have hdvd := ih hr (by omega)
    obtain hlt | heq : r < aWaste ∨ r + (os.acpFileWrite k r).2 = r := by omega
    · rw [hfull k r hlt, Nat.sub_add_comm hsize]
      exact Nat.dvd_add hdvd (Nat.dvd_refl sizeofJunk)
    · rwa [heq]

theorem sizeAfter_of_full
    (hfull : ∀ k s, s < aWaste → os.acpFileWrite k s = (.success, sizeofJunk)) {k : Nat}
    (hle : size + sizeofJunk * k ≤ aWaste) :
    sizeAfter os size k = some (size + sizeofJunk * k) := by
  induction k with
  | zero => rfl
  | succ k ih =>
    have hblock : sizeofJunk * (k + 1) = sizeofJunk * k + sizeofJunk := Nat.mul_succ _ _
    have hpos : 0 < sizeofJunk := Nat.zero_lt_succ 1023
    have hwrite := hfull k (size + sizeofJunk * k) (by omega)
    rw [sizeAfter, ih (by omega), Option.bind_some, hwrite, if_pos rfl, hblock, Nat.add_assoc]

/-- With full writes only, the requested size has to be whole blocks away. -/
theorem reaches_iff_of_full
    (hfull : ∀ k s, s < aWaste → os.acpFileWrite k s = (.success, sizeofJunk))
    (hle : size ≤ aWaste) : Reaches os size aWaste ↔ sizeofJunk ∣ aWaste - size := by
  constructor
  · rintro ⟨k, hk⟩
    exact dvd_of_sizeAfter hfull hk le_rfl
  · rintro ⟨k, hk⟩
    have hsame : size + sizeofJunk * k = aWaste := by omega
    refine ⟨k, ?_⟩
    rw [sizeAfter_of_full hfull hsame.le, hsame]

theorem attainable_iff (os : FileSystem) (size aWaste : Nat) :
    (∃ fuel after, wasteDisk os size aWaste aWaste fuel = some (after, after) ∧
      (after = aWaste ∨ Fails os size aWaste)) ↔ Attainable os size aWaste := by
  unfold Attainable
  by_cases hopened : os.acpFileOpen = .success ∧ os.acpFileSeek = .success
  · rw [if_pos hopened]
    by_cases hle : aWaste ≤ size
    · rw [if_pos hle]
      exact right_cut_iff hopened hle
    · rw [if_neg hle]
      exact right_grown_iff hopened (Nat.not_le.mp hle)
  · rw [if_neg hopened]
    exact right_unopened_iff hopened

/-- The junk file is right exactly when the operations and the writes come to the requested size,
or the disk is full in front of it. -/
theorem wasteRight_iff_attainable (pf : Platform) (os : FileSystem) (sPath : Text)
    (size aWaste : Nat) : WasteRight pf os sPath size aWaste ↔ Attainable os size aWaste :=
  (wasteRight_iff pf os sPath size aWaste).trans (attainable_iff os size aWaste)

/-- A file system on which every operation succeeds and every write is full, up to the largest
offset. -/
def roomy : FileSystem where
  acpFileOpen := .success
  acpFileSeek := .success
  acpFileTruncate := .success
  acpFileWrite _ size :=
    if size + sizeofJunk ≤ offsetMax then (.success, sizeofJunk) else (.failed, 0)
  acpFileSeekAfter := .success
  fits _ size h := by
    split at h
    · next hfit =>
      rw [if_pos hfit]
      exact ⟨le_rfl, hfit⟩
    · cases h

/-- One byte is requested, and a block is written. -/
theorem not_wasteRight_byte :
    ¬∀ (pf : Platform) (os : FileSystem) (sPath : Text) (size aWaste : Nat),
      WasteRight pf os sPath size aWaste := by
  intro h
  have hright := (wasteRight_iff _ _ _ _ _).mp (h ⟨plainAcp, true⟩ roomy [] 0 1)
  have hfull : ∀ k s, s < 1 → roomy.acpFileWrite k s = (.success, sizeofJunk) := by
    intro k s hs
    have hzero : s = 0 := by omega
    subst hzero
    rfl
  obtain hreaches | ⟨-, k, s, -, hs, hspace⟩ :=
    (right_grown_iff ⟨rfl, rfl⟩ Nat.zero_lt_one).mp hright
  · exact absurd ((reaches_iff_of_full hfull (Nat.zero_le 1)).mp hreaches) (by decide)
  · rw [hfull k s hs] at hspace
    cases hspace

end Call

end Natc.Allim.DiskWaste
