import Mathlib.Algebra.Order.Group.Int
import Mathlib.Algebra.Order.Ring.Int
import Mathlib.Tactic.Ring

/-!
# The elapsed time of a case

The report of a case has the microseconds between its two time stamps. They are computed in the
`long` of the platform and kept in an `SInt` of 32 bits.
-/

namespace Natc.Ats.Elapsed

/-- `struct timeval`, as `gettimeofday` fills it. -/
structure Timeval where
  tv_sec : Int
  tv_usec : Int
  nonneg : 0 ≤ tv_usec
  lt : tv_usec < 1000000

/-- The microseconds since the start of the epoch. -/
def Timeval.micros (t : Timeval) : Int := t.tv_sec * 1000000 + t.tv_usec

/-- A number that an integer of `bits` bits can hold. -/
def Fits (bits : Nat) (n : Int) : Prop := -2 ^ (bits - 1) ≤ n ∧ n < 2 ^ (bits - 1)

instance (bits : Nat) (n : Int) : Decidable (Fits bits n) := inferInstanceAs (Decidable (_ ∧ _))

/-- The conversion to `SInt`. -/
def toSInt (n : Int) : Int := n.bmod (2 ^ 32)

/-- `Servicer::getElapsed` with a `long` of `bits` bits; `none` if one of its operations
overflows. -/
def getElapsed (bits : Nat) (aSval aEval : Timeval) : Option Int :=
  let sec := aEval.tv_sec - aSval.tv_sec
  let usec := aEval.tv_usec - aSval.tv_usec
  if Fits bits sec ∧ Fits bits usec ∧ Fits bits (sec * 1000000) ∧
      Fits bits (sec * 1000000 + usec) then
    some (toSInt (sec * 1000000 + usec))
  else none

variable {bits : Nat} {aSval aEval : Timeval}

theorem sum_eq : (aEval.tv_sec - aSval.tv_sec) * 1000000 + (aEval.tv_usec - aSval.tv_usec) =
    aEval.micros - aSval.micros := by
  unfold Timeval.micros
  ring

theorem sec_nonneg (h : aSval.micros ≤ aEval.micros) : 0 ≤ aEval.tv_sec - aSval.tv_sec := by
  have hs := aSval.nonneg
  have he := aEval.lt
  unfold Timeval.micros at h
  omega

theorem fits_of_lt {n : Int} (hnonneg : 0 ≤ n) (h : n < 2 ^ (bits - 1)) : Fits bits n := by
  refine ⟨?_, h⟩
  have hpos : (0 : Int) < 2 ^ (bits - 1) := pow_pos (by decide) _
  omega

theorem toSInt_eq_iff {n : Int} (hnonneg : 0 ≤ n) : toSInt n = n ↔ n < 2 ^ 31 := by
  unfold toSInt
  constructor
  · intro h
    have hlt := Int.bmod_lt (x := n) (m := 2 ^ 32) (by decide)
    omega
  · intro h
    rw [Int.bmod_eq_of_le] <;> omega

/-- The elapsed time is right, and nothing overflows on the way, exactly for less than 2147483648
microseconds, as long as the seconds in microseconds fit the `long` as well. -/
theorem getElapsed_eq_iff (hbits : 32 ≤ bits) (h : aSval.micros ≤ aEval.micros) :
    getElapsed bits aSval aEval = some (aEval.micros - aSval.micros) ↔
      aEval.micros - aSval.micros < 2 ^ 31 ∧
        (aEval.tv_sec - aSval.tv_sec) * 1000000 < 2 ^ (bits - 1) := by
  have hsec := sec_nonneg h
  have hpow : (2 : Int) ^ 31 ≤ 2 ^ (bits - 1) :=
    pow_le_pow_right₀ (by decide) (by omega)
  have htotal : 0 ≤ aEval.micros - aSval.micros := by omega
  unfold getElapsed
  dsimp only
  rw [sum_eq]
  constructor
  · intro hsome
    obtain ⟨⟨-, -, hproduct, -⟩, hvalue⟩ := Option.ite_none_right_eq_some.mp hsome
    exact ⟨(toSInt_eq_iff htotal).mp (Option.some.inj hvalue), hproduct.2⟩
  · rintro ⟨hlt, hproduct⟩
    have husec : Fits bits (aEval.tv_usec - aSval.tv_usec) := by
      have hs := aSval.nonneg
      have hs' := aSval.lt
      have he := aEval.nonneg
      have he' := aEval.lt
      constructor <;> omega
    have hfits : Fits bits (aEval.tv_sec - aSval.tv_sec) := fits_of_lt hsec (by omega)
    have hmul : Fits bits ((aEval.tv_sec - aSval.tv_sec) * 1000000) :=
      fits_of_lt (by omega) hproduct
    have hsum : Fits bits (aEval.micros - aSval.micros) := fits_of_lt htotal (by omega)
    rw [if_pos ⟨hfits, husec, hmul, hsum⟩, (toSInt_eq_iff htotal).mpr hlt]

/-- Where a `long` has 64 bits, only the `SInt` matters. -/
theorem product_fits (h : aEval.micros - aSval.micros < 2 ^ 31) :
    (aEval.tv_sec - aSval.tv_sec) * 1000000 < 2 ^ (64 - 1) := by
  have hs := aSval.lt
  have he := aEval.nonneg
  unfold Timeval.micros at h
  omega

/-- A test of ten minutes, with a `long` of 64 bits. -/
theorem elapsed_of_case :
    getElapsed 64 ⟨1170000000, 900000, by decide, by decide⟩
      ⟨1170000601, 100000, by decide, by decide⟩ = some 600200000 := by
  refine (getElapsed_eq_iff (by decide) ?_).mpr ⟨?_, ?_⟩ <;> decide

/-- A test of 2148 seconds. -/
theorem elapsed_of_long_case :
    ¬∀ aSval aEval : Timeval, aSval.micros ≤ aEval.micros →
      getElapsed 64 aSval aEval = some (aEval.micros - aSval.micros) := by
  intro h
  have hcase := h ⟨0, 0, by decide, by decide⟩ ⟨2148, 0, by decide, by decide⟩ (by decide)
  revert hcase
  decide

end Natc.Ats.Elapsed
