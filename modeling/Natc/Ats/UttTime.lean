import Natc.Ats.Elapsed
import Natc.Lib.Text

/-!
# The timer `uttTime`

The wall-clock time is kept twice, in microseconds and in whole seconds. `reset` and the constructor
clear the microseconds only, and `stop` adds the whole seconds of each interval by themselves.
-/

namespace Natc.Ats.UttTime

open Lib Elapsed

/-- `struct timeval` as it lies in memory. -/
structure RawTimeval where
  tv_sec : Int
  tv_usec : Int

def RawTimeval.micros (t : RawTimeval) : Int := t.tv_sec * 1000000 + t.tv_usec

/-- What `gettimeofday` has filled. -/
def raw (t : Timeval) : RawTimeval := ⟨t.tv_sec, t.tv_usec⟩

/-- `struct tms`. -/
structure Tms where
  tms_utime : Int
  tms_stime : Int

/-- What a call reads from the clocks. -/
structure Reading where
  time : Timeval
  tick : Tms

/-- The members of `uttTime`. -/
structure Timer where
  time_name : Text
  start_time : RawTimeval
  start_time_tick : Tms
  m_seconds_wallclock : UInt64
  m_microseconds_wallclock : UInt64
  m_microseconds_user : UInt64
  m_microseconds_system : UInt64

/-- `UTTTimeScale`. -/
inductive TimeScale where
  | UTT_SEC | UTT_MSEC | UTT_USEC

/-- The constructor leaves the other members as they are in memory. -/
def uttTime (memory : Timer) : Timer :=
  { memory with
    time_name := "Run Time".toList
    m_microseconds_wallclock := 0
    m_microseconds_user := 0
    m_microseconds_system := 0 }

/-- The seconds and the microseconds between two times, with a borrow. -/
def interval (start_time : RawTimeval) (end_time : Timeval) : Int × Int :=
  let tv_sec := end_time.tv_sec - start_time.tv_sec
  let tv_usec := end_time.tv_usec - start_time.tv_usec
  if tv_usec < 0 then (tv_sec - 1, 1000000 + tv_usec) else (tv_sec, tv_usec)

/-- Clock ticks in microseconds, with `sysconf( _SC_CLK_TCK )` of them in a second. -/
def ticks (sysconf start_tick end_tick : Int) : UInt64 :=
  UInt64.ofInt (end_tick - start_tick) * 1000000 / UInt64.ofInt sysconf

namespace Timer

def reset (t : Timer) : Timer :=
  { t with
    m_microseconds_wallclock := 0
    m_microseconds_user := 0
    m_microseconds_system := 0 }

def start (t : Timer) (r : Reading) : Timer :=
  { t with start_time := raw r.time, start_time_tick := r.tick }

def stop (sysconf : Int) (t : Timer) (r : Reading) : Timer :=
  let (tv_sec, tv_usec) := interval t.start_time r.time
  { t with
    m_seconds_wallclock := t.m_seconds_wallclock + UInt64.ofInt tv_sec
    m_microseconds_wallclock := t.m_microseconds_wallclock +
      (UInt64.ofInt tv_sec * 1000000 + UInt64.ofInt tv_usec)
    m_microseconds_user := t.m_microseconds_user +
      ticks sysconf t.start_time_tick.tms_utime r.tick.tms_utime
    m_microseconds_system := t.m_microseconds_system +
      ticks sysconf t.start_time_tick.tms_stime r.tick.tms_stime }

def finish (sysconf : Int) (t : Timer) (r : Reading) : Timer :=
  let (tv_sec, tv_usec) := interval t.start_time r.time
  { t with
    m_seconds_wallclock := UInt64.ofInt tv_sec
    m_microseconds_wallclock := UInt64.ofInt tv_sec * 1000000 + UInt64.ofInt tv_usec
    m_microseconds_user := ticks sysconf t.start_time_tick.tms_utime r.tick.tms_utime
    m_microseconds_system := ticks sysconf t.start_time_tick.tms_stime r.tick.tms_stime }

/-- The number that `print` shows. -/
def shown (t : Timer) : TimeScale → UInt64
  | .UTT_SEC => t.m_seconds_wallclock
  | .UTT_MSEC => t.m_microseconds_wallclock / 1000
  | .UTT_USEC => t.m_microseconds_wallclock / 1

def print (t : Timer) (ts : TimeScale) : Text :=
  t.time_name ++ ": ".toList ++ Nat.toDigits 10 (t.shown ts).toNat

end Timer

inductive Call where
  | reset
  | start (r : Reading)
  | stop (r : Reading)
  | finish (r : Reading)

def Call.reading : Call → Option Reading
  | reset => none
  | start r | stop r | finish r => some r

def Call.run (sysconf : Int) (t : Timer) : Call → Timer
  | reset => t.reset
  | start r => t.start r
  | stop r => t.stop sysconf r
  | finish r => t.finish sysconf r

/-- A new timer behind some calls. -/
def run (sysconf : Int) (memory : Timer) (calls : List Call) : Timer :=
  calls.foldl (Call.run sysconf) (uttTime memory)

/-- The clock does not go back. -/
def NonDecreasing (calls : List Call) : Prop :=
  (calls.filterMap Call.reading).Pairwise fun r s => r.time.micros ≤ s.time.micros

/-! ## What is meant -/

/-- What has been measured: when the timer was started, the intervals since the last `reset` or from
the last `finish` on, and the whole seconds from before, which nobody has taken out of
`m_seconds_wallclock`. -/
structure History where
  start_time : RawTimeval
  intervals : List (RawTimeval × Timeval)
  stale : Int

/-- The length of an interval in microseconds. -/
def elapsed (p : RawTimeval × Timeval) : Int := p.2.micros - p.1.micros

namespace History

variable (h : History)

/-- The time that has been measured. -/
def wall : Int := (h.intervals.map elapsed).sum

/-- The whole seconds of the intervals. -/
def seconds : Int := (h.intervals.map fun p => (interval p.1 p.2).1).sum

/-- What the intervals have beside their whole seconds. -/
def fractions : Int := (h.intervals.map fun p => (interval p.1 p.2).2).sum

def step (h : History) : Call → History
  | .reset => { h with intervals := [], stale := h.stale + h.seconds }
  | .start r => { h with start_time := raw r.time }
  | .stop r => { h with intervals := h.intervals ++ [(h.start_time, r.time)] }
  | .finish r => { h with intervals := [(h.start_time, r.time)], stale := 0 }

end History

def history (memory : Timer) (calls : List Call) : History :=
  calls.foldl History.step ⟨memory.start_time, [], memory.m_seconds_wallclock.toNat⟩

/-- The microseconds are those that have been measured, and the seconds that `print` shows are the
whole seconds of them. -/
def Agrees (sysconf : Int) (memory : Timer) (calls : List Call) : Prop :=
  let t := run sysconf memory calls
  (t.m_microseconds_wallclock.toNat : Int) = (history memory calls).wall ∧
    (t.shown .UTT_SEC).toNat = t.m_microseconds_wallclock.toNat / 1000000

/-- The time fits a `ULong`, and the seconds from before are as many as the fractions make. -/
def Balanced (h : History) : Prop :=
  0 ≤ h.wall ∧ h.wall < 2 ^ 64 ∧ (2 ^ 64 : Int) ∣ h.stale - h.fractions / 1000000

/-! ## Intervals -/

section Interval

theorem interval_split (p : RawTimeval × Timeval) :
    elapsed p = (interval p.1 p.2).1 * 1000000 + (interval p.1 p.2).2 := by
  unfold elapsed interval Timeval.micros RawTimeval.micros
  dsimp only
  split <;> dsimp only <;> omega

/-- From the reading of a clock on, the split is the division by 1000000. -/
theorem interval_raw (start_time end_time : Timeval) :
    interval (raw start_time) end_time =
      ((end_time.micros - start_time.micros) / 1000000,
        (end_time.micros - start_time.micros) % 1000000) := by
  have hs := start_time.nonneg
  have hs' := start_time.lt
  have he := end_time.nonneg
  have he' := end_time.lt
  unfold interval raw Timeval.micros
  dsimp only
  split <;> refine Prod.ext ?_ ?_ <;> dsimp only <;> omega

variable (h : History)

theorem wall_eq : h.wall = h.seconds * 1000000 + h.fractions := by
  unfold History.wall History.seconds History.fractions
  induction h.intervals with
  | nil => rfl
  | cons p ps ih =>
    simp only [List.map_cons, List.sum_cons]
    rw [ih, interval_split]
    omega

theorem wall_stop (r : Reading) :
    (h.step (.stop r)).wall = h.wall + elapsed (h.start_time, r.time) := by
  show ((h.intervals ++ [(h.start_time, r.time)]).map elapsed).sum = _
  rw [List.map_append, List.sum_append, List.map_singleton, List.sum_singleton]
  rfl

theorem seconds_stop (r : Reading) :
    (h.step (.stop r)).seconds = h.seconds + (interval h.start_time r.time).1 := by
  show ((h.intervals ++ [(h.start_time, r.time)]).map _).sum = _
  rw [List.map_append, List.sum_append, List.map_singleton, List.sum_singleton]
  rfl

theorem wall_finish (r : Reading) :
    (h.step (.finish r)).wall = elapsed (h.start_time, r.time) := by
  show ([(h.start_time, r.time)].map elapsed).sum = _
  rw [List.map_singleton, List.sum_singleton]

theorem seconds_finish (r : Reading) :
    (h.step (.finish r)).seconds = (interval h.start_time r.time).1 := by
  show ([(h.start_time, r.time)].map _).sum = _
  rw [List.map_singleton, List.sum_singleton]

end Interval

/-! ## Runs -/

section Run

variable {sysconf : Int} {memory t : Timer} {h : History}

/-- The members of the timer are the numbers of the history, as far as a `ULong` holds them. -/
structure Keeps (t : Timer) (h : History) : Prop where
  started : t.start_time = h.start_time
  micros : t.m_microseconds_wallclock = UInt64.ofInt h.wall
  seconds : t.m_seconds_wallclock = UInt64.ofInt (h.stale + h.seconds)

theorem micros_ofInt (p : RawTimeval × Timeval) :
    UInt64.ofInt (interval p.1 p.2).1 * 1000000 + UInt64.ofInt (interval p.1 p.2).2 =
      UInt64.ofInt (elapsed p) := by
  rw [interval_split, UInt64.ofInt_add, UInt64.ofInt_mul]
  rfl

theorem micros_stop (sysconf : Int) (t : Timer) (r : Reading) :
    (t.stop sysconf r).m_microseconds_wallclock =
      t.m_microseconds_wallclock + UInt64.ofInt (elapsed (t.start_time, r.time)) :=
  congrArg (t.m_microseconds_wallclock + ·) (micros_ofInt (t.start_time, r.time))

theorem micros_finish (sysconf : Int) (t : Timer) (r : Reading) :
    (t.finish sysconf r).m_microseconds_wallclock =
      UInt64.ofInt (elapsed (t.start_time, r.time)) := micros_ofInt (t.start_time, r.time)

theorem ofInt_toNat (n : UInt64) : UInt64.ofInt n.toNat = n := by
  apply UInt64.toNat_inj.mp
  have hlt := n.toNat_lt
  show (UInt64.ofNat ((n.toNat : Int) % 2 ^ 64).toNat).toNat = n.toNat
  rw [UInt64.toNat_ofNat']
  omega

theorem keeps_uttTime (memory : Timer) :
    Keeps (uttTime memory) ⟨memory.start_time, [], memory.m_seconds_wallclock.toNat⟩ where
  started := rfl
  micros := rfl
  seconds := by
    show memory.m_seconds_wallclock = UInt64.ofInt (memory.m_seconds_wallclock.toNat + 0)
    rw [Int.add_zero, ofInt_toNat]

theorem keeps_run (hk : Keeps t h) (c : Call) : Keeps (c.run sysconf t) (h.step c) := by
  obtain ⟨hstart, hmicros, hseconds⟩ := hk
  cases c with
  | reset =>
    refine ⟨hstart, rfl, ?_⟩
    show t.m_seconds_wallclock = UInt64.ofInt (h.stale + h.seconds + 0)
    rw [hseconds, Int.add_zero]
  | start r => exact ⟨rfl, hmicros, hseconds⟩
  | stop r =>
    refine ⟨hstart, ?_, ?_⟩
    · rw [Call.run, micros_stop, hstart, hmicros, wall_stop, UInt64.ofInt_add]
    · show t.m_seconds_wallclock + UInt64.ofInt (interval t.start_time r.time).1 =
        UInt64.ofInt (h.stale + (h.step (.stop r)).seconds)
      rw [hstart, hseconds, seconds_stop, ← Int.add_assoc, UInt64.ofInt_add (h.stale + h.seconds)]
  | finish r =>
    refine ⟨hstart, ?_, ?_⟩
    · rw [Call.run, micros_finish, hstart, wall_finish]
    · show UInt64.ofInt (interval t.start_time r.time).1 =
        UInt64.ofInt (0 + (h.step (.finish r)).seconds)
      rw [Int.zero_add, seconds_finish, hstart]

theorem keeps_calls (sysconf : Int) (memory : Timer) (calls : List Call) :
    Keeps (run sysconf memory calls) (history memory calls) := by
  have hall : ∀ (calls : List Call) (t : Timer) (h : History), Keeps t h →
      Keeps (calls.foldl (Call.run sysconf) t) (calls.foldl History.step h) := by
    intro calls
    induction calls with
    | nil => exact fun _ _ hk => hk
    | cons c calls ih => exact fun t h hk => ih _ _ (keeps_run hk c)
  exact hall calls _ _ (keeps_uttTime memory)

theorem toNat_ofInt (n : Int) : ((UInt64.ofInt n).toNat : Int) = n % 2 ^ 64 := by
  show ((UInt64.ofNat (n % 2 ^ 64).toNat).toNat : Int) = _
  rw [UInt64.toNat_ofNat']
  omega

/-- The two scales agree exactly where the measured time fits and the seconds from before are those
that the fractions of the intervals make together. -/
theorem scales_agree_iff (sysconf : Int) (memory : Timer) (calls : List Call) :
    Agrees sysconf memory calls ↔ Balanced (history memory calls) := by
  obtain ⟨-, hmicros, hseconds⟩ := keeps_calls sysconf memory calls
  have hwall := wall_eq (history memory calls)
  have hm := toNat_ofInt (history memory calls).wall
  have hs := toNat_ofInt ((history memory calls).stale + (history memory calls).seconds)
  rw [← hmicros] at hm
  rw [← hseconds] at hs
  show (((run sysconf memory calls).m_microseconds_wallclock.toNat : Int) = _ ∧
    (run sysconf memory calls).m_seconds_wallclock.toNat = _) ↔ _
  unfold Balanced
  generalize (run sysconf memory calls).m_microseconds_wallclock.toNat = micros at hm ⊢
  generalize (run sysconf memory calls).m_seconds_wallclock.toNat = secs at hs ⊢
  constructor
  · rintro ⟨hsum, hshown⟩
    refine ⟨by omega, by omega, ?_⟩
    omega
  · rintro ⟨hnonneg, hlt, hstale⟩
    constructor
    · omega
    · omega

/-- The timer behind a `reset` still has the seconds from before. -/
theorem not_agrees_reset :
    ¬∀ (sysconf : Int) (memory : Timer) (calls : List Call), NonDecreasing calls →
      Agrees sysconf memory calls := by
  intro h
  let first : Reading := ⟨⟨0, 0, by decide, by decide⟩, ⟨0, 0⟩⟩
  let second : Reading := ⟨⟨5, 0, by decide, by decide⟩, ⟨0, 0⟩⟩
  have hclock : NonDecreasing [.start first, .stop second, .reset] := by
    show [first, second].Pairwise _
    exact List.pairwise_pair.mpr (by decide)
  have hagrees := (h 100 ⟨[], ⟨0, 0⟩, ⟨0, 0⟩, 0, 0, 0, 0⟩ _ hclock).2
  revert hagrees
  decide +kernel

end Run

end Natc.Ats.UttTime
