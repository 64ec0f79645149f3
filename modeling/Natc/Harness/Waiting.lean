import Natc.Lib.Text
import Natc.Lib.Machine
import Mathlib.Logic.Function.Basic

/-!
# Waits and posts of the isql processes

The processes of a Perl test case wait for one another. Each has a list of the names it waits for
and a list of the names it posts; `check_wait` strikes posted names off the lists of the other
processes and clears the WAIT bit of a process when its list runs empty.
-/

namespace Natc.Harness

open Lib

/-- One isql process: the bits of `STATE`, its two lists, and its PWAIT level. -/
structure Isql where
  block : Bool
  queue : Bool
  wait : Bool
  w_list : List Text
  p_list : List Text
  q_pwait : Nat

/-- `iSQL_pool`, by name. -/
structure Pool where
  proc : Text → Isql

/-- A number as a list entry. -/
def numeral (n : Nat) : Text := Nat.toDigits 10 n

/-- The value `$v||''` that `check_wait` compares: the entry 0 counts as empty. -/
def orEmpty (v : Text) : Text := if v = ['0'] then [] else v

/-- The main process. -/
def P0 : Text := ['P', '0']

section Strike

/-- The body of the loop over one wait list, with the WAIT bit: the entry at the index goes when it
equals the posted value, and the bit with the last entry. -/
def strikeAt (p_val : Text) (r : List Text × Bool) (w_idx : Nat) : List Text × Bool :=
  if orEmpty ((r.1[w_idx]?).getD []) = p_val then
    let l := r.1.eraseIdx w_idx
    (l, if l.isEmpty then false else r.2)
  else r

/-- The loop, whose range is fixed when it begins: behind an entry that goes, one is passed over. -/
def strike (r : List Text × Bool) (p_val : Text) : List Text × Bool :=
  (List.range r.1.length).foldl (strikeAt p_val) r

/-- What striking values does to a list and the bit: the entries that go are among the values, and
the bit is cleared just if the list runs empty. -/
structure Struck (vs : List Text) (r r' : List Text × Bool) : Prop where
  sublist : r'.1.Sublist r.1
  gone : ∀ x ∈ r.1, x ∉ r'.1 → orEmpty x ∈ vs
  bit : r'.2 = true ↔ r.2 = true ∧ (r'.1 = [] → r.1 = [])

theorem Struck.refl (r : List Text × Bool) : Struck [] r r :=
  ⟨.refl _, fun _ hx hn => absurd hx hn, by simp⟩

theorem Struck.trans {vs vs' : List Text} {r r' r'' : List Text × Bool} (h : Struck vs r r')
    (h' : Struck vs' r' r'') : Struck (vs ++ vs') r r'' where
  sublist := h'.sublist.trans h.sublist
  gone := by
    intro x hx hn
    by_cases hx' : x ∈ r'.1
    · exact List.mem_append_right _ (h'.gone x hx' hn)
    · exact List.mem_append_left _ (h.gone x hx hx')
  bit := by
    have hempty : r'.1 = [] → r''.1 = [] := fun he => List.sublist_nil.mp (he ▸ h'.sublist)
    have hempty' : r.1 = [] → r'.1 = [] := fun he => List.sublist_nil.mp (he ▸ h.sublist)
    rw [h'.bit, h.bit]
    tauto

/-- One round of the loop, over a list that was not empty when the loop began. -/
theorem Struck.strikeAt {v : Text} {r r' : List Text × Bool} (hr : r.1 ≠ [])
    (h : Struck [v] r r') (w_idx : Nat) : Struck [v] r (strikeAt v r' w_idx) := by
  rw [Harness.strikeAt]
  split
  · rename_i hv
    constructor
    case sublist => exact (List.eraseIdx_sublist _ _).trans h.sublist
    case gone =>
      intro x hx hn
      by_cases hx' : x ∈ r'.1
      · obtain ⟨i, hi⟩ := List.mem_iff_getElem?.mp hx'
        have hidx : i = w_idx := by
          by_contra hne
          exact hn (List.mem_eraseIdx_iff_getElem?.mpr ⟨i, hne, hi⟩)
        subst hidx
        simp [← hv, hi]
      · exact h.gone x hx hx'
    case bit =>
      have hbit := h.bit
      cases hl : r'.1.eraseIdx w_idx with
      | nil => simp [hr]
      | cons a l =>
        have hne : r'.1 ≠ [] := by
          intro he
          simp [he] at hl
        simpa [hl, hne] using hbit
  · exact h

theorem strike_struck (r : List Text × Bool) (v : Text) : Struck [v] r (strike r v) := by
  by_cases hr : r.1 = []
  · have hsame : strike r v = r := by simp [strike, hr]
    rw [hsame]
    exact ⟨.refl _, fun _ hx hn => absurd hx hn, by simp⟩
  · have hall : ∀ (l : List Nat) (r' : List Text × Bool), Struck [v] r r' →
        Struck [v] r (l.foldl (strikeAt v) r') := by
      intro l
      induction l with
      | nil => exact fun _ h => h
      | cons i l ih => exact fun r' h => ih _ (h.strikeAt hr i)
    exact hall _ r ⟨.refl _, fun _ hx hn => absurd hx hn, by simp⟩

theorem foldl_strike_struck (vs : List Text) (r : List Text × Bool) :
    Struck vs r (vs.foldl strike r) := by
  induction vs generalizing r with
  | nil => exact .refl r
  | cons v vs ih => exact (strike_struck r v).trans (ih _)

end Strike

namespace Pool

/-- The processes whose names are in `keys`, as far as they are not `w_key`, with all their posts
in order. -/
def posts (s : Pool) (keys : List Text) (w_key : Text) : List Text :=
  (keys.filter (· ≠ w_key)).flatMap fun p_key => (s.proc p_key).p_list.map orEmpty

/-- `check_wait`; Perl runs through the keys in an order of its own. -/
def check_wait (s : Pool) (keys : List Text) : Pool where
  proc w_key :=
    let p := s.proc w_key
    let r := (s.posts keys w_key).foldl strike (p.w_list, p.wait)
    { p with w_list := r.1, wait := r.2 }

def set (s : Pool) (i : Text) (p : Isql) : Pool := ⟨Function.update s.proc i p⟩

/-- Entries go to the list of posts. -/
def push_posts (s : Pool) (i : Text) (ps : List Text) : Pool :=
  s.set i { s.proc i with p_list := (s.proc i).p_list ++ ps }

/-- `shift @{ $self->{_p_list} }`. -/
def shift_post (s : Pool) (i : Text) : Pool :=
  s.set i { s.proc i with p_list := (s.proc i).p_list.tail }

/-- `sw_wait unless (_is_wait($self->{STATE}))`. -/
def set_wait (s : Pool) (i : Text) : Pool := s.set i { s.proc i with wait := true }

def push_waits (s : Pool) (i : Text) (ws : List Text) : Pool :=
  s.set i { s.proc i with w_list := (s.proc i).w_list ++ ws }

/-- `++$self->{q_pwait}`. -/
def next_level (s : Pool) (i : Text) : Pool :=
  s.set i { s.proc i with q_pwait := (s.proc i).q_pwait + 1 }

/-- The time-out parameter: digits with at most one point among them. -/
def isTimeout (t : Text) : Bool :=
  let rest := t.dropWhile Char.isDigit
  rest.isEmpty || (rest.head? = some '.' && rest.tail.all Char.isDigit)

/-- A time-out at the end of the parameters is taken off. -/
def popTimeout (ws : List Text) : List Text :=
  if isTimeout (ws.getLast?.getD []) then ws.dropLast else ws

/-- The parameters of POST that are words. -/
def words (ps : List Text) : List Text :=
  ps.filter fun p => !p.isEmpty && p.all fun c => c.isAlphanum || c = '_'

def ts_POST (s : Pool) (keys : List Text) (i : Text) (prm : List Text) : Pool :=
  ((s.push_posts i (words prm)).check_wait keys).shift_post i

/-- `ts_WAIT`: the list is set and checked, then the bit switched. -/
def ts_WAIT (s : Pool) (keys : List Text) (i : Text) (prm : List Text) : Pool :=
  let s := (s.set i { s.proc i with w_list := popTimeout prm }).check_wait keys
  s.set i { s.proc i with wait := !(s.proc i).wait }

/-- The processes a PWAIT without names waits for. -/
def pwaited (s : Pool) (keys : List Text) (i : Text) : List Text :=
  keys.filter fun k => !(indexOf? P0 k).isSome && (s.proc k).q_pwait ≤ (s.proc i).q_pwait

/-- The names of a PWAIT. -/
def pwaitNames (s : Pool) (keys : List Text) (i : Text) (prm : List Text) : List Text :=
  if popTimeout prm = [] then s.pwaited keys i else popTimeout prm

def ts_PWAIT (s : Pool) (keys : List Text) (i : Text) (prm : List Text) : Pool :=
  let level := numeral (s.proc i).q_pwait
  let s := (s.push_waits i (s.pwaitNames keys i prm)).set_wait i
  ((s.push_posts i [level]).next_level i).check_wait keys

def ts_PW_P (s : Pool) (keys : List Text) (i : Text) (prm : Nat) : Pool :=
  if (s.proc P0).q_pwait ≤ prm then
    let s := ((s.push_waits i [numeral prm]).next_level i).set_wait i
    ((s.push_posts i [i]).check_wait keys).shift_post i
  else s

/-- The end of a process in `_do_block`, once no bit of `STATE` is set. -/
def finish (s : Pool) (keys : List Text) (i : Text) : Pool :=
  if i = P0 then
    ((s.push_posts i [numeral (s.proc i).q_pwait]).next_level i).check_wait keys
  else (s.push_posts i [i]).check_wait keys

/-- `_timeout_cb`. -/
def timeout (s : Pool) (i : Text) : Pool := s.set i { s.proc i with wait := false, w_list := [] }

/-- The end of `_do_wait` in a process that does not wait. -/
def clear_posts (s : Pool) (i : Text) : Pool := s.set i { s.proc i with p_list := [] }

end Pool

/-- What a process does next; the commands are those of its part of the script. -/
inductive Event where
  | send | complete | unqueue
  | POST (prm : List Text)
  | WAIT (prm : List Text)
  | PWAIT (prm : List Text)
  | PW_P (prm : Nat)
  | finish | timeout | do_wait

/-- An event of a process, with the order in which Perl runs through the keys. -/
structure Happening where
  process : Text
  event : Event
  keys : List Text

namespace Pool

/-- A process executes its commands while it has a queue and neither bit is set. -/
def ready (p : Isql) : Bool := p.queue && !p.block && !p.wait

/-- An event of process `i`. When `_do_wait` ends is left open, but for the WAIT bit. -/
def event (s : Pool) (keys : List Text) (i : Text) : Event → Option Pool
  | .send => if ready (s.proc i) then some (s.set i { s.proc i with block := true }) else none
  | .complete =>
    if (s.proc i).block then some (s.set i { s.proc i with block := false }) else none
  | .unqueue => some (s.set i { s.proc i with queue := !(s.proc i).queue })
  | .POST prm => if ready (s.proc i) then some (s.ts_POST keys i prm) else none
  | .WAIT prm => if ready (s.proc i) then some (s.ts_WAIT keys i prm) else none
  | .PWAIT prm => if ready (s.proc i) then some (s.ts_PWAIT keys i prm) else none
  | .PW_P prm => if ready (s.proc i) then some (s.ts_PW_P keys i prm) else none
  | .finish =>
    let p := s.proc i
    if !p.queue && !p.block && !p.wait then some (s.finish keys i) else none
  | .timeout => some (s.timeout i)
  | .do_wait => if (s.proc i).wait then none else some (s.clear_posts i)

/-- The processes of a test case right after the start: the main process runs, the others wait for
the PWAIT of the level at which they were declared. -/
def started (level : Text → Nat) : Pool where
  proc i :=
    if i = P0 then ⟨false, true, false, [], [], 0⟩
    else ⟨false, true, true, [numeral (level i)], [], level i⟩

/-- A run of the processes in `pool`. -/
def machine (pool : List Text) (level : Text → Nat) : Machine Pool Happening where
  start := started level
  step s h :=
    if pool.contains h.process ∧ h.keys.isPerm pool then s.event h.keys h.process h.event else none

section Lawful

variable {s s' : Pool} {keys : List Text} {i : Text}

/-- Who waits, waits for something; and `check_wait` clears the WAIT bit of a process just if its
list runs empty, each entry matched by a post of another process. -/
structure Lawful (s : Pool) : Prop where
  listed : ∀ i, (s.proc i).wait = true → (s.proc i).w_list ≠ []
  released : ∀ keys i, (s.proc i).wait = true →
    (((s.check_wait keys).proc i).wait = false ↔ ((s.check_wait keys).proc i).w_list = [])
  matched : ∀ keys i, ∀ x ∈ (s.proc i).w_list, x ∉ ((s.check_wait keys).proc i).w_list →
    ∃ j ∈ keys, j ≠ i ∧ ∃ p ∈ (s.proc j).p_list, orEmpty p = orEmpty x

/-- A WAIT is executed only while a name of it is left when the posts that the other processes kept
are struck off, a PWAIT only with a name or a process to wait for. -/
def Heeds (s : Pool) (keys : List Text) (i : Text) : Event → Prop
  | .WAIT prm => ((s.posts keys i).foldl strike (popTimeout prm, false)).1 ≠ []
  | .PWAIT prm => (s.proc i).w_list ≠ [] ∨ s.pwaitNames keys i prm ≠ []
  | _ => True

def Heeded (s : Pool) (h : Happening) : Prop := s.Heeds h.keys h.process h.event

/-- Who waits, waits for something. -/
def Listed (s : Pool) : Prop := ∀ i, (s.proc i).wait = true → (s.proc i).w_list ≠ []

theorem check_wait_struck (s : Pool) (keys : List Text) (i : Text) :
    Struck (s.posts keys i) ((s.proc i).w_list, (s.proc i).wait)
      (((s.check_wait keys).proc i).w_list, ((s.check_wait keys).proc i).wait) :=
  foldl_strike_struck _ _

theorem mem_posts {v : Text} : v ∈ s.posts keys i ↔
    ∃ j ∈ keys, j ≠ i ∧ ∃ p ∈ (s.proc j).p_list, orEmpty p = v := by
  simp [posts, and_assoc]

theorem Listed.lawful (h : s.Listed) : s.Lawful where
  listed := h
  released := by
    intro keys i hw
    have hbit := (s.check_wait_struck keys i).bit
    have hne := h i hw
    simp only [hw, true_and] at hbit
    rw [← Bool.not_eq_true, hbit]
    tauto
  matched := fun keys i x hx hn => mem_posts.mp ((s.check_wait_struck keys i).gone x hx hn)

theorem Listed.check_wait (h : s.Listed) (keys : List Text) : (s.check_wait keys).Listed := by
  intro i hw hnil
  obtain ⟨hw', hempty⟩ := (s.check_wait_struck keys i).bit.mp hw
  exact h i hw' (hempty hnil)

theorem set_proc (s : Pool) (i j : Text) (p : Isql) :
    (s.set i p).proc j = if j = i then p else s.proc j :=
  Function.update_apply s.proc i p j

/-- A process is changed so that it does not wait for nothing. -/
theorem Listed.set (h : s.Listed) {p : Isql} (hp : p.wait = true → p.w_list ≠ []) :
    (s.set i p).Listed := by
  intro j
  rw [set_proc]
  split
  · exact hp
  · exact h j

@[simp] theorem set_proc_self (s : Pool) (i : Text) (p : Isql) : (s.set i p).proc i = p := by
  rw [set_proc, if_pos rfl]

/-- What a process does to its own lists is not seen in what the others post. -/
theorem posts_set_self (s : Pool) (keys : List Text) (i : Text) (p : Isql) :
    (s.set i p).posts keys i = s.posts keys i := by
  unfold posts
  rw [List.flatMap_congr]
  intro j hj
  have hne : j ≠ i := by simpa using (List.mem_filter.mp hj).2
  rw [set_proc, if_neg hne]

theorem Listed.push_posts (h : s.Listed) (ps : List Text) : (s.push_posts i ps).Listed :=
  h.set (h i)

theorem Listed.shift_post (h : s.Listed) : (s.shift_post i).Listed :=
  h.set (h i)

theorem Listed.next_level (h : s.Listed) : (s.next_level i).Listed :=
  h.set (h i)

theorem Listed.push_waits (h : s.Listed) (ws : List Text) : (s.push_waits i ws).Listed := by
  apply h.set
  intro hw hnil
  exact h i hw (List.append_eq_nil_iff.mp hnil).1

theorem Listed.ts_POST (h : s.Listed) (prm : List Text) : (s.ts_POST keys i prm).Listed :=
  ((h.push_posts _).check_wait keys).shift_post

theorem Listed.ts_WAIT (h : s.Listed) {prm : List Text} (hi : (s.proc i).wait = false)
    (hleft : ((s.posts keys i).foldl strike (popTimeout prm, false)).1 ≠ []) :
    (s.ts_WAIT keys i prm).Listed := by
  have hset : (s.set i { s.proc i with w_list := popTimeout prm }).Listed := by
    apply h.set
    simp [hi]
  apply (hset.check_wait keys).set
  intro _
  simp only [Pool.check_wait, set_proc_self, posts_set_self, hi]
  exact hleft

theorem Listed.ts_PWAIT (h : s.Listed) {prm : List Text}
    (hname : (s.proc i).w_list ≠ [] ∨ s.pwaitNames keys i prm ≠ []) :
    (s.ts_PWAIT keys i prm).Listed := by
  have hne : (s.proc i).w_list ++ s.pwaitNames keys i prm ≠ [] := by
    intro hnil
    obtain ⟨hw, hn⟩ := List.append_eq_nil_iff.mp hnil
    exact hname.elim (fun hw' => hw' hw) fun hn' => hn' hn
  have hwait : ((s.push_waits i (s.pwaitNames keys i prm)).set_wait i).Listed := by
    apply (h.push_waits _).set
    intro _
    simpa [Pool.push_waits] using hne
  exact (hwait.push_posts _).next_level.check_wait keys

theorem Listed.ts_PW_P (h : s.Listed) (prm : Nat) : (s.ts_PW_P keys i prm).Listed := by
  rw [Pool.ts_PW_P]
  split
  · have hwait : (((s.push_waits i [numeral prm]).next_level i).set_wait i).Listed := by
      apply (h.push_waits _).next_level.set
      intro _
      simp [Pool.push_waits, Pool.next_level]
    exact ((hwait.push_posts _).check_wait keys).shift_post
  · exact h

theorem Listed.finish (h : s.Listed) : (s.finish keys i).Listed := by
  rw [Pool.finish]
  split
  · exact (h.push_posts _).next_level.check_wait keys
  · exact (h.push_posts _).check_wait keys

theorem wait_of_ready {p : Isql} (h : ready p = true) : p.wait = false := by
  simp only [ready, Bool.and_eq_true, Bool.not_eq_true'] at h
  exact h.2

/-- Every event of a process. -/
theorem Listed.event (h : s.Listed) {e : Event} (hok : s.Heeds keys i e)
    (hstep : s.event keys i e = some s') : s'.Listed := by
  cases e with
  | send =>
    simp only [Pool.event] at hstep
    split at hstep <;> cases hstep
    exact h.set (h i)
  | complete =>
    simp only [Pool.event] at hstep
    split at hstep <;> cases hstep
    exact h.set (h i)
  | unqueue =>
    cases hstep
    exact h.set (h i)
  | POST prm =>
    simp only [Pool.event] at hstep
    split at hstep <;> cases hstep
    exact h.ts_POST prm
  | WAIT prm =>
    simp only [Pool.event] at hstep
    split at hstep
    · rename_i hready
      cases hstep
      exact h.ts_WAIT (wait_of_ready hready) hok
    · cases hstep
  | PWAIT prm =>
    simp only [Pool.event] at hstep
    split at hstep <;> cases hstep
    exact h.ts_PWAIT hok
  | PW_P prm =>
    simp only [Pool.event] at hstep
    split at hstep <;> cases hstep
    exact h.ts_PW_P prm
  | finish =>
    simp only [Pool.event] at hstep
    split at hstep <;> cases hstep
    exact h.finish
  | timeout =>
    cases hstep
    exact h.set (by simp)
  | do_wait =>
    simp only [Pool.event] at hstep
    split at hstep <;> cases hstep
    exact h.set (h i)

theorem listed_of_reach {pool : List Text} {level : Text → Nat}
    (h : (machine pool level).Reach Heeded s) : s.Listed := by
  apply h.invariant
  · intro i hi
    simp only [machine, started] at hi ⊢
    split at hi
    · cases hi
    · rename_i hne
      simp [hne]
  · intro s h s' hs hok hstep
    simp only [machine] at hstep
    split at hstep
    · exact hs.event hok hstep
    · cases hstep

/-- In a run whose WAIT and PWAIT commands find something left to wait for, a process that waits has
a list, and `check_wait` releases it just when the last entry has been matched. -/
theorem waits_released (pool : List Text) (level : Text → Nat) (s : Pool)
    (h : (machine pool level).Reach Heeded s) : s.Lawful :=
  (listed_of_reach h).lawful

end Lawful

section Schedules

def P1 : Text := ['P', '1']
def P2 : Text := ['P', '2']

def three : List Text := [P0, P1, P2]

/-- The main process lets the other two begin. `P1` posts two names after a statement, of which
`check_wait` finds no one waiting for, and the second one is kept; then `P2` waits for it. -/
def earlySchedule : List Happening :=
  [⟨P0, .PWAIT [P1, P2], three⟩, ⟨P1, .do_wait, three⟩, ⟨P2, .do_wait, three⟩,
    ⟨P1, .send, three⟩, ⟨P1, .complete, three⟩, ⟨P1, .POST [['a'], ['b']], three⟩,
    ⟨P2, .WAIT [['b']], three⟩]

theorem early_post_lost : ¬∀ s : Pool, (machine three fun _ => 0).Reachable s → s.Lawful := by
  intro hall
  obtain ⟨s, hs, hlost⟩ := Machine.exists_reach_of_exec (machine three fun _ => 0)
    (fun _ _ => true) (fun s => (s.proc P2).wait && (s.proc P2).w_list.isEmpty) earlySchedule
    (by decide)
  rw [Bool.and_eq_true, List.isEmpty_iff] at hlost
  exact (hall s (hs.mono fun _ _ _ => trivial)).listed P2 hlost.1 hlost.2

/-- `P2` waits before `P1` posts. -/
def lateSchedule : List Happening :=
  [⟨P0, .PWAIT [P1, P2], three⟩, ⟨P1, .do_wait, three⟩, ⟨P2, .do_wait, three⟩,
    ⟨P2, .WAIT [['b']], three⟩]

instance (s : Pool) (keys : List Text) (i : Text) : (e : Event) → Decidable (s.Heeds keys i e)
  | .WAIT prm =>
    inferInstanceAs (Decidable (((s.posts keys i).foldl strike (popTimeout prm, false)).1 ≠ []))
  | .PWAIT prm =>
    inferInstanceAs (Decidable ((s.proc i).w_list ≠ [] ∨ s.pwaitNames keys i prm ≠ []))
  | .send => isTrue trivial
  | .complete => isTrue trivial
  | .unqueue => isTrue trivial
  | .POST _ => isTrue trivial
  | .PW_P _ => isTrue trivial
  | .finish => isTrue trivial
  | .timeout => isTrue trivial
  | .do_wait => isTrue trivial

theorem waits_released_late : ∃ s : Pool, (s.proc P2).wait = true ∧ s.Lawful := by
  obtain ⟨s, hs, hwait⟩ := Machine.exists_reach_of_exec (machine three fun _ => 0)
    (fun s h => decide (s.Heeds h.keys h.process h.event)) (fun s => (s.proc P2).wait)
    lateSchedule (by decide)
  exact ⟨s, hwait, waits_released three (fun _ => 0) s (hs.mono fun _ _ => of_decide_eq_true)⟩

end Schedules

end Pool

end Natc.Harness
