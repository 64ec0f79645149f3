import Natc.Lib.Text
import Natc.Lib.Machine
import Mathlib.Data.List.DropRight
import Mathlib.Logic.Function.Basic

/-!
# Lost connections of the isql processes

A process of a Perl test case sends its script line by line and keeps the lines sent since the last
prompt. When the connection is lost, `_err_pipe` connects again, takes back what was put out since
the rollback point and puts the kept lines back in front of the script.
-/

namespace Natc.Harness

open Lib

/-- A script line with its number. -/
abbrev Line := Nat × Text

inductive StampType where
  | S | R | C
  deriving DecidableEq, Repr

/-- An entry of `time_stmp`. `span` holds the indices of a TDX item. -/
structure Stamp where
  type : Option StampType
  time_stmp : Nat
  cmd : Text
  span : Option (Nat × Nat)
  deriving DecidableEq, Repr

/-- The keys of `time_stmp`: an index into the output, or the process object itself. -/
inductive Key where
  | index (n : Nat)
  | self
  deriving DecidableEq, Repr

/-- The statement under way: the output, its counter, the time stamps and the clock when its first
line was sent, its lines as the script has them, and whether the queue of sent lines holds them
unchanged and nothing else. -/
structure Begun where
  OUT : List Text
  q_out : Nat
  time_stmp : Key → Option Stamp
  clock : Nat
  lines : List Line
  whole : Bool

/-- The statement goes on with a line. -/
def Begun.add (b : Begun) (l : Line) (same : Bool) : Begun :=
  { b with
    lines := b.lines ++ [l]
    whole := b.whole && same }

/-- One isql process. `clock` numbers the readings of the clock. `writing` is set between the
display of a line and its `syswrite`, `finished` when the process is closed; these two and `begun`
are not in the source. -/
structure Driver where
  IN : List Line
  OUT : List Text
  q_out : Nat
  rollback_point : Nat
  last : Option Line
  last_queue : List Line
  new_stmt : Bool
  length_indent : Option Nat
  block : Bool
  queue : Bool
  wait : Bool
  time_stmp : Key → Option Stamp
  clock : Nat
  result_receiving : Bool
  BufferIN : Text
  _skip : Bool
  begun : Option Begun
  writing : Bool
  finished : Bool

/-- What stays the same in a run. `matched` is what `$&` holds in `_send` while nothing in it has
matched. -/
structure Setting where
  prompt : Text
  is_parallel : Bool
  matched : Text

section Patterns

/-- `\s`. -/
def white (c : Char) : Bool := c.isWhitespace || c == '\x0b' || c == '\x0c'

theorem white_of_isDigit {c : Char} (h : c.isDigit = true) : white c = false := by
  rw [Char.isDigit, Bool.and_eq_true, decide_eq_true_eq, decide_eq_true_eq] at h
  by_contra hwhite
  simp only [white, Char.isWhitespace, Bool.or_eq_true, decide_eq_true_eq, beq_iff_eq,
    Bool.not_eq_false] at hwhite
  rcases hwhite with (((((rfl | rfl) | rfl) | rfl)) | rfl) | rfl <;> exact absurd h (by decide)

/-- `^\s*\-\-\+`. -/
def isCommand (t : Text) : Bool := ['-', '-', '+'].isPrefixOf (t.dropWhile white)

/-- `^\s*\-\-\#` or `^\s*$`. -/
def isRemark (t : Text) : Bool := ['-', '-', '#'].isPrefixOf (t.dropWhile white) || t.all white

/-- `^\s*\-\-`. -/
def isComment (t : Text) : Bool := ['-', '-'].isPrefixOf (t.dropWhile white)

/-- `^\-\-\+\s*` and a word. -/
def isHarness (word t : Text) : Bool :=
  ['-', '-', '+'].isPrefixOf t && word.isPrefixOf ((t.drop 3).dropWhile white)

def chomp (t : Text) : Text := if t.getLast? = some '\n' then t.dropLast else t

/-- A Perl string counts as true. -/
def truthy (t : Text) : Bool := t ≠ [] ∧ t ≠ ['0']

/-- `\s$`. -/
def endsWhite : Text → Bool
  | [c] => white c
  | [c, d] => white c && d == '\n'
  | _ => false

/-- `ExpectFirst` at the front. -/
def promptHere (t : Text) : Bool :=
  ['i', 'S', 'Q', 'L', '>'].isPrefixOf t && endsWhite (t.drop 5)

/-- `iSQL\d+\s+$` at the front. -/
def countHere (t : Text) : Bool :=
  let digits := (t.drop 4).takeWhile Char.isDigit
  let rest := (t.drop 4).dropWhile Char.isDigit
  ['i', 'S', 'Q', 'L'].isPrefixOf t && !digits.isEmpty && !rest.isEmpty && rest.all white

/-- `/$self->{ExpectFirst}/`. -/
def expectFirst : Text → Bool
  | [] => false
  | c :: cs => promptHere (c :: cs) || expectFirst cs

/-- `s/$self->{Expect}//`. -/
def expect : Text → Option Text
  | [] => none
  | c :: cs =>
      if promptHere (c :: cs) then some (cs.drop 5)
      else if countHere (c :: cs) then some []
      else (expect cs).map (c :: ·)

/-- `split /[\r\n]/`. -/
def splitLines (t : Text) : List Text :=
  (t.splitOnP fun c => c == '\r' || c == '\n').rdropWhile List.isEmpty

end Patterns

/-- What a `--+` command does to the process that executes it: it is stamped under a name at some
distance from the counter, puts lines out, and marks TDX items among them. A sector comparison may
put out a line that is not counted and may drop the output. -/
inductive Command where
  | waits (stamp : Option (Text × Nat)) (lines : List Text)
  | passes (stamp : Option (Text × Nat)) (extra : List Text) (clears : Bool) (lines : List Text)
      (items : List (Nat × Nat)) (_skip : Option Bool)

namespace Driver

section Operations

variable (cfg : Setting) (s : Driver)

def _push_out (line : Text) : Driver :=
  { s with
    q_out := s.q_out + 1
    OUT := s.OUT ++ [line] }

def pushAll (lines : List Text) : Driver := lines.foldl _push_out s

/-- `_pop_out`, which looks the object itself up among the time stamps. -/
def _pop_out : Driver :=
  { s with
    time_stmp := Function.update s.time_stmp .self none
    q_out := s.q_out - 1
    OUT := s.OUT.dropLast }

/-- An entry of `time_stmp` at the time of `_get_time_tick`. -/
def setStamp (idx : Nat) (type : Option StampType) (cmd : Text) (span : Option (Nat × Nat)) :
    Driver :=
  { s with
    time_stmp := Function.update s.time_stmp (.index idx) (some ⟨type, s.clock, cmd, span⟩)
    clock := s.clock + 1 }

/-- A new reading of the clock for the entry that may stand at the counter. -/
def restamp : Driver :=
  let old := s.time_stmp (.index s.q_out)
  s.setStamp s.q_out (old.bind Stamp.type) ((old.map Stamp.cmd).getD []) (old.bind Stamp.span)

/-- `sw_queue($self) if ( $#{$self->{IN}}+1 xor _is_queue($self->{STATE}) )`. -/
def syncQueue : Driver := { s with queue := !s.IN.isEmpty }

def popOuts : Nat → Driver → Driver
  | 0, s => s
  | n + 1, s => popOuts n s._pop_out

/-- `_rollback_out`. -/
def _rollback_out : Driver :=
  let s := popOuts (s.q_out - s.rollback_point) s
  { s with
    IN := s.last_queue ++ s.IN
    last_queue := [] }

/-- `_hang_up` when the process connects again. -/
def _hang_up : Driver := { s with block := true }

/-- `_err_pipe` when the process connects again. -/
def _err_pipe (DISCARD : Bool) : Driver :=
  let s := { s._hang_up with new_stmt := true }
  let s := { s with
    block := false
    begun := none }
  if DISCARD then s else _rollback_out { s with last := none }

/-- The TDX items of a command, from the counter `base` on. -/
def markItems (base : Nat) (items : List (Nat × Nat)) : Driver :=
  if cfg.is_parallel then
    items.foldl (fun s i => s.setStamp (base + i.1) (some .R) [] (some (base + i.1, base + i.2))) s
  else s

def stampCommand : Option (Text × Nat) → Driver
  | some (name, distance) =>
      if cfg.is_parallel then s.setStamp (s.q_out + distance) (some .C) name none else s
  | none => s

/-- `_do_cmd`. -/
def _do_cmd : Command → Driver
  | .waits stamp lines =>
      syncQueue { (s.stampCommand cfg stamp).pushAll lines with wait := true }
  | .passes stamp extra clears lines items _skip =>
      let s := s.stampCommand cfg stamp
      let base := s.q_out
      let s := { s with OUT := if clears then [] else s.OUT ++ extra }
      let s := (s.pushAll lines).markItems cfg base items
      syncQueue { s with _skip := _skip.getD s._skip }

/-- A line that is neither a command nor sent. -/
def remark (rest : List Line) (last : Option Line) (text : Text) : Driver :=
  let s := ({ s with
    IN := rest
    last := last }._push_out (chomp text)).syncQueue
  { s with rollback_point := s.q_out }

/-- The loop of `_do_block` over the lines that are not sent; true when a command waits. -/
def passHarness : List Line → List Command → Driver → Driver × Bool
  | [], _, s => (s, false)
  | l :: rest, cmds, s =>
      if isCommand l.2 then
        let s := { s with
          IN := rest
          last := some l }._do_cmd cfg (cmds.headD (.passes none [] false [] [] none))
        if s.wait then (s, true)
        else passHarness rest cmds.tail { s with rollback_point := s.q_out }
      else if isRemark l.2 then passHarness rest cmds (s.remark rest (some l) l.2)
      else (s, false)

/-- `s/^\s{$self->{length_indent}}//`; without a number the braces stand for themselves. -/
def unindent (length_indent : Option Nat) (t : Text) : Text :=
  match length_indent with
  | some n => if n ≤ t.length ∧ (t.take n).all white then t.drop n else t
  | none => if (t.take 1).any white ∧ (t.drop 1).take 2 = ['{', '}'] then t.drop 3 else t

/-- What `_send` makes of the text of a line: the text it leaves in the queue, the indentation it
notes, and the text it displays. -/
def trim (t : Text) : Text × Option Nat × Text :=
  let bare := t.dropWhile white
  if isComment t ∨ t.all white then (bare, s.length_indent, bare)
  else if s.new_stmt then
    let found := t.takeWhile white
    let length_indent := if found.isEmpty then cfg.matched.length else found.length
    (bare, some length_indent, cfg.prompt ++ bare)
  else
    let cut := unindent s.length_indent t
    (cut, s.length_indent, List.replicate cfg.prompt.length ' ' ++ cut)

/-- The statement that begins with the next line. -/
def snapshot : Begun := ⟨s.OUT, s.q_out, s.time_stmp, s.clock, [], s.last_queue.isEmpty⟩

/-- `_send` up to `syswrite`, for a line just taken from `IN`; `data` is its text with the variables
expanded. The queue of sent lines and `last` share the line, whose text `_send` changes. -/
def _send (l : Line) (data : Text) : Driver :=
  if truthy data then
    let cut := s.trim cfg l.2
    let begun := (s.begun.getD s.snapshot).add l (cut.1 = l.2)
    let s := { s with
      last := some (l.1, cut.1)
      last_queue := s.last_queue ++ [(l.1, cut.1)]
      length_indent := cut.2.1 }._push_out (chomp cut.2.2)
    let s := if cfg.is_parallel then s.setStamp s.q_out (some .S) data none else s
    { s with
      block := true
      begun := some begun
      writing := true }
  else
    { s with
      last := some l
      last_queue := s.last_queue ++ [l]
      begun := s.begun.map (·.add l true) }

/-- The end of `_do_block`: the process is closed when no bit is set. -/
def finalize : Driver := { s with finished := s.finished || !(s.queue || s.block || s.wait) }

/-- `_send` from the result of `syswrite` on, and the end of `_do_block`. -/
def written (sent : Bool) : Driver :=
  let s := { s with writing := false }
  let s := if sent then s else s._err_pipe false
  finalize (syncQueue { s with result_receiving := false })

/-- `_do_block`. With nothing in `IN`, the loop finds an empty text. -/
def _do_block (cmds : List Command) (expanded : Text → Text) : Driver :=
  if s.queue ∧ s.block = false ∧ s.wait = false then
    let r := if s.IN.isEmpty then (s.remark [] none [], false) else s.passHarness cfg s.IN cmds
    if r.2 then r.1
    else match r.1.IN with
      | [] => r.1.finalize
      | l :: rest => { r.1 with IN := rest }._send cfg l (expanded l.2)
  else s.finalize

/-- `_do_wait`, when the WAIT bit has been cleared. -/
def _do_wait (cmds : List Command) (expanded : Text → Text) : Driver :=
  let waited := (s.last.map Prod.snd).getD []
  let s := if cfg.is_parallel ∧ ['P', 'W', 'A', 'I', 'T'] <:+: waited ∧
      (s.time_stmp (.index s.q_out)).isSome then s.restamp else s
  s._do_block cfg cmds expanded

/-- `_timeout_cb`. -/
def _timeout_cb (mess : Text) (cmds : List Command) (expanded : Text → Text) : Driver :=
  let s := if cfg.is_parallel then s.restamp else s
  { s._push_out mess with wait := false }._do_block cfg cmds expanded

/-- `callback_read_handle`. -/
def callback_read_handle (data : Text) : Driver :=
  let t := s.BufferIN ++ data
  let s := if cfg.is_parallel ∧ s.result_receiving = false then
      { s.setStamp (s.q_out + 1) (some .R) [] none with result_receiving := true } else s
  let s := if expectFirst t then
      { s with
        new_stmt := true
        rollback_point := s.q_out
        last_queue := []
        begun := none }
    else { s with new_stmt := false }
  match expect t with
  | some out =>
      let s := { s with
        block := false
        BufferIN := [] }
      if s._skip then s
      else s.pushAll (((splitLines out).filter truthy).map (['.', ' '] ++ ·))
  | none =>
      if s._skip then s
      else
        let ps := splitLines t
        let s := s.pushAll ((ps.dropLast.filter truthy).map (['.', ' '] ++ ·))
        { s with BufferIN := ps.getLast?.getD [] ++ if t.getLast? = some '\n' then ['\n'] else [] }

/-- The texts of the reply that show the server dead. -/
def deathTexts : List Text :=
  ["Connection closed".toList, "Fail connect to server".toList, "Communication failure".toList]

/-- The callback of the socket; no data means that `sysread` fails. -/
def receive (data : Option Text) : Driver :=
  match data with
  | none => s._err_pipe false
  | some data =>
      if deathTexts.any fun w => (indexOf? w data).isSome then s._err_pipe false
      else s.callback_read_handle cfg data

/-- `_discard_remain_queue_in_current_sector`. -/
def discard : List Line → Driver → Driver
  | l :: l' :: ls, s =>
      if isHarness "SECTOR".toList l.2 then { s with IN := l :: l' :: ls }
      else
        discard (l' :: ls) (if isHarness "PW_P".toList l.2 then s
          else s.pushAll [['>', ' '] ++ chomp l.2, "discarded due to KILL_CLIENT command".toList])
  | ls, s => { s with IN := ls }

/-- What the KILL_CLIENT command of another process does to this one. -/
def killed : Driver :=
  let base := s.q_out
  let s := (s._err_pipe true)._push_out "killed by KILL_CLIENT command".toList
  let s := s.discard s.IN
  s.markItems cfg base [(1, s.q_out - base)]

end Operations

/-- What happens to a process. The effects of the commands it executes and the values of the
variables come with the event. -/
inductive Event where
  | do_block (cmds : List Command) (expanded : Text → Text)
  | written (sent : Bool)
  | receive (data : Option Text)
  | released
  | do_wait (cmds : List Command) (expanded : Text → Text)
  | timeout (mess : Text) (cmds : List Command) (expanded : Text → Text)
  | killed

section Run

variable (cfg : Setting)

def event (s : Driver) : Event → Option Driver
  | .written sent => if s.writing then some (s.written sent) else none
  | .do_block cmds expanded => unlessBusy s (s._do_block cfg cmds expanded)
  | .receive data => unlessBusy s (s.receive cfg data)
  | .released => if s.wait then unlessBusy s { s with wait := false } else none
  | .do_wait cmds expanded =>
      if s.wait then none else unlessBusy s (s._do_wait cfg cmds expanded)
  | .timeout mess cmds expanded => unlessBusy s (s._timeout_cb cfg mess cmds expanded)
  | .killed => unlessBusy s (s.killed cfg)
where
  unlessBusy (s s' : Driver) : Option Driver := if s.writing ∨ s.finished then none else some s'

/-- `start`; the fields not set come from the scripts before. -/
def started (before : Driver) (IN : List Line) : Driver :=
  { before with
    IN := IN
    last := none
    block := false
    queue := true
    wait := true
    time_stmp := fun _ => none
    begun := none
    writing := false
    finished := false }

/-- The runs of one process through a script. -/
def machine (before : Driver) (IN : List Line) : Machine Driver Event where
  start := started before IN
  step s e := s.event cfg e

end Run

/-- The statement `b` can be executed again from `s'`, which `_err_pipe` made of `s`. -/
structure Restored (b : Begun) (s s' : Driver) : Prop where
  IN : s'.IN = b.lines ++ s.IN
  OUT : s'.OUT = b.OUT
  q_out : s'.q_out = b.q_out
  time_stmp : s'.time_stmp = b.time_stmp
  queue : s'.queue = true ↔ s'.IN ≠ []
  block : s'.block = false

section Invariant

variable {cfg : Setting} {s s' s'' : Driver}

/-- What the steps inside a statement do beside the output: time stamps are recorded and lines
counted. -/
structure Notes (cfg : Setting) (s s' : Driver) : Prop where
  begun : s'.begun = s.begun
  last_queue : s'.last_queue = s.last_queue
  ahead : s.q_out ≤ s'.q_out
  clock : s.clock ≤ s'.clock
  quiet : cfg.is_parallel = false → s'.time_stmp = s.time_stmp
  stamps : ∀ k, s'.time_stmp k = s.time_stmp k ∨
    ∃ st, s'.time_stmp k = some st ∧ s.clock ≤ st.time_stmp ∧ st.time_stmp < s'.clock
  self : s'.time_stmp .self = s.time_stmp .self

/-- Such a step puts lines out and leaves the rollback point, or moves it behind what had been put
out before. -/
structure Extends (cfg : Setting) (s s' : Driver) : Prop extends Notes cfg s s' where
  point : s.q_out ≤ s'.rollback_point ∨ s'.rollback_point = s.rollback_point ∧
    ∃ ls, s'.OUT = s.OUT ++ ls ∧ s'.q_out = s.q_out + ls.length

/-- A step that records nothing. -/
theorem Notes.same (hb : s'.begun = s.begun) (hl : s'.last_queue = s.last_queue)
    (hq : s.q_out ≤ s'.q_out) (ht : s'.time_stmp = s.time_stmp) (hc : s'.clock = s.clock) :
    Notes cfg s s' where
  begun := hb
  last_queue := hl
  ahead := hq
  clock := hc.ge
  quiet := fun _ => ht
  stamps := fun k => .inl (congrFun ht k)
  self := congrFun ht _

/-- A step that touches none of these fields. -/
theorem Extends.same (hb : s'.begun = s.begun) (hl : s'.last_queue = s.last_queue)
    (hO : s'.OUT = s.OUT) (hq : s'.q_out = s.q_out) (hr : s'.rollback_point = s.rollback_point)
    (ht : s'.time_stmp = s.time_stmp) (hc : s'.clock = s.clock) : Extends cfg s s' where
  toNotes := .same hb hl hq.ge ht hc
  point := .inr ⟨hr, [], by simp [hO], by simp [hq]⟩

theorem Extends.refl (s : Driver) : Extends cfg s s := .same rfl rfl rfl rfl rfl rfl rfl

theorem Notes.trans (h : Notes cfg s s') (h' : Notes cfg s' s'') : Notes cfg s s'' where
  begun := h'.begun.trans h.begun
  last_queue := h'.last_queue.trans h.last_queue
  ahead := h.ahead.trans h'.ahead
  clock := h.clock.trans h'.clock
  quiet := fun hp => (h'.quiet hp).trans (h.quiet hp)
  stamps := by
    intro k
    rcases h'.stamps k with hk' | ⟨st, hst, hle, hlt⟩
    · rw [hk']
      rcases h.stamps k with hk | ⟨st, hst, hle, hlt⟩
      · exact .inl hk
      · exact .inr ⟨st, hst, hle, hlt.trans_le h'.clock⟩
    · exact .inr ⟨st, hst, h.clock.trans hle, hlt⟩
  self := h'.self.trans h.self

theorem Extends.trans (h : Extends cfg s s') (h' : Extends cfg s' s'') : Extends cfg s s'' where
  toNotes := h.toNotes.trans h'.toNotes
  point := by
    rcases h'.point with hp' | ⟨hr', ls', hO', hq'⟩
    · exact .inl (h.ahead.trans hp')
    · rcases h.point with hp | ⟨hr, ls, hO, hq⟩
      · exact .inl (hr' ▸ hp)
      · right
        use hr'.trans hr, ls ++ ls'
        simp [hO', hO, hq', hq, Nat.add_assoc]

theorem extends_push_out (s : Driver) (line : Text) : Extends cfg s (s._push_out line) where
  toNotes := .same rfl rfl (Nat.le_succ _) rfl rfl
  point := .inr ⟨rfl, [line], rfl, rfl⟩

theorem extends_pushAll (s : Driver) (lines : List Text) : Extends cfg s (s.pushAll lines) := by
  induction lines generalizing s with
  | nil => exact .refl s
  | cons line lines ih => exact (extends_push_out s line).trans (ih _)

theorem extends_setStamp (hpar : cfg.is_parallel = true) (s : Driver) (idx : Nat)
    (type : Option StampType) (cmd : Text) (span : Option (Nat × Nat)) :
    Extends cfg s (s.setStamp idx type cmd span) where
  begun := rfl
  last_queue := rfl
  ahead := Nat.le_refl _
  clock := Nat.le_succ _
  quiet := by simp [hpar]
  stamps := by
    intro k
    by_cases hk : k = .index idx
    · right
      use ⟨type, s.clock, cmd, span⟩
      simp [setStamp, hk]
    · exact .inl (by simp [setStamp, hk])
  self := by simp [setStamp]
  point := .inr ⟨rfl, [], by simp [setStamp], rfl⟩

theorem extends_stampCommand (s : Driver) (stamp : Option (Text × Nat)) :
    Extends cfg s (s.stampCommand cfg stamp) := by
  cases stamp with
  | none => exact .refl s
  | some name =>
    rw [stampCommand]
    split
    · rename_i hpar
      exact extends_setStamp hpar ..
    · exact .refl s

theorem extends_markItems (s : Driver) (base : Nat) (items : List (Nat × Nat)) :
    Extends cfg s (s.markItems cfg base items) := by
  rw [markItems]
  split
  · rename_i hpar
    induction items generalizing s with
    | nil => exact .refl s
    | cons i items ih => exact (extends_setStamp hpar ..).trans (ih _)
  · exact .refl s

@[simp] theorem pushAll_wait (s : Driver) (lines : List Text) :
    (s.pushAll lines).wait = s.wait := by
  induction lines generalizing s with
  | nil => rfl
  | cons line lines ih => exact ih _

@[simp] theorem stampCommand_wait (s : Driver) (stamp : Option (Text × Nat)) :
    (s.stampCommand cfg stamp).wait = s.wait := by
  cases stamp with
  | none => rfl
  | some name =>
    rw [stampCommand]
    split <;> rfl

@[simp] theorem markItems_wait (s : Driver) (base : Nat) (items : List (Nat × Nat)) :
    (s.markItems cfg base items).wait = s.wait := by
  rw [markItems]
  split
  · induction items generalizing s with
    | nil => rfl
    | cons i items ih => exact ih _
  · rfl

/-- A command that waits leaves the rollback point. The others may drop output, but the point moves
behind them. -/
theorem extends_do_cmd (hw : s.wait = false) (c : Command) :
    ((s._do_cmd cfg c).wait = true → Extends cfg s (s._do_cmd cfg c)) ∧
      Extends cfg s { s._do_cmd cfg c with rollback_point := (s._do_cmd cfg c).q_out } := by
  cases c with
  | waits stamp lines =>
    have hext : Extends cfg s (s._do_cmd cfg (.waits stamp lines)) :=
      ((extends_stampCommand s stamp).trans (extends_pushAll _ lines)).trans
        (.same rfl rfl rfl rfl rfl rfl rfl)
    exact ⟨fun _ => hext, ⟨hext.toNotes.trans (.same rfl rfl le_rfl rfl rfl), .inl hext.ahead⟩⟩
  | passes stamp extra clears lines items skip =>
    constructor
    · intro hwait
      simp [_do_cmd, syncQueue, hw] at hwait
    · have hstamp : Extends cfg s (s.stampCommand cfg stamp) := extends_stampCommand s stamp
      have hdrop : Notes cfg (s.stampCommand cfg stamp) { s.stampCommand cfg stamp with
          OUT := if clears then [] else (s.stampCommand cfg stamp).OUT ++ extra } :=
        .same rfl rfl le_rfl rfl rfl
      have hnotes : Notes cfg s (s._do_cmd cfg (.passes stamp extra clears lines items skip)) :=
        (((hstamp.toNotes.trans hdrop).trans (extends_pushAll _ lines).toNotes).trans
          (extends_markItems _ _ items).toNotes).trans (.same rfl rfl le_rfl rfl rfl)
      exact ⟨hnotes.trans (.same rfl rfl le_rfl rfl rfl), .inl hnotes.ahead⟩

theorem extends_remark (s : Driver) (rest : List Line) (last : Option Line) (text : Text) :
    Extends cfg s (s.remark rest last text) where
  toNotes := .same rfl rfl (Nat.le_succ _) rfl rfl
  point := .inl (Nat.le_succ _)

theorem extends_passHarness (ls : List Line) (cmds : List Command) (s : Driver)
    (hw : s.wait = false) : Extends cfg s (passHarness cfg ls cmds s).1 := by
  induction ls generalizing cmds s with
  | nil => exact .refl s
  | cons l rest ih =>
    rw [passHarness]
    split
    · have hcmd := @extends_do_cmd cfg { s with
          IN := rest
          last := some l } hw (cmds.headD (.passes none [] false [] [] none))
      have htake : Extends cfg s { s with
          IN := rest
          last := some l } := .same rfl rfl rfl rfl rfl rfl rfl
      dsimp only
      split
      · rename_i hwait
        exact htake.trans (hcmd.1 hwait)
      · rename_i hwait
        exact (htake.trans hcmd.2).trans (ih _ _ (by simpa using hwait))
    · split
      · exact (extends_remark s rest (some l) l.2).trans (ih _ _ hw)
      · exact .refl s

/-- How a process stands to the statement `b` under way, but for its output. -/
structure Tracks (cfg : Setting) (s : Driver) (b : Begun) : Prop where
  queued : s.last_queue = b.lines ↔ b.whole = true
  sent : s.last_queue ≠ []
  ahead : b.q_out < s.q_out
  quiet : cfg.is_parallel = false → s.time_stmp = b.time_stmp
  stamped : cfg.is_parallel = true → ∃ k st, s.time_stmp k = some st ∧ b.clock ≤ st.time_stmp
  old : ∀ k st, b.time_stmp k = some st → st.time_stmp < b.clock
  clock : b.clock ≤ s.clock

/-- While the rollback point is where the statement began, the output has only grown. -/
def Grown (s : Driver) (b : Begun) : Prop :=
  s.rollback_point = b.q_out → ∃ ls, s.OUT = b.OUT ++ ls ∧ s.q_out = b.q_out + ls.length

/-- What holds in every run. -/
structure Inv (cfg : Setting) (s : Driver) : Prop where
  past : ∀ k st, s.time_stmp k = some st → st.time_stmp < s.clock
  self : s.time_stmp .self = none
  tracks : ∀ b, s.begun = some b → Tracks cfg s b ∧ Grown s b

theorem Inv.extends (h : Inv cfg s) (he : Extends cfg s s') : Inv cfg s' where
  past := by
    intro k st hk
    rcases he.stamps k with hsame | ⟨st', hst', -, hlt⟩
    · exact (h.past k st (hsame ▸ hk)).trans_le he.clock
    · rw [hst'] at hk
      exact Option.some.inj hk ▸ hlt
  self := he.self.trans h.self
  tracks := by
    intro b hb
    obtain ⟨ht, hg⟩ := h.tracks b (he.begun ▸ hb)
    constructor
    · constructor
      case queued => exact he.last_queue ▸ ht.queued
      case sent => exact he.last_queue ▸ ht.sent
      case ahead => exact ht.ahead.trans_le he.ahead
      case quiet => exact fun hp => (he.quiet hp).trans (ht.quiet hp)
      case stamped =>
        intro hp
        obtain ⟨k, st, hk, hle⟩ := ht.stamped hp
        rcases he.stamps k with hsame | ⟨st', hst', hle', -⟩
        · exact ⟨k, st, hsame.trans hk, hle⟩
        · exact ⟨k, st', hst', ht.clock.trans hle'⟩
      case old => exact ht.old
      case clock => exact ht.clock.trans he.clock
    · intro hr
      rcases he.point with hp | ⟨hr', ls', hO', hq'⟩
      · have hahead := ht.ahead
        omega
      · obtain ⟨ls, hO, hq⟩ := hg (hr'.symm.trans hr)
        use ls ++ ls'
        simp [hO', hO, hq', hq, Nat.add_assoc]

theorem Inv.settled (hp : ∀ k st, s.time_stmp k = some st → st.time_stmp < s.clock)
    (hs : s.time_stmp .self = none) (hb : s.begun = none) : Inv cfg s where
  past := hp
  self := hs
  tracks := by simp [hb]

theorem popOuts_eq (n : Nat) (h : n ≤ s.q_out) (hs : s.time_stmp .self = none) :
    popOuts n s = { s with
      q_out := s.q_out - n
      OUT := s.OUT.take (s.OUT.length - n) } := by
  induction n generalizing s with
  | zero => simp [popOuts]
  | succ n ih =>
    have hself : Function.update s.time_stmp .self none = s.time_stmp := by
      conv_lhs => rw [← hs]
      exact Function.update_eq_self _ _
    have hpop : s._pop_out = { s with
        q_out := s.q_out - 1
        OUT := s.OUT.dropLast } := by
      rw [_pop_out, hself]
    have hn : n ≤ s._pop_out.q_out := by
      rw [hpop]
      exact Nat.le_sub_one_of_lt h
    have hlen : min (s.OUT.length - (n + 1)) (s.OUT.length - 1) = s.OUT.length - (n + 1) := by
      omega
    rw [popOuts, ih hn (by simp [hpop, hs]), hpop]
    simp [List.dropLast_eq_take, List.take_take, hlen, Nat.sub_sub, Nat.add_comm 1]

theorem rollback_out_eq (s : Driver) (hs : s.time_stmp .self = none) : s._rollback_out = { s with
    q_out := s.q_out - (s.q_out - s.rollback_point)
    OUT := s.OUT.take (s.OUT.length - (s.q_out - s.rollback_point))
    IN := s.last_queue ++ s.IN
    last_queue := [] } := by
  rw [_rollback_out, popOuts_eq _ (Nat.sub_le _ _) hs]

theorem err_pipe_eq (s : Driver) (hs : s.time_stmp .self = none) : s._err_pipe false = { s with
    q_out := s.q_out - (s.q_out - s.rollback_point)
    OUT := s.OUT.take (s.OUT.length - (s.q_out - s.rollback_point))
    IN := s.last_queue ++ s.IN
    last_queue := []
    last := none
    new_stmt := true
    block := false
    begun := none } := by
  rw [_err_pipe]
  exact rollback_out_eq _ hs

/-- Whether the statement can be executed again is decided by the state when the connection is
lost. -/
theorem Inv.restores (h : Inv cfg s) {b : Begun} (hb : s.begun = some b) :
    Restored b s (s._err_pipe false) ↔ b.whole = true ∧ s.rollback_point = b.q_out ∧
      cfg.is_parallel = false ∧ s.queue = true := by
  obtain ⟨ht, hg⟩ := h.tracks b hb
  have hahead := ht.ahead
  rw [err_pipe_eq s h.self]
  constructor
  · intro hr
    have hIN : s.last_queue = b.lines := List.append_cancel_right hr.IN
    have hpoint : s.rollback_point = b.q_out := by
      have hq := hr.q_out
      dsimp only at hq
      omega
    have hpar : cfg.is_parallel = false := by
      rw [Bool.eq_false_iff]
      intro hp
      obtain ⟨k, st, hk, hle⟩ := ht.stamped hp
      have hts : s.time_stmp = b.time_stmp := hr.time_stmp
      have hlt := ht.old k st (hts ▸ hk)
      omega
    have hqueue : s.queue = true := by
      apply hr.queue.mpr
      simp [ht.sent]
    exact ⟨ht.queued.mp hIN, hpoint, hpar, hqueue⟩
  · rintro ⟨hwhole, hpoint, hpar, hqueue⟩
    obtain ⟨ls, hO, hq⟩ := hg hpoint
    constructor
    case IN => exact congrArg (· ++ s.IN) (ht.queued.mpr hwhole)
    case OUT => simp [hO, hq, hpoint]
    case q_out =>
      dsimp only
      omega
    case time_stmp => exact ht.quiet hpar
    case queue => simp [hqueue, ht.sent]
    case block => rfl

theorem Inv.err_pipe (h : Inv cfg s) (discard : Bool) : Inv cfg (s._err_pipe discard) := by
  cases discard with
  | true => exact .settled h.past h.self rfl
  | false =>
    rw [err_pipe_eq s h.self]
    exact .settled h.past h.self rfl

theorem Inv.finalize (h : Inv cfg s) : Inv cfg s.finalize :=
  h.extends (.same rfl rfl rfl rfl rfl rfl rfl)

theorem Inv.written (h : Inv cfg s) (sent : Bool) : Inv cfg (s.written sent) := by
  have hdone : Inv cfg { s with writing := false } :=
    h.extends (.same rfl rfl rfl rfl rfl rfl rfl)
  have hback : Inv cfg (if sent then { s with writing := false }
      else _err_pipe { s with writing := false } false) := by
    split
    · exact hdone
    · exact hdone.err_pipe false
  rw [Driver.written]
  apply Inv.finalize
  apply hback.extends
  exact .same rfl rfl rfl rfl rfl rfl rfl

/-- How a process stands to a statement that its next line will belong to. -/
structure Joins (cfg : Setting) (s : Driver) (b : Begun) : Prop where
  queued : s.last_queue = b.lines ↔ b.whole = true
  ahead : b.q_out ≤ s.q_out
  quiet : cfg.is_parallel = false → s.time_stmp = b.time_stmp
  old : ∀ k st, b.time_stmp k = some st → st.time_stmp < b.clock
  clock : b.clock ≤ s.clock
  grown : Grown s b

theorem Inv.joins (h : Inv cfg s) : Joins cfg s (s.begun.getD s.snapshot) := by
  cases hb : s.begun with
  | none =>
    constructor
    case queued => simp [snapshot]
    case ahead => exact le_rfl
    case quiet => exact fun _ => rfl
    case old => exact h.past
    case clock => exact le_rfl
    case grown => exact fun _ => ⟨[], by simp [snapshot], rfl⟩
  | some b =>
    obtain ⟨ht, hg⟩ := h.tracks b hb
    exact ⟨ht.queued, ht.ahead.le, ht.quiet, ht.old, ht.clock, hg⟩

theorem queued_add {ls lines : List Line} {w : Bool} (h : ls = lines ↔ w = true) (l : Line)
    (t : Text) : ls ++ [(l.1, t)] = lines ++ [l] ↔ (w && decide (t = l.2)) = true := by
  simp [h, Prod.ext_iff]

/-- The line sent first begins the statement, the others join it. -/
theorem Inv.send (h : Inv cfg s) (l : Line) (data : Text) : Inv cfg (s._send cfg l data) := by
  rw [_send]
  split
  · have hj := h.joins
    generalize s.begun.getD s.snapshot = b at hj
    generalize s.trim cfg l.2 = cut
    dsimp only
    -- the line is put out, and stamped in a parallel test
    generalize hs₁ : { s with
        last := some (l.1, cut.1)
        last_queue := s.last_queue ++ [(l.1, cut.1)]
        length_indent := cut.2.1 }._push_out (chomp cut.2.2) = s₁
    have hstep : Extends cfg s₁
        (if cfg.is_parallel then s₁.setStamp s₁.q_out (some .S) data none else s₁) := by
      split
      · rename_i hpar
        exact extends_setStamp hpar ..
      · exact .refl s₁
    have hstamp : cfg.is_parallel = true → ∃ k st,
        (if cfg.is_parallel then s₁.setStamp s₁.q_out (some .S) data none else s₁).time_stmp k =
          some st ∧ s₁.clock ≤ st.time_stmp := by
      intro hpar
      use .index s₁.q_out, ⟨some .S, s₁.clock, data, none⟩
      simp [hpar, setStamp]
    generalize (if cfg.is_parallel then s₁.setStamp s₁.q_out (some .S) data none else s₁) = s₂
      at hstep hstamp
    subst hs₁
    have hahead : s.q_out + 1 ≤ s₂.q_out := hstep.ahead
    constructor
    case past =>
      intro k st hk
      rcases hstep.stamps k with hsame | ⟨st', hst', -, hlt⟩
      · exact (h.past k st (hsame ▸ hk)).trans_le hstep.clock
      · rw [hst'] at hk
        exact Option.some.inj hk ▸ hlt
    case self => exact hstep.self.trans h.self
    case tracks =>
      intro b' hb'
      obtain rfl := Option.some.inj hb'
      constructor
      · constructor
        case queued => exact hstep.last_queue ▸ queued_add hj.queued l cut.1
        case sent =>
          dsimp only
          rw [hstep.last_queue]
          simp [_push_out]
        case ahead => exact (Nat.lt_succ_of_le hj.ahead).trans_le hahead
        case quiet => exact fun hp => (hstep.quiet hp).trans (hj.quiet hp)
        case stamped =>
          intro hp
          obtain ⟨k, st, hk, hle⟩ := hstamp hp
          exact ⟨k, st, hk, hj.clock.trans hle⟩
        case old => exact hj.old
        case clock => exact hj.clock.trans hstep.clock
      · intro hr
        have hq := hj.ahead
        rcases hstep.point with hp | ⟨hr', ls', hO', hq'⟩
        · have hbehind : s.q_out + 1 ≤ b.q_out := hp.trans hr.le
          omega
        · obtain ⟨ls, hO, hq⟩ := hj.grown (hr'.symm.trans hr)
          use ls ++ [chomp cut.2.2] ++ ls'
          simp [hO', hq', _push_out, hO, hq, Begun.add]
          omega
  · constructor
    case past => exact h.past
    case self => exact h.self
    case tracks =>
      intro b' hb'
      obtain ⟨b, hb, rfl⟩ := Option.map_eq_some_iff.mp hb'
      obtain ⟨ht, hg⟩ := h.tracks b hb
      constructor
      · constructor
        case queued => simpa [Begun.add] using ht.queued
        case sent => simp
        case ahead => exact ht.ahead
        case quiet => exact ht.quiet
        case stamped => exact ht.stamped
        case old => exact ht.old
        case clock => exact ht.clock
      · exact hg

theorem Inv.do_block (h : Inv cfg s) (cmds : List Command) (expanded : Text → Text) :
    Inv cfg (s._do_block cfg cmds expanded) := by
  rw [_do_block]
  split
  · rename_i hready
    have hpass : Inv cfg (if s.IN.isEmpty then (s.remark [] none [], false)
        else s.passHarness cfg s.IN cmds).1 := by
      split
      · exact h.extends (extends_remark s [] none [])
      · exact h.extends (extends_passHarness s.IN cmds s hready.2.2)
    generalize (if s.IN.isEmpty then (s.remark [] none [], false)
      else s.passHarness cfg s.IN cmds) = r at hpass
    dsimp only
    split
    · exact hpass
    · split
      · exact hpass.finalize
      · apply Inv.send
        apply hpass.extends
        exact .same rfl rfl rfl rfl rfl rfl rfl
  · exact h.finalize

theorem extends_restamp (hpar : cfg.is_parallel = true) (s : Driver) : Extends cfg s s.restamp :=
  extends_setStamp hpar ..

theorem Inv.do_wait (h : Inv cfg s) (cmds : List Command) (expanded : Text → Text) :
    Inv cfg (s._do_wait cfg cmds expanded) := by
  rw [_do_wait]
  split
  · rename_i hpar
    exact (h.extends (extends_restamp hpar.1 s)).do_block cmds expanded
  · exact h.do_block cmds expanded

theorem Inv.timeout_cb (h : Inv cfg s) (mess : Text) (cmds : List Command)
    (expanded : Text → Text) : Inv cfg (s._timeout_cb cfg mess cmds expanded) := by
  have hstamp : Inv cfg (if cfg.is_parallel then s.restamp else s) := by
    split
    · rename_i hpar
      exact h.extends (extends_restamp hpar s)
    · exact h
  have hput := hstamp.extends (extends_push_out _ mess)
  rw [_timeout_cb]
  apply Inv.do_block
  apply hput.extends
  exact .same rfl rfl rfl rfl rfl rfl rfl

theorem Inv.callback_read_handle (h : Inv cfg s) (data : Text) :
    Inv cfg (s.callback_read_handle cfg data) := by
  rw [Driver.callback_read_handle]
  dsimp only
  have hstamp : Inv cfg (if cfg.is_parallel ∧ s.result_receiving = false then
      { s.setStamp (s.q_out + 1) (some .R) [] none with result_receiving := true } else s) := by
    split
    · rename_i hpar
      apply h.extends
      apply (extends_setStamp hpar.1 ..).trans
      exact .same rfl rfl rfl rfl rfl rfl rfl
    · exact h
  generalize (if cfg.is_parallel ∧ s.result_receiving = false then
      { s.setStamp (s.q_out + 1) (some .R) [] none with result_receiving := true } else s) = s₁
    at hstamp ⊢
  have hprompt : Inv cfg (if expectFirst (s.BufferIN ++ data) then
      { s₁ with
        new_stmt := true
        rollback_point := s₁.q_out
        last_queue := []
        begun := none }
      else { s₁ with new_stmt := false }) := by
    split
    · exact .settled hstamp.past hstamp.self rfl
    · apply hstamp.extends
      exact .same rfl rfl rfl rfl rfl rfl rfl
  generalize (if expectFirst (s.BufferIN ++ data) then
      { s₁ with
        new_stmt := true
        rollback_point := s₁.q_out
        last_queue := []
        begun := none }
      else { s₁ with new_stmt := false }) = s₂ at hprompt ⊢
  split
  · have hopen : Inv cfg { s₂ with
        block := false
        BufferIN := [] } := by
      apply hprompt.extends
      exact .same rfl rfl rfl rfl rfl rfl rfl
    split
    · exact hopen
    · exact hopen.extends (extends_pushAll _ _)
  · split
    · exact hprompt
    · apply (hprompt.extends (extends_pushAll _ _)).extends
      exact .same rfl rfl rfl rfl rfl rfl rfl

theorem Inv.discard (ls : List Line) (h : Inv cfg s) : Inv cfg (s.discard ls) := by
  fun_induction Driver.discard ls s with
  | case1 l l' ls s =>
    apply h.extends
    exact .same rfl rfl rfl rfl rfl rfl rfl
  | case2 l l' ls s hsec ih =>
    apply ih
    split
    · exact h
    · exact h.extends (extends_pushAll s _)
  | case3 =>
    apply h.extends
    exact .same rfl rfl rfl rfl rfl rfl rfl

theorem Inv.killed (h : Inv cfg s) : Inv cfg (s.killed cfg) :=
  (((h.err_pipe true).extends (extends_push_out _ _)).discard _).extends (extends_markItems ..)

theorem Inv.receive (h : Inv cfg s) (data : Option Text) : Inv cfg (s.receive cfg data) := by
  cases data with
  | none => exact h.err_pipe false
  | some data =>
    rw [Driver.receive]
    split
    · exact h.err_pipe false
    · exact h.callback_read_handle data

theorem Inv.event (h : Inv cfg s) {e : Event} (hs : s.event cfg e = some s') : Inv cfg s' := by
  have hfree : ∀ t, Driver.event.unlessBusy s t = some s' → Inv cfg t → Inv cfg s' := by
    intro t ht hinv
    rw [event.unlessBusy] at ht
    split at ht
    · cases ht
    · exact Option.some.inj ht ▸ hinv
  cases e with
  | written sent =>
    rw [Driver.event] at hs
    split at hs
    · exact Option.some.inj hs ▸ h.written sent
    · cases hs
  | do_block cmds expanded => exact hfree _ hs (h.do_block cmds expanded)
  | receive data => exact hfree _ hs (h.receive data)
  | released =>
    rw [Driver.event] at hs
    split at hs
    · apply hfree _ hs
      apply h.extends
      exact .same rfl rfl rfl rfl rfl rfl rfl
    · cases hs
  | do_wait cmds expanded =>
    rw [Driver.event] at hs
    split at hs
    · cases hs
    · exact hfree _ hs (h.do_wait cmds expanded)
  | timeout mess cmds expanded => exact hfree _ hs (h.timeout_cb mess cmds expanded)
  | killed => exact hfree _ hs h.killed

theorem inv_of_reachable {before : Driver} {IN : List Line}
    (h : (machine cfg before IN).Reachable s) : Inv cfg s := by
  apply h.invariant
  · exact .settled (by simp [machine, started]) rfl rfl
  · intro s e s' hs _ hstep
    exact hs.event hstep

/-- At every point of every run, a statement that is under way when the connection is lost can be
executed again just if its lines were kept as the script has them, the rollback point stands where
it began, the test is not parallel, and the QUEUE bit is still set. -/
theorem restored_iff (cfg : Setting) (before : Driver) (IN : List Line) (s : Driver)
    (h : (machine cfg before IN).Reachable s) (b : Begun) (hb : s.begun = some b) :
    Restored b s (s._err_pipe false) ↔ b.whole = true ∧ s.rollback_point = b.q_out ∧
      cfg.is_parallel = false ∧ s.queue = true :=
  (inv_of_reachable h).restores hb

end Invariant

section Scripts

/-- A process that has not executed a script. -/
def new : Driver where
  IN := []
  OUT := []
  q_out := 0
  rollback_point := 0
  last := none
  last_queue := []
  new_stmt := true
  length_indent := none
  block := false
  queue := false
  wait := false
  time_stmp := fun _ => none
  clock := 0
  result_receiving := false
  BufferIN := []
  _skip := false
  begun := none
  writing := false
  finished := false

def serial : Setting := ⟨['$', 'P', '0', '>', ' '], false, []⟩

/-- A statement of two lines. -/
def twoLines : List Line := [(1, ['a', '\n']), (2, ['b', ';', '\n'])]

/-- Both lines are sent and the server dies. -/
def bothSent : List Event :=
  [.released, .do_wait [] id, .written true, .receive (some "iSQL2 ".toList), .do_block [] id,
    .written true]

/-- The last statement of a script is put back, but the QUEUE bit has been cleared with its last
line. -/
theorem last_statement_lost : ¬∀ (cfg : Setting) (before : Driver) (IN : List Line) (s : Driver),
    (machine cfg before IN).Reachable s → ∀ b, s.begun = some b →
      Restored b s (s._err_pipe false) := by
  intro hall
  obtain ⟨s, hs, hlost⟩ := Machine.exists_reach_of_exec (machine serial new twoLines)
    (fun _ _ => true) (fun s => s.begun.isSome && !s.queue) bothSent (by decide)
  rw [Bool.and_eq_true, Bool.not_eq_true'] at hlost
  have hreach : (machine serial new twoLines).Reachable s := hs.mono fun _ _ _ => trivial
  obtain ⟨b, hb⟩ := Option.isSome_iff_exists.mp hlost.1
  have hres := ((inv_of_reachable hreach).restores hb).mp (hall _ _ _ s hreach b hb)
  rw [hres.2.2.2] at hlost
  cases hlost.2

/-- One line of the two is sent. -/
def oneSent : List Event := [.released, .do_wait [] id, .written true]

theorem first_line_restored : ∃ b s, (machine serial new twoLines).Reachable s ∧
    s.begun = some b ∧ Restored b s (s._err_pipe false) := by
  obtain ⟨s, hs, hsent⟩ := Machine.exists_reach_of_exec (machine serial new twoLines)
    (fun _ _ => true) (fun s => s.queue && s.begun.any fun b =>
      b.whole && s.rollback_point == b.q_out) oneSent (by decide)
  have hreach : (machine serial new twoLines).Reachable s := hs.mono fun _ _ _ => trivial
  rw [Bool.and_eq_true, Option.any_eq_true] at hsent
  obtain ⟨hqueue, b, hb, hkept⟩ := hsent
  rw [Bool.and_eq_true, beq_iff_eq] at hkept
  exact ⟨b, s, hreach, hb,
    (restored_iff serial new twoLines s hreach b hb).mpr ⟨hkept.1, hkept.2, rfl, hqueue⟩⟩

end Scripts

end Driver

end Natc.Harness
