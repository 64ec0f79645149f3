import Natc.Ats.ParseTable
import Natc.Lib.Machine
import Natc.Lib.Stream

/-!
# The pipe to isql

`AltibaseHandler::execute` writes one command to isql and reads the answer from a pipe, line by
line, up to the line with the marker. Its read loop has other exits, and what they leave unread is
what the next command finds first.
-/

namespace Natc.Ats

open Lib

/-- The marker isql prints on a line of its own behind the output of a command. -/
def eofMarker : Text := "$$EOF$$".toList

def lostSession : Text := "ERR-91015".toList

/-- `fgets` with `SChar sBuffer[65536 * 2]` reads one byte less. -/
def bufferRoom : Nat := 65536 * 2 - 1

/-- How `select` returns. -/
inductive Select where
  | ready | timeout | error
  deriving DecidableEq, Repr

/-- One command and what its surroundings do: the output of isql for it and how that arrives, the
return of `select`, and, when an `fgets` fails, how many succeed before and whether `errno` is 32
or 29. isql prints text, so no byte of it is zero. -/
structure Turn where
  buffer : Text
  kind : CommandKind
  output : Text
  cuts : List Nat
  select : Select
  failure : Option (Nat × Bool)

/-- What isql writes for a command. -/
def Turn.answer (t : Turn) : Text := t.output ++ (eofMarker ++ ['\n'])

/-- The fields of `AltibaseHandler` that `execute` uses. -/
structure AltibaseHandler where
  mProcessNum : Text
  mRealQuery : Text
  mIsqlReadTimeout : Nat
  mQueryString : Text
  mResultString : Text
  isqlIn : List Text
  deriving DecidableEq, Repr

/-- The statement with its end, as it is shown. -/
def terminate (kind : CommandKind) (buffer : Text) : Text :=
  match kind with
  | .createProcCom | .printCom | .symbolCom => buffer ++ "\n".toList
  | _ =>
      if buffer.getLast? = some ';' then buffer ++ "\n".toList
      else buffer ++ ";\n".toList

/-- What is written to isql: a CREATE is sent with its server aliases replaced. -/
def sentText (h : AltibaseHandler) (kind : CommandKind) (buffer : Text) : Text :=
  match kind with
  | .createObjCom => h.mRealQuery ++ ";\n".toList
  | _ => terminate kind buffer

def noConnection : Text := "[ERR-91020 : No Connection State]\n".toList

/-- The `while( 1 )` of `execute`, with the number of rounds as fuel: the result string and the
pipe it leaves, `none` while it waits for isql. -/
def readLoop : Nat → Option (Nat × Bool) → Text → List Text → Option (Text × List Text)
  | 0, _, _, _ => none
  | _ + 1, some (0, broken), result, pipe => some (if broken then noConnection else result, pipe)
  | fuel + 1, failure, result, pipe =>
      (fgets bufferRoom pipe).bind fun line =>
        if eofMarker <:+: line.1 then some (result, line.2)
        else if lostSession <:+: line.1 then some (result ++ line.1, line.2)
        else readLoop fuel (failure.map fun f => (f.1 - 1, f.2)) (result ++ line.1) line.2

/-- `AltibaseHandler::execute`. Without a timeout `select` waits for isql. -/
def AltibaseHandler.execute (h : AltibaseHandler) (t : Turn) : Option AltibaseHandler :=
  let pipe := h.isqlIn ++ chunked t.cuts t.answer
  let done (out : Text × List Text) : AltibaseHandler := { h with
    mQueryString := "$".toList ++ h.mProcessNum ++ "> ".toList ++ terminate t.kind t.buffer
    mResultString := out.1.dropLast
    isqlIn := out.2 }
  match t.select with
  | .ready => (readLoop (pipe.flatten.length + 1) t.failure [] pipe).map done
  | .timeout => if h.mIsqlReadTimeout = 0 then none else some (done ([], pipe))
  | .error => some (done ([], pipe))

/-- A session and the outputs and results of its commands, in order. -/
structure Session where
  handler : AltibaseHandler
  log : List (Text × Text)
  deriving DecidableEq, Repr

def Session.step (s : Session) (t : Turn) : Option Session :=
  (s.handler.execute t).map fun h => ⟨h, s.log ++ [(t.output, h.mResultString)]⟩

/-- A session behind `logon`, whose `ping` has read everything. -/
def session (process realQuery : Text) (timeout : Nat) : Machine Session Turn where
  start := ⟨⟨process, realQuery, timeout, [], [], []⟩, []⟩
  step := Session.step

/-- The result is the output without its last newline. -/
def Exact (output result : Text) : Prop :=
  output = result ++ ['\n'] ∨ output = [] ∧ result = []

instance (output result : Text) : Decidable (Exact output result) := by
  unfold Exact
  infer_instance

/-- The results are those of their own commands, and nothing is left for a later one. -/
def Framed (s : Session) : Prop :=
  (∀ a ∈ s.log, Exact a.1 a.2) ∧ s.handler.isqlIn.flatten = []

/-- The pieces of the output that `fgets` returns. -/
def Turn.lines (t : Turn) : List Text := takeLines bufferRoom t.output.length t.output

/-- The read loop leaves through the marker line of the command itself: `select` reports data, no
read up to the marker line fails, the output consists of lines, and no piece of it that `fgets`
returns contains the marker or the text of error 91015. -/
def Turn.undisturbed (t : Turn) : Bool :=
  t.select = .ready ∧ (∀ f ∈ t.failure, t.lines.length < f.1) ∧ Terminated t.output ∧
    ∀ line ∈ t.lines, ¬ eofMarker <:+: line ∧ ¬ lostSession <:+: line

private theorem fgets_marker {pipe : List Text} (h : pipe.flatten = eofMarker ++ ['\n']) :
    ∃ pipe', fgets bufferRoom pipe = some (eofMarker ++ ['\n'], pipe') ∧ pipe'.flatten = [] := by
  have hline : takeLine bufferRoom pipe.flatten = some (eofMarker ++ ['\n'], []) := by
    rw [h]
    exact takeLine_short (by decide) (by decide) []
  exact fgets_of_takeLine hline

/-- A failing read later than the first one. -/
private theorem readLoop_next {fuel : Nat} {failure : Option (Nat × Bool)} {result line : Text}
    {pipe pipe' : List Text} (hget : fgets bufferRoom pipe = some (line, pipe'))
    (hfail : ∀ f ∈ failure, 0 < f.1) :
    readLoop (fuel + 1) failure result pipe =
      if eofMarker <:+: line then some (result, pipe')
      else if lostSession <:+: line then some (result ++ line, pipe')
      else readLoop fuel (failure.map fun f => (f.1 - 1, f.2)) (result ++ line) pipe' := by
  match failure, hfail with
  | none, _ => simp [readLoop, hget]
  | some (0, _), hfail => exact absurd (hfail _ rfl) (by simp)
  | some (n + 1, _), _ => simp [readLoop, hget]

/-- The first line of an output with at least one line, and what the pipe holds behind it. -/
private theorem fgets_output {output : Text} {pipe : List Text}
    (hpipe : pipe.flatten = output ++ (eofMarker ++ ['\n'])) (hend : Terminated output)
    (hne : output ≠ []) :
    ∃ line rest pipe', takeLine bufferRoom output = some (line, rest) ∧ output = line ++ rest ∧
      rest.length < output.length ∧ Terminated rest ∧ fgets bufferRoom pipe = some (line, pipe') ∧
      pipe'.flatten = rest ++ (eofMarker ++ ['\n']) := by
  obtain ⟨line, rest, htake, hrest⟩ := exists_takeLine (n := bufferRoom) hend hne
  obtain ⟨pipe', hget, hleft⟩ := fgets_of_takeLine (hpipe ▸ takeLine_append htake _)
  have hpart := takeLine_append_eq htake
  have hpos := List.length_pos_of_ne_nil (takeLine_ne_nil htake)
  have hlen : output.length = line.length + rest.length := by rw [hpart, List.length_append]
  exact ⟨line, rest, pipe', htake, hpart, by omega, hrest, hget, hleft⟩

/-- The read loop on a pipe that holds nothing but one answer. -/
theorem readLoop_answer (fuel k : Nat) (failure : Option (Nat × Bool)) (output result : Text)
    (pipe : List Text) (hpipe : pipe.flatten = output ++ (eofMarker ++ ['\n']))
    (hk : output.length ≤ k) (hfuel : output.length < fuel) (hend : Terminated output)
    (hfail : ∀ f ∈ failure, (takeLines bufferRoom k output).length < f.1)
    (hclean : ∀ line ∈ takeLines bufferRoom k output,
      ¬ eofMarker <:+: line ∧ ¬ lostSession <:+: line) :
    ∃ pipe', readLoop fuel failure result pipe = some (result ++ output, pipe') ∧
      pipe'.flatten = [] := by
  induction fuel generalizing k failure output result pipe with
  | zero => omega
  | succ fuel ih =>
    have hpos : ∀ f ∈ failure, 0 < f.1 := fun f hf => Nat.zero_lt_of_lt (hfail f hf)
    by_cases hne : output = []
    · subst hne
      obtain ⟨pipe', hget, hrest⟩ := fgets_marker hpipe
      have hmark : eofMarker <:+: eofMarker ++ ['\n'] := (List.prefix_append _ _).isInfix
      exact ⟨pipe', by simp [readLoop_next hget hpos, hmark], hrest⟩
    · obtain ⟨line, rest, pipe', htake, hpart, hlt, hrest, hget, hleft⟩ :=
        fgets_output hpipe hend hne
      cases k with
      | zero => omega
      | succ k =>
        simp only [takeLines, htake, Option.elim_some, List.mem_cons, forall_eq_or_imp,
          List.length_cons] at hclean hfail
        have hfail' : ∀ f ∈ failure.map fun f => (f.1 - 1, f.2),
            (takeLines bufferRoom k rest).length < f.1 := by
          intro f hf
          obtain ⟨g, hg, rfl⟩ := Option.map_eq_some_iff.mp hf
          have hg := hfail g hg
          exact Nat.lt_sub_of_add_lt hg
        obtain ⟨pipe'', hloop, hdone⟩ := ih k _ rest (result ++ line) pipe' hleft (by omega)
          (by omega) hrest hfail' hclean.2
        refine ⟨pipe'', ?_, hdone⟩
        rw [readLoop_next hget hpos, if_neg hclean.1.1, if_neg hclean.1.2, hloop, hpart,
          List.append_assoc]

/-- Only through the marker line behind the output does the read loop leave nothing unread. -/
theorem readLoop_leaves (fuel k : Nat) (failure : Option (Nat × Bool)) (output result : Text)
    (pipe : List Text) (out : Text × List Text)
    (hpipe : pipe.flatten = output ++ (eofMarker ++ ['\n'])) (hk : output.length ≤ k)
    (hend : Terminated output) (hloop : readLoop fuel failure result pipe = some out)
    (hempty : out.2.flatten = []) :
    (∀ f ∈ failure, (takeLines bufferRoom k output).length < f.1) ∧
      ∀ line ∈ takeLines bufferRoom k output,
        ¬ eofMarker <:+: line ∧ ¬ lostSession <:+: line := by
  induction fuel generalizing k failure output result pipe with
  | zero => cases hloop
  | succ fuel ih =>
    have hpos : ∀ f ∈ failure, 0 < f.1 := by
      rintro ⟨n, broken⟩ hf
      cases Option.mem_def.mp hf
      cases n with
      | zero =>
        obtain rfl : (_, pipe) = out := by simpa [readLoop] using hloop
        simp [hpipe] at hempty
      | succ n => exact Nat.succ_pos n
    by_cases hne : output = []
    · subst hne
      have hlines : takeLines bufferRoom k [] = [] := by
        cases k <;> rfl
      rw [hlines]
      exact ⟨hpos, by simp⟩
    · obtain ⟨line, rest, pipe', htake, _, hlt, hrest, hget, hleft⟩ :=
        fgets_output hpipe hend hne
      cases k with
      | zero => omega
      | succ k =>
        rw [readLoop_next hget hpos] at hloop
        simp only [takeLines, htake, Option.elim_some, List.mem_cons, forall_eq_or_imp,
          List.length_cons]
        split at hloop
        · obtain rfl : (result, pipe') = out := Option.some.inj hloop
          simp [hleft] at hempty
        · split at hloop
          · obtain rfl : (result ++ line, pipe') = out := Option.some.inj hloop
            simp [hleft] at hempty
          · rename_i hmark herr
            obtain ⟨hfail, hclean⟩ := ih k _ rest _ pipe' hleft (by omega) hrest hloop
            refine ⟨fun f hf => ?_, ⟨hmark, herr⟩, hclean⟩
            have hf' := hfail (f.1 - 1, f.2) (Option.map_eq_some_iff.mpr ⟨f, hf, rfl⟩)
            have := hpos f hf
            omega

private theorem exact_dropLast {output : Text} (h : Terminated output) :
    Exact output output.dropLast := by
  cases output using List.reverseRecOn with
  | nil => exact .inr ⟨rfl, rfl⟩
  | append_singleton init c =>
    have hc : c = '\n' := h c (by simp)
    exact .inl (by simp [hc])

private theorem pipe_of_framed {s : Session} (h : Framed s) (t : Turn) :
    (s.handler.isqlIn ++ chunked t.cuts t.answer).flatten =
      t.output ++ (eofMarker ++ ['\n']) := by
  rw [List.flatten_append, h.2, List.nil_append, flatten_chunked, Turn.answer]

/-- On an empty pipe a command is framed exactly when it is read undisturbed. -/
theorem framed_step_iff {s s' : Session} {t : Turn} (h : Framed s) (hs : s.step t = some s') :
    Framed s' ↔ t.undisturbed := by
  have hpipe := pipe_of_framed h t
  simp only [Turn.undisturbed, Bool.decide_and, Bool.and_eq_true, decide_eq_true_eq]
  obtain ⟨handler, hexec, rfl⟩ := Option.map_eq_some_iff.mp hs
  unfold AltibaseHandler.execute at hexec
  constructor
  · rintro ⟨hlog, hempty⟩
    have hexact : Exact t.output handler.mResultString :=
      hlog (t.output, handler.mResultString) (by simp)
    have hend : Terminated t.output := by
      rcases hexact with heq | ⟨heq, _⟩ <;> simp [heq, Terminated]
    cases hselect : t.select with
    | ready =>
      simp only [hselect, Option.map_eq_some_iff] at hexec
      obtain ⟨out, hloop, rfl⟩ := hexec
      obtain ⟨hfail, hclean⟩ := readLoop_leaves _ _ _ _ _ _ _ hpipe le_rfl hend hloop hempty
      exact ⟨rfl, hfail, hend, hclean⟩
    | timeout =>
      simp only [hselect] at hexec
      split at hexec
      · cases hexec
      · cases hexec
        simp [hpipe] at hempty
    | error =>
      simp only [hselect, Option.some.injEq] at hexec
      subst hexec
      simp [hpipe] at hempty
  · rintro ⟨hselect, hfail, hend, hclean⟩
    obtain ⟨pipe', hloop, hleft⟩ := readLoop_answer
      ((s.handler.isqlIn ++ chunked t.cuts t.answer).flatten.length + 1) _ _ _ [] _ hpipe le_rfl
      (by rw [hpipe, List.length_append]; omega) hend hfail hclean
    simp only [hselect, hloop, Option.map_some, Option.some.injEq, List.nil_append] at hexec
    subst hexec
    refine ⟨fun a ha => ?_, hleft⟩
    rcases List.mem_append.mp ha with ha | ha
    · exact h.1 a ha
    · obtain rfl := List.mem_singleton.mp ha
      exact exact_dropLast hend

/-- Along a session that runs to its end, however isql's output is cut into chunks, every result
is the output of its own command and nothing is left unread, exactly when every command is read
undisturbed. -/
theorem framed_throughout_iff (process realQuery : Text) (timeout : Nat) (ts : List Turn)
    (h : (Machine.exec (fun _ _ => true) Session.step (session process realQuery timeout).start
      ts).isSome) :
    Machine.Throughout Framed Session.step (session process realQuery timeout).start ts ↔
      ∀ t ∈ ts, t.undisturbed :=
  Machine.throughout_iff (fun _ _ _ hs hstep => framed_step_iff hs hstep)
    ⟨by simp [session], rfl⟩ ts h

section Timeout

/-- A SELECT that answers after the timeout. -/
def lateTurn : Turn :=
  ⟨"SELECT 1 FROM DUAL".toList, .selectCom, "1 row selected.\n".toList, [], .timeout, none⟩

/-- The command behind it. -/
def nextTurn : Turn :=
  ⟨"SELECT 2 FROM DUAL".toList, .selectCom, "2 rows selected.\n".toList, [5], .ready, none⟩

/-- The second command gets the output of the first one. -/
theorem framing_lost_by_timeout :
    ∃ s, (session "P1".toList [] 60).Reachable s ∧
      s.log = [("1 row selected.\n".toList, []),
        ("2 rows selected.\n".toList, "1 row selected.".toList)] ∧ ¬ Framed s := by
  obtain ⟨s, hs, hlog⟩ := Machine.exists_reach_of_exec (session "P1".toList [] 60)
    (fun _ _ => true)
    (fun s => s.log = [("1 row selected.\n".toList, []),
      ("2 rows selected.\n".toList, "1 row selected.".toList)]) [lateTurn, nextTurn] (by decide)
  simp only [decide_eq_true_eq] at hlog
  refine ⟨s, hs.mono fun _ _ _ => trivial, hlog, fun h => ?_⟩
  have hsecond := h.1 ("2 rows selected.\n".toList, "1 row selected.".toList) (by simp [hlog])
  revert hsecond
  decide

/-- Two commands read undisturbed, the answer of each in two chunks. -/
theorem framed_throughout_next :
    Machine.Throughout Framed Session.step (session "P1".toList [] 60).start
      [nextTurn, nextTurn] := by
  refine (framed_throughout_iff "P1".toList [] 60 [nextTurn, nextTurn] (by decide)).mpr ?_
  intro t ht
  obtain rfl : t = nextTurn := by simpa using ht
  decide

end Timeout

end Natc.Ats
