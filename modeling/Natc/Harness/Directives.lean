import Natc.Harness.Reconnect
import Natc.Lib.Backtrack

/-!
# Directives of a script

The parser of `ParseSQL.pm` makes Perl source of a line `--+COMMAND args;text`, a call with two
strings in single quotes. `ExecSQL.pm` evaluates it; the handler puts a line of the same form into
the queue of a process, and `isql.pm` takes that one apart by a pattern.
-/

namespace Natc.Harness.Directives

open Lib

attribute [local instance] lawfulBEq_text

/-- The commands that have a handler in `ExecSQL.pm` which hands them on. -/
inductive Command where
  | SYSTEM | KILL_CLIENT | PRINT | IGNORE | SECTOR
  deriving DecidableEq, Repr

def Command.name : Command → Text
  | SYSTEM => ['S', 'Y', 'S', 'T', 'E', 'M']
  | KILL_CLIENT => ['K', 'I', 'L', 'L', '_', 'C', 'L', 'I', 'E', 'N', 'T']
  | PRINT => ['P', 'R', 'I', 'N', 'T']
  | IGNORE => ['I', 'G', 'N', 'O', 'R', 'E']
  | SECTOR => ['S', 'E', 'C', 'T', 'O', 'R']

def commands : List Command := [.SYSTEM, .KILL_CLIENT, .PRINT, .IGNORE, .SECTOR]

/-- `\w`. -/
def word (c : Char) : Bool := c.isAlphanum || c == '_'

/-- `s/\'/+"/g`. -/
def quote : Text → Text
  | [] => []
  | c :: cs => if c = '\'' then '+' :: '"' :: quote cs else c :: quote cs

/-- `s/\+"/'/g`. -/
def unquote : Text → Text
  | '+' :: '"' :: cs => '\'' :: unquote cs
  | c :: cs => c :: unquote cs
  | [] => []

/-- `s/^\s+|\s+$//g`. -/
def bare (t : Text) : Text := stripWith white t

/-- The mark of a directive is cut off: `^\s*\-\-\+\s*`, and what follows. -/
def unmarked (t : Text) : Option Text :=
  if ['-', '-', '+'].isPrefixOf (t.dropWhile white) then
    some (((t.dropWhile white).drop 3).dropWhile white)
  else none

/-- `_parse_str`, for a directive that has a semicolon; other lines stay as they are. Without a
semicolon the last two matches are those of an earlier pattern. -/
def _parse_str (line : Text) : Option Text :=
  match unmarked line with
  | none => some line
  | some t =>
    if t.takeWhile word = [] then some line
    else
      let t_cmd := line.take (line.length - (t.dropWhile word).length)
      let t_arg1 := t.dropWhile word
      let t_arg1 := if Command.SECTOR.name <:+: t_cmd then quote t_arg1 else t_arg1
      let s := t_cmd.map Char.toUpper ++ [' ', '(', '\''] ++ t_arg1
      if ';' ∈ s then
        some ((s.takeWhile (· ≠ ';')).rdropWhile white ++ ['\'', ',', '\''] ++
          (s.dropWhile (· ≠ ';')).tail ++ ['\'', ')', ';', '\n'])
      else none

/-- `$parm || ''`. -/
def orEmpty (t : Text) : Text := if truthy t then t else []

def entry (c : Command) (parm mess : Text) : Text :=
  ['-', '-', '+'] ++ c.name ++ ' ' :: parm ++ ';' :: mess

def ts_SYSTEM (parm mess : Text) : Text := entry .SYSTEM (bare parm) mess

def ts_KILL_CLIENT (parm mess : Text) : Text := entry .KILL_CLIENT (bare parm) mess

def ts_PRINT (parm mess : Text) : Text := entry .PRINT parm (orEmpty mess ++ [' '])

def ts_IGNORE (parm mess : Text) : Text := entry .IGNORE (orEmpty parm) (orEmpty mess ++ [' '])

/-- The sector gets its number, with the parameter behind it. -/
def ts_SECTOR (q_sct : Nat) (parm mess : Text) : Text :=
  entry .SECTOR (Nat.toDigits 10 q_sct ++ if truthy parm then ',' :: parm else []) (orEmpty mess)

/-- The line that the handler puts into the queue of a process. -/
def Command.handler (c : Command) (q_sct : Nat) : Text → Text → Text :=
  match c with
  | SYSTEM => ts_SYSTEM
  | KILL_CLIENT => ts_KILL_CLIENT
  | PRINT => ts_PRINT
  | IGNORE => ts_IGNORE
  | SECTOR => ts_SECTOR q_sct

/-- `ExecSQL::_do_cmd`. `perl` tells the arguments that the call with this source behind the name
of the method passes, `none` if it is not made. -/
def exec_do_cmd (perl : Text → Option (List Text)) (q_sct : Nat) (cmd : Text) : Option Text :=
  (commands.find? fun c => c.name = cmd.takeWhile word).bind fun c =>
    (perl (cmd.dropWhile word)).map fun vs =>
      c.handler q_sct (vs.getD 0 []) (vs.getD 1 [])

/-- A line of the script on its way to the queue of a process. -/
def queued (perl : Text → Option (List Text)) (q_sct : Nat) (line : Text) : Option Text :=
  ((_parse_str line).bind unmarked).bind (exec_do_cmd perl q_sct)

/-- `(\'[\s\S]+\'|[\S\s]+)?`. -/
def groups (t : Text) : List (Option Text × Text) :=
  (match t with
    | '\'' :: u => (plus (fun _ => true) u).filterMap fun m =>
        match m.2 with
        | '\'' :: v => some (some ('\'' :: m.1 ++ ['\'']), v)
        | _ => none
    | _ => []) ++
  (plus (fun _ => true) t).map (fun m => (some m.1, m.2)) ++ [(none, t)]

/-- `\s*;` behind the group `g`. -/
def semicolon {γ : Type} (g : γ) (t : Text) : Option (γ × Text) :=
  (star white t).findSome? fun m =>
    match m.2 with
    | ';' :: rest => some (g, rest)
    | _ => none

/-- `/(^\w+)\s*(\'[\s\S]+\'|[\S\s]+)?\s*;/`: the two groups and what follows. -/
def commandPattern (t : Text) : Option (Text × Option Text × Text) :=
  (plus word t).findSome? fun w =>
    (star white w.2).findSome? fun m =>
      ((groups m.2).findSome? fun g => semicolon g.1 g.2).map fun r => (w.1, r)

structure Prm where
  prm : Text
  desc : Text
  deriving DecidableEq

/-- `isql::_do_cmd`, up to the call of the handler: its name and the parameters it gets. Without a
match the groups are those of an earlier pattern. -/
def isql_do_cmd (new_stmt : Bool) (cmd : Text) : Option (Text × Prm) :=
  let cmd := if new_stmt then cmd.dropWhile white else cmd
  (commandPattern (unquote cmd)).map fun (ts_command, group, behind) =>
    let prm := group.getD []
    let desc := orEmpty behind
    if Command.SECTOR.name <:+: ts_command ∧ ';' ∈ prm then
      (ts_command, ⟨prm.takeWhile (· ≠ ';'), (prm.dropWhile (· ≠ ';')).tail ++ ';' :: desc⟩)
    else (ts_command, ⟨prm, desc⟩)

/-- What a process does with a line of its queue. -/
def received (new_stmt : Bool) (line : Text) : Option (Text × Prm) :=
  (unmarked line).bind fun t => isql_do_cmd new_stmt (chomp t)

/-! ## Perl -/

/-- The value of a string in single quotes, from behind the first one on, and what follows it. -/
def literal : Text → Option (Text × Text)
  | [] => none
  | '\'' :: r => some ([], r)
  | '\\' :: '\\' :: r => (literal r).map fun m => ('\\' :: m.1, m.2)
  | '\\' :: '\'' :: r => (literal r).map fun m => ('\'' :: m.1, m.2)
  | c :: r => (literal r).map fun m => (c :: m.1, m.2)

/-- Strings in single quotes up to the end of the call. -/
def arguments : Nat → Text → Option (List Text)
  | fuel + 1, '\'' :: t =>
    (literal t).bind fun m =>
      match m.2 with
      | ',' :: r => (arguments fuel r).map (m.1 :: ·)
      | ')' :: ';' :: r => if r.all white then some [m.1] else none
      | _ => none
  | _, _ => none

/-- A call whose arguments are strings in single quotes. -/
def stringCall (src : Text) : Option (List Text) :=
  match src.dropWhile white with
  | '(' :: t => arguments t.length t
  | _ => none

def operators : List Text :=
  ["x", "lt", "gt", "le", "ge", "eq", "ne", "cmp", "isa", "and", "or", "xor", "if", "unless",
    "while", "until", "for", "foreach", "when"].map String.toList

/-- What cannot follow a string: a quote, a variable, a reference, a number, or a word that is no
operator. -/
def misplaced (t : Text) : Bool :=
  match t.dropWhile white with
  | [] => false
  | c :: cs =>
    c ∈ ['\'', '"', '$', '@', '\\'] || c.isDigit ||
      (word c && (c :: cs).takeWhile word ∉ operators &&
        !(c == 'x' && (cs.takeWhile word).all Char.isDigit))

/-- A string without its end, or with something behind it that cannot be there. -/
def broken : Nat → Text → Bool
  | fuel + 1, '\'' :: t =>
    match literal t with
    | none => true
    | some (_, ',' :: r) => broken fuel r
    | some (_, r) => misplaced r
  | _, _ => false

def syntaxError (src : Text) : Bool :=
  match src.dropWhile white with
  | '(' :: t => broken t.length t
  | _ => false

/-- What is known of Perl: a string in single quotes is what it says, but for a backslash in front
of a backslash or of a quote; and source with a syntax error is not run. -/
structure Evaluates (perl : Text → Option (List Text)) : Prop where
  strings : ∀ src vs, stringCall src = some vs → perl src = some vs
  errors : ∀ src, syntaxError src = true → perl src = none

/-! ## Its purpose -/

/-- A directive, as it stands in a script; the last line of a file may have no newline. -/
structure Directive where
  command : Command
  args : Text
  text : Text
  newline : Bool
  args_semicolon : ';' ∉ args
  args_newline : '\n' ∉ args
  text_newline : '\n' ∉ text

/-- The arguments in a parameter; a sector has its number in front of them. -/
def Command.args (c : Command) (q_sct : Nat) (p : Text) : Option Text :=
  match c with
  | SECTOR =>
    if p = Nat.toDigits 10 q_sct then some []
    else if (Nat.toDigits 10 q_sct ++ [',']).isPrefixOf p then
      some (p.drop ((Nat.toDigits 10 q_sct).length + 1))
    else none
  | _ => some p

/-- How a SECTOR is written in the queue. -/
def Command.encode (c : Command) : Text → Text :=
  match c with
  | SECTOR => quote
  | _ => id

def Command.decode (c : Command) : Text → Text :=
  match c with
  | SECTOR => unquote
  | _ => id

namespace Directive

variable (d : Directive)

def print : Text :=
  ['-', '-', '+'] ++ d.command.name ++ ' ' :: d.args ++ ';' :: d.text ++
    if d.newline then ['\n'] else []

/-- The line of the queue has the arguments and the text, up to blanks around them. -/
def Carries (q_sct : Nat) (line : Text) : Prop :=
  ∃ a t, line = entry d.command a t ∧ ';' ∉ a ∧
    ((d.command.args q_sct a).map fun p => bare (d.command.decode p)) = some (bare d.args) ∧
    bare (d.command.decode t) = bare d.text

/-- The handler of the process gets the arguments. -/
def Hands (q_sct : Nat) (line : Text) : Prop :=
  ∀ new_stmt, ∃ prm, received new_stmt line = some (d.command.name, prm) ∧
    (d.command.args q_sct prm.prm).map bare = some (bare d.args)

def RoundTrip (perl : Text → Option (List Text)) (q_sct : Nat) : Prop :=
  ∃ line, queued perl q_sct d.print = some line ∧ d.Carries q_sct line ∧ d.Hands q_sct line

/-- No quote, but in a SECTOR, and no two backslashes in a row. -/
def Plain (t : Text) : Prop := '\'' ∉ d.command.encode t ∧ ¬ ['\\', '\\'] <:+: t

/-- The directives whose arguments and text get through unchanged. -/
structure Safe : Prop where
  args_plain : d.Plain d.args
  args_end : (bare d.args).getLast? ≠ some '\\'
  args_mark : ¬ ['+', '"'] <:+: d.args
  text_plain : d.Plain d.text
  text_end : d.newline = false → d.text.getLast? ≠ some '\\'
  text_mark : d.command = .SECTOR → ¬ ['+', '"'] <:+: d.text
  text_semicolon : d.command ≠ .SECTOR → ';' ∉ d.text
  text_zero : d.newline = false → d.text = ['0'] →
    d.command = .SYSTEM ∨ d.command = .KILL_CLIENT

/-- What stands between the command and the semicolon, without the blanks at its end. -/
def trimmed : Text := (' ' :: d.args).rdropWhile white

/-- The parameter and the message in the source that is evaluated. -/
def parm : Text := d.command.encode d.trimmed

def mess : Text := d.command.encode (d.text ++ if d.newline then ['\n'] else [])

/-- The source behind the name of the method. -/
def source : Text :=
  [' ', '(', '\''] ++ d.parm ++ ['\'', ',', '\''] ++ d.mess ++ ['\'', ')', ';', '\n']

end Directive

/-! ## The parser -/

section parser

theorem name_word (c : Command) : ∀ x ∈ c.name, word x = true ∧ white x = false ∧ x ≠ ';' := by
  have hall : (c.name.all fun x => word x && !white x && x != ';') = true := by cases c <;> rfl
  intro x hx
  simpa [and_assoc] using List.all_eq_true.mp hall x hx

theorem name_ne_nil (c : Command) : c.name ≠ [] := by cases c <;> decide

theorem unmarked_eq {t u : Text} (h : ∀ x ∈ u.head?, white x = false)
    (ht : t = ['-', '-', '+'] ++ u) : unmarked t = some u := by
  subst ht
  have hfirst : (['-', '-', '+'] ++ u).dropWhile white = ['-', '-', '+'] ++ u := rfl
  have hdrop : u.dropWhile white = u := by
    cases u with
    | nil => rfl
    | cons x u => rw [List.dropWhile_cons, if_neg (by simp [h x rfl])]
  rw [unmarked, hfirst, if_pos (by rfl)]
  exact congrArg some hdrop

theorem name_append_head (c : Command) (t : Text) :
    ∀ x ∈ (c.name ++ t).head?, white x = false := by
  intro x hx
  rw [List.head?_append_of_ne_nil _ (name_ne_nil c)] at hx
  exact (name_word c x (List.mem_of_head? hx)).2.1

theorem takeWhile_name (c : Command) (t : Text) (ht : ∀ x ∈ t.head?, word x = false) :
    (c.name ++ t).takeWhile word = c.name ∧ (c.name ++ t).dropWhile word = t := by
  have hname : ∀ x ∈ c.name, word x = true := fun x hx => (name_word c x hx).1
  rw [List.takeWhile_append_of_pos hname, List.dropWhile_append_of_pos hname]
  cases t with
  | nil => simp
  | cons x t => simp [ht x rfl]

theorem quote_append (t u : Text) : quote (t ++ u) = quote t ++ quote u := by
  induction t with
  | nil => rfl
  | cons c cs ih =>
    rw [List.cons_append, quote, quote]
    split <;> simp [ih]

@[simp] theorem encode_append (c : Command) (t u : Text) :
    c.encode (t ++ u) = c.encode t ++ c.encode u := by
  cases c
  case SECTOR => exact quote_append t u
  all_goals rfl

@[simp] theorem encode_nil (c : Command) : c.encode [] = [] := by cases c <;> rfl

theorem encode_cons_of_ne (c : Command) {x : Char} (h : x ≠ '\'') (t : Text) :
    c.encode (x :: t) = x :: c.encode t := by
  cases c
  case SECTOR => exact if_neg h
  all_goals rfl

theorem mem_quote_of_ne {x : Char} (h1 : x ≠ '\'') (h2 : x ≠ '+') (h3 : x ≠ '"') (t : Text) :
    x ∈ quote t ↔ x ∈ t := by
  induction t with
  | nil => rfl
  | cons c cs ih =>
    rw [quote]
    split
    · rename_i hc
      simp [ih, hc, h1, h2, h3]
    · simp [ih]

theorem mem_encode_of_ne (c : Command) {x : Char} (h1 : x ≠ '\'') (h2 : x ≠ '+') (h3 : x ≠ '"')
    (t : Text) : x ∈ c.encode t ↔ x ∈ t := by
  cases c
  case SECTOR => exact mem_quote_of_ne h1 h2 h3 t
  all_goals rfl

variable (d : Directive)

theorem quote_rdropWhile (t : Text) : (quote t).rdropWhile white = quote (t.rdropWhile white) := by
  induction t with
  | nil => rfl
  | cons c cs ih =>
    by_cases hc : c = '\''
    · subst hc
      have hq : white '\'' = false := rfl
      have hp : white '+' = false := rfl
      have hd : white '"' = false := rfl
      rw [quote, if_pos rfl, rdropWhile_cons, rdropWhile_cons, rdropWhile_cons, ih]
      simp [quote, hq, hp, hd]
    · have hnil : ∀ u, quote u = [] ↔ u = [] := by
        intro u
        cases u with
        | nil => simp [quote]
        | cons x u =>
          rw [quote]
          split <;> simp
      rw [quote, if_neg hc, rdropWhile_cons, rdropWhile_cons, ih]
      simp only [hnil]
      split
      · rfl
      · rw [quote, if_neg hc]

theorem encode_rdropWhile (c : Command) (t : Text) :
    (c.encode t).rdropWhile white = c.encode (t.rdropWhile white) := by
  cases c
  case SECTOR => exact quote_rdropWhile t
  all_goals rfl

theorem takeWhile_of_not_mem {x : Text} (h : ';' ∉ x) : x.takeWhile (· ≠ ';') = x := by
  refine List.takeWhile_eq_self_iff.mpr fun c hc => ?_
  simp only [ne_eq, decide_eq_true_eq]
  rintro rfl
  exact h hc

theorem takeWhile_semicolon {x y : Text} (h : ';' ∉ x) :
    (x ++ ';' :: y).takeWhile (· ≠ ';') = x ∧
      ((x ++ ';' :: y).dropWhile (· ≠ ';')).tail = y := by
  have hx : ∀ c ∈ x, (decide (c ≠ ';')) = true := by
    intro c hc
    simp only [ne_eq, decide_eq_true_eq]
    rintro rfl
    exact h hc
  rw [List.takeWhile_append_of_pos hx, List.dropWhile_append_of_pos hx]
  simp

variable (d : Directive)

/-- The line behind the command. -/
theorem parse_print_rest :
    (if Command.SECTOR.name <:+: ['-', '-', '+'] ++ d.command.name then
      quote (' ' :: d.args ++ ';' :: d.text ++ if d.newline then ['\n'] else [])
    else ' ' :: d.args ++ ';' :: d.text ++ if d.newline then ['\n'] else []) =
      d.command.encode (' ' :: d.args) ++ ';' :: d.mess := by
  have hif : ∀ t, (if Command.SECTOR.name <:+: ['-', '-', '+'] ++ d.command.name then quote t
      else t) = d.command.encode t := by
    intro t
    cases d.command
    case SECTOR => exact if_pos (by decide)
    all_goals exact if_neg (by decide)
  rw [hif, List.append_assoc, encode_append, List.cons_append,
    encode_cons_of_ne _ (show ';' ≠ '\'' by decide), Directive.mess]

/-- The source that the parser makes of a directive. -/
theorem parse_print : _parse_str d.print =
    some (['-', '-', '+'] ++ (d.command.name ++ d.source)) := by
  have hprint : d.print = ['-', '-', '+'] ++ (d.command.name ++
      (' ' :: d.args ++ ';' :: d.text ++ if d.newline then ['\n'] else [])) := by
    simp [Directive.print]
  have hhead : ∀ x ∈ (' ' :: d.args ++ ';' :: d.text ++
      if d.newline then ['\n'] else []).head?, word x = false := by
    intro x hx
    obtain rfl : ' ' = x := Option.some.inj hx
    rfl
  have hupper : (['-', '-', '+'] ++ d.command.name).map Char.toUpper =
      ['-', '-', '+'] ++ d.command.name := by
    cases d.command <;> decide
  have htake : d.print.take (d.print.length - (' ' :: d.args ++ ';' :: d.text ++
      if d.newline then ['\n'] else []).length) = ['-', '-', '+'] ++ d.command.name := by
    rw [hprint, ← List.append_assoc, List.length_append, Nat.add_sub_cancel]
    exact List.take_left
  have hargs : ';' ∉ d.command.encode (' ' :: d.args) := by
    rw [mem_encode_of_ne _ (by decide) (by decide) (by decide)]
    simpa using d.args_semicolon
  have hbefore : ';' ∉ ['-', '-', '+'] ++ d.command.name ++ [' ', '(', '\''] ++
      d.command.encode (' ' :: d.args) := by
    intro h
    simp only [List.mem_append, or_assoc] at h
    rcases h with h | h | h | h
    · revert h
      decide
    · exact (name_word _ _ h).2.2 rfl
    · revert h
      decide
    · exact hargs h
  have hlast : ∀ x ∈ (['-', '-', '+'] ++ d.command.name ++ [' ', '(', '\'']).getLast?,
      white x = false := by
    intro x hx
    rw [List.getLast?_append] at hx
    obtain rfl : '\'' = x := Option.some.inj hx
    rfl
  rw [_parse_str, unmarked_eq (name_append_head _ _) hprint]
  dsimp only
  rw [(takeWhile_name _ _ hhead).1, (takeWhile_name _ _ hhead).2, if_neg (name_ne_nil _), htake,
    hupper, parse_print_rest, ← List.append_assoc, (takeWhile_semicolon hbefore).1,
    (takeWhile_semicolon hbefore).2, if_pos (by simp), rdropWhile_append_of_last hlast,
    encode_rdropWhile]
  simp [Directive.source, Directive.parm, Directive.trimmed]

theorem queued_print (perl : Text → Option (List Text)) (q_sct : Nat) :
    queued perl q_sct d.print = (perl d.source).map fun vs =>
      d.command.handler q_sct (vs.getD 0 []) (vs.getD 1 []) := by
  have hhead : ∀ x ∈ d.source.head?, word x = false := by
    intro x hx
    obtain rfl : ' ' = x := Option.some.inj hx
    rfl
  have hfind : (commands.find? fun c => c.name = d.command.name) = some d.command := by
    cases d.command <;> decide
  rw [queued, parse_print, Option.bind_some, unmarked_eq (name_append_head _ _) rfl,
    Option.bind_some, exec_do_cmd]
  rw [(takeWhile_name _ _ hhead).1, (takeWhile_name _ _ hhead).2, hfind, Option.bind_some]

end parser

/-! ## Strings in single quotes -/

section strings

def specials (t : Text) : Nat := t.countP fun c => c = '\\' ∨ c = '\''

def backslashes (t : Text) : Nat := t.countP (· = '\\')

/-- A text that is its own value as a string in single quotes. -/
structure Clean (t : Text) : Prop where
  quote : '\'' ∉ t
  pair : ¬ ['\\', '\\'] <:+: t
  last : t.getLast? ≠ some '\\'

theorem literal_cons {c : Char} {t : Text} (hq : c ≠ '\'')
    (hb : c = '\\' → ∀ x ∈ t.head?, x ≠ '\\' ∧ x ≠ '\'') :
    literal (c :: t) = (literal t).map fun m => (c :: m.1, m.2) := by
  rw [literal]
  · exact hq
  · rintro r rfl rfl
    exact (hb rfl _ rfl).1 rfl
  · rintro r rfl rfl
    exact (hb rfl _ rfl).2 rfl

theorem Clean.nil : Clean [] := ⟨by simp, by simp, by simp⟩

theorem Clean.cons {c : Char} {t : Text} (h : Clean t) (hq : c ≠ '\'')
    (hb : c = '\\' → t ≠ [] ∧ ∀ x ∈ t.head?, x ≠ '\\') : Clean (c :: t) := by
  refine ⟨by simp [h.quote, hq.symm], ?_, ?_⟩
  · rw [List.infix_cons_iff, not_or]
    refine ⟨?_, h.pair⟩
    rw [List.cons_prefix_cons]
    rintro ⟨rfl, hpre⟩
    obtain ⟨u, rfl⟩ := hpre
    exact (hb rfl).2 '\\' rfl rfl
  · cases t with
    | nil =>
      intro hlast
      exact (hb (by simpa using hlast)).1 rfl
    | cons x t =>
      rw [List.getLast?_cons_cons]
      exact h.last

/-- What the value of a string can be: the text up to the quote; or less, if a quote or a pair of
backslashes is in it; or the quote counts, as a backslash is in front of it. -/
theorem literal_cases {t r v rest : Text} (h : literal (t ++ '\'' :: r) = some (v, rest)) :
    (v = t ∧ rest = r ∧ Clean t) ∨
      (specials v < specials t ∧ ('\'' ∉ t → backslashes v < backslashes t)) ∨
      ∃ x w, v = x ++ '\'' :: w ∧ literal r = some (w, rest) ∧
        backslashes x < backslashes t := by
  induction t using literal.induct generalizing v with
  | case1 =>
    obtain ⟨rfl, rfl⟩ : [] = v ∧ r = rest := by simpa [literal] using h
    exact .inl ⟨rfl, rfl, Clean.nil⟩
  | case2 t =>
    obtain ⟨rfl, -⟩ : [] = v ∧ t ++ '\'' :: r = rest := by simpa [literal] using h
    exact .inr (.inl ⟨by simp [specials], by simp⟩)
  | case3 t ih =>
    rw [List.cons_append, List.cons_append, literal, Option.map_eq_some_iff] at h
    obtain ⟨⟨v', rest'⟩, h', heq⟩ := h
    obtain ⟨rfl, rfl⟩ := Prod.mk.inj heq
    obtain ⟨rfl, rfl, -⟩ | ⟨hs, hb⟩ | ⟨x, w, rfl, hw, hx⟩ := ih h'
    · exact .inr (.inl ⟨by simp [specials], by simp [backslashes]⟩)
    · refine .inr (.inl ⟨?_, ?_⟩)
      · simp [specials] at hs ⊢
        omega
      · intro hq
        have hlt := hb fun hmem => hq (by simp [hmem])
        simp [backslashes] at hlt ⊢
        omega
    · refine .inr (.inr ⟨'\\' :: x, w, rfl, hw, ?_⟩)
      simp [backslashes] at hx ⊢
      omega
  | case4 t ih =>
    rw [List.cons_append, List.cons_append, literal, Option.map_eq_some_iff] at h
    obtain ⟨⟨v', rest'⟩, h', heq⟩ := h
    obtain ⟨rfl, rfl⟩ := Prod.mk.inj heq
    obtain ⟨rfl, rfl, -⟩ | ⟨hs, hb⟩ | ⟨x, w, rfl, hw, hx⟩ := ih h'
    · exact .inr (.inl ⟨by simp [specials], by simp⟩)
    · refine .inr (.inl ⟨?_, by simp⟩)
      simp [specials] at hs ⊢
      omega
    · refine .inr (.inr ⟨'\'' :: x, w, rfl, hw, ?_⟩)
      simp [backslashes] at hx ⊢
      omega
  | case5 c t hq hbb hbq ih =>
    by_cases hlast : c = '\\' ∧ t = []
    · obtain ⟨rfl, rfl⟩ := hlast
      rw [List.singleton_append, literal, Option.map_eq_some_iff] at h
      obtain ⟨⟨w, rest'⟩, hw, heq⟩ := h
      obtain ⟨rfl, rfl⟩ := Prod.mk.inj heq
      exact .inr (.inr ⟨[], w, rfl, hw, by simp [backslashes]⟩)
    · have hcq : c ≠ '\'' := hq
      have hhead : c = '\\' → t ≠ [] ∧ ∀ x ∈ t.head?, x ≠ '\\' ∧ x ≠ '\'' := by
        rintro rfl
        refine ⟨fun ht => hlast ⟨rfl, ht⟩, ?_⟩
        intro x hx
        obtain ⟨t', rfl⟩ := List.head?_eq_some_iff.mp hx
        exact ⟨fun hx' => hbb t' rfl (by rw [hx']), fun hx' => hbq t' rfl (by rw [hx'])⟩
      have hhead' : c = '\\' → ∀ x ∈ (t ++ '\'' :: r).head?, x ≠ '\\' ∧ x ≠ '\'' := by
        intro hc x hx
        rw [List.head?_append_of_ne_nil _ (hhead hc).1] at hx
        exact (hhead hc).2 x hx
      rw [List.cons_append, literal_cons hcq hhead', Option.map_eq_some_iff] at h
      obtain ⟨⟨v', rest'⟩, h', heq⟩ := h
      obtain ⟨rfl, rfl⟩ := Prod.mk.inj heq
      obtain ⟨rfl, rfl, hclean⟩ | ⟨hs, hb⟩ | ⟨x, w, rfl, hw, hx⟩ := ih h'
      · refine .inl ⟨rfl, rfl, hclean.cons hcq ?_⟩
        exact fun hc => ⟨(hhead hc).1, fun x hx => ((hhead hc).2 x hx).1⟩
      · refine .inr (.inl ⟨?_, ?_⟩)
        · simp only [specials, List.countP_cons] at hs ⊢
          omega
        · intro hqt
          have hlt := hb fun hmem => hqt (List.mem_cons_of_mem _ hmem)
          simp only [backslashes, List.countP_cons] at hlt ⊢
          omega
      · refine .inr (.inr ⟨c :: x, w, rfl, hw, ?_⟩)
        simp only [backslashes, List.countP_cons] at hx ⊢
        omega

theorem Clean.tail {c : Char} {t : Text} (h : Clean (c :: t)) : Clean t := by
  refine ⟨fun hmem => h.quote (List.mem_cons_of_mem _ hmem), ?_, ?_⟩
  · exact fun hpair => h.pair (hpair.trans (List.suffix_cons c t).isInfix)
  · cases t with
    | nil => simp
    | cons x t =>
      have hlast := h.last
      rwa [List.getLast?_cons_cons] at hlast

theorem Clean.head {c : Char} {t r : Text} (h : Clean (c :: t)) :
    c ≠ '\'' ∧ (c = '\\' → ∀ x ∈ (t ++ '\'' :: r).head?, x ≠ '\\' ∧ x ≠ '\'') := by
  constructor
  · rintro rfl
    exact h.quote List.mem_cons_self
  · rintro rfl x hx
    cases t with
    | nil => exact absurd rfl h.last
    | cons y t =>
      obtain rfl : y = x := Option.some.inj hx
      constructor
      · rintro rfl
        exact h.pair ⟨[], t, rfl⟩
      · rintro rfl
        exact h.quote (by simp)

theorem literal_clean {t : Text} (h : Clean t) (r : Text) :
    literal (t ++ '\'' :: r) = some (t, r) := by
  induction t with
  | nil => simp [literal]
  | cons c t ih =>
    rw [List.cons_append, literal_cons (h.head (r := r)).1 h.head.2, ih h.tail]
    rfl

theorem arguments_some {n : Nat} {t : Text} {vs : List Text}
    (h : arguments n ('\'' :: t) = some vs) :
    ∃ v rest vs', literal t = some (v, rest) ∧ vs = v :: vs' ∧
      ∀ r, rest = ',' :: r → ∃ k, arguments k r = some vs' := by
  cases n with
  | zero => simp [arguments] at h
  | succ n =>
    rw [arguments, Option.bind_eq_some_iff] at h
    obtain ⟨⟨v, rest⟩, hlit, h⟩ := h
    dsimp only at h
    split at h
    · rename_i r
      obtain ⟨vs', hvs, rfl⟩ := Option.map_eq_some_iff.mp h
      refine ⟨v, _, vs', hlit, rfl, ?_⟩
      intro r' hr'
      obtain rfl : r = r' := (List.cons.inj hr').2
      exact ⟨n, hvs⟩
    · split at h
      · obtain rfl := Option.some.inj h
        refine ⟨v, _, [], hlit, rfl, ?_⟩
        intro r' hr'
        cases (List.cons.inj hr').1
      · cases h
    · cases h

variable (d : Directive)

/-- The source behind the first quote. -/
theorem source_eq : d.source = ' ' :: '(' :: '\'' :: (d.parm ++ '\'' :: (',' :: '\'' ::
    (d.mess ++ '\'' :: [')', ';', '\n']))) := by
  simp [Directive.source]

theorem stringCall_source (hparm : Clean d.parm) (hmess : Clean d.mess) :
    stringCall d.source = some [d.parm, d.mess] := by
  have hdrop : d.source.dropWhile white = '(' :: '\'' :: (d.parm ++ '\'' :: (',' :: '\'' ::
      (d.mess ++ '\'' :: [')', ';', '\n']))) := by
    rw [source_eq]
    rfl
  have hargs : ∀ n, arguments (n + 2) ('\'' :: (d.parm ++ '\'' :: (',' :: '\'' ::
      (d.mess ++ '\'' :: [')', ';', '\n'])))) = some [d.parm, d.mess] := by
    intro n
    have hlast : arguments (n + 1) ('\'' :: (d.mess ++ '\'' :: [')', ';', '\n'])) =
        some [d.mess] := by
      rw [arguments, literal_clean hmess]
      rfl
    rw [arguments, literal_clean hparm, Option.bind_some]
    exact congrArg (Option.map (d.parm :: ·)) hlast
  have hlength : ('\'' :: (d.parm ++ '\'' :: (',' :: '\'' :: (d.mess ++ '\'' ::
      [')', ';', '\n'])))).length = (d.parm.length + d.mess.length + 6) + 2 := by
    simp
    omega
  have hfuel := hargs (d.parm.length + d.mess.length + 6)
  rw [← hlength] at hfuel
  rw [stringCall, hdrop]
  exact hfuel

/-- The arguments of a call with strings only. -/
theorem stringCall_some {vs : List Text} (h : stringCall d.source = some vs) :
    ∃ v rest vs', literal (d.parm ++ '\'' :: (',' :: '\'' :: (d.mess ++ '\'' ::
      [')', ';', '\n']))) = some (v, rest) ∧ vs = v :: vs' ∧
      ∀ r, rest = ',' :: r → ∃ k, arguments k r = some vs' := by
  have hdrop : d.source.dropWhile white = '(' :: '\'' :: (d.parm ++ '\'' :: (',' :: '\'' ::
      (d.mess ++ '\'' :: [')', ';', '\n']))) := by
    rw [source_eq]
    rfl
  rw [stringCall, hdrop] at h
  exact arguments_some h

end strings

/-! ## The quotes of a sector -/

section unquote

theorem unquote_cons {c : Char} {t : Text} (h : c = '+' → ∀ x ∈ t.head?, x ≠ '"') :
    unquote (c :: t) = c :: unquote t := by
  rw [unquote]
  rintro r rfl rfl
  exact h rfl _ rfl rfl

theorem unquote_append {c : Char} (hp : c ≠ '+') (hd : c ≠ '"') (x y : Text) :
    unquote (x ++ c :: y) = unquote x ++ c :: unquote y := by
  induction x using unquote.induct with
  | case1 cs ih => simp [unquote, ih]
  | case2 b cs h ih =>
    rw [List.cons_append, unquote_cons, unquote_cons, ih, List.cons_append]
    · rintro rfl x hx rfl
      obtain ⟨cs', rfl⟩ := List.head?_eq_some_iff.mp hx
      exact h cs' rfl rfl
    · rintro rfl x hx rfl
      cases cs with
      | nil => exact hd (Option.some.inj hx)
      | cons x' cs' =>
        obtain rfl := Option.some.inj hx
        exact h cs' rfl rfl
  | case3 => exact unquote_cons fun hc => absurd hc hp

theorem mem_unquote_of_ne {x : Char} (h1 : x ≠ '\'') (h2 : x ≠ '+') (h3 : x ≠ '"') (t : Text) :
    x ∈ unquote t ↔ x ∈ t := by
  induction t using unquote.induct with
  | case1 cs ih => simp [unquote, ih, h1, h2, h3]
  | case2 c cs h ih => simp [unquote, ih]
  | case3 => simp [unquote]

theorem unquote_quote (t : Text) : unquote (quote t) = unquote t := by
  induction t using unquote.induct with
  | case1 cs ih => simp [unquote, quote, ih]
  | case2 c cs h ih =>
    by_cases hc : c = '\''
    · subst hc
      rw [quote, if_pos rfl, unquote, ih, unquote_cons fun hc => absurd hc (by decide)]
    · rw [quote, if_neg hc, unquote_cons, unquote_cons, ih]
      · rintro rfl x hx rfl
        obtain ⟨cs', rfl⟩ := List.head?_eq_some_iff.mp hx
        exact h cs' rfl rfl
      · rintro rfl x hx rfl
        cases cs with
        | nil => cases hx
        | cons y cs' =>
          rw [quote] at hx
          split at hx
          · cases hx
          · obtain rfl := Option.some.inj hx
            exact h cs' rfl rfl
  | case3 => rfl

def pluses (t : Text) : Nat := t.countP (· = '+')

theorem pluses_unquote_le (t : Text) : pluses (unquote t) ≤ pluses t := by
  induction t using unquote.induct with
  | case1 cs ih =>
    simp [unquote, pluses] at ih ⊢
    omega
  | case2 c cs h ih =>
    simp only [unquote, pluses, List.countP_cons] at ih ⊢
    omega
  | case3 => exact le_rfl

theorem unquote_of_not_mark {t : Text} (h : ¬ ['+', '"'] <:+: t) : unquote t = t := by
  induction t using unquote.induct with
  | case1 cs ih => exact absurd ⟨[], cs, rfl⟩ h
  | case2 c cs hc ih =>
    rw [unquote, ih fun hin => h (hin.trans (List.suffix_cons c cs).isInfix)]
    exact hc
  | case3 => rfl

theorem pluses_unquote_lt {t : Text} (h : ['+', '"'] <:+: t) : pluses (unquote t) < pluses t := by
  induction t using unquote.induct with
  | case1 cs ih =>
    have hle := pluses_unquote_le cs
    simp [unquote, pluses] at hle ⊢
    omega
  | case2 c cs hc ih =>
    have hin : ['+', '"'] <:+: cs := by
      refine (List.infix_cons_iff.mp h).resolve_left fun hpre => ?_
      obtain ⟨u, hu⟩ := hpre
      obtain ⟨rfl, rfl⟩ := List.cons.inj hu
      exact hc u rfl rfl
    have hlt := ih hin
    rw [unquote]
    · simp only [pluses, List.countP_cons] at hlt ⊢
      omega
    · exact hc
  | case3 => simp at h

theorem dropWhile_unquote (t : Text) :
    (unquote t).dropWhile white = unquote (t.dropWhile white) := by
  induction t using unquote.induct with
  | case1 cs ih =>
    have hq : white '\'' = false := rfl
    have hp : white '+' = false := rfl
    simp [unquote, hq, hp]
  | case2 c cs hc ih =>
    have hcons : unquote (c :: cs) = c :: unquote cs := by
      rw [unquote]
      exact hc
    rw [hcons, List.dropWhile_cons, List.dropWhile_cons, ih]
    split
    · rfl
    · exact hcons.symm
  | case3 => rfl

theorem unquote_eq_nil (t : Text) : unquote t = [] ↔ t = [] := by
  induction t using unquote.induct with
  | case1 cs ih => simp [unquote]
  | case2 c cs hc ih => simp [unquote]
  | case3 => simp [unquote]

theorem rdropWhile_unquote (t : Text) :
    (unquote t).rdropWhile white = unquote (t.rdropWhile white) := by
  induction t using unquote.induct with
  | case1 cs ih =>
    have hq : white '\'' = false := rfl
    have hp : white '+' = false := rfl
    have hd : white '"' = false := rfl
    simp [unquote, rdropWhile_cons, hq, hp, hd, ih]
  | case2 c cs hc ih =>
    have hcons : unquote (c :: cs) = c :: unquote cs := by
      rw [unquote]
      exact hc
    rw [hcons, rdropWhile_cons, rdropWhile_cons, ih]
    simp only [unquote_eq_nil]
    split
    · rfl
    · rw [unquote_cons]
      rintro rfl x hx rfl
      obtain ⟨u, hu⟩ := List.rdropWhile_prefix white cs
      obtain ⟨w, hw⟩ := List.head?_eq_some_iff.mp hx
      rw [hw] at hu
      exact hc (w ++ u) rfl hu.symm
  | case3 => rfl

theorem bare_unquote (t : Text) : bare (unquote t) = unquote (bare t) := by
  rw [bare, stripWith, dropWhile_unquote, rdropWhile_unquote, bare, stripWith]

theorem pluses_bare (t : Text) : pluses (bare t) = pluses t := by
  refine countP_stripWith ?_ t
  intro c hc
  simp only [decide_eq_false_iff_not]
  rintro rfl
  revert hc
  decide

/-- The mark of a quote is in a text just if it is in the text without the blanks around it. -/
theorem bare_unquote_eq_iff (t : Text) : unquote (bare t) = bare t ↔ ¬ ['+', '"'] <:+: t := by
  constructor
  · intro h hin
    have hlt := pluses_unquote_lt hin
    rw [← pluses_bare (unquote t), bare_unquote, h, pluses_bare] at hlt
    exact lt_irrefl _ hlt
  · intro h
    rw [← bare_unquote, unquote_of_not_mark h]

end unquote

/-! ## The pattern of a process -/

section pattern

variable {t x y : Text} {γ : Type} {g : γ}

theorem semicolon_cons (g : γ) (y : Text) : semicolon g (';' :: y) = some (g, y) := by
  rw [semicolon]
  exact findSome?_star rfl

theorem semicolon_none (h : ';' ∉ t) : semicolon g t = none := by
  rw [semicolon, List.findSome?_eq_none_iff]
  intro m hm
  have happend := append_of_mem_star hm
  split
  · rename_i rest hrest
    refine absurd ?_ h
    rw [← happend, hrest]
    simp
  · rfl

/-- A match of the rest of the pattern. -/
def group (t : Text) : Option (Option Text × Text) :=
  (groups t).findSome? fun g => semicolon g.1 g.2

/-- Any text up to the last semicolon. -/
theorem anything_eq {c : Char} (hy : ';' ∉ y) :
    (plus (fun _ => true) (c :: x ++ ';' :: y)).findSome? (fun m => semicolon (some m.1) m.2) =
      some (some (c :: x), y) := by
  refine findSome?_plus_append ?_ (semicolon_cons _ y)
  intro u v huv hu
  cases u with
  | nil => exact absurd rfl hu
  | cons b u =>
    obtain ⟨-, rfl⟩ := List.cons.inj huv
    exact semicolon_none fun h => hy (List.mem_append_right _ h)

/-- Without a quote at its front the group goes up to the last semicolon. -/
theorem group_eq {c : Char} (hc : c ≠ '\'') (hy : ';' ∉ y) :
    group (c :: x ++ ';' :: y) = some (some (c :: x), y) := by
  rw [group, groups, List.findSome?_append, List.findSome?_append, List.findSome?_map]
  · simp only [Function.comp_def, anything_eq hy]
    rfl
  · intro u hu
    exact hc (List.cons.inj hu).1

/-- With nothing in front of the only semicolon there is no group. -/
theorem group_blank (hy : ';' ∉ y) : group (';' :: y) = some (none, y) := by
  have hplus : (plus (fun _ => true) (';' :: y)).findSome?
      (fun m => semicolon (some m.1) m.2) = none := by
    rw [List.findSome?_eq_none_iff]
    intro m hm
    rw [plus, if_pos rfl, List.mem_map] at hm
    obtain ⟨m', hm', rfl⟩ := hm
    refine semicolon_none fun h => hy ?_
    rw [← append_of_mem_star hm']
    exact List.mem_append_right _ h
  rw [group, groups, List.findSome?_append, List.findSome?_append, List.findSome?_map]
  · simp only [Function.comp_def, hplus]
    simp [semicolon_cons]
  · intro u hu
    exact absurd (List.cons.inj hu).1 (by decide)

theorem exists_last_semicolon (h : ';' ∈ y) : ∃ u w, y = u ++ ';' :: w ∧ ';' ∉ w := by
  obtain ⟨w, u, hy, hw⟩ := List.eq_append_cons_of_mem (List.mem_reverse.mpr h)
  refine ⟨u.reverse, w.reverse, ?_, fun hmem => hw (List.mem_reverse.mp hmem)⟩
  simpa using congrArg List.reverse hy

/-- A match in front of a semicolon. -/
theorem exists_group (x y : Text) : ∃ g, group (x ++ ';' :: y) = some g := by
  obtain ⟨z, w, hzw, hw⟩ := exists_last_semicolon (show ';' ∈ x ++ ';' :: y by simp)
  rw [hzw]
  cases z with
  | nil => exact ⟨_, group_blank hw⟩
  | cons c z =>
    obtain ⟨q, hq⟩ : ∃ q, groups (c :: z ++ ';' :: w) = q ++
      (plus (fun _ => true) (c :: z ++ ';' :: w)).map (fun m => (some m.1, m.2)) ++
        [(none, c :: z ++ ';' :: w)] := ⟨_, rfl⟩
    rw [← Option.isSome_iff_exists, group, hq, List.findSome?_append, List.findSome?_append,
      List.findSome?_map, Option.isSome_or, Option.isSome_or]
    simp only [Function.comp_def, anything_eq hw]
    simp

/-- Without a quote at the front it goes up to the last semicolon, or there is no group. -/
theorem group_last (hx : x.head? ≠ some '\'') :
    ∃ g, group (x ++ ';' :: y) = some g ∧
      (';' ∈ y → ∃ u, g.1.getD [] = x ++ ';' :: u) ∧ (';' ∉ y → g.1.getD [] = x) := by
  have hgroup : ∀ z w, z.head? ≠ some '\'' → ';' ∉ w →
      ∃ g, group (z ++ ';' :: w) = some g ∧ g.1.getD [] = z := by
    intro z w hz hw
    cases z with
    | nil => exact ⟨_, group_blank hw, rfl⟩
    | cons c z => exact ⟨_, group_eq (fun hc => hz (by rw [hc]; rfl)) hw, rfl⟩
  by_cases hy : ';' ∈ y
  · obtain ⟨u, w, rfl, hw⟩ := exists_last_semicolon hy
    have hhead : (x ++ ';' :: u).head? ≠ some '\'' := by
      cases x with
      | nil => simp
      | cons c x => simpa using hx
    obtain ⟨g, hg, hprm⟩ := hgroup (x ++ ';' :: u) w hhead hw
    rw [List.append_assoc, List.cons_append] at hg
    exact ⟨g, hg, fun _ => ⟨u, hprm⟩, fun hnot => absurd hy hnot⟩
  · obtain ⟨g, hg, hprm⟩ := hgroup x y hx hy
    exact ⟨g, hg, fun hmem => absurd hmem hy, fun _ => hprm⟩

theorem groups_prefix {p z : Text} (h : (some p, z) ∈ groups t) : p <+: t := by
  unfold groups at h
  rw [List.mem_append, List.mem_append] at h
  rcases h with (h | h) | h
  · split at h
    · rename_i u
      obtain ⟨m, hm, h⟩ := List.mem_filterMap.mp h
      split at h
      · rename_i v hv
        obtain ⟨hp, rfl⟩ := Prod.mk.inj (Option.some.inj h)
        obtain rfl := Option.some.inj hp
        have happend := append_of_mem_plus hm
        rw [hv] at happend
        exact ⟨v, by simp [← happend]⟩
      · cases h
    · cases h
  · obtain ⟨m, hm, h⟩ := List.mem_map.mp h
    obtain ⟨hp, rfl⟩ := Prod.mk.inj h
    obtain rfl := Option.some.inj hp
    exact ⟨_, append_of_mem_plus hm⟩
  · simp at h

/-- A group is at the front of the text. -/
theorem group_prefix {p z : Text} (h : group t = some (some p, z)) : p <+: t := by
  obtain ⟨⟨o, w⟩, hmem, hsemi⟩ := List.exists_of_findSome?_eq_some h
  obtain ⟨m, _, hm⟩ := List.exists_of_findSome?_eq_some hsemi
  split at hm
  · obtain ⟨rfl, _⟩ := Prod.mk.inj (Option.some.inj hm)
    exact groups_prefix hmem
  · cases hm

theorem commandPattern_eq (c : Command) (u : Text) {r : Option Text × Text}
    (h : group (u.dropWhile white) = some r) :
    commandPattern (c.name ++ ' ' :: u) = some (c.name, r) := by
  have hspace : ∀ x ∈ (' ' :: u).head?, word x = false := by
    intro x hx
    obtain rfl : ' ' = x := Option.some.inj hx
    rfl
  obtain ⟨htake, hdrop⟩ := takeWhile_name c (' ' :: u) hspace
  obtain ⟨b, bs, hb⟩ := List.exists_cons_of_ne_nil (name_ne_nil c)
  have hword : word b = true := (name_word c b (by simp [hb])).1
  have hbs : (bs ++ ' ' :: u).takeWhile word = bs ∧ (bs ++ ' ' :: u).dropWhile word = ' ' :: u := by
    rw [hb, List.cons_append, List.takeWhile_cons_of_pos hword, List.cons.injEq] at htake
    rw [hb, List.cons_append, List.dropWhile_cons_of_pos hword] at hdrop
    exact ⟨htake.2, hdrop⟩
  rw [commandPattern, hb, List.cons_append]
  refine findSome?_plus hword ?_
  dsimp only
  rw [hbs.1, hbs.2, ← hb]
  refine findSome?_star ?_
  dsimp only
  rw [List.dropWhile_cons_of_pos (by rfl)]
  exact congrArg (Option.map fun r => (c.name, r)) h

end pattern

/-! ## The queue -/

section queue

variable {c : Command} {q_sct : Nat} {a t p m : Text}

/-- The arguments of an entry end at its first semicolon. -/
theorem entry_inj (h : entry c p m = entry c a t) (ha : ';' ∉ a) :
    a <+: p ∧ (';' ∉ p → a = p ∧ t = m) := by
  have hrest : p ++ ';' :: m = a ++ ';' :: t := by
    simpa [entry] using h
  rcases List.append_eq_append_iff.mp hrest with ⟨u, rfl, hu⟩ | ⟨u, rfl, hu⟩
  · cases u with
    | nil =>
      rw [List.append_nil] at ha ⊢
      exact ⟨List.prefix_rfl, fun _ => ⟨rfl, ((List.cons.inj hu).2).symm⟩⟩
    | cons x u =>
      obtain ⟨rfl, -⟩ := List.cons.inj hu
      exact absurd (by simp) ha
  · refine ⟨List.prefix_append a u, ?_⟩
    cases u with
    | nil =>
      intro _
      rw [List.append_nil]
      exact ⟨rfl, (List.cons.inj hu).2⟩
    | cons x u =>
      obtain ⟨rfl, -⟩ := List.cons.inj hu
      exact fun hp => absurd (by simp) hp

/-- The parameter and the message as the handler puts them into the queue. -/
def Command.queuedParm (c : Command) (q_sct : Nat) (v : Text) : Text :=
  match c with
  | SYSTEM | KILL_CLIENT => bare v
  | PRINT => v
  | IGNORE => orEmpty v
  | SECTOR => Nat.toDigits 10 q_sct ++ if truthy v then ',' :: v else []

def Command.queuedMess (c : Command) (v : Text) : Text :=
  match c with
  | SYSTEM | KILL_CLIENT => v
  | PRINT | IGNORE => orEmpty v ++ [' ']
  | SECTOR => orEmpty v

theorem handler_eq (v w : Text) :
    c.handler q_sct v w = entry c (c.queuedParm q_sct v) (c.queuedMess w) := by
  cases c <;> rfl

theorem isDigit_of_mem_toDigits {x : Char} (hx : x ∈ Nat.toDigits 10 q_sct) :
    x.isDigit = true :=
  Nat.isDigit_of_mem_toDigits (by decide) (by decide) hx

theorem orEmpty_sublist (v : Text) : (orEmpty v).Sublist v := by
  rw [orEmpty]
  split
  · exact List.Sublist.refl v
  · exact List.nil_sublist v

theorem bare_sublist (v : Text) : (bare v).Sublist v :=
  (List.rdropWhile_prefix white _).sublist.trans (List.dropWhile_sublist white)

/-- The arguments in a parameter of the queue are part of the string it is made of. -/
theorem args_sublist {v : Text} (hp : c.args q_sct a = some p)
    (ha : a <+: c.queuedParm q_sct v) : p.Sublist v := by
  have hother : some a = some p → ∀ u : Text, u.Sublist v → a <+: u → p.Sublist v := by
    intro heq u hu hau
    obtain rfl := Option.some.inj heq
    exact hau.sublist.trans hu
  cases c
  case SYSTEM => exact hother hp _ (bare_sublist v) ha
  case KILL_CLIENT => exact hother hp _ (bare_sublist v) ha
  case PRINT => exact hother hp _ (List.Sublist.refl v) ha
  case IGNORE => exact hother hp _ (orEmpty_sublist v) ha
  case SECTOR =>
    rw [Command.args] at hp
    split at hp
    · obtain rfl := Option.some.inj hp
      exact List.nil_sublist v
    · split at hp
      · rename_i hpre
        obtain ⟨u, rfl⟩ := List.isPrefixOf_iff_prefix.mp hpre
        obtain rfl : u = p := by
          rw [List.drop_left' (by simp)] at hp
          exact Option.some.inj hp
        rw [Command.queuedParm, List.append_assoc, List.prefix_append_right_inj] at ha
        split at ha
        · exact (List.cons_prefix_cons.mp ha).2.sublist
        · exact absurd (List.prefix_nil.mp ha) (List.cons_ne_nil _ _)
      · cases hp

theorem not_mem_queuedParm {v : Text} (hv : ';' ∉ v) : ';' ∉ c.queuedParm q_sct v := by
  cases c
  case SYSTEM => exact fun h => hv ((bare_sublist v).mem h)
  case KILL_CLIENT => exact fun h => hv ((bare_sublist v).mem h)
  case PRINT => exact hv
  case IGNORE => exact fun h => hv ((orEmpty_sublist v).mem h)
  case SECTOR =>
    rw [Command.queuedParm, List.mem_append]
    rintro (h | h)
    · exact absurd (isDigit_of_mem_toDigits h) (by decide)
    · split at h
      · exact hv (by simpa using h)
      · cases h

/-- What is not made or unmade by the quotes of the queue, and is no blank, can be counted. -/
structure Counts (c : Command) (f : Char → Bool) : Prop where
  white : ∀ x, white x = true → f x = false
  encode : ∀ t, (c.encode t).countP f = t.countP f
  decode : ∀ t, (c.decode t).countP f = t.countP f

theorem counts_backslashes (c : Command) : Counts c (· = '\\') := by
  refine ⟨?_, ?_, ?_⟩
  · intro x hx
    simp only [decide_eq_false_iff_not]
    rintro rfl
    exact absurd hx (by decide)
  · intro t
    cases c
    case SECTOR =>
      rw [Command.encode]
      induction t with
      | nil => rfl
      | cons x t ih =>
        rw [quote]
        split
        · rename_i hx
          simp [ih, hx]
        · simp [List.countP_cons, ih]
    all_goals rfl
  · intro t
    cases c
    case SECTOR =>
      rw [Command.decode]
      induction t using unquote.induct with
      | case1 t ih => simp [unquote, ih]
      | case2 x t h ih => simp [unquote, List.countP_cons, ih]
      | case3 => rfl
    all_goals rfl

theorem counts_specials (hc : c ≠ .SECTOR) : Counts c fun x => x = '\\' ∨ x = '\'' := by
  refine ⟨?_, ?_, ?_⟩
  · intro x hx
    simp only [decide_eq_false_iff_not, not_or]
    constructor
    all_goals
      rintro rfl
      exact absurd hx (by decide)
  all_goals
    cases c
    case SECTOR => exact absurd rfl hc
    all_goals exact fun _ => rfl

variable {d : Directive} {f : Char → Bool} {v w : Text}

theorem Counts.bare (hf : Counts c f) (t : Text) : (Directives.bare t).countP f = t.countP f :=
  countP_stripWith hf.white t

theorem bare_trimmed : bare d.trimmed = bare d.args := by
  rw [bare, Directive.trimmed, stripWith_rdropWhile, stripWith_cons_of_white (by rfl), bare]

theorem Counts.parm (hf : Counts d.command f) : d.parm.countP f = d.args.countP f := by
  rw [Directive.parm, hf.encode, ← hf.bare d.trimmed, bare_trimmed, hf.bare]

theorem Counts.mess (hf : Counts d.command f) : d.mess.countP f = d.text.countP f := by
  rw [Directive.mess, hf.encode, List.countP_append]
  split
  · simp [hf.white '\n' rfl]
  · simp

theorem Counts.args_le (hf : Counts d.command f)
    (h : d.Carries q_sct (entry d.command (d.command.queuedParm q_sct v) m)) :
    d.args.countP f ≤ v.countP f := by
  obtain ⟨a, t, heq, ha, hargs, -⟩ := h
  obtain ⟨p, hp, hbare⟩ := Option.map_eq_some_iff.mp hargs
  have hsub := args_sublist hp (entry_inj heq ha).1
  calc d.args.countP f = (Directives.bare d.args).countP f := (hf.bare _).symm
    _ = p.countP f := by rw [← hbare, hf.bare, hf.decode]
    _ ≤ v.countP f := hsub.countP_le

theorem Counts.text_le (hf : Counts d.command f) (hp : ';' ∉ p)
    (h : d.Carries q_sct (entry d.command p (d.command.queuedMess w))) :
    d.text.countP f ≤ w.countP f := by
  obtain ⟨a, t, heq, ha, -, hbare⟩ := h
  obtain ⟨-, rfl⟩ := (entry_inj heq ha).2 hp
  have hempty : (orEmpty w).countP f ≤ w.countP f := (orEmpty_sublist w).countP_le
  have hmess : (d.command.queuedMess w).countP f ≤ w.countP f := by
    have hspace : f ' ' = false := hf.white ' ' rfl
    cases d.command <;> simp [Command.queuedMess, hspace, hempty]
  calc d.text.countP f = (Directives.bare d.text).countP f := (hf.bare _).symm
    _ = (d.command.queuedMess w).countP f := by rw [← hbare, hf.bare, hf.decode]
    _ ≤ w.countP f := hmess

end queue

/-! ## The strings of a directive that gets through -/

section strings

variable {q_sct : Nat} {d : Directive} {v w : Text}

theorem not_mem_trimmed {x : Char} (hx : x ≠ ' ') (h : x ∉ d.args) : x ∉ d.trimmed := by
  intro hmem
  have hcons := (List.rdropWhile_prefix white _).subset hmem
  exact h ((List.mem_cons.mp hcons).resolve_left hx)

theorem semicolon_not_mem_parm (d : Directive) : ';' ∉ d.parm := by
  rw [Directive.parm, mem_encode_of_ne _ (by decide) (by decide) (by decide)]
  exact not_mem_trimmed (by decide) d.args_semicolon

theorem not_mem_quote (t : Text) : '\'' ∉ quote t := by
  induction t with
  | nil => exact List.not_mem_nil
  | cons c t ih =>
    rw [quote]
    split
    · simp [ih]
    · rename_i hc
      simp [ih, Ne.symm hc]

/-- A string that is counted right is not cut. -/
theorem not_cut {t u : Text} (ht : t = d.command.encode u)
    (hback : backslashes t ≤ backslashes v)
    (hspecial : d.command ≠ .SECTOR → specials t ≤ specials v) :
    ¬ (specials v < specials t ∧ ('\'' ∉ t → backslashes v < backslashes t)) := by
  rintro ⟨hs, hb⟩
  by_cases hc : d.command = .SECTOR
  · have hquote : '\'' ∉ t := by
      rw [ht, hc]
      exact not_mem_quote u
    exact absurd (hb hquote) (not_lt.mpr hback)
  · exact absurd hs (not_lt.mpr (hspecial hc))

/-- If the entry has the arguments and the text, the strings of the source are as they stand. -/
theorem clean_of_carries {vs : List Text} (hcall : stringCall d.source = some vs)
    (h : d.Carries q_sct (d.command.handler q_sct (vs.getD 0 []) (vs.getD 1 []))) :
    Clean d.parm ∧ Clean d.mess := by
  obtain ⟨v, rest, vs, hlit, rfl, hrest⟩ := stringCall_some d hcall
  rw [handler_eq] at h
  have hback := counts_backslashes d.command
  have hparm : backslashes d.parm ≤ backslashes v := hback.parm.trans_le (hback.args_le h)
  obtain ⟨rfl, rfl, hclean⟩ | hcut | ⟨x, y, rfl, hy, hlt⟩ := literal_cases hlit
  · refine ⟨hclean, ?_⟩
    obtain ⟨k, hk⟩ := hrest _ rfl
    cases k with
    | zero => cases hk
    | succ k =>
    obtain ⟨w, rest, vs, hlit, rfl, -⟩ := arguments_some hk
    have hsemi : ';' ∉ d.command.queuedParm q_sct d.parm :=
      not_mem_queuedParm (semicolon_not_mem_parm d)
    have hmess : backslashes d.mess ≤ backslashes w :=
      hback.mess.trans_le (hback.text_le hsemi h)
    obtain ⟨-, -, hclean⟩ | hcut | ⟨x, y, -, hy, -⟩ := literal_cases hlit
    · exact hclean
    · refine absurd hcut (not_cut rfl hmess fun hc => ?_)
      have hspecial := counts_specials hc
      exact hspecial.mess.trans_le (hspecial.text_le hsemi h)
    · simp [literal] at hy
  · refine absurd hcut (not_cut rfl hparm fun hc => ?_)
    have hspecial := counts_specials hc
    exact hspecial.parm.trans_le (hspecial.args_le h)
  · obtain ⟨rfl, -⟩ : [','] = y ∧ _ := by simpa [literal] using hy
    simp [backslashes] at hparm hlt
    omega

end strings

/-! ## What is safe -/

section safe

variable {d : Directive} {t : Text}

theorem pair_encode (c : Command) (t : Text) :
    ['\\', '\\'] <:+: c.encode t ↔ ['\\', '\\'] <:+: t := by
  cases c
  case SECTOR =>
    have hprefix : ∀ u, ['\\'] <+: quote u ↔ ['\\'] <+: u := by
      intro u
      cases u with
      | nil => rfl
      | cons x u =>
        rw [quote]
        split
        · rename_i hx
          simp [List.cons_prefix_cons, hx]
        · simp [List.cons_prefix_cons]
    rw [Command.encode]
    induction t with
    | nil => rfl
    | cons x t ih =>
      rw [quote]
      split
      · rename_i hx
        subst hx
        simp [List.infix_cons_iff, List.cons_prefix_cons, ih]
      · rw [List.infix_cons_iff, List.infix_cons_iff, List.cons_prefix_cons,
          List.cons_prefix_cons, hprefix]
        exact or_congr_right ih
  all_goals rfl

theorem getLast?_encode (c : Command) (t : Text) :
    (c.encode t).getLast? = some '\\' ↔ t.getLast? = some '\\' := by
  cases c
  case SECTOR =>
    rw [Command.encode]
    induction t using List.reverseRecOn with
    | nil => rfl
    | append_singleton t x ih =>
      rw [quote_append, quote]
      split
      · rename_i hx
        simp [quote, hx]
      · simp [quote]
  all_goals rfl

/-- A word without blanks is in a text just if it is in the text without the blanks around it. -/
theorem infix_bare_iff {w : Text} (hw : w ≠ []) (hblank : ∀ c ∈ w, white c = false) (t : Text) :
    w <:+: bare t ↔ w <:+: t := by
  have hnot : ∀ {l : Text}, (∀ c ∈ l, white c = true) → ∀ c ∈ l, c ∉ w := by
    intro l hl c hc hcw
    exact Bool.noConfusion ((hl c hc).symm.trans (hblank c hcw))
  obtain ⟨u, v, ht, hu, hv⟩ := @exists_stripWith white t
  conv_rhs => rw [ht]
  rw [infix_append_right_iff hw (hnot hv), infix_append_left_iff hw (hnot hu), bare]

theorem mem_bare_iff {x : Char} (hx : white x = false) (t : Text) : x ∈ bare t ↔ x ∈ t := by
  rw [← List.singleton_infix_iff, ← List.singleton_infix_iff]
  exact infix_bare_iff (by simp) (by simpa using hx) t

theorem getLast?_trimmed (d : Directive) : d.trimmed.getLast? = (bare d.args).getLast? := by
  have hbare : bare d.args = d.trimmed.dropWhile white := by
    rw [Directive.trimmed, dropWhile_rdropWhile, bare, stripWith, List.dropWhile_cons_of_pos rfl]
  rw [hbare]
  by_cases hnil : d.trimmed.dropWhile white = []
  · have hall := List.dropWhile_eq_nil_iff.mp hnil
    suffices h : d.trimmed = [] by rw [h, List.dropWhile_nil]
    by_contra hne
    refine List.rdropWhile_last_not white _ hne (hall _ (List.getLast_mem hne))
  · conv_lhs => rw [← @List.takeWhile_append_dropWhile _ white d.trimmed]
    rw [List.getLast?_append_of_ne_nil _ hnil]

theorem clean_parm_iff :
    Clean d.parm ↔ d.Plain d.args ∧ (bare d.args).getLast? ≠ some '\\' := by
  have hpair : ∀ t, ['\\', '\\'] <:+: bare t ↔ ['\\', '\\'] <:+: t :=
    infix_bare_iff (by simp) (by simp [white])
  have hquote : '\'' ∉ d.command.encode d.trimmed ↔ '\'' ∉ d.command.encode d.args := by
    by_cases hc : d.command = .SECTOR
    · rw [hc]
      exact iff_of_true (not_mem_quote _) (not_mem_quote _)
    · have hid : ∀ t, d.command.encode t = t := by
        intro t
        revert hc
        cases d.command <;> simp [Command.encode]
      rw [hid, hid, ← mem_bare_iff (by rfl), bare_trimmed, mem_bare_iff (by rfl)]
  have hinfix : ['\\', '\\'] <:+: d.parm ↔ ['\\', '\\'] <:+: d.args := by
    rw [Directive.parm, pair_encode, ← hpair d.trimmed, bare_trimmed, hpair]
  have hlast : d.parm.getLast? = some '\\' ↔ (bare d.args).getLast? = some '\\' := by
    rw [Directive.parm, getLast?_encode, getLast?_trimmed]
  constructor
  · intro h
    exact ⟨⟨hquote.mp h.quote, mt hinfix.mpr h.pair⟩, mt hlast.mpr h.last⟩
  · rintro ⟨⟨hq, hp⟩, hl⟩
    exact ⟨hquote.mpr hq, mt hinfix.mp hp, mt hlast.mp hl⟩

theorem clean_mess_iff :
    Clean d.mess ↔ d.Plain d.text ∧ (d.newline = false → d.text.getLast? ≠ some '\\') := by
  have hlast : d.mess.getLast? = some '\\' ↔
      d.newline = false ∧ d.text.getLast? = some '\\' := by
    rw [Directive.mess, getLast?_encode]
    cases d.newline <;> simp
  have hquote : '\'' ∈ d.mess ↔ '\'' ∈ d.command.encode d.text := by
    have hnewline : d.command.encode ['\n'] = ['\n'] := by cases d.command <;> rfl
    rw [Directive.mess, encode_append]
    cases d.newline <;> simp [hnewline]
  have hinfix : ['\\', '\\'] <:+: d.mess ↔ ['\\', '\\'] <:+: d.text := by
    rw [Directive.mess, pair_encode]
    refine infix_append_right_iff (by simp) ?_
    intro c hc
    split at hc
    · simp_all
    · cases hc
  constructor
  · intro h
    refine ⟨⟨mt hquote.mpr h.quote, mt hinfix.mpr h.pair⟩, ?_⟩
    exact fun hn hl => h.last (hlast.mpr ⟨hn, hl⟩)
  · rintro ⟨⟨hq, hp⟩, hl⟩
    exact ⟨mt hquote.mp hq, mt hinfix.mp hp, fun h => hl (hlast.mp h).1 (hlast.mp h).2⟩

end safe

/-! ## What the entry has and what the handler gets -/

section entry

variable {d : Directive} {q_sct : Nat} {p m : Text}

/-- What the entry or the handler has of the arguments. -/
theorem bare_trimmed_iff (d : Directive) :
    bare (unquote d.trimmed) = bare d.args ↔ ¬ ['+', '"'] <:+: d.args := by
  rw [bare_unquote, bare_trimmed, bare_unquote_eq_iff]

theorem trimmed_ne_zero (d : Directive) : d.trimmed ≠ ['0'] := by
  intro h
  have hpre := List.rdropWhile_prefix white (' ' :: d.args)
  rw [← Directive.trimmed, h] at hpre
  exact absurd (List.cons_prefix_cons.mp hpre).1 (by decide)

theorem orEmpty_eq {t : Text} (h : t ≠ ['0']) : orEmpty t = t := by
  by_cases hnil : t = []
  · rw [hnil]
    rfl
  · exact if_pos (by simp [truthy, hnil, h])

theorem orEmpty_quote (t : Text) : orEmpty (quote t) = quote (orEmpty t) := by
  have hnil : quote t = [] ↔ t = [] := by
    cases t with
    | nil => simp [quote]
    | cons x t =>
      rw [quote]
      split <;> simp
  have hzero : quote t = ['0'] ↔ t = ['0'] := by
    cases t with
    | nil => simp [quote]
    | cons x t =>
      rw [quote]
      split
      · rename_i hx
        simp [hx]
      · cases t with
        | nil => simp [quote]
        | cons y t =>
          rw [quote]
          split <;> simp
  have htruthy : truthy (quote t) = truthy t := by
    rw [truthy, truthy]
    simp only [ne_eq, hnil, hzero]
  rw [orEmpty, orEmpty, htruthy]
  split <;> rfl

/-- The parameter of a sector is its number, and the arguments behind a comma. -/
theorem sector_args (q_sct : Nat) (b : Bool) (t : Text) :
    Command.SECTOR.args q_sct (Nat.toDigits 10 q_sct ++ if b then ',' :: t else []) =
      some (if b then t else []) := by
  cases b with
  | false => exact if_pos (List.append_nil _)
  | true =>
    have hassoc : Nat.toDigits 10 q_sct ++ ',' :: t = (Nat.toDigits 10 q_sct ++ [',']) ++ t :=
      (List.append_assoc _ [','] t).symm
    rw [if_pos rfl, if_pos rfl, Command.args, if_neg (by simp), hassoc,
      if_pos (List.isPrefixOf_iff_prefix.mpr (List.prefix_append _ _)),
      List.drop_left' (by simp)]

/-- The arguments in the entry. -/
theorem entry_args_iff (q_sct : Nat) (d : Directive) :
    ((d.command.args q_sct (d.command.queuedParm q_sct d.parm)).map fun p =>
        bare (d.command.decode p)) = some (bare d.args) ↔
      (d.command = .SECTOR → ¬ ['+', '"'] <:+: d.args) := by
  have hbare : bare (bare d.trimmed) = bare d.args := by
    rw [bare_trimmed]
    exact (stripWith_rdropWhile _).trans (stripWith_dropWhile _)
  rw [Directive.parm]
  cases d.command
  case SYSTEM =>
    simpa [Command.args, Command.queuedParm, Command.decode, Command.encode] using hbare
  case KILL_CLIENT =>
    simpa [Command.args, Command.queuedParm, Command.decode, Command.encode] using hbare
  case PRINT =>
    simpa [Command.args, Command.queuedParm, Command.decode, Command.encode] using bare_trimmed
  case IGNORE =>
    simpa [Command.args, Command.queuedParm, Command.decode, Command.encode,
      orEmpty_eq (trimmed_ne_zero d)]
      using bare_trimmed
  case SECTOR =>
    rw [Command.queuedParm, sector_args, Command.encode, Command.decode, ← orEmpty,
      orEmpty_quote, orEmpty_eq (trimmed_ne_zero d), Option.map_some, unquote_quote,
      Option.some_inj, bare_trimmed_iff]
    simp

/-- The text in the entry. -/
theorem entry_text_iff (d : Directive) :
    bare (d.command.decode (d.command.queuedMess d.mess)) = bare d.text ↔
      (d.command = .SECTOR → ¬ ['+', '"'] <:+: d.text) ∧
      (d.newline = false → d.text = ['0'] → d.command = .SYSTEM ∨ d.command = .KILL_CLIENT) := by
  obtain ⟨u, hu⟩ : ∃ u, u = d.text ++ if d.newline then ['\n'] else [] := ⟨_, rfl⟩
  have hmess : d.mess = d.command.encode u := by rw [hu, Directive.mess]
  have hbare : bare u = bare d.text := by
    rw [hu]
    refine stripWith_append_of_white ?_ _
    intro c hc
    split at hc
    · rw [List.mem_singleton.mp hc]
      rfl
    · cases hc
  have hspace : ∀ t, bare (t ++ [' ']) = bare t :=
    stripWith_append_of_white (by simp [white])
  rw [hmess]
  by_cases hz : d.newline = false ∧ d.text = ['0']
  · obtain ⟨hn, ht⟩ := hz
    have hzero : u = ['0'] := by simp [hu, hn, ht]
    rw [hzero, hn, ht]
    cases d.command <;> decide
  · have hzero : u ≠ ['0'] := by
      intro h
      rw [hu] at h
      cases hn : d.newline with
      | false => exact hz ⟨hn, by simpa [hn] using h⟩
      | true =>
        rw [hn] at h
        exact absurd (congrArg List.getLast? h) (by simp)
    have hright : (d.newline = false → d.text = ['0'] →
        d.command = .SYSTEM ∨ d.command = .KILL_CLIENT) := fun hn ht => absurd ⟨hn, ht⟩ hz
    rw [and_iff_left hright]
    cases d.command
    case SYSTEM => simpa [Command.decode, Command.queuedMess, Command.encode] using hbare
    case KILL_CLIENT => simpa [Command.decode, Command.queuedMess, Command.encode] using hbare
    case PRINT =>
      simpa [Command.decode, Command.queuedMess, Command.encode, hspace, orEmpty_eq hzero]
        using hbare
    case IGNORE =>
      simpa [Command.decode, Command.queuedMess, Command.encode, hspace, orEmpty_eq hzero]
        using hbare
    case SECTOR =>
      rw [Command.decode, Command.queuedMess, Command.encode, orEmpty_quote, orEmpty_eq hzero,
        unquote_quote, bare_unquote, hbare, bare_unquote_eq_iff]
      simp

/-- The handler's line has the arguments and the text of a directive whose strings are as they
stand. -/
theorem carries_iff (q_sct : Nat) (d : Directive) :
    d.Carries q_sct (d.command.handler q_sct d.parm d.mess) ↔
      (d.command = .SECTOR → ¬ ['+', '"'] <:+: d.args ∧ ¬ ['+', '"'] <:+: d.text) ∧
      (d.newline = false → d.text = ['0'] → d.command = .SYSTEM ∨ d.command = .KILL_CLIENT) := by
  have hparm : ';' ∉ d.command.queuedParm q_sct d.parm :=
    not_mem_queuedParm (semicolon_not_mem_parm d)
  have hsplit : d.Carries q_sct (d.command.handler q_sct d.parm d.mess) ↔
      ((d.command.args q_sct (d.command.queuedParm q_sct d.parm)).map fun p =>
        bare (d.command.decode p)) = some (bare d.args) ∧
      bare (d.command.decode (d.command.queuedMess d.mess)) = bare d.text := by
    rw [handler_eq]
    constructor
    · rintro ⟨a, t, heq, ha, hargs, htext⟩
      obtain ⟨rfl, rfl⟩ := (entry_inj heq ha).2 hparm
      exact ⟨hargs, htext⟩
    · rintro ⟨hargs, htext⟩
      exact ⟨_, _, rfl, hparm, hargs, htext⟩
  rw [hsplit, entry_args_iff, entry_text_iff, ← and_assoc, ← imp_and]

end entry

section handler

variable {c : Command} {d : Directive} {q_sct : Nat} {p m : Text} {new_stmt : Bool}

theorem chomp_append_cons {x : Char} (hx : x ≠ '\n') (t u : Text) :
    chomp (t ++ x :: u) = t ++ x :: chomp u := by
  cases u with
  | nil =>
    have hlast : (t ++ [x]).getLast? ≠ some '\n' := by simpa using hx
    exact if_neg hlast
  | cons y u =>
    have hlast : (t ++ x :: y :: u).getLast? = (y :: u).getLast? := by
      rw [List.getLast?_append_of_ne_nil _ (List.cons_ne_nil _ _), List.getLast?_cons_cons]
    rw [chomp, chomp, hlast]
    split
    · rw [List.dropLast_append_of_ne_nil (List.cons_ne_nil _ _),
        List.dropLast_cons_of_ne_nil (List.cons_ne_nil _ _)]
    · rfl

theorem unquote_name (c : Command) : unquote c.name = c.name := by cases c <;> decide

/-- What a process takes out of an entry. -/
theorem received_entry {g : Option Text × Text}
    (hg : group ((unquote p).dropWhile white ++ ';' :: unquote (chomp m)) = some g) :
    ∃ prm, received new_stmt (entry c p m) = some (c.name, prm) ∧ prm.prm =
      if c = .SECTOR then (g.1.getD []).takeWhile (· ≠ ';') else g.1.getD [] := by
  have hline : entry c p m = ['-', '-', '+'] ++ (c.name ++ (' ' :: p ++ ';' :: m)) := by
    simp [entry]
  have hchomp : chomp (c.name ++ (' ' :: p ++ ';' :: m)) =
      c.name ++ ' ' :: (p ++ ';' :: chomp m) := by
    rw [← List.append_assoc, chomp_append_cons (by decide), List.append_assoc]
    rfl
  have hfront : (c.name ++ ' ' :: (p ++ ';' :: chomp m)).dropWhile white =
      c.name ++ ' ' :: (p ++ ';' :: chomp m) := by
    cases c <;> rfl
  have hunquote : unquote (c.name ++ ' ' :: (p ++ ';' :: chomp m)) =
      c.name ++ ' ' :: (unquote p ++ ';' :: unquote (chomp m)) := by
    rw [unquote_append (by decide) (by decide), unquote_name,
      unquote_append (by decide) (by decide)]
  have hgroup : group ((unquote p ++ ';' :: unquote (chomp m)).dropWhile white) = some g := by
    rw [List.dropWhile_append]
    split
    · rename_i hempty
      rw [List.isEmpty_iff.mp hempty] at hg
      exact hg
    · exact hg
  have hsector : Command.SECTOR.name <:+: c.name ↔ c = .SECTOR := by
    cases c <;> decide
  rw [received, hline, unmarked_eq (name_append_head _ _) rfl, Option.bind_some, hchomp,
    isql_do_cmd]
  dsimp only
  rw [hfront, ite_self, hunquote, commandPattern_eq c _ hgroup, Option.map_some]
  simp only [hsector]
  by_cases hc : c = .SECTOR
  · by_cases hsemi : ';' ∈ g.1.getD []
    · exact ⟨_, congrArg some (if_pos ⟨hc, hsemi⟩), by rw [if_pos hc]⟩
    · refine ⟨_, congrArg some (if_neg fun h => hsemi h.2), ?_⟩
      rw [if_pos hc, takeWhile_of_not_mem hsemi]
  · exact ⟨_, congrArg some (if_neg fun h => hc h.1), by rw [if_neg hc]⟩

theorem semicolon_mem_message (m : Text) : ';' ∈ unquote (chomp m) ↔ ';' ∈ m := by
  rw [mem_unquote_of_ne (by decide) (by decide) (by decide), chomp]
  split
  · rename_i hlast
    obtain ⟨u, rfl⟩ := List.getLast?_eq_some_iff.mp hlast
    simp
  · rfl

/-- The arguments of the other commands are the group itself. -/
theorem hands_other (hc : d.command ≠ .SECTOR) (hquote : '\'' ∉ p)
    (hbare : bare p = bare d.args) :
    d.Hands q_sct (entry d.command p m) ↔ ¬ ['+', '"'] <:+: d.args ∧ ';' ∉ m := by
  have hargs : ∀ t, d.command.args q_sct t = some t := by
    intro t
    revert hc
    cases d.command <;> simp [Command.args]
  have hwhole : ∀ t : Text, bare t = bare d.args → ';' ∉ t := by
    intro t ht
    rw [← mem_bare_iff (by rfl), ht, mem_bare_iff (by rfl)]
    exact d.args_semicolon
  have hmark : ['+', '"'] <:+: p ↔ ['+', '"'] <:+: d.args := by
    have hinfix := @infix_bare_iff ['+', '"'] (by simp) (by simp [white])
    rw [← hinfix p, hbare, hinfix]
  obtain ⟨g, hg⟩ := exists_group ((unquote p).dropWhile white) (unquote (chomp m))
  have hhands : d.Hands q_sct (entry d.command p m) ↔ bare (g.1.getD []) = bare d.args := by
    constructor
    · intro h
      obtain ⟨prm, hrec, hprm⟩ := h true
      obtain ⟨prm', hrec', hprm'⟩ := @received_entry d.command p m true g hg
      obtain rfl : prm = prm' := by
        rw [hrec'] at hrec
        exact (Prod.mk.inj (Option.some.inj hrec)).2.symm
      rw [if_neg hc] at hprm'
      rw [hargs, hprm'] at hprm
      exact Option.some.inj hprm
    · intro h new_stmt
      obtain ⟨prm, hrec, hprm⟩ := @received_entry d.command p m new_stmt g hg
      rw [if_neg hc] at hprm
      exact ⟨prm, hrec, by rw [hargs, hprm, Option.map_some, h]⟩
  rw [hhands]
  by_cases hargsmark : ['+', '"'] <:+: d.args
  · refine iff_of_false (fun h => ?_) fun h => h.1 hargsmark
    have hprefix : g.1.getD [] <+: (unquote p).dropWhile white ++ ';' :: unquote (chomp m) := by
      obtain ⟨o, z⟩ := g
      cases o with
      | none => exact List.nil_prefix
      | some t => exact group_prefix hg
    have hfront := prefix_append_cons (hwhole _ h) hprefix
    have hlt : pluses d.args < pluses d.args :=
      calc pluses d.args = pluses (g.1.getD []) := by rw [← pluses_bare, ← h, pluses_bare]
        _ ≤ pluses ((unquote p).dropWhile white) := hfront.sublist.countP_le
        _ ≤ pluses (unquote p) := (List.dropWhile_sublist white).countP_le
        _ < pluses p := pluses_unquote_lt (hmark.mpr hargsmark)
        _ = pluses d.args := by rw [← pluses_bare, hbare, pluses_bare]
    exact lt_irrefl _ hlt
  · rw [and_iff_right hargsmark]
    have hplain : unquote p = p := unquote_of_not_mark (mt hmark.mp hargsmark)
    have hhead : ((unquote p).dropWhile white).head? ≠ some '\'' := by
      rw [hplain]
      exact fun h => hquote ((List.dropWhile_sublist white).mem (List.mem_of_head? h))
    obtain ⟨g', hg', hlast⟩ := @group_last ((unquote p).dropWhile white) (unquote (chomp m)) hhead
    obtain rfl : g = g' := Option.some.inj (hg.symm.trans hg')
    rw [semicolon_mem_message] at hlast
    by_cases hm : ';' ∈ m
    · refine iff_of_false (fun h => ?_) fun h => h hm
      obtain ⟨u, hu⟩ := hlast.1 hm
      exact hwhole _ h (by simp [hu])
    · refine iff_of_true ?_ hm
      rw [hlast.2 hm, hplain, ← hbare]
      exact stripWith_dropWhile p

/-- The number of a sector and its arguments are in front of the first semicolon. -/
theorem hands_sector (hc : d.command = .SECTOR) :
    d.Hands q_sct (entry d.command (d.command.queuedParm q_sct d.parm) m) ↔
      ¬ ['+', '"'] <:+: d.args := by
  have hunquote : unquote (d.command.queuedParm q_sct d.parm) = Nat.toDigits 10 q_sct ++
      if truthy d.parm then ',' :: unquote d.parm else [] := by
    have hdigits : unquote (Nat.toDigits 10 q_sct) = Nat.toDigits 10 q_sct := by
      refine unquote_of_not_mark fun h => ?_
      have hplus : '+' ∈ Nat.toDigits 10 q_sct := h.subset (by simp)
      exact absurd (isDigit_of_mem_toDigits hplus) (by decide)
    rw [hc, Command.queuedParm]
    split
    · rw [unquote_append (by decide) (by decide), hdigits]
    · rw [List.append_nil, hdigits]
  obtain ⟨x, hx⟩ : ∃ x, x = unquote (d.command.queuedParm q_sct d.parm) := ⟨_, rfl⟩
  have hfront : x.dropWhile white = x ∧ x.head? ≠ some '\'' := by
    obtain ⟨b, bs, hb⟩ := List.exists_cons_of_ne_nil (@Nat.toDigits_ne_nil q_sct 10)
    have hdigit : b.isDigit = true := @isDigit_of_mem_toDigits q_sct b (by simp [hb])
    rw [hx, hunquote, hb, List.cons_append]
    refine ⟨List.dropWhile_cons_of_neg (by simp [white_of_isDigit hdigit]), ?_⟩
    rw [List.head?_cons, ne_eq, Option.some_inj]
    rintro rfl
    exact absurd hdigit (by decide)
  have hsemi : ';' ∉ x := by
    rw [hx, mem_unquote_of_ne (by decide) (by decide) (by decide)]
    exact not_mem_queuedParm (semicolon_not_mem_parm d)
  obtain ⟨g, hg, hmem, hnot⟩ := @group_last x (unquote (chomp m)) hfront.2
  have htake : (g.1.getD []).takeWhile (· ≠ ';') = x := by
    by_cases hm : ';' ∈ unquote (chomp m)
    · obtain ⟨u, hu⟩ := hmem hm
      rw [hu, (takeWhile_semicolon hsemi).1]
    · rw [hnot hm, takeWhile_of_not_mem hsemi]
  have hargs : (d.command.args q_sct x).map bare = some (bare (unquote d.trimmed)) := by
    have horempty : orEmpty d.parm = d.parm := by
      rw [Directive.parm, hc, Command.encode, orEmpty_quote, orEmpty_eq (trimmed_ne_zero d)]
    have hif : (if truthy d.parm then unquote d.parm else []) = unquote (orEmpty d.parm) := by
      rw [orEmpty]
      split <;> rfl
    rw [hx, hunquote, hc, sector_args, hif, horempty, Directive.parm, hc, Command.encode,
      unquote_quote, Option.map_some]
  have hreceived : ∀ new_stmt, ∃ prm, received new_stmt
      (entry d.command (d.command.queuedParm q_sct d.parm) m) = some (d.command.name, prm) ∧
        prm.prm = x := by
    intro new_stmt
    rw [← hfront.1, hx] at hg
    obtain ⟨prm, hrec, hprm⟩ := @received_entry d.command _ m new_stmt g hg
    rw [if_pos hc, htake] at hprm
    exact ⟨prm, hrec, hprm⟩
  rw [← bare_trimmed_iff, ← Option.some_inj, ← hargs]
  constructor
  · intro h
    obtain ⟨prm, hrec, hprm⟩ := h true
    obtain ⟨prm', hrec', rfl⟩ := hreceived true
    rw [hrec'] at hrec
    rwa [(Prod.mk.inj (Option.some.inj hrec)).2]
  · intro h new_stmt
    obtain ⟨prm, hrec, rfl⟩ := hreceived new_stmt
    exact ⟨prm, hrec, h⟩

theorem hands_iff (q_sct : Nat) (d : Directive) (hquote : '\'' ∉ d.command.encode d.args) :
    d.Hands q_sct (d.command.handler q_sct d.parm d.mess) ↔
      ¬ ['+', '"'] <:+: d.args ∧ (d.command ≠ .SECTOR → ';' ∉ d.text) := by
  rw [handler_eq]
  by_cases hc : d.command = .SECTOR
  · rw [hands_sector hc]
    simp [hc]
  · have hid : ∀ t, d.command.encode t = t := by
      intro t
      revert hc
      cases d.command <;> simp [Command.encode]
    have hempty : ';' ∈ orEmpty d.mess ↔ ';' ∈ d.mess := by
      by_cases hzero : d.mess = ['0']
      · rw [hzero]
        decide
      · rw [orEmpty_eq hzero]
    have hmess : ';' ∈ d.command.queuedMess d.mess ↔ ';' ∈ d.text := by
      have htext : ';' ∈ d.mess ↔ ';' ∈ d.text := by
        rw [Directive.mess, hid]
        cases d.newline <;> simp
      rw [← htext]
      cases hcommand : d.command <;> simp_all [Command.queuedMess]
    have hparm : d.command.queuedParm q_sct d.parm = bare d.trimmed ∨
        d.command.queuedParm q_sct d.parm = d.trimmed := by
      rw [Directive.parm, hid]
      cases hcommand : d.command
      case SYSTEM => exact .inl rfl
      case KILL_CLIENT => exact .inl rfl
      case PRINT => exact .inr rfl
      case IGNORE => exact .inr (orEmpty_eq (trimmed_ne_zero d))
      case SECTOR => exact absurd hcommand hc
    have hbare : bare (d.command.queuedParm q_sct d.parm) = bare d.args := by
      rcases hparm with h | h
      · rw [h, bare_trimmed]
        exact (stripWith_rdropWhile _).trans (stripWith_dropWhile _)
      · rw [h, bare_trimmed]
    have hnot : '\'' ∉ d.command.queuedParm q_sct d.parm := by
      rw [hid] at hquote
      rwa [← mem_bare_iff (by rfl), hbare, mem_bare_iff (by rfl)]
    rw [hands_other hc hnot hbare, hmess]
    simp [hc]

end handler

/-! ## The round trip -/

/-- A call is made just if its strings are right. -/
theorem stringCall_of_syntaxError {src : Text} (h : syntaxError src = true) :
    stringCall src = none := by
  have hbroken : ∀ n t, broken n t = true → arguments n t = none := by
    intro n
    induction n with
    | zero => simp [broken]
    | succ n ih =>
      intro t h
      rw [broken.eq_def] at h
      split at h
      · rename_i fuel t heq
        obtain rfl : n = fuel := Nat.succ.inj heq
        rw [arguments]
        split at h
        · rename_i hlit
          rw [hlit, Option.bind_none]
        · rename_i v r hlit
          rw [hlit, Option.bind_some]
          exact congrArg (Option.map (v :: ·)) (ih r h)
        · rename_i v r hcomma hlit
          rw [hlit, Option.bind_some]
          dsimp only
          split
          · rename_i r'
            exact absurd rfl (hcomma r')
          · rename_i r'
            exact absurd h (by simp [misplaced, white, word])
          · rfl
      · cases h
  rw [syntaxError] at h
  rw [stringCall]
  split at h
  · exact hbroken _ _ h
  · cases h

theorem evaluates_stringCall : Evaluates stringCall :=
  ⟨fun _ _ h => h, fun _ h => stringCall_of_syntaxError h⟩

variable {perl : Text → Option (List Text)} {d : Directive}

/-- A directive that is safe gets through. Of the others none does for which it is known what Perl
makes of the source. -/
theorem roundTrip_iff_literal (hperl : Evaluates perl) (q_sct : Nat) (d : Directive) :
    (d.Safe → d.RoundTrip perl q_sct) ∧
      ((stringCall d.source).isSome ∨ syntaxError d.source = true →
        d.RoundTrip perl q_sct → d.Safe) := by
  have hline : ∀ vs, perl d.source = some vs → queued perl q_sct d.print =
      some (d.command.handler q_sct (vs.getD 0 []) (vs.getD 1 [])) := by
    intro vs hvs
    rw [queued_print, hvs, Option.map_some]
  constructor
  · rintro ⟨hargs, hend, hmark, htext, htextend, htextmark, hsemi, hzero⟩
    have hparm : Clean d.parm := clean_parm_iff.mpr ⟨hargs, hend⟩
    have hmess : Clean d.mess := clean_mess_iff.mpr ⟨htext, htextend⟩
    have hcall := hperl.strings _ _ (stringCall_source d hparm hmess)
    refine ⟨_, hline _ hcall, ?_, ?_⟩
    · exact (carries_iff q_sct d).mpr ⟨fun hc => ⟨hmark, htextmark hc⟩, hzero⟩
    · exact (hands_iff q_sct d hargs.1).mpr ⟨hmark, hsemi⟩
  · rintro hknown ⟨line, hqueued, hcarries, hhands⟩
    obtain hcall | herror := hknown
    · obtain ⟨vs, hvs⟩ := Option.isSome_iff_exists.mp hcall
      rw [hline _ (hperl.strings _ _ hvs)] at hqueued
      obtain rfl := Option.some.inj hqueued
      obtain ⟨hparm, hmess⟩ := clean_of_carries hvs hcarries
      obtain rfl : [d.parm, d.mess] = vs :=
        Option.some.inj ((stringCall_source d hparm hmess).symm.trans hvs)
      obtain ⟨hargs, hend⟩ := clean_parm_iff.mp hparm
      obtain ⟨htext, htextend⟩ := clean_mess_iff.mp hmess
      obtain ⟨hmarks, hzero⟩ := (carries_iff q_sct d).mp hcarries
      obtain ⟨hmark, hsemi⟩ := (hands_iff q_sct d hargs.1).mp hhands
      exact ⟨hargs, hend, hmark, htext, htextend, fun hc => (hmarks hc).2, hsemi, hzero⟩
    · rw [queued_print, hperl.errors _ herror] at hqueued
      cases hqueued

theorem roundTrip_home : Directive.RoundTrip ⟨.SYSTEM, "ls $HOME".toList, [], true, by decide,
    by decide, by decide⟩ stringCall 0 :=
  (roundTrip_iff_literal evaluates_stringCall 0 _).1
    ⟨⟨by decide, by decide⟩, by decide, by decide, ⟨by decide, by decide⟩, by decide, by decide,
      by decide, by decide⟩

/-- An argument in quotes is not handed on: the source is no Perl. -/
theorem not_roundTrip_echo : Evaluates stringCall ∧ ¬ Directive.RoundTrip ⟨.SYSTEM,
    "echo 'a'".toList, [], true, by decide, by decide, by decide⟩ stringCall 0 := by
  refine ⟨evaluates_stringCall, ?_⟩
  rintro ⟨line, hqueued, -⟩
  rw [queued_print, stringCall_of_syntaxError (by decide)] at hqueued
  cases hqueued

end Natc.Harness.Directives
