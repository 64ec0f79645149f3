import Natc.Agent.Wire
import Natc.Lib.Tokens

/-!
# The request of `EXECUTE`

The host copies the words of an operation and of an environment text into the arrays of
`strExecute`. The struct is kept as it lies in memory, since a word that is too long for its array
runs on into the next one.
-/

namespace Natc.Agent

open Lib

/-- `gSep`. -/
def gSep (c : UInt8) : Bool := c = 32 ∨ c = 10 ∨ c = 9

/-- All that `strtok` gives for a string. -/
def strtok (s : Bytes) : List Bytes := tokens gSep (cString s)

/-- The bytes of a word. -/
def ascii (s : String) : Bytes := s.toList.map fun c => UInt8.ofNat c.toNat

def operationWords : List Bytes :=
  ["quit", "server", "put", "get", "mkdir", "rmdir", "execute", "help", "delete", "copy",
    "terminate"].map ascii

/-- The first operation that begins with the token. -/
def parsing (aToken : Bytes) : Option Opt :=
  (operationWords.findIdx? fun word => aToken.isPrefixOf word).bind fun sIndex =>
    Opt.ofCode? sIndex

/-- The length of `returnMessage`. -/
def sizeofReturnMessage : Nat := 1024

def MAX_ARGS : Nat := 32

def MAX_ARG_LENGTH : Nat := 1024

/-- The places of the fields of `strExecute`. -/
def argcAt : Nat := 1024

def argvAt (i : Nat) : Nat := 1028 + MAX_ARG_LENGTH * i

def envcAt : Nat := 33796

def envpAt (i : Nat) : Nat := 33800 + MAX_ARG_LENGTH * i

def returnOptionAt : Nat := 66568

def sizeofExecute : Nat := 66572

/-- The memory of a `strExecute`. -/
structure ExecuteMem where
  bytes : Bytes
  size : bytes.length = sizeofExecute
  deriving DecidableEq

/-- Bytes into the struct; `none` if they do not stay inside. -/
def store (m : ExecuteMem) (place : Nat) (bs : Bytes) : Option ExecuteMem :=
  if h : place + bs.length ≤ sizeofExecute then
    some ⟨m.bytes.take place ++ (bs ++ m.bytes.drop (place + bs.length)), by
      simp [m.size]
      omega⟩
  else none

def strcpy (m : ExecuteMem) (place : Nat) (s : Bytes) : Option ExecuteMem := store m place (s ++ [0])

/-- Words into the elements of an array from the `i`-th on. -/
def copyWords (place : Nat → Nat) : Nat → List Bytes → ExecuteMem → Option ExecuteMem
  | _, [], m => some m
  | i, t :: ts, m => (strcpy m (place i) t).bind (copyWords place (i + 1) ts)

/-- The words up to one that stops the loop, at most `room`, and what follows. -/
def takeWords (stop : Bytes → Bool) : Nat → List Bytes → List Bytes × List Bytes
  | _, [] => ([], [])
  | room, t :: ts =>
      if stop t || room == 0 then ([], t :: ts)
      else (t :: (takeWords stop (room - 1) ts).1, (takeWords stop (room - 1) ts).2)

def argsWord : Bytes := ascii "args"

def envsWord : Bytes := ascii "envs"

def returnWord : Bytes := ascii "return"

def stdoutWord : Bytes := ascii "stdout"

/-- The parts of an operation: `execute function (args ..) (envs ..)` and the words behind.
`options` tells whether anything follows the function. -/
structure ExecuteWords where
  function : Bytes
  options : Bool
  argv : List Bytes
  envp : List Bytes
  rest : List Bytes
  deriving DecidableEq

/-- The words of an option that begins with `word`, and what follows. -/
def takeOption (word : Bytes) (stop : Bytes → Bool) (ws : List Bytes) : List Bytes × List Bytes :=
  if ws.head? = some word then takeWords stop MAX_ARGS ws.tail else ([], ws)

def executeWords : List Bytes → Option ExecuteWords
  | [_, function] => some ⟨function, false, [], [], []⟩
  | _ :: function :: ws =>
      let args := takeOption argsWord (fun w => w = envsWord || w = returnWord) ws
      let envs := takeOption envsWord (· = returnWord) args.2
      some ⟨function, true, args.1, envs.1, envs.2⟩
  | _ => none

/-- `(return stdout)` at the end of an operation: what it sets, `none` if something else is there. -/
def returnOption (rest : List Bytes) : Option (Option Int) :=
  if rest = [] then some none
  else if rest = [returnWord] then some (some 0)
  else if rest = [returnWord, stdoutWord] then some (some 1)
  else none

/-- What comes of `executeOpt` before it waits for the target. -/
inductive ExecuteResult where
  /-- A copy leaves its memory. -/
  | undefined
  | failure
  /-- Nothing is sent, but the operation goes on to report success. -/
  | unsent
  | sent (sExecute : ExecuteMem)
  deriving DecidableEq

/-- The operation's own words in the struct. -/
def copyOperation (sExecute : ExecuteMem) (words : ExecuteWords) : Option ExecuteMem := do
  let m ← store sExecute argcAt (htonl 0)
  let m ← store m envcAt (htonl 0)
  let m ← store m returnOptionAt (htonl 0)
  let m ← strcpy m 0 words.function
  if words.options then
    let m ← copyWords argvAt 0 words.argv m
    let m ← store m argcAt (htonl words.argv.length)
    let m ← copyWords envpAt 0 words.envp m
    store m envcAt (htonl words.envp.length)
  else some m

/-- `returnOption` is set in the order of the host. -/
def setReturnOption (m : ExecuteMem) : Option Int → Option ExecuteMem
  | none => some m
  | some option => store m returnOptionAt (htonl option).reverse

/-- The environment text behind the operation's own environment. -/
def copyEnvp (m : ExecuteMem) (sCount : Nat) (envs : List Bytes) : Option ExecuteMem := do
  let envs := envs.take (MAX_ARGS - sCount)
  let m ← copyWords envpAt sCount envs m
  store m envcAt (htonl (sCount + envs.length : Nat))

/-- `executeOpt`, from the operation and the environment text to the request. `sExecute` is what
the stack has in the place of the struct. -/
def executeOpt (malloc : Bool) (sExecute : ExecuteMem) (aOrigin aEnvp : Bytes) : ExecuteResult :=
  if !malloc then .failure
  else if BUF_SIZE ≤ (cString aEnvp).length then .undefined
  else
    match executeWords (strtok aOrigin) with
    | none => .failure
    | some words =>
        match copyOperation sExecute words with
        | none => .undefined
        | some m =>
            match returnOption words.rest with
            | none => .failure
            | some option =>
                match strtok aEnvp with
                | [] => .undefined
                | sToken :: envs =>
                    if sToken = envsWord then
                      match (setReturnOption m option).bind fun m =>
                          copyEnvp m words.envp.length envs with
                      | some m => .sent m
                      | none => .undefined
                    else .unsent

/-- `execute`, as far as it leads to `executeOpt`; `none` if it does not. -/
def execute (mallocBuf mallocEnvp : Bool) (sExecute : ExecuteMem) (aBuf aEnvp : Bytes) :
    Option ExecuteResult :=
  let sBuf := cString aBuf
  if sBuf = [10] then none
  else if !mallocBuf then some .failure
  else if BUF_SIZE ≤ sBuf.length ∨ sizeofReturnMessage ≤ sBuf.length then some .undefined
  else
    match strtok sBuf with
    | [] => none
    | sToken :: _ =>
        if parsing sToken = some .EXECUTE then some (executeOpt mallocEnvp sExecute sBuf aEnvp)
        else none

section Memory

variable {m m' : ExecuteMem} {place i : Nat} {bs t : Bytes} {ts : List Bytes}

theorem store_isSome : (store m place bs).isSome ↔ place + bs.length ≤ sizeofExecute := by
  unfold store
  split <;> simp [*]

private theorem bytes_of_store (h : store m place bs = some m') :
    place + bs.length ≤ sizeofExecute ∧
      m'.bytes = m.bytes.take place ++ (bs ++ m.bytes.drop (place + bs.length)) := by
  unfold store at h
  split at h
  · rename_i hfits
    cases h
    exact ⟨hfits, rfl⟩
  · cases h

/-- What lies in front of the bytes stored stays. -/
theorem take_of_store (h : store m place bs = some m') {k : Nat} (hk : k ≤ place) :
    m'.bytes.take k = m.bytes.take k := by
  obtain ⟨hfits, hbytes⟩ := bytes_of_store h
  have hlen : (m.bytes.take place).length = place := by
    rw [List.length_take, m.size]
    omega
  rw [hbytes, List.take_append_of_le_length (by omega), List.take_take, Nat.min_eq_left hk]

theorem drop_place_of_store (h : store m place bs = some m') :
    m'.bytes.drop place = bs ++ m.bytes.drop (place + bs.length) := by
  obtain ⟨hfits, hbytes⟩ := bytes_of_store h
  have hlen : (m.bytes.take place).length = place := by
    rw [List.length_take, m.size]
    omega
  rw [hbytes, List.drop_left' hlen]

/-- What lies behind them stays. -/
theorem drop_of_store (h : store m place bs = some m') {k : Nat} (hk : place + bs.length ≤ k) :
    m'.bytes.drop k = m.bytes.drop k := by
  have hk' : k = place + (bs.length + (k - (place + bs.length))) := by omega
  rw [hk', ← List.drop_drop, drop_place_of_store h, ← List.drop_drop, List.drop_left,
    List.drop_drop, Nat.add_assoc]

/-- The words fit into the struct from the `i`-th element on. -/
def FitWords (place : Nat → Nat) : Nat → List Bytes → Prop
  | _, [] => True
  | i, t :: ts => place i + (t.length + 1) ≤ sizeofExecute ∧ FitWords place (i + 1) ts

theorem copyWords_isSome (place : Nat → Nat) :
    (copyWords place i ts m).isSome ↔ FitWords place i ts := by
  induction ts generalizing i m with
  | nil => simp [copyWords, FitWords]
  | cons t ts ih =>
    have hsome : (store m (place i) (t ++ [0])).isSome ↔
        place i + (t ++ [0]).length ≤ sizeofExecute := store_isSome
    rw [List.length_append, List.length_singleton] at hsome
    rw [copyWords, FitWords, ← hsome, strcpy]
    cases hstore : store m (place i) (t ++ [0]) with
    | none => simp
    | some m' => simp [ih]

/-- Copying words does not touch what lies in front of the array. -/
theorem take_of_copyWords {place : Nat → Nat} {k : Nat} (h : copyWords place i ts m = some m')
    (hk : ∀ j, i ≤ j → k ≤ place j) : m'.bytes.take k = m.bytes.take k := by
  induction ts generalizing i m with
  | nil =>
    cases h
    rfl
  | cons t ts ih =>
    obtain ⟨m₁, hstore, hcopy⟩ := Option.bind_eq_some_iff.mp h
    rw [ih hcopy fun j hj => hk j (by omega), take_of_store hstore (hk i (Nat.le_refl i))]

end Memory

section Operation

private theorem argcAt_le_argvAt (i : Nat) : argcAt ≤ argvAt i := by
  simp only [argcAt, argvAt]
  omega

theorem argcAt_le_envpAt (i : Nat) : argcAt ≤ envpAt i := by
  simp only [argcAt, envpAt]
  omega

/-- The copies of the operation's own words stay inside the struct. -/
def OperationFits (words : ExecuteWords) : Prop :=
  words.function.length + 1 ≤ sizeofExecute ∧
    (words.options → FitWords argvAt 0 words.argv ∧ FitWords envpAt 0 words.envp)

private theorem isSome_bind_iff {α β : Type} {o : Option α} {f : α → Option β} {P : Prop}
    (hf : ∀ x, (f x).isSome ↔ P) : (o.bind f).isSome ↔ o.isSome ∧ P := by
  cases o <;> simp [hf]

private theorem storeInt_isSome (m : ExecuteMem) (place : Nat) (n : Int)
    (h : place + 4 ≤ sizeofExecute) : (store m place (htonl n)).isSome :=
  store_isSome.mpr (by rwa [length_htonl])

private theorem bind_storeInt_isSome (m : ExecuteMem) (place : Nat) (n : Int)
    (h : place + 4 ≤ sizeofExecute) {f : ExecuteMem → Option ExecuteMem} {P : Prop}
    (hf : ∀ m, (f m).isSome ↔ P) : ((store m place (htonl n)).bind f).isSome ↔ P := by
  rw [isSome_bind_iff hf]
  exact and_iff_right (storeInt_isSome m place n h)

theorem copyOperation_isSome (m : ExecuteMem) (words : ExecuteWords) :
    (copyOperation m words).isSome ↔ OperationFits words := by
  simp only [copyOperation, Option.bind_eq_bind]
  refine bind_storeInt_isSome m argcAt 0 (by decide) fun m => ?_
  refine bind_storeInt_isSome m envcAt 0 (by decide) fun m => ?_
  refine bind_storeInt_isSome m returnOptionAt 0 (by decide) fun m => ?_
  refine (isSome_bind_iff (P := words.options →
    FitWords argvAt 0 words.argv ∧ FitWords envpAt 0 words.envp) fun m => ?_).trans ?_
  · cases words.options with
    | false => simp
    | true =>
      simp only [if_true, forall_const]
      refine (isSome_bind_iff (P := FitWords envpAt 0 words.envp) fun m => ?_).trans ?_
      · refine bind_storeInt_isSome m argcAt _ (by decide) fun m => ?_
        refine (isSome_bind_iff (P := True) fun m => ?_).trans ?_
        · exact iff_of_true (storeInt_isSome m envcAt _ (by decide)) trivial
        · rw [copyWords_isSome, and_true]
      · rw [copyWords_isSome]
  · rw [strcpy, store_isSome, List.length_append, List.length_singleton, Nat.zero_add]
    rfl

/-- What lies in front of `argc`: the function, as far as it fits. -/
theorem take_of_copyOperation {m m' : ExecuteMem} {words : ExecuteWords}
    (h : copyOperation m words = some m') :
    ∃ tail, m'.bytes.take argcAt = (words.function ++ 0 :: tail).take argcAt := by
  simp only [copyOperation, Option.bind_eq_bind] at h
  obtain ⟨m₁, -, h⟩ := Option.bind_eq_some_iff.mp h
  obtain ⟨m₂, -, h⟩ := Option.bind_eq_some_iff.mp h
  obtain ⟨m₃, -, h⟩ := Option.bind_eq_some_iff.mp h
  obtain ⟨m₄, hfunction, h⟩ := Option.bind_eq_some_iff.mp h
  have hcopied := drop_place_of_store hfunction
  rw [List.drop_zero, List.append_assoc] at hcopied
  refine ⟨m₃.bytes.drop (0 + (words.function ++ [0]).length), ?_⟩
  rw [← List.singleton_append, ← hcopied]
  split at h
  · obtain ⟨m₅, hargv, h⟩ := Option.bind_eq_some_iff.mp h
    obtain ⟨m₆, hargc, h⟩ := Option.bind_eq_some_iff.mp h
    obtain ⟨m₇, henvp, henvc⟩ := Option.bind_eq_some_iff.mp h
    rw [take_of_store henvc (by decide), take_of_copyWords henvp fun j _ => argcAt_le_envpAt j,
      take_of_store hargc (Nat.le_refl _), take_of_copyWords hargv fun j _ => argcAt_le_argvAt j]
  · cases h
    rfl

/-- The words that `executeOpt` still has room for. -/
def roomFor (sCount : Nat) (envs : List Bytes) : List Bytes := envs.take (MAX_ARGS - sCount)

theorem copyEnvp_isSome (m : ExecuteMem) (option : Option Int) (sCount : Nat) (envs : List Bytes) :
    ((setReturnOption m option).bind fun m => copyEnvp m sCount envs).isSome ↔
      FitWords envpAt sCount (roomFor sCount envs) := by
  have hcopy : ∀ m, (copyEnvp m sCount envs).isSome ↔
      FitWords envpAt sCount (roomFor sCount envs) := by
    intro m
    refine (isSome_bind_iff (P := True) fun m => ?_).trans ?_
    · exact iff_of_true (storeInt_isSome m envcAt _ (by decide)) trivial
    · rw [copyWords_isSome, and_true, roomFor]
  rw [isSome_bind_iff hcopy, and_iff_right]
  cases option with
  | none => rfl
  | some n => exact store_isSome.mpr (by rw [List.length_reverse, length_htonl]; decide)

end Operation

end Natc.Agent
