import Natc.Agent.Execute

/-!
# The environment of a command

The target takes function, arguments and environment of a command out of the struct it receives. The
environment is what the host copied where every word but the last keeps to its array.
-/

namespace Natc.Agent

open Lib

/-- An element of an array of words as the target reads it. -/
def entry (place : Nat → Nat) (sExecute : ExecuteMem) (i : Nat) : Bytes :=
  cString (sExecute.bytes.drop (place i))

def entries (place : Nat → Nat) (sExecute : ExecuteMem) : Nat → Nat → List Bytes
  | _, 0 => []
  | i, n + 1 => entry place sExecute i :: entries place sExecute (i + 1) n

/-- A count of the struct. -/
def countAt (place : Nat) (sExecute : ExecuteMem) : Nat :=
  (ntohl ((sExecute.bytes.drop place).take 4)).toNat

/-- What the target executes. With an empty `sEnvp` the command has the environment of the target. -/
structure Command where
  sFunctionName : Bytes
  sArgv : List Bytes
  sEnvp : List Bytes
  deriving DecidableEq

/-- `/bin`. -/
def binWord : Bytes := ascii "/bin"

/-- The name of the function; an absolute one is taken from the installation. -/
def functionName (altibaseHome : Option Bytes) (sEnvc : Nat) (function : Bytes) : Bytes :=
  match altibaseHome with
  | some sEnv =>
      if 0 < sEnvc ∧ function.head? = some 47 then sEnv ++ (binWord ++ function) else function
  | none => function

/-- The length of `sFunctionName`. -/
def sizeofFunctionName : Nat := 1024

/-- `execute` of the target; `none` if the name of the function leaves its array. -/
def executeTarget (altibaseHome : Option Bytes) (sExecute : ExecuteMem) : Option Command :=
  let sArgc := countAt argcAt sExecute
  let sEnvc := countAt envcAt sExecute
  let sFunctionName := functionName altibaseHome sEnvc (cString sExecute.bytes)
  if sizeofFunctionName ≤ sFunctionName.length then none
  else
    some ⟨sFunctionName, entries argvAt sExecute 0 sArgc, entries envpAt sExecute 0 sEnvc⟩

section Entries

variable {m m' : ExecuteMem} {i : Nat} {t : Bytes} {ts : List Bytes}

theorem entries_add (place : Nat → Nat) (m : ExecuteMem) (i a b : Nat) :
    entries place m i (a + b) = entries place m i a ++ entries place m (i + a) b := by
  induction a generalizing i with
  | zero => rw [Nat.zero_add]; rfl
  | succ a ih =>
    rw [Nat.add_right_comm, entries, entries, ih, Nat.add_assoc, Nat.add_comm 1 a]
    rfl

theorem length_entries (place : Nat → Nat) (m : ExecuteMem) (i n : Nat) :
    (entries place m i n).length = n := by
  induction n generalizing i with
  | zero => rfl
  | succ n ih => rw [entries, List.length_cons, ih]

private theorem entries_of_storeEnvc {c : Int} (h : store m envcAt (htonl c) = some m')
    (i n : Nat) : entries envpAt m' i n = entries envpAt m i n := by
  induction n generalizing i with
  | zero => rfl
  | succ n ih =>
    have hbehind : envcAt + (htonl c).length ≤ envpAt i := by
      simp only [length_htonl, envcAt, envpAt]
      omega
    rw [entries, entries, ih, entry, entry, drop_of_store h hbehind]

theorem countAt_of_store {place n : Nat} (h : store m place (htonl n) = some m')
    (hn : n ≤ 2 * MAX_ARGS) : countAt place m' = n := by
  have hrange : toInt32 (n : Int) = n := by
    simp only [MAX_ARGS] at hn
    exact toInt32_of_range _ (by omega) (by omega)
  rw [countAt, drop_place_of_store h, List.take_left' (length_htonl _), ntohl_htonl, hrange,
    Int.toNat_natCast]

private theorem envpAt_mono {i j : Nat} (h : i ≤ j) : envpAt i ≤ envpAt j := by
  simp only [envpAt, MAX_ARG_LENGTH]
  omega

/-- What the target reads for words copied one behind the other: a word that fills its array runs
on into the next one. -/
def runOn : List Bytes → List Bytes
  | [] => []
  | [t] => [t]
  | t :: t' :: ts =>
      (if t.length < MAX_ARG_LENGTH then t
        else t.take MAX_ARG_LENGTH ++ (runOn (t' :: ts)).headD []) :: runOn (t' :: ts)

private theorem cString_append {x y : Bytes} (hx : 0 ∉ x) : cString (x ++ y) = x ++ cString y := by
  have hne : ∀ c ∈ x, (c ≠ 0) = true := by
    intro c hc
    simp only [eq_iff_iff, iff_true]
    rintro rfl
    exact hx hc
  rw [cString, List.takeWhile_append_of_pos (by simpa using hne)]
  rfl

private theorem cString_eq_self {x : Bytes} (hx : 0 ∉ x) : cString x = x := by
  have h := cString_append (y := []) hx
  rwa [List.append_nil, show cString [] = [] from rfl, List.append_nil] at h

/-- A string whose first `n` bytes are those of a word and its zero: a word that is too long runs on
into what lies behind. -/
private theorem cString_of_take {bs tail : Bytes} {n : Nat} (ht : 0 ∉ t)
    (h : bs.take n = (t ++ 0 :: tail).take n) :
    cString bs = if t.length < n then t else t.take n ++ cString (bs.drop n) := by
  have hsplit := List.take_append_drop n bs
  rw [h] at hsplit
  split
  · rename_i hlt
    obtain ⟨k, hk⟩ := Nat.exists_eq_succ_of_ne_zero (Nat.sub_ne_zero_of_lt hlt)
    rw [← hsplit, List.take_append, List.take_of_length_le (by omega), hk, List.take_succ_cons,
      List.append_assoc, cString_append ht]
    simp [cString]
  · have htake : 0 ∉ t.take n := fun hmem => ht (List.mem_of_mem_take hmem)
    rw [List.take_append_of_le_length (by omega)] at hsplit
    conv_lhs => rw [← hsplit, cString_append htake]

private theorem entry_of_strcpy {m₁ : ExecuteMem} (ht : 0 ∉ t)
    (hstore : strcpy m (envpAt i) t = some m₁)
    (hkeep : m'.bytes.take (envpAt (i + 1)) = m₁.bytes.take (envpAt (i + 1))) :
    entry envpAt m' i = if t.length < MAX_ARG_LENGTH then t
      else t.take MAX_ARG_LENGTH ++ entry envpAt m' (i + 1) := by
  have hplace := drop_place_of_store hstore
  rw [List.append_assoc, List.singleton_append] at hplace
  have hnext : envpAt (i + 1) = envpAt i + MAX_ARG_LENGTH := by
    simp only [envpAt, MAX_ARG_LENGTH]
    omega
  have helem : (m'.bytes.drop (envpAt i)).take MAX_ARG_LENGTH =
      (t ++ (0 :: m.bytes.drop (envpAt i + (t ++ [0]).length))).take MAX_ARG_LENGTH := by
    rw [← hplace, List.take_drop, List.take_drop, ← hnext, hkeep]
  rw [entry, cString_of_take ht helem, List.drop_drop, ← hnext, entry]

theorem entries_of_copyWords (hts : ∀ t ∈ ts, 0 ∉ t) (h : copyWords envpAt i ts m = some m') :
    entries envpAt m' i ts.length = runOn ts := by
  induction ts generalizing i m with
  | nil => rfl
  | cons t ts ih =>
    obtain ⟨ht, hts⟩ := List.forall_mem_cons.mp hts
    obtain ⟨m₁, hstore, hcopy⟩ := Option.bind_eq_some_iff.mp h
    have hkeep := take_of_copyWords (k := envpAt (i + 1)) hcopy fun j hj => envpAt_mono hj
    have hentry := entry_of_strcpy ht hstore hkeep
    have ih := ih hts hcopy
    cases ts with
    | nil =>
      cases hcopy
      have hplace := drop_place_of_store hstore
      have hfirst : entry envpAt m' i = t := by
        rw [entry, hplace, List.append_assoc, cString_append ht]
        simp [cString]
      rw [List.length_singleton, entries, entries, hfirst, runOn]
    | cons t' ts =>
      rw [List.length_cons, entries, ih, hentry, runOn, ← ih]
      rfl

end Entries

section RunOn

/-- No word but the last fills its array, unless what runs on is the next word. -/
def Separate : List Bytes → Prop
  | [] => True
  | [_] => True
  | t :: t' :: ts =>
      (t.length < MAX_ARG_LENGTH ∨ t.drop MAX_ARG_LENGTH = t') ∧ Separate (t' :: ts)

theorem length_runOn (ts : List Bytes) : (runOn ts).length = ts.length := by
  induction ts with
  | nil => rfl
  | cons t ts ih =>
    cases ts with
    | nil => rfl
    | cons t' ts =>
      rw [runOn, List.length_cons, ih]
      rfl

theorem getLast?_runOn (ts : List Bytes) : (runOn ts).getLast? = ts.getLast? := by
  induction ts with
  | nil => rfl
  | cons t ts ih =>
    cases ts with
    | nil => rfl
    | cons t' ts =>
      obtain ⟨u, us, hu⟩ : ∃ u us, runOn (t' :: ts) = u :: us :=
        List.exists_cons_of_length_eq_add_one (length_runOn (t' :: ts))
      rw [runOn, List.getLast?_cons_cons, ← ih, hu, List.getLast?_cons_cons]

/-- What is read is made of what was copied. -/
theorem mem_of_mem_runOn (ts : List Bytes) (u : Bytes) (hu : u ∈ runOn ts) (c : UInt8)
    (hc : c ∈ u) : ∃ t ∈ ts, c ∈ t := by
  induction ts generalizing u with
  | nil => cases hu
  | cons t ts ih =>
    cases ts with
    | nil => exact ⟨u, hu, hc⟩
    | cons t' ts =>
      rcases List.mem_cons.mp hu with rfl | hu
      · split at hc
        · exact ⟨t, List.mem_cons_self, hc⟩
        · rcases List.mem_append.mp hc with hc | hc
          · exact ⟨t, List.mem_cons_self, List.mem_of_mem_take hc⟩
          · obtain ⟨v, vs, hv⟩ : ∃ v vs, runOn (t' :: ts) = v :: vs :=
              List.exists_cons_of_length_eq_add_one (length_runOn (t' :: ts))
            rw [hv, List.headD_cons] at hc
            obtain ⟨w, hw, hcw⟩ := ih v (by rw [hv]; exact List.mem_cons_self) hc
            exact ⟨w, List.mem_cons_of_mem _ hw, hcw⟩
      · obtain ⟨w, hw, hcw⟩ := ih u hu hc
        exact ⟨w, List.mem_cons_of_mem _ hw, hcw⟩

theorem runOn_eq_self_iff (ts : List Bytes) : runOn ts = ts ↔ Separate ts := by
  induction ts with
  | nil => exact iff_of_true rfl trivial
  | cons t ts ih =>
    cases ts with
    | nil => exact iff_of_true rfl trivial
    | cons t' ts =>
      rw [runOn, Separate, List.cons.injEq, ← ih]
      refine and_congr_left fun hrest => ?_
      rw [hrest, List.headD_cons]
      split
      · rename_i hlt
        exact iff_of_true rfl (.inl hlt)
      · rename_i hge
        have hsplit := List.take_append_drop MAX_ARG_LENGTH t
        constructor
        · intro h
          exact .inr (List.append_cancel_left (hsplit.trans h.symm))
        · rintro (hlt | h)
          · exact absurd hlt hge
          · rw [← h, hsplit]

end RunOn

section Deliver

/-- The operation's own environment. -/
def ownEnvs (aOrigin : Bytes) : List Bytes :=
  ((executeWords (strtok aOrigin)).map ExecuteWords.envp).getD []

/-- The command has exactly `es` behind the operation's own environment, or the operation reports
a failure. -/
def DeliversEnv (altibaseHome : Option Bytes) (own : Nat) (es : List Bytes) : ExecuteResult → Prop
  | .failure => True
  | .sent sExecute =>
      ∃ command, executeTarget altibaseHome sExecute = some command ∧ command.sEnvp.drop own = es
  | .undefined => False
  | .unsent => False

private theorem length_takeWords_le (stop : Bytes → Bool) (room : Nat) (ws : List Bytes) :
    (takeWords stop room ws).1.length ≤ room := by
  induction ws generalizing room with
  | nil => exact Nat.zero_le room
  | cons w ws ih =>
    rw [takeWords]
    split
    · exact Nat.zero_le room
    · rename_i hgo
      have hroom : room ≠ 0 := by
        rintro rfl
        simp at hgo
      have hrest := ih (room - 1)
      simp only [List.length_cons]
      omega

private theorem length_takeOption_le (word : Bytes) (stop : Bytes → Bool) (ws : List Bytes) :
    (takeOption word stop ws).1.length ≤ MAX_ARGS := by
  unfold takeOption
  split
  · exact length_takeWords_le _ _ _
  · exact Nat.zero_le _

private theorem executeWords_spec {ws : List Bytes} {words : ExecuteWords}
    (h : executeWords ws = some words) :
    words.function ∈ ws ∧ words.envp.length ≤ MAX_ARGS := by
  unfold executeWords at h
  split at h
  · cases h
    exact ⟨by simp, Nat.zero_le _⟩
  · cases h
    exact ⟨by simp, length_takeOption_le _ _ _⟩
  · cases h

private theorem zero_notMem_strtok {s w : Bytes} (hw : w ∈ strtok s) : 0 ∉ w := by
  intro hzero
  have hmem := (isWord_of_mem_tokens hw).2 0 hzero
  have hne := List.all_eq_true.mp (List.all_takeWhile (l := s)) 0 hmem
  simp at hne

private theorem length_le_functionName (altibaseHome : Option Bytes) (n : Nat) (function : Bytes) :
    function.length ≤ (functionName altibaseHome n function).length := by
  unfold functionName
  split
  · split
    · simp only [List.length_append]
      omega
    · exact Nat.le_refl _
  · exact Nat.le_refl _

/-- The target executes the function that was copied if its name fits. -/
theorem exists_executeTarget_iff (altibaseHome : Option Bytes) {m : ExecuteMem}
    {function tail : Bytes} {P : List Bytes → Prop} (hfunction : 0 ∉ function)
    (htake : m.bytes.take argcAt = (function ++ 0 :: tail).take argcAt) :
    (∃ command, executeTarget altibaseHome m = some command ∧ P command.sEnvp) ↔
      (functionName altibaseHome (countAt envcAt m) function).length < sizeofFunctionName ∧
        P (entries envpAt m 0 (countAt envcAt m)) := by
  have hcopied : cString m.bytes = function ∨
      sizeofFunctionName ≤ (cString m.bytes).length ∧ sizeofFunctionName ≤ function.length := by
    rw [cString_of_take hfunction htake]
    split
    · exact .inl rfl
    · rename_i hge
      rw [List.length_append, List.length_take]
      simp only [argcAt, sizeofFunctionName] at *
      omega
  have hle := length_le_functionName altibaseHome (countAt envcAt m)
  rw [executeTarget]
  rcases hcopied with heq | ⟨hread, hlong⟩
  · rw [heq]
    split
    · rename_i hge
      exact iff_of_false (by simp) fun h => absurd h.1 (Nat.not_lt.mpr hge)
    · rename_i hlt
      simp [Nat.not_le.mp hlt]
  · rw [if_pos (Nat.le_trans hread (hle _))]
    exact iff_of_false (by simp) fun h => absurd h.1 (Nat.not_lt.mpr (Nat.le_trans hlong (hle _)))

/-- What `executeOpt` adds to the operation's own words. -/
private theorem copyEnvp_spec {m m' : ExecuteMem} {option : Option Int} {sCount : Nat}
    {envs : List Bytes} (hcount : sCount ≤ MAX_ARGS) (henvs : ∀ t ∈ envs, 0 ∉ t)
    (h : ((setReturnOption m option).bind fun m => copyEnvp m sCount envs) = some m') :
    m'.bytes.take argcAt = m.bytes.take argcAt ∧
      countAt envcAt m' = sCount + (roomFor sCount envs).length ∧
      (entries envpAt m' 0 (countAt envcAt m')).drop sCount = runOn (roomFor sCount envs) := by
  obtain ⟨m₁, hoption, h⟩ := Option.bind_eq_some_iff.mp h
  obtain ⟨m₂, hcopy, hstore⟩ := Option.bind_eq_some_iff.mp h
  have hlen : (roomFor sCount envs).length ≤ MAX_ARGS - sCount := List.length_take_le _ _
  have hcountAt := countAt_of_store hstore (by rw [roomFor] at hlen; omega)
  rw [← roomFor] at hcountAt
  refine ⟨?_, hcountAt, ?_⟩
  · rw [take_of_store hstore (by decide), take_of_copyWords hcopy fun j _ => argcAt_le_envpAt j]
    cases option with
    | none =>
      cases hoption
      rfl
    | some n => exact take_of_store hoption (by decide)
  · have hin : ∀ t ∈ roomFor sCount envs, 0 ∉ t := fun t ht => henvs t (List.mem_of_mem_take ht)
    rw [hcountAt, entries_add, List.drop_left' (length_entries _ _ _ _), Nat.zero_add,
      entries_of_storeEnvc hstore]
    exact entries_of_copyWords hin hcopy

/-- The words of an operation behind `sCount` entries of its own environment make exactly `es`. -/
structure EnvsFit (altibaseHome : Option Bytes) (words : ExecuteWords) (envs es : List Bytes) :
    Prop where
  fits : FitWords envpAt words.envp.length envs
  function :
    (functionName altibaseHome (words.envp.length + envs.length) words.function).length <
      sizeofFunctionName
  runOn_eq : runOn envs = es

theorem delivers_executeOpt_iff (malloc : Bool) (sExecute : ExecuteMem)
    (altibaseHome : Option Bytes) (aOrigin : Bytes) {aEnvp : Bytes} {envs : List Bytes}
    (es : List Bytes)
    (henvs : strtok aEnvp = envsWord :: envs) (hlen : (cString aEnvp).length < BUF_SIZE) :
    DeliversEnv altibaseHome (ownEnvs aOrigin).length es
        (executeOpt malloc sExecute aOrigin aEnvp) ↔
      (malloc = true → ∀ words, executeWords (strtok aOrigin) = some words →
        OperationFits words ∧ (returnOption words.rest ≠ none →
          EnvsFit altibaseHome words (roomFor words.envp.length envs) es)) := by
  cases malloc with
  | false => exact iff_of_true trivial (by simp)
  | true =>
    rw [executeOpt, if_neg (by simp), if_neg (Nat.not_le.mpr hlen)]
    cases hwords : executeWords (strtok aOrigin) with
    | none => exact iff_of_true trivial (by simp)
    | some words =>
      obtain ⟨hfunction, hcount⟩ := executeWords_spec hwords
      have hown : ownEnvs aOrigin = words.envp := by rw [ownEnvs, hwords]; rfl
      simp only [forall_const, Option.some.injEq, forall_eq', hown]
      have hfits := copyOperation_isSome sExecute words
      cases hcopy : copyOperation sExecute words with
      | none =>
        rw [hcopy] at hfits
        exact iff_of_false id fun h => by simpa using hfits.mpr h.1
      | some m =>
        rw [hcopy] at hfits
        rw [and_iff_right (hfits.mp rfl)]
        cases hreturn : returnOption words.rest with
        | none => exact iff_of_true trivial (by simp)
        | some option =>
          simp only [henvs, if_true, ne_eq, reduceCtorEq, not_false_eq_true, forall_const]
          have henvp := copyEnvp_isSome m option words.envp.length envs
          cases hrest : (setReturnOption m option).bind fun m =>
              copyEnvp m words.envp.length envs with
          | none =>
            rw [hrest] at henvp
            exact iff_of_false id fun h => by simpa using henvp.mpr h.fits
          | some m' =>
            rw [hrest] at henvp
            have hzero : ∀ t ∈ envs, 0 ∉ t := fun t ht =>
              zero_notMem_strtok (s := aEnvp) (by rw [henvs]; exact List.mem_cons_of_mem _ ht)
            obtain ⟨htake, hn, hdrop⟩ := copyEnvp_spec hcount hzero hrest
            obtain ⟨tail, hcopied⟩ := take_of_copyOperation hcopy
            have htarget := exists_executeTarget_iff altibaseHome
              (P := fun sEnvp => sEnvp.drop words.envp.length = es)
              (zero_notMem_strtok hfunction) (htake.trans hcopied)
            rw [hdrop, hn] at htarget
            refine htarget.trans ⟨fun h => ⟨henvp.mp rfl, h.1, h.2⟩, fun h => ⟨h.2, h.3⟩⟩

/-- `DeliversEnv` for all that `execute` can do; another operation executes no command. -/
def Delivers (altibaseHome : Option Bytes) (own : Nat) (es : List Bytes) :
    Option ExecuteResult → Prop
  | none => True
  | some result => DeliversEnv altibaseHome own es result

/-- The words of an operation that `execute` copies into a request. -/
def copiedWords (mallocBuf mallocEnvp : Bool) (sBuf : Bytes) : Option ExecuteWords :=
  if sBuf ≠ [10] ∧ mallocBuf ∧ mallocEnvp ∧ (strtok sBuf).head?.bind parsing = some .EXECUTE then
    executeWords (strtok sBuf)
  else none

theorem length_envp_le {mallocBuf mallocEnvp : Bool} {sBuf : Bytes} {words : ExecuteWords}
    (h : copiedWords mallocBuf mallocEnvp sBuf = some words) : words.envp.length ≤ MAX_ARGS := by
  unfold copiedWords at h
  split at h
  · exact (executeWords_spec h).2
  · cases h

theorem delivers_execute_iff (mallocBuf mallocEnvp : Bool) (sExecute : ExecuteMem)
    (altibaseHome : Option Bytes) (aBuf : Bytes) {aEnvp : Bytes} {envs : List Bytes}
    (es : List Bytes)
    (henvs : strtok aEnvp = envsWord :: envs) (hlen : (cString aEnvp).length < BUF_SIZE) :
    Delivers altibaseHome (ownEnvs (cString aBuf)).length es
        (execute mallocBuf mallocEnvp sExecute aBuf aEnvp) ↔
      (cString aBuf ≠ [10] → mallocBuf = true → (cString aBuf).length < sizeofReturnMessage) ∧
        ∀ words, copiedWords mallocBuf mallocEnvp (cString aBuf) = some words →
          OperationFits words ∧ (returnOption words.rest ≠ none →
            EnvsFit altibaseHome words (roomFor words.envp.length envs) es) := by
  rw [execute, copiedWords]
  generalize hbuf : cString aBuf = sBuf
  by_cases hline : sBuf = [10]
  · rw [if_pos hline]
    exact iff_of_true trivial ⟨fun h => absurd hline h, by simp [hline]⟩
  · cases mallocBuf with
    | false =>
      rw [if_neg hline]
      exact iff_of_true trivial (by simp)
    | true =>
      rw [if_neg hline, if_neg (by simp)]
      by_cases hshort : sBuf.length < sizeofReturnMessage
      · have hfits : ¬(BUF_SIZE ≤ sBuf.length ∨ sizeofReturnMessage ≤ sBuf.length) := by
          simp only [BUF_SIZE, sizeofReturnMessage] at *
          omega
        rw [if_neg hfits, and_iff_right fun _ _ => hshort]
        cases htok : strtok sBuf with
        | nil => exact iff_of_true trivial (by simp)
        | cons sToken tokens =>
          by_cases hop : parsing sToken = some .EXECUTE
          · have hopt :=
              delivers_executeOpt_iff mallocEnvp sExecute altibaseHome sBuf es henvs hlen
            rw [htok] at hopt
            simp only [hop, if_true]
            refine hopt.trans ?_
            cases mallocEnvp with
            | false => exact iff_of_true (by simp) (by simp)
            | true => simp [hline, hop]
          · simp only [hop, if_false]
            exact iff_of_true trivial (by simp [hop])
      · rw [if_pos (.inr (Nat.not_lt.mp hshort))]
        exact iff_of_false id fun h => hshort (h.1 hline rfl)

end Deliver

section Words

variable {n : Nat} {ts rest entries : List Bytes}

/-- What the entries of an environment text must be for the command to get them, behind `n` entries
of its own. -/
structure EntriesFit (n : Nat) (entries : List Bytes) : Prop where
  words : ∀ e ∈ entries, IsWord gSep e ∧ 0 ∉ e
  room : n + entries.length ≤ MAX_ARGS
  separate : Separate entries
  fits : FitWords envpAt n entries

private theorem zero_notMem_envsWord : 0 ∉ envsWord := by decide

private theorem tokens_envsWord : tokens gSep envsWord = [envsWord] :=
  tokens_word (by decide) (by decide)

theorem strtok_envs (ts : List Bytes) :
    ∃ rest, strtok (envsWord ++ spread 32 ts) = envsWord :: rest := by
  rw [strtok, cString_append zero_notMem_envsWord]
  cases ts with
  | nil => exact ⟨[], by rw [spread, List.flatMap_nil, cString, List.takeWhile_nil,
      List.append_nil, tokens_envsWord]⟩
  | cons t ts =>
    refine ⟨tokens gSep (cString (t ++ spread 32 ts)), ?_⟩
    have hblank : cString (spread 32 (t :: ts)) = 32 :: cString (t ++ spread 32 ts) := rfl
    rw [hblank, tokens_append rfl, tokens_envsWord, List.singleton_append]

private theorem strtok_envs_words (hwords : ∀ t ∈ ts, IsWord gSep t ∧ 0 ∉ t)
    (hne : ∀ t ∈ ts, t ≠ []) : strtok (envsWord ++ spread 32 ts) = envsWord :: ts := by
  have hzero : 0 ∉ envsWord ++ spread 32 ts := by
    intro hmem
    rcases List.mem_append.mp hmem with hmem | hmem
    · exact zero_notMem_envsWord hmem
    · rcases mem_spread hmem with h | ⟨t, ht, hmem⟩
      · cases h
      · exact (hwords t ht).2 hmem
  have hpieces : ∀ t ∈ ts, IsWord gSep t ∧ t ≠ [] := fun t ht => ⟨(hwords t ht).1, hne t ht⟩
  rw [strtok, cString_eq_self hzero, tokens_spread rfl ts hpieces envsWord (by decide) (by decide)]

private theorem word_of_words {t : Bytes} (hts : ∀ u ∈ ts, IsWord gSep u ∧ 0 ∉ u)
    (ht : ∀ c ∈ t, ∃ u ∈ ts, c ∈ u) : IsWord gSep t ∧ 0 ∉ t := by
  refine ⟨fun c hc => ?_, fun hc => ?_⟩
  · obtain ⟨u, hu, hcu⟩ := ht c hc
    exact (hts u hu).1 c hcu
  · obtain ⟨u, hu, hcu⟩ := ht 0 hc
    exact (hts u hu).2 hcu

/-- The entries that were cut only at the end of the last one are read as they are, if and only if
they fit. -/
theorem runOn_roomFor_iff (hn : n ≤ MAX_ARGS)
    (hrest : strtok (envsWord ++ spread 32 ts) = envsWord :: rest)
    (hlen : ts.length = entries.length) (hne : ∀ t ∈ ts, t ≠ [])
    (hmem : ∀ t ∈ ts, ∀ c ∈ t, ∃ e ∈ entries, c ∈ e)
    (hlast : ts.getLast? = entries.getLast? → ts = entries) :
    FitWords envpAt n (roomFor n rest) ∧ runOn (roomFor n rest) = entries ↔
      ts = entries ∧ EntriesFit n entries := by
  constructor
  · rintro ⟨hfits, hrun⟩
    have hin : ∀ t ∈ roomFor n rest, IsWord gSep t ∧ 0 ∉ t := by
      intro t ht
      have hstrtok : t ∈ strtok (envsWord ++ spread 32 ts) := by
        rw [hrest]
        exact List.mem_cons_of_mem _ (List.mem_of_mem_take ht)
      exact ⟨(isWord_of_mem_tokens hstrtok).1, zero_notMem_strtok hstrtok⟩
    have hwords : ∀ e ∈ entries, IsWord gSep e ∧ 0 ∉ e :=
      fun e he => word_of_words hin (mem_of_mem_runOn _ e (by rwa [hrun]))
    -- so the text is split where the entries were joined
    have hts : ∀ t ∈ ts, IsWord gSep t ∧ 0 ∉ t := fun t ht => word_of_words hwords (hmem t ht)
    obtain rfl : ts = rest := by
      rw [strtok_envs_words hts hne] at hrest
      exact List.tail_eq_of_cons_eq hrest
    have hroom : ts.length ≤ MAX_ARGS - n := by
      have hcount := congrArg List.length hrun
      rw [length_runOn, roomFor, List.length_take] at hcount
      omega
    have hall : roomFor n ts = ts := List.take_of_length_le hroom
    rw [hall] at hfits hrun
    obtain rfl : ts = entries := hlast (by rw [← getLast?_runOn, hrun])
    exact ⟨rfl, hwords, by omega, (runOn_eq_self_iff ts).mp hrun, hfits⟩
  · rintro ⟨rfl, hfit⟩
    obtain rfl : ts = rest := by
      rw [strtok_envs_words hfit.words hne] at hrest
      exact List.tail_eq_of_cons_eq hrest
    have hall : roomFor n ts = ts := by
      have hroom := hfit.room
      exact List.take_of_length_le (by omega)
    rw [hall]
    exact ⟨hfit.fits, (runOn_eq_self_iff ts).mpr hfit.separate⟩

theorem envsFit_roomFor_iff (altibaseHome : Option Bytes) {words : ExecuteWords}
    (hn : words.envp.length ≤ MAX_ARGS)
    (hrest : strtok (envsWord ++ spread 32 ts) = envsWord :: rest)
    (hlen : ts.length = entries.length) (hne : ∀ t ∈ ts, t ≠ [])
    (hmem : ∀ t ∈ ts, ∀ c ∈ t, ∃ e ∈ entries, c ∈ e)
    (hlast : ts.getLast? = entries.getLast? → ts = entries) :
    EnvsFit altibaseHome words (roomFor words.envp.length rest) entries ↔
      ts = entries ∧ EntriesFit words.envp.length entries ∧
        (functionName altibaseHome (words.envp.length + entries.length) words.function).length <
          sizeofFunctionName := by
  have hiff := runOn_roomFor_iff hn hrest hlen hne hmem hlast
  have hcount (h : runOn (roomFor words.envp.length rest) = entries) :
      (roomFor words.envp.length rest).length = entries.length := by
    rw [← h, length_runOn]
  constructor
  · rintro ⟨hfits, hfunction, hrun⟩
    obtain ⟨hts, hfit⟩ := hiff.mp ⟨hfits, hrun⟩
    rw [hcount hrun] at hfunction
    exact ⟨hts, hfit, hfunction⟩
  · rintro ⟨hts, hfit, hfunction⟩
    obtain ⟨hfits, hrun⟩ := hiff.mpr ⟨hts, hfit⟩
    rw [← hcount hrun] at hfunction
    exact ⟨hfits, hfunction, hrun⟩

end Words

end Natc.Agent
