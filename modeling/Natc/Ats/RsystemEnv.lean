import Natc.Agent.Environ
import Natc.Staf

/-!
# The environment of a remote command

The server parameters go as one text to the host program, which splits it again into the entries of
the request.
-/

namespace Natc.Ats

open Lib Agent

/-- The bytes of a text. -/
def toBytes (s : Text) : Bytes := s.map fun c => UInt8.ofNat c.toNat

/-- The parameters of a server, in the order of the map. -/
structure ServerParam where
  params : List (Text × Text)
  nodup : (params.map Prod.fst).Nodup

/-- What the service has from its own environment. -/
structure ServiceEnv where
  mEnvPORT : Text
  mEnvRESULT : Text

section Encode

variable (staf : Staf) (env : ServiceEnv)

/-- A placeholder with a number behind it stands for a port, in `unsigned int`. -/
def portOf (sWord : Text) (offset : Nat) (aPort : Text) : Text :=
  let sPort := staf.strip aPort
  if staf.contains sPort sWord then
    Nat.toDigits 10
      ((staf.asUInt (staf.replace sPort sWord []) * 1000 + staf.asUInt env.mEnvPORT + offset) %
        2 ^ 32)
  else sPort

def getPort : Text → Text := portOf staf env "%PORT_NO".toList 0

def getReplicationPort : Text → Text := portOf staf env "%REPLICATION_PORT_NO".toList 5000

/-- The value that is written for a parameter. -/
def paramValue (sKey sValue : Text) : Text :=
  if sKey = "ALTIBASE_PORT_NO".toList then getPort staf env sValue
  else if sKey = "ALTIBASE_LINKER_PORT_NO".toList then getPort staf env sValue
  else if sKey = "ALTIBASE_REPLICATION_PORT_NO".toList then getReplicationPort staf env sValue
  else if sKey = "ALTIBASE_HOME".toList then
    staf.replace (staf.strip sValue) "$ATC_HOME".toList env.mEnvRESULT
  else if staf.contains sKey "AUDIT_DB".toList then
    match staf.find sValue "%PORT_NO".toList with
    | some sCursor =>
        let sPort := "%PORT_NO".toList ++ (sValue.drop (sCursor + 8)).take 1
        staf.strip (staf.replace sValue sPort (getPort staf env sPort))
    | none => staf.strip sValue
  else staf.strip sValue

/-- The parameters that are written. -/
def isWritten (sKey : Text) : Bool := staf.strip sKey ≠ [] ∧ sKey ≠ "PATH".toList

/-- The entry of a parameter. -/
def paramEntry (param : Text × Text) : Text :=
  param.1 ++ '=' :: paramValue staf env param.1 param.2

def paramEntries (sServer : ServerParam) : List Text :=
  (sServer.params.filter fun param => isWritten staf param.1).map (paramEntry staf env)

def getEnv4Rsystem (sServer : ServerParam) : Text :=
  staf.strip ("envs ".toList ++ (paramEntries staf env sServer).flatMap (· ++ [' ']))

/-- The length of `sCommand` and `sEnvs`. -/
def sizeofCommand : Nat := 65535

/-- `runRsystem`, from the command and the parameters to the request. -/
def runRsystem (mallocBuf mallocEnvp : Bool) (sExecute : ExecuteMem) (sServer : ServerParam)
    (aIn : Text) : Option ExecuteResult :=
  let sRs := getEnv4Rsystem staf env sServer
  if sizeofCommand ≤ aIn.length ∨ sizeofCommand ≤ sRs.length then some .undefined
  else execute mallocBuf mallocEnvp sExecute (toBytes aIn) (toBytes sRs)

end Encode

section Deliver

variable {staf : Staf} {env : ServiceEnv}

private theorem exists_mem_paramEntries {sServer : ServerParam} {e : Text}
    (he : e ∈ paramEntries staf env sServer) : ∃ c ∈ e, staf.white c = false := by
  obtain ⟨param, _, rfl⟩ := List.mem_map.mp he
  exact ⟨'=', by simp [paramEntry], staf.white_printable '=' (by decide) (by decide)⟩

/-- The entries behind the keyword; `strip` can take something from the last one. -/
theorem getEnv4Rsystem_eq (sServer : ServerParam) :
    getEnv4Rsystem staf env sServer =
      "envs".toList ++ spread ' ' (trimLast staf.white (paramEntries staf env sServer)) := by
  have he : staf.white 'e' = false := staf.white_printable 'e' (by decide) (by decide)
  have hs : staf.white 's' = false := staf.white_printable 's' (by decide) (by decide)
  have henvs : "envs".toList.rdropWhile staf.white = "envs".toList :=
    List.rdropWhile_concat_neg _ ['e', 'n', 'v'] 's' (by simp [hs])
  have hentries : ∀ e ∈ paramEntries staf env sServer, ∃ c ∈ e, staf.white c = false :=
    fun e he => exists_mem_paramEntries he
  have htext : "envs ".toList ++ (paramEntries staf env sServer).flatMap (· ++ [' ']) =
      "envs".toList ++ spread ' ' (paramEntries staf env sServer) ++ [' '] := by
    rw [List.append_assoc, ← cons_flatMap_concat]
    rfl
  have hfront : ∀ s, ("envs".toList ++ s).dropWhile staf.white = "envs".toList ++ s := by
    intro s
    change ('e' :: 'n' :: 'v' :: 's' :: s).dropWhile staf.white = _
    rw [List.dropWhile_cons_of_neg (by simp [he])]
    rfl
  rw [getEnv4Rsystem, staf.strip_eq, stripWith, htext, List.append_assoc, hfront,
    ← List.append_assoc, List.rdropWhile_concat_pos _ _ _ staf.white_blank]
  cases hes : paramEntries staf env sServer with
  | nil => rwa [spread, trimLast, spread, List.flatMap_nil, List.append_nil]
  | cons e es =>
    rw [hes] at hentries
    obtain ⟨c, hc, hwhite⟩ := hentries e List.mem_cons_self
    have hin : c ∈ spread ' ' (e :: es) :=
      List.mem_flatMap.mpr ⟨e, List.mem_cons_self, List.mem_cons_of_mem _ hc⟩
    rw [rdropWhile_append _ _ ⟨c, hin, hwhite⟩, rdropWhile_spread ' ' _ hentries]

variable (staf env)

/-- The entries of the parameters as the target has to read them. -/
def paramBytes (sServer : ServerParam) : List Bytes := (paramEntries staf env sServer).map toBytes

/-- When the command of an operation has the parameters of its server in its environment. -/
structure ParamsFit (altibaseHome : Option Bytes) (mallocBuf mallocEnvp : Bool)
    (sServer : ServerParam) (aIn : Text) : Prop where
  sCommand : aIn.length < sizeofCommand
  sEnvs : 4 + (spread ' ' (trimLast staf.white (paramEntries staf env sServer))).length <
    sizeofCommand
  returnMessage : cString (toBytes aIn) ≠ [10] → mallocBuf = true →
    (cString (toBytes aIn)).length < sizeofReturnMessage
  request : ∀ words, copiedWords mallocBuf mallocEnvp (cString (toBytes aIn)) = some words →
    OperationFits words ∧ (returnOption words.rest ≠ none →
      EntriesFit words.envp.length (paramBytes staf env sServer) ∧
      (∀ e ∈ (paramEntries staf env sServer).getLast?, ∀ c ∈ e.getLast?, staf.white c = false) ∧
      (functionName altibaseHome (words.envp.length + (paramEntries staf env sServer).length)
        words.function).length < sizeofFunctionName)

variable {staf env}

/-- The entries in the text as bytes. -/
private def sentBytes (staf : Staf) (env : ServiceEnv) (sServer : ServerParam) : List Bytes :=
  (trimLast staf.white (paramEntries staf env sServer)).map toBytes

private theorem toBytes_getEnv4Rsystem (sServer : ServerParam) :
    toBytes (getEnv4Rsystem staf env sServer) =
      envsWord ++ spread 32 (sentBytes staf env sServer) := by
  rw [getEnv4Rsystem_eq, toBytes, List.map_append, map_spread]
  rfl

private theorem untrimmed_iff (es : List Text) :
    trimLast staf.white es = es ↔
      ∀ e ∈ es.getLast?, ∀ c ∈ e.getLast?, staf.white c = false := by
  rw [trimLast_eq_self_iff]
  refine forall₂_congr fun e _ => ?_
  rw [List.rdropWhile_eq_self_iff]
  constructor
  · intro h c hc
    obtain ⟨hne, rfl⟩ := List.mem_getLast?_eq_getLast hc
    simpa using h hne
  · intro h hne
    simpa using h _ (List.getLast_mem_getLast? hne)

private theorem sentBytes_of_getLast? {sServer : ServerParam}
    (h : (sentBytes staf env sServer).getLast? = (paramBytes staf env sServer).getLast?) :
    trimLast staf.white (paramEntries staf env sServer) = paramEntries staf env sServer := by
  rw [trimLast_eq_self_iff]
  intro e he
  rw [sentBytes, paramBytes, List.getLast?_map, List.getLast?_map, getLast?_trimLast, he] at h
  have hlen : (e.rdropWhile staf.white).length = e.length := by
    have hbytes := congrArg List.length (Option.some.inj h)
    simpa [toBytes] using hbytes
  exact (List.rdropWhile_prefix staf.white e).eq_of_length hlen

private theorem envsFit_iff (altibaseHome : Option Bytes) (sServer : ServerParam)
    {words : ExecuteWords} {rest : List Bytes} (hn : words.envp.length ≤ MAX_ARGS)
    (hrest : strtok (envsWord ++ spread 32 (sentBytes staf env sServer)) = envsWord :: rest) :
    EnvsFit altibaseHome words (roomFor words.envp.length rest) (paramBytes staf env sServer) ↔
      EntriesFit words.envp.length (paramBytes staf env sServer) ∧
      (∀ e ∈ (paramEntries staf env sServer).getLast?, ∀ c ∈ e.getLast?, staf.white c = false) ∧
      (functionName altibaseHome (words.envp.length + (paramEntries staf env sServer).length)
        words.function).length < sizeofFunctionName := by
  have hlen : (sentBytes staf env sServer).length = (paramBytes staf env sServer).length := by
    rw [sentBytes, paramBytes, List.length_map, List.length_map, length_trimLast]
  have hsent : ∀ t ∈ sentBytes staf env sServer, t ≠ [] ∧
      ∀ c ∈ t, ∃ e ∈ paramBytes staf env sServer, c ∈ e := by
    intro t ht
    obtain ⟨w, hw, rfl⟩ := List.mem_map.mp ht
    obtain ⟨e, he, hwe⟩ := exists_of_mem_trimLast hw
    obtain ⟨c, hc, hwhite⟩ := exists_mem_paramEntries he
    refine ⟨?_, fun d hd => ⟨toBytes e, List.mem_map_of_mem he, ?_⟩⟩
    · rcases hwe with rfl | rfl
      · simpa [toBytes] using List.ne_nil_of_mem hc
      · have hne : e.rdropWhile staf.white ≠ [] := by
          rw [ne_eq, List.rdropWhile_eq_nil_iff]
          intro hall
          simpa [hwhite] using hall c hc
        simpa [toBytes] using hne
    · have hsub : w ⊆ e := by
        rcases hwe with rfl | rfl
        · exact List.Subset.refl _
        · exact (List.rdropWhile_prefix staf.white e).subset
      exact List.map_subset _ hsub hd
  have hlast (h : (sentBytes staf env sServer).getLast? = (paramBytes staf env sServer).getLast?) :
      sentBytes staf env sServer = paramBytes staf env sServer := by
    rw [sentBytes, sentBytes_of_getLast? h, paramBytes]
  have hself : sentBytes staf env sServer = paramBytes staf env sServer ↔
      ∀ e ∈ (paramEntries staf env sServer).getLast?, ∀ c ∈ e.getLast?, staf.white c = false := by
    rw [← untrimmed_iff]
    refine ⟨fun h => sentBytes_of_getLast? (congrArg List.getLast? h), fun h => ?_⟩
    rw [sentBytes, h, paramBytes]
  rw [envsFit_roomFor_iff altibaseHome hn hrest hlen (fun t ht => (hsent t ht).1)
    (fun t ht => (hsent t ht).2) hlast, hself, and_left_comm]
  rw [show (paramBytes staf env sServer).length = (paramEntries staf env sServer).length from
    List.length_map toBytes]

private theorem length_getEnv4Rsystem (sServer : ServerParam) :
    (getEnv4Rsystem staf env sServer).length =
      4 + (spread ' ' (trimLast staf.white (paramEntries staf env sServer))).length := by
  rw [getEnv4Rsystem_eq, List.length_append]
  rfl

/-- What `execute` makes of a text that `runRsystem` has room for. -/
private theorem delivers_env_iff (altibaseHome : Option Bytes) (mallocBuf mallocEnvp : Bool)
    (sExecute : ExecuteMem) (sServer : ServerParam) (aIn : Text)
    (hfits : (getEnv4Rsystem staf env sServer).length < sizeofCommand) :
    Delivers altibaseHome (ownEnvs (cString (toBytes aIn))).length (paramBytes staf env sServer)
        (execute mallocBuf mallocEnvp sExecute (toBytes aIn)
          (toBytes (getEnv4Rsystem staf env sServer))) ↔
      (cString (toBytes aIn) ≠ [10] → mallocBuf = true →
        (cString (toBytes aIn)).length < sizeofReturnMessage) ∧
      ∀ words, copiedWords mallocBuf mallocEnvp (cString (toBytes aIn)) = some words →
        OperationFits words ∧ (returnOption words.rest ≠ none →
          EntriesFit words.envp.length (paramBytes staf env sServer) ∧
          (∀ e ∈ (paramEntries staf env sServer).getLast?, ∀ c ∈ e.getLast?,
            staf.white c = false) ∧
          (functionName altibaseHome (words.envp.length + (paramEntries staf env sServer).length)
            words.function).length < sizeofFunctionName) := by
  have hshort : (cString (toBytes (getEnv4Rsystem staf env sServer))).length < BUF_SIZE := by
    have hle := length_cString_le (toBytes (getEnv4Rsystem staf env sServer))
    rw [toBytes, List.length_map] at hle
    simp only [sizeofCommand, BUF_SIZE] at *
    exact Nat.lt_of_le_of_lt hle (by omega)
  rw [toBytes_getEnv4Rsystem] at hshort
  obtain ⟨rest, hrest⟩ := strtok_envs (sentBytes staf env sServer)
  rw [toBytes_getEnv4Rsystem, delivers_execute_iff _ _ _ _ _ _ hrest hshort]
  refine and_congr_right fun _ => forall₂_congr fun words hcopied => ?_
  rw [envsFit_iff altibaseHome sServer (length_envp_le hcopied) hrest]

theorem paramsFit_of_delivers {altibaseHome : Option Bytes} {mallocBuf mallocEnvp : Bool}
    {sExecute : ExecuteMem} {sServer : ServerParam} {aIn : Text}
    (h : Delivers altibaseHome (ownEnvs (cString (toBytes aIn))).length
      (paramBytes staf env sServer)
      (runRsystem staf env mallocBuf mallocEnvp sExecute sServer aIn)) :
    ParamsFit staf env altibaseHome mallocBuf mallocEnvp sServer aIn := by
  rw [runRsystem] at h
  split at h
  · exact h.elim
  · rename_i hfits
    obtain ⟨hcommand, henvs⟩ := not_or.mp hfits
    rw [delivers_env_iff _ _ _ _ _ _ (Nat.lt_of_not_le henvs)] at h
    rw [length_getEnv4Rsystem] at henvs
    exact ⟨Nat.lt_of_not_le hcommand, Nat.lt_of_not_le henvs, h.1, h.2⟩

/-- The parameters reach the command if and only if they fit. -/
theorem runRsystem_delivers_iff (altibaseHome : Option Bytes) (mallocBuf mallocEnvp : Bool)
    (sExecute : ExecuteMem) (sServer : ServerParam) (aIn : Text) :
    Delivers altibaseHome (ownEnvs (cString (toBytes aIn))).length (paramBytes staf env sServer)
        (runRsystem staf env mallocBuf mallocEnvp sExecute sServer aIn) ↔
      ParamsFit staf env altibaseHome mallocBuf mallocEnvp sServer aIn := by
  refine ⟨paramsFit_of_delivers, fun h => ?_⟩
  have henvs : (getEnv4Rsystem staf env sServer).length < sizeofCommand := by
    rw [length_getEnv4Rsystem]
    exact h.sEnvs
  have hfits := not_or.mpr ⟨Nat.not_le.mpr h.sCommand, Nat.not_le.mpr henvs⟩
  rw [runRsystem, if_neg hfits, delivers_env_iff _ _ _ _ _ _ henvs]
  exact ⟨h.returnMessage, h.request⟩

end Deliver

section TooMany

/-- One parameter more than the request has room for. -/
def manyParams : ServerParam where
  params := (List.range 33).map fun i => ('K' :: Nat.toDigits 10 i, ['1'])
  nodup := by decide

/-- A struct full of zeros. -/
def clearedMem : ExecuteMem := ⟨List.replicate sizeofExecute 0, List.length_replicate⟩

theorem params_dropped :
    ¬ Delivers none (ownEnvs (cString (toBytes "execute f".toList))).length
      (paramBytes Staf.ascii ⟨[], []⟩ manyParams)
      (runRsystem Staf.ascii ⟨[], []⟩ true true clearedMem manyParams "execute f".toList) := by
  refine mt (@paramsFit_of_delivers Staf.ascii ⟨[], []⟩ none true true clearedMem manyParams
    "execute f".toList) fun hfit => ?_
  have hwords : copiedWords true true (cString (toBytes "execute f".toList)) =
      some ⟨[102], false, [], [], []⟩ := by decide +kernel
  have hlen : (paramBytes Staf.ascii ⟨[], []⟩ manyParams).length = 33 := by decide +kernel
  have hreturn : returnOption [] ≠ none := by decide
  have hroom := ((hfit.request _ hwords).2 hreturn).1.room
  rw [hlen] at hroom
  exact absurd hroom (by decide)

end TooMany

end Natc.Ats
