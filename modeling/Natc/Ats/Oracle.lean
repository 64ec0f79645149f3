import Natc.Ats.Delivery
import Natc.Client.Verdict
import Natc.Lib.CodePage

/-!
# The result and the oracle of a test

The service assembles the results of all laborers, compares them with the text of the `.lst` file,
and writes them to the `.out` file when they differ. The writer encodes the whole text, the reader
decodes the file in blocks. Texts have one character for each character of the code page here.
-/

namespace Natc.Ats

open Lib
open Client (Verdict)

/-- What a laborer has recorded. -/
structure Recorded where
  mResult : Text
  mSbegin : Bool

namespace Recorded

def add (l : Recorded) (s : Text) : Recorded := { l with mResult := l.mResult ++ s }

/-- A command run by `isqlp`, whose output is what `getResult` returns. -/
def sql (p : Process) (l : Recorded) (q : QueryData) (output : Text) : Recorded :=
  if l.mSbegin then
    l.add (prompt p ++ q.query ++ if q.query.getLast? = some ';' then [] else ";".toList)
  else l.add output

/-- A command run by the shell, whose output is what `runSystem2` appends. -/
def shell (staf : Staf) (p : Process) (l : Recorded) (command output : Text) : Recorded :=
  let l' := l.add (prompt p ++ command ++ ";\n".toList ++ output)
  { l' with mResult := staf.strip l'.mResult }

/-- What `runReal` appends to `mResult` for one command; `output` is what the command itself
yields. -/
def command (staf : Staf) (p : Process) (l : Recorded) (q : QueryData) (output : Text) :
    Recorded :=
  match q.type with
  | .stringCom | .restartCom => l.add q.query
  | .appendCom => l.add ("--+APPEND_LST ".toList ++ q.query ++ ";\n".toList ++ output)
  | .envCom => l
  | .systemCom => l.add ("--+SYSTEM ".toList ++ q.query ++ ";".toList)
  | .rsystemCom => l.add ("--+RSYSTEM ".toList ++ q.query ++ ";".toList ++ output)
  | .start1Com => l.shell staf p (q.sysdba ++ " ".toList ++ q.query) output
  | .start2Com => l.shell staf p ("@".toList ++ q.query) output
  | .shellCom => l.shell staf p ("!".toList ++ q.query) output
  | .postCom => l.add (prompt p ++ "--+POST ".toList ++ q.query ++ "; ".toList)
  | .waitCom => l.add (prompt p ++ "--+WAIT ".toList ++ q.query ++ "; ".toList)
  | .skipCom =>
      if q.query = "begin".toList then { l.add "--+SKIP BEGIN; ".toList with mSbegin := true }
      else { l.add "--+SKIP END; ".toList with mSbegin := false }
  | .recpointCom =>
      (l.add (prompt p ++ "--+".toList ++ q.realQuery ++ "; ".toList)).sql p q output
  | _ => l.sql p q output

end Recorded

/-- `Laborer::getResult` of process `p` behind its commands; `outputs` gives the output of each. -/
def mResult (staf : Staf) (p : Process) (commands : List QueryData) (outputs : Nat → Text) : Text :=
  (commands.zipIdx.foldl (fun l c => l.command staf p c.1 (outputs c.2))
    (⟨[], false⟩ : Recorded)).mResult

def reDataHead : Text :=
  " \n".toList ++ "+".toList ++ List.replicate 70 '-' ++ "+\n".toList ++
    "--+SECTOR 0; BY ATC\n".toList ++ "+".toList ++ List.replicate 70 '-' ++ "+\n \n".toList ++
    "$P0> --+PROCESS P0;\n".toList

/-- `mReData` of `saveRESULT`: the results in the order of the map. -/
def reData (ctx : Context) (table : PsTable) (s : Sys) (outputs : Process → Nat → Text) : Text :=
  reDataHead ++ ((runNodes ctx .init table.nodeList).1.laborers.flatMap fun p =>
    mResult ctx.staf p (executed s p) (outputs p)) ++ "\n".toList

/-- `mIgnore`: the script has an `--+IGNORE`. -/
def PsTable.ignored (table : PsTable) : Bool :=
  table.nodeList.any fun node => node.type = .normal && node.elementList.any (·.type = .ignore)

/-- The text that is assembled; `saveRESULT` is not called for a script that is ignored. -/
def assembled (ctx : Context) (table : PsTable) (s : Sys) (outputs : Process → Nat → Text) :
    Option Text :=
  if table.ignored then none else some (reData ctx table s outputs)

variable {page : CodePage}

/-- `loadORACLE` reads `sizeof( sLine )` bytes at a time. -/
def blockSize : Nat := 65536

/-- `Servicer::loadORACLE`; a file that is not there gives no text. -/
def loadORACLE (dec : page.Decoder) (mLs : Option (List UInt8)) : Text :=
  mLs.elim [] (dec.decodeBlocks blockSize)

/-- `Servicer::saveRESULT`: whether the test has passed, and the file that is written. -/
def saveRESULT (page : CodePage) (mReData mLsData : Text) : Bool × Option (List UInt8) :=
  if mReData = mLsData then (true, none)
  else (false, some ((page.encode mReData).takeWhile (· ≠ 0)))

/-- The verdict of `runParseTable` in a normal test. -/
def verdict (dec : page.Decoder) (mReData : Option Text) (mLs : Option (List UInt8))
    (fatal : Bool) : Verdict :=
  match mReData with
  | none => .pass
  | some mReData =>
      if (saveRESULT page mReData (loadORACLE dec mLs)).1 then .pass
      else if fatal then .fatal else .fail

/-- A normal test that ran to its end without the failure of a laborer. -/
structure Complete (ctx : Context) (table : PsTable) (s : Sys) : Prop where
  normal : ctx.testKind = .normal
  reach : (service ctx table).Reach (fun s lab => noFailure s lab) s
  returned : s.todo = []

/-- What is promised: a run with the outputs of a run whose `.out` file is the `.lst` file passes,
and a run whose text differs from the `.lst` file does not. -/
structure GoldenAgreement (dec : page.Decoder) (ctx : Context) (table : PsTable)
    (outputs : Process → Nat → Text) : Prop where
  rerun : ∀ s s' mReData mLs file fatal, Complete ctx table s → Complete ctx table s' →
    assembled ctx table s outputs = some mReData →
    (saveRESULT page mReData (loadORACLE dec mLs)).2 = some file →
    verdict dec (assembled ctx table s' outputs) (some file) fatal = .pass
  differs : ∀ s outputs' mReData mLs fatal, Complete ctx table s →
    assembled ctx table s outputs' = some mReData → mReData ≠ loadORACLE dec mLs →
    verdict dec (some mReData) mLs fatal = .fail ∨ verdict dec (some mReData) mLs fatal = .fatal

section Agreement

variable {ctx : Context} {table : PsTable} {s s' : Sys} {outputs : Process → Nat → Text}

/-- The text does not depend on the run. -/
theorem reData_of_complete (hs : Complete ctx table s) (hs' : Complete ctx table s') :
    reData ctx table s outputs = reData ctx table s' outputs := by
  have hexecuted : executed s = executed s' := by
    funext p
    exact (executed_eq_addressed ctx table s hs.normal hs.reach hs.returned p).trans
      (executed_eq_addressed ctx table s' hs'.normal hs'.reach hs'.returned p).symm
  rw [reData, reData, hexecuted]

theorem reData_ne_nil : reData ctx table s outputs ≠ [] := by
  rw [reData]
  exact List.append_ne_nil_of_right_ne_nil _ (by decide)

/-- What is written of a text without a NUL. -/
theorem written_of_notMem {t : Text} (h : '\x00' ∉ t) :
    (page.encode t).takeWhile (· ≠ 0) = page.encode t := by
  apply List.takeWhile_eq_self_iff.mpr
  intro b hb
  exact decide_eq_true fun heq => CodePage.nul_notMem_encode h (heq ▸ hb)

theorem verdict_pass_iff (dec : page.Decoder) (mReData : Text) (mLs : Option (List UInt8))
    (fatal : Bool) : verdict dec (some mReData) mLs fatal = .pass ↔ mReData = loadORACLE dec mLs := by
  rw [verdict, saveRESULT]
  split <;> rename_i h
  · exact iff_of_true (if_pos rfl) h
  · refine iff_of_false ?_ h
    cases fatal <;> simp

/-- A text that differs never passes. -/
theorem verdict_differs (dec : page.Decoder) {mReData : Text} {mLs : Option (List UInt8)}
    (fatal : Bool) (h : mReData ≠ loadORACLE dec mLs) :
    verdict dec (some mReData) mLs fatal = .fail ∨ verdict dec (some mReData) mLs fatal = .fatal := by
  rw [verdict, saveRESULT, if_neg h]
  cases fatal
  · exact .inl rfl
  · exact .inr rfl

/-- A run behind a failing run whose file is read back. -/
private theorem decodeBlocks_of_golden {dec : page.Decoder} (hs : Complete ctx table s)
    (hnul : '\x00' ∉ reData ctx table s outputs) (hignored : table.ignored = false)
    (h : GoldenAgreement dec ctx table outputs) :
    dec.decodeBlocks blockSize (page.encode (reData ctx table s outputs)) =
      reData ctx table s outputs := by
  have hassembled : assembled ctx table s outputs = some (reData ctx table s outputs) := by
    rw [assembled, hignored]
    rfl
  have hdiffers : reData ctx table s outputs ≠ loadORACLE dec none := reData_ne_nil
  have hfile : (saveRESULT page (reData ctx table s outputs) (loadORACLE dec none)).2 =
      some (page.encode (reData ctx table s outputs)) := by
    rw [saveRESULT, if_neg hdiffers, written_of_notMem hnul]
  have hpass := h.rerun s s _ none _ false hs hs hassembled hfile
  rw [hassembled, verdict_pass_iff] at hpass
  exact hpass.symm

/-- The agreement, whatever a decoder makes of an incomplete character, has whole blocks. -/
theorem wholeBlocks_of_golden (dec : page.Decoder) (hs : Complete ctx table s)
    (hnul : '\x00' ∉ reData ctx table s outputs) (hignored : table.ignored = false)
    (h : ∀ dec : page.Decoder, GoldenAgreement dec ctx table outputs) :
    page.WholeBlocks blockSize (reData ctx table s outputs) :=
  (CodePage.decodeBlocks_iff dec (by decide)).mp fun dec' =>
    decodeBlocks_of_golden hs hnul hignored (h dec')

/-- The golden run agrees with its reruns if and only if no character of the text lies across the
end of a block. -/
theorem golden_agreement_iff (dec : page.Decoder) (hs : Complete ctx table s)
    (hnul : '\x00' ∉ reData ctx table s outputs) :
    (∀ dec : page.Decoder, GoldenAgreement dec ctx table outputs) ↔
      table.ignored ∨ page.WholeBlocks blockSize (reData ctx table s outputs) := by
  constructor
  · intro h
    cases hignored : table.ignored with
    | true => exact .inl rfl
    | false => exact .inr (wholeBlocks_of_golden dec hs hnul hignored h)
  · intro h dec
    refine ⟨fun s₁ s₂ mReData mLs file fatal hs₁ hs₂ hassembled hfile => ?_,
      fun s₁ outputs' mReData mLs fatal _ _ hdiffers => verdict_differs dec fatal hdiffers⟩
    rw [assembled] at hassembled ⊢
    cases hignored : table.ignored with
    | true =>
      rw [hignored] at hassembled
      cases hassembled
    | false =>
      rw [hignored] at hassembled
      cases hassembled
      have hwhole := h.resolve_left (by simp [hignored])
      rw [reData_of_complete hs hs₁] at hnul hwhole
      rw [saveRESULT] at hfile
      split at hfile
      · cases hfile
      · cases hfile
        rw [written_of_notMem hnul]
        show verdict dec (some (reData ctx table s₂ outputs)) _ fatal = .pass
        rw [verdict_pass_iff, reData_of_complete hs₂ hs₁]
        exact (CodePage.decodeBlocks_of_whole dec (by decide) hwhole).symm

end Agreement

section Examples

/-- A script with one SELECT of `P0`. -/
def oneSelect : PsTable :=
  ⟨[⟨.select, fun key => if key = "key1" then "SELECT * FROM T1".toList else []⟩], []⟩

/-- The run of this script to its end. -/
private def selectSchedule : List Label :=
  [.servicer, .servicer] ++ List.replicate 4 (.laborer p0 .ok) ++ List.replicate 3 .servicer ++
    [.laborer p0 .ok, .servicer]

theorem exists_complete : ∃ s, Complete plainContext oneSelect s := by
  obtain ⟨s, hs, hreturned⟩ := Machine.exists_reach_of_exec (service plainContext oneSelect)
    noFailure (fun s => s.todo.isEmpty) selectSchedule (by decide)
  exact ⟨s, rfl, hs, List.isEmpty_iff.mp hreturned⟩

/-- The text of a run of this script. -/
theorem reData_oneSelect {s : Sys} (hs : Complete plainContext oneSelect s)
    (outputs : Process → Nat → Text) :
    reData plainContext oneSelect s outputs = reDataHead ++ outputs p0 0 ++ "\n".toList := by
  have hexecuted := executed_eq_addressed plainContext oneSelect s hs.normal hs.reach hs.returned p0
  have hcommands : ((addressed p0 (scriptCommands plainContext oneSelect)).map QueryData.type) =
      [.selectCom] := by decide
  obtain ⟨q, hq, htype⟩ := List.map_eq_singleton_iff.mp hcommands
  have hresult : mResult plainContext.staf p0 [q] (outputs p0) = outputs p0 0 := by
    simp [mResult, Recorded.command, htype, Recorded.sql, Recorded.add]
  have hlaborers : (runNodes plainContext .init oneSelect.nodeList).1.laborers = [p0] := by decide
  rw [reData, hlaborers, List.flatMap_singleton, hexecuted, hq, hresult]

/-- Every output is the same text. -/
private def same (output : Text) : Process → Nat → Text := fun _ _ => output

private theorem ascii_reDataHead : ∀ c ∈ reDataHead, c.utf8Size = 1 := by
  have hdashes : ∀ c ∈ List.replicate 70 '-', c.utf8Size = 1 := by
    intro c hc
    rw [List.eq_of_mem_replicate hc]
    rfl
  have hliteral : ∀ t : Text, t.all (·.utf8Size == 1) → ∀ c ∈ t, c.utf8Size = 1 :=
    fun t ht c hc => by simpa using List.all_eq_true.mp ht c hc
  -- the equation of a definition by string literals is slow to derive
  delta reDataHead
  simp only [List.forall_mem_append]
  exact ⟨⟨⟨⟨⟨⟨⟨⟨hliteral _ rfl, hliteral _ rfl⟩, hdashes⟩, hliteral _ rfl⟩, hliteral _ rfl⟩,
    hliteral _ rfl⟩, hdashes⟩, hliteral _ rfl⟩, hliteral _ rfl⟩

private theorem length_reDataHead : reDataHead.length = 190 := by
  delta reDataHead
  simp only [List.length_append, List.length_replicate]
  rfl

theorem golden_agreement_short :
    ∃ s, Complete plainContext oneSelect s ∧ ∀ dec : utf8.Decoder,
      GoldenAgreement dec plainContext oneSelect (same "1 row selected.\n".toList) := by
  obtain ⟨s, hs⟩ := exists_complete
  refine ⟨s, hs, (golden_agreement_iff utf8Decoder hs ?_).mpr (.inr ?_)⟩
  · rw [reData_oneSelect hs]
    decide
  · rw [reData_oneSelect hs]
    apply CodePage.wholeBlocks_of_fit
    rw [CodePage.encode_append, CodePage.encode_append, List.length_append, List.length_append,
      length_utf8 ascii_reDataHead, length_reDataHead]
    decide

/-- Characters of one byte up to the last byte of the first block. -/
private def upToBlockEnd : Text := List.replicate (blockSize - 1 - reDataHead.length) 'a'

private theorem ascii_upToBlockEnd : ∀ c ∈ reDataHead ++ upToBlockEnd, c.utf8Size = 1 := by
  refine List.forall_mem_append.mpr ⟨ascii_reDataHead, fun c hc => ?_⟩
  rw [List.eq_of_mem_replicate hc]
  rfl

private theorem length_upToBlockEnd : (reDataHead ++ upToBlockEnd).length = 65535 := by
  rw [List.length_append, upToBlockEnd, List.length_replicate, length_reDataHead]
  rfl

/-- A character of two bytes lies across the end of the first block. -/
private theorem not_wholeBlocks_straddling :
    ¬ utf8.WholeBlocks blockSize (reDataHead ++ (upToBlockEnd ++ ['é']) ++ "\n".toList) := by
  intro h
  have htext : reDataHead ++ (upToBlockEnd ++ ['é']) ++ "\n".toList =
      (reDataHead ++ upToBlockEnd ++ ['é']) ++ ['\n'] := by
    rw [← List.append_assoc]
    rfl
  rw [htext] at h
  have hfront : (utf8.encode (reDataHead ++ upToBlockEnd ++ ['é'])).length = 65537 := by
    rw [CodePage.encode_append, List.length_append, length_utf8 ascii_upToBlockEnd,
      length_upToBlockEnd]
    rfl
  have hlength : (utf8.encode ((reDataHead ++ upToBlockEnd ++ ['é']) ++ ['\n'])).length = 65538 := by
    rw [CodePage.encode_append, List.length_append, hfront]
    rfl
  have hne : utf8.encode ((reDataHead ++ upToBlockEnd ++ ['é']) ++ ['\n']) ≠ [] :=
    List.ne_nil_of_length_pos (by omega)
  obtain ⟨part, hpart⟩ := h _ (take_mem_blocks hne)
  have hblock : (utf8.encode part).length = 65536 := by
    rw [hpart, List.length_take, hlength]
    rfl
  have hprefix := prefix_of_utf8 (hpart ▸ List.take_append_drop blockSize _)
  rcases List.prefix_or_prefix_of_prefix hprefix (List.prefix_append _ ['\n']) with hshort | hlong
  · rcases List.prefix_concat_iff.mp hshort with heq | hshort
    · rw [heq] at hblock
      omega
    · have hascii : ∀ c ∈ part, c.utf8Size = 1 := fun c hc =>
        ascii_upToBlockEnd c (hshort.subset hc)
      have hle := hshort.length_le
      rw [length_utf8 hascii] at hblock
      rw [length_upToBlockEnd] at hle
      omega
  · obtain ⟨rest, rfl⟩ := hlong
    rw [CodePage.encode_append, List.length_append] at hblock
    omega

private theorem nul_straddling :
    '\x00' ∉ reDataHead ++ (upToBlockEnd ++ ['é']) ++ "\n".toList := by
  have hhead : '\x00' ∉ reDataHead := by decide
  have hfill : '\x00' ∉ upToBlockEnd := fun h => by
    have heq := List.eq_of_mem_replicate h
    revert heq
    decide
  simp only [List.mem_append, not_or]
  exact ⟨⟨hhead, hfill, by decide⟩, by decide⟩

/-- A text with this character fails against its own `.out` file. -/
theorem golden_disagreement :
    ¬ ∀ (page : CodePage) (dec : page.Decoder) (ctx : Context) (table : PsTable) (s : Sys)
      (outputs : Process → Nat → Text), Complete ctx table s →
      '\x00' ∉ reData ctx table s outputs → GoldenAgreement dec ctx table outputs := by
  intro h
  obtain ⟨s, hs⟩ := exists_complete
  have htext : reData plainContext oneSelect s (same (upToBlockEnd ++ ['é'])) =
      reDataHead ++ (upToBlockEnd ++ ['é']) ++ "\n".toList := reData_oneSelect hs _
  have hnul : '\x00' ∉ reData plainContext oneSelect s (same (upToBlockEnd ++ ['é'])) := by
    rw [htext]
    exact nul_straddling
  have hwhole := wholeBlocks_of_golden utf8Decoder hs hnul rfl fun dec =>
    h utf8 dec plainContext oneSelect s _ hs hnul
  rw [htext] at hwhole
  exact not_wholeBlocks_straddling hwhole

end Examples

end Natc.Ats
