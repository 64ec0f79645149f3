import Mathlib.Data.List.Chain
import Natc.Ats.RsystemEnv
import Natc.Lib.Decimal

/-!
# Port numbers in the environment of a command

A parameter of a server can refer to a port by `%PORT_NO` and a decimal number. `getPort` makes the
number of a parameter that is such a reference, and the environment of the commands exchanges the
references inside the parameters of the audit databases.
-/

namespace Natc.Ats.PortNumbers

open Lib

/-- Where a text is found, and what a text of digits is as an `unsigned int`. -/
structure StafNumbers extends Staf where
  find_eq : ∀ s w, find s w = indexOf? w s
  asUInt_digits : ∀ s, s ≠ [] → IsDigits s → Lib.decimal s < 2 ^ 32 → asUInt s = Lib.decimal s

/-! ## The environment of a local command -/

section System

variable (staf : Staf) (env : ServiceEnv)

/-- The parameters that are written. A command elsewhere keeps its own `PATH`. -/
def isExported (isLocal : Bool) (sKey : Text) : Bool :=
  staf.strip sKey ≠ [] ∧ ¬(sKey = "PATH".toList ∧ isLocal = false)

/-- The command that exports a parameter. -/
def exportEntry (param : Text × Text) : Text :=
  "export ".toList ++ (param.1 ++ ("=\"".toList ++
    (paramValue staf env param.1 param.2 ++ "\";".toList)))

def exportEntries (isLocal : Bool) (sServer : ServerParam) : List Text :=
  (sServer.params.filter fun param => isExported staf isLocal param.1).map (exportEntry staf env)

/-- The length of `sPath`. -/
def sizeofPath : Nat := 65536

/-- `Servicer::getEnv4System`; `none` for a result path that does not fit `sPath`. -/
def getEnv4System (dirname : Text → Text) (mRe : Text) (isLocal : Bool) (sServer : ServerParam) :
    Option Text :=
  if sizeofPath ≤ mRe.length then none
  else some (staf.strip ("cd \"".toList ++ (dirname mRe ++ ("\";".toList ++
    (exportEntries staf env isLocal sServer).flatten))))

end System

/-! ## References -/

def portNo : Text := "%PORT_NO".toList

inductive Piece where
  | char (c : Char)
  /-- A reference, with the digits behind the name. -/
  | port (k : Text)
  deriving DecidableEq

/-- The digits behind a name at the front. -/
def digitsBehind (s : Text) : Text := (s.drop portNo.length).takeWhile Char.isDigit

/-- The scan behind `pieces`: `skip` characters of a reference are still to be dropped. -/
def piecesFrom : Nat → Text → List Piece
  | _, [] => []
  | skip + 1, _ :: cs => piecesFrom skip cs
  | 0, c :: cs =>
      if portNo <+: c :: cs ∧ digitsBehind (c :: cs) ≠ [] then
        .port (digitsBehind (c :: cs)) ::
          piecesFrom (portNo.length - 1 + (digitsBehind (c :: cs)).length) cs
      else .char c :: piecesFrom 0 cs

/-- A text as characters and references. -/
def pieces (s : Text) : List Piece := piecesFrom 0 s

/-- The numbers of the references in a text. -/
def numbers (s : Text) : List Text :=
  (pieces s).filterMap fun
    | .char _ => none
    | .port k => some k

/-- The text of a piece, with `number` for the references. -/
def Piece.write (number : Text → Text) : Piece → Text
  | .char c => [c]
  | .port k => number k

/-- Each reference is replaced by its number, and the rest stays. -/
def expandPorts (number : Text → Text) (s : Text) : Text :=
  (pieces s).flatMap (Piece.write number)

section Law

variable (staf : Staf) (env : ServiceEnv)

/-- The number of the base port. -/
def basePort : Nat := staf.asUInt env.mEnvPORT

/-- The port with the number `k`. -/
def portNumber (k : Text) : Text := Nat.toDigits 10 (basePort staf env + 1000 * Lib.decimal k)

/-- The value that a command should see. -/
def expectedValue (param : Text × Text) : Text :=
  if "AUDIT_DB".toList <:+: param.1 then expandPorts (portNumber staf env) param.2
  else paramValue staf env param.1 param.2

/-- Every reference in the parameter of an audit database is the port that a server has with it,
and nothing else of the parameter changes, in both environments. -/
structure PortsRight (isLocal : Bool) (sServer : ServerParam) : Prop where
  system : exportEntries staf env isLocal sServer =
    (sServer.params.filter fun param => isExported staf isLocal param.1).map fun param =>
      "export ".toList ++ (param.1 ++ ("=\"".toList ++
        (expectedValue staf env param ++ "\";".toList)))
  rsystem : paramEntries staf env sServer =
    (sServer.params.filter fun param => isWritten staf param.1).map fun param =>
      param.1 ++ '=' :: expectedValue staf env param
  server : ∀ param ∈ sServer.params, "AUDIT_DB".toList <:+: param.1 →
    ∀ k ∈ numbers param.2, getPort staf env (portNo ++ k) = portNumber staf env k

/-- The number begins with the digit and has no other ones, or those that happen to fit the base
port, and the port is an `unsigned int`. -/
def Fitting (P : Nat) (d : Char) (k : Text) : Prop :=
  P + 1000 * Lib.decimal k < 2 ^ 32 ∧ ∃ rest, k = d :: rest ∧
    (rest = [] ∨ 0 < P + 1000 * Lib.decimal [d] ∧
      P * (10 ^ rest.length - 1) = 999 * Lib.decimal rest)

/-- The value has no white space at its ends, and its first `%PORT_NO` is a reference with whose
first digit all numbers fit. -/
structure Uniform (P : Nat) (value : Text) : Prop where
  ends : staf.strip value = value
  first : ∀ i, indexOf? portNo value = some i →
    ∃ d, value[i + portNo.length]? = some d ∧ d.isDigit = true ∧
      ∀ k ∈ numbers value, Fitting P d k

end Law

/-! ## The pieces of a text -/

section Pieces

private theorem portNo_eq : portNo = '%' :: "PORT_NO".toList := by decide

private theorem length_portNo : portNo.length = 8 := by decide

private theorem portNo_ne_nil : portNo ≠ [] := by decide

private theorem percent_notMem : '%' ∉ "PORT_NO".toList := by decide

private theorem piecesFrom_skip (n : Nat) (s : Text) : piecesFrom n s = pieces (s.drop n) := by
  induction s generalizing n with
  | nil => cases n <;> rfl
  | cons c s ih =>
    cases n with
    | zero => rfl
    | succ n => exact ih n

private theorem digitsBehind_portNo {k t : Text} (hk : IsDigits k)
    (hend : ∀ c ∈ t.head?, c.isDigit = false) : digitsBehind (portNo ++ (k ++ t)) = k := by
  have ht : t.takeWhile Char.isDigit = [] := by
    cases t with
    | nil => rfl
    | cons c t => rw [List.takeWhile_cons_of_neg (by simp [hend c rfl])]
  rw [digitsBehind, List.drop_left, List.takeWhile_append_of_pos hk, ht, List.append_nil]

theorem pieces_port {k t : Text} (hne : k ≠ []) (hk : IsDigits k)
    (hend : ∀ c ∈ t.head?, c.isDigit = false) :
    pieces (portNo ++ (k ++ t)) = .port k :: pieces t := by
  have hcons : portNo ++ (k ++ t) = '%' :: ("PORT_NO".toList ++ (k ++ t)) := by
    rw [portNo_eq, List.cons_append]
  have hdigits := digitsBehind_portNo hk hend
  have hfront : portNo <+: portNo ++ (k ++ t) := List.prefix_append _ _
  have hskip : ("PORT_NO".toList ++ (k ++ t)).drop (portNo.length - 1 + k.length) = t := by
    have hlength : portNo.length - 1 + k.length = ("PORT_NO".toList ++ k).length := by
      rw [List.length_append, portNo_eq, List.length_cons, Nat.add_sub_cancel]
    rw [hlength, ← List.append_assoc, List.drop_left]
  rw [hcons] at hdigits hfront ⊢
  rw [pieces, piecesFrom, hdigits, if_pos ⟨hfront, hne⟩, piecesFrom_skip, hskip]

theorem pieces_char {c : Char} {s : Text}
    (h : ¬(portNo <+: c :: s ∧ digitsBehind (c :: s) ≠ [])) :
    pieces (c :: s) = .char c :: pieces s := by
  rw [pieces, piecesFrom, if_neg h]
  rfl

/-- A text read piece by piece. -/
@[elab_as_elim] theorem pieces_induction {motive : Text → Prop} (nil : motive [])
    (port : ∀ k t, k ≠ [] → IsDigits k → (∀ c ∈ t.head?, c.isDigit = false) → motive t →
      motive (portNo ++ (k ++ t)))
    (char : ∀ c s, ¬(portNo <+: c :: s ∧ digitsBehind (c :: s) ≠ []) → motive s →
      motive (c :: s)) (s : Text) : motive s := by
  induction hn : s.length using Nat.strong_induction_on generalizing s with
  | _ n ih =>
    subst hn
    cases s with
    | nil => exact nil
    | cons c s =>
      by_cases h : portNo <+: c :: s ∧ digitsBehind (c :: s) ≠ []
      · obtain ⟨⟨r, hr⟩, hne⟩ := h
        have hdigits : digitsBehind (c :: s) = r.takeWhile Char.isDigit := by
          rw [← hr, digitsBehind, List.drop_left]
        rw [hdigits] at hne
        have hsplit :
            c :: s = portNo ++ (r.takeWhile Char.isDigit ++ r.dropWhile Char.isDigit) := by
          rw [List.takeWhile_append_dropWhile, hr]
        have hshorter : (r.dropWhile Char.isDigit).length < (c :: s).length := by
          rw [hsplit, List.length_append, List.length_append, length_portNo]
          omega
        rw [hsplit]
        refine port _ _ hne (fun d hd => List.mem_takeWhile_imp hd) (fun d hd => ?_)
          (ih _ hshorter _ rfl)
        have hhead := List.head?_dropWhile_not Char.isDigit r
        rw [hd] at hhead
        simpa using hhead
      · exact char c s h (ih s.length (Nat.lt_succ_self _) s rfl)

theorem flatMap_write_portNo (s : Text) : expandPorts (portNo ++ ·) s = s := by
  rw [expandPorts]
  induction s using pieces_induction with
  | nil => rfl
  | port k t hne hk hend ih =>
    rw [pieces_port hne hk hend, List.flatMap_cons, ih, Piece.write, List.append_assoc]
  | char c s h ih =>
    rw [pieces_char h, List.flatMap_cons, ih]
    rfl

theorem isDigits_of_mem_pieces {s k : Text} (h : .port k ∈ pieces s) : k ≠ [] ∧ IsDigits k := by
  induction s using pieces_induction with
  | nil => cases h
  | port k' t hne hk hend ih =>
    rw [pieces_port hne hk hend] at h
    rcases List.mem_cons.mp h with h | h
    · cases h
      exact ⟨hne, hk⟩
    · exact ih h
  | char c s hchar ih =>
    rw [pieces_char hchar] at h
    rcases List.mem_cons.mp h with h | h
    · cases h
    · exact ih h

theorem mem_numbers {s k : Text} : k ∈ numbers s ↔ .port k ∈ pieces s := by
  rw [numbers, List.mem_filterMap]
  constructor
  · rintro ⟨piece, hpiece, hk⟩
    cases piece with
    | char c => cases hk
    | port k' =>
      obtain rfl := Option.some.inj hk
      exact hpiece
  · intro h
    exact ⟨.port k, h, rfl⟩

end Pieces

/-! ## What the code replaces -/

section Replace

/-- What becomes of a reference when the name with the digit `d` is replaced by `r`. -/
def replaced (d : Char) (r k : Text) : Text :=
  if k.head? = some d then r ++ k.tail else portNo ++ k

private theorem percent_notMem_digits {k : Text} (hk : IsDigits k) : '%' ∉ k :=
  fun h => absurd (hk '%' h) (by decide)

/-- Replacing the name with a digit works on each reference alone. -/
theorem replaceAll_portNo {d : Char} (hd : d.isDigit = true) (r s : Text) :
    replaceAll (portNo ++ [d]) r s = expandPorts (replaced d r) s := by
  rw [expandPorts]
  induction s using pieces_induction with
  | nil => rfl
  | port k t hne hk hend ih =>
    obtain ⟨e, rest, rfl⟩ := List.exists_cons_of_ne_nil hne
    have hrest : '%' ∉ rest := percent_notMem_digits (List.forall_mem_cons.mp hk).2
    rw [pieces_port hne hk hend, List.flatMap_cons, ← ih, Piece.write, replaced]
    by_cases heq : e = d
    · subst heq
      have hsplit : portNo ++ (e :: rest ++ t) = (portNo ++ [e]) ++ (rest ++ t) := by simp
      rw [if_pos (List.head?_cons), hsplit, replaceAll_append _ _ _ (by simp), portNo_eq,
        List.cons_append, replaceAll_keep_of_notMem hrest, List.tail_cons, List.append_assoc]
    · have hnot : ¬portNo ++ [d] <+: portNo ++ (e :: rest ++ t) := by
        rw [List.prefix_append_right_inj, List.cons_append, List.cons_prefix_cons]
        exact fun h => heq h.1.symm
      have hkeep : '%' ∉ "PORT_NO".toList ++ (e :: rest) := by
        intro h
        rcases List.mem_append.mp h with h | h
        · exact percent_notMem h
        · exact percent_notMem_digits hk h
      have hcons : portNo ++ (e :: rest ++ t) =
          '%' :: ("PORT_NO".toList ++ (e :: rest) ++ t) := by
        rw [portNo_eq, List.cons_append, List.append_assoc]
      rw [if_neg (by simpa using heq), hcons, replaceAll_cons _ _ _ _ (hcons ▸ hnot)]
      rw [portNo_eq, List.cons_append, replaceAll_keep_of_notMem hkeep]
      rfl
  | char c s h ih =>
    have hnot : ¬portNo ++ [d] <+: c :: s := by
      rintro ⟨t, ht⟩
      refine h ⟨⟨d :: t, by rw [← ht]; simp⟩, ?_⟩
      rw [← ht, List.append_assoc, digitsBehind, List.drop_left, List.singleton_append,
        List.takeWhile_cons_of_pos hd]
      exact List.cons_ne_nil _ _
    rw [pieces_char h, List.flatMap_cons, ← ih, replaceAll_cons _ _ _ _ hnot]
    rfl

end Replace

/-! ## White space at the ends -/

section Ends

variable {white : Char → Bool} {number : Text → Text} {ps : List Piece}

/-- What is written for a reference is there, and has no white space. -/
def Solid (white : Char → Bool) (number : Text → Text) (ps : List Piece) : Prop :=
  ∀ k, .port k ∈ ps → number k ≠ [] ∧ ∀ c ∈ number k, white c = false

/-- No white character stands at an end. -/
def EndsClean (white : Char → Bool) (ps : List Piece) : Prop :=
  (∀ c, ps.head? = some (.char c) → white c = false) ∧
    ∀ c, ps.getLast? = some (.char c) → white c = false

private theorem head_clean_iff (h : Solid white number ps) :
    (∀ c ∈ (ps.flatMap (Piece.write number)).head?, white c = false) ↔
      ∀ c, ps.head? = some (.char c) → white c = false := by
  cases ps with
  | nil => simp
  | cons piece ps =>
    cases piece with
    | char c => simp [Piece.write]
    | port k =>
      obtain ⟨hne, hclean⟩ := h k List.mem_cons_self
      refine iff_of_true (fun c hc => hclean c ?_) fun c hc => by cases hc
      rw [List.flatMap_cons, Piece.write, List.head?_append_of_ne_nil _ hne] at hc
      exact List.mem_of_mem_head? hc

private theorem last_clean_iff (h : Solid white number ps) :
    (∀ c ∈ (ps.flatMap (Piece.write number)).getLast?, white c = false) ↔
      ∀ c, ps.getLast? = some (.char c) → white c = false := by
  induction ps using List.reverseRecOn with
  | nil => simp
  | append_singleton ps piece _ =>
    cases piece with
    | char c => simp [Piece.write]
    | port k =>
      obtain ⟨hne, hclean⟩ := h k (by simp)
      rw [List.flatMap_append, List.flatMap_singleton, Piece.write]
      refine iff_of_true (fun c hc => hclean c ?_) fun c hc => ?_
      · rw [List.getLast?_append_of_ne_nil _ hne] at hc
        exact List.mem_of_getLast? hc
      · rw [List.getLast?_concat] at hc
        cases hc

/-- Whatever is written for the references, the same ends are clean. -/
theorem strip_eq_self_iff (h : Solid white number ps) :
    stripWith white (ps.flatMap (Piece.write number)) = ps.flatMap (Piece.write number) ↔
      EndsClean white ps := by
  rw [stripWith_eq_self_iff, head_clean_iff h, last_clean_iff h, EndsClean]

end Ends

/-! ## Ports -/

section Ports

variable {w : StafNumbers} {env : ServiceEnv}

theorem white_of_isDigit (staf : Staf) {c : Char} (hc : c.isDigit = true) :
    staf.white c = false := by
  obtain ⟨hlow, hhigh⟩ := Char.isDigit_iff_toNat.mp hc
  refine staf.white_printable c (Char.le_def.mpr ?_) (Char.le_def.mpr ?_)
  · exact le_trans (by decide) hlow
  · exact le_trans hhigh (by decide)

private theorem white_portNo (staf : Staf) : ∀ c ∈ portNo, staf.white c = false := by
  have hprintable : (portNo.all fun c => '!' ≤ c && c ≤ '~') = true := by decide
  intro c hc
  have hbounds := List.all_eq_true.mp hprintable c hc
  rw [Bool.and_eq_true, decide_eq_true_iff, decide_eq_true_iff] at hbounds
  exact staf.white_printable c hbounds.1 hbounds.2

theorem solid_portNo (staf : Staf) (s : Text) :
    Solid staf.white (portNo ++ ·) (pieces s) := by
  intro k hk
  obtain ⟨-, hdigits⟩ := isDigits_of_mem_pieces hk
  refine ⟨by simp [portNo_ne_nil], fun c hc => ?_⟩
  rcases List.mem_append.mp hc with hc | hc
  · exact white_portNo staf c hc
  · exact white_of_isDigit staf (hdigits c hc)

theorem solid_toDigits (staf : Staf) (n : Text → Nat) (ps : List Piece) :
    Solid staf.white (fun k => Nat.toDigits 10 (n k)) ps := fun _ _ =>
  ⟨Nat.toDigits_ne_nil, fun c hc => white_of_isDigit staf (isDigits_toDigits _ c hc)⟩

theorem solid_replaced (staf : Staf) (d : Char) (n : Nat) (s : Text) :
    Solid staf.white (replaced d (Nat.toDigits 10 n)) (pieces s) := by
  intro k hk
  obtain ⟨-, hdigits⟩ := isDigits_of_mem_pieces hk
  rw [replaced]
  split
  · refine ⟨by simp, fun c hc => white_of_isDigit staf ?_⟩
    rcases List.mem_append.mp hc with hc | hc
    · exact isDigits_toDigits n c hc
    · exact hdigits c (List.mem_of_mem_tail hc)
  · exact solid_portNo staf s k hk

/-- The port of a reference, in `unsigned int`. -/
theorem getPort_portNo {k : Text} (hk : IsDigits k) :
    getPort w.toStaf env (portNo ++ k) =
      Nat.toDigits 10 ((w.asUInt k * 1000 + basePort w.toStaf env) % 2 ^ 32) := by
  have hclean : w.strip (portNo ++ k) = portNo ++ k := by
    rw [w.strip_eq, stripWith_eq_self_iff]
    have hall : ∀ c ∈ portNo ++ k, w.white c = false := by
      intro c hc
      rcases List.mem_append.mp hc with hc | hc
      · exact white_portNo w.toStaf c hc
      · exact white_of_isDigit w.toStaf (hk c hc)
    exact ⟨fun c hc => hall c (List.mem_of_mem_head? hc),
      fun c hc => hall c (List.mem_of_getLast? hc)⟩
  have hfound : w.contains (portNo ++ k) portNo = true :=
    (w.contains_iff _ _).mpr (List.prefix_append _ _).isInfix
  have hname : w.replace (portNo ++ k) portNo [] = k := by
    rw [w.replace_eq _ _ _ portNo_ne_nil, replaceAll_append _ _ _ portNo_ne_nil, List.nil_append,
      replaceAll_of_absent]
    intro h
    exact percent_notMem_digits hk (h.subset (by rw [portNo_eq]; exact List.mem_cons_self))
  show portOf w.toStaf env portNo 0 (portNo ++ k) = _
  simp only [portOf, hclean, hfound, if_true, hname, Nat.add_zero, basePort]

/-- It is the number that the reference stands for unless that is no `unsigned int`. -/
theorem getPort_eq_iff {k : Text} (hne : k ≠ []) (hk : IsDigits k) :
    getPort w.toStaf env (portNo ++ k) = portNumber w.toStaf env k ↔
      basePort w.toStaf env + 1000 * Lib.decimal k < 2 ^ 32 := by
  rw [getPort_portNo hk, portNumber, toDigits_inj]
  constructor
  · intro h
    rw [← h]
    exact Nat.mod_lt _ (by decide)
  · intro h
    rw [w.asUInt_digits k hne hk (by omega), Nat.mod_eq_of_lt (by omega)]
    omega

end Ports

/-! ## Numbers of several digits -/

section Digits

variable {P : Nat} {d : Char} {ps : List Piece}

/-- The port of a digit with further digits behind it is the port of the whole number only by
coincidence. -/
theorem append_eq_iff {rest : Text} (hrest : IsDigits rest) :
    Nat.toDigits 10 (P + 1000 * Lib.decimal [d]) ++ rest =
        Nat.toDigits 10 (P + 1000 * Lib.decimal (d :: rest)) ↔
      rest = [] ∨ 0 < P + 1000 * Lib.decimal [d] ∧
        P * (10 ^ rest.length - 1) = 999 * Lib.decimal rest := by
  by_cases hnil : rest = []
  · rw [hnil]
    simp
  rw [or_iff_right hnil]
  rcases Nat.eq_zero_or_pos (P + 1000 * Lib.decimal [d]) with hzero | hpos
  · rw [hzero]
    refine iff_of_false (fun h => ?_) fun h => absurd h.1 (Nat.lt_irrefl 0)
    have hvalue : P + 1000 * Lib.decimal (d :: rest) = 1000 * Lib.decimal rest := by
      rw [decimal_cons, show Lib.decimal [d] = 0 by omega, show P = 0 by omega]
      omega
    rw [hvalue] at h
    rcases Nat.eq_zero_or_pos (1000 * Lib.decimal rest) with hrzero | hrpos
    · rw [hrzero] at h
      exact hnil (List.append_right_eq_self.mp h)
    · exact head?_toDigits hrpos (by rw [← h]; rfl)
  · rw [toDigits_append hpos hrest, toDigits_inj, decimal_cons d rest, and_iff_right hpos]
    have hpower : 0 < 10 ^ rest.length := Nat.pow_pos (by decide)
    generalize 10 ^ rest.length = X at hpower ⊢
    have hsub : P * (X - 1) + P = X * P := by
      rw [← Nat.mul_succ, Nat.succ_eq_add_one, Nat.sub_add_cancel hpower, Nat.mul_comm]
    have hleft : X * (P + 1000 * Lib.decimal [d]) = X * P + 1000 * (X * Lib.decimal [d]) := by ring
    rw [hleft]
    omega

/-- From a base port of a thousand on, the further digits only make the text longer. -/
theorem length_le_append (hP : 1000 ≤ P) {rest : Text} (hrest : IsDigits rest) :
    (Nat.toDigits 10 (P + 1000 * Lib.decimal (d :: rest))).length ≤
      (Nat.toDigits 10 (P + 1000 * Lib.decimal [d]) ++ rest).length := by
  rw [toDigits_append (by omega) hrest]
  apply length_toDigits_le
  have hlt := decimal_lt hrest
  rw [decimal_cons]
  generalize 10 ^ rest.length = X at hlt ⊢
  obtain ⟨Y, rfl⟩ : ∃ Y, X = Y + 1 := ⟨X - 1, by omega⟩
  have hmul : 1000 * Y ≤ P * Y := Nat.mul_le_mul_right Y hP
  have hleft : (Y + 1) * (P + 1000 * Lib.decimal [d]) =
      P * Y + P + 1000 * ((Y + 1) * Lib.decimal [d]) := by ring
  rw [hleft]
  omega

/-- Below a thousand, both texts have the same digits besides zeros. -/
theorem nonzeros_append_eq (hP : P < 1000) (hd : d.isDigit = true) {rest : Text}
    (hrest : IsDigits rest) :
    nonzeros (Nat.toDigits 10 (P + 1000 * Lib.decimal [d]) ++ rest) =
      nonzeros (Nat.toDigits 10 (P + 1000 * Lib.decimal (d :: rest))) := by
  have hsplit : nonzeros (d :: rest) = nonzeros [d] + nonzeros rest := nonzeros_append [d] rest
  rw [nonzeros_append, nonzeros_thousand hP (List.forall_mem_singleton.mpr hd),
    nonzeros_thousand hP (List.forall_mem_cons.mpr ⟨hd, hrest⟩), hsplit]
  omega

/-- Behind a reference no further digit stands. -/
def Separate (ps : List Piece) : Prop :=
  ps.IsChain fun piece next => ∀ k c, piece = .port k → next = .char c → c.isDigit = false

private theorem head?_of_head?_pieces {s : Text} {c : Char}
    (h : (pieces s).head? = some (.char c)) : s.head? = some c := by
  induction s using pieces_induction with
  | nil => cases h
  | port k t hne hk hend _ =>
    rw [pieces_port hne hk hend] at h
    cases h
  | char c' s hchar _ =>
    rw [pieces_char hchar] at h
    cases h
    rfl

theorem separate_pieces (s : Text) : Separate (pieces s) := by
  rw [Separate]
  induction s using pieces_induction with
  | nil => exact List.isChain_nil
  | port k t hne hk hend ih =>
    rw [pieces_port hne hk hend, List.isChain_cons]
    refine ⟨fun next hnext k' c _ hc => ?_, ih⟩
    rw [hc] at hnext
    exact hend c (head?_of_head?_pieces hnext)
  | char c s hchar ih =>
    rw [pieces_char hchar, List.isChain_cons]
    refine ⟨fun next _ k c' hk => ?_, ih⟩
    cases hk

/-- Two ways to write the references agree if they give the same text, as many digits besides
zeros, and no zero in front. -/
theorem write_eq_of_nonzeros {f g : Text → Text} (hsep : Separate ps)
    (hcount : ∀ k, .port k ∈ ps → nonzeros (f k) = nonzeros (g k))
    (hf : ∀ k, .port k ∈ ps → f k ≠ [] ∧ (f k).head? ≠ some '0')
    (hg : ∀ k, .port k ∈ ps → g k ≠ [] ∧ (g k).head? ≠ some '0')
    (h : ps.flatMap (Piece.write f) = ps.flatMap (Piece.write g)) :
    ∀ k, .port k ∈ ps → f k = g k := by
  induction ps with
  | nil =>
    intro k hk
    cases hk
  | cons piece ps ih =>
    rw [Separate, List.isChain_cons] at hsep
    obtain ⟨hnext, hsep⟩ := hsep
    have htail : ps.flatMap (Piece.write f) = ps.flatMap (Piece.write g) →
        ∀ k, .port k ∈ ps → f k = g k :=
      ih hsep (fun k hk => hcount k (List.mem_cons_of_mem _ hk))
        (fun k hk => hf k (List.mem_cons_of_mem _ hk))
        fun k hk => hg k (List.mem_cons_of_mem _ hk)
    rw [List.flatMap_cons, List.flatMap_cons] at h
    cases piece with
    | char c =>
      intro k hk
      exact htail (List.append_cancel_left h) k ((List.mem_cons.mp hk).resolve_left (by simp))
    | port k =>
      -- what follows a reference begins with no zero
      have hbehind : ∀ number : Text → Text,
          (∀ k, .port k ∈ ps → number k ≠ [] ∧ (number k).head? ≠ some '0') →
          (ps.flatMap (Piece.write number)).head? ≠ some '0' := by
        intro number hnumber
        cases ps with
        | nil => simp
        | cons next ps =>
          cases next with
          | char c =>
            have hc := hnext _ rfl k c rfl rfl
            rw [List.flatMap_cons, Piece.write, List.singleton_append, List.head?_cons]
            rintro heq
            cases heq
            exact absurd hc (by decide)
          | port k' =>
            obtain ⟨hne, hhead⟩ := hnumber k' List.mem_cons_self
            rwa [List.flatMap_cons, Piece.write, List.head?_append_of_ne_nil _ hne]
      obtain ⟨hhead, hrest⟩ := append_inj_of_nonzeros h (hcount k List.mem_cons_self)
        (hbehind f fun k hk => hf k (List.mem_cons_of_mem _ hk))
        (hbehind g fun k hk => hg k (List.mem_cons_of_mem _ hk))
      intro k' hk'
      rcases List.mem_cons.mp hk' with hk' | hk'
      · cases hk'
        exact hhead
      · exact htail hrest k' hk'

/-- The base port zero: its digit is lost in front of further ones. -/
private theorem write_eq_of_zero {f : Text → Text} (j : Nat)
    (hf : ∀ k, .port k ∈ ps → ∃ rest, k = '0' :: rest ∧ IsDigits rest ∧ f k = '0' :: rest)
    (h : List.replicate j '0' ++ ps.flatMap (Piece.write f) =
      ps.flatMap (Piece.write fun k => Nat.toDigits 10 (1000 * Lib.decimal k))) :
    j = 0 ∧ ∀ k, .port k ∈ ps → f k = Nat.toDigits 10 (1000 * Lib.decimal k) := by
  induction ps generalizing j with
  | nil =>
    refine ⟨?_, fun k hk => by cases hk⟩
    simpa using h
  | cons piece ps ih =>
    have htail := fun j => ih j fun k hk => hf k (List.mem_cons_of_mem _ hk)
    rw [List.flatMap_cons, List.flatMap_cons] at h
    cases piece with
    | char c =>
      cases j with
      | zero =>
        obtain ⟨-, hall⟩ := htail 0 (List.append_cancel_left h)
        exact ⟨rfl, fun k hk => hall k ((List.mem_cons.mp hk).resolve_left (by simp))⟩
      | succ j =>
        rw [Piece.write, Piece.write, List.replicate_succ, List.cons_append, List.singleton_append,
          List.singleton_append, List.cons.injEq] at h
        obtain ⟨rfl, h⟩ := h
        rw [List.append_cons, ← List.replicate_succ'] at h
        exact absurd (htail (j + 1) h).1 (Nat.succ_ne_zero j)
    | port k =>
      obtain ⟨rest, rfl, hrest, hk⟩ := hf k List.mem_cons_self
      have hvalue : Lib.decimal ('0' :: rest) = Lib.decimal rest := by
        rw [decimal_cons, show Lib.decimal ['0'] = 0 from rfl, Nat.mul_zero, Nat.zero_add]
      rw [Piece.write, Piece.write, hk, hvalue] at h
      rcases Nat.eq_zero_or_pos (1000 * Lib.decimal rest) with hzero | hpos
      · have hzeros := eq_replicate_of_decimal hrest (by omega)
        have hleft : ∀ m X, List.replicate j '0' ++ ('0' :: List.replicate m '0' ++ X) =
            '0' :: (List.replicate (j + m) '0' ++ X) := by
          intro m X
          rw [← List.replicate_succ, ← List.append_assoc, List.replicate_append_replicate,
            ← Nat.add_assoc, List.replicate_succ, List.cons_append]
        rw [hzero, hzeros, hleft] at h
        obtain ⟨hsum, hall⟩ := htail _ (List.cons.inj h).2
        obtain rfl := List.length_eq_zero_iff.mp (Nat.eq_zero_of_add_eq_zero hsum).2
        refine ⟨(Nat.eq_zero_of_add_eq_zero hsum).1, fun k' hk' => ?_⟩
        rcases List.mem_cons.mp hk' with hk' | hk'
        · cases hk'
          rw [hk]
          rfl
        · exact hall k' hk'
      · exfalso
        apply head?_toDigits hpos
        have hhead := congrArg List.head? h
        rw [List.head?_append_of_ne_nil _ Nat.toDigits_ne_nil] at hhead
        rw [← hhead]
        cases j <;> rfl

/-- A reference that is not replaced keeps its percent sign. -/
theorem heads_of_expandPorts {s : Text} {r : Text} {n : Text → Nat}
    (h : expandPorts (replaced d r) s = expandPorts (fun k => Nat.toDigits 10 (n k)) s) :
    ∀ k, .port k ∈ pieces s → k.head? = some d := by
  have hnone : ∀ m : Nat, (Nat.toDigits 10 m).count '%' = 0 := fun m =>
    List.count_eq_zero.mpr (percent_notMem_digits (isDigits_toDigits m))
  have hle : ∀ piece ∈ pieces s,
      (piece.write fun k => Nat.toDigits 10 (n k)).count '%' ≤
        (piece.write (replaced d r)).count '%' := by
    intro piece _
    cases piece with
    | char c => exact le_rfl
    | port k => exact (hnone (n k)).trans_le (Nat.zero_le _)
  intro k hk
  have hcount : (replaced d r k).count '%' = 0 :=
    (weight_eq_of_flatMap_eq (fun _ _ => List.count_append) hle h _ hk).trans (hnone (n k))
  by_contra hhead
  rw [replaced, if_neg hhead, portNo_eq] at hcount
  exact List.count_eq_zero.mp hcount List.mem_cons_self

/-- When the texts agree, every reference is written as its port. -/
theorem replaced_eq_of_expandPorts (hd : d.isDigit = true) {s : Text}
    (h : expandPorts (replaced d (Nat.toDigits 10 (P + 1000 * Lib.decimal [d]))) s =
      expandPorts (fun k => Nat.toDigits 10 (P + 1000 * Lib.decimal k)) s) :
    ∀ k, .port k ∈ pieces s → replaced d (Nat.toDigits 10 (P + 1000 * Lib.decimal [d])) k =
      Nat.toDigits 10 (P + 1000 * Lib.decimal k) := by
  have hshape : ∀ k, .port k ∈ pieces s → ∃ rest, k = d :: rest ∧ IsDigits rest ∧
      replaced d (Nat.toDigits 10 (P + 1000 * Lib.decimal [d])) k =
        Nat.toDigits 10 (P + 1000 * Lib.decimal [d]) ++ rest := by
    intro k hk
    have hhead := heads_of_expandPorts h k hk
    obtain ⟨rest, rfl⟩ := List.head?_eq_some_iff.mp hhead
    exact ⟨rest, rfl, (List.forall_mem_cons.mp (isDigits_of_mem_pieces hk).2).2,
      if_pos hhead⟩
  rcases Nat.lt_or_ge P 1000 with hsmall | hlarge
  · rcases Nat.eq_zero_or_pos (P + 1000 * Lib.decimal [d]) with hzero | hpos
    · obtain rfl : P = 0 := by omega
      obtain rfl : d = '0' := by
        by_contra hne
        have := decimal_pos hd hne
        omega
      have hall := (@write_eq_of_zero (pieces s)
        (replaced '0' (Nat.toDigits 10 (0 + 1000 * Lib.decimal ['0']))) 0 hshape (by
          simpa only [expandPorts, Nat.zero_add, List.replicate_zero, List.nil_append] using h)).2
      simpa only [Nat.zero_add] using hall
    · refine write_eq_of_nonzeros (separate_pieces s) ?_ ?_ ?_ h
      · intro k hk
        obtain ⟨rest, rfl, hrest, hwrite⟩ := hshape k hk
        rw [hwrite, nonzeros_append_eq hsmall hd hrest]
      · intro k hk
        obtain ⟨rest, rfl, hrest, hwrite⟩ := hshape k hk
        rw [hwrite, List.head?_append_of_ne_nil _ Nat.toDigits_ne_nil]
        exact ⟨by simp, head?_toDigits hpos⟩
      · intro k hk
        obtain ⟨rest, rfl, hrest, hwrite⟩ := hshape k hk
        refine ⟨Nat.toDigits_ne_nil, head?_toDigits ?_⟩
        have hle : Lib.decimal [d] ≤ 10 ^ rest.length * Lib.decimal [d] :=
          Nat.le_mul_of_pos_left _ (Nat.pow_pos (by decide))
        rw [decimal_cons]
        omega
  · intro k hk
    refine eq_of_flatMap_eq (fun piece hpiece => ?_) h (.port k) hk
    cases piece with
    | char c => exact le_rfl
    | port k' =>
      obtain ⟨rest, rfl, hrest, hwrite⟩ := hshape k' hpiece
      rw [Piece.write, Piece.write, hwrite]
      exact length_le_append hlarge hrest

end Digits

/-! ## The parameter of an audit database -/

section Value

variable {w : StafNumbers} {env : ServiceEnv}

private theorem audit_ne {sKey : Text} (h : "AUDIT_DB".toList <:+: sKey) :
    sKey ≠ "ALTIBASE_PORT_NO".toList ∧ sKey ≠ "ALTIBASE_LINKER_PORT_NO".toList ∧
      sKey ≠ "ALTIBASE_REPLICATION_PORT_NO".toList ∧ sKey ≠ "ALTIBASE_HOME".toList ∧
      sKey ≠ "PATH".toList := by
  refine ⟨?_, ?_, ?_, ?_, ?_⟩ <;> rintro rfl <;> revert h <;> decide +kernel

/-- The text that is replaced: the name with one more character. -/
def firstPort (value : Text) (i : Nat) : Text := portNo ++ (value.drop (i + 8)).take 1

theorem paramValue_audit {sKey : Text} (h : "AUDIT_DB".toList <:+: sKey) (value : Text) :
    paramValue w.toStaf env sKey value =
      match indexOf? portNo value with
      | some i => w.strip (w.replace value (firstPort value i)
          (getPort w.toStaf env (firstPort value i)))
      | none => w.strip value := by
  obtain ⟨hport, hlinker, hreplication, hhome, -⟩ := audit_ne h
  rw [paramValue, if_neg hport, if_neg hlinker, if_neg hreplication, if_neg hhome,
    if_pos ((w.contains_iff _ _).mpr h), w.find_eq]
  rfl

/-- Characters in front of which no name starts. -/
theorem pieces_append {u s : Text} (h : ∀ j < u.length, ¬portNo <+: (u ++ s).drop j) :
    pieces (u ++ s) = u.map .char ++ pieces s := by
  induction u with
  | nil => rfl
  | cons c u ih =>
    have hhead : ¬portNo <+: c :: (u ++ s) := h 0 (Nat.succ_pos _)
    rw [List.cons_append, pieces_char fun hand => hhead hand.1, ih]
    · rfl
    · intro j hj
      exact h (j + 1) (Nat.succ_lt_succ hj)

theorem expandPorts_append {u s : Text} (h : ∀ j < u.length, ¬portNo <+: (u ++ s).drop j)
    (number : Text → Text) : expandPorts number (u ++ s) = u ++ expandPorts number s := by
  rw [expandPorts, pieces_append h, List.flatMap_append, List.flatMap_map]
  congr 1
  exact List.flatMap_singleton' u

/-- Whatever character follows the name, a number comes out. -/
theorem exists_getPort (x : Text) :
    ∃ n, getPort w.toStaf env (portNo ++ x) = Nat.toDigits 10 n := by
  have hhead : ∀ s : Text, (portNo ++ s).dropWhile w.white = portNo ++ s := by
    intro s
    have hpercent := white_portNo w.toStaf '%' (by rw [portNo_eq]; exact List.mem_cons_self)
    rw [portNo_eq, List.cons_append, List.dropWhile_cons_of_neg (by simp [hpercent])]
  have hstrip : w.strip (portNo ++ x) = portNo ++ x.rdropWhile w.white := by
    rw [w.strip_eq, stripWith, hhead, rdropWhile_append_of_last]
    exact fun c hc => white_portNo w.toStaf c (List.mem_of_getLast? hc)
  have hfound : w.contains (w.strip (portNo ++ x)) portNo = true := by
    rw [hstrip]
    exact (w.contains_iff _ _).mpr (List.prefix_append _ _).isInfix
  refine ⟨(w.asUInt (w.replace (w.strip (portNo ++ x)) portNo []) * 1000 +
    w.asUInt env.mEnvPORT + 0) % 2 ^ 32, ?_⟩
  show portOf w.toStaf env portNo 0 (portNo ++ x) = _
  simp only [portOf, hfound, if_true]

/-- If the name is followed by no digit where it is found first, a number stands where the text
should not change. -/
theorem isDigit_of_first {u t : Text} {number : Text → Text}
    (hbefore : ∀ j < u.length, ¬portNo <+: (u ++ (portNo ++ t)).drop j)
    (h : w.strip (w.replace (u ++ (portNo ++ t)) (portNo ++ t.take 1)
      (getPort w.toStaf env (portNo ++ t.take 1))) = expandPorts number (u ++ (portNo ++ t))) :
    ∃ d, t.head? = some d ∧ d.isDigit = true := by
  by_contra hnot
  have hdigits : digitsBehind (portNo ++ t) = [] := by
    rw [digitsBehind, List.drop_left]
    cases t with
    | nil => rfl
    | cons c t => exact List.takeWhile_cons_of_neg fun hc => hnot ⟨c, rfl, hc⟩
  have hpercent : ∃ s, expandPorts number (portNo ++ t) = '%' :: s := by
    rw [portNo_eq, List.cons_append, expandPorts, pieces_char, List.flatMap_cons]
    · exact ⟨_, rfl⟩
    · rw [← List.cons_append, ← portNo_eq]
      exact fun hand => hand.2 hdigits
  obtain ⟨s, hs⟩ := hpercent
  obtain ⟨n, hn⟩ := @exists_getPort w env (t.take 1)
  obtain ⟨c, cs, hcs⟩ := List.exists_cons_of_ne_nil (@Nat.toDigits_ne_nil n 10)
  have hc : c.isDigit = true := isDigits_toDigits n c (by rw [hcs]; exact List.mem_cons_self)
  have hnofirst : ∀ j < u.length, ¬portNo ++ t.take 1 <+: (u ++ (portNo ++ t)).drop j :=
    fun j hj hpre => hbefore j hj ((List.prefix_append _ _).trans hpre)
  have hcode : w.replace (u ++ (portNo ++ t)) (portNo ++ t.take 1) (Nat.toDigits 10 n) =
      u ++ (c :: (cs ++ replaceAll (portNo ++ t.take 1) (Nat.toDigits 10 n) (t.drop 1))) := by
    have hsplit : portNo ++ t = (portNo ++ t.take 1) ++ t.drop 1 := by
      rw [List.append_assoc, List.take_append_drop]
    rw [w.replace_eq _ _ _ (by simp [portNo_ne_nil]), replaceAll_keep _ _ _ _ hnofirst, hsplit,
      replaceAll_append _ _ _ (by simp [portNo_ne_nil]), hcs, List.cons_append]
  rw [hn, hcode, expandPorts_append hbefore, hs, w.strip_eq] at h
  have hclean : stripWith w.white (u ++ '%' :: s) = u ++ '%' :: s := by
    rw [← h, stripWith_stripWith]
  obtain ⟨hhead, -⟩ := stripWith_eq_self_iff.mp hclean
  have hfront : ∀ z : Text, (u ++ c :: z).dropWhile w.white = u ++ c :: z := by
    intro z
    cases u with
    | nil =>
      rw [List.nil_append, List.dropWhile_cons_of_neg (by simp [white_of_isDigit w.toStaf hc])]
    | cons e u => rw [List.cons_append, List.dropWhile_cons_of_neg (by simp [hhead e rfl])]
  rw [stripWith, hfront] at h
  have hpre := List.rdropWhile_prefix w.white (u ++ c :: (cs ++
    replaceAll (portNo ++ t.take 1) (Nat.toDigits 10 n) (t.drop 1)))
  rw [h, List.prefix_append_right_inj, List.cons_prefix_cons] at hpre
  exact absurd (hpre.1 ▸ hc) (by decide)

/-- The first reference begins with the digit behind the name. -/
theorem exists_number {u t : Text} {d : Char} (hd : d.isDigit = true)
    (hbefore : ∀ j < u.length, ¬portNo <+: (u ++ (portNo ++ d :: t)).drop j) :
    ∃ rest, d :: rest ∈ numbers (u ++ (portNo ++ d :: t)) ∧ IsDigits rest := by
  refine ⟨t.takeWhile Char.isDigit, ?_, fun c hc => List.mem_takeWhile_imp hc⟩
  have hsplit : d :: t = (d :: t.takeWhile Char.isDigit) ++ t.dropWhile Char.isDigit := by
    rw [List.cons_append, List.takeWhile_append_dropWhile]
  have hdigits : IsDigits (d :: t.takeWhile Char.isDigit) :=
    List.forall_mem_cons.mpr ⟨hd, fun c hc => List.mem_takeWhile_imp hc⟩
  rw [mem_numbers, pieces_append hbefore, hsplit,
    pieces_port (List.cons_ne_nil _ _) hdigits]
  · exact List.mem_append_right _ List.mem_cons_self
  · intro c hc
    have hhead := List.head?_dropWhile_not Char.isDigit t
    rw [hc] at hhead
    simpa using hhead

theorem expandPorts_of_notFound {value : Text} (h : indexOf? portNo value = none) :
    pieces value = value.map .char := by
  have hnot : ¬portNo <:+: value := by
    rw [← isSome_indexOf?, h]
    simp
  have hpieces := @pieces_append value [] (by
    intro j _ hpre
    rw [List.append_nil] at hpre
    exact hnot (hpre.isInfix.trans (List.drop_suffix j value).isInfix))
  rw [List.append_nil] at hpieces
  rw [hpieces]
  exact List.append_nil _

/-- The value that the code writes when the name with the digit `d` is replaced. -/
theorem written_iff {d : Char} (hd : d.isDigit = true) (P : Nat) (value : Text) :
    w.strip (expandPorts (replaced d (Nat.toDigits 10 (P + 1000 * Lib.decimal [d]))) value) =
        expandPorts (fun k => Nat.toDigits 10 (P + 1000 * Lib.decimal k)) value ↔
      w.strip value = value ∧ ∀ k ∈ numbers value, ∃ rest, k = d :: rest ∧
        (rest = [] ∨ 0 < P + 1000 * Lib.decimal [d] ∧
          P * (10 ^ rest.length - 1) = 999 * Lib.decimal rest) := by
  have hsource := @strip_eq_self_iff w.white _ _ (solid_portNo w.toStaf value)
  have hcode := @strip_eq_self_iff w.white _ _
    (solid_replaced w.toStaf d (P + 1000 * Lib.decimal [d]) value)
  have htarget := @strip_eq_self_iff w.white _ _
    (solid_toDigits w.toStaf (fun k => P + 1000 * Lib.decimal k) (pieces value))
  change stripWith w.white (expandPorts _ value) = expandPorts _ value ↔ _ at hsource hcode htarget
  rw [flatMap_write_portNo] at hsource
  rw [w.strip_eq, w.strip_eq, hsource, ← hcode]
  constructor
  · intro h
    have hends := htarget.mp (by rw [← h, stripWith_stripWith])
    rw [hcode.mpr hends] at h
    refine ⟨hcode.mpr hends, fun k hk => ?_⟩
    have hpiece := mem_numbers.mp hk
    obtain ⟨rest, rfl⟩ := List.head?_eq_some_iff.mp (heads_of_expandPorts h k hpiece)
    have hrest := (List.forall_mem_cons.mp (isDigits_of_mem_pieces hpiece).2).2
    have heq := replaced_eq_of_expandPorts hd h _ hpiece
    rw [replaced, if_pos (List.head?_cons), List.tail_cons, append_eq_iff hrest] at heq
    exact ⟨rest, rfl, heq⟩
  · rintro ⟨hends, hall⟩
    rw [hends]
    refine List.flatMap_congr fun piece hpiece => ?_
    cases piece with
    | char c => rfl
    | port k =>
      obtain ⟨rest, rfl, hfits⟩ := hall k (mem_numbers.mpr hpiece)
      have hrest := (List.forall_mem_cons.mp (isDigits_of_mem_pieces hpiece).2).2
      rw [Piece.write, Piece.write, replaced, if_pos (List.head?_cons), List.tail_cons]
      exact (append_eq_iff hrest).mpr hfits

/-- The parameter of an audit database has the right ports exactly if it is uniform. -/
theorem value_iff {sKey : Text} (h : "AUDIT_DB".toList <:+: sKey) (value : Text) :
    (paramValue w.toStaf env sKey value = expandPorts (portNumber w.toStaf env) value ∧
      ∀ k ∈ numbers value, getPort w.toStaf env (portNo ++ k) = portNumber w.toStaf env k) ↔
      Uniform w.toStaf (basePort w.toStaf env) value := by
  have hbound : ∀ k ∈ numbers value, getPort w.toStaf env (portNo ++ k) =
      portNumber w.toStaf env k ↔ basePort w.toStaf env + 1000 * Lib.decimal k < 2 ^ 32 := by
    intro k hk
    obtain ⟨hne, hdigits⟩ := isDigits_of_mem_pieces (mem_numbers.mp hk)
    exact getPort_eq_iff hne hdigits
  rw [paramValue_audit h]
  cases hi : indexOf? portNo value with
  | none =>
    have hpieces := expandPorts_of_notFound hi
    have hnumbers : numbers value = [] := by
      rw [numbers, hpieces, List.filterMap_map]
      exact List.filterMap_eq_nil_iff.mpr fun _ _ => rfl
    have hexpand : expandPorts (portNumber w.toStaf env) value = value := by
      rw [expandPorts, hpieces, List.flatMap_map]
      exact List.flatMap_singleton' value
    rw [hnumbers, hexpand]
    constructor
    · rintro ⟨hends, -⟩
      exact ⟨hends, fun i hi' => absurd (hi.symm.trans hi') (by simp)⟩
    · intro huniform
      exact ⟨huniform.ends, fun k hk => by cases hk⟩
  | some i =>
    obtain ⟨u, t, hvalue, hu, hbefore⟩ := exists_of_indexOf? hi
    rw [← hu] at hbefore
    have hdrop : value.drop (i + 8) = t := by
      rw [hvalue, ← hu, ← length_portNo, ← List.append_assoc, ← List.length_append, List.drop_left]
    have hfirst : firstPort value i = portNo ++ t.take 1 := by rw [firstPort, hdrop]
    have hbehind : value[i + portNo.length]? = t.head? := by
      rw [length_portNo, ← List.head?_drop, hdrop]
    -- the code for a reference with a digit that gives an `unsigned int`
    have hcode : ∀ d t', t = d :: t' → d.isDigit = true →
        (∀ k ∈ numbers value, basePort w.toStaf env + 1000 * Lib.decimal k < 2 ^ 32) →
        w.replace value (firstPort value i) (getPort w.toStaf env (firstPort value i)) =
          expandPorts (replaced d (Nat.toDigits 10
            (basePort w.toStaf env + 1000 * Lib.decimal [d]))) value := by
      rintro d t' rfl hd hports
      obtain ⟨rest, hrest, -⟩ := @exists_number u t' d hd (by rwa [← hvalue])
      rw [← hvalue] at hrest
      have hport := hports _ hrest
      have hle : Lib.decimal [d] ≤ 10 ^ rest.length * Lib.decimal [d] :=
        Nat.le_mul_of_pos_left _ (Nat.pow_pos (by decide))
      rw [decimal_cons] at hport
      rw [hfirst, List.take_succ_cons, List.take_zero,
        (getPort_eq_iff (List.cons_ne_nil _ _) (List.forall_mem_singleton.mpr hd)).mpr (by omega),
        w.replace_eq _ _ _ (by simp), replaceAll_portNo hd, portNumber]
    dsimp only
    constructor
    · rintro ⟨hright, hserver⟩
      have hports : ∀ k ∈ numbers value, basePort w.toStaf env + 1000 * Lib.decimal k < 2 ^ 32 :=
        fun k hk => (hbound k hk).mp (hserver k hk)
      obtain ⟨d, ht, hd⟩ := @isDigit_of_first w env u t (portNumber w.toStaf env)
        (by rwa [← hvalue]) (by rw [← hvalue, ← hfirst]; exact hright)
      obtain ⟨t', ht'⟩ := List.head?_eq_some_iff.mp ht
      rw [hcode d t' ht' hd hports] at hright
      obtain ⟨hends, hfits⟩ := (written_iff hd _ value).mp hright
      refine ⟨hends, fun i' hi' => ?_⟩
      obtain rfl := Option.some.inj (hi.symm.trans hi')
      exact ⟨d, hbehind.trans ht, hd, fun k hk => ⟨hports k hk, hfits k hk⟩⟩
    · intro huniform
      obtain ⟨d, hchar, hd, hfits⟩ := huniform.first i hi
      obtain ⟨t', ht'⟩ := List.head?_eq_some_iff.mp (hbehind.symm.trans hchar)
      have hports : ∀ k ∈ numbers value, basePort w.toStaf env + 1000 * Lib.decimal k < 2 ^ 32 :=
        fun k hk => (hfits k hk).1
      refine ⟨?_, fun k hk => (hbound k hk).mpr (hports k hk)⟩
      rw [hcode d t' ht' hd hports]
      exact (written_iff hd _ value).mpr ⟨huniform.ends, fun k hk => (hfits k hk).2⟩

private theorem strip_audit_ne {sKey : Text} (h : "AUDIT_DB".toList <:+: sKey) :
    w.strip sKey ≠ [] := by
  intro hnil
  obtain ⟨u, v, hsplit, hu, hv⟩ := @exists_stripWith w.white sKey
  rw [← w.strip_eq, hnil, List.append_nil] at hsplit
  have hletter : 'A' ∈ sKey := h.subset (by decide)
  have hwhite : w.white 'A' = true := by
    rw [hsplit] at hletter
    rcases List.mem_append.mp hletter with hletter | hletter
    · exact hu _ hletter
    · exact hv _ hletter
  rw [w.white_printable 'A' (by decide) (by decide)] at hwhite
  cases hwhite

theorem expectedValue_audit {param : Text × Text} (h : "AUDIT_DB".toList <:+: param.1) :
    expectedValue w.toStaf env param = expandPorts (portNumber w.toStaf env) param.2 := if_pos h

theorem expectedValue_other {param : Text × Text} (h : ¬"AUDIT_DB".toList <:+: param.1) :
    expectedValue w.toStaf env param = paramValue w.toStaf env param.1 param.2 := if_neg h

theorem isWritten_audit {sKey : Text} (h : "AUDIT_DB".toList <:+: sKey) (isLocal : Bool) :
    isWritten w.toStaf sKey = true ∧ isExported w.toStaf isLocal sKey = true := by
  obtain ⟨-, -, -, -, hpath⟩ := audit_ne h
  have hstrip := @strip_audit_ne w sKey h
  exact ⟨decide_eq_true ⟨hstrip, hpath⟩, decide_eq_true ⟨hstrip, fun hand => hpath hand.1⟩⟩

end Value

/-- The ports are right exactly if the parameters of the audit databases are uniform. -/
theorem portsRight_iff (w : StafNumbers) (env : ServiceEnv) (isLocal : Bool)
    (sServer : ServerParam) : PortsRight w.toStaf env isLocal sServer ↔
      ∀ param ∈ sServer.params, "AUDIT_DB".toList <:+: param.1 →
        Uniform w.toStaf (basePort w.toStaf env) param.2 := by
  constructor
  · intro h param hparam haudit
    rw [← @value_iff w env _ haudit]
    refine ⟨?_, h.server param hparam haudit⟩
    have hwritten : param ∈ sServer.params.filter fun param => isWritten w.toStaf param.1 :=
      List.mem_filter.mpr ⟨hparam, (@isWritten_audit w _ haudit isLocal).1⟩
    have hentries := h.rsystem
    rw [paramEntries, List.map_inj_left] at hentries
    have hentry := hentries param hwritten
    rw [paramEntry, expectedValue_audit haudit] at hentry
    exact (List.cons.inj (List.append_cancel_left hentry)).2
  · intro h
    have hvalue : ∀ param ∈ sServer.params,
        paramValue w.toStaf env param.1 param.2 = expectedValue w.toStaf env param := by
      intro param hparam
      by_cases haudit : "AUDIT_DB".toList <:+: param.1
      · rw [expectedValue_audit haudit]
        exact ((value_iff haudit param.2).mpr (h param hparam haudit)).1
      · rw [expectedValue_other haudit]
    refine ⟨?_, ?_, fun param hparam haudit => ?_⟩
    · rw [exportEntries, List.map_inj_left]
      intro param hparam
      unfold exportEntry
      rw [hvalue param (List.mem_of_mem_filter hparam)]
    · rw [paramEntries, List.map_inj_left]
      intro param hparam
      rw [paramEntry, hvalue param (List.mem_of_mem_filter hparam)]
    · exact ((value_iff haudit param.2).mpr (h param hparam haudit)).2

section Example

def asciiNumbers : StafNumbers where
  toStaf := .ascii
  find_eq _ _ := rfl
  asUInt_digits s _ _ h := by
    show s.foldl _ 0 % 2 ^ 32 = _
    exact Nat.mod_eq_of_lt h

/-- `AUDIT_DB=%PORT_NO12` -/
def port12 : ServerParam where
  params := [("AUDIT_DB".toList, "%PORT_NO12".toList)]
  nodup := by decide +kernel

/-- The base port 20300: the value becomes 213002, and the port is 32300. -/
theorem not_portsRight_12 :
    ¬PortsRight asciiNumbers.toStaf ⟨"20300".toList, []⟩ true port12 := by
  intro h
  have hentry := h.rsystem
  revert hentry
  decide +kernel

end Example

end Natc.Ats.PortNumbers
