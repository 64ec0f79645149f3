import Natc.Isql.HostVar

/-!
# Calls of the host variable store that fail

`setValue` clears the buffer of a variable before it looks at the length of the new value, and
stores the value before it looks at its range; `add` frees the buffer before it looks at the type.
-/

namespace Natc.Isql

open Natc.Lib

namespace HostVarMgr

/-! ## Calls -/

/-- What a call may not change if it fails. -/
structure Contents where
  name : Bytes
  c_value : Option Bytes
  f_value : Bytes
  d_value : Bytes
  type : VarType
  size : Int
  assigned : Bool
  deriving DecidableEq

def contents (e : HostVarElement) : Contents where
  name := e.name
  c_value := e.c_value
  f_value := e.f_value
  d_value := e.d_value
  type := e.type
  size := e.size
  assigned := e.assigned

/-- The value, the type, the size and the flag of every variable are the same. -/
def Unchanged (m m' : HostVarMgr) : Prop :=
  ∀ i, (m'.m_SymbolTable i).map contents = (m.m_SymbolTable i).map contents

/-- A call of `add` or of one of the two `setValue`. -/
inductive StoreCall where
  | add (a_name : Bytes) (a_type : VarType) (a_precision : Int) (a_scale : Bytes)
  | setNull (a_name : Bytes)
  | setValue (a_name a_value : Bytes)

def answer (m : HostVarMgr) : StoreCall → Option (Reply × HostVarMgr)
  | .add a_name a_type a_precision a_scale => some (m.add a_name a_type a_precision a_scale)
  | .setNull a_name => some (m.setNull a_name)
  | .setValue a_name a_value => m.setValue a_name a_value

/-- A call that leaves the variables alone if it returns `IDE_FAILURE`. -/
def Atomic (m : HostVarMgr) (call : StoreCall) : Prop :=
  ∀ r m', m.answer call = some (r, m') → r.isSuccess = false → m.Unchanged m'

/-! ## When they are atomic -/

/-- The text that a value has in the buffer of a variable of this type, if `setValue` comes to store
it. -/
def bufferText (type : VarType) (a_value : Bytes) : Option Bytes :=
  match type with
  | .char | .date | .byte | .nibble | .varchar =>
      match quoted a_value with
      | some (some text) => if text = [] then none else some text
      | _ => none
  | .float | .decimal | .number | .numeric | .bigint | .integer | .smallint =>
      if quoted a_value = none then some a_value else none
  | _ => none

def inRange (type : VarType) (a_value : Bytes) : Bool :=
  match type with
  | .integer => integerOk a_value
  | .smallint => smallintOk a_value
  | _ => true

/-- The states in which a call changes no variable if it fails: a variable that is declared again
with a type that `add` does not know has no buffer, the buffer of a value that is too large is
empty, and the buffer of a value that is out of range holds that value. -/
def Spares (m : HostVarMgr) : StoreCall → Prop
  | .add a_name a_type _ _ =>
      a_type = .geometry → a_name.length ≤ qpMaxNameLen →
        ∀ e ∈ m.getVar (toUpper a_name), e.c_value = none
  | .setNull _ => True
  | .setValue a_name a_value =>
      isNull a_value = false → ∀ e ∈ m.getVar a_name, ∀ text ∈ bufferText e.type a_value,
        ∀ c_value ∈ e.c_value,
          (e.size < text.length → c_value = []) ∧
          (text.length ≤ e.size → inRange e.type a_value = false → c_value = text)

section atomic

variable {m m' : HostVarMgr} {e : HostVarElement} {a_name a_value text c_value : Bytes} {r : Reply}

private theorem forall_mem_some {α : Type*} {p : α → Prop} {a : α} :
    (∀ b ∈ some a, p b) ↔ p a := by
  simp only [Option.mem_some_iff, forall_eq']

theorem Unchanged.refl (m : HostVarMgr) : m.Unchanged m :=
  fun _ => rfl

theorem contents_buffer_iff {c : Option Bytes} :
    contents { e with c_value := c } = contents e ↔ e.c_value = c := by
  rw [contents, contents, Contents.mk.injEq]
  exact ⟨fun h => h.2.1.symm, fun h => ⟨rfl, h.symm, rfl, rfl, rfl, rfl, rfl⟩⟩

theorem setVar_bucket (m : HostVarMgr) (a_name : Bytes) (g : HostVarElement → HostVarElement) :
    (m.setVar a_name g).m_SymbolTable (hashing a_name) =
      Chains.replaceFirst HostVarElement.name (toUpper a_name) g
        (m.m_SymbolTable (hashing a_name)) :=
  Function.update_self _ _ _

theorem setVar_bucket_of_ne {g : HostVarElement → HostVarElement} {i : Fin 32}
    (h : i ≠ hashing a_name) : (m.setVar a_name g).m_SymbolTable i = m.m_SymbolTable i :=
  Function.update_of_ne h _ _

/-- A new buffer of a variable changes nothing exactly if it is the old one. -/
theorem setVar_unchanged_iff {c : Option Bytes} :
    m.Unchanged (m.setVar a_name fun t_node => { t_node with c_value := c }) ↔
      ∀ e ∈ m.getVar a_name, e.c_value = c := by
  have hview : (Chains.replaceFirst HostVarElement.name (toUpper a_name)
        (fun t_node => { t_node with c_value := c }) (m.m_SymbolTable (hashing a_name))).map
          contents = (m.m_SymbolTable (hashing a_name)).map contents ↔ _ :=
    Chains.view_replaceFirst
  simp only [contents_buffer_iff] at hview
  rw [getVar, ← hview, Unchanged, ← setVar_bucket]
  constructor
  · exact fun h => h (hashing a_name)
  · intro h i
    by_cases hi : i = hashing a_name
    · exact hi ▸ h
    · rw [setVar_bucket_of_ne hi]

/-! ### `setValue` -/

theorem assignString_eq : assignString e a_value =
    match bufferText .char a_value with
    | some text => assignText e text true
    | none => if quoted a_value = some (some []) then .nullValue else .raise .typeMismatch := by
  rw [assignString, bufferText]
  rcases quoted a_value with - | - | text
  · rfl
  · rfl
  · by_cases htext : text = []
    · subst htext
      rfl
    · simp only [if_neg htext]

theorem assignOther_eq {other : Assign} : assignOther a_value other =
    match bufferText .integer a_value with
    | some _ => other
    | none => if quoted a_value = some (some []) then .nullValue else .raise .typeMismatch := by
  rw [assignOther, bufferText]
  rcases quoted a_value with - | - | text
  · rfl
  · rfl
  · by_cases htext : text = []
    · subst htext
      rfl
    · simp [htext]

/-- The value comes to be stored in the buffer. -/
theorem assign_of_some (h : bufferText e.type a_value = some text) :
    assign e a_value = assignText e text (inRange e.type a_value) := by
  have hother : bufferText .integer a_value = some text → text = a_value := by
    intro heq
    rw [bufferText] at heq
    split_ifs at heq
    exact (Option.some.inj heq).symm
  rw [assign]
  cases htype : e.type <;> rw [htype] at h
  case char | date | byte | nibble | varchar =>
    simp only [assignString_eq, show bufferText .char a_value = some text from h, inRange]
  case float | decimal | number | numeric | bigint | integer | smallint =>
    have hbuffer : bufferText .integer a_value = some text := h
    simp only [assignOther_eq, hbuffer, inRange, hother hbuffer]
  all_goals cases h

theorem assign_of_none (h : bufferText e.type a_value = none) :
    assign e a_value ≠ .spoilt c_value r := by
  rw [assign]
  cases htype : e.type <;> rw [htype] at h
  case char | date | byte | nibble | varchar =>
    simp only [assignString_eq, show bufferText .char a_value = none from h]
    split_ifs <;> exact nofun
  case float | decimal | number | numeric | bigint | integer | smallint =>
    simp only [assignOther_eq, show bufferText .integer a_value = none from h]
    split_ifs <;> exact nofun
  case double | real =>
    simp only [assignOther]
    split
    · exact nofun
    · exact nofun
    · split_ifs <;> exact nofun
  all_goals exact nofun

/-- A call whose result is known, if it fails. -/
theorem atomic_of_run {call : StoreCall} (h : m.answer call = some (r, m'))
    (hr : r.isSuccess = false) : m.Atomic call ↔ m.Unchanged m' := by
  constructor
  · exact fun hatomic => hatomic r m' h hr
  · intro hsame r' m'' hrun _
    rw [h, Option.some.injEq, Prod.mk.injEq] at hrun
    exact hrun.2 ▸ hsame

/-- A call that leaves the store alone or succeeds or does not return. -/
theorem atomic_of_quiet {call : StoreCall}
    (h : ∀ r' m'', m.answer call = some (r', m'') → m'' = m ∨ r'.isSuccess = true) :
    m.Atomic call := by
  intro r' m'' hrun hr
  rcases h r' m'' hrun with rfl | hsuccess
  · exact Unchanged.refl m''
  · rw [hr] at hsuccess
    cases hsuccess

theorem setNull_quiet (h : m.setNull a_name = (r, m')) : m' = m ∨ r.isSuccess = true := by
  rw [setNull] at h
  split at h
  · cases h
    exact Or.inl rfl
  · cases h
    exact Or.inr rfl

/-- A value that does not come to be stored. -/
theorem setValue_quiet (hvar : m.getVar a_name = some e)
    (h : isNull a_value = true ∨ bufferText e.type a_value = none)
    (hrun : m.setValue a_name a_value = some (r, m')) : m' = m ∨ r.isSuccess = true := by
  simp only [setValue, hvar] at hrun
  split_ifs at hrun with hnull
  · exact setNull_quiet (Option.some.inj hrun)
  · have hnone := h.resolve_left hnull
    split at hrun
    · cases hrun
      exact Or.inl rfl
    · cases hrun
      exact Or.inr rfl
    · cases hrun
      exact Or.inr rfl
    · next hspoilt => exact absurd hspoilt (assign_of_none hnone)
    · cases hrun

/-- A value that comes to be stored. -/
theorem setValue_text (hvar : m.getVar a_name = some e) (hnull : isNull a_value = false)
    (htext : bufferText e.type a_value = some text) (hvalue : e.c_value = some c_value) :
    m.Atomic (.setValue a_name a_value) ↔
      (e.size < text.length → c_value = []) ∧
      (text.length ≤ e.size → inRange e.type a_value = false → c_value = text) := by
  have hunchanged : ∀ buffer, m.Unchanged (m.setVar a_name fun t_node =>
      { t_node with c_value := some buffer }) ↔ c_value = buffer := by
    intro buffer
    rw [setVar_unchanged_iff, hvar, forall_mem_some, hvalue, Option.some.injEq]
  have hassign := assign_of_some htext
  rw [assignText, hvalue] at hassign
  by_cases hlarge : e.size < text.length
  · have hrun : m.answer (.setValue a_name a_value) = some (.tooLargeError,
        m.setVar a_name fun t_node => { t_node with c_value := some [] }) := by
      simp only [if_pos hlarge] at hassign
      simp [answer, setValue, hvar, hnull, hassign]
    rw [atomic_of_run hrun rfl, hunchanged]
    exact ⟨fun h => ⟨fun _ => h, fun hle => absurd hlarge (not_lt.mpr hle)⟩, fun h => h.1 hlarge⟩
  · cases hrange : inRange e.type a_value with
    | true =>
      refine iff_of_true (atomic_of_quiet fun r' m'' hrun => Or.inr ?_)
        ⟨fun h => absurd h hlarge, fun _ hfalse => absurd hfalse (by decide)⟩
      simp only [if_neg hlarge, hrange, if_true] at hassign
      simp only [answer, setValue, hvar, hnull, hassign] at hrun
      cases hrun
      rfl
    | false =>
      have hrun : m.answer (.setValue a_name a_value) = some (.outOfRangeError,
          m.setVar a_name fun t_node => { t_node with c_value := some text }) := by
        simp only [if_neg hlarge, hrange] at hassign
        simp [answer, setValue, hvar, hnull, hassign]
      rw [atomic_of_run hrun rfl, hunchanged]
      exact ⟨fun h => ⟨fun hlt => absurd hlt hlarge, fun _ _ => h⟩,
        fun h => h.2 (not_lt.mp hlarge) rfl⟩

theorem setValue_atomic_iff :
    m.Atomic (.setValue a_name a_value) ↔ m.Spares (.setValue a_name a_value) := by
  cases hvar : m.getVar a_name with
  | none =>
    have hrun : m.answer (.setValue a_name a_value) = some (.notDefined, m) := by
      rw [answer, setValue, hvar]
    rw [atomic_of_run hrun rfl, Spares, hvar]
    exact iff_of_true (Unchanged.refl m) fun _ e he => absurd he (Option.not_mem_none e)
  | some e =>
    rw [Spares, hvar, forall_mem_some]
    cases hnull : isNull a_value with
    | true =>
      refine iff_of_true (atomic_of_quiet fun r' m'' => setValue_quiet hvar (Or.inl hnull)) ?_
      exact fun hfalse => absurd hfalse (by decide)
    | false =>
      cases htext : bufferText e.type a_value with
      | none =>
        refine iff_of_true (atomic_of_quiet fun r' m'' => setValue_quiet hvar (Or.inr htext)) ?_
        exact fun _ text hmem => absurd hmem (Option.not_mem_none text)
      | some text =>
        rw [forall_mem_some]
        cases hvalue : e.c_value with
        | none =>
          refine iff_of_true (atomic_of_quiet fun r' m'' hrun => ?_)
            fun _ c hc => absurd hc (Option.not_mem_none c)
          have hassign := assign_of_some htext
          rw [assignText, hvalue] at hassign
          simp [answer, setValue, hvar, hnull, hassign] at hrun
        | some c_value =>
          rw [forall_mem_some, setValue_text hvar hnull htext hvalue]
          exact ⟨fun h _ => h, fun h => h rfl⟩

/-! ### `add` -/

theorem elementSize_eq_none_iff {a_type : VarType} {a_precision : Int} :
    elementSize a_type a_precision = none ↔ a_type = .bad ∨ a_type = .geometry := by
  cases a_type <;> simp [elementSize]

theorem add_atomic_iff {a_type : VarType} {a_precision : Int} {a_scale : Bytes} :
    m.Atomic (.add a_name a_type a_precision a_scale) ↔
      m.Spares (.add a_name a_type a_precision a_scale) := by
  rw [Spares]
  by_cases hbad : a_type = .bad
  · have hrun : m.answer (.add a_name a_type a_precision a_scale) = some (.invalidDatatype, m) := by
      rw [answer, add, if_pos hbad]
    rw [atomic_of_run hrun rfl]
    exact iff_of_true (Unchanged.refl m) fun hgeometry => absurd (hbad.symm.trans hgeometry) nofun
  by_cases hname : qpMaxNameLen < a_name.length
  · have hrun : m.answer (.add a_name a_type a_precision a_scale) = some (.nameLenError, m) := by
      rw [answer, add, if_neg hbad, if_pos hname]
    rw [atomic_of_run hrun rfl]
    exact iff_of_true (Unchanged.refl m) fun _ hle => absurd hname (not_lt.mpr hle)
  cases hsize : elementSize a_type a_precision with
  | some size =>
    have hgeometry : a_type ≠ .geometry := by
      rintro rfl
      cases hsize
    refine iff_of_true (atomic_of_quiet fun r' m'' hrun => Or.inr ?_)
      fun h => absurd h hgeometry
    simp only [answer, add, if_neg hbad, if_neg hname, hsize] at hrun
    split at hrun <;> cases hrun <;> rfl
  | none =>
    have hgeometry : a_type = .geometry := (elementSize_eq_none_iff.mp hsize).resolve_left hbad
    cases hvar : m.getVar (toUpper a_name) with
    | none =>
      have hrun : m.answer (.add a_name a_type a_precision a_scale) = some (.invalidDatatype, m) := by
        simp only [answer, add, if_neg hbad, if_neg hname, hvar, hsize]
      rw [atomic_of_run hrun rfl]
      exact iff_of_true (Unchanged.refl m) fun _ _ e he => absurd he (Option.not_mem_none e)
    | some e =>
      have hrun : m.answer (.add a_name a_type a_precision a_scale) = some (.invalidDatatype,
          m.setVar (toUpper a_name) fun t_node => { t_node with c_value := none }) := by
        simp only [answer, add, if_neg hbad, if_neg hname, hvar, hsize]
      rw [atomic_of_run hrun rfl, setVar_unchanged_iff, hvar]
      exact ⟨fun h _ _ => h, fun h => h hgeometry (not_lt.mp hname)⟩

end atomic

/-- A call that fails leaves the variables alone exactly in these states. -/
theorem atomic_iff (m : HostVarMgr) (call : StoreCall) : m.Atomic call ↔ m.Spares call := by
  cases call with
  | add => exact add_atomic_iff
  | setNull =>
    exact iff_of_true (atomic_of_quiet fun r' m'' hrun => setNull_quiet (Option.some.inj hrun))
      trivial
  | setValue => exact setValue_atomic_iff

/-- `A` is an INTEGER with the value 5. -/
def five : HostVarMgr :=
  (empty.add [65] .integer 0 []).2.setVar [65] fun t_node =>
    { t_node with c_value := some [53], assigned := true }

example : (((empty.add [65] .integer 0 []).2.setValue [65] [53]).map fun r =>
    r.2.getVar [65]) = some (five.getVar [65]) := rfl

/-- 3000000000 is out of range, and is the value of `A` afterwards. -/
theorem not_atomic_five : ¬∀ m call, Atomic m call := by
  intro h
  have hrun : five.answer (.setValue [65] [51, 48, 48, 48, 48, 48, 48, 48, 48, 48]) =
      some (.outOfRangeError, five.setVar [65] fun t_node =>
        { t_node with c_value := some [51, 48, 48, 48, 48, 48, 48, 48, 48, 48] }) := rfl
  have hsame := h five _ _ _ hrun rfl (hashing [65])
  exact absurd hsame (by decide)

end HostVarMgr

end Natc.Isql
