import Natc.Lib.Chains
import Mathlib.Algebra.Group.Nat.Defs
import Mathlib.Algebra.Ring.Int.Defs

/-!
# Host variables

`iSQLHostVarMgr` keeps the declared host variables in a chained symbol table and the bound ones in
a list. An allocation that fails ends the process; `none` is an access through a NULL pointer or
past the end of a buffer.
-/

namespace Natc.Isql

open Natc.Lib

abbrev Bytes := List UInt8

/-- `iSQLVarType`. -/
inductive VarType where
  | bad | bigint | blob | char | date | decimal | double | float | byte | nibble | integer
  | number | numeric | real | smallint | varchar | geometry
  deriving DecidableEq, Repr

/-- `HostVarElement`. A floating-point value is kept as the text that `atof` reads. -/
structure HostVarElement where
  name : Bytes
  type : VarType
  precision : Int
  scale : Bytes
  size : Int
  c_value : Option Bytes
  f_value : Bytes
  d_value : Bytes
  assigned : Bool
  order : Int
  para_order : Int
  deriving DecidableEq, Repr

/-- The symbol table, and the bind list from `m_Head` on. -/
structure HostVarMgr where
  m_SymbolTable : Chains HostVarElement 32
  m_Head : List HostVarElement
  m_BindListCnt : Int

/-- What an operation returns, by the text that it prints. -/
inductive Reply where
  | done | success | invalidDatatype | nameLenError | notDefined | typeMismatch | tooLargeError
  | outOfRangeError
  deriving DecidableEq, Repr

def Reply.isSuccess : Reply → Bool
  | .done | .success => true
  | _ => false

/-! ## Names -/

/-- `utString::toUpper`. -/
def toUpper (a_Str : Bytes) : Bytes :=
  a_Str.map fun unit => if 97 ≤ unit ∧ unit ≤ 122 then unit - 32 else unit

/-- A `char` as it is added to the unsigned key. -/
def signedChar (c : UInt8) : UInt64 :=
  if c < 128 then c.toUInt64 else c.toUInt64 - 256

/-- `iSQLHostVarMgr::hashing`. -/
def hashing (a_name : Bytes) : Fin 32 :=
  let key : UInt64 := a_name.foldl (fun key c => key * 31 + signedChar c) 0
  ⟨key.toNat % 32, Nat.mod_lt _ (by decide)⟩

def qpMaxNameLen : Nat := 40

def dateSize : Int := 19

namespace HostVarMgr

def empty : HostVarMgr where
  m_SymbolTable := fun _ => []
  m_Head := []
  m_BindListCnt := 0

variable (m : HostVarMgr)

/-- `iSQLHostVarMgr::getVar`: the key is that of the name as it was given, the comparison with the
name in upper case. -/
def getVar (a_name : Bytes) : Option HostVarElement :=
  (m.m_SymbolTable (hashing a_name)).find? fun e => e.name = toUpper a_name

/-- A change through the pointer that `getVar` returns. -/
def setVar (a_name : Bytes) (g : HostVarElement → HostVarElement) : HostVarMgr :=
  { m with
    m_SymbolTable := Function.update m.m_SymbolTable (hashing a_name)
      (Chains.replaceFirst HostVarElement.name (toUpper a_name) g
        (m.m_SymbolTable (hashing a_name))) }

/-! ## Declarations -/

/-- The size of a value, or an invalid type. -/
def elementSize (a_type : VarType) (a_precision : Int) : Option Int :=
  match a_type with
  | .real | .double => some 0
  | .char | .varchar | .nibble | .blob => some a_precision
  | .smallint | .integer | .bigint => some 21
  | .float | .decimal | .numeric | .number => some 21
  | .date => some dateSize
  | .byte => some (a_precision * 2)
  | .bad | .geometry => none

/-- The buffer of a value, cleared. -/
def elementValue (a_type : VarType) : Option Bytes :=
  if a_type ≠ .double ∧ a_type ≠ .real then some [] else none

/-- `iSQLHostVarMgr::add`. -/
def add (a_name : Bytes) (a_type : VarType) (a_precision : Int) (a_scale : Bytes) :
    Reply × HostVarMgr :=
  if a_type = .bad then (.invalidDatatype, m)
  else if qpMaxNameLen < a_name.length then (.nameLenError, m)
  else
    let a_name := toUpper a_name
    match m.getVar a_name with
    | none =>
        match elementSize a_type a_precision with
        | none => (.invalidDatatype, m)
        | some size =>
            let t_node : HostVarElement := {
              name := a_name, type := a_type, precision := a_precision, scale := a_scale, size
              c_value := elementValue a_type, f_value := [], d_value := [], assigned := false
              order := 0, para_order := 0 }
            (.done, { m with
              m_SymbolTable := Function.update m.m_SymbolTable (hashing a_name)
                (t_node :: m.m_SymbolTable (hashing a_name)) })
    | some _ =>
        match elementSize a_type a_precision with
        | none => (.invalidDatatype, m.setVar a_name fun t_node => { t_node with c_value := none })
        | some size =>
            (.done, m.setVar a_name fun t_node => { t_node with
              name := a_name, type := a_type, precision := a_precision, scale := a_scale, size
              c_value := elementValue a_type, f_value := [], d_value := [], assigned := false
              order := 0 })

/-! ## Assignments -/

def quote : UInt8 := 39

/-- `iSQLHostVarMgr::setValue` of NULL. -/
def setNull (a_name : Bytes) : Reply × HostVarMgr :=
  match m.getVar a_name with
  | none => (.notDefined, m)
  | some _ => (.success, m.setVar a_name fun t_node => { t_node with assigned := false })

/-- The number that `atoi` and `Strtoll` read. -/
def number (a_value : Bytes) : Int :=
  let a_value := a_value.dropWhile fun c => c = 32 ∨ 9 ≤ c ∧ c ≤ 13
  let digits (b : Bytes) : Int :=
    (b.takeWhile fun c => 48 ≤ c ∧ c ≤ 57).foldl (fun k c => k * 10 + (c.toNat - 48)) 0
  match a_value with
  | 45 :: b => -digits b
  | 43 :: b => digits b
  | b => digits b

/-- The text up to the last quote. -/
def upToQuote (behind : Bytes) : Option Bytes :=
  match behind.reverse.dropWhile (· ≠ quote) with
  | [] => none
  | _ :: text => some text.reverse

/-- The text between the first quote and the last one behind it, as `strchr` and `strrchr` find
them. -/
def quoted (a_value : Bytes) : Option (Option Bytes) :=
  match a_value.dropWhile (· ≠ quote) with
  | [] => none
  | _ :: behind => some (upToQuote behind)

/-- The range of a SMALLINT; `atoi` keeps the low 32 bits of a `long`. -/
def smallintOk (a_value : Bytes) : Bool :=
  let sTmpInt := (number a_value).bmod (2 ^ 32)
  sTmpInt ≤ 0x7FFF ∧ -0x7FFF ≤ sTmpInt ∧ number a_value < 2 ^ 63 ∧ -2 ^ 63 ≤ number a_value

def integerOk (a_value : Bytes) : Bool :=
  number a_value ≤ 0x7FFFFFFF ∧ -0x7FFFFFFF ≤ number a_value

/-- What `setValue` does with a value for a variable. -/
inductive Assign where
  | raise (e : Reply)
  | nullValue
  | set (g : HostVarElement → HostVarElement)
  /-- The buffer is written and an error is raised behind it. -/
  | spoilt (c_value : Bytes) (e : Reply)
  /-- The buffer is not there. -/
  | fault

/-- A value into the buffer, which is cleared before its length is looked at. -/
def assignText (e : HostVarElement) (text : Bytes) (check : Bool) : Assign :=
  match e.c_value with
  | none => .fault
  | some _ =>
      if e.size < text.length then .spoilt [] .tooLargeError
      else if check then .set fun e => { e with c_value := some text }
      else .spoilt text .outOfRangeError

/-- The value of a character variable, a constant string. -/
def assignString (e : HostVarElement) (a_value : Bytes) : Assign :=
  match quoted a_value with
  | none => .raise .typeMismatch
  | some none => .raise .typeMismatch
  | some (some text) => if text = [] then .nullValue else assignText e text true

/-- A constant string for any other variable. -/
def assignOther (a_value : Bytes) (other : Assign) : Assign :=
  match quoted a_value with
  | none => other
  | some none => .raise .typeMismatch
  | some (some text) => if text = [] then .nullValue else .raise .typeMismatch

/-- The switch of `iSQLHostVarMgr::setValue`. -/
def assign (e : HostVarElement) (a_value : Bytes) : Assign :=
  match e.type with
  | .char | .date | .byte | .nibble | .varchar => assignString e a_value
  | .float | .decimal | .number | .numeric | .bigint =>
      assignOther a_value (assignText e a_value true)
  | .integer => assignOther a_value (assignText e a_value (integerOk a_value))
  | .smallint => assignOther a_value (assignText e a_value (smallintOk a_value))
  | .double => assignOther a_value (.set fun e => { e with d_value := a_value })
  | .real => assignOther a_value (.set fun e => { e with f_value := a_value })
  | .bad | .blob | .geometry => .raise .typeMismatch

/-- `strcasecmp(a_value, "NULL") == 0`. -/
def isNull (a_value : Bytes) : Bool :=
  toUpper a_value = [78, 85, 76, 76]

/-- `iSQLHostVarMgr::setValue`. -/
def setValue (a_name a_value : Bytes) : Option (Reply × HostVarMgr) :=
  match m.getVar a_name with
  | none => some (.notDefined, m)
  | some e =>
      if isNull a_value then some (m.setNull a_name)
      else
        match assign e a_value with
        | .raise r => some (r, m)
        | .nullValue =>
            some (.success, m.setVar a_name fun t_node => { t_node with assigned := false })
        | .set g =>
            some (.success, m.setVar a_name fun t_node => { g t_node with assigned := true })
        | .spoilt c_value r =>
            some (r, m.setVar a_name fun t_node => { t_node with c_value := some c_value })
        | .fault => none

/-! ## Bindings -/

/-- `iSQLHostVarMgr::initBindList`. -/
def initBindList : HostVarMgr :=
  { m with m_Head := [], m_BindListCnt := 0 }

/-- The copy of a variable in the bind list. -/
def boundCopy (t_node : HostVarElement) (a_order a_para_order : Int) : Option HostVarElement :=
  let s_node := { t_node with
    c_value := none, f_value := [], d_value := [], order := a_order, para_order := a_para_order }
  if t_node.type = .double then some { s_node with d_value := t_node.d_value }
  else if t_node.type = .real then some { s_node with f_value := t_node.f_value }
  else if t_node.assigned then
    t_node.c_value.map fun c_value => { s_node with c_value := some c_value }
  else some { s_node with c_value := some [] }

/-- `iSQLHostVarMgr::putBindList`. -/
def putBindList (a_name : Bytes) (a_order a_para_order : Int) : Option (Reply × HostVarMgr) :=
  match m.getVar a_name with
  | none => some (.notDefined, m)
  | some t_node =>
      (boundCopy t_node a_order a_para_order).map fun s_node =>
        (.done, { m with
          m_Head := m.m_Head ++ [s_node]
          m_BindListCnt := m.m_BindListCnt + 1 })

/-- The values that the execution of a procedure leaves in a node of the bind list. -/
structure BoundValue where
  c_value : Option Bytes
  f_value : Bytes
  d_value : Bytes
  assigned : Bool
  precision : Int
  deriving DecidableEq, Repr

/-- The execution writes through the bound parameters. -/
def bound (values : List BoundValue) : HostVarMgr :=
  { m with
    m_Head := m.m_Head.zipWith (fun e v => { e with
        c_value := v.c_value, f_value := v.f_value, d_value := v.d_value, assigned := v.assigned
        precision := v.precision }) values ++ m.m_Head.drop values.length }

/-- The assignment of one bound value back to the symbol table. -/
def restore (t_node : HostVarElement) : Option HostVarMgr :=
  match m.getVar t_node.name with
  | none => none
  | some s_node =>
      if t_node.type = .double then
        some (m.setVar t_node.name fun e => { e with d_value := t_node.d_value, assigned := true })
      else if t_node.type = .real then
        some (m.setVar t_node.name fun e => { e with f_value := t_node.f_value, assigned := true })
      else
        match s_node.c_value, t_node.c_value with
        | some _, some c_value =>
            if s_node.size < c_value.length then none
            else some (m.setVar t_node.name fun e =>
              { e with c_value := some c_value, assigned := true })
        | _, _ => none

/-- `iSQLHostVarMgr::setHostVar`, with a list to go through. -/
def setHostVar : Option HostVarMgr :=
  if m.m_Head = [] then none else m.m_Head.foldlM restore m

end HostVarMgr

/-! ## Runs -/

/-- The calls that the interpreter makes. -/
inductive Call where
  | add (a_name : Bytes) (a_type : VarType) (a_precision : Int) (a_scale : Bytes)
  | setNull (a_name : Bytes)
  | setValue (a_name a_value : Bytes)
  | initBindList
  | putBindList (a_name : Bytes) (a_order a_para_order : Int)
  | bound (values : List HostVarMgr.BoundValue)
  | setHostVar
  /-- `lookup` and `showVar`. -/
  | lookup (a_name : Bytes)

def Call.exec (m : HostVarMgr) : Call → Option HostVarMgr
  | .add a_name a_type a_precision a_scale =>
      some (m.add a_name a_type a_precision a_scale).2
  | .setNull a_name => some (m.setNull a_name).2
  | .setValue a_name a_value => (m.setValue a_name a_value).map Prod.snd
  | .initBindList => some m.initBindList
  | .putBindList a_name a_order a_para_order =>
      (m.putBindList a_name a_order a_para_order).map Prod.snd
  | .bound values => some (m.bound values)
  | .setHostVar => m.setHostVar
  | .lookup _ => some m

/-- The store behind a sequence of calls. -/
def run (calls : List Call) : Option HostVarMgr :=
  calls.foldlM Call.exec .empty

end Natc.Isql
