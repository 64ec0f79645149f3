import Natc.Isql.HostVar

/-!
# The symbol table as a map

An upper and a lower case letter differ by 32, which is the number of buckets: the bucket of a name
does not depend on its case, so `getVar` may take the key before it folds the case.
-/

namespace Natc.Isql

open Natc.Lib

/-! ## Case -/

/-- A letter in upper case. -/
def upperChar (unit : UInt8) : UInt8 :=
  if 97 ≤ unit ∧ unit ≤ 122 then unit - 32 else unit

theorem toUpper_eq (a_Str : Bytes) : toUpper a_Str = a_Str.map upperChar := rfl

theorem toNat_upperChar (c : UInt8) : (upperChar c).toNat =
    if 97 ≤ c.toNat ∧ c.toNat ≤ 122 then c.toNat - 32 else c.toNat := by
  have hcond : (97 ≤ c ∧ c ≤ 122) ↔ (97 ≤ c.toNat ∧ c.toNat ≤ 122) := by
    rw [UInt8.le_iff_toNat_le, UInt8.le_iff_toNat_le]
    rfl
  rw [upperChar]
  by_cases h : 97 ≤ c ∧ c ≤ 122
  · rw [if_pos h, if_pos (hcond.mp h)]
    have hle : (32 : UInt8) ≤ c := by
      rw [UInt8.le_iff_toNat_le]
      exact le_trans (by decide) (hcond.mp h).1
    exact UInt8.toNat_sub_of_le c 32 hle
  · rw [if_neg h, if_neg (fun hc => h (hcond.mpr hc))]

theorem upperChar_upperChar (c : UInt8) : upperChar (upperChar c) = upperChar c := by
  apply UInt8.toNat_inj.mp
  rw [toNat_upperChar (upperChar c), toNat_upperChar c]
  by_cases h : 97 ≤ c.toNat ∧ c.toNat ≤ 122
  · rw [if_pos h, if_neg (by omega)]
  · rw [if_neg h, if_neg h]

theorem toUpper_toUpper (a_Str : Bytes) : toUpper (toUpper a_Str) = toUpper a_Str := by
  rw [toUpper_eq, toUpper_eq, List.map_map]
  apply List.map_congr_left
  intro c _
  exact upperChar_upperChar c

theorem signedChar_mod (c : UInt8) : (signedChar c).toNat % 32 = c.toNat % 32 := by
  have hlt := c.toNat_lt
  rw [signedChar]
  split
  · rfl
  · rw [UInt64.toNat_sub, UInt8.toNat_toUInt64]
    have h256 : (256 : UInt64).toNat = 256 := rfl
    rw [h256]
    omega

theorem upperChar_mod (c : UInt8) : (upperChar c).toNat % 32 = c.toNat % 32 := by
  rw [toNat_upperChar]
  split <;> omega

/-- The bucket of a name does not depend on its case. -/
theorem hashing_toUpper (a_name : Bytes) : hashing (toUpper a_name) = hashing a_name := by
  have hkeys : ∀ j k : UInt64, j.toNat % 32 = k.toNat % 32 →
      ((toUpper a_name).foldl (fun key c => key * 31 + signedChar c) j).toNat % 32 =
        (a_name.foldl (fun key c => key * 31 + signedChar c) k).toNat % 32 := by
    rw [toUpper_eq]
    induction a_name with
    | nil => exact fun j k h => h
    | cons c s ih =>
      intro j k h
      rw [List.map_cons, List.foldl_cons, List.foldl_cons]
      apply ih
      have hupper := (signedChar_mod (upperChar c)).trans (upperChar_mod c)
      have hchar := signedChar_mod c
      rw [UInt64.toNat_add, UInt64.toNat_add, UInt64.toNat_mul, UInt64.toNat_mul]
      have h31 : (31 : UInt64).toNat = 31 := rfl
      rw [h31]
      omega
  exact Fin.ext (hkeys 0 0 rfl)

/-! ## The table -/

namespace HostVarMgr

variable {m : HostVarMgr}

theorem getVar_eq (m : HostVarMgr) (a_name : Bytes) :
    m.getVar a_name =
      Chains.find HostVarElement.name hashing m.m_SymbolTable (toUpper a_name) := by
  rw [getVar, Chains.find, hashing_toUpper]

theorem setVar_table (m : HostVarMgr) (a_name : Bytes) (g : HostVarElement → HostVarElement) :
    (m.setVar a_name g).m_SymbolTable =
      Chains.modify HostVarElement.name hashing m.m_SymbolTable (toUpper a_name) g := by
  rw [setVar, Chains.modify, hashing_toUpper]

/-- Names are in upper case, each has one node, and that lies in the bucket of the name. -/
structure WellFormed (m : HostVarMgr) : Prop where
  sound : Chains.Sound HostVarElement.name hashing m.m_SymbolTable
  upper : ∀ i, ∀ e ∈ m.m_SymbolTable i, toUpper e.name = e.name

/-- A declaration: the type and the size. -/
abbrev Decl := VarType × Int

/-- What the table says about a name. -/
def declared (m : HostVarMgr) (a_name : Bytes) : Option Decl :=
  (m.getVar a_name).map fun e => (e.type, e.size)

/-- A change of a node that leaves its declaration alone. -/
def Keeps (g : HostVarElement → HostVarElement) : Prop :=
  ∀ e, (g e).name = e.name ∧ (g e).type = e.type ∧ (g e).size = e.size

/-- The table declares the same names. -/
structure Same (m m' : HostVarMgr) : Prop where
  wellFormed : m.WellFormed → m'.WellFormed
  declared : ∀ a_name, m'.declared a_name = m.declared a_name

theorem Same.refl (m : HostVarMgr) : m.Same m :=
  ⟨id, fun _ => rfl⟩

theorem Same.trans {m₁ m₂ m₃ : HostVarMgr} (h : m₁.Same m₂) (h' : m₂.Same m₃) : m₁.Same m₃ :=
  ⟨fun hm => h'.wellFormed (h.wellFormed hm),
    fun a_name => (h'.declared a_name).trans (h.declared a_name)⟩

theorem Same.of_table {m m' : HostVarMgr} (h : m'.m_SymbolTable = m.m_SymbolTable) :
    m.Same m' := by
  constructor
  · intro hm
    exact ⟨h ▸ hm.sound, h ▸ hm.upper⟩
  · intro a_name
    rw [HostVarMgr.declared, HostVarMgr.declared, getVar, getVar, h]

theorem mem_replaceFirst {k : Bytes} {g : HostVarElement → HostVarElement}
    {vs : List HostVarElement} {e : HostVarElement}
    (h : e ∈ Chains.replaceFirst HostVarElement.name k g vs) :
    e ∈ vs ∨ ∃ d ∈ vs, d.name = k ∧ e = g d := by
  induction vs with
  | nil => exact absurd h List.not_mem_nil
  | cons v vs ih =>
    rw [Chains.replaceFirst] at h
    split at h
    · next hv =>
      rcases List.mem_cons.mp h with rfl | h
      · exact Or.inr ⟨v, List.mem_cons_self, hv, rfl⟩
      · exact Or.inl (List.mem_cons_of_mem v h)
    · rcases List.mem_cons.mp h with rfl | h
      · exact Or.inl List.mem_cons_self
      · rcases ih h with h | ⟨d, hd, hname, heq⟩
        · exact Or.inl (List.mem_cons_of_mem v h)
        · exact Or.inr ⟨d, List.mem_cons_of_mem v hd, hname, heq⟩

theorem setVar_wellFormed (hm : m.WellFormed) (a_name : Bytes)
    {g : HostVarElement → HostVarElement}
    (hg : ∀ e, e.name = toUpper a_name → (g e).name = toUpper a_name) :
    (m.setVar a_name g).WellFormed := by
  constructor
  · rw [setVar_table]
    exact hm.sound.modify hg
  · intro i e he
    rw [setVar_table, Chains.modify] at he
    by_cases hi : i = hashing (toUpper a_name)
    · subst hi
      rw [Function.update_self] at he
      rcases mem_replaceFirst he with he | ⟨d, -, hname, rfl⟩
      · exact hm.upper _ e he
      · rw [hg d hname, toUpper_toUpper]
    · rw [Function.update_of_ne hi] at he
      exact hm.upper i e he

theorem setVar_same (m : HostVarMgr) (a_name : Bytes) {g : HostVarElement → HostVarElement}
    (hg : Keeps g) : m.Same (m.setVar a_name g) := by
  have hname : ∀ e, e.name = toUpper a_name → (g e).name = toUpper a_name :=
    fun e he => (hg e).1.trans he
  constructor
  · exact fun hm => setVar_wellFormed hm a_name hname
  · intro b
    rw [HostVarMgr.declared, HostVarMgr.declared, getVar_eq, getVar_eq, setVar_table,
      Chains.find_modify _ hname]
    split
    · next h =>
      rw [Option.map_map, h]
      congr 1
      funext e
      rw [Function.comp_apply, (hg e).2.1, (hg e).2.2]
    · rfl

/-! ## One call -/

theorem setNull_same (m : HostVarMgr) (a_name : Bytes) : m.Same (m.setNull a_name).2 := by
  rw [setNull]
  split
  · exact Same.refl m
  · exact setVar_same m a_name fun _ => ⟨rfl, rfl, rfl⟩

theorem keeps_of_assignText {e : HostVarElement} {text : Bytes} {check : Bool}
    {g : HostVarElement → HostVarElement} (h : assignText e text check = .set g) : Keeps g := by
  rw [assignText] at h
  split at h
  · cases h
  · split at h
    · cases h
    · split at h
      · cases h
        exact fun _ => ⟨rfl, rfl, rfl⟩
      · cases h

theorem keeps_of_assignString {e : HostVarElement} {a_value : Bytes}
    {g : HostVarElement → HostVarElement} (h : assignString e a_value = .set g) : Keeps g := by
  rw [assignString] at h
  split at h
  · cases h
  · cases h
  · split at h
    · cases h
    · exact keeps_of_assignText h

theorem keeps_of_assignOther {a_value : Bytes} {other : Assign}
    {g : HostVarElement → HostVarElement} (hother : other = .set g → Keeps g)
    (h : assignOther a_value other = .set g) : Keeps g := by
  rw [assignOther] at h
  split at h
  · exact hother h
  · cases h
  · split at h <;> cases h

theorem keeps_of_assign {e : HostVarElement} {a_value : Bytes}
    {g : HostVarElement → HostVarElement} (h : assign e a_value = .set g) : Keeps g := by
  have hset : ∀ f : HostVarElement → HostVarElement, Keeps f → Assign.set f = .set g → Keeps g := by
    intro f hf heq
    cases heq
    exact hf
  rw [assign] at h
  cases htype : e.type <;> simp only [htype] at h
  case char | date | byte | nibble | varchar => exact keeps_of_assignString h
  case float | decimal | number | numeric | bigint | integer | smallint =>
    exact keeps_of_assignOther keeps_of_assignText h
  case double =>
    refine keeps_of_assignOther (hset _ ?_) h
    exact fun _ => ⟨rfl, rfl, rfl⟩
  case real =>
    refine keeps_of_assignOther (hset _ ?_) h
    exact fun _ => ⟨rfl, rfl, rfl⟩
  all_goals cases h

theorem setValue_same {a_name a_value : Bytes} {r : Reply × HostVarMgr}
    (h : m.setValue a_name a_value = some r) : m.Same r.2 := by
  rw [setValue] at h
  split at h
  · cases h
    exact Same.refl m
  · next e _ =>
    split at h
    · cases h
      exact setNull_same m a_name
    · split at h
      · cases h
        exact Same.refl m
      · cases h
        exact setVar_same m a_name fun _ => ⟨rfl, rfl, rfl⟩
      · next hassign =>
        cases h
        have hg := keeps_of_assign hassign
        exact setVar_same m a_name fun e => hg e
      · cases h
        exact setVar_same m a_name fun _ => ⟨rfl, rfl, rfl⟩
      · cases h

theorem putBindList_same {a_name : Bytes} {a_order a_para_order : Int} {r : Reply × HostVarMgr}
    (h : m.putBindList a_name a_order a_para_order = some r) : m.Same r.2 := by
  rw [putBindList] at h
  split at h
  · cases h
    exact Same.refl m
  · obtain ⟨s_node, -, rfl⟩ := Option.map_eq_some_iff.mp h
    exact Same.of_table rfl

theorem restore_same {m' : HostVarMgr} {t_node : HostVarElement} (h : m.restore t_node = some m') :
    m.Same m' := by
  rw [restore] at h
  split at h
  · cases h
  · split at h
    · cases h
      exact setVar_same m _ fun _ => ⟨rfl, rfl, rfl⟩
    · split at h
      · cases h
        exact setVar_same m _ fun _ => ⟨rfl, rfl, rfl⟩
      · split at h
        · split at h
          · cases h
          · cases h
            exact setVar_same m _ fun _ => ⟨rfl, rfl, rfl⟩
        · cases h

theorem setHostVar_same {m' : HostVarMgr} (h : m.setHostVar = some m') : m.Same m' := by
  have hfold : ∀ (nodes : List HostVarElement) (m : HostVarMgr),
      nodes.foldlM restore m = some m' → m.Same m' := by
    intro nodes
    induction nodes with
    | nil =>
      intro m hm
      cases hm
      exact Same.refl _
    | cons t_node nodes ih =>
      intro m hm
      rw [List.foldlM_cons] at hm
      obtain ⟨m₁, hfirst, hrest⟩ := Option.bind_eq_some_iff.mp hm
      exact (restore_same hfirst).trans (ih m₁ hrest)
  rw [setHostVar] at h
  split at h
  · cases h
  · exact hfold _ m h

/-- The declarations that `add` takes. -/
def Declares (a_name : Bytes) (a_type : VarType) (a_precision size : Int) : Prop :=
  a_type ≠ .bad ∧ a_name.length ≤ qpMaxNameLen ∧ elementSize a_type a_precision = some size

theorem add_refused {a_name a_scale : Bytes} {a_type : VarType} {a_precision : Int}
    (h : ∀ size, ¬Declares a_name a_type a_precision size) :
    m.Same (m.add a_name a_type a_precision a_scale).2 := by
  rw [add]
  split
  · exact Same.refl m
  · next hbad =>
    split
    · exact Same.refl m
    · next hlength =>
      have hsize : elementSize a_type a_precision = none := by
        apply Option.eq_none_iff_forall_ne_some.mpr
        exact fun size hsize => h size ⟨hbad, Nat.le_of_not_lt hlength, hsize⟩
      simp only [hsize]
      split
      · exact Same.refl m
      · exact setVar_same m _ fun _ => ⟨rfl, rfl, rfl⟩

theorem declared_eq (m : HostVarMgr) (a_name : Bytes) : m.declared a_name =
    (Chains.find HostVarElement.name hashing m.m_SymbolTable (toUpper a_name)).map
      fun e => (e.type, e.size) := by
  rw [HostVarMgr.declared, getVar_eq]

/-- A name that is new gets a node of its own. -/
theorem add_new {a_name a_scale : Bytes} {a_type : VarType} {a_precision size : Int}
    (h : Declares a_name a_type a_precision size) (hget : m.getVar (toUpper a_name) = none) :
    ∃ e : HostVarElement, (e.name = toUpper a_name ∧ e.type = a_type ∧ e.size = size) ∧
      (m.add a_name a_type a_precision a_scale).2.m_SymbolTable =
        Chains.push HostVarElement.name hashing m.m_SymbolTable e := by
  obtain ⟨hbad, hlength, hsize⟩ := h
  simp only [add, if_neg hbad, if_neg hlength.not_gt, hget, hsize]
  exact ⟨⟨toUpper a_name, a_type, a_precision, a_scale, size, elementValue a_type, [], [], false,
    0, 0⟩, ⟨rfl, rfl, rfl⟩, rfl⟩

/-- A name that is declared again keeps its node. -/
theorem add_again {a_name a_scale : Bytes} {a_type : VarType} {a_precision size : Int}
    {e : HostVarElement} (h : Declares a_name a_type a_precision size)
    (hget : m.getVar (toUpper a_name) = some e) :
    ∃ g : HostVarElement → HostVarElement,
      (∀ d, (g d).name = toUpper a_name ∧ (g d).type = a_type ∧ (g d).size = size) ∧
      (m.add a_name a_type a_precision a_scale).2 = m.setVar (toUpper a_name) g := by
  obtain ⟨hbad, hlength, hsize⟩ := h
  simp only [add, if_neg hbad, if_neg hlength.not_gt, hget, hsize]
  exact ⟨_, fun _ => ⟨rfl, rfl, rfl⟩, rfl⟩

theorem add_declared {a_name a_scale : Bytes} {a_type : VarType} {a_precision size : Int}
    (h : Declares a_name a_type a_precision size) (hm : m.WellFormed) :
    (m.add a_name a_type a_precision a_scale).2.WellFormed ∧
      ∀ b, (m.add a_name a_type a_precision a_scale).2.declared b =
        if toUpper b = toUpper a_name then some (a_type, size) else m.declared b := by
  cases hget : m.getVar (toUpper a_name) with
  | none =>
    obtain ⟨e, ⟨hname, htype, hsize⟩, htable⟩ := @add_new m a_name a_scale _ _ _ h hget
    rw [getVar_eq, toUpper_toUpper, ← hname] at hget
    constructor
    · constructor
      · rw [htable]
        exact hm.sound.push hget
      · intro i d hd
        rw [htable, Chains.push] at hd
        by_cases hi : i = hashing e.name
        · subst hi
          rw [Function.update_self] at hd
          rcases List.mem_cons.mp hd with rfl | hd
          · rw [hname, toUpper_toUpper]
          · exact hm.upper _ d hd
        · rw [Function.update_of_ne hi] at hd
          exact hm.upper i d hd
    · intro b
      rw [declared_eq, declared_eq, htable, Chains.find_push, hname]
      split
      · rw [Option.map_some, htype, hsize]
      · rfl
  | some e =>
    obtain ⟨g, hg, hset⟩ := @add_again m a_name a_scale _ _ _ e h hget
    rw [getVar_eq, toUpper_toUpper] at hget
    have hname : ∀ d, d.name = toUpper (toUpper a_name) →
        (g d).name = toUpper (toUpper a_name) := by
      intro d _
      rw [toUpper_toUpper]
      exact (hg d).1
    rw [hset]
    refine ⟨setVar_wellFormed hm _ hname, fun b => ?_⟩
    rw [declared_eq, declared_eq, setVar_table, Chains.find_modify _ hname, toUpper_toUpper, hget]
    split
    · rw [Option.map_some, Option.map_some, (hg e).2.1, (hg e).2.2]
    · rfl

end HostVarMgr

/-! ## Runs -/

/-- The map that the table stands for, behind one more call: a declaration that `add` takes
replaces the one before it. -/
def Call.declare (map : Bytes → Option HostVarMgr.Decl) : Call → Bytes → Option HostVarMgr.Decl
  | .add a_name a_type a_precision _, b =>
      if b = toUpper a_name ∧ a_type ≠ .bad ∧ a_name.length ≤ qpMaxNameLen ∧
          (HostVarMgr.elementSize a_type a_precision).isSome then
        (HostVarMgr.elementSize a_type a_precision).map fun size => (a_type, size)
      else map b
  | _, b => map b

/-- The latest declaration of each name in upper case. -/
def latest (calls : List Call) : Bytes → Option HostVarMgr.Decl :=
  calls.foldl Call.declare fun _ => none

namespace HostVarMgr

variable {m m' : HostVarMgr}

theorem exec_declared {c : Call} {map : Bytes → Option Decl} (h : c.exec m = some m')
    (hm : m.WellFormed) (hmap : ∀ b, m.declared b = map (toUpper b)) :
    m'.WellFormed ∧ ∀ b, m'.declared b = Call.declare map c (toUpper b) := by
  have hsame : m.Same m' → (∀ b, Call.declare map c b = map b) →
      m'.WellFormed ∧ ∀ b, m'.declared b = Call.declare map c (toUpper b) := by
    intro hsame hmap'
    refine ⟨hsame.wellFormed hm, fun b => ?_⟩
    rw [hsame.declared, hmap, hmap']
  cases c with
  | add a_name a_type a_precision a_scale =>
    cases h
    by_cases hdecl : ∃ size, Declares a_name a_type a_precision size
    · obtain ⟨size, hsize⟩ := hdecl
      obtain ⟨hwell, hdeclared⟩ := @add_declared m a_name a_scale _ _ _ hsize hm
      refine ⟨hwell, fun b => ?_⟩
      obtain ⟨hbad, hlength, hsome⟩ := hsize
      rw [hdeclared, Call.declare, hsome, hmap]
      by_cases hb : toUpper b = toUpper a_name
      · rw [if_pos hb, if_pos ⟨hb, hbad, hlength, rfl⟩, Option.map_some]
      · rw [if_neg hb, if_neg fun hall => hb hall.1]
    · apply hsame (add_refused fun size hsize => hdecl ⟨size, hsize⟩)
      intro b
      rw [Call.declare, if_neg]
      rintro ⟨-, hbad, hlength, hsome⟩
      obtain ⟨size, hsize⟩ := Option.isSome_iff_exists.mp hsome
      exact hdecl ⟨size, hbad, hlength, hsize⟩
  | setNull a_name =>
    cases h
    exact hsame (setNull_same m a_name) fun _ => rfl
  | setValue a_name a_value =>
    obtain ⟨r, hr, rfl⟩ := Option.map_eq_some_iff.mp h
    exact hsame (setValue_same hr) fun _ => rfl
  | initBindList =>
    cases h
    exact hsame (Same.of_table rfl) fun _ => rfl
  | putBindList a_name a_order a_para_order =>
    obtain ⟨r, hr, rfl⟩ := Option.map_eq_some_iff.mp h
    exact hsame (putBindList_same hr) fun _ => rfl
  | bound values =>
    cases h
    exact hsame (Same.of_table rfl) fun _ => rfl
  | setHostVar => exact hsame (setHostVar_same h) fun _ => rfl
  | lookup a_name =>
    cases h
    exact hsame (Same.refl _) fun _ => rfl

theorem run_declared {calls : List Call} (h : run calls = some m) :
    m.WellFormed ∧ ∀ b, m.declared b = latest calls (toUpper b) := by
  have hfold : ∀ (calls : List Call) (m₀ : HostVarMgr) (map : Bytes → Option Decl),
      m₀.WellFormed → (∀ b, m₀.declared b = map (toUpper b)) →
      calls.foldlM Call.exec m₀ = some m →
      m.WellFormed ∧ ∀ b, m.declared b = calls.foldl Call.declare map (toUpper b) := by
    intro calls
    induction calls with
    | nil =>
      intro m₀ map hm hmap hrun
      cases hrun
      exact ⟨hm, hmap⟩
    | cons c calls ih =>
      intro m₀ map hm hmap hrun
      rw [List.foldlM_cons] at hrun
      obtain ⟨m₁, hfirst, hrest⟩ := Option.bind_eq_some_iff.mp hrun
      obtain ⟨hm₁, hmap₁⟩ := exec_declared hfirst hm hmap
      exact ih m₁ _ hm₁ hmap₁ hrest
  apply hfold calls .empty (fun _ => none) ⟨Chains.sound_empty, ?_⟩ (fun _ => rfl) h
  exact fun _ _ he => absurd he List.not_mem_nil

/-- A variable declared twice, and bound in between. -/
def twice : List Call :=
  [.add [118, 49] .integer (-1) [], .setValue [86, 49] [53], .initBindList,
    .putBindList [86, 49] 0 0, .setHostVar, .add [86, 49] .varchar 20 []]

end HostVarMgr

end Natc.Isql
