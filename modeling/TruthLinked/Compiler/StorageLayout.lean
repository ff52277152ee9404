import TruthLinked.Axiom.Word
import TruthLinked.Compiler.Frames
import TruthLinked.Core.Bytes
import TruthLinked.Lib.Table
import Mathlib.Logic.Function.Basic

/-! # The storage layout of a cell

The lowered code keeps a slot under the hash of its name, an element under the hash of the slot key XOR the
key of the element, and a field under the hash of the slot key followed by the name of the field. The keys of
the elements come from the caller, and XOR lets them cancel one slot key for another: only cells with at most
one slot are laid out without overlap, unless the hash collides (`layout_injective_iff`). -/

namespace TruthLinked.Compiler.StorageLayout

open Core.Types Core.Bytes Consensus.Types Axiom.Word Compiler.Ast Compiler.Lower Compiler.Frames Lib.Table
open Function (update)

variable {base : String} {s s' : Lowerer} {access : VReg → Ir}

/-! ## Locations and keys -/

/-- What a source can name in storage; the key of an element is the value of its expression. -/
inductive Location where
  | slot (base : String)
  | index (base : String) (key : Bytes32)
  | field (base field : String)

section Keys
variable (prim : Primitives)

/-- The bytes that are hashed. -/
def preimage : Location → Bytes
  | .slot base => nameBytes base
  | .index base key => ofBytes32 (namespaceKey prim base ^^^ key)
  | .field base field => ofBytes32 (namespaceKey prim base) ++ nameBytes field

/-- The storage key. -/
def storageKey (loc : Location) : Bytes32 := prim.sha256 (preimage prim loc)

/-- Two inputs of the hash with one value. -/
def Collision (x y : Bytes) : Prop := x ≠ y ∧ prim.sha256 x = prim.sha256 y

/-- The slots of a cell. -/
def slotNames (cell : CellDef) : List String := cell.storage.map StorageDecl.name

/-- The location belongs to a slot of the cell. A field has a name. -/
def InCell (cell : CellDef) : Location → Prop
  | .slot base => base ∈ slotNames cell
  | .index base _ => base ∈ slotNames cell
  | .field base field => base ∈ slotNames cell ∧ field ≠ ""

/-- **Distinct locations have distinct keys**, unless the hash collides. -/
def LayoutInjective (cell : CellDef) : Prop :=
  ∀ a b, InCell cell a → InCell cell b → storageKey prim a = storageKey prim b →
    a = b ∨ Collision prim (preimage prim a) (preimage prim b)

/-- At most one slot, whose name is not as long as a key and does not begin with its own hash. -/
structure OneSlot (cell : CellDef) : Prop where
  single : ∀ s ∈ slotNames cell, ∀ t ∈ slotNames cell, s = t
  length : ∀ s ∈ slotNames cell, (nameBytes s).length ≠ 32
  noHash : ∀ s ∈ slotNames cell, ∀ field, field ≠ "" →
    nameBytes s ≠ ofBytes32 (namespaceKey prim s) ++ nameBytes field

end Keys

/-! ## The keys that the code uses -/

section Code
variable {prim : Primitives}

/-- The registers. -/
abbrev Regs := VReg → Bytes32

/-- Code that goes over data instructions to an access to storage under `key`. -/
inductive Accesses (prim : Primitives) : List Ir → Regs → Bytes32 → Prop where
  | sLoad (d kv : VReg) (code : List Ir) (regs : Regs) : Accesses prim (.sLoad d kv :: code) regs (regs kv)
  | sStore (kv v : VReg) (code : List Ir) (regs : Regs) : Accesses prim (.sStore kv v :: code) regs (regs kv)
  | loadConst {d : VReg} {data : Bytes} {code : List Ir} {regs : Regs} {key : Bytes32}
      (h : Accesses prim code (update regs d (padRight data)) key) :
      Accesses prim (.loadConst d data :: code) regs key
  | xor {d a b : VReg} {code : List Ir} {regs : Regs} {key : Bytes32}
      (h : Accesses prim code (update regs d (regs a ^^^ regs b)) key) :
      Accesses prim (.xor d a b :: code) regs key
  | hash32 {d a : VReg} {code : List Ir} {regs : Regs} {key : Bytes32}
      (h : Accesses prim code (update regs d (prim.sha256 (ofBytes32 (regs a)))) key) :
      Accesses prim (.hash32 d a :: code) regs key

/-- The slots of the lowerer are those of a cell. -/
def SlotsNamed (prim : Primitives) (s : Lowerer) : Prop :=
  ∀ name key, s.slotKeys[name]? = some key → key = ofBytes32 (namespaceKey prim name)

theorem slotsNamed_new (prim : Primitives) (cell : CellDef) : SlotsNamed prim (.new prim cell) := by
  intro name key h
  rw [Lowerer.new, getElem?_foldl_insert] at h
  cases hlast : lastOf StorageDecl.name name cell.storage with
  | none =>
    rw [hlast, Std.ExtTreeMap.getElem?_empty] at h
    cases h
  | some slot =>
    rw [hlast] at h
    rw [← (lastOf_mem hlast).2]
    exact (Option.some.inj h).symm

theorem padRight_ofBytes32 (w : Bytes32) : padRight (ofBytes32 w) = w := by
  rw [padRight, length_ofBytes32, Nat.sub_self, List.replicate_zero, List.append_nil, toBytes32_ofBytes32]

/-- Code that ends in an access to the location whose element key is in `keyV`. -/
def AccessCode (prim : Primitives) (code : List Ir) (keyV : VReg) (loc : Bytes32 → Location) : Prop :=
  ∀ regs : Regs, Accesses prim code regs (storageKey prim (loc (regs keyV)))

theorem accessCode_index {keyV slotV derivedV : VReg} {access : Ir}
    (hslot : keyV ≠ slotV) (haccess : ∀ regs, Accesses prim [access] regs (regs derivedV)) :
    AccessCode prim [.loadConst slotV (ofBytes32 (namespaceKey prim base)), .xor derivedV slotV keyV,
      .hash32 derivedV derivedV, access] keyV (.index base) := by
  intro regs
  refine .loadConst (.xor (.hash32 ?_))
  have hkey :=
    haccess (update (update (update regs slotV (padRight (ofBytes32 (namespaceKey prim base)))) derivedV
    (namespaceKey prim base ^^^ regs keyV)) derivedV (storageKey prim (.index base (regs keyV))))
  rw [Function.update_self] at hkey
  convert hkey using 2
  · rw [Function.update_self, Function.update_of_ne hslot, padRight_ofBytes32]
  · rw [Function.update_self, Function.update_self, Function.update_of_ne hslot, padRight_ofBytes32]
    rfl

/-- The instructions for a key that is known when the cell is lowered, followed by an access. -/
theorem accessCode_const (loc : Location) {kv keyV : VReg} {access : Ir}
    (haccess : ∀ regs, Accesses prim [access] regs (regs kv)) :
    AccessCode prim [.loadConst kv (ofBytes32 (storageKey prim loc)), access] keyV fun _ => loc := by
  intro regs
  refine .loadConst ?_
  have hkey := haccess (update regs kv (padRight (ofBytes32 (storageKey prim loc))))
  rw [Function.update_self, padRight_ofBytes32] at hkey
  rw [padRight_ofBytes32]
  exact hkey

/-- An access to an element, as `lower_expr_into`, `load_lvalue` and `store_lvalue` lower it. -/
def accessElement (prim : Primitives) (base : String) (key : Expr) (scope : Scope) (access : VReg → Ir) :
    LowerM Unit := do
  let slot ← slotKey prim base
  let keyV ← vreg
  lowerExprInto prim key keyV scope
  let derivedV ← indexKey slot keyV
  push (access derivedV)

/-- An access to a field. -/
def accessField (prim : Primitives) (base field : String) (access : VReg → Ir) : LowerM Unit := do
  let kv ← fieldKey prim base field
  push (access kv)

/-- An access to a slot. -/
def accessSlot (key : Bytes) (access : VReg → Ir) : LowerM Unit := do
  let kv ← vreg
  push (.loadConst kv key)
  push (access kv)

/-- Elements and fields are read and written by these. -/
theorem accesses_lowered (prim : Primitives) (base field : String) (key : Expr) (v : VReg) (scope : Scope) :
    lowerExprInto prim (.index (.var base) key) v scope = accessElement prim base key scope (.sLoad v) ∧
      loadLValue prim (.index base key) v scope = accessElement prim base key scope (.sLoad v) ∧
      storeLValue prim (.index base key) v scope = accessElement prim base key scope (.sStore · v) ∧
      lowerExprInto prim (.field (.var base) field) v scope = accessField prim base field (.sLoad v) ∧
      loadLValue prim (.field base field) v scope = accessField prim base field (.sLoad v) ∧
      storeLValue prim (.field base field) v scope = accessField prim base field (.sStore · v) := by
  refine ⟨?_, rfl, rfl, ?_, rfl, rfl⟩
  all_goals rw [lowerExprInto]; rfl

/-- A slot is written by `accessSlot`, and read by it unless the name is that of a variable. -/
theorem slot_lowered {name : String} {key : Bytes} (hslot : s.slotKeys[name]? = some key)
    (v : VReg) (scope : Scope) :
    storeVarOrSlot name v scope s = accessSlot key (.sStore · v) s ∧
      (scope[name]? = none → loadVarOrSlot name v scope s = accessSlot key (.sLoad v) s) := by
  constructor
  · unfold storeVarOrSlot
    simp only [bind, StateT.bind, get, getThe, MonadStateOf.get, StateT.get, pure, Option.bind_some, hslot]
    rfl
  · intro hscope
    unfold loadVarOrSlot
    rw [hscope]
    simp only [bind, StateT.bind, get, getThe, MonadStateOf.get, StateT.get, pure, Option.bind_some, hslot]
    rfl

theorem indexKey_run (slot : Bytes) (keyV : VReg) (t : Lowerer) :
    indexKey slot keyV t = some (t.nextVReg + 1,
      { t with
        ir := t.ir ++ [.loadConst t.nextVReg slot, .xor (t.nextVReg + 1) t.nextVReg keyV,
          .hash32 (t.nextVReg + 1) (t.nextVReg + 1)]
        nextVReg := t.nextVReg + 2 }) := by
  have happend (a b c : Ir) : t.ir ++ [a] ++ [b] ++ [c] = t.ir ++ [a, b, c] := by
    simp only [List.append_assoc, List.cons_append, List.nil_append]
  rw [← happend]
  rfl

/-- **An element is kept under its storage key**: behind the code for the key expression comes code that
accesses storage under the key of the element. -/
theorem accessElement_spec {key : Expr} {scope : Scope}
    (hnamed : SlotsNamed prim s) (haccess : ∀ kv regs, Accesses prim [access kv] regs (regs kv))
    (h : accessElement prim base key scope access s = some ((), s')) :
    ∃ keyV t code, lowerExprInto prim key keyV scope { s with nextVReg := s.nextVReg + 1 } = some ((), t) ∧
      s'.ir = t.ir ++ code ∧ AccessCode prim code keyV (.index base) := by
  obtain ⟨slot, s₁, hslot, h⟩ := bind_eq_some.mp h
  obtain ⟨hget, rfl⟩ := Prod.mk.inj (Option.some.inj hslot)
  obtain ⟨keyV, s₂, hkeyV, h⟩ := bind_eq_some.mp h
  obtain ⟨rfl, rfl⟩ := Prod.mk.inj (Option.some.inj hkeyV)
  obtain ⟨⟨⟩, t, hkey, h⟩ := bind_eq_some.mp h
  obtain ⟨derivedV, s₃, hderived, h⟩ := bind_eq_some.mp h
  rw [indexKey_run] at hderived
  obtain ⟨rfl, rfl⟩ := Prod.mk.inj (Option.some.inj hderived)
  obtain ⟨-, rfl⟩ := Prod.mk.inj (Option.some.inj h)
  obtain rfl : ofBytes32 (namespaceKey prim base) = slot := by
    rw [← hget]
    cases hfound : s.slotKeys[base]? with
    | none => rfl
    | some key => exact (hnamed base key hfound).symm
  have hgrows := (follows_lowerExprInto prim emitting_grows key s.nextVReg scope).along hkey
  refine ⟨s.nextVReg, t, _, hkey, ?_, accessCode_index (Nat.ne_of_lt hgrows.regs) (haccess (t.nextVReg + 1))⟩
  simp only [List.append_assoc, List.cons_append, List.nil_append]

/-- **A field is kept under its storage key.** -/
theorem accessField_spec {field : String}
    (haccess : ∀ kv regs, Accesses prim [access kv] regs (regs kv))
    (h : accessField prim base field access s = some ((), s')) (keyV : VReg) :
    ∃ code, s'.ir = s.ir ++ code ∧ AccessCode prim code keyV fun _ => .field base field := by
  obtain ⟨kv, t, hkv, h⟩ := bind_eq_some.mp h
  obtain ⟨rfl, rfl⟩ := Prod.mk.inj (Option.some.inj hkv)
  obtain ⟨-, rfl⟩ := Prod.mk.inj (Option.some.inj h)
  exact ⟨_, List.append_assoc _ _ _, accessCode_const (.field base field) (haccess _)⟩

/-- **A slot is kept under its storage key.** -/
theorem accessSlot_spec {name : String} {key : Bytes}
    (hnamed : SlotsNamed prim s) (hslot : s.slotKeys[name]? = some key)
    (haccess : ∀ kv regs, Accesses prim [access kv] regs (regs kv))
    (h : accessSlot key access s = some ((), s')) (keyV : VReg) :
    ∃ code, s'.ir = s.ir ++ code ∧ AccessCode prim code keyV fun _ => .slot name := by
  obtain ⟨kv, t, hkv, h⟩ := bind_eq_some.mp h
  obtain ⟨rfl, rfl⟩ := Prod.mk.inj (Option.some.inj hkv)
  obtain ⟨-, rfl⟩ := Prod.mk.inj (Option.some.inj h)
  obtain rfl := hnamed name key hslot
  exact ⟨_, List.append_assoc _ _ _, accessCode_const (.slot name) (haccess _)⟩

end Code

/-! ## Which cells are laid out without overlap -/

section Layout
variable {prim : Primitives} {cell : CellDef}

theorem nameBytes_inj {s t : String} : nameBytes s = nameBytes t ↔ s = t := toUTF8_toList_inj

theorem name_eq_empty {s : String} (h : (nameBytes s).length = 0) : s = "" :=
  nameBytes_inj.mp ((List.eq_nil_of_length_eq_zero h).trans (by decide +kernel))

theorem eq_of_preimage (h : LayoutInjective prim cell) {a b : Location} (ha : InCell cell a) (hb : InCell cell b)
    (heq : preimage prim a = preimage prim b) : a = b := by
  rcases h a b ha hb (congrArg prim.sha256 heq) with hab | hcol
  · exact hab
  · exact absurd heq hcol.1

theorem preimage_meet (s t : String) :
    preimage prim (.index s (namespaceKey prim t)) = preimage prim (.index t (namespaceKey prim s)) :=
  congrArg ofBytes32 (BitVec.xor_comm _ _)

theorem preimage_injective (h : OneSlot prim cell) {a b : Location} (ha : InCell cell a) (hb : InCell cell b)
    (heq : preimage prim a = preimage prim b) : a = b := by
  cases a with
  | slot s =>
    cases b with
    | slot t => rw [h.single s ha t hb]
    | index t k =>
      refine absurd ?_ (h.length s ha)
      rw [show nameBytes s = _ from heq, preimage, length_ofBytes32]
    | field t f =>
      obtain rfl := h.single s ha t hb.1
      exact absurd heq (h.noHash s ha f hb.2)
  | index s k =>
    cases b with
    | slot t =>
      refine absurd ?_ (h.length t hb)
      rw [show nameBytes t = _ from heq.symm, preimage, length_ofBytes32]
    | index t l =>
      obtain rfl := h.single s ha t hb
      have hkey := BitVec.xor_right_inj (namespaceKey prim s) |>.mp (ofBytes32_inj.mp heq)
      rw [hkey]
    | field t f =>
      have hlen := congrArg List.length heq
      simp only [preimage, length_ofBytes32, List.length_append] at hlen
      exact absurd (name_eq_empty (by omega)) hb.2
  | field s f =>
    cases b with
    | slot t =>
      obtain rfl := h.single s ha.1 t hb
      exact absurd heq.symm (h.noHash s ha.1 f ha.2)
    | index t l =>
      have hlen := congrArg List.length heq
      simp only [preimage, length_ofBytes32, List.length_append] at hlen
      exact absurd (name_eq_empty (by omega)) ha.2
    | field t g =>
      obtain rfl := h.single s ha.1 t hb.1
      rw [nameBytes_inj.mp (List.append_cancel_left heq)]

end Layout

/-- **The layout is injective exactly for the cells with at most one slot**, whose name is neither 32 bytes
long nor begins with its own hash. -/
theorem layout_injective_iff (prim : Primitives) (cell : CellDef) :
    LayoutInjective prim cell ↔ OneSlot prim cell := by
  constructor
  · intro h
    refine ⟨fun s hs t ht => ?_, fun s hs hlen => ?_, fun s hs field hfield heq => ?_⟩
    · have hmeet := eq_of_preimage h (a := .index s _) (b := .index t _) hs ht (preimage_meet s t)
      exact (Location.index.inj hmeet).1
    · have hover := eq_of_preimage h (a := .slot s)
        (b := .index s (namespaceKey prim s ^^^ toBytes32 (nameBytes s))) hs hs (by
          change nameBytes s = ofBytes32 (_ ^^^ (_ ^^^ _))
          rw [← BitVec.xor_assoc, BitVec.xor_self, BitVec.zero_xor, ofBytes32_toBytes32 hlen])
      cases hover
    · have hover := eq_of_preimage h (a := .slot s) (b := .field s field) hs ⟨hs, hfield⟩ heq
      cases hover
  · intro h a b ha hb heq
    by_cases hpre : preimage prim a = preimage prim b
    · exact Or.inl (preimage_injective h ha hb hpre)
    · exact Or.inr ⟨hpre, heq⟩

def twoMappings : CellDef where
  name := "Token"
  structs := []
  errors := []
  storage := [⟨"balances", .mapping .address .u128, false⟩, ⟨"allowances", .mapping .address .u128, false⟩]
  init := none
  fns := []

def samplePrim : Primitives where
  blake3 bs := BitVec.ofNat 256 (leNat bs)
  sha256 bs := BitVec.ofNat 256 (leNat bs)
  verify _ _ _ _ := false

/-- **Two mappings overlap**: the caller reaches an element of one through the other. -/
theorem mappings_overlap :
    storageKey samplePrim (.index "balances" (namespaceKey samplePrim "allowances")) =
        storageKey samplePrim (.index "allowances" (namespaceKey samplePrim "balances")) ∧
      ¬ LayoutInjective samplePrim twoMappings := by
  refine ⟨congrArg samplePrim.sha256 (preimage_meet _ _), fun h => ?_⟩
  have hmeet := eq_of_preimage h (a := .index "balances" _) (b := .index "allowances" _)
    (by decide : "balances" ∈ slotNames twoMappings) (by decide : "allowances" ∈ slotNames twoMappings)
    (preimage_meet _ _)
  exact absurd (Location.index.inj hmeet).1 (by decide)

end TruthLinked.Compiler.StorageLayout
