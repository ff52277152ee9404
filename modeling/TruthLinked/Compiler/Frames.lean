import TruthLinked.Compiler.Lower

/-! # What a step of the lowerer leaves alone

The lowerer only appends code and takes fresh registers and labels. A relation between its states that holds
along these holds along the lowering of every expression, which pushes no label and cannot fail (`Emitting`,
`follows_lowerExprInto`), and along that of every statement (`Adding`, `keeps_lowerBody`). -/

namespace TruthLinked.Compiler.Frames

open Core.Types Consensus.Types Compiler.Ast Compiler.Lower

/-! ## Steps along a relation -/

/-- The label that an instruction is. -/
def labelOf : Ir → Option Label
  | .label l => some l
  | _ => none

/-- A relation that holds along registers that are taken and instructions that are appended, labels aside. -/
structure Emitting (R : Lowerer → Lowerer → Prop) : Prop where
  refl : ∀ s, R s s
  trans : ∀ {s t u}, R s t → R t u → R s u
  takes : ∀ s, R s { s with nextVReg := s.nextVReg + 1 }
  appends : ∀ s {ir}, labelOf ir = none → R s { s with ir := s.ir ++ [ir] }

/-- The step succeeds, and goes along `R`. -/
def Follows (R : Lowerer → Lowerer → Prop) {α : Type} (m : LowerM α) : Prop :=
  ∀ s, ∃ a s', m s = some (a, s') ∧ R s s'

theorem Follows.along {R : Lowerer → Lowerer → Prop} {α : Type} {m : LowerM α} (h : Follows R m) {s s' : Lowerer}
    {a : α} (heq : m s = some (a, s')) : R s s' := by
  obtain ⟨b, t, ht, hR⟩ := h s
  obtain ⟨-, rfl⟩ := Prod.mk.inj (Option.some.inj (ht.symm.trans heq))
  exact hR

theorem bind_eq_some {α β : Type} {m : LowerM α} {f : α → LowerM β} {s s' : Lowerer} {b : β} :
    (m >>= f) s = some (b, s') ↔ ∃ a t, m s = some (a, t) ∧ f a t = some (b, s') := by
  change (m s >>= fun r => f r.1 r.2) = some (b, s') ↔ _
  rw [Option.bind_eq_bind, Option.bind_eq_some_iff, Prod.exists]

namespace Emitting

variable {R : Lowerer → Lowerer → Prop} {α β : Type}

theorem bind (hR : Emitting R) {m : LowerM α} {f : α → LowerM β} (hm : Follows R m) (hf : ∀ a, Follows R (f a)) :
    Follows R (m >>= f) := by
  intro s
  obtain ⟨a, t, ha, hst⟩ := hm s
  obtain ⟨b, s', hb, hts⟩ := hf a t
  exact ⟨b, s', bind_eq_some.mpr ⟨a, t, ha, hb⟩, hR.trans hst hts⟩

theorem pure (hR : Emitting R) (a : α) : Follows R (Pure.pure a : LowerM α) := fun s => ⟨a, s, rfl, hR.refl s⟩

theorem get (hR : Emitting R) : Follows R (MonadState.get : LowerM Lowerer) := fun s => ⟨s, s, rfl, hR.refl s⟩

theorem vreg (hR : Emitting R) : Follows R Lower.vreg := fun s => ⟨_, _, rfl, hR.takes s⟩

theorem push (hR : Emitting R) {ir : Ir} (h : labelOf ir = none) : Follows R (Lower.push ir) :=
  fun s => ⟨(), _, rfl, hR.appends s h⟩

theorem slotKey (hR : Emitting R) (prim : Primitives) (base : String) : Follows R (Lower.slotKey prim base) :=
  fun s => ⟨_, s, rfl, hR.refl s⟩

theorem indexKey (hR : Emitting R) (slot : Bytes) (keyV : VReg) : Follows R (Lower.indexKey slot keyV) :=
  hR.bind hR.vreg fun _ => hR.bind (hR.push rfl) fun _ => hR.bind hR.vreg fun _ =>
    hR.bind (hR.push rfl) fun _ => hR.bind (hR.push rfl) fun _ => hR.pure _

theorem fieldKey (hR : Emitting R) (prim : Primitives) (base field : String) :
    Follows R (Lower.fieldKey prim base field) :=
  hR.bind hR.vreg fun _ => hR.bind (hR.push rfl) fun _ => hR.pure _

theorem loadVarOrSlot (hR : Emitting R) (name : String) (dst : VReg) (scope : Scope) :
    Follows R (Lower.loadVarOrSlot name dst scope) := by
  unfold Lower.loadVarOrSlot
  cases scope[name]? with
  | some v => exact hR.push rfl
  | none =>
    refine hR.bind hR.get fun s => ?_
    cases s.slotKeys[name]? with
    | some key => exact hR.bind hR.vreg fun _ => hR.bind (hR.push rfl) fun _ => hR.push rfl
    | none =>
      dsimp only
      split_ifs
      · exact hR.push rfl
      · exact hR.pure _

theorem storeVarOrSlot (hR : Emitting R) (name : String) (src : VReg) (scope : Scope) :
    Follows R (Lower.storeVarOrSlot name src scope) := by
  unfold Lower.storeVarOrSlot
  refine hR.bind hR.get fun s => ?_
  cases s.slotKeys[name]? with
  | some key => exact hR.bind hR.vreg fun _ => hR.bind (hR.push rfl) fun _ => hR.push rfl
  | none =>
    cases scope[name]? with
    | some v => exact hR.push rfl
    | none => exact hR.pure _

end Emitting

theorem labelOf_binIr (op : BinOp) (d a b : VReg) : labelOf (binIr op d a b) = none := by cases op <;> rfl

theorem labelOf_shiftIr (op : BinOp) (d a : VReg) (shift : ℕ) : labelOf (shiftIr op d a shift) = none := by
  unfold shiftIr
  split_ifs
  · rfl
  · rfl

section Expressions
variable (prim : Primitives) {R : Lowerer → Lowerer → Prop} (hR : Emitting R)
include hR

mutual

theorem follows_lowerExprInto : (e : Expr) → ∀ dst scope, Follows R (lowerExprInto prim e dst scope)
  | .int v, dst, scope => by
    rw [lowerExprInto]
    split_ifs
    · exact hR.push rfl
    · exact hR.push rfl
  | .bytes data, dst, scope => by
    rw [lowerExprInto]
    exact hR.push rfl
  | .var name, dst, scope => by
    rw [lowerExprInto]
    exact hR.loadVarOrSlot name dst scope
  | .caller, dst, scope => by
    rw [lowerExprInto]
    exact hR.push rfl
  | .owner, dst, scope => by
    rw [lowerExprInto]
    exact hR.push rfl
  | .selfAddr, dst, scope => by
    rw [lowerExprInto]
    exact hR.push rfl
  | .height, dst, scope => by
    rw [lowerExprInto]
    exact hR.push rfl
  | .timestamp, dst, scope => by
    rw [lowerExprInto]
    exact hR.push rfl
  | .value, dst, scope => by
    rw [lowerExprInto]
    exact hR.push rfl
  | .not inner, dst, scope => by
    rw [lowerExprInto]
    exact hR.bind hR.vreg fun v => hR.bind (follows_lowerExprInto inner v scope) fun _ => hR.push rfl
  | .bin op lhs rhs, dst, scope => by
    rw [lowerExprInto]
    cases shiftAmount op rhs with
    | some shift =>
      exact hR.bind hR.vreg fun v => hR.bind (follows_lowerExprInto lhs v scope) fun _ =>
        hR.push (labelOf_shiftIr op dst v shift)
    | none =>
      dsimp only
      split_ifs
      · exact hR.bind hR.vreg fun v => hR.bind (follows_lowerExprInto lhs v scope) fun _ =>
          hR.bind hR.vreg fun w => hR.bind (follows_lowerExprInto rhs w scope) fun _ =>
            hR.push (labelOf_binIr op dst v w)
      · exact hR.bind hR.vreg fun v => hR.bind hR.vreg fun w =>
          hR.bind (follows_lowerExprInto lhs v scope) fun _ =>
            hR.bind (follows_lowerExprInto rhs w scope) fun _ => hR.push (labelOf_binIr op dst v w)
  | .tokenBalance token account, dst, scope => by
    rw [lowerExprInto]
    exact hR.bind hR.vreg fun tv => hR.bind hR.vreg fun av =>
      hR.bind (follows_lowerExprInto token tv scope) fun _ =>
        hR.bind (follows_lowerExprInto account av scope) fun _ => hR.push rfl
  | .tokenTransfer token src rcpt amount, dst, scope => by
    rw [lowerExprInto]
    exact hR.bind hR.vreg fun tv => hR.bind hR.vreg fun fv => hR.bind hR.vreg fun rv => hR.bind hR.vreg fun av =>
      hR.bind (follows_lowerExprInto token tv scope) fun _ =>
        hR.bind (follows_lowerExprInto src fv scope) fun _ =>
          hR.bind (follows_lowerExprInto rcpt rv scope) fun _ =>
            hR.bind (follows_lowerExprInto amount av scope) fun _ => hR.bind (hR.push rfl) fun _ => hR.push rfl
  | .tokenMint token rcpt amount, dst, scope => by
    rw [lowerExprInto]
    exact hR.bind hR.vreg fun tv => hR.bind hR.vreg fun rv => hR.bind hR.vreg fun av =>
      hR.bind (follows_lowerExprInto token tv scope) fun _ =>
        hR.bind (follows_lowerExprInto rcpt rv scope) fun _ =>
          hR.bind (follows_lowerExprInto amount av scope) fun _ => hR.bind (hR.push rfl) fun _ => hR.push rfl
  | .tokenBurn token holder amount, dst, scope => by
    rw [lowerExprInto]
    exact hR.bind hR.vreg fun tv => hR.bind hR.vreg fun ov => hR.bind hR.vreg fun av =>
      hR.bind (follows_lowerExprInto token tv scope) fun _ =>
        hR.bind (follows_lowerExprInto holder ov scope) fun _ =>
          hR.bind (follows_lowerExprInto amount av scope) fun _ => hR.bind (hR.push rfl) fun _ => hR.push rfl
  | .callCell cell method args ret, dst, scope => by
    rw [lowerExprInto]
    exact hR.bind hR.vreg fun cv => hR.bind (follows_lowerExprInto cell cv scope) fun _ =>
      hR.bind (hR.push rfl) fun _ => hR.bind (hR.push rfl) fun _ =>
        hR.bind (follows_lowerPacked args scope) fun _ => hR.bind hR.vreg fun vv =>
          hR.bind (hR.push rfl) fun _ => hR.bind (hR.push rfl) fun _ => hR.push rfl
  | .call name args, dst, scope => by
    rw [lowerExprInto]
    refine hR.bind hR.get fun s => ?_
    cases s.helpers[name]? with
    | some helper =>
      exact hR.bind (follows_lowerArgs args _ scope) fun _ => hR.bind (hR.push rfl) fun _ => hR.push rfl
    | none => exact hR.pure _
  | .hash inner, dst, scope => by
    rw [lowerExprInto]
    exact hR.bind hR.vreg fun v => hR.bind (follows_lowerExprInto inner v scope) fun _ => hR.push rfl
  | .index base key, dst, scope => by
    cases base with
    | var name =>
      rw [lowerExprInto]
      exact hR.bind (hR.slotKey prim name) fun _ => hR.bind hR.vreg fun kv =>
        hR.bind (follows_lowerExprInto key kv scope) fun _ => hR.bind (hR.indexKey _ kv) fun _ => hR.push rfl
    | _ =>
      simp only [lowerExprInto]
      exact hR.push rfl
  | .field base field, dst, scope => by
    cases base with
    | var name =>
      rw [lowerExprInto]
      exact hR.bind (hR.fieldKey prim name field) fun _ => hR.push rfl
    | _ =>
      simp only [lowerExprInto]
      exact hR.push rfl
  | .accordRequest url method body, dst, scope => by
    rw [lowerExprInto]
    refine hR.bind hR.vreg fun uv => hR.bind hR.vreg fun mv => hR.bind hR.vreg fun bv =>
      hR.bind (follows_lowerExprInto url uv scope) fun _ => ?_
    have hmethod := follows_lowerExprInto method mv scope
    have hbody := follows_lowerExprInto body bv scope
    split
    · exact hR.bind (hR.push rfl) fun _ => hR.bind hbody fun _ => hR.push rfl
    · exact hR.bind hmethod fun _ => hR.bind hbody fun _ => hR.push rfl
  | .accordRead requestId, dst, scope => by
    rw [lowerExprInto]
    exact hR.bind hR.vreg fun v => hR.bind (follows_lowerExprInto requestId v scope) fun _ => hR.push rfl

theorem follows_lowerPacked : (es : List Expr) → ∀ scope, Follows R (lowerPacked prim es scope)
  | [], scope => by
    rw [lowerPacked]
    exact hR.pure _
  | e :: es, scope => by
    rw [lowerPacked]
    exact hR.bind hR.vreg fun v => hR.bind (follows_lowerExprInto e v scope) fun _ =>
      hR.bind (hR.push rfl) fun _ => follows_lowerPacked es scope

theorem follows_lowerArgs : (es : List Expr) → ∀ vs scope, Follows R (lowerArgs prim es vs scope)
  | [], vs, scope => by
    rw [lowerArgs]
    · exact hR.pure _
    · intro e es v vs h
      cases h
  | e :: es, [], scope => by
    rw [lowerArgs]
    · exact hR.pure _
    · intro e es v vs _ h
      cases h
  | e :: es, v :: vs, scope => by
    rw [lowerArgs]
    exact hR.bind (follows_lowerExprInto e v scope) fun _ => follows_lowerArgs es vs scope

end

theorem follows_loadLValue (target : LValue) (dst : VReg) (scope : Scope) :
    Follows R (loadLValue prim target dst scope) := by
  cases target with
  | var name => exact hR.loadVarOrSlot name dst scope
  | index base key =>
    exact hR.bind (hR.slotKey prim base) fun _ => hR.bind hR.vreg fun kv =>
      hR.bind (follows_lowerExprInto prim hR key kv scope) fun _ => hR.bind (hR.indexKey _ kv) fun _ =>
        hR.push rfl
  | field base field => exact hR.bind (hR.fieldKey prim base field) fun _ => hR.push rfl

theorem follows_storeLValue (target : LValue) (src : VReg) (scope : Scope) :
    Follows R (storeLValue prim target src scope) := by
  cases target with
  | var name => exact hR.storeVarOrSlot name src scope
  | index base key =>
    exact hR.bind (hR.slotKey prim base) fun _ => hR.bind hR.vreg fun kv =>
      hR.bind (follows_lowerExprInto prim hR key kv scope) fun _ => hR.bind (hR.indexKey _ kv) fun _ =>
        hR.push rfl
  | field base field => exact hR.bind (hR.fieldKey prim base field) fun _ => hR.push rfl

theorem follows_lowerUpdate {op : VReg → VReg → VReg → Ir} (hop : ∀ d a b, labelOf (op d a b) = none)
    (target : LValue) (e : Expr) (scope : Scope) : Follows R (lowerUpdate prim op target e scope) :=
  hR.bind hR.vreg fun v => hR.bind (follows_lowerExprInto prim hR e v scope) fun _ => hR.bind hR.vreg fun w =>
    hR.bind (follows_loadLValue prim hR target w scope) fun _ => hR.bind hR.vreg fun r =>
      hR.bind (hR.push (hop r w v)) fun _ => follows_storeLValue prim hR target r scope

theorem follows_lowerFields (event : String) (fields : List ((String × Expr) × ℕ)) (scope : Scope) :
    Follows R (lowerFields prim event fields scope) := by
  induction fields with
  | nil => exact hR.pure _
  | cons field fields ih =>
    obtain ⟨⟨name, e⟩, i⟩ := field
    exact hR.bind hR.vreg fun tv => hR.bind (hR.push rfl) fun _ => hR.bind hR.vreg fun dv =>
      hR.bind (follows_lowerExprInto prim hR e dv scope) fun _ => hR.bind hR.vreg fun lv =>
        hR.bind (hR.push rfl) fun _ => hR.bind (hR.push rfl) fun _ => ih

end Expressions

/-- Code is appended and registers are taken; the slots and the private functions stay. -/
structure Grows (s s' : Lowerer) : Prop where
  code : s.ir <+: s'.ir
  regs : s.nextVReg ≤ s'.nextVReg
  slots : s'.slotKeys = s.slotKeys
  helpers : s'.helpers = s.helpers

theorem emitting_grows : Emitting Grows where
  refl _ := ⟨List.prefix_refl _, le_rfl, rfl, rfl⟩
  trans h h' := ⟨h.code.trans h'.code, h.regs.trans h'.regs, h'.slots.trans h.slots, h'.helpers.trans h.helpers⟩
  takes _ := ⟨List.prefix_refl _, Nat.le_succ _, rfl, rfl⟩
  appends _ _ _ := ⟨List.prefix_append _ _, le_rfl, rfl, rfl⟩

/-! ## Statements -/

/-- A step that may fail, along a relation. -/
def Keeps (R : Lowerer → Lowerer → Prop) {α : Type} (m : LowerM α) : Prop :=
  ∀ s a s', m s = some (a, s') → R s s'

/-- A relation that also holds along the loops, and along labels that are `Ok` as those that are taken are. -/
structure Adding (R : Lowerer → Lowerer → Prop) (Ok : Label → Prop) : Prop extends Emitting R where
  labels : ∀ {α : Type} {f : Label → LowerM α}, (∀ l, Ok l → Keeps R (f l)) → Keeps R (label >>= f)
  marks : ∀ s {l}, Ok l → R s { s with ir := s.ir ++ [.label l] }
  loops : ∀ s bs cs, R s { s with breakStack := bs, continueStack := cs }

namespace Adding

variable {R : Lowerer → Lowerer → Prop} {Ok : Label → Prop} {α β : Type}

theorem keeps_bind (hR : Adding R Ok) {m : LowerM α} {f : α → LowerM β} (hm : Keeps R m)
    (hf : ∀ a, Keeps R (f a)) :
    Keeps R (m >>= f) := by
  intro s b s' h
  obtain ⟨a, t, ha, hb⟩ := bind_eq_some.mp h
  exact hR.trans (hm s a t ha) (hf a t b s' hb)

theorem keeps (_hR : Adding R Ok) {m : LowerM α} (h : Follows R m) : Keeps R m := fun _ _ _ heq => h.along heq

theorem keeps_pure (hR : Adding R Ok) (a : α) : Keeps R (Pure.pure a : LowerM α) := hR.keeps (hR.pure a)

theorem keeps_vreg (hR : Adding R Ok) : Keeps R Lower.vreg := hR.keeps hR.vreg

theorem keeps_push (hR : Adding R Ok) {ir : Ir} (h : labelOf ir = none) : Keeps R (Lower.push ir) :=
  hR.keeps (hR.push h)

theorem keeps_mark (hR : Adding R Ok) {l : Label} (hl : Ok l) : Keeps R (Lower.push (.label l)) := by
  intro s a s' heq
  obtain ⟨-, rfl⟩ := Prod.mk.inj (Option.some.inj heq)
  exact hR.marks s hl

theorem keeps_expect (hR : Adding R Ok) (o : Option α) : Keeps R (expect o) := by
  intro s a s' h
  obtain ⟨b, -, hb⟩ := Option.map_eq_some_iff.mp h
  obtain ⟨-, rfl⟩ := Prod.mk.inj hb
  exact hR.refl s

theorem keeps_pushLoop (hR : Adding R Ok) (b c : Label) : Keeps R (pushLoop b c) := by
  intro s a s' h
  obtain ⟨-, rfl⟩ := Prod.mk.inj (Option.some.inj h)
  exact hR.loops s _ _

theorem keeps_popLoop (hR : Adding R Ok) : Keeps R popLoop := by
  intro s a s' h
  obtain ⟨-, rfl⟩ := Prod.mk.inj (Option.some.inj h)
  exact hR.loops s _ _

theorem keeps_forM (hR : Adding R Ok) {as : List α} {f : α → LowerM Unit} (h : ∀ a ∈ as, Keeps R (f a)) :
    Keeps R (as.forM f) := by
  induction as with
  | nil => exact hR.keeps_pure _
  | cons a as ih =>
    exact hR.keeps_bind (h a List.mem_cons_self) fun _ => ih fun b hb => h b (List.mem_cons_of_mem a hb)

end Adding

section Statements
variable (prim : Primitives) {R : Lowerer → Lowerer → Prop} {Ok : Label → Prop} (hR : Adding R Ok)
include hR

theorem keeps_expr (e : Expr) (dst : VReg) (scope : Scope) : Keeps R (lowerExprInto prim e dst scope) :=
  hR.keeps (follows_lowerExprInto prim hR.toEmitting e dst scope)

theorem keeps_update {op : VReg → VReg → VReg → Ir} (hop : ∀ d a b, labelOf (op d a b) = none) (target : LValue)
    (e : Expr) (scope : Scope) : Keeps R (lowerUpdate prim op target e scope) :=
  hR.keeps (follows_lowerUpdate prim hR.toEmitting hop target e scope)

mutual

theorem keeps_lowerStmt : (stmt : Stmt) → ∀ scope, Keeps R (lowerStmt prim stmt scope)
  | .letIn name _ e, scope => by
    rw [lowerStmt]
    exact hR.keeps_bind hR.keeps_vreg fun v => hR.keeps_bind (keeps_expr prim hR e v _) fun _ => hR.keeps_pure _
  | .assign target e, scope => by
    rw [lowerStmt]
    exact hR.keeps_bind hR.keeps_vreg fun v => hR.keeps_bind (keeps_expr prim hR e v scope) fun _ =>
      hR.keeps_bind (hR.keeps (follows_storeLValue prim hR.toEmitting target v scope)) fun _ => hR.keeps_pure _
  | .assignAdd target e, scope => by
    rw [lowerStmt]
    exact hR.keeps_bind (keeps_update prim hR (fun _ _ _ => rfl) target e scope) fun _ => hR.keeps_pure _
  | .assignSub target e, scope => by
    rw [lowerStmt]
    exact hR.keeps_bind (keeps_update prim hR (fun _ _ _ => rfl) target e scope) fun _ => hR.keeps_pure _
  | .assignMul target e, scope => by
    rw [lowerStmt]
    exact hR.keeps_bind (keeps_update prim hR (fun _ _ _ => rfl) target e scope) fun _ => hR.keeps_pure _
  | .assignDiv target e, scope => by
    rw [lowerStmt]
    exact hR.keeps_bind (keeps_update prim hR (fun _ _ _ => rfl) target e scope) fun _ => hR.keeps_pure _
  | .forRange var start stop body, scope => by
    rw [lowerStmt]
    refine hR.keeps_bind hR.keeps_vreg fun iV => hR.keeps_bind hR.keeps_vreg fun endV =>
      hR.keeps_bind hR.keeps_vreg fun condV => ?_
    refine hR.labels fun first hfirst => hR.labels fun last hlast => ?_
    refine hR.keeps_bind (keeps_expr prim hR start iV scope) fun _ =>
      hR.keeps_bind (keeps_expr prim hR stop endV scope) fun _ => ?_
    refine hR.keeps_bind (hR.keeps_pushLoop _ _) fun _ => hR.keeps_bind (hR.keeps_mark hfirst) fun _ => ?_
    refine hR.keeps_bind (hR.keeps_push rfl) fun _ => hR.keeps_bind (hR.keeps_push rfl) fun _ => ?_
    refine hR.keeps_bind (keeps_lowerBody body _) fun _ => hR.keeps_bind hR.keeps_vreg fun one => ?_
    refine hR.keeps_bind (hR.keeps_push rfl) fun _ => hR.keeps_bind (hR.keeps_push rfl) fun _ => ?_
    refine hR.keeps_bind (hR.keeps_push rfl) fun _ => hR.keeps_bind (hR.keeps_mark hlast) fun _ => ?_
    exact hR.keeps_bind hR.keeps_popLoop fun _ => hR.keeps_pure _
  | .require e, scope => by
    rw [lowerStmt]
    exact hR.keeps_bind hR.keeps_vreg fun v => hR.keeps_bind (keeps_expr prim hR e v scope) fun _ =>
      hR.keeps_bind (hR.keeps_push rfl) fun _ => hR.keeps_pure _
  | .revert error, scope => by
    rw [lowerStmt]
    exact hR.keeps_bind (hR.keeps hR.get) fun s => hR.keeps_bind (hR.keeps_push rfl) fun _ => hR.keeps_pure _
  | .ret exprs, scope => by
    have hend : Keeps R (push .halt >>= fun _ => (pure scope : LowerM Scope)) :=
      hR.keeps_bind (hR.keeps_push rfl) fun _ => hR.keeps_pure _
    rcases exprs with _ | ⟨e, _ | ⟨e', es⟩⟩
    · rw [lowerStmt]
      exact hend
    · rw [lowerStmt]
      refine hR.keeps_bind hR.keeps_vreg fun v => hR.keeps_bind (keeps_expr prim hR e v scope) fun _ => ?_
      exact hR.keeps_bind hR.keeps_vreg fun w => hR.keeps_bind (hR.keeps_push rfl) fun _ =>
        hR.keeps_bind (hR.keeps_push rfl) fun _ => hend
    · rw [lowerStmt]
      · refine hR.keeps_bind (hR.keeps_push rfl) fun _ => ?_
        refine hR.keeps_bind (hR.keeps (follows_lowerPacked prim hR.toEmitting _ scope)) fun _ => ?_
        exact hR.keeps_bind (hR.keeps_push rfl) fun _ => hend
      · nofun
      · nofun
  | .emit event fields, scope => by
    rw [lowerStmt]
    refine hR.keeps_bind hR.keeps_vreg fun tv => hR.keeps_bind (hR.keeps_push rfl) fun _ => ?_
    split
    · exact hR.keeps_bind hR.keeps_vreg fun dv => hR.keeps_bind hR.keeps_vreg fun lv =>
        hR.keeps_bind (hR.keeps_push rfl) fun _ =>
        hR.keeps_bind (hR.keeps_push rfl) fun _ => hR.keeps_bind (hR.keeps_push rfl) fun _ => hR.keeps_pure _
    · exact hR.keeps_bind (hR.keeps (follows_lowerFields prim hR.toEmitting event _ scope)) fun _ =>
        hR.keeps_pure _
  | .ifElse cond thenBody elseBody, scope => by
    rw [lowerStmt]
    refine hR.keeps_bind hR.keeps_vreg fun cv => hR.keeps_bind (keeps_expr prim hR cond cv scope) fun _ => ?_
    refine hR.labels fun other hother => hR.labels fun last hlast => hR.keeps_bind (hR.keeps_push rfl) fun _ => ?_
    refine hR.keeps_bind (keeps_lowerBody thenBody scope) fun _ => hR.keeps_bind (hR.keeps_push rfl) fun _ => ?_
    refine hR.keeps_bind (hR.keeps_mark hother) fun _ => ?_
    refine hR.keeps_bind (keeps_lowerBody elseBody scope) fun _ => ?_
    exact hR.keeps_bind (hR.keeps_mark hlast) fun _ => hR.keeps_pure _
  | .while cond body, scope => by
    rw [lowerStmt]
    refine hR.labels fun first hfirst => hR.labels fun last hlast => ?_
    refine hR.keeps_bind (hR.keeps_pushLoop _ _) fun _ => hR.keeps_bind (hR.keeps_mark hfirst) fun _ => ?_
    refine hR.keeps_bind hR.keeps_vreg fun cv => hR.keeps_bind (keeps_expr prim hR cond cv scope) fun _ => ?_
    refine hR.keeps_bind (hR.keeps_push rfl) fun _ => hR.keeps_bind (keeps_lowerBody body scope) fun _ => ?_
    refine hR.keeps_bind (hR.keeps_push rfl) fun _ => hR.keeps_bind (hR.keeps_mark hlast) fun _ => ?_
    exact hR.keeps_bind hR.keeps_popLoop fun _ => hR.keeps_pure _
  | .loop body, scope => by
    rw [lowerStmt]
    refine hR.labels fun first hfirst => hR.labels fun last hlast => ?_
    refine hR.keeps_bind (hR.keeps_pushLoop _ _) fun _ => hR.keeps_bind (hR.keeps_mark hfirst) fun _ => ?_
    refine hR.keeps_bind (keeps_lowerBody body scope) fun _ => hR.keeps_bind (hR.keeps_push rfl) fun _ => ?_
    refine hR.keeps_bind (hR.keeps_mark hlast) fun _ => ?_
    exact hR.keeps_bind hR.keeps_popLoop fun _ => hR.keeps_pure _
  | .break, scope => by
    rw [lowerStmt]
    exact hR.keeps_bind (hR.keeps hR.get) fun s => hR.keeps_bind (hR.keeps_expect _) fun _ =>
      hR.keeps_bind (hR.keeps_push rfl) fun _ => hR.keeps_pure _
  | .continue, scope => by
    rw [lowerStmt]
    exact hR.keeps_bind (hR.keeps hR.get) fun s => hR.keeps_bind (hR.keeps_expect _) fun _ =>
      hR.keeps_bind (hR.keeps_push rfl) fun _ => hR.keeps_pure _
  | .expr e, scope => by
    rw [lowerStmt]
    exact hR.keeps_bind hR.keeps_vreg fun v => hR.keeps_bind (keeps_expr prim hR e v scope) fun _ =>
      hR.keeps_pure _

theorem keeps_lowerBody : (stmts : List Stmt) → ∀ scope, Keeps R (lowerBody prim stmts scope)
  | [], scope => by
    rw [lowerBody]
    exact hR.keeps_pure _
  | stmt :: stmts, scope => by
    rw [lowerBody]
    exact hR.keeps_bind (keeps_lowerStmt stmt scope) fun scope' => keeps_lowerBody stmts scope'

end

end Statements

theorem follows_loadParams {R : Lowerer → Lowerer → Prop} (hR : Emitting R) (params : List (Param × ℕ))
    (scope : Scope) : Follows R (loadParams params scope) := by
  induction params generalizing scope with
  | nil => exact hR.pure _
  | cons p params ih =>
    exact hR.bind hR.vreg fun v => hR.bind hR.vreg fun w => hR.bind (hR.push rfl) fun _ =>
      hR.bind (hR.push rfl) fun _ => ih _

end TruthLinked.Compiler.Frames
