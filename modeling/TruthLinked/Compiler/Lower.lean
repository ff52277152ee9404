import TruthLinked.Compiler.Ast
import TruthLinked.Consensus.Types

/-! # Lowering of a cell

`lower.rs`: a dispatch table over the selectors, the bodies of the public functions and of `init`, and the
private functions as subroutines. -/

namespace TruthLinked.Compiler.Lower

open Core.Types Consensus.Types Compiler.Ast

/-- The bytes of a name (`as_bytes`). -/
def nameBytes (name : String) : Bytes := name.toUTF8.toList

/-- `selector_of`. -/
def selectorOf (name : String) : Bytes :=
  leBytes 4 ((nameBytes name).foldl (fun h b => (h ^^^ b.toNat) * 0x01000193 % 2 ^ 32) 0x811c9dc5)

/-- `hashing::namespace`. -/
def namespaceKey (prim : Primitives) (name : String) : Bytes32 := prim.sha256 (nameBytes name)

/-- Local names and their registers. -/
abbrev Scope := Map String VReg

/-- `Lowerer`. -/
structure Lowerer where
  ir : List Ir
  nextVReg : VReg
  nextLabel : Label
  slotKeys : Map String Bytes
  errorCodes : Map String ℕ
  helpers : Map String (Label × List VReg × VReg)
  breakStack : List Label
  continueStack : List Label

/-- `Lowerer::new`. -/
def Lowerer.new (prim : Primitives) (cell : CellDef) : Lowerer where
  ir := []
  nextVReg := 1
  nextLabel := 0
  slotKeys := cell.storage.foldl (fun m s => m.insert s.name (ofBytes32 (namespaceKey prim s.name))) ∅
  errorCodes := cell.errors.zipIdx.foldl (fun m e => m.insert e.1 ((e.2 + 1) % 2 ^ 16)) ∅
  helpers := ∅
  breakStack := []
  continueStack := []

/-- A step of the lowerer; `none` is a panic. -/
abbrev LowerM := StateT Lowerer Option

/-- `vreg`. -/
def vreg : LowerM VReg := fun s => some (s.nextVReg, { s with nextVReg := s.nextVReg + 1 })

/-- `label`. -/
def label : LowerM Label := fun s => some (s.nextLabel, { s with nextLabel := s.nextLabel + 1 })

/-- `push`. -/
def push (ir : Ir) : LowerM Unit := fun s => some ((), { s with ir := s.ir ++ [ir] })

/-- The key of a slot, or the hash of any other name. -/
def slotKey (prim : Primitives) (base : String) : LowerM Bytes :=
  fun s => some (s.slotKeys[base]?.getD (ofBytes32 (namespaceKey prim base)), s)

/-- `load_var_or_slot`. -/
def loadVarOrSlot (name : String) (dst : VReg) (scope : Scope) : LowerM Unit := do
  match scope[name]? with
  | some v => push (.mov dst v)
  | none =>
    match (← get).slotKeys[name]? with
    | some key =>
      let kv ← vreg
      push (.loadConst kv key)
      push (.sLoad dst kv)
    | none => if name = "value" then push (.getValue dst)

/-- `store_var_or_slot`. -/
def storeVarOrSlot (name : String) (src : VReg) (scope : Scope) : LowerM Unit := do
  match (← get).slotKeys[name]? with
  | some key =>
    let kv ← vreg
    push (.loadConst kv key)
    push (.sStore kv src)
  | none =>
    match scope[name]? with
    | some v => push (.mov v src)
    | none => pure ()

/-- The register with the key of an element: the hash of the slot key XOR the key in `keyV`. -/
def indexKey (slot : Bytes) (keyV : VReg) : LowerM VReg := do
  let slotV ← vreg
  push (.loadConst slotV slot)
  let derivedV ← vreg
  push (.xor derivedV slotV keyV)
  push (.hash32 derivedV derivedV)
  pure derivedV

/-- The register with the key of a field. -/
def fieldKey (prim : Primitives) (base field : String) : LowerM VReg := do
  let derived := prim.sha256 (ofBytes32 (namespaceKey prim base) ++ nameBytes field)
  let kv ← vreg
  push (.loadConst kv (ofBytes32 derived))
  pure kv

/-- The instruction of a binary operator that is not a shift. -/
def binIr : BinOp → VReg → VReg → VReg → Ir
  | .add => .add
  | .sub => .sub
  | .mul => .mul
  | .div => .div
  | .rem => .mod
  | .and => .and
  | .or => .or
  | .xor => .xor
  | .shl => fun dst lv _ => .shl dst lv 0
  | .shr => fun dst lv _ => .shr dst lv 0
  | .eq => .eq
  | .ne => .ne
  | .lt => .lt
  | .le => .lte
  | .gt => .gt
  | .ge => .gte
  | .logicAnd => .and
  | .logicOr => .or

/-- The constant amount of a shift, which is an operand of the instruction. -/
def shiftAmount : BinOp → Expr → Option ℕ
  | .shl, .int n => some (n % 256)
  | .shr, .int n => some (n % 256)
  | _, _ => none

/-- The instruction of a shift by a constant. -/
def shiftIr (op : BinOp) (dst lv : VReg) (shift : ℕ) : Ir :=
  if op = .shl then .shl dst lv shift else .shr dst lv shift

/-! ## Expressions -/

section Expressions
variable (prim : Primitives)

mutual

/-- `lower_expr_into`. -/
def lowerExprInto : Expr → VReg → Scope → LowerM Unit
  | .int v, dst, _ =>
    if v < 2 ^ 64 then push (.loadImm64 dst v)
    else push (.loadConst dst (leBytes 16 v ++ List.replicate 16 0))
  | .bytes data, dst, _ => push (.loadConstIndex dst data)
  | .var name, dst, scope => loadVarOrSlot name dst scope
  | .caller, dst, _ => push (.getCaller dst)
  | .owner, dst, _ => push (.getOwner dst)
  | .selfAddr, dst, _ => push (.getCellId dst)
  | .height, dst, _ => push (.getHeight dst)
  | .timestamp, dst, _ => push (.getTimestamp dst)
  | .value, dst, _ => push (.getValue dst)
  | .not inner, dst, scope => do
    let v ← vreg
    lowerExprInto inner v scope
    push (.isZero dst v)
  | .bin op lhs rhs, dst, scope => do
    match shiftAmount op rhs with
    | some shift =>
      let lv ← vreg
      lowerExprInto lhs lv scope
      push (shiftIr op dst lv shift)
    | none =>
      if op = .shl ∨ op = .shr then
        -- a shift by an amount that is not constant shifts by zero
        let lv ← vreg
        lowerExprInto lhs lv scope
        let rv ← vreg
        lowerExprInto rhs rv scope
        push (binIr op dst lv rv)
      else
        let lv ← vreg
        let rv ← vreg
        lowerExprInto lhs lv scope
        lowerExprInto rhs rv scope
        push (binIr op dst lv rv)
  | .tokenBalance token account, dst, scope => do
    let tv ← vreg
    let av ← vreg
    lowerExprInto token tv scope
    lowerExprInto account av scope
    push (.tokenBalance dst tv av)
  | .tokenTransfer token src rcpt amount, dst, scope => do
    let tv ← vreg
    let fv ← vreg
    let tov ← vreg
    let av ← vreg
    lowerExprInto token tv scope
    lowerExprInto src fv scope
    lowerExprInto rcpt tov scope
    lowerExprInto amount av scope
    push (.tokenTransfer tv fv tov av)
    push (.mov dst 1)
  | .tokenMint token rcpt amount, dst, scope => do
    let tv ← vreg
    let tov ← vreg
    let av ← vreg
    lowerExprInto token tv scope
    lowerExprInto rcpt tov scope
    lowerExprInto amount av scope
    push (.tokenMint tv tov av)
    push (.mov dst 1)
  | .tokenBurn token holder amount, dst, scope => do
    let tv ← vreg
    let ov ← vreg
    let av ← vreg
    lowerExprInto token tv scope
    lowerExprInto holder ov scope
    lowerExprInto amount av scope
    push (.tokenBurn tv ov av)
    push (.mov dst 1)
  | .callCell cell method args _, dst, scope => do
    let cellV ← vreg
    lowerExprInto cell cellV scope
    push .bufReset
    push (.bufWriteConst (selectorOf method))
    lowerPacked args scope
    let valV ← vreg
    push (.loadImm8 valV 0)
    push (.bufCallCell cellV valV)
    push (.mov dst 1)
  | .call name args, dst, scope => do
    match (← get).helpers[name]? with
    | some (lbl, argVRegs, retVReg) =>
      lowerArgs args argVRegs scope
      push (.call lbl)
      push (.mov dst retVReg)
    | none => pure ()
  | .hash inner, dst, scope => do
    let v ← vreg
    lowerExprInto inner v scope
    push (.hash32 dst v)
  | .index (.var base) key, dst, scope => do
    let slot ← slotKey prim base
    let keyV ← vreg
    lowerExprInto key keyV scope
    let derivedV ← indexKey slot keyV
    push (.sLoad dst derivedV)
  | .index _ _, dst, _ => push (.loadImm8 dst 0)
  | .field (.var base) field, dst, _ => do
    let kv ← fieldKey prim base field
    push (.sLoad dst kv)
  | .field _ _, dst, _ => push (.loadImm8 dst 0)
  | .accordRequest url method body, dst, scope => do
    let urlV ← vreg
    let methV ← vreg
    let bodyV ← vreg
    lowerExprInto url urlV scope
    match method with
    | .bytes data => push (.loadConst methV data)
    | _ => lowerExprInto method methV scope
    lowerExprInto body bodyV scope
    push (.accordRequest dst urlV methV bodyV)
  | .accordRead requestId, dst, scope => do
    let reqV ← vreg
    lowerExprInto requestId reqV scope
    push (.accordRead dst reqV)

/-- Values that are appended to the call buffer. -/
def lowerPacked : List Expr → Scope → LowerM Unit
  | [], _ => pure ()
  | e :: es, scope => do
    let v ← vreg
    lowerExprInto e v scope
    push (.bufWriteReg v)
    lowerPacked es scope

/-- The arguments of a private function, each in the register of its parameter. -/
def lowerArgs : List Expr → List VReg → Scope → LowerM Unit
  | e :: es, v :: vs, scope => do
    lowerExprInto e v scope
    lowerArgs es vs scope
  | _, _, _ => pure ()

end

/-! ## Statements -/

/-- `load_lvalue`. -/
def loadLValue : LValue → VReg → Scope → LowerM Unit
  | .var name, dst, scope => loadVarOrSlot name dst scope
  | .index base key, dst, scope => do
    let slot ← slotKey prim base
    let keyV ← vreg
    lowerExprInto prim key keyV scope
    let derivedV ← indexKey slot keyV
    push (.sLoad dst derivedV)
  | .field base field, dst, _ => do
    let kv ← fieldKey prim base field
    push (.sLoad dst kv)

/-- `store_lvalue`. -/
def storeLValue : LValue → VReg → Scope → LowerM Unit
  | .var name, src, scope => storeVarOrSlot name src scope
  | .index base key, src, scope => do
    let slot ← slotKey prim base
    let keyV ← vreg
    lowerExprInto prim key keyV scope
    let derivedV ← indexKey slot keyV
    push (.sStore derivedV src)
  | .field base field, src, _ => do
    let kv ← fieldKey prim base field
    push (.sStore kv src)

/-- An assignment that changes a value by an operation. -/
def lowerUpdate (op : VReg → VReg → VReg → Ir) (target : LValue) (expr : Expr) (scope : Scope) : LowerM Unit := do
  let rhs ← vreg
  lowerExprInto prim expr rhs scope
  let cur ← vreg
  loadLValue prim target cur scope
  let res ← vreg
  push (op res cur rhs)
  storeLValue prim target res scope

/-- One log entry for each field of an event. -/
def lowerFields (event : String) : List ((String × Expr) × ℕ) → Scope → LowerM Unit
  | [], _ => pure ()
  | ((_, e), idx) :: fields, scope => do
    let topicV ← vreg
    push (.hash32Const topicV (nameBytes event ++ [UInt8.ofNat idx]))
    let dataV ← vreg
    lowerExprInto prim e dataV scope
    let lenV ← vreg
    push (.loadImm8 lenV 32)
    push (.emitLogReg topicV dataV lenV)
    lowerFields event fields scope

/-- Code between the entry and the exit of a loop. -/
def pushLoop (breakLabel continueLabel : Label) : LowerM Unit :=
  fun s => some ((), { s with breakStack := breakLabel :: s.breakStack
                              continueStack := continueLabel :: s.continueStack })

/-- The loop is closed. -/
def popLoop : LowerM Unit :=
  fun s => some ((), { s with breakStack := s.breakStack.tail, continueStack := s.continueStack.tail })

/-- `expect`. -/
def expect {α : Type} (o : Option α) : LowerM α := fun s => o.map fun a => (a, s)

mutual

/-- `lower_stmt`; the result is the scope after the statement. -/
def lowerStmt : Stmt → Scope → LowerM Scope
  | .letIn name _ expr, scope => do
    let dst ← vreg
    lowerExprInto prim expr dst (scope.insert name dst)
    pure (scope.insert name dst)
  | .assign target expr, scope => do
    let dst ← vreg
    lowerExprInto prim expr dst scope
    storeLValue prim target dst scope
    pure scope
  | .assignAdd target expr, scope => do
    lowerUpdate prim .add target expr scope
    pure scope
  | .assignSub target expr, scope => do
    lowerUpdate prim .sub target expr scope
    pure scope
  | .assignMul target expr, scope => do
    lowerUpdate prim .mul target expr scope
    pure scope
  | .assignDiv target expr, scope => do
    lowerUpdate prim .div target expr scope
    pure scope
  | .forRange var start stop body, scope => do
    let iV ← vreg
    let endV ← vreg
    let condV ← vreg
    let loopStart ← label
    let loopEnd ← label
    lowerExprInto prim start iV scope
    lowerExprInto prim stop endV scope
    pushLoop loopEnd loopStart
    push (.label loopStart)
    push (.lt condV iV endV)
    push (.jumpIfNot condV loopEnd)
    lowerBody body (scope.insert var iV)
    let one ← vreg
    push (.loadImm8 one 1)
    push (.add iV iV one)
    push (.jump loopStart)
    push (.label loopEnd)
    popLoop
    pure scope
  | .require expr, scope => do
    let v ← vreg
    lowerExprInto prim expr v scope
    push (.requireNonZero v)
    pure scope
  | .revert error, scope => do
    push (.trap ((← get).errorCodes[error]?.getD 0xFFFF))
    pure scope
  | .ret exprs, scope => do
    match exprs with
    | [] => pure ()
    | [e] =>
      let v ← vreg
      lowerExprInto prim e v scope
      let lenV ← vreg
      push (.loadImm8 lenV 32)
      push (.setReturnReg v lenV)
    | es =>
      push .bufReset
      lowerPacked prim es scope
      push .bufSetReturn
    push .halt
    pure scope
  | .emit event fields, scope => do
    let topicV ← vreg
    push (.hash32Const topicV (nameBytes event))
    if fields.isEmpty then
      let dataV ← vreg
      let lenV ← vreg
      push (.loadImm8 dataV 0)
      push (.loadImm8 lenV 0)
      push (.emitLogReg topicV dataV lenV)
    else
      lowerFields prim event fields.zipIdx scope
    pure scope
  | .ifElse cond thenBody elseBody, scope => do
    let cv ← vreg
    lowerExprInto prim cond cv scope
    let elseLabel ← label
    let endLabel ← label
    push (.jumpIfNot cv elseLabel)
    lowerBody thenBody scope
    push (.jump endLabel)
    push (.label elseLabel)
    lowerBody elseBody scope
    push (.label endLabel)
    pure scope
  | .while cond body, scope => do
    let loopStart ← label
    let loopEnd ← label
    pushLoop loopEnd loopStart
    push (.label loopStart)
    let cv ← vreg
    lowerExprInto prim cond cv scope
    push (.jumpIfNot cv loopEnd)
    lowerBody body scope
    push (.jump loopStart)
    push (.label loopEnd)
    popLoop
    pure scope
  | .loop body, scope => do
    let loopStart ← label
    let loopEnd ← label
    pushLoop loopEnd loopStart
    push (.label loopStart)
    lowerBody body scope
    push (.jump loopStart)
    push (.label loopEnd)
    popLoop
    pure scope
  | .break, scope => do
    push (.jump (← expect (← get).breakStack.head?))
    pure scope
  | .continue, scope => do
    push (.jump (← expect (← get).continueStack.head?))
    pure scope
  | .expr expr, scope => do
    let v ← vreg
    lowerExprInto prim expr v scope
    pure scope

/-- `lower_body`. -/
def lowerBody : List Stmt → Scope → LowerM Unit
  | [], _ => pure ()
  | stmt :: stmts, scope => do
    let scope' ← lowerStmt stmt scope
    lowerBody stmts scope'

end

end Expressions

/-! ## Cells -/

/-- A register for each of some parameters. -/
def paramVRegs : List Param → LowerM (List VReg)
  | [] => pure []
  | _ :: params => do
    let v ← vreg
    let vs ← paramVRegs params
    pure (v :: vs)

/-- Labels and registers of the private functions. -/
def reserveHelpers : List FnDef → LowerM Unit
  | [] => pure ()
  | f :: fns => do
    let lbl ← label
    let argVRegs ← paramVRegs f.params
    let retVReg ← vreg
    modify fun s => { s with helpers := s.helpers.insert f.name (lbl, argVRegs, retVReg) }
    reserveHelpers fns

/-- The jump to the handler of a selector. -/
def dispatchTo (vSel vMcd vCond : VReg) (name : String) : LowerM (String × Label) := do
  let lbl ← label
  push (.loadConst vSel (selectorOf name ++ List.replicate 28 0))
  push (.eq vCond vMcd vSel)
  push (.jumpIf vCond lbl)
  pure (name, lbl)

/-- The parameters of a handler, read from the calldata. -/
def loadParams : List (Param × ℕ) → Scope → LowerM Scope
  | [], scope => pure scope
  | (p, i) :: params, scope => do
    let v ← vreg
    let offV ← vreg
    push (.loadImm64 offV (4 + i * 32))
    push (.getCalldata v offV)
    loadParams params (scope.insert p.name v)

/-- A handler: its label, its parameters and its body. -/
def lowerHandler (prim : Primitives) (cell : CellDef) (name : String) (lbl : Label) : LowerM Unit := do
  push (.label lbl)
  if name = "init" then
    match cell.init with
    | some init => lowerBody prim init.body (← loadParams init.params.zipIdx ∅)
    | none => pure ()
  else
    let f ← expect (cell.fns.find? fun f => f.name = name)
    lowerBody prim f.body (← loadParams f.params.zipIdx ∅)
  push .halt

/-- A private function as a subroutine. -/
def lowerHelper (prim : Primitives) (f : FnDef) : LowerM Unit := do
  let (lbl, argVRegs, _) ← expect ((← get).helpers[f.name]?)
  push (.label lbl)
  lowerBody prim f.body ((f.params.zip argVRegs).foldl (fun m e => m.insert e.1.name e.2) ∅)
  push .return

/-- `Lowerer::lower`. -/
def lowerCell (prim : Primitives) (cell : CellDef) : LowerM Unit := do
  let publics := cell.fns.filter FnDef.isPublic
  let privates := cell.fns.filter fun f => !f.isPublic
  reserveHelpers privates
  let vCd ← vreg
  let vOff ← vreg
  let vSel ← vreg
  let vMask ← vreg
  let vMcd ← vreg
  let vCond ← vreg
  push (.loadImm8 vOff 0)
  push (.getCalldata vCd vOff)
  push (.loadConst vMask (List.replicate 4 0xFF ++ List.replicate 28 0))
  push (.and vMcd vCd vMask)
  let names := (if cell.init.isSome then ["init"] else []) ++ publics.map FnDef.name
  let handlers ← names.mapM (dispatchTo vSel vMcd vCond)
  push (.trap 1)
  handlers.forM fun h => lowerHandler prim cell h.1 h.2
  privates.forM (lowerHelper prim)

/-- `lower`. -/
def lower (prim : Primitives) (cell : CellDef) : Option (List Ir) :=
  ((lowerCell prim cell).run (Lowerer.new prim cell)).map fun r => r.2.ir

end TruthLinked.Compiler.Lower
