import TruthLinked.Compiler.OwnershipCheck

/-! # The type checker

`check` of `typeck.rs`: the types of the expressions, the targets of the assignments, the errors that are
reverted with, and the ownership of the parameters. It compares no names: two functions, or two parameters of
one function, may share theirs, and `init` may be the name of a function. -/

namespace TruthLinked.Compiler.TypeCheck

open Core.Types Compiler.Ast
open Compiler.OwnershipCheck (checkOwnership)

/-- The types of the names in scope. -/
abbrev Types := Map String Ty

/-- `{:?}` of a type. Nothing in an identifier is escaped. -/
def debugTy : Ty → String
  | .u64 => "U64"
  | .u128 => "U128"
  | .u256 => "U256"
  | .address => "Address"
  | .bool => "Bool"
  | .mapping key value => s!"Mapping({debugTy key}, {debugTy value})"
  | .array elem => s!"Array({debugTy elem})"
  | .struct name => s!"Struct(\"{name}\")"

/-- `TypeChecker`. -/
structure TypeChecker where
  cell : CellDef
  errors : List String
  storage : Types
  structs : Map String (List FieldDef)

/-- `TypeChecker::new`. -/
def TypeChecker.new (cell : CellDef) : TypeChecker where
  cell := cell
  errors := cell.errors
  storage := cell.storage.foldl (fun m s => m.insert s.name s.ty) ∅
  structs := cell.structs.foldl (fun m s => m.insert s.name s.fields) ∅

/-- `params_scope`. -/
def paramsScope (params : List Param) : Types := params.foldl (fun m p => m.insert p.name p.ty) ∅

/-- `check_assignable`. -/
def checkAssignable (src dst : Ty) (target : String) : Except String Unit :=
  if src = dst then pure ()
  else if src = .u256 ∧ dst ∈ [Ty.u64, .u128, .u256] then pure ()
  else if src = .u64 ∧ dst ∈ [Ty.u128, .u256] then pure ()
  else if src = .u128 ∧ dst = .u256 then pure ()
  else if src ∈ [Ty.u64, .u256] ∧ dst = .bool then pure ()
  else if src = .bool ∧ dst ∈ [Ty.u64, .u128, .u256] then pure ()
  else throw s!"type mismatch for '{target}': cannot assign {debugTy src} to {debugTy dst}"

/-- The type of an element. -/
def elemTy (error : String) : Ty → Except String Ty
  | .mapping _ value => pure value
  | .array elem => pure elem
  | _ => throw error

section Checker
variable (tc : TypeChecker)

/-- The type of a field. -/
def fieldTy (error field : String) : Ty → Except String Ty
  | .struct name =>
    match tc.structs[name]? with
    | none => throw s!"unknown struct '{name}'"
    | some fields =>
      match fields.find? fun f => f.name = field with
      | none => throw s!"struct '{name}' has no field '{field}'"
      | some f => pure f.ty
  | _ => throw error

/-- The type of a name that is assigned to: storage comes before the scope. -/
def targetTy (name : String) (scope : Types) : Except String Ty :=
  match tc.storage[name]?.or scope[name]? with
  | some ty => pure ty
  | none => throw s!"undefined variable '{name}'"

/-- `lvalue_type`. -/
def lvalueType : LValue → Types → Except String Ty
  | .var name, scope => targetTy tc name scope
  | .index base _, scope => do elemTy s!"'{base}' is not indexable" (← targetTy tc base scope)
  | .field base field, scope => do fieldTy tc s!"'{base}' is not a struct" field (← targetTy tc base scope)

/-- The type of a result. -/
def resultTy : Option (List Ty) → Ty
  | some [ty] => ty
  | some (_ :: _ :: _) => .u256
  | _ => .bool

/-- `infer`. The arguments of a call, and what is hashed, are not looked at. -/
def infer (scope : Types) : Expr → Except String Ty
  | .int v => pure (if v < 2 ^ 64 then .u64 else if v < 2 ^ 128 then .u128 else .u256)
  | .bytes _ => pure .u256
  | .caller | .owner | .selfAddr => pure .address
  | .height | .timestamp => pure .u64
  | .value => pure .u128
  | .var name =>
    match scope[name]?.or tc.storage[name]? with
    | some ty => pure ty
    | none => if name = "value" then pure .u128 else throw s!"undefined variable '{name}'"
  | .index base key => do
    let baseTy ← infer scope base
    let _ ← infer scope key
    elemTy "index operator requires mapping or array" baseTy
  | .field base field => do fieldTy tc "field access on non-struct type" field (← infer scope base)
  | .hash _ => pure .u256
  | .not inner => do
    let _ ← infer scope inner
    pure .bool
  | .bin op lhs rhs => do
    let lt ← infer scope lhs
    let _ ← infer scope rhs
    pure (if op ∈ [BinOp.eq, .ne, .lt, .le, .gt, .ge, .logicAnd, .logicOr] then .bool else lt)
  | .tokenBalance _ _ => pure .u128
  | .tokenTransfer _ _ _ _ | .tokenMint _ _ _ | .tokenBurn _ _ _ => pure .bool
  | .accordRequest _ _ _ | .accordRead _ => pure .u256
  | .callCell _ method _ ret =>
    match ret with
    | some ty => pure ty
    | none => throw
      s!"cross-cell call to '{method}' has no declared return type - use `call x.{method}(...) -> type`"
  | .call name _ =>
    match tc.cell.fns.find? fun f => f.name = name with
    | some f => pure (resultTy f.ret)
    | none => throw s!"call to undefined function '{name}'"

/-- The name of the target of an assignment, in an error. -/
def targetName : LValue → String
  | .var name => name
  | _ => "target"

/-- An assignment. -/
def checkAssign (target : LValue) (expr : Expr) (scope : Types) : Except String Types := do
  let rhsTy ← infer tc scope expr
  let dstTy ← lvalueType tc target scope
  checkAssignable rhsTy dstTy (targetName target)
  pure scope

mutual

/-- `check_stmt`; the result is the scope after the statement. -/
def checkStmt (ret : Option (List Ty)) : Stmt → Types → Except String Types
  | .letIn name ty expr, scope => do
    let inferred ← infer tc scope expr
    match ty with
    | some declared =>
      checkAssignable inferred declared name
      pure (scope.insert name declared)
    | none => pure (scope.insert name inferred)
  | .assign target expr, scope => checkAssign tc target expr scope
  | .assignAdd target expr, scope => checkAssign tc target expr scope
  | .assignSub target expr, scope => checkAssign tc target expr scope
  | .assignMul target expr, scope => checkAssign tc target expr scope
  | .assignDiv target expr, scope => checkAssign tc target expr scope
  | .require expr, scope => do
    let _ ← infer tc scope expr
    pure scope
  | .revert error, scope =>
    if error ∈ tc.errors then pure scope else throw s!"revert '{error}': error not declared"
  | .ret exprs, scope => do
    match ret with
    | none => pure scope
    | some types =>
      if exprs.length ≠ types.length then
        throw s!"return arity mismatch: expected {types.length} values, got {exprs.length}"
      (exprs.zip types).forM fun p => do checkAssignable (← infer tc scope p.1) p.2 "return"
      pure scope
  | .emit _ fields, scope => do
    fields.forM fun f => do
      let _ ← infer tc scope f.2
    pure scope
  | .ifElse cond thenBody elseBody, scope => do
    let _ ← infer tc scope cond
    checkBody ret thenBody scope
    checkBody ret elseBody scope
    pure scope
  | .while cond body, scope => do
    let _ ← infer tc scope cond
    checkBody ret body scope
    pure scope
  | .forRange var start stop body, scope => do
    let _ ← infer tc scope start
    let _ ← infer tc scope stop
    checkBody ret body (scope.insert var .u64)
    pure scope
  | .loop body, scope => do
    checkBody ret body scope
    pure scope
  | .break, scope => pure scope
  | .continue, scope => pure scope
  | .expr expr, scope => do
    let _ ← infer tc scope expr
    pure scope

/-- `check_body`. -/
def checkBody (ret : Option (List Ty)) : List Stmt → Types → Except String Unit
  | [], _ => pure ()
  | stmt :: stmts, scope => do
    let scope' ← checkStmt ret stmt scope
    checkBody ret stmts scope'

end

/-- `TypeChecker::check`. -/
def TypeChecker.check : Except String Unit := do
  match tc.cell.init with
  | some init =>
    checkBody tc none init.body (paramsScope init.params)
    checkOwnership init.body init.params
  | none => pure ()
  tc.cell.fns.forM fun f => do
    checkBody tc f.ret f.body (paramsScope f.params)
    checkOwnership f.body f.params

end Checker

/-- `check`. -/
def check (cell : CellDef) : Except String Unit := (TypeChecker.new cell).check

end TruthLinked.Compiler.TypeCheck
