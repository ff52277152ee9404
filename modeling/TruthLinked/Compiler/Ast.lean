import TruthLinked.Core.Types

/-! # The syntax of `.cell` sources

The trees of `ast.rs`, and the virtual instructions of the SDK's `ir.rs` that they are lowered to. -/

namespace TruthLinked.Compiler.Ast

open Core.Types

/-! ## Sources -/

/-- `Type`. -/
inductive Ty where
  | u64
  | u128
  | u256
  | address
  | bool
  | mapping (key value : Ty)
  | array (elem : Ty)
  | struct (name : String)
  deriving DecidableEq

/-- `BinOp`. -/
inductive BinOp where
  | add | sub | mul | div | rem
  | and | or | xor | shl | shr
  | eq | ne | lt | le | gt | ge
  | logicAnd | logicOr
  deriving DecidableEq

/-- `Expr`. -/
inductive Expr where
  | int (value : ℕ)
  | bytes (data : Bytes)
  | var (name : String)
  | index (base key : Expr)
  | field (base : Expr) (field : String)
  | caller
  | owner
  | height
  | timestamp
  | value
  | bin (op : BinOp) (lhs rhs : Expr)
  | not (inner : Expr)
  | callCell (cell : Expr) (method : String) (args : List Expr) (ret : Option Ty)
  | tokenBalance (token account : Expr)
  | tokenTransfer (token src dst amount : Expr)
  | tokenMint (token dst amount : Expr)
  | tokenBurn (token owner amount : Expr)
  | hash (inner : Expr)
  | call (name : String) (args : List Expr)
  | accordRequest (url method body : Expr)
  | accordRead (requestId : Expr)
  | selfAddr

/-- `LValue`. -/
inductive LValue where
  | var (name : String)
  | index (base : String) (key : Expr)
  | field (base field : String)

/-- `Stmt`. -/
inductive Stmt where
  | letIn (name : String) (ty : Option Ty) (expr : Expr)
  | assign (target : LValue) (expr : Expr)
  | assignAdd (target : LValue) (expr : Expr)
  | assignSub (target : LValue) (expr : Expr)
  | assignMul (target : LValue) (expr : Expr)
  | assignDiv (target : LValue) (expr : Expr)
  | require (expr : Expr)
  | revert (error : String)
  | ret (exprs : List Expr)
  | emit (event : String) (fields : List (String × Expr))
  | ifElse (cond : Expr) (thenBody elseBody : List Stmt)
  | while (cond : Expr) (body : List Stmt)
  | forRange (var : String) (start stop : Expr) (body : List Stmt)
  | loop (body : List Stmt)
  | break
  | continue
  | expr (expr : Expr)

/-- `Param`. -/
structure Param where
  name : String
  ty : Ty
  owned : Bool
  deriving DecidableEq

/-- `FnDef`. -/
structure FnDef where
  name : String
  isPublic : Bool
  params : List Param
  ret : Option (List Ty)
  body : List Stmt

/-- `InitDef`. -/
structure InitDef where
  params : List Param
  body : List Stmt

/-- `FieldDef`. -/
structure FieldDef where
  name : String
  ty : Ty
  deriving DecidableEq

/-- `StructDef`. -/
structure StructDef where
  name : String
  fields : List FieldDef
  deriving DecidableEq

/-- `StorageDecl`. -/
structure StorageDecl where
  name : String
  ty : Ty
  commutative : Bool
  deriving DecidableEq

/-- `CellDef`. -/
structure CellDef where
  name : String
  structs : List StructDef
  errors : List String
  storage : List StorageDecl
  init : Option InitDef
  fns : List FnDef

/-! ## Virtual instructions -/

/-- `VReg`, a `u32` that only a source text of hundreds of megabytes runs through. -/
abbrev VReg := ℕ

/-- `Label`, like a register. -/
abbrev Label := ℕ

/-- `Ir`. -/
inductive Ir where
  | add (d a b : VReg)
  | sub (d a b : VReg)
  | mul (d a b : VReg)
  | div (d a b : VReg)
  | mod (d a b : VReg)
  | addSat (d a b : VReg)
  | subSat (d a b : VReg)
  | and (d a b : VReg)
  | or (d a b : VReg)
  | xor (d a b : VReg)
  | not (d a : VReg)
  | shl (d a : VReg) (shift : ℕ)
  | shr (d a : VReg) (shift : ℕ)
  | eq (d a b : VReg)
  | ne (d a b : VReg)
  | lt (d a b : VReg)
  | lte (d a b : VReg)
  | gt (d a b : VReg)
  | gte (d a b : VReg)
  | isZero (d a : VReg)
  | label (l : Label)
  | jump (l : Label)
  | jumpIf (c : VReg) (l : Label)
  | jumpIfNot (c : VReg) (l : Label)
  | call (l : Label)
  | return
  | halt
  | trap (code : ℕ)
  | loadConst (d : VReg) (data : Bytes)
  | loadConstIndex (d : VReg) (data : Bytes)
  | loadImm8 (d : VReg) (imm : ℕ)
  | loadImm64 (d : VReg) (imm : ℕ)
  | mov (d a : VReg)
  | sLoad (d key : VReg)
  | sStore (key val : VReg)
  | sDelete (key : VReg)
  | getCaller (d : VReg)
  | getOwner (d : VReg)
  | getCellId (d : VReg)
  | getHeight (d : VReg)
  | getTimestamp (d : VReg)
  | getValue (d : VReg)
  | getCalldataLen (d : VReg)
  | getCalldata (d off : VReg)
  | setReturn (idx len : VReg)
  | setReturnReg (val len : VReg)
  | emitLog (topics data : VReg)
  | emitLogReg (topic data len : VReg)
  | callCell (cell calldata len val : VReg)
  | bufReset
  | bufWriteConst (data : Bytes)
  | bufWriteReg (a : VReg)
  | bufCallCell (cell val : VReg)
  | bufSetReturn
  | hash32 (d a : VReg)
  | hash32Const (d : VReg) (data : Bytes)
  | requireOwner
  | requireCaller (a : VReg)
  | requireEq (a b : VReg)
  | requireNe (a b : VReg)
  | requireLt (a b : VReg)
  | requireNonZero (a : VReg)
  | requireGas (gas : ℕ)
  | tokenBalance (d token account : VReg)
  | tokenTransfer (token src dst amount : VReg)
  | tokenMint (token dst amount : VReg)
  | tokenBurn (token owner amount : VReg)
  | tokenFreeze (token account : VReg)
  | tokenThaw (token account : VReg)
  | accordRequest (d url method body : VReg)
  | accordRead (d requestId : VReg)
  deriving DecidableEq

end TruthLinked.Compiler.Ast
