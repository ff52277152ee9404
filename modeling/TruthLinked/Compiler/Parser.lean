import TruthLinked.Compiler.Ast
import TruthLinked.Lib.Parsing

/-! # The parser

`parser.rs`, over the tokens of `lexer.rs`. The state is the tokens before the closing `Eof`, which no step
consumes: `peek` of an empty list is `Eof`, and the span of `Eof` is what the parsers read. The loops and the
recursion run on fuel; `ParserFuel` shows that the number of tokens is fuel enough. -/

namespace TruthLinked.Compiler.Parser

open Core.Types Compiler.Ast Lib.Parsing

/-! ## Tokens -/

/-- `Token`. The words that are reserved here carry the prefix `kw`. -/
inductive Token where
  | cell | pub | fn | init | kwLet | kwIf | kwElse | kwWhile | loop | kwFor | kwIn | kwBreak | kwContinue | kwReturn
  | revert | emit | call | require | storage | error | commutative | kwStruct | mapping | owned
  | u64 | u128 | u256 | address | bool
  | int (value : ℕ)
  | str (bytes : Bytes)
  | ident (name : String)
  | plus | minus | star | slash | percent | amp | pipe | caret | bang | shl | shr
  | eq | ne | lt | le | gt | ge | ampAmp | pipePipe
  | assign | plusEq | minusEq | starEq | slashEq
  | dotDot | arrow | fatArrow | dot | colonColon | colon | semicolon | comma
  | lParen | rParen | lBrace | rBrace | lBracket | rBracket
  | eof
  deriving DecidableEq

/-- `Span`. -/
structure Span where
  line : ℕ
  col : ℕ
  deriving DecidableEq

/-- `Tok`. -/
structure Tok where
  token : Token
  span : Span

/-- The texts of `ParseError`, with what their format strings are filled with. -/
inductive Msg where
  /-- `expected {want:?}, got {got:?}` -/
  | expected (want got : Token)
  /-- `expected identifier, got {got:?}` -/
  | expectedIdentifier (got : Token)
  /-- `expected type, got {got:?}` -/
  | expectedType (got : Token)
  /-- `unexpected {got:?} in cell body` -/
  | inCellBody (got : Token)
  /-- `unexpected {got:?} in expression` -/
  | inExpression (got : Token)
  /-- `unknown path {ns}::{method}` -/
  | unknownPath (ns method : String)
  /-- The call as it should be written. -/
  | usage (text : String)

/-- `ParseError`. -/
structure ParseError where
  line : ℕ
  col : ℕ
  msg : Msg

/-- A parser of `parser.rs`. -/
abbrev P (α : Type) := Parser Span Tok ParseError α

variable {α : Type}

/-- The token that `peek` sees. -/
def headToken : List Tok → Token
  | [] => .eof
  | t :: _ => t.token

def peek : P Token := do return headToken (← get)

def span : P Span := do
  match ← get with
  | [] => read
  | t :: _ => return t.span

def err (msg : Msg) : P α := do
  let s ← span
  throw ⟨s.line, s.col, msg⟩

def advance : P Unit := modify List.tail

def expect (expected : Token) : P Unit := do
  let got ← peek
  if got = expected then advance else err (.expected expected got)

def expectIdent : P String := do
  match ← peek with
  | .ident s => do
    advance
    return s
  | other => err (.expectedIdentifier other)

/-- The next token, taken if `f` knows it: `eat`, and `match self.peek() { … }; self.advance();` of the
operators. -/
def eatMap {β : Type} (f : Token → Option β) : P (Option β) := do
  match f (← peek) with
  | some b => do
    advance
    return some b
  | none => return none

def eat (t : Token) : P Bool := do return (← eatMap fun got => if got = t then some () else none).isSome

/-- `while !stops(self.peek()) { items.push(item()?); if !self.eat(&Token::Comma) { break; } }`. -/
def commaList (stops : Token → Bool) (item : P α) : ℕ → P (List α)
  | 0 => outOfFuel
  | n + 1 => do
    if stops (← peek) then return []
    let a ← item
    if ← eat .comma then return a :: (← commaList stops item n)
    return [a]

/-! ## Types and parameters -/

def parseTypeN : ℕ → P Ty
  | 0 => outOfFuel
  | n + 1 => do
    match ← peek with
    | .u64 => do advance; return .u64
    | .u128 => do advance; return .u128
    | .u256 => do advance; return .u256
    | .address => do advance; return .address
    | .bool => do advance; return .bool
    | .mapping => do
      advance
      expect .lParen
      let k ← parseTypeN n
      expect .fatArrow
      let v ← parseTypeN n
      expect .rParen
      return .mapping k v
    | .lBracket => do
      advance
      let inner ← parseTypeN n
      expect .rBracket
      return .array inner
    | other => err (.expectedType other)

def parseParam (n : ℕ) : P Param := do
  let owned ← eat .owned
  let name ← expectIdent
  expect .colon
  let ty ← parseTypeN n
  return ⟨name, ty, owned⟩

def parseParams (n : ℕ) : P (List Param) := do
  expect .lParen
  let params ← commaList (· = .rParen) (parseParam n) n
  expect .rParen
  return params

/-! ## Expressions

Every level takes `expr`, the `parse_expr` of the brackets further in. -/

/-- `)` or the end: where the lists of expressions stop. -/
def closesList (t : Token) : Bool := t = .rParen ∨ t = .eof

/-- `parse_call_args`. -/
def parseCallArgs (expr : P Expr) (n : ℕ) : P (List Expr) := do
  expect .lParen
  let args ← commaList closesList expr n
  expect .rParen
  return args

/-- The words of `parse_primary_base` that stand for themselves. -/
def builtin (s : String) : Option Expr :=
  if s = "caller" then some .caller
  else if s = "owner" then some .owner
  else if s = "height" then some .height
  else if s = "timestamp" then some .timestamp
  else if s = "value" then some (.var s)
  else if s = "self" then some .selfAddr
  else if s = "true" then some (.int 1)
  else if s = "false" then some (.int 0)
  else none

/-- The arms of a path that name the namespace. -/
def accordCall (ns method : String) (args : List Expr) : Option (P Expr) :=
  if ns = "accord" ∧ method = "request" then some <|
    match args with
    | [url, meth, body] => return .accordRequest url meth body
    | _ => err (.usage "accord::request(url, method, body)")
  else if ns = "accord" ∧ method = "read" then some <|
    match args with
    | [requestId] => return .accordRead requestId
    | _ => err (.usage "accord::read(request_id)")
  else none

/-- The arms of a path that name the method only. -/
def tokenCall (method : String) (args : List Expr) : Option (P Expr) :=
  if method = "balance" then some <|
    match args with
    | [token, account] => return .tokenBalance token account
    | _ => err (.usage "token::balance(token, account)")
  else if method = "transfer" then some <|
    match args with
    | [token, src, dst, amount] => return .tokenTransfer token src dst amount
    | _ => err (.usage "token::transfer(token, from, to, amount)")
  else if method = "mint" then some <|
    match args with
    | [token, dst, amount] => return .tokenMint token dst amount
    | _ => err (.usage "token::mint(token, to, amount)")
  else if method = "burn" then some <|
    match args with
    | [token, account, amount] => return .tokenBurn token account amount
    | _ => err (.usage "token::burn(token, owner, amount)")
  else none

/-- The `match (ns, method)` of `parse_primary_base`. -/
def pathExpr (ns method : String) (args : List Expr) : P Expr :=
  ((accordCall ns method args).or (tokenCall method args)).getD (err (.unknownPath ns method))

/-- The `match (name, method)` of `parse_assign_or_expr`, with its arms in another order. -/
def pathStmt (ns method : String) (args : List Expr) : P Expr :=
  ((tokenCall method args).or (accordCall ns method args)).getD (err (.unknownPath ns method))

/-- The `Token::Ident` arm of `parse_primary_base`, after the word. -/
def parseWord (expr : P Expr) (n : ℕ) (s : String) : P Expr :=
  match builtin s with
  | some e => return e
  | none =>
    if s = "hash" then do
      expect .lParen
      let inner ← expr
      expect .rParen
      return .hash inner
    else if s = "accord" ∨ s = "token" then do
      expect .colonColon
      let method ← expectIdent
      let args ← parseCallArgs expr n
      pathExpr s method args
    else do
      if (← peek) = .lParen then return .call s (← parseCallArgs expr n)
      return .var s

def parsePrimaryBase (expr : P Expr) (n : ℕ) : P Expr := do
  match ← peek with
  | .int v => do advance; return .int v
  | .str b => do advance; return .bytes b
  | .lParen => do
    advance
    let e ← expr
    expect .rParen
    return e
  | .call => do
    advance
    let cellName ← expectIdent
    expect .dot
    let method ← expectIdent
    let args ← parseCallArgs expr n
    if ← eat .arrow then return .callCell (.var cellName) method args (some (← parseTypeN n))
    return .callCell (.var cellName) method args none
  | .ident s => do advance; parseWord expr n s
  | other => err (.inExpression other)

/-- The loop of `parse_primary`: `expr[key]` and `expr.field`. -/
def postfixLoop (expr : P Expr) : ℕ → Expr → P Expr
  | 0, _ => outOfFuel
  | n + 1, e => do
    if ← eat .lBracket then do
      let key ← expr
      expect .rBracket
      postfixLoop expr n (.index e key)
    else if ← eat .dot then do
      let field ← expectIdent
      postfixLoop expr n (.field e field)
    else return e

def parsePrimary (expr : P Expr) (n : ℕ) : P Expr := do
  let e ← parsePrimaryBase expr n
  postfixLoop expr n e

def parseUnary (expr : P Expr) (n : ℕ) : P Expr := do
  if ← eat .bang then return .not (← parsePrimary expr n)
  parsePrimary expr n

/-- `loop { let op = match self.peek() { … }; self.advance(); let rhs = …; lhs = … }`. -/
def leftLoop (op : Token → Option BinOp) (operand : P Expr) : ℕ → Expr → P Expr
  | 0, _ => outOfFuel
  | n + 1, lhs => do
    match ← eatMap op with
    | some o => do
      let rhs ← operand
      leftLoop op operand n (.bin o lhs rhs)
    | none => return lhs

/-- A level of operators that associate to the left. -/
def parseLeft (op : Token → Option BinOp) (operand : P Expr) (n : ℕ) : P Expr := do
  let lhs ← operand
  leftLoop op operand n lhs

def mulOp : Token → Option BinOp
  | .star => some .mul
  | .slash => some .div
  | .percent => some .rem
  | _ => none

def parseMul (expr : P Expr) (n : ℕ) : P Expr := parseLeft mulOp (parseUnary expr n) n

def addOp : Token → Option BinOp
  | .plus => some .add
  | .minus => some .sub
  | .caret => some .xor
  | .shl => some .shl
  | .shr => some .shr
  | _ => none

def parseAdd (expr : P Expr) (n : ℕ) : P Expr := parseLeft addOp (parseMul expr n) n

def cmpOp : Token → Option BinOp
  | .eq => some .eq
  | .ne => some .ne
  | .lt => some .lt
  | .le => some .le
  | .gt => some .gt
  | .ge => some .ge
  | _ => none

/-- `parse_cmp`: one comparison at most. -/
def parseCmp (expr : P Expr) (n : ℕ) : P Expr := do
  let lhs ← parseAdd expr n
  match ← eatMap cmpOp with
  | some o => do
    let rhs ← parseAdd expr n
    return .bin o lhs rhs
  | none => return lhs

def parseAnd (expr : P Expr) (n : ℕ) : P Expr :=
  parseLeft (fun t => if t = .amp then some .and else none) (parseCmp expr n) n

def parseOr (expr : P Expr) (n : ℕ) : P Expr :=
  parseLeft (fun t => if t = .pipe then some .or else none) (parseAnd expr n) n

def parseLogicAnd (expr : P Expr) (n : ℕ) : P Expr :=
  parseLeft (fun t => if t = .ampAmp then some .logicAnd else none) (parseOr expr n) n

def parseLogicOr (expr : P Expr) (n : ℕ) : P Expr :=
  parseLeft (fun t => if t = .pipePipe then some .logicOr else none) (parseLogicAnd expr n) n

/-- `parse_expr`. -/
def parseExprN : ℕ → P Expr
  | 0 => outOfFuel
  | n + 1 => parseLogicOr (parseExprN n) n

/-! ## Statements -/

/-- What `parse_assign_or_expr` reads after the name. -/
def parseLValue (expr : P Expr) (name : String) : P LValue := do
  if ← eat .lBracket then do
    let key ← expr
    expect .rBracket
    return .index name key
  else if ← eat .dot then return .field name (← expectIdent)
  else return .var name

/-- `self.expect(&Token::Semicolon)?`, before the statement is returned. -/
def ended (stmt : Stmt) : P Stmt := do
  expect .semicolon
  return stmt

/-- An assignment, after its operator. -/
def parseAssigned (expr : P Expr) (assign : Expr → Stmt) : P Stmt := do
  let e ← expr
  ended (assign e)

/-- `parse_assign_or_expr`. -/
def parseAssignOrExpr (expr : P Expr) (n : ℕ) : P Stmt := do
  let name ← expectIdent
  let lvalue ← parseLValue expr name
  match ← peek with
  | .assign => do advance; parseAssigned expr (.assign lvalue)
  | .plusEq => do advance; parseAssigned expr (.assignAdd lvalue)
  | .minusEq => do advance; parseAssigned expr (.assignSub lvalue)
  | .starEq => do advance; parseAssigned expr (.assignMul lvalue)
  | .slashEq => do advance; parseAssigned expr (.assignDiv lvalue)
  | .lParen =>
    match lvalue with
    | .var _ => do
      let args ← parseCallArgs expr n
      ended (.expr (.call name args))
    -- the guard fails, and the last arm takes the token
    | _ => ended (.expr (.var name))
  | .colonColon => do
    advance
    let method ← expectIdent
    let args ← parseCallArgs expr n
    let e ← pathStmt name method args
    ended (.expr e)
  | _ => ended (.expr (.var name))

/-- The loop of `parse_block`. -/
def blockLoop (stmt : P Stmt) : ℕ → P (List Stmt)
  | 0 => outOfFuel
  | n + 1 => do
    let t ← peek
    if t = .rBrace ∨ t = .eof then return []
    let s ← stmt
    return s :: (← blockLoop stmt n)

def parseBlock (stmt : P Stmt) (n : ℕ) : P (List Stmt) := do
  expect .lBrace
  let stmts ← blockLoop stmt n
  expect .rBrace
  return stmts

/-- A field of `emit`. -/
def parseEmitField (expr : P Expr) : P (String × Expr) := do
  let fname ← expectIdent
  if ← eat .colon then return (fname, ← expr)
  return (fname, .var fname)

/-- The type that a `let` may state. -/
def parseAnnotation (n : ℕ) : P (Option Ty) := do
  if ← eat .colon then return some (← parseTypeN n)
  return none

/-- What `return` is followed by. -/
def parseReturned (expr : P Expr) (n : ℕ) : P (List Expr) := do
  if (← peek) = .lParen then parseCallArgs expr n
  else return [← expr]

/-- The arms of `parse_stmt`, over the parsers of what is further in. -/
def parseStmtWith (expr : P Expr) (stmt : P Stmt) (n : ℕ) : P Stmt := do
  match ← peek with
  | .kwLet => do
    advance
    let name ← expectIdent
    let ty ← parseAnnotation n
    expect .assign
    let e ← expr
    ended (.letIn name ty e)
  | .require => do
    advance
    let e ← expr
    ended (.require e)
  | .revert => do
    advance
    let error ← expectIdent
    ended (.revert error)
  | .kwReturn => do
    advance
    if ← eat .semicolon then return .ret []
    let exprs ← parseReturned expr n
    ended (.ret exprs)
  | .emit => do
    advance
    let event ← expectIdent
    expect .lBrace
    let fields ← commaList (· = .rBrace) (parseEmitField expr) n
    expect .rBrace
    ended (.emit event fields)
  | .kwIf => do
    advance
    let cond ← expr
    let thenBody ← parseBlock stmt n
    if ← eat .kwElse then return .ifElse cond thenBody (← parseBlock stmt n)
    return .ifElse cond thenBody []
  | .kwWhile => do
    advance
    let cond ← expr
    let body ← parseBlock stmt n
    return .while cond body
  | .kwFor => do
    advance
    let var ← expectIdent
    expect .kwIn
    let start ← expr
    expect .dotDot
    let stop ← expr
    let body ← parseBlock stmt n
    return .forRange var start stop body
  | .loop => do
    advance
    let body ← parseBlock stmt n
    return .loop body
  | .kwBreak => do
    advance
    ended .break
  | .kwContinue => do
    advance
    ended .continue
  | .ident _ => parseAssignOrExpr expr n
  | _ => do
    let e ← expr
    ended (.expr e)

/-- `parse_stmt`. -/
def parseStmtN : ℕ → P Stmt
  | 0 => outOfFuel
  | n + 1 => parseStmtWith (parseExprN (n + 1)) (parseStmtN n) (n + 1)

/-! ## Cells -/

def parseInit (n : ℕ) : P InitDef := do
  let params ← parseParams n
  let body ← parseBlock (parseStmtN n) n
  return ⟨params, body⟩

/-- The return type of a function. -/
def parseRet (n : ℕ) : P (Option (List Ty)) := do
  if ← eat .arrow then
    if ← eat .lParen then
      let types ← commaList closesList (parseTypeN n) n
      expect .rParen
      return some types
    else return some [← parseTypeN n]
  else return none

def parseFn (n : ℕ) (isPublic : Bool) : P FnDef := do
  let name ← expectIdent
  let params ← parseParams n
  let ret ← parseRet n
  let body ← parseBlock (parseStmtN n) n
  return ⟨name, isPublic, params, ret, body⟩

def parseErrorDecl : P String := do
  let name ← expectIdent
  expect .semicolon
  return name

def parseStorageDecl (n : ℕ) : P StorageDecl := do
  let name ← expectIdent
  expect .colon
  let ty ← parseTypeN n
  let commutative ← eat .commutative
  expect .semicolon
  return ⟨name, ty, commutative⟩

/-- The loop of `parse_cell`, over the cell as read so far. -/
def itemLoop (fuel : ℕ) : ℕ → CellDef → P CellDef
  | 0, _ => outOfFuel
  | n + 1, c => do
    match ← peek with
    | .rBrace | .eof => return c
    | .error => do
      advance
      let decl ← parseErrorDecl
      itemLoop fuel n { c with errors := c.errors ++ [decl] }
    | .storage => do
      advance
      let decl ← parseStorageDecl fuel
      itemLoop fuel n { c with storage := c.storage ++ [decl] }
    | .init => do
      advance
      let init ← parseInit fuel
      itemLoop fuel n { c with init := some init }
    | .pub => do
      advance
      expect .fn
      let fn ← parseFn fuel true
      itemLoop fuel n { c with fns := c.fns ++ [fn] }
    | .fn => do
      advance
      let fn ← parseFn fuel false
      itemLoop fuel n { c with fns := c.fns ++ [fn] }
    | other => err (.inCellBody other)

def parseCell (n : ℕ) : P CellDef := do
  expect .cell
  let name ← expectIdent
  expect .lBrace
  let c ← itemLoop n n ⟨name, [], [], [], none, []⟩
  expect .rBrace
  return c

/-! ## Runs -/

/-- `parse_expr` on all that is left. -/
def parseExpr : P Expr := do parseExprN ((← get).length + 1)

/-- `parse_stmt` on all that is left. -/
def parseStmt : P Stmt := do parseStmtN ((← get).length + 1)

/-- `parse`: the tokens, and the span of the `Eof` after them. -/
def parse (toks : List Tok) (eof : Span) : Option (Except ParseError CellDef) :=
  match outcome (parseCell (toks.length + 1)) eof toks with
  | none => none
  | some (.error e) => some (.error e)
  | some (.ok (c, _)) => some (.ok c)

end TruthLinked.Compiler.Parser
