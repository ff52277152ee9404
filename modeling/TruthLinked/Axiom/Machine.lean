import TruthLinked.Axiom.Bytecode
import TruthLinked.Axiom.Opcode
import Mathlib.Logic.Function.Basic

/-! # The execution loop of the Axiom VM

`Vm::execute` of `vm.rs`. The host is a record of functions on a host state `σ`; every method may
change the host state, also the ones that take `&self` in the source (interior mutability), and
answers in any way it likes. The VM itself is a computation with a state and an error: the error of
`bail!` ends the run and keeps the state, so that the gas used and the logs of a failed run are the
ones of the source.

`step` is one turn of the loop; `runLoop` iterates it with a fuel that bounds the number of turns.
Every turn charges at least one unit of gas or ends the run, so `gasLimit + 1` turns are enough. -/

namespace TruthLinked.Axiom.Machine

open Core.Types Axiom.Word Axiom.Bytecode Axiom.Opcode

/-- `CellLog`. -/
structure CellLog where
  topics : List Bytes32
  data : Bytes
  deriving DecidableEq

/-- `CrossCellResult`. -/
structure CrossCellResult where
  success : Bool
  returnData : Bytes
  gasUsed : ℕ

/-- A host method's answer, and the host state after it. -/
abbrev Answer (σ α : Type) := Except AxiomError α × σ

/-- `Host`: the methods the VM calls. -/
structure Host (σ : Type) where
  storageRead : Bytes32 → σ → Answer σ Bytes32
  storageWrite : Bytes32 → Bytes32 → σ → Answer σ Unit
  storageDelete : Bytes32 → σ → Answer σ Unit
  caller : σ → Bytes32
  owner : σ → Bytes32
  cellId : σ → Bytes32
  height : σ → ℕ
  timestamp : σ → ℕ
  value : σ → ℕ
  calldata : σ → Bytes
  setReturnData : Bytes → σ → Answer σ Unit
  emitLog : CellLog → σ → Answer σ Unit
  callCell : Bytes32 → Bytes → ℕ → ℕ → σ → Answer σ CrossCellResult
  sha256 : Bytes → Bytes32
  accordRequest : Bytes → Bytes → Bytes → σ → Answer σ Bytes32
  accordRead : Bytes32 → σ → Answer σ (Option Bytes)
  tokenBalance : Bytes32 → Bytes32 → σ → Answer σ ℕ
  tokenTransfer : Bytes32 → Bytes32 → Bytes32 → ℕ → σ → Answer σ Unit
  tokenMint : Bytes32 → Bytes32 → ℕ → σ → Answer σ Unit
  tokenBurn : Bytes32 → Bytes32 → ℕ → σ → Answer σ Unit
  tokenFreeze : Bytes32 → Bytes32 → σ → Answer σ Unit
  tokenThaw : Bytes32 → Bytes32 → σ → Answer σ Unit
  maxReturnData : ℕ
  maxLogData : ℕ
  maxLogTopics : ℕ
  maxCallDepth : ℕ

/-- `CALL_STACK_LIMIT`. -/
def callStackLimit : ℕ := 64

/-- `CALL_BUF_SIZE`. -/
def callBufSize : ℕ := 4096

/-- `Vm`, with the locals `pc` and `logs` of `execute`. The call stack lists the return addresses, the
last one first; the call buffer is its written part. -/
structure Vm (σ : Type) where
  host : σ
  regs : Reg → Bytes32
  gas : ℕ
  gasLimit : ℕ
  callStack : List ℕ
  depth : ℕ
  callBuf : Bytes
  pc : ℕ
  logs : List CellLog

/-- `Vm::new`. -/
def Vm.new {σ : Type} (host : σ) (gasLimit depth : ℕ) : Vm σ where
  host := host
  regs := fun _ => 0
  gas := gasLimit
  gasLimit := gasLimit
  callStack := []
  depth := depth
  callBuf := []
  pc := 0
  logs := []

/-- A computation of the VM: `bail!` is the error. -/
abbrev VmM (σ : Type) := ExceptT AxiomError (StateM (Vm σ))

/-- Whether the loop goes on after an instruction. -/
inductive Flow where
  | next
  | halt
  deriving DecidableEq

section Primitives
variable {σ : Type}

/-- `GasMeter::charge_raw`. -/
def charge (cost : ℕ) : VmM σ Unit := do
  let vm ← get
  if vm.gas < cost then throw .outOfGas
  set { vm with gas := vm.gas - cost }

/-- `Vm::reg`. -/
def reg (r : Reg) : VmM σ Bytes32 := do return (← get).regs r

/-- `Vm::set_reg`: writes to `r0` are discarded. -/
def setReg (r : Reg) (v : Bytes32) : VmM σ Unit :=
  modify fun vm => { vm with regs := if r = 0 then vm.regs else Function.update vm.regs r v }

/-- A call of a host method. -/
def ask {α : Type} (f : σ → Answer σ α) : VmM σ α := do
  let vm ← get
  let (r, host) := f vm.host
  set { vm with host := host }
  match r with
  | .ok a => return a
  | .error e => throw e

/-- A host method that only reads. -/
def view {α : Type} (f : σ → α) : VmM σ α := do return f (← get).host

/-- `get_const!`. -/
def getConst (cell : CellBytecode) (idx : ℕ) : VmM σ Bytes :=
  match cell.constPool[idx]? with
  | some e => return e
  | none => throw (.invalidConstIndex idx)

/-- `arith3!`. -/
def arith3 (f : Limbs → Limbs → Option Limbs) (dst a b : Reg) : VmM σ Flow := do
  match f (u256 (← reg a)) (u256 (← reg b)) with
  | some r => setReg dst (to32 r); return .next
  | none => throw .arithmeticOverflow

/-- `arith3_sat!` and `bitwise3!`. -/
def bitwise3 (f : Limbs → Limbs → Limbs) (dst a b : Reg) : VmM σ Flow := do
  setReg dst (to32 (f (u256 (← reg a)) (u256 (← reg b))))
  return .next

/-- A comparison written to a register. -/
def cmp3 (p : Bytes32 → Bytes32 → Bool) (dst a b : Reg) : VmM σ Flow := do
  setReg dst (bval (p (← reg a) (← reg b)))
  return .next

/-- `DIV` and `MOD`, with `part` the wanted half of the result. -/
def divide (part : Limbs × Limbs → Limbs) (dst a b : Reg) : VmM σ Flow := do
  let bv := u256 (← reg b)
  if bv = limbs 0 0 0 0 then throw .divisionByZero
  setReg dst (to32 (part (divmod (u256 (← reg a)) bv)))
  return .next

/-- A value written to a register. -/
def store (dst : Reg) (v : Bytes32) : VmM σ Flow := do
  setReg dst v
  return .next

/-- A jump; the target must lie inside the code. -/
def jumpTo (cell : CellBytecode) (t : ℕ) : VmM σ Flow := do
  if t ≥ cell.code.length then throw (.invalidJumpTarget t)
  modify fun vm => { vm with pc := t }
  return .next

/-- A check that ends the run when it fails. -/
def require (ok : Bool) (e : AxiomError) : VmM σ Flow := do
  if !ok then throw e
  return .next

/-- The result of a cross-cell call: its gas is charged, its success flag goes to `r1`. -/
def callResult (r : CrossCellResult) : VmM σ Flow := do
  charge r.gasUsed
  store 1 (bval r.success)

/-- `host.call_cell`, an error of the callee wrapped. -/
def callHost (H : Host σ) (cell : Bytes32) (calldata : Bytes) (value gas : ℕ) :
    VmM σ CrossCellResult :=
  ask fun h => match H.callCell cell calldata value gas h with
    | (.ok r, h') => (.ok r, h')
    | (.error e, h') => (.error (.crossCellFailed e.debug), h')

end Primitives

/-- The prefix of a register up to its first zero byte. -/
def untilZero (w : Bytes32) : Bytes := (ofBytes32 w).takeWhile (· ≠ 0)

/-- The 32-byte chunks of a topic constant. -/
def chunks32 (bs : Bytes) (n : ℕ) : List Bytes32 :=
  (List.range n).map fun i => toBytes32 (slice bs (i * 32) ((i + 1) * 32))

/-- The 32 bytes of the calldata at `off`, zero-padded; zero past the end. -/
def calldataWord (cd : Bytes) (off : ℕ) : Bytes32 :=
  if off < cd.length then padRight (slice cd off (min (min (off + 32) (2 ^ 64 - 1)) cd.length))
  else 0

/-- The arms of the instruction `match` of `Vm::execute`, after the tag's charge and the operands. -/
def exec {σ : Type} (H : Host σ) (cell : CellBytecode) : Op → VmM σ Flow
  | .add dst a b => arith3 Word.add dst a b
  | .sub dst a b => arith3 Word.sub dst a b
  | .mul dst a b => arith3 Word.mul dst a b
  | .div dst a b => divide Prod.fst dst a b
  | .mod dst a b => divide Prod.snd dst a b
  | .addSat dst a b => bitwise3 Word.addSat dst a b
  | .subSat dst a b => bitwise3 Word.subSat dst a b
  | .and dst a b => bitwise3 Word.and dst a b
  | .or dst a b => bitwise3 Word.or dst a b
  | .xor dst a b => bitwise3 Word.xor dst a b
  | .not dst a => do store dst (to32 (Word.not (u256 (← reg a))))
  | .shl dst a s => do store dst (to32 (Word.shl (u256 (← reg a)) s))
  | .shr dst a s => do store dst (to32 (Word.shr (u256 (← reg a)) s))
  | .eq dst a b => cmp3 (fun x y => x == y) dst a b
  | .ne dst a b => cmp3 (fun x y => x != y) dst a b
  | .lt dst a b => cmp3 (fun x y => Word.cmp (u256 x) (u256 y) == .lt) dst a b
  | .lte dst a b => cmp3 (fun x y => Word.cmp (u256 x) (u256 y) != .gt) dst a b
  | .gt dst a b => cmp3 (fun x y => Word.cmp (u256 x) (u256 y) == .gt) dst a b
  | .gte dst a b => cmp3 (fun x y => Word.cmp (u256 x) (u256 y) != .lt) dst a b
  | .isZero dst a => do store dst (bval (Word.isZero (← reg a)))
  | .jump t => jumpTo cell t
  | .jumpIf c t => do if Word.isZero (← reg c) then return .next else jumpTo cell t
  | .jumpIfNot c t => do if Word.isZero (← reg c) then jumpTo cell t else return .next
  | .call t => do
    if t ≥ cell.code.length then throw (.invalidJumpTarget t)
    let vm ← get
    if vm.callStack.length ≥ callStackLimit then throw .callDepthExceeded
    set { vm with callStack := vm.pc :: vm.callStack, pc := t }
    return .next
  | .return => do
    let vm ← get
    match vm.callStack with
    | [] => throw (.invalidOpcode 0x34)
    | ra :: rest => set { vm with callStack := rest, pc := ra }; return .next
  | .halt => return .halt
  | .trap code => throw (.trap code)
  | .loadConst dst idx => do
    let e ← getConst cell idx
    if e.length > 32 then throw (.invalidConstIndex idx)
    store dst (padRight e)
  | .loadImm8 dst imm => store dst (padRight [imm])
  | .loadImm64 dst imm => store dst (padRight (leBytes 8 imm))
  | .move dst src => do store dst (← reg src)
  | .swap a b => do
    if a ≠ b ∧ a ≠ 0 ∧ b ≠ 0 then
      let va ← reg a
      setReg a (← reg b)
      setReg b va
    return .next
  | .sload dst key => do store dst (← ask (H.storageRead (← reg key)))
  | .sstore key val => do
    ask (H.storageWrite (← reg key) (← reg val))
    return .next
  | .sdelete key => do
    ask (H.storageDelete (← reg key))
    return .next
  | .getCaller dst => do store dst (← view H.caller)
  | .getOwner dst => do store dst (← view H.owner)
  | .getCellId dst => do store dst (← view H.cellId)
  | .getHeight dst => do store dst (padRight (leBytes 8 (← view H.height)))
  | .getTimestamp dst => do store dst (padRight (leBytes 8 (← view H.timestamp)))
  | .getValue dst => do store dst (padRight (leBytes 16 (← view H.value)))
  | .getCalldataLen dst => do store dst (padRight (leBytes 8 (← view H.calldata).length))
  | .getCalldata dst off => do
    store dst (calldataWord (← view H.calldata) (lowBytes 8 (← reg off)))
  | .setReturn idx len => do
    let i := lowBytes 2 (← reg idx)
    let n := lowBytes 8 (← reg len)
    let e ← getConst cell i
    let n := min n e.length
    if n > H.maxReturnData then throw .returnDataTooLarge
    charge (10 + n / 32)
    ask (H.setReturnData (e.take n))
    return .next
  | .setReturnReg data len => do
    let n := lowBytes 8 (← reg len)
    if n > 32 then throw (.invalidLength n)
    if n > H.maxReturnData then throw .returnDataTooLarge
    charge (10 + n / 32)
    ask (H.setReturnData ((ofBytes32 (← reg data)).take n))
    return .next
  | .emitLog topics data => do
    let traw ← getConst cell (lowBytes 2 (← reg topics))
    let draw ← getConst cell (lowBytes 2 (← reg data))
    if draw.length > H.maxLogData then throw .logTooLarge
    if traw.length % 32 ≠ 0 then throw .invalidBytecode
    let nt := traw.length / 32
    if nt > H.maxLogTopics then throw .logTooLarge
    charge (100 + draw.length / 32 + nt * 10)
    let log : CellLog := ⟨chunks32 traw nt, draw⟩
    ask (H.emitLog log)
    modify fun vm => { vm with logs := vm.logs ++ [log] }
    return .next
  | .emitLogReg topic data len => do
    let t ← reg topic
    let n := lowBytes 8 (← reg len)
    if n > 32 then throw .logTooLarge
    let d := (ofBytes32 (← reg data)).take n
    if d.length > H.maxLogData then throw .logTooLarge
    charge (100 + n / 32 + 10)
    let log : CellLog := ⟨[t], d⟩
    ask (H.emitLog log)
    modify fun vm => { vm with logs := vm.logs ++ [log] }
    return .next
  | .callCell target calldata len value => do
    if (← get).depth ≥ H.maxCallDepth then throw .callDepthExceeded
    let e ← getConst cell (lowBytes 2 (← reg calldata))
    let n := min (lowBytes 8 (← reg len)) e.length
    callResult (← callHost H (← reg target) (e.take n) (lowBytes 16 (← reg value)) (← get).gas)
  | .bufReset => do
    modify fun vm => { vm with callBuf := [] }
    return .next
  | .bufWriteConst idx => do
    let e ← getConst cell idx
    charge (2 + e.length / 32)
    let vm ← get
    if vm.callBuf.length + e.length > callBufSize then throw .bufOverflow
    set { vm with callBuf := vm.callBuf ++ e }
    return .next
  | .bufWriteReg src => do
    let vm ← get
    if vm.callBuf.length + 32 > callBufSize then throw .bufOverflow
    set { vm with callBuf := vm.callBuf ++ ofBytes32 (vm.regs src) }
    return .next
  | .bufCallCell target value => do
    if (← get).depth ≥ H.maxCallDepth then throw .callDepthExceeded
    callResult (← callHost H (← reg target) (← get).callBuf (lowBytes 16 (← reg value))
      (← get).gas)
  | .bufSetReturn => do
    let buf := (← get).callBuf
    if buf.length > H.maxReturnData then throw .returnDataTooLarge
    charge (10 + buf.length / 32)
    ask (H.setReturnData buf)
    return .next
  | .hash32 dst src => do store dst (H.sha256 (ofBytes32 (← reg src)))
  | .hash32Const dst idx => do store dst (H.sha256 (← getConst cell idx))
  | .requireOwner => do require ((← view H.caller) == (← view H.owner)) .unauthorized
  | .requireCaller r => do require ((← view H.caller) == (← reg r)) .unauthorized
  | .requireEq a b => do require ((← reg a) == (← reg b)) .assertFailed
  | .requireNe a b => do require ((← reg a) != (← reg b)) .assertFailed
  | .requireLt a b => do
    require (Word.cmp (u256 (← reg a)) (u256 (← reg b)) == .lt) .assertFailed
  | .requireNonZero r => do require (!Word.isZero (← reg r)) .assertFailed
  | .requireGas amount => do require (decide ((← get).gas ≥ amount)) .outOfGas
  | .tokenBalance dst token account => do
    store dst (padRight (leBytes 16 (← ask (H.tokenBalance (← reg token) (← reg account)))))
  | .tokenTransfer token src dst amount => do
    ask (H.tokenTransfer (← reg token) (← reg src) (← reg dst) (lowBytes 16 (← reg amount)))
    return .next
  | .tokenMint token recipient amount => do
    ask (H.tokenMint (← reg token) (← reg recipient) (lowBytes 16 (← reg amount)))
    return .next
  | .tokenBurn token owner amount => do
    ask (H.tokenBurn (← reg token) (← reg owner) (lowBytes 16 (← reg amount)))
    return .next
  | .tokenFreeze token account => do
    ask (H.tokenFreeze (← reg token) (← reg account))
    return .next
  | .tokenThaw token account => do
    ask (H.tokenThaw (← reg token) (← reg account))
    return .next
  | .accordRequest dst url method body => do
    let u ← getConst cell (lowBytes 2 (← reg url))
    let b ← getConst cell (lowBytes 2 (← reg body))
    store dst (← ask (H.accordRequest u (untilZero (← reg method)) b))
  | .accordRead dst requestId => do
    match ← ask (H.accordRead (← reg requestId)) with
    | some body =>
      setReg dst (padRight (body.take 32))
      store 1 (bval true)
    | none =>
      setReg dst 0
      store 1 (bval false)

/-- One turn of the loop, at a `pc` inside the code. -/
def step {σ : Type} (H : Host σ) (cell : CellBytecode) (tag : UInt8) : VmM σ Flow := do
  modify fun vm => { vm with pc := vm.pc + 1 }
  match operands tag.toNat with
  | none => throw (.invalidOpcode tag)
  | some rd =>
    charge (fixedCost tag.toNat)
    match rd cell.code (← get).pc with
    | none => throw .invalidBytecode
    | some (op, pc) =>
      modify fun vm => { vm with pc := pc }
      exec H cell op

/-- The loop of `Vm::execute`, for at most `fuel` turns. Running off the end of the code halts. -/
def runLoop {σ : Type} (H : Host σ) (cell : CellBytecode) : ℕ → VmM σ Unit
  | 0 => throw .outOfGas
  | fuel + 1 => do
    match cell.code[(← get).pc]? with
    | none => return
    | some tag =>
      match ← step H cell tag with
      | .next => runLoop H cell fuel
      | .halt => return

/-- `ExecResult`. -/
structure ExecResult where
  success : Bool
  returnData : Bytes
  gasUsed : ℕ
  error : Option AxiomError
  logs : List CellLog
  deriving DecidableEq

/-- `Vm::execute` on a fresh VM: the result, and the host state after it. -/
def execute {σ : Type} (H : Host σ) (cell : CellBytecode) (host : σ) (gasLimit depth : ℕ) :
    ExecResult × σ :=
  match (runLoop H cell (gasLimit + 1)).run (Vm.new host gasLimit depth) with
  | (.ok (), vm) => (⟨true, [], vm.gasLimit - vm.gas, none, vm.logs⟩, vm.host)
  | (.error e, vm) => (⟨false, [], vm.gasLimit - vm.gas, some e, vm.logs⟩, vm.host)

end TruthLinked.Axiom.Machine
