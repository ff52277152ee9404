import TruthLinked.Core.Types

/-! # Instructions of the Axiom VM

`Op` of `opcode.rs` and its byte encoding. The VM reads an instruction in three parts: the tag, a gas
charge that depends on the tag alone, then the operands. `fetch` is the first and the third,
`fixedCost` the second; the instructions whose charge depends on their data have `fixedCost = 0` and
charge for themselves (`Machine.exec`). -/

namespace TruthLinked.Axiom.Opcode

open Core.Types

/-- A register index. -/
abbrev Reg := UInt8

/-- `Op`. -/
inductive Op where
  | add (dst a b : Reg)
  | sub (dst a b : Reg)
  | mul (dst a b : Reg)
  | div (dst a b : Reg)
  | mod (dst a b : Reg)
  | addSat (dst a b : Reg)
  | subSat (dst a b : Reg)
  | and (dst a b : Reg)
  | or (dst a b : Reg)
  | xor (dst a b : Reg)
  | not (dst a : Reg)
  | shl (dst a : Reg) (s : UInt8)
  | shr (dst a : Reg) (s : UInt8)
  | eq (dst a b : Reg)
  | ne (dst a b : Reg)
  | lt (dst a b : Reg)
  | lte (dst a b : Reg)
  | gt (dst a b : Reg)
  | gte (dst a b : Reg)
  | isZero (dst a : Reg)
  | jump (t : ℕ)
  | jumpIf (c : Reg) (t : ℕ)
  | jumpIfNot (c : Reg) (t : ℕ)
  | call (t : ℕ)
  | return
  | halt
  | trap (code : ℕ)
  | loadConst (dst : Reg) (idx : ℕ)
  | loadImm8 (dst : Reg) (imm : UInt8)
  | loadImm64 (dst : Reg) (imm : ℕ)
  | move (dst src : Reg)
  | swap (a b : Reg)
  | sload (dst key : Reg)
  | sstore (key val : Reg)
  | sdelete (key : Reg)
  | getCaller (dst : Reg)
  | getOwner (dst : Reg)
  | getCellId (dst : Reg)
  | getHeight (dst : Reg)
  | getTimestamp (dst : Reg)
  | getValue (dst : Reg)
  | getCalldataLen (dst : Reg)
  | getCalldata (dst off : Reg)
  | setReturn (idx len : Reg)
  | setReturnReg (data len : Reg)
  | emitLog (topics data : Reg)
  | emitLogReg (topic data len : Reg)
  | callCell (cell calldata len value : Reg)
  | bufReset
  | bufWriteConst (idx : ℕ)
  | bufWriteReg (src : Reg)
  | bufCallCell (cell value : Reg)
  | bufSetReturn
  | hash32 (dst src : Reg)
  | hash32Const (dst : Reg) (idx : ℕ)
  | requireOwner
  | requireCaller (r : Reg)
  | requireEq (a b : Reg)
  | requireNe (a b : Reg)
  | requireLt (a b : Reg)
  | requireNonZero (r : Reg)
  | requireGas (amount : ℕ)
  | tokenBalance (dst token account : Reg)
  | tokenTransfer (token src dst amount : Reg)
  | tokenMint (token recipient amount : Reg)
  | tokenBurn (token owner amount : Reg)
  | tokenFreeze (token account : Reg)
  | tokenThaw (token account : Reg)
  | accordRequest (dst url method body : Reg)
  | accordRead (dst requestId : Reg)
  deriving DecidableEq

/-! ### Reading operands -/

/-- `read16!`. -/
def read16 (code : Bytes) (pc : ℕ) : Option ℕ :=
  if pc + 2 ≤ code.length then some (leNat (slice code pc (pc + 2))) else none

/-- `read32!`. -/
def read32 (code : Bytes) (pc : ℕ) : Option ℕ :=
  if pc + 4 ≤ code.length then some (leNat (slice code pc (pc + 4))) else none

/-- `read64!`. -/
def read64 (code : Bytes) (pc : ℕ) : Option ℕ :=
  if pc + 8 ≤ code.length then some (leNat (slice code pc (pc + 8))) else none

/-- An instruction of one register. -/
def reg1 (f : Reg → Op) (code : Bytes) (pc : ℕ) : Option (Op × ℕ) := do
  let a ← code[pc]?
  some (f a, pc + 1)

/-- An instruction of two byte operands. -/
def reg2 (f : Reg → Reg → Op) (code : Bytes) (pc : ℕ) : Option (Op × ℕ) := do
  let a ← code[pc]?
  let b ← code[pc + 1]?
  some (f a b, pc + 2)

/-- An instruction of three byte operands. -/
def reg3 (f : Reg → Reg → Reg → Op) (code : Bytes) (pc : ℕ) : Option (Op × ℕ) := do
  let a ← code[pc]?
  let b ← code[pc + 1]?
  let c ← code[pc + 2]?
  some (f a b c, pc + 3)

/-- An instruction of four byte operands. -/
def reg4 (f : Reg → Reg → Reg → Reg → Op) (code : Bytes) (pc : ℕ) : Option (Op × ℕ) := do
  let a ← code[pc]?
  let b ← code[pc + 1]?
  let c ← code[pc + 2]?
  let d ← code[pc + 3]?
  some (f a b c d, pc + 4)

/-- An instruction of a register and a 16-bit index. -/
def regIdx (f : Reg → ℕ → Op) (code : Bytes) (pc : ℕ) : Option (Op × ℕ) := do
  let a ← code[pc]?
  let i ← read16 code (pc + 1)
  some (f a i, pc + 3)

/-- An instruction of a register and a jump target. -/
def regTarget (f : Reg → ℕ → Op) (code : Bytes) (pc : ℕ) : Option (Op × ℕ) := do
  let a ← code[pc]?
  let t ← read32 code (pc + 1)
  some (f a t, pc + 5)

/-- An instruction of a jump target. -/
def target (f : ℕ → Op) (code : Bytes) (pc : ℕ) : Option (Op × ℕ) := do
  let t ← read32 code pc
  some (f t, pc + 4)

/-- An instruction of a 16-bit number. -/
def imm16 (f : ℕ → Op) (code : Bytes) (pc : ℕ) : Option (Op × ℕ) := do
  let i ← read16 code pc
  some (f i, pc + 2)

/-- An instruction of a 64-bit number. -/
def imm64 (f : ℕ → Op) (code : Bytes) (pc : ℕ) : Option (Op × ℕ) := do
  let i ← read64 code pc
  some (f i, pc + 8)

/-- An instruction of a register and a 64-bit number. -/
def regImm64 (f : Reg → ℕ → Op) (code : Bytes) (pc : ℕ) : Option (Op × ℕ) := do
  let a ← code[pc]?
  let i ← read64 code (pc + 1)
  some (f a i, pc + 9)

/-- An instruction without operands. -/
def noArg (o : Op) (_ : Bytes) (pc : ℕ) : Option (Op × ℕ) := some (o, pc)

/-- How the operands after a tag are read; `none` for a tag the VM does not know. -/
def operands : ℕ → Option (Bytes → ℕ → Option (Op × ℕ))
  | 0x01 => some (reg3 .add)
  | 0x02 => some (reg3 .sub)
  | 0x03 => some (reg3 .mul)
  | 0x04 => some (reg3 .div)
  | 0x05 => some (reg3 .mod)
  | 0x06 => some (reg3 .addSat)
  | 0x07 => some (reg3 .subSat)
  | 0x10 => some (reg3 .and)
  | 0x11 => some (reg3 .or)
  | 0x12 => some (reg3 .xor)
  | 0x13 => some (reg2 .not)
  | 0x14 => some (reg3 .shl)
  | 0x15 => some (reg3 .shr)
  | 0x20 => some (reg3 .eq)
  | 0x21 => some (reg3 .ne)
  | 0x22 => some (reg3 .lt)
  | 0x23 => some (reg3 .lte)
  | 0x24 => some (reg3 .gt)
  | 0x25 => some (reg3 .gte)
  | 0x26 => some (reg2 .isZero)
  | 0x30 => some (target .jump)
  | 0x31 => some (regTarget .jumpIf)
  | 0x32 => some (regTarget .jumpIfNot)
  | 0x33 => some (target .call)
  | 0x34 => some (noArg .return)
  | 0x35 => some (noArg .halt)
  | 0x36 => some (imm16 .trap)
  | 0x40 => some (regIdx .loadConst)
  | 0x41 => some (reg2 .loadImm8)
  | 0x42 => some (regImm64 .loadImm64)
  | 0x43 => some (reg2 .move)
  | 0x44 => some (reg2 .swap)
  | 0x50 => some (reg2 .sload)
  | 0x51 => some (reg2 .sstore)
  | 0x52 => some (reg1 .sdelete)
  | 0x60 => some (reg1 .getCaller)
  | 0x61 => some (reg1 .getOwner)
  | 0x62 => some (reg1 .getCellId)
  | 0x63 => some (reg1 .getHeight)
  | 0x64 => some (reg1 .getTimestamp)
  | 0x65 => some (reg1 .getValue)
  | 0x66 => some (reg1 .getCalldataLen)
  | 0x67 => some (reg2 .getCalldata)
  | 0x70 => some (reg2 .setReturn)
  | 0x71 => some (reg2 .emitLog)
  | 0x72 => some (reg2 .setReturnReg)
  | 0x73 => some (reg3 .emitLogReg)
  | 0x80 => some (reg4 .callCell)
  | 0x90 => some (reg2 .hash32)
  | 0x91 => some (regIdx .hash32Const)
  | 0xA0 => some (noArg .requireOwner)
  | 0xA1 => some (reg1 .requireCaller)
  | 0xA2 => some (reg2 .requireEq)
  | 0xA3 => some (reg2 .requireNe)
  | 0xA4 => some (reg2 .requireLt)
  | 0xA5 => some (reg1 .requireNonZero)
  | 0xA6 => some (imm64 .requireGas)
  | 0xB0 => some (reg3 .tokenBalance)
  | 0xB1 => some (reg4 .tokenTransfer)
  | 0xB2 => some (reg3 .tokenMint)
  | 0xB3 => some (reg3 .tokenBurn)
  | 0xB4 => some (reg2 .tokenFreeze)
  | 0xB5 => some (reg2 .tokenThaw)
  | 0xC0 => some (reg4 .accordRequest)
  | 0xC1 => some (reg2 .accordRead)
  | 0xD0 => some (noArg .bufReset)
  | 0xD1 => some (imm16 .bufWriteConst)
  | 0xD2 => some (reg1 .bufWriteReg)
  | 0xD3 => some (reg2 .bufCallCell)
  | 0xD4 => some (noArg .bufSetReturn)
  | _ => none

/-- What the VM charges for a tag before it reads the operands. -/
def fixedCost : ℕ → ℕ
  | 0x01 | 0x02 | 0x06 | 0x07 => 3
  | 0x03 => 5
  | 0x04 | 0x05 => 8
  | 0x10 | 0x11 | 0x12 | 0x13 | 0x14 | 0x15 => 2
  | 0x20 | 0x21 | 0x22 | 0x23 | 0x24 | 0x25 | 0x26 => 2
  | 0x30 | 0x31 | 0x32 => 2
  | 0x33 | 0x34 => 5
  | 0x35 | 0x36 => 1
  | 0x40 | 0x41 | 0x42 | 0x43 | 0x44 => 1
  | 0x50 => 200
  | 0x51 => 500
  | 0x52 => 300
  | 0x60 | 0x61 | 0x62 | 0x63 | 0x64 | 0x65 | 0x66 | 0x67 => 3
  | 0x80 => 1000
  | 0x90 | 0x91 => 50
  | 0xA0 | 0xA1 | 0xA2 | 0xA3 | 0xA4 | 0xA5 | 0xA6 => 2
  | 0xB0 => 200
  | 0xB1 | 0xB2 | 0xB3 => 500
  | 0xB4 | 0xB5 => 300
  | 0xC0 => 10000
  | 0xC1 => 500
  | 0xD0 => 1
  | 0xD2 => 2
  | 0xD3 => 1000
  -- 0x70, 0x71, 0x72, 0x73, 0xD1 and 0xD4 charge after reading their data
  | _ => 0

end TruthLinked.Axiom.Opcode
