import TruthLinked.Axiom.Word

/-! # Bytecode containers and errors of the Axiom VM

`CellBytecode::decode` and `encode` of `bytecode.rs`, and `AxiomError`. -/

namespace TruthLinked.Axiom.Bytecode

open Core.Types

/-- `AxiomError`. The text of `CrossCellFailed` is the rendering of the callee's error, which is kept
here instead. -/
inductive AxiomError where
  | outOfGas
  | callDepthExceeded
  | invalidOpcode (tag : UInt8)
  | divisionByZero
  | arithmeticOverflow
  | invalidJumpTarget (t : ℕ)
  | invalidRegister (r : UInt8)
  | invalidConstIndex (idx : ℕ)
  | returnDataTooLarge
  | invalidLength (len : ℕ)
  | logTooLarge
  | storageReadFailed
  | storageWriteFailed
  | unauthorized
  | assertFailed
  | crossCellFailed (text : String)
  | bufOverflow
  | trap (code : ℕ)
  | invalidBytecode
  | invalidMagic
  | notImplemented (tag : UInt8)
  deriving DecidableEq

/-- The `Debug` form of an error, which is also its `Display` form. -/
def AxiomError.debug : AxiomError → String
  | .outOfGas => "OutOfGas"
  | .callDepthExceeded => "CallDepthExceeded"
  | .invalidOpcode tag => s!"InvalidOpcode({tag})"
  | .divisionByZero => "DivisionByZero"
  | .arithmeticOverflow => "ArithmeticOverflow"
  | .invalidJumpTarget t => s!"InvalidJumpTarget({t})"
  | .invalidRegister r => s!"InvalidRegister({r})"
  | .invalidConstIndex idx => s!"InvalidConstIndex({idx})"
  | .returnDataTooLarge => "ReturnDataTooLarge"
  | .invalidLength len => s!"InvalidLength({len})"
  | .logTooLarge => "LogTooLarge"
  | .storageReadFailed => "StorageReadFailed"
  | .storageWriteFailed => "StorageWriteFailed"
  | .unauthorized => "Unauthorized"
  | .assertFailed => "AssertFailed"
  | .crossCellFailed text => s!"CrossCellFailed({text.quote})"
  | .bufOverflow => "BufOverflow"
  | .trap code => s!"Trap({code})"
  | .invalidBytecode => "InvalidBytecode"
  | .invalidMagic => "InvalidMagic"
  | .notImplemented tag => s!"NotImplemented({tag})"

/-- `CellBytecode`: a decoded cell ready for execution. -/
structure CellBytecode where
  constPool : List Bytes
  code : Bytes
  deriving DecidableEq

/-- `MAGIC`: ASCII "AXIO". -/
def magic : Bytes := [0x41, 0x58, 0x49, 0x4F]

/-- `VERSION`. -/
def version : UInt8 := 2

/-- `MAX_CONST_POOL_ENTRIES`. -/
def maxConstPoolEntries : ℕ := 65535

/-- `MAX_CONST_ENTRY_BYTES`. -/
def maxConstEntryBytes : ℕ := 65536

/-- `MAX_CODE_BYTES`. -/
def maxCodeBytes : ℕ := 1048576

/-- The constant pool loop of `decode`, at `pos`, with `count` entries to go. Returns the entries and
the position after them. -/
def decodePool (raw : Bytes) : ℕ → ℕ → Except AxiomError (List Bytes × ℕ)
  | 0, pos => .ok ([], pos)
  | count + 1, pos =>
    match readLe 4 raw pos with
    | none => .error .invalidBytecode
    | some entryLen =>
      if entryLen > maxConstEntryBytes then .error .invalidBytecode
      else if pos + 4 + entryLen > raw.length then .error .invalidBytecode
      else do
        let (pool, stop) ← decodePool raw count (pos + 4 + entryLen)
        .ok (slice raw (pos + 4) (pos + 4 + entryLen) :: pool, stop)

/-- `CellBytecode::decode`. -/
def decode (raw : Bytes) : Except AxiomError CellBytecode :=
  if raw.length < 6 then .error .invalidMagic
  else if raw.take 4 ≠ magic then .error .invalidMagic
  else if raw[4]? ≠ some version then .error .invalidBytecode
  else if raw[5]? ≠ some 0 then .error .invalidBytecode
  else match readLe 2 raw 6 with
    | none => .error .invalidBytecode
    | some poolCount =>
      if poolCount > maxConstPoolEntries then .error .invalidBytecode
      else do
        let (constPool, pos) ← decodePool raw poolCount 8
        match readLe 4 raw pos with
        | none => .error .invalidBytecode
        | some codeLen =>
          if codeLen > maxCodeBytes then .error .invalidBytecode
          else if pos + 4 + codeLen > raw.length then .error .invalidBytecode
          else .ok ⟨constPool, slice raw (pos + 4) (pos + 4 + codeLen)⟩

/-- `CellBytecode::encode`. The two length casts drop the high bytes. -/
def encode (c : CellBytecode) : Bytes :=
  magic ++ [version, 0] ++ leBytes 2 c.constPool.length ++
    (c.constPool.map fun e => leBytes 4 e.length ++ e).flatten ++
    leBytes 4 c.code.length ++ c.code

end TruthLinked.Axiom.Bytecode
