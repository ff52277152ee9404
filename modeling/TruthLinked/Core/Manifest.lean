import TruthLinked.Core.Types
import Mathlib.Data.List.Dedup
import Mathlib.Data.List.Sort

/-! # The bytecode analyzer

`CellAccount::analyze_bytecode` and `CellAccount::verify_manifest_against_bytecode` of
`truthlinked-core/src/cells.rs`. The analyzer scans the code once from front to back. It remembers
the 32-byte constants that `LOAD_CONST` put into registers, forgets a register on the two other load
instructions, skips every other instruction by its length, and stops at a tag it does not know. -/

namespace TruthLinked.Core.Manifest

open Core.Types

/-- `ManifestAnalysis`. -/
structure ManifestAnalysis where
  staticReadSlots : List Bytes32
  staticWriteSlots : List Bytes32
  hasStorageReads : Bool
  hasStorageWrites : Bool
  fullyResolved : Bool
  deriving DecidableEq

/-- `MAGIC`. -/
def magic : Bytes := [0x41, 0x58, 0x49, 0x4F]

/-- The constant pool loop, with `count` entries to go. -/
def readPool (bytecode : Bytes) : ℕ → ℕ → Except String (List Bytes × ℕ)
  | 0, pos => .ok ([], pos)
  | count + 1, pos =>
    match readLe 4 bytecode pos with
    | none => .error "Truncated const pool"
    | some entryLen =>
      if pos + 4 + entryLen > bytecode.length then .error "Truncated const pool entry"
      else do
        let (pool, stop) ← readPool bytecode count (pos + 4 + entryLen)
        .ok (slice bytecode (pos + 4) (pos + 4 + entryLen) :: pool, stop)

/-- The locals of the scan. -/
structure Scan where
  regConsts : UInt8 → Option Bytes32
  reads : List Bytes32
  writes : List Bytes32
  hasReads : Bool
  hasWrites : Bool
  fullyResolved : Bool

/-- The start of the scan: nothing is known of any register. -/
def Scan.init : Scan := ⟨fun _ => none, [], [], false, false, true⟩

/-- `reg_consts[dst] = v`. -/
def Scan.setReg (s : Scan) (dst : UInt8) (v : Option Bytes32) : Scan :=
  { s with regConsts := fun r => if r = dst then v else s.regConsts r }

/-- A read through register `key`. -/
def Scan.read (s : Scan) (key : UInt8) : Scan :=
  match s.regConsts key with
  | some k => { s with hasReads := true, reads := s.reads ++ [k] }
  | none => { s with hasReads := true, fullyResolved := false }

/-- A write through register `key`. -/
def Scan.write (s : Scan) (key : UInt8) : Scan :=
  match s.regConsts key with
  | some k => { s with hasWrites := true, writes := s.writes ++ [k] }
  | none => { s with hasWrites := true, fullyResolved := false }

/-- The operand bytes of the instructions that are skipped; `none` for an unknown tag. -/
def skipLen (op : UInt8) : Option ℕ :=
  let t := op.toNat
  if 0x01 ≤ t ∧ t ≤ 0x07 then some 3
  else if 0x10 ≤ t ∧ t ≤ 0x12 then some 3
  else if t = 0x13 then some 2
  else if 0x14 ≤ t ∧ t ≤ 0x15 then some 3
  else if 0x20 ≤ t ∧ t ≤ 0x25 then some 3
  else if t = 0x26 then some 2
  else if t = 0x30 then some 4
  else if 0x31 ≤ t ∧ t ≤ 0x32 then some 5
  else if t = 0x33 then some 4
  else if t = 0x34 then some 0
  else if t = 0x35 then some 0
  else if t = 0x36 then some 2
  else if t = 0x43 then some 2
  else if t = 0x44 then some 2
  else if 0x60 ≤ t ∧ t ≤ 0x65 then some 1
  else if t = 0x66 then some 1
  else if t = 0x67 then some 2
  else if t = 0x70 then some 2
  else if t = 0x71 then some 2
  else if t = 0x72 then some 2
  else if t = 0x73 then some 3
  else if t = 0x80 then some 4
  else if t = 0x90 then some 2
  else if t = 0x91 then some 3
  else if t = 0xA0 then some 0
  else if t = 0xA1 then some 1
  else if 0xA2 ≤ t ∧ t ≤ 0xA4 then some 2
  else if t = 0xA5 then some 1
  else if t = 0xA6 then some 8
  else if t = 0xB0 then some 3
  else if t = 0xB1 then some 4
  else if 0xB2 ≤ t ∧ t ≤ 0xB3 then some 3
  else if 0xB4 ≤ t ∧ t ≤ 0xB5 then some 2
  else if t = 0xC0 then some 4
  else if t = 0xC1 then some 2
  else none

/-- The constant at `idx` if it is a 32-byte key. -/
def poolKey (pool : List Bytes) (idx : ℕ) : Option Bytes32 :=
  match pool[idx]? with
  | some entry => if entry.length = 32 then some (toBytes32 entry) else none
  | none => none

/-- One turn of the scan at `pc`: the next position and locals, `none` if the scan ends here. A
truncated instruction or an unknown tag ends it. -/
def scanStep (pool : List Bytes) (code : Bytes) (pc : ℕ) (s : Scan) : Option (ℕ × Scan) :=
  match code[pc]? with
  | none => none
  | some op =>
    let arg := fun i => code.getD (pc + 1 + i) 0
    let left := code.length - (pc + 1)
    if op = 0x40 then
      if left < 3 then none
      else some (pc + 4, s.setReg (arg 0) (poolKey pool (leNat (slice code (pc + 2) (pc + 4)))))
    else if op = 0x41 then
      if left < 2 then none else some (pc + 3, s.setReg (arg 0) none)
    else if op = 0x42 then
      if left < 9 then none else some (pc + 10, s.setReg (arg 0) none)
    else if op = 0x50 then
      if left < 2 then none else some (pc + 3, s.read (arg 1))
    else if op = 0x51 then
      if left < 2 then none else some (pc + 3, s.write (arg 0))
    else if op = 0x52 then
      if left < 1 then none else some (pc + 2, s.write (arg 0))
    else match skipLen op with
      | some n => some (pc + 1 + n, s)
      | none => none

/-- The scan of the instruction stream from `pc`. Every turn advances `pc`, so `code.length + 1` turns
are enough. -/
def scan (pool : List Bytes) (code : Bytes) : ℕ → ℕ → Scan → Scan
  | 0, _, s => s
  | fuel + 1, pc, s =>
    match scanStep pool code pc s with
    | some (pc', s') => scan pool code fuel pc' s'
    | none => s

/-- `sort_unstable` and `dedup`. -/
def sortDedup (l : List Bytes32) : List Bytes32 := (l.insertionSort (· ≤ ·)).dedup

/-- `CellAccount::analyze_bytecode`. -/
def analyzeBytecode (bytecode : Bytes) : Except String ManifestAnalysis :=
  if bytecode.isEmpty then .ok ⟨[], [], false, false, true⟩
  else if bytecode.length < 6 ∨ bytecode.take 4 ≠ magic then .error "Not Axiom bytecode"
  else match readLe 2 bytecode 6 with
    | none => .error "Truncated bytecode: missing const pool count"
    | some poolCount => do
      let (pool, pos) ← readPool bytecode poolCount 8
      match readLe 4 bytecode pos with
      | none => .error "Truncated bytecode: missing code length"
      | some codeLen =>
        if pos + 4 + codeLen > bytecode.length then .error "Truncated code section"
        else
          let code := slice bytecode (pos + 4) (pos + 4 + codeLen)
          let s := scan pool code (code.length + 1) 0 .init
          .ok ⟨sortDedup s.reads, sortDedup s.writes, s.hasReads, s.hasWrites, s.fullyResolved⟩

/-- `hex::encode` of a key. -/
def hexEncode (k : Bytes32) : String := k.toHex

/-- `CellAccount::verify_manifest_against_bytecode`. -/
def verifyManifestAgainstBytecode (bytecode : Bytes) (declaredReads declaredWrites : List Bytes32)
    (storageKeySpecs : List StorageKeySpec) : Except String Unit :=
  if bytecode.isEmpty then .ok ()
  else do
    let analysis ← analyzeBytecode bytecode
    if analysis.hasStorageReads ∧ declaredReads.isEmpty ∧ storageKeySpecs.isEmpty then
      .error "Bytecode reads storage but declared_reads is empty."
    else if analysis.hasStorageWrites ∧ declaredWrites.isEmpty ∧ storageKeySpecs.isEmpty then
      .error "Bytecode writes storage but declared_writes is empty."
    else if analysis.fullyResolved then
      match analysis.staticReadSlots.find? (· ∉ declaredReads) with
      | some slot => .error ("Bytecode reads slot " ++ hexEncode slot ++ " not in declared_reads.")
      | none =>
        match analysis.staticWriteSlots.find? (· ∉ declaredWrites) with
        | some slot =>
          .error ("Bytecode writes slot " ++ hexEncode slot ++ " not in declared_writes.")
        | none => .ok ()
    else .ok ()

end TruthLinked.Core.Manifest
