import TruthLinked.Core.Types
import TruthLinked.Lib.Goldilocks
import Mathlib.Data.Matrix.Mul

/-! # The circuit of a confidential transfer

`truthlinked-mcp/src/zk_transfer.rs`: the table of 128 rows and 13 columns in which a prover writes five
Rescue permutations and one row of balances, the constraints that a verifier checks on it, and the
commitments. The constants of the permutation (`Rescue`) are those of the proof library. A table is a function
of row and column; cells outside the 128 rows and 13 columns are never looked at. -/

namespace TruthLinked.Zk.Transfer

open Core.Types Lib.Goldilocks Matrix

/-- `STATE_W`. -/
abbrev stateW : ℕ := 12

/-- `NUM_ROUNDS`. -/
def numRounds : ℕ := 7

/-- `ROWS_PER_HASH`. -/
def rowsPerHash : ℕ := numRounds * 2 + 1

/-- `NUM_HASHES`. -/
def numHashes : ℕ := 5

/-- `CONSERVATION_ROW`. -/
def conservationRow : ℕ := numHashes * rowsPerHash

/-- `TRACE_LEN`. -/
def traceLen : ℕ := 128

/-- `hash_start`. -/
def hashStart (h : ℕ) : ℕ := h * rowsPerHash

/-- The constants of `Rp64_256`. -/
structure Rescue where
  mds : Matrix (Fin stateW) (Fin stateW) Felt
  invMds : Matrix (Fin stateW) (Fin stateW) Felt
  ark1 : ℕ → Fin stateW → Felt
  ark2 : ℕ → Fin stateW → Felt

/-- A state of the permutation. -/
abbrev HashState := Fin stateW → Felt

/-- A digest: four elements. -/
abbrev Digest := Fin 4 → Felt

/-- The seventh power, as the source multiplies it out. -/
def pow7 (x : Felt) : Felt :=
  let x2 := x * x
  let x4 := x2 * x2
  x4 * x2 * x

/-! ## The permutation -/

/-- The forward S-box, the matrix and the first round constants. -/
def firstHalf (c : Rescue) (r : ℕ) (s : HashState) : HashState :=
  c.mds *ᵥ (fun i => pow7 (s i)) + c.ark1 r

/-- The inverse S-box, the matrix and the second round constants. -/
def secondHalf (c : Rescue) (r : ℕ) (s : HashState) : HashState :=
  c.mds *ᵥ (fun i => s i ^ invAlpha) + c.ark2 r

/-- `Rescue::apply_permutation`. -/
def applyPermutation (c : Rescue) (s : HashState) : HashState :=
  (List.range numRounds).foldl (fun s r => secondHalf c r (firstHalf c r s)) s

/-! ## Commitments -/

/-- A 16-byte array (`[u8; 16]`). -/
abbrev Bytes16 := { b : Bytes // b.length = 16 }

/-- `u128_to_felts`. -/
def u128ToFelts (v : BitVec 128) : Felt × Felt := ((v.toNat % 2 ^ 64 : ℕ), (v.toNat / 2 ^ 64 : ℕ))

/-- `bytes16_to_felts`. -/
def bytes16ToFelts (b : Bytes16) : Felt × Felt := (leNat (b.1.take 8), leNat (b.1.drop 8))

/-- `build_rescue_input`. -/
def buildRescueInput (bal nonce : BitVec 128) (ctHash : Bytes16) : HashState :=
  ![6, 0, 0, 0, (u128ToFelts bal).1, (u128ToFelts bal).2, (u128ToFelts nonce).1, (u128ToFelts nonce).2,
    (bytes16ToFelts ctHash).1, (bytes16ToFelts ctHash).2, 0, 0]

/-- `build_amount_rescue_input`. -/
def buildAmountRescueInput (amount nonce : BitVec 128) : HashState :=
  ![4, 0, 0, 0, (u128ToFelts amount).1, (u128ToFelts amount).2, (u128ToFelts nonce).1,
    (u128ToFelts nonce).2, 0, 0, 0, 0]

/-- The digest columns of a state. -/
def digestOf (s : HashState) : Digest := ![s 4, s 5, s 6, s 7]

/-- `rescue_commit`. -/
def rescueCommit (c : Rescue) (bal nonce : BitVec 128) (ctHash : Bytes16) : Digest :=
  digestOf (applyPermutation c (buildRescueInput bal nonce ctHash))

/-- `rescue_commit_amount`. -/
def rescueCommitAmount (c : Rescue) (amount nonce : BitVec 128) : Digest :=
  digestOf (applyPermutation c (buildAmountRescueInput amount nonce))

/-! ## The constraints -/

/-- `CtPublicInputs`. -/
structure CtPublicInputs where
  sOld : Digest
  sNew : Digest
  rOld : Digest
  rNew : Digest
  amt : Digest

/-- The periodic columns at one step. -/
structure Periodic where
  ark1 : Fin stateW → Felt
  ark2 : Fin stateW → Felt
  isFirstHalf : Felt
  isConservation : Felt
  isActive : Felt

/-- The loop over hashes and rounds of `get_periodic_column_values`. -/
def roundLoop : List (ℕ × ℕ) :=
  (List.range numHashes).flatMap fun h => (List.range numRounds).map fun r => (h, r)

/-- The round for which the loop writes at a step: `offset` 0 for the first half, 1 for the second. -/
def roundAt (offset step : ℕ) : Option ℕ :=
  (roundLoop.find? fun p => decide (hashStart p.1 + p.2 * 2 + offset = step)).map Prod.snd

/-- The steps inside a hash. -/
def activeStep (step : ℕ) : Bool :=
  (List.range numHashes).any fun h =>
    decide (hashStart h ≤ step ∧ step < hashStart h + rowsPerHash - 1)

/-- `CtAir::get_periodic_column_values`, the columns at `step`. -/
def getPeriodicColumnValues (c : Rescue) (step : ℕ) : Periodic where
  ark1 := ((roundAt 0 step).map c.ark1).getD 0
  ark2 := ((roundAt 1 step).map c.ark2).getD 0
  isFirstHalf := if (roundAt 0 step).isSome then 1 else 0
  isConservation := if step = conservationRow then 1 else 0
  isActive := if activeStep step then 1 else 0

/-- The state columns of a row. -/
def stateOf (row : ℕ → Felt) : HashState := fun i => row i

/-- The constraint of a state column. -/
def stateConstraint (c : Rescue) (cur next : ℕ → Felt) (p : Periodic) (i : Fin stateW) : Felt :=
  let fwd := next i - (c.mds *ᵥ fun j => pow7 (cur j)) i - p.ark1 i
  let bwd := cur i - pow7 ((c.invMds *ᵥ (stateOf next - p.ark2)) i)
  p.isActive * (p.isFirstHalf * fwd + (1 - p.isFirstHalf) * bwd)

/-- The constraints of the conservation row. -/
def conservationConstraints (cur : ℕ → Felt) (p : Periodic) : List Felt :=
  [p.isConservation * (cur 0 - cur 8 - cur 2), p.isConservation * (cur 4 + cur 8 - cur 6),
    p.isConservation * cur 1, p.isConservation * cur 3, p.isConservation * cur 5,
    p.isConservation * cur 7, p.isConservation * cur 9]

/-- `CtAir::evaluate_transition`; the selector column has no constraint. -/
def evaluateTransition (c : Rescue) (cur next : ℕ → Felt) (p : Periodic) : List Felt :=
  List.ofFn (stateConstraint c cur next p) ++ [0] ++ conservationConstraints cur p

/-- `Assertion::single`. -/
structure Assertion where
  column : ℕ
  row : ℕ
  value : Felt

/-- The digests in the order of their hashes. -/
def CtPublicInputs.digests (p : CtPublicInputs) : List Digest := [p.sOld, p.sNew, p.rOld, p.rNew, p.amt]

/-- `CtAir::get_assertions`. -/
def getAssertions (p : CtPublicInputs) : List Assertion :=
  p.digests.zipIdx.flatMap fun (digest, h) =>
    (List.ofFn digest).zipIdx.map fun (val, d) => ⟨4 + d, hashStart h + rowsPerHash - 1, val⟩

/-- A table, by row and column. -/
abbrev Trace := ℕ → ℕ → Felt

/-- The table meets the transition constraints at every step and the assertions for the public inputs. -/
structure Accepts (c : Rescue) (p : CtPublicInputs) (t : Trace) : Prop where
  transition : ∀ step, step + 1 < traceLen →
    ∀ r ∈ evaluateTransition c (t step) (t (step + 1)) (getPeriodicColumnValues c step), r = 0
  boundary : ∀ a ∈ getAssertions p, t a.row a.column = a.value

/-! ## Witnesses -/

/-- `CtWitness`. -/
structure CtWitness where
  sOldBal : BitVec 128
  sNewBal : BitVec 128
  rOldBal : BitVec 128
  rNewBal : BitVec 128
  amount : BitVec 128
  sOldNonce : BitVec 128
  sNewNonce : BitVec 128
  rOldNonce : BitVec 128
  rNewNonce : BitVec 128
  amtNonce : BitVec 128
  ctHashSOld : Bytes16
  ctHashSNew : Bytes16
  ctHashROld : Bytes16
  ctHashRNew : Bytes16

/-- The state in which the prover starts the hash with the given number. -/
def CtWitness.input (w : CtWitness) : ℕ → HashState
  | 0 => buildRescueInput w.sOldBal w.sOldNonce w.ctHashSOld
  | 1 => buildRescueInput w.sNewBal w.sNewNonce w.ctHashSNew
  | 2 => buildRescueInput w.rOldBal w.rOldNonce w.ctHashROld
  | 3 => buildRescueInput w.rNewBal w.rNewNonce w.ctHashRNew
  | _ => buildAmountRescueInput w.amount w.amtNonce

/-- The commitments of a witness, as `CtProver::prove` computes them. -/
def CtWitness.pubInputs (c : Rescue) (w : CtWitness) : CtPublicInputs where
  sOld := rescueCommit c w.sOldBal w.sOldNonce w.ctHashSOld
  sNew := rescueCommit c w.sNewBal w.sNewNonce w.ctHashSNew
  rOld := rescueCommit c w.rOldBal w.rOldNonce w.ctHashROld
  rNew := rescueCommit c w.rNewBal w.rNewNonce w.ctHashRNew
  amt := rescueCommitAmount c w.amount w.amtNonce

end TruthLinked.Zk.Transfer
