import TruthLinked.Consensus.Certificate
import TruthLinked.Ledger.Maintenance
import TruthLinked.Lib.Merkle

/-! # The check of a header with its batch

`validate_sync_header_with_batch` of `streaming_consensus.rs`: the leader and its signature, the
commitment to the transactions of the batch, the root of their execution order, and the certificate. The
commitment and the order are computed from a sorted copy, so that the check does not see the order in which
the batch lists its transactions. Serialisation of a transaction does not fail. -/

namespace TruthLinked.Consensus.Validation

open Core.Types Core.Manifest Staking.State Ledger.Model Consensus.Types Consensus.Certificate Lib.Except
open Lib.SortKey Lib.Merkle

/-- An inner node of a Merkle tree. -/
def merkleNode (prim : Primitives) (a b : Bytes32) : Bytes32 :=
  prim.sha256 ([1] ++ ofBytes32 a ++ ofBytes32 b)

/-- `merkle_root`. -/
def merkleRoot (prim : Primitives) (leaves : List Bytes32) : Bytes32 :=
  root (merkleNode prim) (prim.sha256 []) leaves

section
variable (prim : Primitives) (serialize : Transaction → Bytes)

/-- The hash of a transaction in a batch. -/
def batchTxHash (tx : Transaction) : Bytes32 := prim.blake3 (serialize tx)

/-- `compute_batch_commitment`. -/
def computeBatchCommitment (batch : List Transaction) (parentHash : Bytes32) (height : ℕ) : Bytes32 :=
  merkleRoot prim (sortByKey id (batch.map (batchTxHash prim serialize)) ++
    [prim.blake3 (ofBytes32 parentHash ++ leBytes 8 height)])

/-- What `compute_execution_order` sorts by. -/
def orderKey (commitment : Bytes32) (tx : Transaction) : Bytes32 :=
  prim.blake3 (serialize tx ++ ofBytes32 commitment)

/-- The batch as `compute_execution_order` leaves it. -/
def executionOrder (batch : List Transaction) (commitment : Bytes32) : List Transaction :=
  sortByKey (orderKey prim serialize commitment) batch

/-- The hashes that `compute_execution_order` returns. -/
def computeExecutionOrder (batch : List Transaction) (commitment : Bytes32) : List Bytes32 :=
  (executionOrder prim serialize batch commitment).map (batchTxHash prim serialize)

end

/-- `active_validators`, in key order. -/
def activeValidators (st : StakingState) : List Bytes := (getActiveValidators st).toList.map Prod.fst

/-- `select_leader_hash_round`: the batch does not matter, and a node that sees no validator takes itself. -/
def selectLeaderHashRound (prim : Primitives) (validatorPubkey : Bytes) (st : StakingState)
    (parentHash : Bytes32) (height round : ℕ) : Bytes :=
  let leaderHash := prim.sha256 ("leader-selection-v2".toUTF8.toList ++ ofBytes32 parentHash ++
    leBytes 8 height ++ leBytes 4 round)
  match activeValidators st with
  | [] => validatorPubkey
  | first :: rest =>
    (first :: rest).getD (leNat ((ofBytes32 leaderHash).take 8) % (first :: rest).length) first

/-- `BATCH_SIGN_CONTEXT`. -/
def batchSignContext : Bytes := "truthlinked-batch-v1".toUTF8.toList

/-- `verify_header_leader`; of the proof that it returns, the name. -/
def verifyHeaderLeader (prim : Primitives) (validatorPubkey : Bytes) (st : StakingState)
    (header : BatchHeader) : Except String Unit := do
  failIf (header.leaderPubkey ≠ selectLeaderHashRound prim validatorPubkey st header.parentHash
    header.height header.leaderRound) "InvalidLeader"
  failIf (header.leaderPubkey.length ≠ 1952) "InvalidLeaderSignature"
  failIf (header.leaderSignature.length ≠ 3309) "InvalidLeaderSignature"
  failIf (prim.verify header.leaderPubkey (ofBytes32 header.batchHash) header.leaderSignature
    batchSignContext = false) "InvalidLeaderSignature"

/-- `map_err` with a prefix. -/
def withContext {α : Type} (context : String) : Except String α → Except String α
  | .error e => .error (context ++ e)
  | .ok a => .ok a

/-- `validate_sync_header_with_batch`, on the state that the node has loaded. -/
def validateSyncHeaderWithBatch (prim : Primitives) (serialize : Transaction → Bytes)
    (validatorPubkey : Bytes) (s : State) (header : BatchHeader) (batch : List Transaction) :
    Except String Unit := do
  withContext "Invalid leader signature/selection: "
    (verifyHeaderLeader prim validatorPubkey s.staking header)
  let localCommitment := computeBatchCommitment prim serialize batch header.parentHash header.height
  failIf (header.batchHash ≠ localCommitment)
    (s!"Batch commitment mismatch at height {header.height}: " ++
      s!"expected {hexEncode localCommitment}, got {hexEncode header.batchHash}")
  let localOrderRoot := merkleRoot prim (computeExecutionOrder prim serialize batch header.batchHash)
  failIf (header.executionOrderRoot ≠ localOrderRoot)
    (s!"Execution order mismatch at height {header.height}: " ++
      s!"expected {hexEncode localOrderRoot}, got {hexEncode header.executionOrderRoot}")
  let stakeMap := getActiveValidators s.staking
  let attesters := activeValidators s.staking
  let required := requiredNonLeaderStakeForAttesters stakeMap attesters header.leaderPubkey
  withContext "Attestation verification failed: "
    (verifyAttestationSet prim header attesters stakeMap required)

end TruthLinked.Consensus.Validation
