import TruthLinked.Runtime.Cells
import TruthLinked.Oracle.Tally

/-! # State diffs

The record types of `truthlinked-runtime/src/types.rs`: accounts, the updates a transaction can ask
for, and `StateDiff`, which holds all of them. Vectors are lists; the fields that the code keeps in hash
maps are maps. -/

namespace TruthLinked.Runtime.Types

open Core.Types Runtime.Cells Governance.Types Staking.State Oracle.Tally

/-- `AccountRecord`. -/
structure AccountRecord where
  pubkeyBytes : Bytes
  balance : ℕ
  computeEscrowTlkd : ℕ
  nonce : ℕ
  nfts : List Bytes32
  deriving DecidableEq

/-- An account that holds nothing. -/
def AccountRecord.fresh (pubkey : Bytes) : AccountRecord := ⟨pubkey, 0, 0, 0, []⟩

/-- `NFTRecord`. -/
structure NFTRecord where
  nftId : Bytes32
  owner : AccountId
  name : String
  metadataUri : String
  mintedAt : ℕ
  collection : Option Bytes32
  royaltyBps : ℕ
  royaltyRecipient : Option AccountId
  approved : Option AccountId
  deriving DecidableEq

/-- `StakingUpdate`. -/
inductive StakingUpdate where
  | stake (validator : Bytes) (amount : ℕ)
  | unstake (validator : Bytes) (amount : ℕ)
  | withdraw (validator : Bytes)
  | slash (validator : Bytes) (reason : SlashReason) (amount : ℕ) (redistribution : List (Bytes × ℕ))
  | unjail (validator : Bytes)
  deriving DecidableEq

/-- `DeltaOp`. -/
inductive DeltaOp where
  | add (delta : ℤ)
  | max (value : ℕ)
  | or (value : Bool)
  | append (data : Bytes)
  deriving DecidableEq

/-- Reads a 128-bit word as a signed number. -/
def toI128 (n : ℕ) : ℤ := if n < 2 ^ 127 then n else (n : ℤ) - 2 ^ 128

/-- Wraps an integer into the signed 128-bit range. -/
def wrapI128 (z : ℤ) : ℤ := toI128 (z % 2 ^ 128).toNat

/-- `DeltaOp::compose`; the sum of two deltas wraps. -/
def DeltaOp.compose : DeltaOp → DeltaOp → Option DeltaOp
  | .add a, .add b => some (.add (wrapI128 (a + b)))
  | .max a, .max b => some (.max (Nat.max a b))
  | .or a, .or b => some (.or (a || b))
  | .append a, .append b => some (.append (a ++ b))
  | _, _ => none

/-- `DeltaOp::apply` on a 32-byte slot, cut back to 32 bytes as the caller does. -/
def DeltaOp.apply (op : DeltaOp) (base : Bytes32) : Bytes32 :=
  let low := leNat ((ofBytes32 base).take 16)
  let out : Bytes := match op with
    | .add delta =>
      leBytes 16 ((Min.min (Max.max (toI128 low + delta) (-2 ^ 127)) (2 ^ 127 - 1)) % 2 ^ 128).toNat
    | .max value => leBytes 16 (Nat.max low value)
    | .or value => [if (ofBytes32 base).headD 0 ≠ 0 ∨ value then 1 else 0]
    | .append data => ofBytes32 base ++ data
  toBytes32 (out.take 32 ++ List.replicate (32 - out.length) 0)

/-- `StorageDelta`. -/
abbrev StorageDelta := Map Bytes32 DeltaOp

/-- `StorageDelta::compose`: an operation that does not compose with the one present is dropped. -/
def composeDelta (d other : StorageDelta) : StorageDelta :=
  other.toList.foldl (fun d (key, delta) =>
    match d[key]? with
    | some existing =>
      match existing.compose delta with
      | some composed => d.insert key composed
      | none => d
    | none => d.insert key delta) d

/-- `OracleUpdate`. -/
inductive OracleUpdate where
  | queueRequest (req : OracleRequest)
  | addCommit (requestId : Bytes32) (commit : OracleCommit)
  | addReveal (requestId : Bytes32) (reveal : OracleReveal)
  | finalizeResult (result : OracleResult)
  | addUrlProposal (proposal : UrlProposal)
  | voteUrlProposal (urlPattern : String) (voterPk : Bytes) (stakeForDelta stakeAgainstDelta : ℕ)
  | slashUrlProposer (urlPattern : String)
  | addSchemaProposal (proposal : SchemaProposal)
  | voteSchemaProposal (schemaId : Bytes32) (voterPk : Bytes) (stakeForDelta stakeAgainstDelta : ℕ)
  | setVisibility (cellId : AccountId) (visibility : CellVisibility)
  deriving DecidableEq

/-- `CellUpdate`. -/
inductive CellUpdate where
  | deploy (cellId : AccountId) (cell : CellAccount)
  | storageChange (cellId : AccountId) (storageDiff : Map Bytes32 (Option Bytes32))
  | balanceChange (cellId : AccountId) (newBalance : ℕ)
  | remove (cellId : AccountId)
  | upgrade (cellId : AccountId) (newBytecode : Bytes)
      (newDeclaredReads newDeclaredWrites newCommutativeKeys : List Bytes32)
      (newStorageKeySpecs : List StorageKeySpec) (newOracleSchemaIds : List Bytes32) (timestamp : ℕ)
  | transferOwnership (cellId newOwner : AccountId)
  | acceptOwnership (cellId caller : AccountId)
  | makeImmutable (cellId caller : AccountId)
  deriving DecidableEq

/-- `StateDiff`, without the audit fields `fee_burned` and `gas_breakdown`, which nothing reads. The
default is the empty diff. -/
structure StateDiff where
  accountUpdates : Map AccountId AccountRecord := ∅
  stakingUpdates : List StakingUpdate := []
  nftUpdates : Map Bytes32 (Option NFTRecord) := ∅
  cellUpdates : List CellUpdate := []
  gasFee : ℕ := 0
  nameFee : ℕ := 0
  cuFee : ℕ := 0
  treasuryFee : ℕ := 0
  computeFeeTlkd : ℕ := 0
  txHash : Bytes32 := 0
  txHashes : FSet Bytes32 := ∅
  pendingNameProposals : List (String × PendingNameRegistration × AccountId × Bool) := []
  nameVotes : List (String × Bytes × ℕ) := []
  pendingTokenAuthorityProposals : List (AccountId × TokenAuthorityProposal) := []
  tokenAuthorityVotes : List (AccountId × Bytes × ℕ) := []
  nameRenewals : List (String × ℕ) := []
  nameTransfers : List (String × AccountId) := []
  nativeTransfers : List (AccountId × ℕ) := []
  nativeDebits : List (AccountId × ℕ) := []
  computeEscrowCredits : List (AccountId × ℕ) := []
  computeEscrowDebits : List (AccountId × ℕ) := []
  tokenCredits : List (AccountId × AccountId × ℕ) := []
  tokenBalanceUpdates : List ((AccountId × AccountId) × ℕ) := []
  stakingRewards : List (AccountId × ℕ) := []
  cellCredits : List (AccountId × ℕ) := []
  cellDebits : List (AccountId × ℕ) := []
  storageDeltas : Map AccountId StorageDelta := ∅
  airdropClaims : List (AccountId × ℕ) := []
  mintedAmount : ℕ := 0
  frozenAccountUpdates : List ((AccountId × AccountId) × Bool) := []
  oracleUpdates : List OracleUpdate := []
  paramUpdates : List (Bytes32 × Bytes32) := []
  nonceUpdates : List (AccountId × ℕ) := []
  gasFeeSpent : ℕ := 0
  nameFeeSpent : ℕ := 0
  computeFeeSpent : ℕ := 0
  treasuryFeeSpent : ℕ := 0
  isSystem : Bool := false
  deriving DecidableEq

end TruthLinked.Runtime.Types
