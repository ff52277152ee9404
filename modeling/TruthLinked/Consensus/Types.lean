import Mathlib.Data.List.Sort
import TruthLinked.Staking.State

/-! # Attestations, certificates and headers

The records of `truthlinked-consensus/src/blockchain.rs` and the attestation of
`streaming_consensus.rs`, with the stake table and the thresholds that leader and validators derive
from a staking state. A list of attesters comes from the keys of a hash map and has no order of its
own; certificates index its sorted form (`canonical`). -/

namespace TruthLinked.Consensus.Types

open Core.Types Staking.State

/-- What consensus uses of third-party code: two hash functions and the signature check, which also
decodes the key. -/
structure Primitives where
  blake3 : Bytes → Bytes32
  sha256 : Bytes → Bytes32
  verify : (pk message signature context : Bytes) → Bool

/-- The stake of each active validator (`HashMap<Vec<u8>, u64>`). -/
abbrev StakeMap := Map Bytes ℕ

/-- `stake_map.get(pk).copied().unwrap_or(0)`. -/
def stakeAt (stakeMap : StakeMap) (pk : Bytes) : ℕ := stakeMap[pk]?.getD 0

/-- `Attestation`. -/
structure Attestation where
  height : ℕ
  round : ℕ
  batchHash : Bytes32
  stateRoot : Bytes32
  validatorPubkey : Bytes
  signature : Bytes
  deriving DecidableEq

/-- `PqFinalitySignature`. -/
structure PqFinalitySignature where
  validatorIndex : ℕ
  validatorPubkey : Bytes
  signature : Bytes
  deriving DecidableEq

/-- `PqFinalityCertificate`. -/
structure PqFinalityCertificate where
  version : ℕ
  height : ℕ
  round : ℕ
  batchHash : Bytes32
  stateRoot : Bytes32
  signerBitmap : Bytes
  signatures : List PqFinalitySignature
  signatureRoot : Bytes32
  signedStake : ℕ
  deriving DecidableEq

/-- `BatchHeader`. -/
structure BatchHeader where
  height : ℕ
  parentHash : Bytes32
  batchHash : Bytes32
  executionOrderRoot : Bytes32
  stateRoot : Bytes32
  timestamp : ℕ
  totalFees : ℕ
  finalityCertificate : PqFinalityCertificate
  leaderPubkey : Bytes
  leaderSignature : Bytes
  leaderRound : ℕ
  deriving DecidableEq

/-- `attestation_message`. -/
def attestationMessage (height round : ℕ) (batchHash stateRoot : Bytes32) : Bytes :=
  leBytes 8 height ++ leBytes 8 round ++ ofBytes32 batchHash ++ ofBytes32 stateRoot

/-- `ATTESTATION_CONTEXT`. -/
def attestationContext : Bytes := "truthlinked-attestation-v1".toUTF8.toList

/-- `verify_attestation_signature`. -/
def verifyAttestationSignature (prim : Primitives) (att : Attestation) : Bool :=
  decide (att.validatorPubkey.length = 1952) && decide (att.signature.length = 3309) &&
    prim.verify att.validatorPubkey
      (attestationMessage att.height att.round att.batchHash att.stateRoot) att.signature
      attestationContext

/-! ## Stake and thresholds -/

/-- `StakingState::get_active_validators`, which is also `stake_map_from_state`. -/
def getActiveValidators (st : StakingState) : StakeMap :=
  st.validators.filterMap fun _ v => if v.isActive st.currentHeight then some v.activeStake else none

/-- `AttestationPipeline::effective_non_leader_quorum_required`. -/
def effectiveNonLeaderQuorumRequired (nonLeaderTotalStake liveNonLeaderCount : ℕ) : ℕ :=
  if nonLeaderTotalStake = 0 then 0
  else if liveNonLeaderCount ≤ 4 then max (nonLeaderTotalStake / 2) 1
  else satMul64 nonLeaderTotalStake 2 / 3

/-- The stake of the listed attesters other than the leader, added up with saturation. -/
def nonLeaderStake (stakeMap : StakeMap) (attesters : List Bytes) (leader : Bytes) : ℕ :=
  attesters.foldl (fun total pk =>
    if pk = leader then total
    else match stakeMap[pk]? with
      | some stake => satAdd64 total stake
      | none => total) 0

/-- `required_non_leader_stake_for_attesters`. -/
def requiredNonLeaderStakeForAttesters (stakeMap : StakeMap) (attesters : List Bytes)
    (leader : Bytes) : ℕ :=
  let total := nonLeaderStake stakeMap attesters leader
  if total = 0 then 0
  else effectiveNonLeaderQuorumRequired total
    ((attesters.filter fun pk => pk ≠ leader).filter fun pk => stakeMap.contains pk).length

/-! ## Bitmaps -/

/-- Bit `i` of a bitmap, `0` out of range. -/
def bit (bitmap : Bytes) (i : ℕ) : Bool := (bitmap.getD (i / 8) 0).toNat.testBit (i % 8)

/-- `bitmap[i / 8] |= 1u8 << (i % 8)`. -/
def setBit (bitmap : Bytes) (i : ℕ) : Bytes :=
  bitmap.modify (i / 8) fun byte => byte ||| UInt8.ofNat (2 ^ (i % 8))

/-- `u8::count_ones`. -/
def countOnes (byte : UInt8) : ℕ := (List.range 8).countP fun k => byte.toNat.testBit k

/-- The last byte has bits beyond the `n` attesters. -/
def strayBits (bitmap : Bytes) (n : ℕ) : Bool :=
  n % 8 ≠ 0 && bitmap ≠ [] &&
    bitmap.getD (bitmap.length - 1) 0 &&& ~~~(UInt8.ofNat (2 ^ (n % 8)) - 1) ≠ 0

/-- The attesters in byte order, each once (`sort` and `dedup`). -/
def canonical (attesters : List Bytes) : List Bytes := (Std.ExtTreeSet.ofList attesters compare).toList

/-! ## Certificates -/

namespace PqFinalityCertificate

/-- `PqFinalityCertificate::VERSION`. -/
def VERSION : ℕ := 1

/-- `signer_count`. -/
def signerCount (cert : PqFinalityCertificate) : ℕ := (cert.signerBitmap.map countOnes).sum

/-- The order of the signatures under the signature root. -/
def sigLe (a b : PqFinalitySignature) : Bool :=
  (compare (a.validatorIndex, a.validatorPubkey, a.signature)
    (b.validatorIndex, b.validatorPubkey, b.signature)).isLE

/-- `signature_root_for`. -/
def signatureRootFor (prim : Primitives) (signatures : List PqFinalitySignature) : Bytes32 :=
  let sorted := signatures.insertionSort fun a b => sigLe a b
  prim.blake3 ("truthlinked-pq-finality-signature-root-v1".toUTF8.toList ++ leBytes 4 sorted.length ++
    sorted.flatMap fun sig => leBytes 4 sig.validatorIndex ++
      leBytes 4 sig.validatorPubkey.length ++ sig.validatorPubkey ++
      leBytes 4 sig.signature.length ++ sig.signature)

/-- `PqFinalityCertificate::empty`. -/
def empty (prim : Primitives) (height round : ℕ) (batchHash stateRoot : Bytes32) :
    PqFinalityCertificate :=
  { version := VERSION, height, round, batchHash, stateRoot, signerBitmap := [], signatures := [],
    signatureRoot := signatureRootFor prim [], signedStake := 0 }

def compactForGossip (cert : PqFinalityCertificate) : PqFinalityCertificate :=
  { cert with signatures := [] }

end PqFinalityCertificate

end TruthLinked.Consensus.Types
