import TruthLinked.Consensus.ForkChoice
import TruthLinked.Consensus.StateRoot
import TruthLinked.Ledger.Maintenance

/-! # The node and its database

What a message from a peer can change on a node: the ledger with the caches of the process, the two
heights, the header tree and the database of `persistence.rs`. The database answers: no read or write of it
fails, and what was written is read back. The keys `anchor:` and `height:` are always written together and
with the same hash, so the model keeps one map for both. -/

namespace TruthLinked.Consensus.NodeState

open Core.Types Staking.State Ledger.Model Consensus.Types Consensus.ForkChoice

/-- `ValidatorSignature`. -/
structure ValidatorSignature where
  validatorPubkey : Bytes
  signature : Bytes
  deriving DecidableEq

/-- `StateSnapshot`. Its fields for the ledger are those of a state; the list of executed transactions is
read as a set everywhere. -/
structure StateSnapshot where
  height : ℕ
  stateRoot : Bytes32
  data : State
  validatorSignatures : List ValidatorSignature
  timestamp : ℕ

/-- `RAW_BLOCK_RETENTION`. -/
def rawBlockRetention : ℕ := 256

/-- `MAX_SNAPSHOTS_KEPT`. -/
def maxSnapshotsKept : ℕ := 10

/-- `Storage`, as far as headers, batches and snapshots go. -/
structure Storage where
  headers : Map Bytes32 BatchHeader
  anchors : Map ℕ Bytes32
  batches : Map ℕ (Bytes32 × List Transaction)
  snapshots : Map ℕ StateSnapshot
  fullNode : Bool

namespace Storage

/-- `store_anchor`. -/
def storeAnchor (st : Storage) (height : ℕ) (batchHash : Bytes32) : Storage :=
  { st with anchors := st.anchors.insert height batchHash }

/-- `save_batch_header`. -/
def saveBatchHeader (st : Storage) (header : BatchHeader) : Storage :=
  { st with
    headers := st.headers.insert header.batchHash header
    anchors := st.anchors.insert header.height header.batchHash }

/-- `load_batch_header`. -/
def loadBatchHeader (st : Storage) (batchHash : Bytes32) : Option BatchHeader := st.headers[batchHash]?

/-- `load_anchor_hash`. -/
def loadAnchorHash (st : Storage) (height : ℕ) : Option Bytes32 := st.anchors[height]?

/-- `load_batch_header_by_height`. -/
def loadBatchHeaderByHeight (st : Storage) (height : ℕ) : Option BatchHeader :=
  (st.loadAnchorHash height).bind st.loadBatchHeader

/-- `save_batch`. -/
def saveBatch (st : Storage) (height : ℕ) (batchHash : Bytes32) (batch : List Transaction) : Storage :=
  { st with batches := st.batches.insert height (batchHash, batch) }

/-- `save_block`, less the index of transactions and results. -/
def saveBlock (st : Storage) (header : BatchHeader) (batch : List Transaction) : Storage :=
  (st.saveBatchHeader header).saveBatch header.height header.batchHash batch

/-- `prune_old_snapshots`. -/
def pruneOldSnapshots (st : Storage) : Storage :=
  let heights := st.snapshots.toList.map Prod.fst
  { st with snapshots := (heights.take (heights.length - maxSnapshotsKept)).foldl .erase st.snapshots }

/-- `prune_blocks`. -/
def pruneBlocks (st : Storage) (keepFrom : ℕ) : Storage :=
  { st with batches := st.batches.filter fun height _ => decide (keepFrom ≤ height) }

/-- `save_snapshot`, less the checkpoint. -/
def saveSnapshot (st : Storage) (snapshot : StateSnapshot) : Storage :=
  let saved := { st with snapshots := st.snapshots.insert snapshot.height snapshot }.pruneOldSnapshots
  if st.fullNode then saved else saved.pruneBlocks (snapshot.height - rawBlockRetention)

/-- `repair_storage_anchors_from_tip`, for `fuel` headers. -/
def repairAnchors (st : Storage) : (fuel : ℕ) → (cursor : BatchHeader) → Storage
  | 0, _ => st
  | fuel + 1, cursor =>
    let st := st.storeAnchor cursor.height cursor.batchHash
    if cursor.height = 0 ∨ cursor.parentHash = 0 then st
    else match st.loadBatchHeader cursor.parentHash with
      | some parent => st.repairAnchors fuel parent
      | none => st

/-- `repair_storage_anchors_from_tip`. -/
def repairStorageAnchorsFromTip (st : Storage) (tipHeader : BatchHeader) : Storage :=
  st.repairAnchors rawBlockRetention tipHeader

end Storage

/-- The parts of `StreamingConsensus` that sync and recovery read and write. -/
structure Node where
  world : World
  currentHeight : ℕ
  finalizedHeight : ℕ
  chain : BlockChain
  storage : Option Storage
  isSyncing : Bool
  synced : Bool

/-- The sum of the active stakes. -/
def totalStake (st : StakingState) : ℕ := ((getActiveValidators st).toList.map Prod.snd).sum

namespace Node

/-- The header of the canonical tip (`get_canonical_tip`). -/
def canonicalTipHeader (n : Node) : Option BatchHeader := n.chain.headers[n.chain.canonicalTip]?

/-- `set_finalized_height`. -/
def setFinalizedHeight (n : Node) (height : ℕ) : Node :=
  { n with finalizedHeight := max n.finalizedHeight height }

/-- `set_current_height_monotonic`: the height of the process follows a height that is not lower. -/
def setCurrentHeightMonotonic (n : Node) (height : ℕ) : Node :=
  if height < n.currentHeight then n
  else { n with
    currentHeight := height
    world := n.world.onGlobals fun g => { g with currentHeight := height } }

/-- `set_recovery_height`. -/
def setRecoveryHeight (n : Node) (height : ℕ) : Node :=
  { n with
    finalizedHeight := height
    currentHeight := height
    world := n.world.onGlobals fun g => { g with currentHeight := height } }

/-- A new ledger with its height. -/
def storeWorld (n : Node) (w : World) (height : ℕ) : Node :=
  ({ n with world := w }.setFinalizedHeight height).setCurrentHeightMonotonic height

/-- A change of the database, on a node that has one. -/
def onStorage (f : Storage → Storage) (n : Node) : Node := { n with storage := n.storage.map f }

end Node

end TruthLinked.Consensus.NodeState
