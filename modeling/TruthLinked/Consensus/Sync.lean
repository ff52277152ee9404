import TruthLinked.Consensus.HeaderTree
import TruthLinked.Consensus.NodeState
import TruthLinked.Consensus.Validation

/-! # Blocks from peers

`handle_sync_response_from_peer` with what it calls: the check of the shape of a response, `apply_sync_batch`
and `process_sync_buffer`, and the hand-over to a waiting repair (`block_repairer.rs`). Each response is
worked off by a task of its own, block by block; between two of its segments any other task may run, and one
of these segments is the wait for the lock of the sync buffer, so that `apply_sync_batch` can use a height
that is no longer current. What the rest of the node does to ledger, heights, header tree and database is the
event `other`; this includes the fork switch that follows a failed block, and the snapshot that is written
after one.

Beside the state of the node a run keeps a history: the blocks that passed the check, each with the node
before it, and what did not come from a response (`own`). -/

namespace TruthLinked.Consensus.Sync

open Core.Types Core.Manifest Staking.State Ledger.Model Ledger.Executor Ledger.Maintenance Consensus.Types
open Consensus.ForkChoice Consensus.StateRoot Consensus.NodeState Consensus.Validation Lib.Except

/-- What does not change during a run: the code outside the repository and the key of the node. -/
structure Setup where
  prim : Primitives
  env : Env
  split : List PartResult → Split PartResult
  it : Iteration
  validatorPubkey : Bytes

/-- A block of a response. The results that come with it go to the index of transactions only. -/
structure Block where
  header : BatchHeader
  batch : List Transaction

/-! ## The shape of a response -/

/-- `P2PMessage::SyncResponse`. -/
structure SyncResponse where
  requestFromHeight : ℕ
  requestToHeight : ℕ
  requestAnchorHeight : ℕ
  requestAnchorHash : Bytes32
  responderHeight : ℕ
  blocks : List Block

/-- `hex::encode(&hash[..8])`. -/
def hexStart (hash : Bytes32) : String := String.ofList ((hexEncode hash).toList.take 16)

/-- The headers continue one another from a height and a parent. -/
def checkContiguous : (expectedHeight : ℕ) → (expectedParent : Bytes32) → List BatchHeader → Except String Unit
  | _, _, [] => pure ()
  | expectedHeight, expectedParent, header :: rest => do
    failIf (header.height ≠ expectedHeight)
      s!"non-contiguous sync response: expected height {expectedHeight}, got {header.height}"
    failIf (header.parentHash ≠ expectedParent)
      (s!"sync response block {header.height} parent {hexStart header.parentHash} " ++
        s!"does not extend expected {hexStart expectedParent}")
    checkContiguous (satAdd64 expectedHeight 1) header.batchHash rest

/-- `validate_sync_response_shape`. -/
def validateSyncResponseShape (r : SyncResponse) : Except String Unit := do
  let headers := r.blocks.map Block.header
  failIf (headers = []) "empty sync response"
  failIf (r.requestFromHeight = 0 ∨ satAdd64 r.requestAnchorHeight 1 ≠ r.requestFromHeight)
    (s!"invalid echoed anchor height {r.requestAnchorHeight} for request " ++
      s!"{r.requestFromHeight}-{r.requestToHeight}")
  let expectedLen := satAdd64 (r.requestToHeight - r.requestFromHeight) 1
  failIf (headers.length ≠ expectedLen)
    (s!"partial sync response: got {headers.length} headers for request " ++
      s!"{r.requestFromHeight}-{r.requestToHeight} (expected {expectedLen})")
  failIf (r.responderHeight < r.requestToHeight)
    s!"responder height {r.responderHeight} is below requested tail {r.requestToHeight}"
  checkContiguous r.requestFromHeight r.requestAnchorHash headers

/-! ## Anchors -/

/-- `get_batch_by_height`. A walk that visits more headers than there are never ends. -/
def getBatchByHeight (c : BlockChain) (height : ℕ) : Option BatchHeader :=
  (HeaderTree.getBatchByHeight c height (c.headers.size + 1)).join

/-- `get_batch_by_height_from_storage`. -/
def getBatchByHeightFromStorage (c : BlockChain) (height : ℕ) (st : Storage) : Option BatchHeader :=
  (getBatchByHeight c height).or (st.loadBatchHeaderByHeight height)

/-- The hash that the node knows for a height. -/
def localAnchorHash (n : Node) (height : ℕ) : Option Bytes32 :=
  if height = 0 then some 0
  else (n.storage.bind fun st => st.loadAnchorHash height).or
    ((n.storage.bind fun st => (getBatchByHeightFromStorage n.chain height st).map BatchHeader.batchHash).or
      (((getBatchByHeight n.chain height).map BatchHeader.batchHash).or
        ((n.canonicalTipHeader.filter fun tip => tip.height = height).map BatchHeader.batchHash)))

/-- The tip is set back to the stored header of the anchor, where the node has finalised just the anchor. -/
def reseedAnchor (n : Node) (anchorHeight : ℕ) (anchorHash : Bytes32) : Node :=
  if n.finalizedHeight = anchorHeight ∧ 0 < anchorHeight ∧
      n.canonicalTipHeader.map BatchHeader.batchHash ≠ some anchorHash then
    match n.storage.bind fun st => st.loadBatchHeaderByHeight anchorHeight with
    | some header =>
      if header.batchHash = anchorHash then
        { n with chain := n.chain.seedCanonicalTip header (totalStake n.world.state.staking) }
      else n
    | none => n
  else n

/-- The first block of a response extends the tip, and there is no gap below it. -/
def extendsTip (n : Node) (first : BatchHeader) : Bool :=
  if first.height = satAdd64 n.finalizedHeight 1 then
    match n.canonicalTipHeader with
    | some tip => first.parentHash = tip.batchHash
    | none => true
  else first.height ≤ satAdd64 n.finalizedHeight 1

/-! ## Applying a block -/

/-- What follows the check in `apply_sync_batch` and in `process_sync_buffer`. A header that the tree refuses
leaves the new ledger and the new heights behind. -/
def applyNext (c : Setup) (n : Node) (b : Block) : Except String Unit × Node :=
  match n.canonicalTipHeader with
  | none =>
    (.error s!"Canonical tip missing: Canonical tip header missing: {hexEncode n.chain.canonicalTip}", n)
  | some tip =>
    if b.header.parentHash ≠ tip.batchHash then
      (.error (s!"Parent hash mismatch at height {b.header.height}: expected {hexEncode tip.batchHash}, " ++
        s!"got {hexEncode b.header.parentHash}"), n)
    else match executeBatch c.env c.split n.world b.batch with
      | .error e => (.error e, n)
      | .ok w =>
        let computedRoot := computeStateRootFromState c.it c.prim.sha256 w.state
        if computedRoot ≠ b.header.stateRoot then
          (.error (s!"State root mismatch at height {b.header.height}: expected " ++
            s!"{hexEncode b.header.stateRoot}, got {hexEncode computedRoot}"), n)
        else
          let stored := n.storeWorld w b.header.height
          match stored.chain.addHeader b.header with
          | (.error e, _) => (.error e, stored)
          | (.ok _, chain) =>
            let seeded := chain.seedCanonicalTip b.header (totalStake w.state.staking)
            (.ok (), { stored with chain := seeded }.onStorage fun st => st.saveBlock b.header b.batch)

/-- The sync buffer: blocks under their heights. -/
structure SyncBuffer where
  entries : Map ℕ Block
  keyed : ∀ (height : ℕ) (b : Block), entries[height]? = some b → b.header.height = height

namespace SyncBuffer

/-- The empty buffer. -/
def empty : SyncBuffer := ⟨∅, by simp⟩

/-- `sync_buffer.remove`. -/
def remove (buffer : SyncBuffer) (height : ℕ) : SyncBuffer where
  entries := buffer.entries.erase height
  keyed k b h := by
    rw [Std.ExtTreeMap.getElem?_erase] at h
    split at h
    · cases h
    · exact buffer.keyed k b h

/-- `sync_buffer.insert`. -/
def insert (buffer : SyncBuffer) (b : Block) : SyncBuffer where
  entries := buffer.entries.insert b.header.height b
  keyed k b' h := by
    rw [Std.ExtTreeMap.getElem?_insert] at h
    split at h
    · rename_i heq
      cases h
      exact Std.LawfulEqOrd.eq_of_compare heq
    · exact buffer.keyed k b' h

/-- The lowest entry is dropped. -/
def dropOldest (buffer : SyncBuffer) : SyncBuffer :=
  match buffer.entries.toList.head? with
  | some (oldest, _) => buffer.remove oldest
  | none => buffer

end SyncBuffer

/-! ## The state of a run -/

/-- Where the task of a response stands. -/
inductive Stage where
  /-- It looks at its next block. -/
  | look
  /-- It has found that the block has the finalised height. -/
  | anchor (b : Block)
  /-- It waits for the lock in `apply_sync_batch`, with the height that it has read. -/
  | apply (b : Block) (seen : ℕ)

/-- The task of a response. -/
structure Handler where
  blocks : List Block
  stage : Stage

/-- A block that passed the check, and the node on which it did. -/
structure Acceptance where
  before : Node
  block : Block

/-- A header or a batch in the database or in the header tree. -/
inductive Entry where
  | header (h : BatchHeader)
  | batch (height : ℕ) (hash : Bytes32) (txs : List Transaction)

/-- The node holds an entry. -/
def Held (n : Node) : Entry → Prop
  | .header h => (∃ k : Bytes32, n.chain.headers[k]? = some h) ∨
      ∃ st, n.storage = some st ∧ ∃ k : Bytes32, st.headers[k]? = some h
  | .batch height hash txs => ∃ st, n.storage = some st ∧ st.batches[height]? = some (hash, txs)

/-- The entries of a block. -/
def Block.Gives (b : Block) (e : Entry) : Prop :=
  e = .header b.header ∨ e = .batch b.header.height b.header.batchHash b.batch

/-- The node with the tasks of the sync and the history of the run. -/
structure SyncState where
  node : Node
  syncBuffer : SyncBuffer
  /-- The heights for which a repair waits. -/
  waiting : FSet ℕ
  handlers : List Handler
  /-- The blocks on their way to a repair. -/
  deliveries : List Block
  accepted : List Acceptance
  own : Entry → Prop

/-- A node before it gets a response. -/
def start (n : Node) (syncBuffer : SyncBuffer) (waiting : FSet ℕ) : SyncState :=
  { node := n, syncBuffer, waiting, handlers := [], deliveries := [], accepted := [], own := Held n }

/-! ## The steps -/

section
variable (c : Setup)

/-- `validate_sync_header_with_batch` on the state of the node. -/
def check (n : Node) (b : Block) : Except String Unit :=
  validateSyncHeaderWithBatch c.prim c.env.serialize c.validatorPubkey n.world.state b.header b.batch

/-- A checked block is applied; the history takes it in when it is stored. -/
def acceptNext (s : SyncState) (b : Block) : Except String Unit × SyncState :=
  match applyNext c s.node b with
  | (.ok _, node) => (.ok (), { s with node, accepted := ⟨s.node, b⟩ :: s.accepted })
  | (.error e, node) => (.error e, { s with node })

/-- `process_sync_buffer`, for at most `fuel` blocks. -/
def processSyncBuffer : (fuel : ℕ) → SyncState → Except String Unit × SyncState
  | 0, s => (.ok (), s)
  | fuel + 1, s =>
    match s.syncBuffer.entries[s.node.currentHeight + 1]? with
    | none => (.ok (), s)
    | some b =>
      let taken := { s with syncBuffer := s.syncBuffer.remove (s.node.currentHeight + 1) }
      match check c s.node b with
      | .error e => (.error e, taken)
      | .ok _ =>
        match acceptNext c taken b with
        | (.error e, s') => (.error e, s')
        | (.ok _, s') => processSyncBuffer fuel s'

/-- `gp::get_usize(gp::PARAM_STREAMING_MAX_SYNC_BUFFER_SIZE)`. -/
def maxSyncBufferSize (n : Node) : ℕ := n.world.globals.getU64 c.env "streaming.max_sync_buffer_size"

/-- A block that is not the next one goes to the buffer. -/
def bufferBatch (s : SyncState) (seen : ℕ) (b : Block) : Except String Unit × SyncState :=
  let limit := maxSyncBufferSize c s.node
  let buffer := if limit ≤ s.syncBuffer.entries.size then s.syncBuffer.dropOldest else s.syncBuffer
  if b.header.height < seen - limit then
    (.error s!"Batch too old: height {b.header.height} < {seen - limit}", { s with syncBuffer := buffer })
  else (.ok (), { s with syncBuffer := buffer.insert b })

/-- `apply_sync_batch`, once it has the lock. -/
def applySyncBatch (s : SyncState) (seen : ℕ) (b : Block) : Except String Unit × SyncState :=
  if b.header.height ≤ seen then (.ok (), s)
  else match check c s.node b with
    | .error e => (.error e, s)
    | .ok _ =>
      if b.header.height ≠ seen + 1 then bufferBatch c s seen b
      else match acceptNext c s b with
        | (.error e, s') => (.error e, s')
        | (.ok _, s') => processSyncBuffer c (s'.syncBuffer.entries.size + 1) s'

/-- `handle_sync_response_from_peer` before its loop: the response is dropped, or its blocks get a task. -/
def receive (s : SyncState) (r : SyncResponse) : SyncState :=
  match r.blocks with
  | [] => s
  | first :: _ =>
    if (validateSyncResponseShape r).isOk = false then s
    else if localAnchorHash s.node r.requestAnchorHeight ≠ some r.requestAnchorHash then s
    else if r.requestAnchorHeight < s.node.finalizedHeight then s
    else
      let node := reseedAnchor s.node r.requestAnchorHeight r.requestAnchorHash
      if extendsTip node first.header then
        { s with node, handlers := s.handlers ++ [⟨r.blocks, .look⟩] }
      else { s with node }

/-- A task changes its place. -/
def SyncState.setHandler (s : SyncState) (i : ℕ) (h : Handler) : SyncState :=
  { s with handlers := s.handlers.set i h }

/-- The loop looks at a block: a waiting repair gets a copy, and the height decides what follows. -/
def look (s : SyncState) (i : ℕ) (b : Block) (rest : List Block) : SyncState :=
  let height := b.header.height
  let s := if s.waiting.contains height then { s with deliveries := s.deliveries ++ [b] } else s
  if height < s.node.finalizedHeight then s.setHandler i ⟨rest, .look⟩
  else if height = s.node.finalizedHeight then s.setHandler i ⟨rest, .anchor b⟩
  else s.setHandler i ⟨rest, .apply b s.node.currentHeight⟩

/-- The branch for a block of the finalised height: it becomes the tip, unless the tip has another hash. -/
def seedAnchor (n : Node) (header : BatchHeader) : Node :=
  match n.canonicalTipHeader with
  | some tip =>
    if tip.batchHash ≠ header.batchHash then n
    else { n with chain := n.chain.seedCanonicalTip header (totalStake n.world.state.staking) }.onStorage
      fun st => st.saveBatchHeader header
  | none => { n with chain := n.chain.seedCanonicalTip header (totalStake n.world.state.staking) }.onStorage
      fun st => st.saveBatchHeader header

/-- The next segment of task `i`. A block that fails ends the task. -/
def work (s : SyncState) (i : ℕ) : SyncState :=
  match s.handlers[i]? with
  | none => s
  | some ⟨[], .look⟩ => s
  | some ⟨b :: rest, .look⟩ => look s i b rest
  | some ⟨rest, .anchor b⟩ => { s with node := seedAnchor s.node b.header }.setHandler i ⟨rest, .look⟩
  | some ⟨rest, .apply b seen⟩ =>
    match applySyncBatch c s seen b with
    | (.ok _, s') => s'.setHandler i ⟨rest, .look⟩
    | (.error _, s') => s'.setHandler i ⟨[], .look⟩

/-- `deliver_repaired_block` and the end of `repair_block`: the repair saves what it gets. -/
def deliver (s : SyncState) (j : ℕ) : SyncState :=
  match s.deliveries[j]? with
  | none => s
  | some b =>
    let sent := { s with deliveries := s.deliveries.eraseIdx j }
    if s.waiting.contains b.header.height then
      { sent with
        waiting := s.waiting.erase b.header.height
        node := s.node.onStorage fun st => st.saveBlock b.header b.batch }
    else sent

/-- What can happen. -/
inductive Event where
  | respond (r : SyncResponse)
  | work (i : ℕ)
  | deliver (j : ℕ)
  /-- Another task, or the part of a repair before it waits or after it gives up. -/
  | other (node : Node) (syncBuffer : SyncBuffer) (waiting : FSet ℕ)

/-- One step. What another task adds to the node is its own. -/
def step (s : SyncState) : Event → SyncState
  | .respond r => receive s r
  | .work i => work c s i
  | .deliver j => deliver s j
  | .other node syncBuffer waiting =>
    { s with node, syncBuffer, waiting, own := fun e => s.own e ∨ (Held node e ∧ ¬ Held s.node e) }

end

end TruthLinked.Consensus.Sync
