import TruthLinked.Consensus.ExecutionOrder
import TruthLinked.Consensus.NodeState
import TruthLinked.Consensus.RootBinding

/-! # Snapshots from peers

`handle_peer_snapshot` takes over the state of a peer. It compares the state root with the data that came
with it and looks at no signature, neither on the snapshot nor in the certificate of the tip header; a node
that is syncing also goes back to a lower height. The check of `apply_received_snapshot` asks for signatures,
of validators that the snapshot itself names. `Safe` says what a snapshot may do to a node, and
`peer_snapshot_safe_iff` for which messages it does no more. -/

namespace TruthLinked.Consensus.PeerSnapshot

open Core.Types Core.Manifest Staking.State Ledger.Model Consensus.Types Consensus.Certificate
open Consensus.ForkChoice Consensus.StateRoot Consensus.NodeState Consensus.RootBinding
open Consensus.ExecutionOrder Lib.Except

/-! ## Signatures -/

/-- `SNAPSHOT_SIGN_CONTEXT`. -/
def snapshotSignContext : Bytes := "truthlinked-snapshot-v1".toUTF8.toList

/-- `compute_message`. -/
def computeMessage (prim : Primitives) (snapshot : StateSnapshot) : Bytes :=
  ofBytes32 (prim.sha256 (leBytes 8 snapshot.height ++ ofBytes32 snapshot.stateRoot ++
    leBytes 8 snapshot.timestamp))

/-- What one entry of `validator_signatures` adds to the signed stake. Every key of the right length
decodes. -/
def addSigned (prim : Primitives) (snapshot : StateSnapshot) (active : StakeMap) (signedStake : ℕ)
    (sig : ValidatorSignature) : Except String ℕ := do
  failIf (sig.validatorPubkey.length ≠ 1952) "Invalid pubkey length"
  failIf (sig.signature.length ≠ 3309) "Invalid signature length"
  if prim.verify sig.validatorPubkey (computeMessage prim snapshot) sig.signature snapshotSignContext then
    pure ((signedStake + stakeAt active sig.validatorPubkey) % u64)
  else pure signedStake

/-- `verify_snapshot`: the stakes are those of the snapshot. -/
def verifySnapshot (prim : Primitives) (snapshot : StateSnapshot) : Except String Unit := do
  failIf (snapshot.validatorSignatures = []) "No signatures on snapshot"
  let active := getActiveValidators snapshot.data.staking
  let total := totalStake snapshot.data.staking % u64
  failIf (total = 0) "No active stake"
  let signedStake ← snapshot.validatorSignatures.foldlM (addSigned prim snapshot active) 0
  failIf (signedStake * 3 % u64 < total * 2 % u64)
    s!"Insufficient stake: {signedStake}/{total} (need 2/3+)"

/-! ## Taking over a snapshot -/

/-- The state that a snapshot brings. -/
def installedState (snapshot : StateSnapshot) : State :=
  { snapshot.data with staking := { snapshot.data.staking with currentHeight := snapshot.height } }

/-- `allow_recovery_rollback`. -/
def allowRecoveryRollback (n : Node) : Bool := n.isSyncing || !n.synced

/-- The snapshot is not above the node, and the node is not recovering. -/
def isStale (n : Node) (snapshot : StateSnapshot) : Bool :=
  decide (snapshot.height ≤ n.currentHeight) && !allowRecoveryRollback n

/-- The state and the heights of the snapshot, stored. -/
def storeState (n : Node) (snapshot : StateSnapshot) : Node :=
  let stored := { n with world := { n.world with state := installedState snapshot } }
  if snapshot.height ≤ n.currentHeight then stored.setRecoveryHeight snapshot.height
  else (stored.setFinalizedHeight snapshot.height).setCurrentHeightMonotonic snapshot.height

/-- A header tree with `header` as its tip, if there is one. -/
def seededChain (prim : Primitives) (header : Option BatchHeader) (stake : ℕ) : BlockChain :=
  match header with
  | some header => (BlockChain.new prim).seedCanonicalTip header stake
  | none => BlockChain.new prim

/-- A node with a database starts a header tree from its own header of that height. -/
def reseed (prim : Primitives) (n : Node) (snapshot : StateSnapshot) : Node :=
  match n.storage with
  | none => n
  | some st =>
    { n with
      chain := seededChain prim (st.loadBatchHeaderByHeight snapshot.height)
        (totalStake (installedState snapshot).staking) }

/-- `apply_snapshot_state`. -/
def applySnapshotState (prim : Primitives) (n : Node) (snapshot : StateSnapshot) : Except String Node := do
  failIf (isStale n snapshot)
    s!"Stale snapshot state at height {snapshot.height} <= current {n.currentHeight}"
  pure (reseed prim (storeState n snapshot) snapshot)

/-- `apply_received_snapshot`. -/
def applyReceivedSnapshot (it : Iteration) (prim : Primitives) (n : Node) (snapshot : StateSnapshot) :
    Except String Node := do
  verifySnapshot prim snapshot
  let computedRoot := computeStateRootFromState it prim.sha256 snapshot.data
  failIf (computedRoot ≠ snapshot.stateRoot)
    (s!"State root mismatch: expected {hexEncode snapshot.stateRoot}, " ++
      s!"got {hexEncode computedRoot}")
  failIf (isStale n snapshot)
    s!"Stale peer snapshot at height {snapshot.height} <= current {n.currentHeight}"
  let stored := reseed prim (storeState n snapshot) snapshot
  pure (stored.onStorage fun st =>
    (match st.loadBatchHeaderByHeight snapshot.height with
      | some header => st.repairStorageAnchorsFromTip header
      | none => st).saveSnapshot snapshot)

/-- The tip header that goes with a snapshot: it names its height and its root. -/
def trustedTipHeader (snapshot : StateSnapshot) (tipHeader : Option BatchHeader) : Option BatchHeader :=
  tipHeader.filter fun header => header.height = snapshot.height && header.stateRoot = snapshot.stateRoot

/-- The header of the message, saved and made the tip of a node with a database. -/
def seedTip (n : Node) (header : Option BatchHeader) : Node :=
  match n.storage, header with
  | some st, some header =>
    { n with
      chain := n.chain.seedCanonicalTip header (totalStake n.world.state.staking)
      storage := some ((st.saveBatchHeader header).repairStorageAnchorsFromTip header) }
  | _, _ => n

/-- `handle_peer_snapshot`. The request for the missing block of that height, at the end, changes nothing
on the node. -/
def handlePeerSnapshot (it : Iteration) (prim : Primitives) (n : Node) (snapshot : StateSnapshot)
    (tipHeader : Option BatchHeader) : Node :=
  if computeStateRootFromState it prim.sha256 snapshot.data ≠ snapshot.stateRoot then n
  else match applySnapshotState prim n snapshot with
    | .error _ => n
    | .ok applied =>
      (seedTip applied (trustedTipHeader snapshot tipHeader)).onStorage fun st => st.saveSnapshot snapshot

/-! ## What a snapshot may do -/

/-- The active stake of the validators with `p`. -/
def stakeWhere (st : StakingState) (p : Bytes → Bool) : ℕ :=
  (((getActiveValidators st).toList.filter fun e => p e.1).map Prod.snd).sum

/-- The validators with `p` hold two thirds of the active stake. -/
def TwoThirds (st : StakingState) (p : Bytes → Bool) : Prop :=
  0 < totalStake st ∧ 2 * totalStake st ≤ 3 * stakeWhere st p

/-- `pk` has signed the snapshot. -/
def signedSnapshot (prim : Primitives) (snapshot : StateSnapshot) (pk : Bytes) : Bool :=
  snapshot.validatorSignatures.any fun sig =>
    sig.validatorPubkey = pk && decide (pk.length = 1952) && decide (sig.signature.length = 3309) &&
      prim.verify pk (computeMessage prim snapshot) sig.signature snapshotSignContext

/-- `pk` has signed the certificate of the tip header, which is about the snapshot. -/
def signedTip (prim : Primitives) (snapshot : StateSnapshot) (tipHeader : Option BatchHeader) (pk : Bytes) :
    Bool :=
  (trustedTipHeader snapshot tipHeader).any fun header =>
    let cert := header.finalityCertificate
    cert.height = header.height && cert.batchHash = header.batchHash && cert.stateRoot = header.stateRoot &&
      cert.signatures.any fun sig =>
        sig.validatorPubkey = pk && verifyAttestationSignature prim (attestationOf cert sig)

/-- **The message carries a quorum** of the validators that the node knows. -/
def Vouched (prim : Primitives) (n : Node) (snapshot : StateSnapshot) (tipHeader : Option BatchHeader) :
    Prop :=
  TwoThirds n.world.state.staking (signedSnapshot prim snapshot) ∨
    TwoThirds n.world.state.staking (signedTip prim snapshot tipHeader)

/-- State, heights and canonical tip of a node. -/
structure View where
  state : State
  currentHeight : ℕ
  finalizedHeight : ℕ
  tip : Bytes32
  tipHeader : Option BatchHeader

/-- What is to be protected. -/
def view (n : Node) : View :=
  ⟨n.world.state, n.currentHeight, n.finalizedHeight, n.chain.canonicalTip, n.canonicalTipHeader⟩

/-- **A snapshot that a peer may send**: it changes the node only with a quorum, and never lowers the
finalised height. -/
structure Safe (it : Iteration) (prim : Primitives) (n : Node) (snapshot : StateSnapshot)
    (tipHeader : Option BatchHeader) : Prop where
  vouched : view (handlePeerSnapshot it prim n snapshot tipHeader) ≠ view n → Vouched prim n snapshot tipHeader
  monotone : n.finalizedHeight ≤ (handlePeerSnapshot it prim n snapshot tipHeader).finalizedHeight

/-! ## The conditions -/

/-- The two checks of the handler. -/
structure Accepts (it : Iteration) (prim : Primitives) (n : Node) (snapshot : StateSnapshot) : Prop where
  root : computeStateRootFromState it prim.sha256 snapshot.data = snapshot.stateRoot
  fresh : isStale n snapshot = false

/-- The header that a node with the database `st` starts from. -/
def tipFor (st : Storage) (snapshot : StateSnapshot) (tipHeader : Option BatchHeader) : Option BatchHeader :=
  (trustedTipHeader snapshot tipHeader).or (st.loadBatchHeaderByHeight snapshot.height)

/-- The node stands where the snapshot stands. -/
structure AlreadyThere (prim : Primitives) (n : Node) (snapshot : StateSnapshot)
    (tipHeader : Option BatchHeader) : Prop where
  state : installedState snapshot = n.world.state
  current : snapshot.height = n.currentHeight
  finalized : snapshot.height = n.finalizedHeight
  tip : ∀ st, n.storage = some st →
    let header := (tipFor st snapshot tipHeader).getD (genesis prim)
    header.batchHash = n.chain.canonicalTip ∧ some header = n.canonicalTipHeader

section Effect
variable {it : Iteration} {prim : Primitives} {n : Node} {snapshot : StateSnapshot}
variable {tipHeader : Option BatchHeader}

theorem applySnapshotState_of_fresh (h : isStale n snapshot = false) :
    applySnapshotState prim n snapshot = .ok (reseed prim (storeState n snapshot) snapshot) := by
  unfold applySnapshotState
  rw [h]
  rfl

theorem handlePeerSnapshot_refused (h : ¬ Accepts it prim n snapshot) :
    handlePeerSnapshot it prim n snapshot tipHeader = n := by
  unfold handlePeerSnapshot
  split_ifs with hroot
  · rfl
  · have hstale : isStale n snapshot = true := by
      by_contra hfresh
      exact h ⟨not_not.mp hroot, Bool.eq_false_iff.mpr hfresh⟩
    unfold applySnapshotState
    rw [hstale]
    rfl

theorem handlePeerSnapshot_accepted (h : Accepts it prim n snapshot) :
    handlePeerSnapshot it prim n snapshot tipHeader =
      (seedTip (reseed prim (storeState n snapshot) snapshot) (trustedTipHeader snapshot tipHeader)).onStorage
        fun st => st.saveSnapshot snapshot := by
  unfold handlePeerSnapshot
  rw [if_neg (not_not.mpr h.root), applySnapshotState_of_fresh h.fresh]

/-- In both branches the node ends at the height of the snapshot; they differ in the finalised height. -/
theorem storeState_eq :
    storeState n snapshot =
      { n with
        world := ⟨installedState snapshot, { n.world.globals with currentHeight := snapshot.height }⟩
        currentHeight := snapshot.height
        finalizedHeight := if snapshot.height ≤ n.currentHeight then snapshot.height
          else max n.finalizedHeight snapshot.height } := by
  unfold storeState
  split_ifs with h
  · rfl
  · have hnot : ¬ snapshot.height < n.currentHeight := fun hlt => h hlt.le
    simp only [Node.setCurrentHeightMonotonic, Node.setFinalizedHeight, World.onGlobals]
    exact if_neg hnot

@[simp] theorem storeState_storage : (storeState n snapshot).storage = n.storage := by rw [storeState_eq]

@[simp] theorem storeState_isSyncing : (storeState n snapshot).isSyncing = n.isSyncing := by
  rw [storeState_eq]

@[simp] theorem reseed_isSyncing : (reseed prim n snapshot).isSyncing = n.isSyncing := by
  unfold reseed
  split <;> rfl

@[simp] theorem seedTip_isSyncing : (seedTip n tipHeader).isSyncing = n.isSyncing := by
  unfold seedTip
  split <;> rfl

theorem handlePeerSnapshot_isSyncing :
    (handlePeerSnapshot it prim n snapshot tipHeader).isSyncing = n.isSyncing := by
  by_cases h : Accepts it prim n snapshot
  · rw [handlePeerSnapshot_accepted h]
    simp [Node.onStorage]
  · rw [handlePeerSnapshot_refused h]

theorem reseed_some {n : Node} {st : Storage} (h : n.storage = some st) (prim : Primitives)
    (snapshot : StateSnapshot) :
    reseed prim n snapshot =
      { n with
        chain := seededChain prim (st.loadBatchHeaderByHeight snapshot.height)
          (totalStake (installedState snapshot).staking) } := by
  unfold reseed
  split
  · rename_i hnone
    rw [h] at hnone
    cases hnone
  · rename_i st' hsome
    rw [h] at hsome
    cases hsome
    rfl

theorem seedTip_none : seedTip n none = n := by
  unfold seedTip
  cases n.storage <;> rfl

theorem seedTip_some {st : Storage} (h : n.storage = some st) (header : BatchHeader) :
    seedTip n (some header) =
      { n with
        chain := n.chain.seedCanonicalTip header (totalStake n.world.state.staking)
        storage := some ((st.saveBatchHeader header).repairStorageAnchorsFromTip header) } := by
  unfold seedTip
  rw [h]

theorem seedCanonicalTip_tip (c : BlockChain) (header : BatchHeader) (stake : ℕ) :
    (c.seedCanonicalTip header stake).headers[(c.seedCanonicalTip header stake).canonicalTip]? =
      some header := by
  simp [BlockChain.seedCanonicalTip]

theorem seededChain_tip (prim : Primitives) (header : Option BatchHeader) (stake : ℕ) :
    (seededChain prim header stake).canonicalTip = (header.getD (genesis prim)).batchHash ∧
      (seededChain prim header stake).headers[(seededChain prim header stake).canonicalTip]? =
        some (header.getD (genesis prim)) := by
  cases header with
  | none => exact ⟨rfl, by simp [seededChain, BlockChain.new]⟩
  | some header => exact ⟨rfl, seedCanonicalTip_tip _ _ _⟩

/-- The finalised height after a snapshot. -/
def finalizedAfter (n : Node) (snapshot : StateSnapshot) : ℕ :=
  if snapshot.height ≤ n.currentHeight then snapshot.height else max n.finalizedHeight snapshot.height

/-- **An accepted snapshot, on a node without a database**: the header tree stays. -/
theorem view_accepted_of_none (h : Accepts it prim n snapshot) (hst : n.storage = none)
    (tipHeader : Option BatchHeader) :
    view (handlePeerSnapshot it prim n snapshot tipHeader) =
      ⟨installedState snapshot, snapshot.height, finalizedAfter n snapshot, n.chain.canonicalTip,
        n.canonicalTipHeader⟩ := by
  have hstored : (storeState n snapshot).storage = none := by rw [storeState_storage, hst]
  have hreseed : reseed prim (storeState n snapshot) snapshot = storeState n snapshot := by
    unfold reseed
    rw [hstored]
  have hseed : seedTip (storeState n snapshot) (trustedTipHeader snapshot tipHeader) =
      storeState n snapshot := by
    unfold seedTip
    rw [hstored]
  rw [handlePeerSnapshot_accepted h, hreseed, hseed, storeState_eq]
  rfl

/-- **An accepted snapshot, on a node with a database**: the tip is the header of the message, or else the
stored one of that height, or else genesis. -/
theorem view_accepted_of_some (h : Accepts it prim n snapshot) {st : Storage} (hst : n.storage = some st)
    (tipHeader : Option BatchHeader) :
    view (handlePeerSnapshot it prim n snapshot tipHeader) =
      ⟨installedState snapshot, snapshot.height, finalizedAfter n snapshot,
        ((tipFor st snapshot tipHeader).getD (genesis prim)).batchHash,
        some ((tipFor st snapshot tipHeader).getD (genesis prim))⟩ := by
  have hstored : (storeState n snapshot).storage = some st := by rw [storeState_storage, hst]
  have hreseed := reseed_some hstored prim snapshot
  rw [handlePeerSnapshot_accepted h]
  cases htip : trustedTipHeader snapshot tipHeader with
  | none =>
    have hnone : tipFor st snapshot tipHeader = st.loadBatchHeaderByHeight snapshot.height := by
      rw [tipFor, htip, Option.none_or]
    obtain ⟨hhash, hheader⟩ := seededChain_tip prim (st.loadBatchHeaderByHeight snapshot.height)
      (totalStake (installedState snapshot).staking)
    rw [seedTip_none, hreseed, storeState_eq, hnone]
    simp only [view, Node.onStorage, Node.canonicalTipHeader]
    rw [hheader, hhash]
    rfl
  | some tip =>
    have hsome : tipFor st snapshot tipHeader = some tip := by
      rw [tipFor, htip, Option.some_or]
    have hseeded : (reseed prim (storeState n snapshot) snapshot).storage = some st := by
      rw [hreseed]
      exact hstored
    rw [seedTip_some hseeded, hreseed, storeState_eq, hsome]
    simp only [view, Node.onStorage, Node.canonicalTipHeader]
    rw [seedCanonicalTip_tip]
    rfl

theorem le_finalizedAfter_iff :
    n.finalizedHeight ≤ finalizedAfter n snapshot ↔
      (snapshot.height ≤ n.currentHeight → n.finalizedHeight ≤ snapshot.height) := by
  unfold finalizedAfter
  split_ifs with h
  · simp [h]
  · simp [h]

/-- A node that ends at the height of the snapshot, with nothing changed, was there before. -/
theorem heights_unchanged_iff :
    snapshot.height = n.currentHeight ∧ finalizedAfter n snapshot = n.finalizedHeight ↔
      snapshot.height = n.currentHeight ∧ snapshot.height = n.finalizedHeight := by
  refine and_congr_right fun h => ?_
  rw [finalizedAfter, if_pos h.le]

/-- **Nothing changes** where the node stands at the snapshot already, and only there. -/
theorem view_unchanged_iff (h : Accepts it prim n snapshot) :
    view (handlePeerSnapshot it prim n snapshot tipHeader) = view n ↔
      AlreadyThere prim n snapshot tipHeader := by
  cases hst : n.storage with
  | none =>
    rw [view_accepted_of_none h hst, view, View.mk.injEq]
    constructor
    · rintro ⟨hstate, hcur, hfin, -⟩
      have hheights := heights_unchanged_iff.mp ⟨hcur, hfin⟩
      refine ⟨hstate, hcur, hheights.2, ?_⟩
      intro st hsome
      rw [hst] at hsome
      cases hsome
    · intro hthere
      have hheights := heights_unchanged_iff.mpr ⟨hthere.current, hthere.finalized⟩
      exact ⟨hthere.state, hheights.1, hheights.2, rfl, rfl⟩
  | some st =>
    rw [view_accepted_of_some h hst, view, View.mk.injEq]
    constructor
    · rintro ⟨hstate, hcur, hfin, hhash, hheader⟩
      have hheights := heights_unchanged_iff.mp ⟨hcur, hfin⟩
      refine ⟨hstate, hcur, hheights.2, ?_⟩
      intro st' hsome
      rw [hst] at hsome
      cases hsome
      exact ⟨hhash, hheader⟩
    · intro hthere
      have hheights := heights_unchanged_iff.mpr ⟨hthere.current, hthere.finalized⟩
      obtain ⟨hhash, hheader⟩ := hthere.tip st hst
      exact ⟨hthere.state, hheights.1, hheights.2, hhash, hheader⟩

theorem finalizedHeight_accepted (h : Accepts it prim n snapshot) :
    (handlePeerSnapshot it prim n snapshot tipHeader).finalizedHeight = finalizedAfter n snapshot := by
  cases hst : n.storage with
  | none => exact congrArg View.finalizedHeight (view_accepted_of_none h hst _)
  | some st => exact congrArg View.finalizedHeight (view_accepted_of_some h hst _)

end Effect

/-- **Which snapshots do no more than they may.** One that the handler accepts needs a quorum, unless the
node stands there already, and must not lie below the finalised height of a node that is at least as high. -/
theorem peer_snapshot_safe_iff (it : Iteration) (prim : Primitives) (n : Node) (snapshot : StateSnapshot)
    (tipHeader : Option BatchHeader) :
    Safe it prim n snapshot tipHeader ↔
      (Accepts it prim n snapshot →
        (Vouched prim n snapshot tipHeader ∨ AlreadyThere prim n snapshot tipHeader) ∧
        (snapshot.height ≤ n.currentHeight → n.finalizedHeight ≤ snapshot.height)) := by
  constructor
  · intro hsafe haccepts
    constructor
    · by_cases hview : view (handlePeerSnapshot it prim n snapshot tipHeader) = view n
      · exact .inr ((view_unchanged_iff haccepts).mp hview)
      · exact .inl (hsafe.vouched hview)
    · rw [← le_finalizedAfter_iff, ← finalizedHeight_accepted haccepts]
      exact hsafe.monotone
  · intro hcond
    by_cases haccepts : Accepts it prim n snapshot
    · obtain ⟨hquorum, hheight⟩ := hcond haccepts
      constructor
      · intro hview
        exact hquorum.resolve_right fun hthere => hview ((view_unchanged_iff haccepts).mpr hthere)
      · rw [finalizedHeight_accepted haccepts]
        exact le_finalizedAfter_iff.mpr hheight
    · have hsame : handlePeerSnapshot it prim n snapshot tipHeader = n :=
        handlePeerSnapshot_refused haccepts
      constructor
      · intro hview
        exact absurd (by rw [hsame]) hview
      · rw [hsame]

/-! ## The two paths

The other function for snapshots from peers asks for signatures. On this path they are not read. -/

section Paths
variable {it : Iteration} {prim : Primitives} {n n' : Node} {snapshot : StateSnapshot}

/-- **`apply_received_snapshot` changes the node only with a verified snapshot**, though the validators that
have to sign are those of the snapshot. -/
theorem applyReceivedSnapshot_verified (h : applyReceivedSnapshot it prim n snapshot = .ok n') :
    verifySnapshot prim snapshot = .ok () ∧ Accepts it prim n snapshot := by
  unfold applyReceivedSnapshot at h
  obtain ⟨_, hverified, h⟩ := bind_eq_ok.mp h
  obtain ⟨hroot, h⟩ := failIf_bind_ok.mp h
  obtain ⟨hfresh, -⟩ := failIf_bind_ok.mp h
  exact ⟨hverified, not_not.mp hroot, Bool.eq_false_iff.mpr hfresh⟩

/-- **`handle_peer_snapshot` does the same whoever has signed.** -/
theorem handlePeerSnapshot_signatures (tipHeader : Option BatchHeader) (sigs : List ValidatorSignature) :
    view (handlePeerSnapshot it prim n { snapshot with validatorSignatures := sigs } tipHeader) =
      view (handlePeerSnapshot it prim n snapshot tipHeader) := by
  by_cases haccepts : Accepts it prim n snapshot
  · have haccepts' : Accepts it prim n { snapshot with validatorSignatures := sigs } :=
      ⟨haccepts.root, haccepts.fresh⟩
    cases hst : n.storage with
    | none =>
      rw [view_accepted_of_none haccepts hst, view_accepted_of_none haccepts' hst]
      rfl
    | some st =>
      rw [view_accepted_of_some haccepts hst, view_accepted_of_some haccepts' hst]
      rfl
  · have hrefused : ¬ Accepts it prim n { snapshot with validatorSignatures := sigs } :=
      fun h => haccepts ⟨h.root, h.fresh⟩
    rw [handlePeerSnapshot_refused haccepts, handlePeerSnapshot_refused hrefused]

theorem not_vouched_of_unsigned (h : snapshot.validatorSignatures = []) : ¬ Vouched prim n snapshot none := by
  have hnone : ∀ st, stakeWhere st (fun _ => false) = 0 := by
    intro st
    simp [stakeWhere]
  have hsnapshot : signedSnapshot prim snapshot = fun _ => false := by
    funext pk
    rw [signedSnapshot, h]
    rfl
  have htip : signedTip prim snapshot none = fun _ => false := rfl
  rintro (⟨hpos, hquorum⟩ | ⟨hpos, hquorum⟩)
  · rw [hsnapshot, hnone] at hquorum
    omega
  · rw [htip, hnone] at hquorum
    omega

end Paths

/-! ## A forged ledger -/

def forgedData : State := { soleWorld.state with staking := ⟨∅, 0, none⟩ }

def forgedRoot : Bytes32 := 0x041985e135d23365652e9be8263222dc40c251a22c4452b232bd51fe8c83b2af

/-- The hash function on the input that occurs here. No signature occurs. -/
def forgedPrim : Primitives where
  blake3 _ := 0
  sha256 bs := if bs = stateRootPreimage keyOrder forgedData then forgedRoot else 0
  verify _ _ _ _ := false

def forgedSnapshot (height : ℕ) : StateSnapshot := ⟨height, forgedRoot, forgedData, [], 0⟩

def freshNode : Node where
  world := soleWorld
  currentHeight := 0
  finalizedHeight := 0
  chain := .new forgedPrim
  storage := some ⟨∅, ∅, ∅, ∅, false⟩
  isSyncing := true
  synced := false

def forgedNode (height : ℕ) (n : Node) : Node :=
  handlePeerSnapshot keyOrder forgedPrim n (forgedSnapshot height) none

theorem forged_accepted {n : Node} (h : n.isSyncing = true) (height : ℕ) :
    Accepts keyOrder forgedPrim n (forgedSnapshot height) := by
  have hroot : computeStateRootFromState keyOrder forgedPrim.sha256 forgedData = forgedRoot := by
    unfold computeStateRootFromState forgedPrim
    exact if_pos rfl
  refine ⟨hroot, ?_⟩
  simp [isStale, allowRecoveryRollback, h]

/-- **A peer sends two snapshots that nobody has signed**, of heights 2 and 1. The first takes the validator
away and finalises height 2, the second lowers the finalised height to 1. -/
theorem unsigned_snapshots_adopted :
    ((forgedNode 2 freshNode).currentHeight = 2 ∧ (forgedNode 2 freshNode).finalizedHeight = 2 ∧
      totalStake freshNode.world.state.staking = minValidatorStake ∧
      totalStake (forgedNode 2 freshNode).world.state.staking = 0 ∧
      ¬ Safe keyOrder forgedPrim freshNode (forgedSnapshot 2) none) ∧
    (forgedNode 1 (forgedNode 2 freshNode)).finalizedHeight = 1 ∧
      ¬ Safe keyOrder forgedPrim (forgedNode 2 freshNode) (forgedSnapshot 1) none := by
  have hfirst := forged_accepted (n := freshNode) rfl 2
  have hview := view_accepted_of_some hfirst rfl none
  have hstate : (forgedNode 2 freshNode).world.state = installedState (forgedSnapshot 2) :=
    congrArg View.state hview
  have hcur : (forgedNode 2 freshNode).currentHeight = 2 := congrArg View.currentHeight hview
  have hfin : (forgedNode 2 freshNode).finalizedHeight = 2 := finalizedHeight_accepted hfirst
  have hsyncing : (forgedNode 2 freshNode).isSyncing = true := handlePeerSnapshot_isSyncing
  have hback : (forgedNode 1 (forgedNode 2 freshNode)).finalizedHeight = 1 := by
    rw [forgedNode, finalizedHeight_accepted (forged_accepted hsyncing 1), finalizedAfter, hcur]
    rfl
  refine ⟨⟨hcur, hfin, by decide +kernel, ?_, ?_⟩, hback, ?_⟩
  · rw [hstate]
    decide +kernel
  · intro hsafe
    refine not_vouched_of_unsigned rfl (hsafe.vouched fun hview => ?_)
    have hheight := congrArg View.currentHeight hview
    rw [view, view] at hheight
    exact absurd (hcur.symm.trans hheight) (by decide)
  · intro hsafe
    have hmono := hsafe.monotone
    rw [hfin] at hmono
    exact absurd (hmono.trans_eq hback) (by decide)

end TruthLinked.Consensus.PeerSnapshot
