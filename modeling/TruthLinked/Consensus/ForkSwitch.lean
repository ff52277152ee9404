import TruthLinked.Consensus.DoubleSign
import TruthLinked.Consensus.SyncOrder
import TruthLinked.Staking.Slash
import Mathlib.Data.BitVec

/-! # Switching to another branch

`handle_fork_switch` of `streaming_consensus.rs`, and `process_header_with_batch` up to its call. The switch
restores the state of the common ancestor from a snapshot and the stored batches, and executes the stored
batches of the heights of the new branch. It looks for batches by height, where the database holds one batch
at most, and `process_header_with_batch` calls it before the new batch is stored and after the canonical tip
has moved. Equivocations are slashed in the live state before anything can fail.

The settings of the process that an execution refreshes are followed through the switch; what a failed one
leaves of them is not. -/

namespace TruthLinked.Consensus.ForkSwitch

open Core.Types Core.Manifest Staking.State Staking.Slash Ledger.Model Ledger.Maintenance Consensus.Types
open Consensus.ForkChoice Consensus.StateRoot Consensus.NodeState Consensus.Validation Consensus.DoubleSign
open Lib.Except Lib.Loop Lib.Wp
open Consensus.HeaderTree (chainBetweenTurn getChainBetween commonAncestorTurn findCommonAncestor)
open Consensus.Sync (Setup)

/-- What the database answers, which may fail: `load_latest_snapshot_before` and `load_batch`. -/
structure Archive where
  loadLatestSnapshotBefore : ℕ → Except String (Option StateSnapshot)
  loadBatch : ℕ → Except String (Option (List Transaction))

/-- What a switch uses besides the node. -/
structure Switcher extends Setup where
  storage : Option Archive
  isKey : Bytes → Bool
  slashPercentage : SlashReason → ℕ

section Code
variable (c : Switcher)

/-- `compute_state_root`. -/
def stateRoot (w : World) : Bytes32 := computeStateRootFromState c.it c.prim.sha256 w.state

/-- `load_batch_at_height`. -/
def loadBatchAtHeight (height : ℕ) : Except String (List Transaction) := do
  let storage ← okOr c.storage "Storage not initialized"
  match storage.loadBatch height with
  | .error e => throw s!"Failed to load batch at height {height}: {e}"
  | .ok batch => okOr batch s!"Batch at height {height} not found"

/-- The stored batches of some heights, executed one after the other. -/
def replayHeights : List ℕ → World → Except String World
  | [], w => pure w
  | height :: heights, w => do
    let batch ← loadBatchAtHeight c height
    let w ← executeBatch c.env c.split w batch
    replayHeights heights w

/-- `load_state_at_height`, with the settings of the process. -/
def loadStateAtHeight (globals : Globals) (height : ℕ) : Except String World := do
  let storage ← okOr c.storage "Storage not initialized"
  match storage.loadLatestSnapshotBefore height with
  | .error e => throw s!"Failed to load snapshot: {e}"
  | .ok snapshot =>
    let snapshot ← okOr snapshot s!"No snapshot found at or before height {height}"
    if snapshot.height = height then pure ⟨snapshot.data, globals⟩
    else replayHeights c (List.range' (snapshot.height + 1) (height - snapshot.height)) ⟨snapshot.data, globals⟩

/-- The evidence that `detect_and_slash_equivocation` makes, in the order in which it meets the heights. -/
def equivocations (oldChain newChain : List BatchHeader) : List DoubleSignEvidence :=
  (c.it.entries (blocksByHeight oldChain)).filterMap fun (height, old) =>
    (blocksByHeight newChain)[height]?.bind fun new => evidenceAt height old new

/-- `detect_and_slash_misbehavior`: a slash that fails is logged. -/
def slashOne (st : StakingState) (ev : DoubleSignEvidence) : StakingState :=
  match outcome (slashValidator (verifyDoubleSignEvidence c.prim c.isKey) c.slashPercentage ev.validatorPubkey
      .doubleSign (some ev)) st with
  | (.ok _, st') => st'
  | (.error _, _) => st

/-- The stakes after `detect_and_slash_equivocation`. -/
def slashedStakes (oldChain newChain : List BatchHeader) (st : StakingState) : StakingState :=
  (equivocations c oldChain newChain).foldl (slashOne c) st

/-- `detect_and_slash_equivocation`. -/
def detectAndSlash (oldChain newChain : List BatchHeader) (n : Node) : Node :=
  { n with world := n.world.onState fun s => { s with staking := slashedStakes c oldChain newChain s.staking } }

/-- The loop over the new branch. -/
def replayBranch : List BatchHeader → World → Except String World
  | [], w => pure w
  | header :: headers, w => do
    let batch ← loadBatchAtHeight c header.height
    let w ← executeBatch c.env c.split w batch
    failIf (stateRoot c w ≠ header.stateRoot)
      (s!"State root mismatch at height {header.height}: expected {hexEncode header.stateRoot}, " ++
        s!"got {hexEncode (stateRoot c w)}")
    replayBranch headers w

/-- The state of the common ancestor, and the new branch on it. -/
def replay (globals : Globals) (common : BatchHeader) (applyChain : List BatchHeader) : Except String World := do
  let w ← loadStateAtHeight c globals common.height
  replayBranch c applyChain w

/-- `handle_fork_switch`, with so many turns for each loop over the header tree. -/
def handleForkSwitch (fuel : ℕ) (n : Node) (oldTip newTip : Bytes32) : Option (Except String Unit × Node) := do
  match ← findCommonAncestor n.chain oldTip newTip fuel with
  | none => some (.error "No common ancestor found", n)
  | some ancestor =>
    match n.chain.headers[ancestor]? with
    | none => some (.error "Common ancestor header not found", n)
    | some common =>
      let oldChain ← getChainBetween n.chain ancestor oldTip fuel
      let applyChain ← getChainBetween n.chain ancestor newTip fuel
      let slashed := detectAndSlash c oldChain applyChain n
      if common.height < n.finalizedHeight then
        some (.error (s!"Cannot reorg past finalized height {n.finalizedHeight} " ++
          s!"(common ancestor at {common.height})"), slashed)
      else
        match replay c n.world.globals common applyChain with
        | .error e => some (.error e, slashed)
        | .ok w =>
          let newHeight := (applyChain.getLast?.map BatchHeader.height).getD common.height
          some (.ok (), { slashed.setFinalizedHeight newHeight with world := w })

/-- The header tree of `process_header_with_batch` where it calls the switch, and the old tip: the header is
valid, its batch leads to its root, and the fork choice has moved the canonical tip to it. -/
def switchRequested (n : Node) (header : BatchHeader) (batch : List Transaction) :
    Option (Bytes32 × BlockChain) := do
  (validateSyncHeaderWithBatch c.prim c.env.serialize c.validatorPubkey n.world.state header batch).toOption
  let w ← (executeBatch c.env c.split n.world batch).toOption
  guard (stateRoot c w = header.stateRoot)
  match n.chain.addHeader header with
  | (.error _, _) => none
  | (.ok (), chain) =>
    match chain.setCanonicalTip header.batchHash (totalStake w.state.staking) with
    | (.ok (true, some oldTip), chain) =>
      if (chain.headers[chain.canonicalTip]?).map BatchHeader.batchHash = some header.batchHash then
        some (oldTip, chain)
      else none
    | _ => none

/-- The switch of `process_header_with_batch`, with the old tip, where it makes one. -/
def processHeaderSwitch (fuel : ℕ) (n : Node) (header : BatchHeader) (batch : List Transaction) :
    Option (Bytes32 × Except String Unit × Node) := do
  let (oldTip, chain) ← switchRequested c n header batch
  let result ← handleForkSwitch c fuel { n with chain } oldTip header.batchHash
  pure (oldTip, result)

end Code

/-! ## What a switch should do -/

section Spec
variable (c : Switcher) (n : Node)

/-- The branch to a new tip: its common ancestor with the old tip, and its headers from there on. -/
def Branch (fuel : ℕ) (oldTip newTip : Bytes32) (common : BatchHeader)
    (oldChain applyChain : List BatchHeader) : Prop :=
  ∃ k, findCommonAncestor n.chain oldTip newTip fuel = some (some k) ∧
    n.chain.headers[k]? = some common ∧ getChainBetween n.chain k oldTip fuel = some oldChain ∧
    getChainBetween n.chain k newTip fuel = some applyChain

/-- The batch is the one that the header commits to. -/
def CommittedBy (header : BatchHeader) (batch : List Transaction) : Prop :=
  computeBatchCommitment c.prim c.env.serialize batch header.parentHash header.height = header.batchHash

/-- The world is the result of executing, from a state that has the root of the common ancestor, the batches
that the headers of the branch commit to, and it has the root of the new tip. -/
def FollowsBranch (newTip : Bytes32) (common : BatchHeader) (applyChain : List BatchHeader) (w : World) : Prop :=
  (∃ tip, n.chain.headers[newTip]? = some tip ∧ stateRoot c w = tip.stateRoot) ∧
    ∃ (w₀ : World) (batches : List (List Transaction)), stateRoot c w₀ = common.stateRoot ∧
      List.Forall₂ (CommittedBy c) applyChain batches ∧ batches.foldlM (executeBatch c.env c.split) w₀ = .ok w

/-- A switch that goes through follows the new branch. -/
def FollowsNew (fuel : ℕ) (oldTip newTip : Bytes32) : Prop :=
  ∀ n', handleForkSwitch c fuel n oldTip newTip = some (.ok (), n') →
    ∃ common oldChain applyChain, Branch n fuel oldTip newTip common oldChain applyChain ∧
      FollowsBranch c n newTip common applyChain n'.world

/-- A switch that fails leaves the live state. -/
def LeavesState (fuel : ℕ) (oldTip newTip : Bytes32) : Prop :=
  ∀ e n', handleForkSwitch c fuel n oldTip newTip = some (.error e, n') → n'.world.state = n.world.state

/-- A switch that fails in `process_header_with_batch` leaves the canonical tip on the old branch. -/
def LeavesTip (fuel : ℕ) (header : BatchHeader) (batch : List Transaction) : Prop :=
  ∀ oldTip e n', processHeaderSwitch c fuel n header batch = some (oldTip, .error e, n') →
    n'.chain.canonicalTip = oldTip

/-- What the database holds belongs to the branch: the state that it restores for the common ancestor has the
root of that header, and the batches at the heights of the branch are those that its headers commit to. -/
structure Archived (common : BatchHeader) (applyChain : List BatchHeader) : Prop where
  ancestor : ∀ w, loadStateAtHeight c n.world.globals common.height = .ok w → stateRoot c w = common.stateRoot
  batches : ∀ header ∈ applyChain, ∀ batch, loadBatchAtHeight c header.height = .ok batch →
    CommittedBy c header batch

/-- What the database restores for the ancestor and executes on it follows the branch. -/
def StoredFollows (newTip : Bytes32) (common : BatchHeader) (applyChain : List BatchHeader) : Prop :=
  ∀ w, n.finalizedHeight ≤ common.height → replay c n.world.globals common applyChain = .ok w →
    FollowsBranch c n newTip common applyChain w

/-- The switch to the branch goes through: the ancestor is not below the finalised height, its state is
restored, and the stored batches lead from there to the roots of the headers. -/
def GoesThrough (common : BatchHeader) (applyChain : List BatchHeader) : Prop :=
  n.finalizedHeight ≤ common.height ∧ (replay c n.world.globals common applyChain).isOk = true

/-- No slash of the two branches changes the stakes. -/
def Spared (oldChain applyChain : List BatchHeader) : Prop :=
  slashedStakes c oldChain applyChain n.world.state.staking = n.world.state.staking

/-- The loops of the switch over the header tree end. -/
def LoopsEnd (fuel : ℕ) (oldTip newTip : Bytes32) : Prop :=
  ∃ r, findCommonAncestor n.chain oldTip newTip fuel = some r ∧ ∀ k, r = some k →
    (getChainBetween n.chain k oldTip fuel).isSome = true ∧ (getChainBetween n.chain k newTip fuel).isSome = true

/-- The two tips have a branch, and the switch to it goes through. -/
def HasBranch (fuel : ℕ) (oldTip newTip : Bytes32) : Prop :=
  ∃ common oldChain applyChain, Branch n fuel oldTip newTip common oldChain applyChain ∧
    GoesThrough c n common applyChain

end Spec

/-! ## The branch -/

section Branches
variable {n : Node} {chain : BlockChain} {fuel : ℕ} {oldTip newTip k : Bytes32} {headers : List BatchHeader}

theorem stored_of_commonAncestor (h : findCommonAncestor chain oldTip newTip fuel = some (some k)) :
    (∃ common, chain.headers[k]? = some common) ∧ ∃ tip, chain.headers[newTip]? = some tip := by
  obtain ⟨chainA, -, hloop⟩ := Option.bind_eq_some_iff.mp h
  constructor
  · obtain ⟨current, -, hturn⟩ :=
      exists_inr_of_loop (I := fun _ => True) (fun _ _ _ _ => trivial) trivial hloop
    unfold commonAncestorTurn at hturn
    cases hheader : chain.headers[current]? with
    | none =>
      rw [hheader] at hturn
      cases hturn
    | some header =>
      rw [hheader] at hturn
      dsimp only at hturn
      split_ifs at hturn
      · cases hturn
        exact ⟨header, hheader⟩
      · cases hturn
  · cases hheader : chain.headers[newTip]? with
    | some tip => exact ⟨tip, rfl⟩
    | none =>
      -- the second loop would end at once
      cases fuel with
      | zero => cases hloop
      | succ fuel =>
        simp only [loop, commonAncestorTurn, hheader] at hloop
        cases hloop

theorem getLast_chainBetween {tip : BatchHeader} (hne : newTip ≠ k) (htip : chain.headers[newTip]? = some tip)
    (h : getChainBetween chain k newTip fuel = some headers) : headers.getLast? = some tip := by
  have hfirst : chainBetweenTurn chain k (newTip, []) = .inl (tip.parentHash, [tip]) := by
    simp only [chainBetweenTurn, if_neg hne, htip, List.nil_append]
  cases fuel with
  | zero => cases h
  | succ fuel =>
    rw [getChainBetween, loop_succ_inl hfirst] at h
    have hgrows : ∀ s s' : Bytes32 × List BatchHeader, s.2.head? = some tip →
        chainBetweenTurn chain k s = .inl s' → s'.2.head? = some tip := by
      rintro ⟨current, acc⟩ s' hacc hturn
      unfold chainBetweenTurn at hturn
      dsimp only at hturn hacc
      split_ifs at hturn
      split at hturn
      · cases hturn
        rw [List.head?_append, hacc, Option.some_or]
      · cases hturn
    obtain ⟨⟨current, acc⟩, hacc, hturn⟩ := exists_inr_of_loop hgrows rfl h
    unfold chainBetweenTurn at hturn
    dsimp only at hturn hacc
    have hheaders : headers = acc.reverse := by
      split_ifs at hturn
      · exact (Sum.inr.inj hturn).symm
      · split at hturn
        · cases hturn
        · exact (Sum.inr.inj hturn).symm
    rw [hheaders, List.getLast?_reverse]
    exact hacc

theorem chainBetween_self (h : getChainBetween chain k k fuel = some headers) : headers = [] := by
  cases fuel with
  | zero => cases h
  | succ fuel =>
    simp only [getChainBetween, loop, chainBetweenTurn, if_true, List.reverse_nil, Option.some.injEq] at h
    exact h.symm

end Branches

/-! ## The switch -/

section Switch
variable {c : Switcher} {n : Node} {fuel : ℕ} {oldTip newTip : Bytes32}
variable {common : BatchHeader} {oldChain applyChain : List BatchHeader}

theorem replayBranch_ok {headers : List BatchHeader} {w w' : World} (h : replayBranch c headers w = .ok w') :
    (∃ batches,
      List.Forall₂ (fun header batch => loadBatchAtHeight c header.height = .ok batch) headers batches ∧
      batches.foldlM (executeBatch c.env c.split) w = .ok w') ∧
    ∀ tip, headers.getLast? = some tip → stateRoot c w' = tip.stateRoot := by
  induction headers generalizing w with
  | nil =>
    refine ⟨⟨[], .nil, h⟩, ?_⟩
    rintro tip ⟨⟩
  | cons header headers ih =>
    obtain ⟨batch, hbatch, h⟩ := bind_eq_ok.mp h
    obtain ⟨w₁, hexec, h⟩ := bind_eq_ok.mp h
    obtain ⟨hroot, h⟩ := failIf_bind_ok.mp h
    obtain ⟨⟨batches, hloads, hrun⟩, hlast⟩ := ih h
    refine ⟨⟨batch :: batches, .cons hbatch hloads, ?_⟩, ?_⟩
    · rw [List.foldlM_cons, hexec]
      exact hrun
    · intro tip htip
      cases headers with
      | nil =>
        cases htip
        cases h
        exact not_not.mp hroot
      | cons header' headers =>
        rw [List.getLast?_cons_cons] at htip
        exact hlast tip htip

theorem handle_of_branch (h : Branch n fuel oldTip newTip common oldChain applyChain) :
    (GoesThrough c n common applyChain → ∃ w, replay c n.world.globals common applyChain = .ok w ∧
      handleForkSwitch c fuel n oldTip newTip = some (.ok (),
        { (detectAndSlash c oldChain applyChain n).setFinalizedHeight
            ((applyChain.getLast?.map BatchHeader.height).getD common.height) with world := w })) ∧
    (¬ GoesThrough c n common applyChain → ∃ e, handleForkSwitch c fuel n oldTip newTip =
      some (.error e, detectAndSlash c oldChain applyChain n)) := by
  obtain ⟨k, hancestor, hcommon, hold, hnew⟩ := h
  have hswitch : handleForkSwitch c fuel n oldTip newTip =
      if common.height < n.finalizedHeight then
        some (.error (s!"Cannot reorg past finalized height {n.finalizedHeight} " ++
          s!"(common ancestor at {common.height})"), detectAndSlash c oldChain applyChain n)
      else
        match replay c n.world.globals common applyChain with
        | .error e => some (.error e, detectAndSlash c oldChain applyChain n)
        | .ok w => some (.ok (), { (detectAndSlash c oldChain applyChain n).setFinalizedHeight
            ((applyChain.getLast?.map BatchHeader.height).getD common.height) with world := w }) := by
    simp only [handleForkSwitch, hancestor, hcommon, hold, hnew, Option.bind_eq_bind, Option.bind_some]
  rw [hswitch]
  constructor
  · rintro ⟨hfinal, hreplay⟩
    rw [if_neg (Nat.not_lt.mpr hfinal)]
    cases hw : replay c n.world.globals common applyChain with
    | error e =>
      rw [hw] at hreplay
      cases hreplay
    | ok w => exact ⟨w, rfl, rfl⟩
  · intro hnot
    by_cases hfinal : common.height < n.finalizedHeight
    · rw [if_pos hfinal]
      exact ⟨_, rfl⟩
    · rw [if_neg hfinal]
      cases hw : replay c n.world.globals common applyChain with
      | error e => exact ⟨e, rfl⟩
      | ok w =>
        refine absurd ⟨Nat.not_lt.mp hfinal, ?_⟩ hnot
        rw [hw]
        rfl

theorem handle_of_no_branch
    (h : ∀ common oldChain applyChain, ¬ Branch n fuel oldTip newTip common oldChain applyChain)
    {r : Except String Unit × Node} (hr : handleForkSwitch c fuel n oldTip newTip = some r) :
    ∃ e, r = (.error e, n) := by
  unfold handleForkSwitch at hr
  cases hancestor : findCommonAncestor n.chain oldTip newTip fuel with
  | none =>
    rw [hancestor] at hr
    cases hr
  | some found =>
    rw [hancestor] at hr
    cases found with
    | none =>
      cases hr
      exact ⟨_, rfl⟩
    | some k =>
      obtain ⟨⟨common, hcommon⟩, -⟩ := stored_of_commonAncestor hancestor
      simp only [Option.bind_eq_bind, Option.bind_some, hcommon] at hr
      obtain ⟨oldChain, hold, hr⟩ := Option.bind_eq_some_iff.mp hr
      obtain ⟨applyChain, hnew, hr⟩ := Option.bind_eq_some_iff.mp hr
      exact absurd ⟨k, hancestor, hcommon, hold, hnew⟩ (h common oldChain applyChain)

theorem Branch.unique {common' : BatchHeader} {oldChain' applyChain' : List BatchHeader}
    (h : Branch n fuel oldTip newTip common oldChain applyChain)
    (h' : Branch n fuel oldTip newTip common' oldChain' applyChain') :
    common' = common ∧ applyChain' = applyChain := by
  obtain ⟨k, hancestor, hcommon, -, hnew⟩ := h
  obtain ⟨k', hancestor', hcommon', -, hnew'⟩ := h'
  rw [hancestor] at hancestor'
  cases hancestor'
  rw [hcommon] at hcommon'
  rw [hnew] at hnew'
  exact ⟨(Option.some.inj hcommon').symm, (Option.some.inj hnew').symm⟩

/-- **A database that belongs to the branch** leads along it. -/
theorem storedFollows_of_archived (hbranch : Branch n fuel oldTip newTip common oldChain applyChain)
    (hstored : Archived c n common applyChain) : StoredFollows c n newTip common applyChain := by
  intro w _ hreplay
  obtain ⟨w₀, hload, hrun⟩ := bind_eq_ok.mp hreplay
  obtain ⟨⟨batches, hloads, hexec⟩, hlast⟩ := replayBranch_ok hrun
  have hroot := hstored.ancestor w₀ hload
  obtain ⟨k, hancestor, hcommon, -, hnew⟩ := hbranch
  obtain ⟨-, tip, htip⟩ := stored_of_commonAncestor hancestor
  refine ⟨⟨tip, htip, ?_⟩, w₀, batches, hroot, ?_, hexec⟩
  · by_cases hk : newTip = k
    · -- the new tip is the ancestor, whose state has been restored
      subst hk
      rw [hcommon] at htip
      cases htip
      rw [chainBetween_self hnew] at hrun
      cases hrun
      exact hroot
    · exact hlast tip (getLast_chainBetween hk htip hnew)
  · have hcommitted : ∀ (headers : List BatchHeader) (batches : List (List Transaction)),
        (∀ header ∈ headers, header ∈ applyChain) →
        List.Forall₂ (fun header batch => loadBatchAtHeight c header.height = .ok batch) headers batches →
        List.Forall₂ (CommittedBy c) headers batches := by
      intro headers batches hmem hloads
      induction hloads with
      | nil => exact .nil
      | cons hbatch _ ih =>
        refine .cons (hstored.batches _ (hmem _ List.mem_cons_self) _ hbatch) (ih fun x hx => ?_)
        exact hmem x (List.mem_cons_of_mem _ hx)
    exact hcommitted applyChain batches (fun _ h => h) hloads

/-- **A switch that goes through** follows the new branch iff what the database holds does. -/
theorem followsNew_iff : FollowsNew c n fuel oldTip newTip ↔
    ∀ common oldChain applyChain, Branch n fuel oldTip newTip common oldChain applyChain →
      StoredFollows c n newTip common applyChain := by
  constructor
  · intro hfollows common oldChain applyChain hbranch w hfinal hreplay
    have hgoes : GoesThrough c n common applyChain := by
      refine ⟨hfinal, ?_⟩
      rw [hreplay]
      rfl
    obtain ⟨w', hreplay', hok⟩ := (handle_of_branch hbranch).1 hgoes
    rw [hreplay] at hreplay'
    cases hreplay'
    obtain ⟨common', oldChain', applyChain', hbranch', hworld⟩ := hfollows _ hok
    obtain ⟨rfl, rfl⟩ := hbranch.unique hbranch'
    exact hworld
  · intro hstored n' hok
    by_cases hbranch : ∃ common oldChain applyChain, Branch n fuel oldTip newTip common oldChain applyChain
    · obtain ⟨common, oldChain, applyChain, hbranch⟩ := hbranch
      obtain ⟨hthrough, hfails⟩ := handle_of_branch (c := c) hbranch
      by_cases hgoes : GoesThrough c n common applyChain
      · obtain ⟨w, hreplay, hswitch⟩ := hthrough hgoes
        rw [hswitch] at hok
        cases hok
        exact ⟨common, oldChain, applyChain, hbranch,
          hstored common oldChain applyChain hbranch w hgoes.1 hreplay⟩
      · obtain ⟨e, herror⟩ := hfails hgoes
        rw [herror] at hok
        cases hok
    · obtain ⟨e, herror⟩ := handle_of_no_branch
        (fun common oldChain applyChain h => hbranch ⟨common, oldChain, applyChain, h⟩) hok
      cases herror

/-- **A switch that fails** leaves the live state iff no slash of the two branches changed the stakes. -/
theorem leavesState_iff : LeavesState c n fuel oldTip newTip ↔
    ∀ common oldChain applyChain, Branch n fuel oldTip newTip common oldChain applyChain →
      GoesThrough c n common applyChain ∨ Spared c n oldChain applyChain := by
  constructor
  · intro hleaves common oldChain applyChain hbranch
    by_cases hgoes : GoesThrough c n common applyChain
    · exact .inl hgoes
    · obtain ⟨e, herror⟩ := (handle_of_branch (c := c) hbranch).2 hgoes
      exact .inr (congrArg State.staking (hleaves e _ herror))
  · intro hcond e n' herror
    by_cases hbranch : ∃ common oldChain applyChain, Branch n fuel oldTip newTip common oldChain applyChain
    · obtain ⟨common, oldChain, applyChain, hbranch⟩ := hbranch
      obtain ⟨hthrough, hfails⟩ := handle_of_branch (c := c) hbranch
      by_cases hgoes : GoesThrough c n common applyChain
      · obtain ⟨w, -, hok⟩ := hthrough hgoes
        rw [hok] at herror
        cases herror
      · obtain ⟨e', hfailed⟩ := hfails hgoes
        rw [hfailed] at herror
        cases herror
        have hspared := (hcond common oldChain applyChain hbranch).resolve_left hgoes
        show { n.world.state with staking := slashedStakes c oldChain applyChain n.world.state.staking } = _
        rw [hspared]
    · obtain ⟨e', hsame⟩ := handle_of_no_branch
        (fun common oldChain applyChain h => hbranch ⟨common, oldChain, applyChain, h⟩) herror
      cases hsame
      rfl

theorem handle_fails_iff : (∃ e n', handleForkSwitch c fuel n oldTip newTip = some (.error e, n')) ↔
    LoopsEnd n fuel oldTip newTip ∧ ¬ HasBranch c n fuel oldTip newTip := by
  constructor
  · rintro ⟨e, n', herror⟩
    refine ⟨?_, ?_⟩
    · unfold handleForkSwitch at herror
      obtain ⟨found, hancestor, herror⟩ := Option.bind_eq_some_iff.mp herror
      refine ⟨found, hancestor, ?_⟩
      rintro k rfl
      obtain ⟨⟨common, hcommon⟩, -⟩ := stored_of_commonAncestor hancestor
      simp only [hcommon] at herror
      obtain ⟨oldChain, hold, herror⟩ := Option.bind_eq_some_iff.mp herror
      obtain ⟨applyChain, hnew, -⟩ := Option.bind_eq_some_iff.mp herror
      exact ⟨Option.isSome_of_eq_some hold, Option.isSome_of_eq_some hnew⟩
    · rintro ⟨common, oldChain, applyChain, hbranch, hgoes⟩
      obtain ⟨w, -, hok⟩ := (handle_of_branch hbranch).1 hgoes
      rw [hok] at herror
      cases herror
  · rintro ⟨⟨found, hancestor, hchains⟩, hno⟩
    cases found with
    | none =>
      refine ⟨"No common ancestor found", n, ?_⟩
      unfold handleForkSwitch
      rw [hancestor]
      rfl
    | some k =>
      obtain ⟨⟨common, hcommon⟩, -⟩ := stored_of_commonAncestor hancestor
      obtain ⟨hold, hnew⟩ := hchains k rfl
      obtain ⟨oldChain, hold⟩ := Option.isSome_iff_exists.mp hold
      obtain ⟨applyChain, hnew⟩ := Option.isSome_iff_exists.mp hnew
      have hbranch : Branch n fuel oldTip newTip common oldChain applyChain :=
        ⟨k, hancestor, hcommon, hold, hnew⟩
      obtain ⟨e, herror⟩ := (handle_of_branch (c := c) hbranch).2
        fun hgoes => hno ⟨common, oldChain, applyChain, hbranch, hgoes⟩
      exact ⟨e, _, herror⟩

theorem handle_chain {r : Except String Unit × Node} (h : handleForkSwitch c fuel n oldTip newTip = some r) :
    r.2.chain = n.chain := by
  by_cases hbranch : ∃ common oldChain applyChain, Branch n fuel oldTip newTip common oldChain applyChain
  · obtain ⟨common, oldChain, applyChain, hbranch⟩ := hbranch
    obtain ⟨hthrough, hfails⟩ := handle_of_branch (c := c) hbranch
    by_cases hgoes : GoesThrough c n common applyChain
    · obtain ⟨w, -, hok⟩ := hthrough hgoes
      rw [hok] at h
      cases h
      rfl
    · obtain ⟨e, herror⟩ := hfails hgoes
      rw [herror] at h
      cases h
      rfl
  · obtain ⟨e, rfl⟩ := handle_of_no_branch
      (fun common oldChain applyChain h => hbranch ⟨common, oldChain, applyChain, h⟩) h
    rfl

end Switch

/-! ## A header that is preferred to the tip -/

section Header
variable {c : Switcher} {n : Node} {header : BatchHeader} {batch : List Transaction}

theorem tip_of_switchRequested {oldTip : Bytes32} {chain : BlockChain}
    (h : switchRequested c n header batch = some (oldTip, chain)) :
    chain.canonicalTip = header.batchHash ∧ oldTip ≠ header.batchHash := by
  unfold switchRequested at h
  obtain ⟨_, -, h⟩ := Option.bind_eq_some_iff.mp h
  obtain ⟨w, -, h⟩ := Option.bind_eq_some_iff.mp h
  obtain ⟨_, -, h⟩ := Option.bind_eq_some_iff.mp h
  split at h
  · cases h
  · split at h
    · rename_i chain₁ _ _ oldTip' chain₂ hset
      split_ifs at h with htip
      cases h
      unfold BlockChain.setCanonicalTip at hset
      split at hset
      · cases hset
      · split_ifs at hset
        · cases hset
        · dsimp only at hset
          split at hset
          · cases hset
          · split_ifs at hset with hprefers hswitched
            · cases hset
              exact ⟨rfl, hswitched.1⟩
            · cases hset
            · cases hset
    · cases h

/-- **The canonical tip** is left on the old branch iff no switch that is asked for fails. -/
theorem leavesTip_iff {fuel : ℕ} : LeavesTip c n fuel header batch ↔
    ∀ oldTip chain, switchRequested c n header batch = some (oldTip, chain) →
      LoopsEnd { n with chain } fuel oldTip header.batchHash →
      HasBranch c { n with chain } fuel oldTip header.batchHash := by
  constructor
  · intro hleaves oldTip chain hasked hloops
    by_contra hno
    obtain ⟨e, n', herror⟩ := handle_fails_iff.mpr ⟨hloops, hno⟩
    have hprocess : processHeaderSwitch c fuel n header batch = some (oldTip, .error e, n') := by
      unfold processHeaderSwitch
      rw [hasked]
      simp only [Option.bind_eq_bind, Option.bind_some, herror]
      rfl
    obtain ⟨htip, hne⟩ := tip_of_switchRequested hasked
    have hleft := hleaves oldTip e n' hprocess
    have hsame : n'.chain = chain := handle_chain herror
    rw [hsame, htip] at hleft
    exact hne hleft.symm
  · intro hcond oldTip e n' hprocess
    unfold processHeaderSwitch at hprocess
    obtain ⟨⟨oldTip', chain⟩, hasked, hprocess⟩ := Option.bind_eq_some_iff.mp hprocess
    obtain ⟨result, herror, hresult⟩ := Option.bind_eq_some_iff.mp hprocess
    cases hresult
    obtain ⟨hloops, hno⟩ := handle_fails_iff.mp ⟨e, n', herror⟩
    exact absurd (hcond _ _ hasked hloops) hno

end Header

/-- **All or nothing.** A switch that goes through follows the new branch exactly if what the database holds
by height does, as when the stored batches are those of the branch. One that fails leaves the live state
exactly if no slash changed the stakes, and `process_header_with_batch` leaves the canonical tip exactly if no
switch that it asks for fails. -/
theorem fork_switch_iff (c : Switcher) (fuel : ℕ) (n : Node) (oldTip newTip : Bytes32) (header : BatchHeader)
    (batch : List Transaction) :
    (FollowsNew c n fuel oldTip newTip ↔
        ∀ common oldChain applyChain, Branch n fuel oldTip newTip common oldChain applyChain →
          StoredFollows c n newTip common applyChain) ∧
      (∀ common oldChain applyChain, Branch n fuel oldTip newTip common oldChain applyChain →
        Archived c n common applyChain → StoredFollows c n newTip common applyChain) ∧
      (LeavesState c n fuel oldTip newTip ↔
        ∀ common oldChain applyChain, Branch n fuel oldTip newTip common oldChain applyChain →
          GoesThrough c n common applyChain ∨ Spared c n oldChain applyChain) ∧
      (LeavesTip c n fuel header batch ↔
        ∀ oldTip chain, switchRequested c n header batch = some (oldTip, chain) →
          LoopsEnd { n with chain } fuel oldTip header.batchHash →
          HasBranch c { n with chain } fuel oldTip header.batchHash) :=
  ⟨followsNew_iff, fun _ _ _ => storedFollows_of_archived, leavesState_iff, leavesTip_iff⟩

/-! ## Two blocks of one leader

The active validator leads two blocks of height 1, and the node has taken the one with the higher hash. Its
database has no snapshot yet. -/

open Consensus.ExecutionOrder Consensus.SyncOrder

/-- A batch hash that the fork choice puts behind that of the empty batch. -/
def rivalCommitment : Bytes32 := 2 ^ 256 - 1

def rivalHeader : BatchHeader := blockHeader 1 0 rivalCommitment soleKey [] 0

def rivalNode : Node :=
  { jailNode 5 with
    chain := (((jailNode 5).chain.addHeader rivalHeader).2.setCanonicalTip rivalCommitment
      (totalStake (jailNode 5).world.state.staking)).2 }

def emptySwitcher : Switcher where
  toSetup := orderSetup
  storage := some ⟨fun _ => .ok none, fun _ => .ok none⟩
  isKey _ := true
  slashPercentage _ := 10

/-- Of a switch, the error, the tip before and after, and the stake of a validator. -/
def traces (pk : Bytes) :
    Bytes32 × Except String Unit × Node → Bytes32 × Option String × Bytes32 × Option ℕ
  | (oldTip, r, n) => (oldTip, match r with | .error e => some e | .ok () => none, n.chain.canonicalTip,
      n.world.state.staking.validators[pk]?.map ValidatorStake.activeStake)

theorem traces_rivalNode :
    (processHeaderSwitch emptySwitcher 5 rivalNode openingBlock.header openingBlock.batch).map (traces soleKey) =
      some (rivalCommitment, some "No snapshot found at or before height 0", openingBlock.header.batchHash,
        some (minValidatorStake - minValidatorStake / 10)) := by
  decide +kernel

/-- **A failed switch leaves traces**: the canonical tip is not on the old branch. -/
theorem failed_switch_leaves_traces : ¬ ∀ (c : Switcher) (fuel : ℕ) (n : Node) (oldTip newTip : Bytes32)
    (header : BatchHeader) (batch : List Transaction),
    FollowsNew c n fuel oldTip newTip ∧ LeavesState c n fuel oldTip newTip ∧
      LeavesTip c n fuel header batch := by
  intro h
  obtain ⟨-, -, hleaves⟩ := h emptySwitcher 5 rivalNode 0 0 openingBlock.header openingBlock.batch
  obtain ⟨⟨oldTip, r, n'⟩, hprocess, htraces⟩ := Option.map_eq_some_iff.mp traces_rivalNode
  obtain ⟨rfl, hr, htip, -⟩ : oldTip = rivalCommitment ∧ _ ∧
      n'.chain.canonicalTip = openingBlock.header.batchHash ∧ _ := by
    simpa only [traces, Prod.mk.injEq] using htraces
  cases r with
  | ok _ => cases hr
  | error e =>
    have hold := hleaves _ _ _ hprocess
    rw [htip] at hold
    exact absurd hold (by decide +kernel)

end TruthLinked.Consensus.ForkSwitch
