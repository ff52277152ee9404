import TruthLinked.Ledger.TokenBooks
import TruthLinked.Ledger.VmCalls

/-! # The supply of a token

The supply a token cell states is what its accounts hold. Deployments, mints and burns change both alike, and
every other transaction keeps both (`spares_computeIntent`), but a transfer takes a fee that nobody receives
out of the balances and leaves the supply. In the runs without such a fee the two agree after every event
(`token_supply`). -/

namespace TruthLinked.Ledger.TokenSupply

open Core.Types Runtime.Cells Runtime.Types Ledger.Model Ledger.Phases Ledger.Execution Ledger.Mcp
open Ledger.PrivateBalance Ledger.Compute Ledger.ComputeCells Ledger.ComputeSpec Ledger.CallSpecs
open Ledger.VmCalls Ledger.MergeAgreement Governance.Types Ledger.Coverage Ledger.Executor Ledger.Runs
open Ledger.TokenBooks Lib.Except Lib.Run Lib.Table

variable {cell : CellAccount} {cellId : AccountId} {t : Supply}

/-! ## The tokens an intent writes -/

/-- The token whose supply or balances an intent is about. -/
def tokensOf : TransactionIntent → List AccountId
  | .deployToken cellId .. => [cellId]
  | .tokenTransfer token .. => [token]
  | .tokenMint token .. => [token]
  | .tokenBurn token .. => [token]
  | _ => []

/-- An intent that wraps or unwraps needs a wrapped cell that is no token. -/
def WrapsApart (env : Env) (cs : CellState) : TransactionIntent → Prop
  | .wrapTLKD _ | .unwrapTLKD _ => tokenAt cs (wtrthSystemCellId env) = none
  | _ => True

section Spares
variable {env : Env} {w : World} {tx : Transaction} {account : AccountRecord} {X : List AccountId} {cs : CellState}
  {d : StateDiff}

theorem spares_of_cells (hdeploys : ∀ c cell, .deploy c cell ∈ d.cellUpdates → supplyOf cell = none)
    (hremoves : ∀ c cell, .deploy c cell ∈ d.cellUpdates → .remove c ∉ d.cellUpdates)
    (hcredits : d.tokenCredits = [])
    (hupdates : d.tokenBalanceUpdates = []) : Spares X cs d := by
  refine ⟨fun c cell hin => ⟨hremoves c cell hin, .inr fun t ht => ?_⟩, fun k hk => ?_, fun u hu => ?_⟩
  · rw [hdeploys c cell hin] at ht
    cases ht
  · rw [hcredits] at hk
    exact absurd hk List.not_mem_nil
  · rw [hupdates] at hu
    exact absurd hu List.not_mem_nil

theorem spares_of_updates (hdeploys : ∀ c cell, .deploy c cell ∉ d.cellUpdates) (hcredits : d.tokenCredits = [])
    (hupdates : d.tokenBalanceUpdates = []) : Spares X cs d :=
  spares_of_cells (fun c cell hin => absurd hin (hdeploys c cell))
    (fun c cell hin => absurd hin (hdeploys c cell))
    hcredits hupdates

theorem spares_of_deploy (hus : d.cellUpdates = [.deploy cellId cell])
    (hcell : supplyOf cell = none) (hcredits : d.tokenCredits = []) (hupdates : d.tokenBalanceUpdates = []) :
    Spares X cs d := by
  refine spares_of_cells (fun c cell' hin => ?_) (fun c cell' _ hrem => ?_) hcredits hupdates
  · rw [hus] at hin
    cases List.mem_singleton.mp hin
    exact hcell
  · rw [hus] at hrem
    cases List.mem_singleton.mp hrem

theorem spares_of_token (hus : d.cellUpdates = [.deploy cellId cell])
    (hcredits : ∀ k ∈ d.tokenCredits, k.1 = cellId) (hupdates : ∀ u ∈ d.tokenBalanceUpdates, u.1.1 = cellId) :
    Spares [cellId] cs d := by
  refine ⟨fun c cell' hin => ?_, fun k hk => .inl (List.mem_singleton.mpr (hcredits k hk)),
    fun u hu => .inl (List.mem_singleton.mpr (hupdates u hu))⟩
  rw [hus] at hin ⊢
  cases List.mem_singleton.mp hin
  refine ⟨fun hrem => ?_, .inl List.mem_cons_self⟩
  cases List.mem_singleton.mp hrem

theorem token_of_storeBalances {token : AccountId} {F : Map AccountId ℕ} {u : (AccountId × AccountId) × ℕ}
    (h : u ∈ storeBalances token F) : u.1.1 = token := by
  obtain ⟨e, -, rfl⟩ := List.mem_map.mp h
  rfl

theorem spares_of_redeploy {cell' : CellAccount}
    (hcell : w.state.cells.cells[cellId]? = some cell) (hsupply : supplyOf cell' = supplyOf cell) :
    Spares X w.state.cells (redeploy env w (start env tx) cellId cell') := by
  refine ⟨fun c cell₁ hin => ?_, fun k hk => absurd hk List.not_mem_nil, fun u hu => absurd hu List.not_mem_nil⟩
  have hin' : CellUpdate.deploy c cell₁ ∈ [CellUpdate.deploy cellId cell'] := hin
  cases List.mem_singleton.mp hin'
  refine ⟨fun hrem => ?_, .inr fun t ht => ?_⟩
  · have hrem' : CellUpdate.remove cellId ∈ [CellUpdate.deploy cellId cell'] := hrem
    cases List.mem_singleton.mp hrem'
  · unfold tokenAt
    rw [hcell, Option.bind_some, ← hsupply]
    exact ht

theorem spares_register (hcell : supplyOf cell = none) (registryId : AccountId)
    (what countTag entryTag nameTag name : String) :
    Ensures (register env w tx.sender registryId what countTag entryTag nameTag name cell) fun mcp =>
      Spares X w.state.cells (takeCells (start env tx) mcp) := by
  simp only [register, ensures_bind, ensures_okOr, ensures_failIf, ensures_pure]
  intro registry _ account _ _ _
  refine spares_of_cells (fun c cell' hin => ?_) (fun c cell' _ hrem => ?_) rfl rfl
  · rcases List.mem_cons.mp hin with heq | hin
    · cases heq
      exact hcell
    · cases List.mem_singleton.mp hin
  · rcases List.mem_cons.mp hrem with heq | hrem
    · cases heq
    · cases List.mem_singleton.mp hrem

/-! ### Calls of cells -/

theorem tokenChanges_self (m : Map (AccountId × AccountId) ℕ) : tokenChanges m m = [] := by
  refine List.append_eq_nil_iff.mpr ⟨List.filter_eq_nil_iff.mpr ?_,
    List.map_eq_nil_iff.mpr (List.filter_eq_nil_iff.mpr ?_)⟩
  · rintro ⟨k, n⟩ hmem hne
    have hne' : n ≠ (m[k]?).getD 0 := of_decide_eq_true hne
    rw [Std.ExtTreeMap.mem_toList_iff_getElem?_eq_some.mp hmem] at hne'
    exact hne' rfl
  · rintro ⟨k, n⟩ hmem hne
    refine of_decide_eq_true hne (Std.ExtTreeMap.mem_iff_isSome_getElem?.mpr ?_)
    rw [Std.ExtTreeMap.mem_toList_iff_getElem?_eq_some.mp hmem]
    rfl

/-- The cells that a call leaves have the configurations they had. -/
def SameConfigs (before after : Map AccountId CellAccount) : Prop :=
  ∀ (c : AccountId) (a : CellAccount), after[c]? = some a →
    ∃ b : CellAccount, before[c]? = some b ∧ a.tokenConfig = b.tokenConfig

theorem sameConfigs_refl (m : Map AccountId CellAccount) : SameConfigs m m := fun _ a ha => ⟨a, ha, rfl⟩

theorem SameConfigs.insert {before after : Map AccountId CellAccount} (h : SameConfigs before after)
    {c : AccountId}
    {cell' : CellAccount} (hcell : after[c]? = some cell) (hconfig : cell'.tokenConfig = cell.tokenConfig) :
    SameConfigs before (after.insert c cell') := by
  intro k a ha
  rw [getElem?_insert_ite] at ha
  split_ifs at ha with hk
  · cases ha
    obtain ⟨b, hb, hsame⟩ := h c cell hcell
    exact ⟨b, hk ▸ hb, hconfig.trans hsame⟩
  · exact h k a ha

theorem deploy_notMem_cellChanges {before after : Map AccountId CellAccount} (h : SameConfigs before after)
    (c : AccountId) (cell : CellAccount) : .deploy c cell ∉ cellChanges before after := by
  intro hin
  obtain ⟨⟨id, a⟩, hmem, hin⟩ := List.mem_flatMap.mp hin
  obtain ⟨b, hb, hsame⟩ := h id a (Std.ExtTreeMap.mem_toList_iff_getElem?_eq_some.mp hmem)
  simp only [hb, cellChange, hsame, ne_eq, not_true, and_false, if_false, List.append_nil] at hin
  rcases List.mem_append.mp hin with hin | hin
  · split_ifs at hin
    · exact absurd hin List.not_mem_nil
    · cases List.mem_singleton.mp hin
  · split_ifs at hin
    · exact absurd hin List.not_mem_nil
    · cases List.mem_singleton.mp hin

theorem payValue_lists (d : StateDiff) (sender : AccountId) (value : ℕ) (account : AccountRecord) :
    (payValue d sender value account).cellUpdates = d.cellUpdates ∧
      (payValue d sender value account).tokenCredits = d.tokenCredits ∧
      (payValue d sender value account).tokenBalanceUpdates = d.tokenBalanceUpdates := by
  unfold payValue
  split_ifs <;> exact ⟨rfl, rfl, rfl⟩

theorem chain_lists (results : List ExecutionResult) (d : StateDiff) :
    (results.foldl addChainResult d).cellUpdates = d.cellUpdates ∧
      (results.foldl addChainResult d).tokenCredits = d.tokenCredits ∧
      (results.foldl addChainResult d).tokenBalanceUpdates = d.tokenBalanceUpdates := by
  induction results generalizing d with
  | nil => exact ⟨rfl, rfl, rfl⟩
  | cons r results ih => exact ih _

theorem spares_callChain (calls : List CellCall) (gasLimit : ℕ) (allow : Bool) :
    Ensures (computeCallChainDiff env w (start env tx) tx.sender calls gasLimit account allow)
      (Spares X w.state.cells) := by
  simp only [computeCallChainDiff, ensures_bind, ensures_failIf]
  intro _ _ _ _ _
  have hchain : Ensures (executeCallChain env w w.state.cells calls tx.sender 0 gasLimit) fun out =>
      out.1.tokenBalances = w.state.cells.tokenBalances ∧ SameConfigs w.state.cells.cells out.1.cells := by
    refine callChain_invariant (I := fun _ cells _ =>
      cells.tokenBalances = w.state.cells.tokenBalances ∧ SameConfigs w.state.cells.cells cells.cells)
      ?_ calls 0 w.state.cells [] gasLimit ⟨rfl, sameConfigs_refl _⟩
    intro call calls cells results cell target calldata gas h hcell htarget
    exact ⟨h.1, h.2.insert hcell (settleCall_storage htarget).2⟩
  refine hchain.mono fun out hout => ensures_pure.mpr ?_
  obtain ⟨hpay, hcredits, hupdates⟩ := payValue_lists
    { addCells w.state.cells out.1 (out.2.foldl addChainResult (start env tx)) with cuFee := gasLimit } tx.sender
    ((calls.map CellCall.value).sum % u128) account
  obtain ⟨hc, hk, hu⟩ := chain_lists out.2 (start env tx)
  refine spares_of_updates (fun c cell => ?_) ?_ ?_
  · rw [hpay]
    simp only [addCells]
    rw [hc]
    exact deploy_notMem_cellChanges hout.2 c cell
  · rw [hcredits]
    exact hk
  · rw [hupdates]
    simp only [addCells]
    rw [hu, hout.1, tokenChanges_self]
    rfl

theorem spares_callCell (cellId : AccountId) (calldata : Bytes) (value gasLimit timestamp height : ℕ) :
    Ensures (computeCallCellDiff env w (start env tx) tx.sender cellId calldata value
      gasLimit timestamp height account)
      (Spares X w.state.cells) := by
  simp only [computeCallCellDiff, callSystemCell, callVmCell, ensures_bind, ensures_failIf,
    ensures_okOr, ensures_ite, ensures_pure]
  intro _ _ cell hcell _ _
  refine ⟨fun _ _ => spares_of_updates (fun c cell' => ?_) ?_ ?_, fun _ _ root hroot =>
    spares_of_updates (fun c cell' => ?_) ?_ ?_⟩
  · rw [(payValue_lists _ _ _ _).1]
    simp only [addTransfers]
    split_ifs
    · exact List.not_mem_nil
    · intro hin
      cases List.mem_singleton.mp hin
  · exact (payValue_lists _ _ _ _).2.1
  · exact (payValue_lists _ _ _ _).2.2
  · rw [(payValue_lists _ _ _ _).1]
    exact deploy_notMem_cellChanges ((sameConfigs_refl _).insert hcell (settleCall_storage hroot).2) c cell'
  · exact (payValue_lists _ _ _ _).2.1
  · rw [(payValue_lists _ _ _ _).2.2]
    simp only [addCells]
    rw [tokenChanges_self]
    rfl

/-! ### Governance -/

theorem governedCell_eq (cellId : AccountId) (refusal : String) :
    Ensures (governedCell env w.state cellId account refusal) fun cell =>
      w.state.cells.cells[cellId]? = some cell := by
  simp only [governedCell, ensures_bind, ensures_okOr, ensures_failIf, ensures_pure]
  exact fun _ _ hcell _ => hcell

theorem proposableCell_eq (cellId : AccountId) (refusal : String) :
    Ensures (proposableCell env w.state cellId account refusal) fun cell =>
      w.state.cells.cells[cellId]? = some cell := by
  simp only [proposableCell, ensures_bind, ensures_failIf, ensures_pure]
  exact (governedCell_eq cellId refusal).mono fun cell hcell _ _ => hcell

theorem supplyOf_executeProposal (cell : CellAccount) (p : ProposalType) :
    Ensures (executeProposal env w cell p) fun cell' => supplyOf cell' = supplyOf cell := by
  cases p with
  | ownershipTransfer newOwner => exact ensures_pure.mpr rfl
  | upgrade bytecode reads writes keys specs schemas =>
    simp only [executeProposal, ensures_bind, ensures_failIf, ensures_pure]
    exact fun _ => ensures_true.mono fun _ _ => rfl
  | makeImmutable => exact ensures_pure.mpr rfl

/-! ### All intents -/

/-- **What an intent spares**: every token but the one it is about. -/
theorem spares_computeIntent (timestamp : ℕ) {intent : TransactionIntent}
    (h : WrapsApart env w.state.cells intent) :
    Ensures (computeIntent env w (start env tx) tx.sender timestamp account intent)
      (Spares (tokensOf intent) w.state.cells) := by
  cases intent with
  | stake | unstake | withdrawStake | unjail | proposeTokenAuthority | voteTokenAuthority | callSystem =>
    exact ensures_throw.mpr trivial
  | callCell cellId calldata value gasLimit => exact spares_callCell _ _ _ _ _ _
  | callCellChain calls gasLimit => exact spares_callChain _ _ _
  | mcpToolCall agentId toolId calldata value gasLimit policyCellId logId time =>
    simp only [computeIntent, ensures_bind]
    exact ensures_true.mono fun _ _ => spares_callChain _ _ _
  | deployCell cellId bytecode balance reads writes keys specs schemas =>
    simp only [computeIntent, computeDeployCellDiff, ensures_bind, ensures_failIf, ensures_pure]
    intro _ _ _ _
    exact ensures_true.mono fun _ _ => spares_of_deploy rfl rfl rfl rfl
  | privateBalanceInit cellId agentId enc comm nonce =>
    simp only [computeIntent, circuitInitPrivateBalance, ensures_bind, ensures_failIf, ensures_okOr, ensures_pure]
    refine ensures_true.mono fun _ _ => ensures_true.mono fun _ _ _ _ _ _ => ensures_true.mono fun _ _ => ?_
    exact fun _ account _ _ => ensures_true.mono fun _ _ => spares_of_deploy rfl rfl rfl rfl
  | registerMcpTool toolId bytecode name schema category reads writes keys schemas registryId =>
    simp only [computeIntent, diffRegisterTool, ensures_bind, ensures_failIf, ensures_pure]
    intro _ _ _
    refine ensures_true.mono fun _ _ _ => ?_
    exact spares_register rfl _ _ _ _ _ _
  | registerMcpResource id bytecode name uri mime data reads writes schemas registryId =>
    simp only [computeIntent, diffRegisterResource, ensures_bind, ensures_failIf, ensures_okOr, ensures_ite,
      ensures_pure]
    refine fun _ _ => ⟨fun _ => ensures_true.mono fun _ _ _ _ _ _ _ _ _ => ?_, fun _ _ _ _ _ _ _ _ => ?_⟩
    all_goals exact spares_register rfl _ _ _ _ _ _
  | registerMcpPrompt id name template arguments registryId =>
    simp only [computeIntent, diffRegisterPrompt, ensures_bind, ensures_failIf, ensures_pure]
    intro _ _ _
    exact spares_register rfl _ _ _ _ _ _
  | proposeCellUpgrade cellId bytecode reads writes keys specs schemas timelock =>
    simp only [computeIntent, computeProposeCellUpgradeDiff, ensures_bind]
    refine (proposableCell_eq cellId _).mono fun cell hcell => ?_
    simp only [ensures_failIf, ensures_pure]
    exact fun _ => ensures_true.mono fun _ _ => spares_of_redeploy hcell rfl
  | proposeCellOwnershipTransfer cellId newOwner timelock =>
    simp only [computeIntent, computeProposeCellOwnershipTransferDiff, ensures_bind, ensures_pure]
    exact (proposableCell_eq cellId _).mono fun cell hcell => spares_of_redeploy hcell rfl
  | proposeCellMakeImmutable cellId timelock =>
    simp only [computeIntent, computeProposeCellMakeImmutableDiff, ensures_bind, ensures_pure]
    exact (proposableCell_eq cellId _).mono fun cell hcell => spares_of_redeploy hcell rfl
  | voteCellProposal cellId approve =>
    simp only [computeIntent, computeVoteCellProposalDiff, ensures_bind]
    refine (governedCell_eq cellId _).mono fun cell hcell => ensures_true.mono fun p _ => ?_
    simp only [ensures_failIf, ensures_pure]
    exact fun _ _ => spares_of_redeploy hcell rfl
  | executeCellProposal cellId =>
    simp only [computeIntent, computeExecuteCellProposalDiff, ensures_bind]
    refine (governedCell_eq cellId _).mono fun cell hcell => ensures_true.mono fun p _ => ?_
    simp only [ensures_failIf, ensures_pure]
    exact fun _ _ _ => (supplyOf_executeProposal cell p.1.proposalType).mono fun cell' hcell' =>
      spares_of_redeploy hcell hcell'
  | wrapTLKD amount =>
    simp only [computeIntent, computeWrapTrthDiff, ensures_bind, ensures_failIf, ensures_pure]
    intro _ _
    refine ⟨fun c cell hin => absurd hin List.not_mem_nil, fun k hk => .inr ?_, fun u hu =>
      absurd hu List.not_mem_nil⟩
    rw [List.mem_singleton.mp hk]
    exact h
  | unwrapTLKD amount =>
    simp only [computeIntent, computeUnwrapTrthDiff, ensures_bind, ensures_failIf, ensures_pure]
    intro _ _
    refine ⟨fun c cell hin => absurd hin List.not_mem_nil, fun k hk => absurd hk List.not_mem_nil,
      fun u hu => .inr ?_⟩
    rw [List.mem_singleton.mp hu]
    exact h
  | deployToken cellId name symbol decimals supply bps feeRecipient nonTransferable =>
    simp only [computeIntent, computeDeployTokenDiff, ensures_bind, ensures_failIf, ensures_pure]
    intro _ _
    refine spares_of_token rfl (fun k hk => ?_) fun u hu => absurd hu List.not_mem_nil
    have hk' : k ∈ if 0 < supply then [(cellId, tx.sender, supply)] else [] := hk
    split_ifs at hk'
    · rw [List.mem_singleton.mp hk']
    · exact absurd hk' List.not_mem_nil
  | tokenTransfer token recipient amount =>
    simp only [computeIntent, computeTokenTransferDiff, ensures_bind, ensures_okOr, ensures_failIf, ensures_pure]
    intro cell _ _
    refine ensures_true.mono fun F _ => ?_
    refine ⟨fun c cell hin => absurd hin List.not_mem_nil, fun k hk => absurd hk List.not_mem_nil,
      fun u hu => .inl ?_⟩
    exact List.mem_singleton.mpr (token_of_storeBalances hu)
  | tokenMint token recipient amount =>
    simp only [computeIntent, computeTokenMintDiff, ensures_bind, ensures_okOr]
    intro cell _
    refine ensures_true.mono fun r _ => ensures_pure.mpr ?_
    exact spares_of_token rfl (fun k hk => absurd hk List.not_mem_nil) fun u hu => token_of_storeBalances hu
  | tokenBurn token amount =>
    simp only [computeIntent, computeTokenBurnDiff, ensures_bind, ensures_okOr]
    intro cell _
    refine ensures_true.mono fun r _ => ensures_pure.mpr ?_
    exact spares_of_token rfl (fun k hk => absurd hk List.not_mem_nil) fun u hu => token_of_storeBalances hu
  | transfer | transferToName | batchTransfer | batchTransferToName | claim | rotateKey | depositCompute
  | withdrawCompute | mintNFT | transferNFT | burnNFT | approveNFT | tokenFreeze | tokenThaw | proposeUrl | voteUrl
  | reportMaliciousUrl | setCellVisibility | submitOracleCommit =>
    simp only [computeIntent, computeTransferDiff, computeBatchTransferDiff, computeClaimDiff,
      computeRotateKeyDiff,
      computeDepositComputeDiff, computeWithdrawComputeDiff, computeMintNftDiff, computeTransferNftDiff,
      computeBurnNftDiff, computeApproveNftDiff, computeTokenFreezeDiff, computeProposeUrlDiff,
      computeVoteUrlDiff,
      computeReportMaliciousUrlDiff, computeSetCellVisibilityDiff, computeOracleCommitDiff, ensures_bind,
      ensures_failIf, ensures_okOr, ensures_pure]
    repeat intro
    exact spares_of_updates (fun _ _ => List.not_mem_nil) rfl rfl
  | submitOracleReveal requestId body status =>
    simp only [computeIntent, computeOracleRevealDiff, ensures_bind, ensures_failIf, ensures_okOr, ensures_ite,
      ensures_pure]
    intro _ _ _ _ _ _ _ _ _ _
    exact ⟨fun _ => ensures_true.mono fun _ _ => spares_of_updates (fun _ _ => List.not_mem_nil) rfl rfl,
      fun _ => spares_of_updates (fun _ _ => List.not_mem_nil) rfl rfl⟩
  | registerAgent | privateBalanceConfidentialTransfer =>
    simp only [computeIntent, diffRegisterAgent, circuitConfidentialTransfer, takeCells,
      takePayments, ensures_bind, ensures_failIf, ensures_okOr, ensures_pure]
    repeat intro
    refine spares_of_updates (fun c cell hin => ?_) rfl rfl
    rcases List.mem_cons.mp hin with heq | hin
    · cases heq
    · cases List.mem_singleton.mp hin
  | _ =>
    simp only [computeIntent, computeUpgradeCellDiff, computeTransferOwnershipDiff, computeMakeImmutableDiff,
      computeCloseCellDiff, diffSetAgentStatus, circuitDeposit, circuitWithdraw,
      takeCells, takePayments, ensures_bind, ensures_failIf, ensures_okOr, ensures_pure]
    repeat intro
    refine spares_of_updates (fun c cell hin => ?_) rfl rfl
    cases List.mem_singleton.mp hin

end Spares

/-! ## What a transaction does to a token -/

/-- The diff of an intent about a token. -/
def tokenDiff (env : Env) (tx : Transaction) (us : List CellUpdate) (credits : List (AccountId × AccountId × ℕ))
    (updates : List ((AccountId × AccountId) × ℕ)) (records : Map AccountId AccountRecord) (cu : ℕ) : StateDiff :=
  { start env tx with
    accountUpdates := records
    cellUpdates := us
    tokenCredits := credits
    tokenBalanceUpdates := updates
    cuFee := cu }

/-- What accounts hold of a token is the supply its cell states. -/
def Sound (cs : CellState) (c : AccountId) : Prop :=
  ∀ t, tokenAt cs c = some t → held cs c = t.total ∧ t.total < u128

/-- The supply is within the cap of a mint. -/
def Capped (cs : CellState) (c : AccountId) : Prop := ∀ t, tokenAt cs c = some t → t.total ≤ t.cap

/-- The supply and what is held of a token change alike, and the supply grows up to the cap alone. -/
def Moved (cs cs' : CellState) (c : AccountId) : Prop :=
  ∀ t', tokenAt cs' c = some t' → ∃ t, tokenAt cs c = some t ∧ t.maxSupply = t'.maxSupply ∧
    held cs' c + t.total = held cs c + t'.total ∧ (t'.total ≤ t.total ∨ (t'.total < u128 ∧ t'.total ≤ t'.cap))

section Moves
variable {env : Env} {w : World} {tx : Transaction} {account : AccountRecord} {f : Fees} {cs cs' : CellState}
  {c token recipient : AccountId} {amount : ℕ}

theorem Moved.sound (h : Moved cs cs' c) (hs : Sound cs c) : Sound cs' c := by
  intro t' ht'
  obtain ⟨t, ht, -, hheld, hbound⟩ := h t' ht'
  obtain ⟨heq, hlt⟩ := hs t ht
  refine ⟨by omega, ?_⟩
  rcases hbound with hle | ⟨hlt', -⟩
  · omega
  · exact hlt'

theorem Moved.capped (h : Moved cs cs' c) (hc : Capped cs c) : Capped cs' c := by
  intro t' ht'
  obtain ⟨t, ht, hmax, -, hbound⟩ := h t' ht'
  have hcap : t.cap = t'.cap := by rw [Supply.cap, Supply.cap, hmax]
  have hle := hc t ht
  rcases hbound with hle' | ⟨-, hle'⟩
  · omega
  · exact hle'

theorem moved_refl (cs : CellState) (c : AccountId) : Moved cs cs c := fun t ht => ⟨t, ht, rfl, rfl, .inl le_rfl⟩

theorem cells_tokenDiff (us : List CellUpdate) (credits : List (AccountId × AccountId × ℕ))
    (updates : List ((AccountId × AccountId) × ℕ)) (records : Map AccountId AccountRecord) (cu : ℕ) :
    (ApplySpec.applied env (withFees tx.sender account f (tokenDiff env tx us credits updates records cu))
      w).state.cells =
      setTokenBalances updates (Lib.Phase.runAll CellSpecs.tokenCreditStep credits
        (Lib.Phase.runAll (CellSpecs.cellEffect env) us w.state.cells)) := by
  rw [NativeCalls.cells_applied ⟨rfl, rfl, rfl, rfl, rfl, rfl, rfl, rfl, rfl⟩]
  rfl

theorem held_written {s : State} (hin : c ∈ cs.cells) (hbal : cs.tokenBalances = s.cells.tokenBalances)
    {accounts : List AccountId} {F : Map AccountId ℕ}
    (hover : ∀ g, sumOver g F = sumOver g (loadBalances s c accounts)) :
    held (setTokenBalances (storeBalances c F) cs) c + total (loadBalances s c accounts) =
      held s.cells c + total F := by
  have hheld := held_storeBalances hin F
  have hsame : balanceIn cs c = balanceIn s.cells c := by
    funext a
    rw [balanceIn, balanceIn, hbal]
  have hcs : held cs c = held s.cells c := by rw [held, held, hbal]
  rwa [hover, hsame, ← total_loadBalances, hcs] at hheld

theorem total_le_supply {s : State} (ht : tokenAt s.cells c = some t) (hs : Sound s.cells c)
    (accounts : List AccountId) : total (loadBalances s c accounts) ≤ t.total := by
  rw [total_loadBalances, ← (hs t ht).1]
  exact sumOver_le_held (mem_of_tokenAt ht) _

theorem tokenAt_setTokenBalances (updates : List ((AccountId × AccountId) × ℕ)) (cs : CellState) (c : AccountId) :
    tokenAt (setTokenBalances updates cs) c = tokenAt cs c := by
  rw [tokenAt, tokenAt, CellSpecs.setTokenBalances_cells]

/-- A transfer takes no fee that nobody receives. -/
def KeepsFee (cs : CellState) (token : AccountId) (amount : ℕ) : Prop :=
  ∀ (cell : CellAccount) (config : TokenConfig), cs.cells[token]? = some cell → cell.tokenConfig = some config →
    config.transferFeeRecipient = none → amount * config.transferFeeBps < 10000

theorem config_of_supplyOf (h : supplyOf cell = some t) :
    ∃ config, cell.tokenConfig = some config := by
  unfold supplyOf at h
  split_ifs at h
  obtain ⟨config, hconfig, -⟩ := Option.map_eq_some_iff.mp h
  exact ⟨config, hconfig⟩

theorem lostFee_eq_zero {config : TokenConfig}
    (h : config.transferFeeRecipient = none → amount * config.transferFeeBps < 10000) :
    lostFee config amount = 0 := by
  unfold lostFee
  split_ifs with hnone
  · exact Nat.div_eq_of_lt (h (Option.isNone_iff_eq_none.mp hnone))
  · rfl

theorem moved_transfer (hs : Sound w.state.cells token) (hfee : KeepsFee w.state.cells token amount)
    (timestamp : ℕ) :
    Ensures (computeIntent env w (start env tx) tx.sender timestamp account
      (.tokenTransfer token recipient amount))
      fun d => Moved w.state.cells (ApplySpec.applied env (withFees tx.sender account f d) w).state.cells
        token := by
  simp only [computeIntent, computeTokenTransferDiff, ensures_bind, ensures_okOr, ensures_failIf, ensures_pure]
  intro cell hcell _ F hF
  show Moved w.state.cells (ApplySpec.applied env (withFees tx.sender account f
    (tokenDiff env tx [] [] (storeBalances token F) ∅ _)) w).state.cells token
  rw [cells_tokenDiff]
  intro t ht
  rw [tokenAt_setTokenBalances] at ht
  have ht₀ : tokenAt w.state.cells token = some t := ht
  have hlt := lt_of_le_of_lt (total_le_supply ht₀ hs
    ([tx.sender, recipient] ++ (cell.tokenConfig.bind TokenConfig.transferFeeRecipient).toList)) (hs t ht₀).2
  obtain ⟨hover, htotal⟩ := sums_transfer (mem_loadBalances (by simp)) (mem_loadBalances (by simp))
    (fun a ha => mem_loadBalances (by simp [ha])) hlt F hF
  have hbal : w.state.cells.tokenBalances = w.state.cells.tokenBalances := rfl
  have hheld := held_written (mem_of_tokenAt ht₀) hbal hover
  have hsupply : supplyOf cell = some t := by rwa [tokenAt, hcell] at ht₀
  obtain ⟨config, hconfig⟩ := config_of_supplyOf hsupply
  have hkept := htotal config hconfig
  rw [lostFee_eq_zero fun hnone => hfee cell config hcell hconfig hnone, Nat.add_zero] at hkept
  exact ⟨t, ht₀, rfl, by dsimp only [Lib.Phase.runAll_nil]; omega, .inl le_rfl⟩

/-- The cells with a token cell written anew. -/
def rewritten (cs : CellState) (token : AccountId) (cell : CellAccount) : CellState :=
  { cs with cells := cs.cells.insert token cell }

theorem tokenAt_rewritten (cs : CellState) (token : AccountId) (cell : CellAccount) :
    tokenAt (rewritten cs token cell) token = supplyOf cell := by
  rw [tokenAt, rewritten, getElem?_insert_ite, if_pos rfl, Option.bind_some]

theorem mem_rewritten (cs : CellState) (token : AccountId) (cell : CellAccount) :
    token ∈ (rewritten cs token cell).cells := Std.ExtTreeMap.mem_insert_self

theorem moved_mint (hs : Sound w.state.cells token) (timestamp : ℕ) :
    Ensures (computeIntent env w (start env tx) tx.sender timestamp account (.tokenMint token recipient amount))
      fun d => Moved w.state.cells (ApplySpec.applied env (withFees tx.sender account f d) w).state.cells token ∧
        Capped (ApplySpec.applied env (withFees tx.sender account f d) w).state.cells token := by
  simp only [computeIntent, computeTokenMintDiff, ensures_bind, ensures_okOr]
  rintro cell hcell ⟨cell', F⟩ hF
  refine ensures_pure.mpr ?_
  show Moved w.state.cells (ApplySpec.applied env (withFees tx.sender account f
      (tokenDiff env tx [.deploy token cell'] [] (storeBalances token F) ∅ _)) w).state.cells token ∧
    Capped (ApplySpec.applied env (withFees tx.sender account f
      (tokenDiff env tx [.deploy token cell'] [] (storeBalances token F) ∅ _)) w).state.cells token
  rw [cells_tokenDiff]
  have hcells : ∀ t,
      tokenAt (setTokenBalances (storeBalances token F) (rewritten w.state.cells token cell')) token =
      some t → supplyOf cell' = some t := by
    intro t ht
    rwa [tokenAt_setTokenBalances, tokenAt_rewritten] at ht
  have hat : ∀ t, supplyOf cell = some t → tokenAt w.state.cells token = some t := by
    intro t ht
    rwa [tokenAt, hcell]
  obtain ⟨hover, htotal, t, ht, ht', hlt, hcap⟩ := sums_mint (mem_loadBalances List.mem_cons_self)
    (fun t ht => total_le_supply (hat t ht) hs [recipient]) (cell', F) hF
  have hheld := held_written (s := w.state) (F := F) (mem_rewritten w.state.cells token cell') rfl hover
  refine ⟨fun t₁ ht₁ => ?_, fun t₁ ht₁ => ?_⟩
  · obtain rfl := Option.some.inj (ht'.symm.trans (hcells t₁ ht₁))
    refine ⟨t, hat t ht, rfl, ?_, .inr ⟨hlt, hcap⟩⟩
    have hgoal : held (setTokenBalances (storeBalances token F) (rewritten w.state.cells token cell'))
        token + t.total =
        held w.state.cells token + (t.total + amount) := by
      dsimp only at htotal
      omega
    exact hgoal
  · obtain rfl := Option.some.inj (ht'.symm.trans (hcells t₁ ht₁))
    exact hcap

theorem moved_burn (timestamp : ℕ) :
    Ensures (computeIntent env w (start env tx) tx.sender timestamp account (.tokenBurn token amount))
      fun d => Moved w.state.cells (ApplySpec.applied env (withFees tx.sender account f d) w).state.cells
        token := by
  simp only [computeIntent, computeTokenBurnDiff, ensures_bind, ensures_okOr]
  rintro cell hcell ⟨cell', F⟩ hF
  refine ensures_pure.mpr ?_
  show Moved w.state.cells (ApplySpec.applied env (withFees tx.sender account f
      (tokenDiff env tx [.deploy token cell'] [] (storeBalances token F) ∅ _)) w).state.cells token
  rw [cells_tokenDiff]
  obtain ⟨hover, htotal, hsupply⟩ := sums_burn (mem_loadBalances List.mem_cons_self) (cell', F) hF
  have hheld := held_written (s := w.state) (F := F) (mem_rewritten w.state.cells token cell') rfl hover
  intro t ht
  have ht' : tokenAt (setTokenBalances (storeBalances token F) (rewritten w.state.cells token cell'))
      token = some t :=
    ht
  rw [tokenAt_setTokenBalances, tokenAt_rewritten] at ht'
  obtain ⟨t₀, ht₀, hsum, hmax⟩ := hsupply t ht'
  refine ⟨t₀, by rwa [tokenAt, hcell], hmax.symm, ?_, .inl (by omega)⟩
  have hgoal : held (setTokenBalances (storeBalances token F) (rewritten w.state.cells token cell'))
      token + t₀.total =
      held w.state.cells token + t.total := by
    dsimp only at htotal
    omega
  exact hgoal

theorem held_credited {cs : CellState} (hin : token ∈ cs.cells) (hzero : held cs token = 0)
    (a : AccountId) (n : ℕ) :
    held (Lib.Phase.runAll CellSpecs.tokenCreditStep (if 0 < n then [(token, a, n)] else []) cs) token = n := by
  by_cases hn : 0 < n
  · have hsum := held_insert cs token a (balanceIn cs token a + n)
    have hle := balanceIn_le_held cs token a
    have hstep : Lib.Phase.runAll CellSpecs.tokenCreditStep (if 0 < n then [(token, a, n)] else []) cs =
        { cs with tokenBalances := cs.tokenBalances.insert (token, a) (balanceIn cs token a + n) } := by
      rw [if_pos hn, Lib.Phase.runAll_cons, Lib.Phase.runAll_nil, CellSpecs.tokenCreditStep]
      exact if_pos hin
    rw [hstep]
    have hgoal : Lib.MapSum.mapSum (entryOf token)
        (cs.tokenBalances.insert (token, a) (balanceIn cs token a + n)) = n := by
      omega
    exact hgoal
  · rw [if_neg hn, Lib.Phase.runAll_nil, hzero]
    exact (Nat.eq_zero_of_not_pos hn).symm

theorem sound_deployed (hclean : Clean w.state.cells)
    (hnew : token ∉ w.state.cells.cells) (hcell : supplyOf cell = some t) (hlt : 0 < t.total → t.total < u128)
    (records : Map AccountId AccountRecord) (cu : ℕ) :
    Sound (ApplySpec.applied env (withFees tx.sender account f (tokenDiff env tx [.deploy token cell]
      (if 0 < t.total then [(token, tx.sender, t.total)] else []) [] records cu)) w).state.cells token := by
  rw [cells_tokenDiff]
  have hsupply : tokenAt (Lib.Phase.runAll CellSpecs.tokenCreditStep
      (if 0 < t.total then [(token, tx.sender, t.total)] else []) (rewritten w.state.cells token cell))
        token = some t := by
    rw [tokenAt, CellSpecs.runAll_tokenCredit_cells, ← tokenAt, tokenAt_rewritten, hcell]
  have hzero : held (rewritten w.state.cells token cell) token = 0 :=
    (held_of_notMem hclean hnew : held w.state.cells token = 0)
  have hheld := held_credited (mem_rewritten w.state.cells token cell) hzero tx.sender t.total
  intro t' ht'
  obtain rfl := Option.some.inj (hsupply.symm.trans ht')
  refine ⟨hheld, ?_⟩
  rcases Nat.eq_zero_or_pos t.total with hzero | hpos
  · rw [hzero]
    decide
  · exact hlt hpos

theorem sound_deploy (hclean : Clean w.state.cells) {name symbol : String} {decimals supply bps : ℕ}
    {feeRecipient : Option AccountId} {nonTransferable : Bool} (timestamp : ℕ)
    (hlt : 0 < supply → supply < u128) :
    Ensures (computeIntent env w (start env tx) tx.sender timestamp account
        (.deployToken token name symbol decimals supply bps feeRecipient nonTransferable))
      fun d => Sound (ApplySpec.applied env (withFees tx.sender account f d) w).state.cells token := by
  simp only [computeIntent, computeDeployTokenDiff, ensures_bind, ensures_failIf, ensures_pure]
  intro hnew _
  exact sound_deployed (t := ⟨supply, none⟩) hclean hnew rfl hlt _ _

end Moves

/-! ## Transactions -/

/-- No fee is lost, and the wrapped cell is no token when something is wrapped. -/
def Careful (env : Env) (w : World) : Event → Prop
  | .settings _ => True
  | .transaction tx => WrapsApart env w.state.cells tx.intent ∧
    ∀ token recipient amount, tx.intent = .tokenTransfer token recipient amount →
      KeepsFee w.state.cells token amount

/-- The intent deploys the token. -/
def Deploys (c : AccountId) : TransactionIntent → Prop
  | .deployToken cellId .. => cellId = c
  | _ => False

/-- The intent mints the token. -/
def Mints (c : AccountId) : TransactionIntent → Prop
  | .tokenMint token .. => token = c
  | _ => False

section Transactions
variable {env : Env} {w : World} {tx : Transaction} {c : AccountId}

theorem parts_of_compute {d : StateDiff} (hd : computeTransactionDiffSkipSig env w tx = .ok d) :
    ∃ account d₁ f, computeIntent env w (start env tx) tx.sender tx.timestamp account tx.intent = .ok d₁ ∧
      d = withFees tx.sender account f d₁ ∧ d₁.tokenAuthorityVotes = [] := by
  obtain ⟨account, d₁, f, -, h1, -, rfl⟩ := compute_eq_ok hd
  exact ⟨account, d₁, f, h1, rfl, (handled_computeIntent _ _ d₁ h1).plain.tokenAuthorityVotes⟩

theorem kept_transaction (tx : Transaction) (hclean : Clean w.state.cells)
    (hwraps : WrapsApart env w.state.cells tx.intent) :
    ∃ us, Kept (tokensOf tx.intent) us w.state.cells (runTransaction env tx w).2.state.cells := by
  cases hd : computeTransactionDiffSkipSig env w tx with
  | error e =>
    rw [runTransaction, hd]
    exact ⟨[], kept_refl hclean⟩
  | ok d =>
    obtain ⟨account, d₁, f, h1, rfl, hvotes⟩ := parts_of_compute hd
    have hspares := spares_computeIntent tx.timestamp hwraps d₁ h1
    rw [runTransaction_world hd]
    exact ⟨_, kept_applyDiff (d := withFees tx.sender account f d₁) env hclean hvotes
      ⟨hspares.deploys, hspares.credits, hspares.updates⟩⟩

/-- **What a transaction does to a token that is there**, applied or refused. -/
theorem moved_transaction (hclean : Clean w.state.cells) (hcareful : Careful env w (.transaction tx))
    (hin : c ∈ w.state.cells.cells) (hs : Sound w.state.cells c) :
    Moved w.state.cells (runTransaction env tx w).2.state.cells c := by
  by_cases hc : c ∈ tokensOf tx.intent
  · cases hd : computeTransactionDiffSkipSig env w tx with
    | error e =>
      rw [runTransaction, hd]
      exact moved_refl _ _
    | ok d =>
      obtain ⟨account, d₁, f, h1, rfl, -⟩ := parts_of_compute hd
      have hfee := hcareful.2
      cases hi : tx.intent with
      | deployToken cellId name symbol decimals supply bps feeRecipient nonTransferable =>
        rw [hi] at hc h1
        simp only [computeIntent, computeDeployTokenDiff, failIf_bind_ok] at h1
        rw [List.mem_singleton.mp hc] at hin
        exact absurd hin h1.1
      | tokenTransfer token recipient amount =>
        rw [hi] at hc h1
        cases List.mem_singleton.mp hc
        rw [runTransaction_applied hd (by rw [Covers, hi]; trivial)]
        exact moved_transfer hs (hfee c recipient amount hi) tx.timestamp d₁ h1
      | tokenMint token recipient amount =>
        rw [hi] at hc h1
        cases List.mem_singleton.mp hc
        rw [runTransaction_applied hd (by rw [Covers, hi]; trivial)]
        exact (moved_mint hs tx.timestamp d₁ h1).1
      | tokenBurn token amount =>
        rw [hi] at hc h1
        cases List.mem_singleton.mp hc
        rw [runTransaction_applied hd (by rw [Covers, hi]; trivial)]
        exact moved_burn tx.timestamp d₁ h1
      | _ =>
        rw [hi] at hc
        exact absurd hc List.not_mem_nil
  · obtain ⟨us, hkept⟩ := kept_transaction tx hclean hcareful.1
    intro t ht
    obtain ⟨ht₀, hheld⟩ := hkept.books hc ht
    exact ⟨t, ht₀, rfl, by rw [hheld], .inl le_rfl⟩

theorem sound_of_deploys (hclean : Clean w.state.cells) (hdeploys : Deploys c tx.intent)
    (hok : (runTransaction env tx w).1.isOk = true) : Sound (runTransaction env tx w).2.state.cells c := by
  obtain ⟨d, hd, hw⟩ := runTransaction_isOk hok
  have hcovers : Covers env w tx := covers_of_isOk hd hok
  rw [hw]
  obtain ⟨account, d₁, f, h1, rfl, -⟩ := parts_of_compute hd
  cases hi : tx.intent with
  | deployToken cellId name symbol decimals supply bps feeRecipient nonTransferable =>
    rw [hi] at hdeploys h1
    cases hdeploys
    rw [Covers, hi] at hcovers
    exact sound_deploy hclean tx.timestamp (fun hpos => lt_of_le_of_lt (Nat.le_add_left _ _) (hcovers hpos)) d₁ h1
  | _ =>
    rw [hi] at hdeploys
    exact hdeploys.elim

theorem capped_of_mints (hs : Sound w.state.cells c) (hmints : Mints c tx.intent)
    (hok : (runTransaction env tx w).1.isOk = true) : Capped (runTransaction env tx w).2.state.cells c := by
  obtain ⟨d, hd, hw⟩ := runTransaction_isOk hok
  rw [hw]
  obtain ⟨account, d₁, f, h1, rfl, -⟩ := parts_of_compute hd
  cases hi : tx.intent with
  | tokenMint token recipient amount =>
    rw [hi] at hmints h1
    cases hmints
    exact (moved_mint hs tx.timestamp d₁ h1).2
  | _ =>
    rw [hi] at hmints
    exact hmints.elim

theorem notMem_of_deploys (hdeploys : Deploys c tx.intent) (hok : (runTransaction env tx w).1.isOk = true) :
    c ∉ w.state.cells.cells := by
  obtain ⟨d, hd, -⟩ := runTransaction_isOk hok
  obtain ⟨account, d₁, f, h1, -, -⟩ := parts_of_compute hd
  cases hi : tx.intent with
  | deployToken cellId name symbol decimals supply bps feeRecipient nonTransferable =>
    rw [hi] at hdeploys h1
    cases hdeploys
    simp only [computeIntent, computeDeployTokenDiff, failIf_bind_ok] at h1
    exact h1.1
  | _ =>
    rw [hi] at hdeploys
    exact hdeploys.elim

end Transactions

/-! ## Runs -/

/-- A transaction of the run before event `i` has done what `P` says of the cell, which is there since. -/
def Since (env : Env) (w : World) (es : List Event) (P : TransactionIntent → Prop)
    (i : ℕ) (c : AccountId) : Prop :=
  ∃ j, j < i ∧ (∃ tx, es[j]? = some (.transaction tx) ∧ P tx.intent ∧
      (runTransaction env tx (worldAt env w es j)).1.isOk = true) ∧
    ∀ k, j < k → k ≤ i → c ∈ (worldAt env w es k).state.cells.cells

/-- Before each event of the run, the accounts hold together what each token that was deployed in the run
states as its supply, and the supply of one that was minted is within the cap. -/
def SupplyKept (env : Env) (w : World) (es : List Event) : Prop :=
  ∀ (i : ℕ) (c : AccountId) (t : Supply), Since env w es (Deploys c) i c →
    tokenAt (worldAt env w es i).state.cells c = some t →
    held (worldAt env w es i).state.cells c = t.total ∧ (Since env w es (Mints c) i c → t.total ≤ t.cap)

section Runs
variable {env : Env} {w : World} {es : List Event} {P : TransactionIntent → Prop} {i : ℕ} {c : AccountId}

theorem Since.mem (h : Since env w es P i c) : c ∈ (worldAt env w es i).state.cells.cells := by
  obtain ⟨j, hj, -, hthere⟩ := h
  exact hthere i hj le_rfl

theorem Since.step (h : Since env w es P (i + 1) c) :
    (∃ tx, es[i]? = some (.transaction tx) ∧ P tx.intent ∧
      (runTransaction env tx (worldAt env w es i)).1.isOk = true) ∨
      Since env w es P i c := by
  obtain ⟨j, hj, hdone, hthere⟩ := h
  rcases Nat.lt_succ_iff_lt_or_eq.mp hj with hlt | rfl
  · exact .inr ⟨j, hlt, hdone, fun k hjk hki => hthere k hjk (Nat.le_succ_of_le hki)⟩
  · exact .inl hdone

/-- The books of a state of the run. -/
structure Books (env : Env) (w : World) (es : List Event) (i : ℕ) : Prop where
  clean : Clean (worldAt env w es i).state.cells
  sound : ∀ c, Since env w es (Deploys c) i c → Sound (worldAt env w es i).state.cells c
  capped : ∀ c, Since env w es (Deploys c) i c → Since env w es (Mints c) i c →
    Capped (worldAt env w es i).state.cells c

theorem books_zero (hgenesis : w.state.cells.tokenBalances = ∅) : Books env w es 0 := by
  refine ⟨fun k hk => ?_, fun c h => ?_, fun c h => ?_⟩
  · have hk' : k ∈ w.state.cells.tokenBalances := hk
    rw [hgenesis] at hk'
    exact absurd hk' Std.ExtTreeMap.not_mem_empty
  · obtain ⟨j, hj, -⟩ := h
    exact absurd hj (Nat.not_lt_zero j)
  · obtain ⟨j, hj, -⟩ := h
    exact absurd hj (Nat.not_lt_zero j)

theorem Books.transaction (h : Books env w es i) {tx : Transaction} (he : es[i]? = some (.transaction tx))
    (hcareful : Careful env (worldAt env w es i) (.transaction tx)) : Books env w es (i + 1) := by
  have hworld : worldAt env w es (i + 1) = (runTransaction env tx (worldAt env w es i)).2 := worldAt_succ he
  have hmoved : ∀ c, Since env w es (Deploys c) i c →
      Moved (worldAt env w es i).state.cells (worldAt env w es (i + 1)).state.cells c := by
    intro c hc
    rw [hworld]
    exact moved_transaction h.clean hcareful hc.mem (h.sound c hc)
  have hsame : ∀ {tx' : Transaction}, es[i]? = some (.transaction tx') → tx' = tx := by
    intro tx' he'
    rw [he] at he'
    cases he'
    rfl
  refine ⟨?_, fun c hc => ?_, fun c hc hm => ?_⟩
  · obtain ⟨us, hkept⟩ := kept_transaction tx h.clean hcareful.1
    rw [hworld]
    exact hkept.clean
  · rcases hc.step with ⟨tx', he', hdeploys, hok⟩ | hc
    · rw [hsame he'] at hdeploys hok
      rw [hworld]
      exact sound_of_deploys h.clean hdeploys hok
    · exact (hmoved c hc).sound (h.sound c hc)
  · rcases hc.step with ⟨tx', he', hdeploys, hok⟩ | hc
    · -- the token is new, and a token that was minted before is not
      rcases hm.step with ⟨tx'', he'', hmints, -⟩ | hm
      · rw [hsame he'] at hdeploys
        rw [hsame he''] at hmints
        cases hi : tx.intent with
        | deployToken =>
          rw [hi] at hmints
          exact hmints.elim
        | _ =>
          rw [hi] at hdeploys
          exact hdeploys.elim
      · exact absurd hm.mem (notMem_of_deploys hdeploys hok)
    · rcases hm.step with ⟨tx', he', hmints, hok⟩ | hm
      · rw [hsame he'] at hmints hok
        rw [hworld]
        exact capped_of_mints (h.sound c hc) hmints hok
      · exact (hmoved c hc).capped (h.capped c hc hm)

theorem Books.idle (h : Books env w es i) (hstate : (worldAt env w es (i + 1)).state = (worldAt env w es i).state)
    (hnone : ∀ tx, es[i]? ≠ some (.transaction tx)) : Books env w es (i + 1) := by
  have hsince : ∀ {P : TransactionIntent → Prop} {c : AccountId}, Since env w es P (i + 1) c →
      Since env w es P i c := by
    intro P c hc
    rcases hc.step with ⟨tx, he, -, -⟩ | hc
    · exact absurd he (hnone tx)
    · exact hc
  refine ⟨?_, fun c hc => ?_, fun c hc hm => ?_⟩
  · rw [hstate]
    exact h.clean
  · rw [hstate]
    exact h.sound c (hsince hc)
  · rw [hstate]
    exact h.capped c (hsince hc) (hsince hm)

/-- **The books of a run** of careful transactions. -/
theorem books (hgenesis : w.state.cells.tokenBalances = ∅) (hcareful : Along (step env) (Careful env) w es) :
    ∀ i, Books env w es i
  | 0 => books_zero hgenesis
  | i + 1 => by
    have ih := books hgenesis hcareful i
    cases he : es[i]? with
    | none =>
      refine ih.idle (by rw [worldAt_of_none he]) fun tx he' => ?_
      rw [he] at he'
      cases he'
    | some e =>
      cases e with
      | settings globals =>
        refine ih.idle (by rw [worldAt_succ he]; rfl) fun tx he' => ?_
        rw [he] at he'
        cases he'
      | transaction tx => exact ih.transaction he (hcareful.at_index he)

end Runs

/-- **The supply of a token.** In every run from a state without token balances in which no transfer takes a
fee that nobody receives, and nothing is wrapped while the wrapped cell is a token, the accounts hold together
what each token states as its supply, before every event, and after a mint the supply is within the cap. -/
theorem token_supply (env : Env) (w : World) (es : List Event) (hgenesis : w.state.cells.tokenBalances = ∅)
    (hcareful : Along (step env) (Careful env) w es) : SupplyKept env w es := by
  intro i c t hc ht
  have hbooks := books hgenesis hcareful i
  exact ⟨(hbooks.sound c hc t ht).1, fun hm => hbooks.capped c hc hm t ht⟩

/-! ## A sample token

The hash functions and the serialised form are those of the node on the inputs that occur here. -/

def tokenDigests : List (String × Bytes32) :=
  [("truthlinked-system-authority-v1", 0xab923a002917cab8090516e64bf46a5d49efcb1a5dae7932816beb614abe0412),
    ("truthlinked.param.v1gas.deploy_token", 0x2ad4b74e26759d29e897249f484a9f44d7e78c4e640d36caf9fb70197d7710ea),
    ("truthlinked.param.v1gas.token_transfer",
      0xf0f40b2a30b0d6136dea84f7cf316aace78d02f7e4e4ffdd2f17d7d032a64db0),
    ("truthlinked.param.v1storage.rent_lifetime_fee",
      0x15ca1006626056fc0997282bd011a4b7b5d461c1f117139560a8a656b81a54bf),
    ("truthlinked.param.v1storage.rent_grace_period_blocks",
      0x94439b5dada8cc2c3b4f5993a11adf6be194b88fa4f04c40aeabbdfea3959e0e)]

def tokenSha256 (bs : Bytes) : Bytes32 :=
  ((tokenDigests.find? fun e => decide (e.1.toUTF8.toList = bs)).map Prod.snd).getD (paramDigest bs)

/-- Account 1 deploys a token with a supply of 100 and a fee of one percent that nobody receives. -/
def sampleDeploy : Transaction := ⟨1, .deployToken 5 "A" "A" 0 100 100 none false, [], 1, 0, 7, 10⟩

def sampleSend : Transaction := ⟨1, .tokenTransfer 5 2 100, [], 2, 0, 7, 10⟩

/-- What it sends is too little for a fee. -/
def smallSend : Transaction := ⟨1, .tokenTransfer 5 2 50, [], 2, 0, 7, 10⟩

def smallSends : List Event := [.transaction sampleDeploy, .transaction smallSend]

/-- The serialised form of a transaction that deploys or transfers a token. -/
def tokenBytes (tx : Transaction) : Bytes :=
  let intent : Bytes := match tx.intent with
    | .deployToken cellId name symbol decimals supply bps none nonTransferable =>
      [19] ++ ofBytes32 cellId ++ varint 10 name.toUTF8.toList.length ++ name.toUTF8.toList ++
        varint 10 symbol.toUTF8.toList.length ++ symbol.toUTF8.toList ++ [UInt8.ofNat decimals] ++
          varint 19 supply ++
        varint 3 bps ++ [0, if nonTransferable then 1 else 0]
    | .tokenTransfer token recipient amount => [32] ++ ofBytes32 token ++ ofBytes32 recipient ++ varint 19 amount
    | _ => []
  ofBytes32 tx.sender ++ intent ++ varint 10 tx.signature.length ++ tx.signature ++ varint 10 tx.nonce ++
    varint 10 tx.timestamp ++ ofBytes32 tx.genesisFingerprint ++ varint 10 tx.expirationHeight

/-- The third-party code, on the inputs that occur here. -/
def tokenEnv : Env :=
  { sampleEnv with
    blake3 := fun bs =>
      if bs = [] then 0xaf1349b9f5f9a1a6a0404dea36dcc9499bcb25c9adc112b7cc9a93cae41f3262
      else if bs = tokenBytes sampleDeploy then 0x084dbd6498f3845b86af842ac4723848a24f52f08d080678d9e8b1f856f5d17e
      else if bs = tokenBytes smallSend then 0x6fd8e82dc93323628f3a28b8b6acfa5f25de1220481762772de6561a83ac146e
      else 0xdb2a9b6f36b93520ee1a0d1bc7c252781b096ce54efc3478269e0b8f4744fe73
    serialize := tokenBytes
    sha256 := tokenSha256 }

def tokenWorld : World where
  state :=
    { sampleState with
      accounts := fromList [(1, ⟨[1], 1000000, 1000000, 0, []⟩), (2, ⟨[2], 50, 0, 0, []⟩)] }
  globals :=
    { sampleWorld.globals with
      paramCache := fromList
        [(paramKey tokenSha256 "gas.deploy_token", encodeU64 10),
          (paramKey tokenSha256 "gas.token_transfer", encodeU64 10),
          (paramKey tokenSha256 "storage.rent_lifetime_fee", encodeU64 10),
          (paramKey tokenSha256 "storage.rent_grace_period_blocks", encodeU64 5),
          (paramKey tokenSha256 "fees.tx_byte", encodeU64 1),
          (paramKey tokenSha256 "cu.per_tlkd", encodeU64 1000000000)] }

theorem sampleDeploy_isOk : (runTransaction tokenEnv sampleDeploy tokenWorld).1.isOk = true := by decide +kernel

theorem since_sampleDeploy {es : List Event} (hfirst : es[0]? = some (.transaction sampleDeploy))
    {i : ℕ} (hi : 0 < i)
    (hthere : ∀ k, 0 < k → k ≤ i → (5 : AccountId) ∈ (worldAt tokenEnv tokenWorld es k).state.cells.cells) :
    Since tokenEnv tokenWorld es (Deploys 5) i 5 :=
  ⟨0, hi, ⟨sampleDeploy, hfirst, rfl, sampleDeploy_isOk⟩, hthere⟩

theorem keepsFee_smallSend : KeepsFee (worldAt tokenEnv tokenWorld smallSends 1).state.cells 5 50 := by
  intro cell config hcell hconfig _
  have hbps : ((worldAt tokenEnv tokenWorld smallSends 1).state.cells.cells[(5 : AccountId)]?.bind
      CellAccount.tokenConfig).map TokenConfig.transferFeeBps = some 100 := by decide +kernel
  rw [hcell, Option.bind_some, hconfig, Option.map_some, Option.some.injEq] at hbps
  rw [hbps]
  decide

/-- A deployment and a transfer of half of the tokens. -/
theorem token_supply_sample : Since tokenEnv tokenWorld smallSends (Deploys 5) 2 5 ∧
    (runTransaction tokenEnv smallSend (worldAt tokenEnv tokenWorld smallSends 1)).1.isOk = true ∧
      SupplyKept tokenEnv tokenWorld smallSends := by
  have hthere : ∀ k ∈ [1, 2], (5 : AccountId) ∈ (worldAt tokenEnv tokenWorld smallSends k).state.cells.cells := by
    decide +kernel
  refine ⟨since_sampleDeploy rfl Nat.two_pos fun k hk hk2 => hthere k ?_, by decide +kernel,
    token_supply tokenEnv tokenWorld _ rfl ⟨⟨trivial, fun _ _ _ h => by cases h⟩, ⟨trivial, ?_⟩, trivial⟩⟩
  · have hcases : k = 1 ∨ k = 2 := by omega
    simpa using hcases
  · intro token recipient amount hintent
    cases hintent
    exact keepsFee_smallSend

/-- Sending all of the sample token leaves 99 of the 100 that the cell states. -/
theorem token_fee_lost :
    ¬ ∀ (env : Env) (w : World) (es : List Event), w.state.cells.tokenBalances = ∅ → SupplyKept env w es := by
  intro h
  have hthere : ∀ k ∈ [1, 2], (5 : AccountId) ∈ (worldAt tokenEnv tokenWorld
      [.transaction sampleDeploy, .transaction sampleSend] k).state.cells.cells := by decide +kernel
  have hsupply : (tokenAt (worldAt tokenEnv tokenWorld
      [.transaction sampleDeploy, .transaction sampleSend] 2).state.cells 5).map Supply.total = some 100 := by
    decide +kernel
  have hheld : held (worldAt tokenEnv tokenWorld
      [.transaction sampleDeploy, .transaction sampleSend] 2).state.cells 5 = 99 := by decide +kernel
  obtain ⟨t, ht, htotal⟩ := Option.map_eq_some_iff.mp hsupply
  have hsince : Since tokenEnv tokenWorld [.transaction sampleDeploy, .transaction sampleSend] (Deploys 5) 2 5 :=
    since_sampleDeploy rfl Nat.two_pos fun k hk hk2 => hthere k (by
      have hcases : k = 1 ∨ k = 2 := by omega
      simpa using hcases)
  have hkept := (h tokenEnv tokenWorld _ rfl 2 5 t hsince ht).1
  rw [hheld, htotal] at hkept
  cases hkept

end TruthLinked.Ledger.TokenSupply
