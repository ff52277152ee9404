import TruthLinked.Ledger.Demand
import TruthLinked.Ledger.MergeAgreement

/-! # When a computed diff can be applied

`compute_transaction_diff_skip_sig` checks the balance of the sender against the amount of the intent and
against the gas, each alone, and it leaves overflows, staking operations and some cells to `apply_diff`.
`Covers` says for each intent what has to hold besides, in terms of the state and the transaction;
`apply_succeeds_iff` that it is exactly what makes the diff applicable. -/

namespace TruthLinked.Ledger.Coverage

open Core.Types Runtime.Cells Runtime.Types Staking.State Staking.Specs Ledger.Model Ledger.Phases
open Ledger.Execution Ledger.SystemCells Ledger.Mcp Ledger.PrivateBalance Ledger.Compute Ledger.ComputeCells
open Ledger.Apply Ledger.AccountSpecs Ledger.StakingSpecs Ledger.CellSpecs Ledger.ApplySpec Ledger.CallSpecs
open Ledger.ComputeSpec Ledger.Demand Ledger.MergeAgreement Lib.Except Lib.Keyed Lib.Phase Lib.Wp

variable {cellId a : AccountId} {cs : CellState} {n gasLimit : ℕ} {u : CellUpdate} {cd : Bytes}

/-! ## Cells -/

/-- An update that only needs its cell to exist, if that. -/
def Present (cs : CellState) : CellUpdate → Prop
  | .deploy _ _ => True
  | .storageChange cellId _ | .balanceChange cellId _ => cellId ∈ cs.cells
  | _ => False

theorem mem_cellEffect {env : Env} (hu : Present cs u)
    (ha : a ∈ cs.cells) : a ∈ (cellEffect env u cs).cells := by
  cases u with
  | deploy cellId cell => exact Std.ExtTreeMap.mem_insert.mpr (.inr ha)
  | storageChange cellId storageDiff => exact (mem_modifyCell _ _ _ _).mpr ha
  | balanceChange cellId newBalance => exact (mem_modifyCell _ _ _ _).mpr ha
  | _ => exact hu.elim

theorem present_cellEffect {env : Env} {v : CellUpdate} (hu : Present cs u)
    (hv : Present cs v) : Present (cellEffect env u cs) v := by
  cases v with
  | deploy cellId cell => trivial
  | storageChange cellId storageDiff => exact mem_cellEffect hu hv
  | balanceChange cellId newBalance => exact mem_cellEffect hu hv
  | _ => exact hv.elim

theorem cellWith_of_mem (h : cellId ∈ cs.cells) :
    CellWith cellId (fun _ => True) cs := by
  obtain ⟨cell, hcell⟩ := Option.isSome_iff_exists.mp (mem_iff_slot.mp h)
  exact ⟨cell, hcell, trivial⟩

theorem mem_of_lookup {cell : CellAccount} (h : cs.cells[cellId]? = some cell) : cellId ∈ cs.cells := by
  rw [mem_iff_slot, slot, h]
  rfl

theorem fits_of_present (h : Present cs u) : CellUpdateFits u cs := by
  cases u with
  | deploy cellId cell => trivial
  | storageChange cellId storageDiff => exact cellWith_of_mem h
  | balanceChange cellId newBalance => exact cellWith_of_mem h
  | _ => exact h.elim

theorem fitsAll_of_present (env : Env) {us : List CellUpdate}
    (h : ∀ u ∈ us, Present cs u) : FitsAll CellUpdateFits (cellEffect env) us cs := by
  induction us generalizing cs with
  | nil => trivial
  | cons u us ih =>
    have hu := h u List.mem_cons_self
    exact ⟨fits_of_present hu, ih fun v hv => present_cellEffect hu (h v (List.mem_cons_of_mem u hv))⟩

theorem present_cellChanges (cs : CellState) (after : Map AccountId CellAccount) :
    ∀ u ∈ cellChanges cs.cells after, Present cs u := by
  intro u hu
  obtain ⟨⟨cellId, a⟩, -, hu⟩ := List.mem_flatMap.mp hu
  simp only at hu
  split at hu
  · exact absurd hu List.not_mem_nil
  · rename_i b hb
    have hmem := mem_of_lookup hb
    rw [cellChange, List.mem_append, List.mem_append] at hu
    rcases hu with (hu | hu) | hu
    · split_ifs at hu
      · exact absurd hu List.not_mem_nil
      · rw [List.mem_singleton.mp hu]
        exact hmem
    · split_ifs at hu
      · rw [List.mem_singleton.mp hu]
        exact hmem
      · exact absurd hu List.not_mem_nil
    · split_ifs at hu
      · rw [List.mem_singleton.mp hu]
        trivial
      · exact absurd hu List.not_mem_nil

/-- The policy cell of an agent, as the registry has it, exists. -/
def PolicyKnown (env : Env) (cs : CellState) (agentId registryId : AccountId) : Prop :=
  ∀ registry policyId, cs.cells[registryId]? = some registry →
    registry.storage[agentPolicy env agentId]? = some policyId → policyId ∈ cs.cells

/-- What the cell updates of an intent ask of the cells, where the handler has not checked it. -/
def CellsKnown (env : Env) (cs : CellState) (sender : AccountId) : TransactionIntent → Prop
  | .acceptOwnership cellId => CellWith cellId (fun cell => cell.pendingOwner = some sender) cs
  | .suspendAgent agentId registryId _ => PolicyKnown env cs agentId registryId
  | .reinstateAgent agentId registryId => PolicyKnown env cs agentId registryId
  | _ => True

section Handlers
variable {env : Env} {w : World} {tx : Transaction} {account : AccountRecord}

/-- The updates of the diff go through. -/
def CellsFit (env : Env) (w : World) (d : StateDiff) : Prop :=
  FitsAll CellUpdateFits (cellEffect env) d.cellUpdates w.state.cells

theorem ownedCell_ok (cellId : AccountId) (refusal : String) :
    Ensures (ownedCell env w.state tx.sender cellId refusal) fun _ =>
      CellWith cellId (fun cell => cell.owner = tx.sender) w.state.cells := by
  simp only [ownedCell, ensures_bind, ensures_okOr, ensures_failIf, ensures_pure]
  intro cell hcell _ howner
  exact ⟨cell, hcell, not_not.mp howner⟩

theorem cellWith_mono {P : CellAccount → Prop}
    (h : CellWith cellId P cs) : CellWith cellId (fun _ => True) cs := by
  obtain ⟨cell, hcell, -⟩ := h
  exact ⟨cell, hcell, trivial⟩

theorem cellsFit_register (registryId : AccountId) (what countTag entryTag nameTag name : String)
    (cell : CellAccount) :
    Ensures (register env w tx.sender registryId what countTag entryTag nameTag name cell)
      fun mcp => CellsFit env w (takeCells (start env tx) mcp) := by
  simp only [register, ensures_bind, ensures_okOr, ensures_failIf, ensures_pure]
  intro registry hregistry _ _ _ _
  refine fitsAll_of_present env fun u hu => ?_
  rcases List.mem_cons.mp hu with rfl | hu
  · trivial
  · rw [List.mem_singleton.mp hu]
    exact mem_of_lookup hregistry

theorem cellUpdates_chain (d : StateDiff) (results : List ExecutionResult) :
    (results.foldl addChainResult d).cellUpdates = d.cellUpdates := by
  induction results generalizing d with
  | nil => rfl
  | cons r results ih => rw [List.foldl_cons, ih]; rfl

theorem cellUpdates_payValue (d : StateDiff) (value : ℕ) :
    (payValue d tx.sender value account).cellUpdates = d.cellUpdates := by
  rw [payValue]
  split_ifs <;> rfl

theorem cellsFit_callChain (calls : List CellCall) (gasLimit : ℕ) (allow : Bool) :
    Ensures (computeCallChainDiff env w (start env tx) tx.sender calls gasLimit account allow)
      (CellsFit env w) := by
  simp only [computeCallChainDiff, ensures_bind, ensures_failIf]
  intro _ _ _ _ _
  refine ensures_true.mono fun out _ => ?_
  rw [ensures_pure, CellsFit, cellUpdates_payValue]
  simp only [addCells]
  rw [cellUpdates_chain]
  exact fitsAll_of_present env (present_cellChanges _ _)

theorem cellsFit_callCell (cellId : AccountId) (calldata : Bytes) (value gasLimit timestamp height : ℕ) :
    Ensures (computeCallCellDiff env w (start env tx) tx.sender cellId calldata value gasLimit timestamp
      height account) (CellsFit env w) := by
  simp only [computeCallCellDiff, callSystemCell, callVmCell, ensures_bind, ensures_failIf,
    ensures_okOr, ensures_ite, ensures_pure]
  intro _ _ cell hcell _ _
  refine ⟨fun _ _ => ?_, fun _ _ => ensures_true.mono fun root _ => ?_⟩
  · rw [CellsFit, cellUpdates_payValue]
    refine fitsAll_of_present env fun u hu => ?_
    simp only [addTransfers] at hu
    split_ifs at hu
    · exact absurd hu List.not_mem_nil
    · rw [List.mem_singleton.mp hu]
      exact mem_of_lookup hcell
  · rw [CellsFit, cellUpdates_payValue]
    exact fitsAll_of_present env (present_cellChanges _ _)

/-- **When the cell updates of an intent go through.** -/
theorem cellsFit_computeIntent (timestamp : ℕ) (intent : TransactionIntent) :
    Ensures (computeIntent env w (start env tx) tx.sender timestamp account intent)
      fun d => CellsFit env w d ↔ CellsKnown env w.state.cells tx.sender intent := by
  have hfits : ∀ {d : StateDiff} {P : Prop}, CellsFit env w d → P → (CellsFit env w d ↔ P) :=
    fun h hP => iff_of_true h hP
  cases intent with
  | stake | unstake | withdrawStake | unjail | proposeTokenAuthority | voteTokenAuthority | callSystem =>
    exact ensures_throw.mpr trivial
  | acceptOwnership cellId => exact ensures_pure.mpr (and_iff_left trivial)
  | suspendAgent agentId registryId _ | reinstateAgent agentId registryId =>
    simp only [computeIntent, diffSetAgentStatus, ensures_bind, ensures_okOr, ensures_failIf, ensures_pure]
    intro registry hregistry _ policyId hpolicy
    refine (and_iff_left trivial).trans ⟨?_, fun h => cellWith_of_mem (h registry policyId hregistry hpolicy)⟩
    rintro ⟨cell, hcell, -⟩ registry' policyId' hregistry' hpolicy'
    rw [hregistry] at hregistry'
    cases hregistry'
    rw [hpolicy] at hpolicy'
    cases hpolicy'
    exact mem_of_lookup hcell
  | callCell cellId calldata value gasLimit =>
    exact (cellsFit_callCell _ _ _ _ _ _).mono fun _ h => hfits h trivial
  | callCellChain calls gasLimit =>
    exact (cellsFit_callChain _ _ _).mono fun _ h => hfits h trivial
  | mcpToolCall agentId toolId calldata value gasLimit policyCellId logId time =>
    simp only [computeIntent, ensures_bind]
    exact ensures_true.mono fun _ _ => (cellsFit_callChain _ _ _).mono fun _ h => hfits h trivial
  | upgradeCell cellId bytecode reads writes keys specs schemas =>
    simp only [computeIntent, computeUpgradeCellDiff, ensures_bind]
    refine (ownedCell_ok cellId _).mono fun cell hcell => ?_
    simp only [ensures_failIf, ensures_pure]
    exact fun _ _ => ensures_true.mono fun _ _ => hfits ⟨cellWith_mono hcell, trivial⟩ trivial
  | transferOwnership cellId newOwner =>
    simp only [computeIntent, computeTransferOwnershipDiff, ensures_bind]
    refine (ownedCell_ok cellId _).mono fun cell hcell => ?_
    simp only [ensures_failIf, ensures_pure]
    exact fun _ => hfits ⟨cellWith_mono hcell, trivial⟩ trivial
  | makeImmutable cellId =>
    simp only [computeIntent, computeMakeImmutableDiff, ensures_bind]
    refine (ownedCell_ok cellId _).mono fun cell hcell => ?_
    rw [ensures_pure]
    exact hfits ⟨hcell, trivial⟩ trivial
  | registerMcpTool toolId bytecode name schema category reads writes keys schemas registryId =>
    simp only [computeIntent, diffRegisterTool, ensures_bind, ensures_failIf, ensures_pure]
    intro _ _ _
    refine ensures_true.mono fun _ _ _ => ?_
    exact (cellsFit_register _ _ _ _ _ _ _).mono fun _ h => hfits h trivial
  | registerMcpResource id bytecode name uri mime data reads writes schemas registryId =>
    simp only [computeIntent, diffRegisterResource, ensures_bind, ensures_failIf, ensures_okOr, ensures_ite,
      ensures_pure]
    refine fun _ _ => ⟨fun _ => ensures_true.mono fun _ _ _ _ _ _ _ _ _ => ?_, fun _ _ _ _ _ _ _ _ => ?_⟩
    all_goals exact (cellsFit_register _ _ _ _ _ _ _).mono fun _ h => hfits h trivial
  | registerMcpPrompt id name template arguments registryId =>
    simp only [computeIntent, diffRegisterPrompt, ensures_bind, ensures_failIf, ensures_pure]
    intro _ _ _
    exact (cellsFit_register _ _ _ _ _ _ _).mono fun _ h => hfits h trivial
  | registerAgent agentId policyCellId registryId =>
    simp only [computeIntent, diffRegisterAgent, ensures_bind, ensures_okOr, ensures_failIf, ensures_pure]
    intro registry hregistry hpolicy _ _ _
    refine hfits (fitsAll_of_present env fun u hu => ?_) trivial
    rcases List.mem_cons.mp hu with rfl | hu
    · exact mem_of_lookup hregistry
    · rw [List.mem_singleton.mp hu]
      exact not_not.mp hpolicy
  | privateBalanceDeposit cellId agentId amount enc comm nonce old =>
    simp only [computeIntent, circuitDeposit, loadAndGuard, ensures_bind, ensures_failIf, ensures_okOr,
      ensures_pure]
    intro cell hcell
    repeat intro
    exact hfits ⟨cellWith_of_mem (mem_of_lookup hcell), trivial⟩ trivial
  | privateBalanceWithdraw cellId agentId amount recipient enc comm nonce old =>
    simp only [computeIntent, circuitWithdraw, loadAndGuard, ensures_bind, ensures_failIf, ensures_okOr,
      ensures_pure]
    intro cell hcell
    repeat intro
    exact hfits ⟨cellWith_of_mem (mem_of_lookup hcell), trivial⟩ trivial
  | privateBalanceConfidentialTransfer sCell sAgent rCell amount proof sEnc sComm sNonce sOld rEnc rComm
      rNonce rOld =>
    simp only [computeIntent, circuitConfidentialTransfer, loadAndGuard, ensures_bind, ensures_failIf,
      ensures_okOr, ensures_pure]
    intro s hs _ _ _ _
    refine ensures_true.mono fun _ _ r hr => ?_
    repeat intro
    refine hfits (fitsAll_of_present env fun u hu => ?_) trivial
    rcases List.mem_cons.mp hu with rfl | hu
    · exact mem_of_lookup hs
    · rw [List.mem_singleton.mp hu]
      exact mem_of_lookup hr
  | submitOracleReveal requestId body status =>
    simp only [computeIntent, computeOracleRevealDiff, ensures_bind, ensures_failIf, ensures_okOr,
      ensures_ite, ensures_pure]
    intro _ _ _ _ _ _ _ _ _ _
    exact ⟨fun _ => ensures_true.mono fun _ _ => hfits trivial trivial, fun _ => hfits trivial trivial⟩
  | transferToName name amount =>
    simp only [computeIntent, computeTransferDiff, ensures_bind, ensures_failIf, ensures_okOr, ensures_pure]
    repeat intro
    exact hfits trivial trivial
  | batchTransferToName transfers =>
    simp only [computeIntent, computeBatchTransferDiff, ensures_bind, ensures_failIf, ensures_okOr,
      ensures_pure]
    repeat intro
    exact hfits trivial trivial
  | transfer | batchTransfer | claim | rotateKey | depositCompute | withdrawCompute | wrapTLKD | unwrapTLKD
  | mintNFT | transferNFT | burnNFT | approveNFT | tokenTransfer | tokenFreeze | tokenThaw | proposeUrl
  | voteUrl | reportMaliciousUrl | setCellVisibility | submitOracleCommit =>
    simp only [computeIntent, computeTransferDiff, computeBatchTransferDiff, computeClaimDiff,
      computeRotateKeyDiff, computeDepositComputeDiff, computeWithdrawComputeDiff, computeWrapTrthDiff,
      computeUnwrapTrthDiff, computeMintNftDiff, computeTransferNftDiff, computeBurnNftDiff,
      computeApproveNftDiff, computeTokenTransferDiff, computeTokenFreezeDiff, computeProposeUrlDiff,
      computeVoteUrlDiff, computeReportMaliciousUrlDiff, computeSetCellVisibilityDiff,
      computeOracleCommitDiff, ensures_bind, ensures_failIf, ensures_okOr, ensures_pure]
    repeat intro
    exact hfits trivial trivial
  | _ =>
    simp only [computeIntent, computeDeployCellDiff, computeDeployTokenDiff, computeCloseCellDiff,
      computeProposeCellUpgradeDiff, computeProposeCellOwnershipTransferDiff,
      computeProposeCellMakeImmutableDiff, computeVoteCellProposalDiff, computeExecuteCellProposalDiff,
      computeTokenMintDiff, computeTokenBurnDiff, circuitInitPrivateBalance, redeploy, ensures_bind,
      ensures_failIf, ensures_okOr, ensures_pure]
    repeat intro
    exact hfits ⟨trivial, trivial⟩ trivial

end Handlers

/-! ## The payments of a computed diff -/

theorem moved_append (a : AccountId) (l l' : List (AccountId × ℕ)) :
    moved a (l ++ l') = moved a l + moved a l' := by
  simp only [moved, total, pick, List.filter_append, List.map_append, List.sum_append]

theorem moved_entry (a : AccountId) (n : ℕ) : moved a (entry a n) = n := by
  rw [entry]
  split_ifs with h
  · rw [moved, total_cons, if_pos rfl]
    rfl
  · have h0 : n = 0 := Nat.eq_zero_of_not_pos h
    rw [h0]
    rfl

theorem moved_single (a : AccountId) (n : ℕ) : moved a [(a, n)] = n := by
  rw [moved, total_cons, if_pos rfl]
  rfl

theorem amountFor_eq (a : AccountId) (l : List (AccountId × ℕ)) : amountFor a l = moved a l % u128 := rfl

theorem fst_of_mem_entry {c : AccountId × ℕ} (h : c ∈ entry a n) : c.1 = a := by
  rw [entry] at h
  split_ifs at h
  · rw [List.mem_singleton.mp h]
  · exact absurd h List.not_mem_nil

/-- No recipient of the payments overflows. -/
def Receives (m : Accounts) (pays : List (AccountId × ℕ)) : Prop :=
  ∀ c ∈ pays, balanceOf m c.1 + moved c.1 pays < u128

section Payments
variable {sender : AccountId} {account : AccountRecord} {m : Accounts}

theorem balanceOf_sender (hacc : m[sender]? = some account) : balanceOf m sender = account.balance := by
  rw [balanceOf, slot, hacc]
  rfl

theorem escrowOf_sender (hacc : m[sender]? = some account) :
    escrowOf m sender = account.computeEscrowTlkd := by
  rw [escrowOf, slot, hacc]
  rfl

theorem debits_fit_iff (known : AccountId → Prop) (funds : AccountId → ℕ) {l : List (AccountId × ℕ)}
    (hl : ∀ c ∈ l, c.1 = sender) (hknown : known sender) :
    (∀ c ∈ l, known c.1 ∧ moved c.1 l ≤ funds c.1) ↔ moved sender l ≤ funds sender := by
  constructor
  · intro h
    cases l with
    | nil => exact Nat.zero_le _
    | cons c l =>
      have hc := (h c List.mem_cons_self).2
      rwa [hl c List.mem_cons_self] at hc
  · intro h c hc
    rw [hl c hc]
    exact ⟨hknown, h⟩

theorem accountsFit_withFees {d : StateDiff} {f : Fees} (hacc : m[sender]? = some account)
    (hdebits : ∀ c ∈ d.nativeDebits, c.1 = sender) (hescrow : ∀ c ∈ d.computeEscrowDebits, c.1 = sender) :
    AccountsFit (withFees sender account f d) m ↔
      Receives m d.nativeTransfers ∧
      moved sender d.nativeDebits + f.debit ≤ account.balance + moved sender d.nativeTransfers ∧
      (∀ c ∈ d.computeEscrowCredits, escrowOf m c.1 + moved c.1 d.computeEscrowCredits < u128) ∧
      moved sender d.computeEscrowDebits + f.price ≤
        account.computeEscrowTlkd + moved sender d.computeEscrowCredits := by
  have hsome : (slot m sender).isSome := by
    rw [slot, hacc]
    rfl
  have hgas : ∀ c ∈ d.nativeDebits ++ entry sender f.debit, c.1 = sender := fun c hc =>
    (List.mem_append.mp hc).elim (hdebits c) fst_of_mem_entry
  have hprice : ∀ c ∈ d.computeEscrowDebits ++ entry sender f.price, c.1 = sender := fun c hc =>
    (List.mem_append.mp hc).elim (hescrow c) fst_of_mem_entry
  have h1 := debits_fit_iff (fun a => (slot m a).isSome ∨ Paid a d.nativeTransfers)
    (fun a => balanceOf m a + moved a d.nativeTransfers) hgas (.inl hsome)
  have h2 := debits_fit_iff
    (fun a => ((slot m a).isSome ∨ Paid a d.nativeTransfers) ∨ Paid a d.computeEscrowCredits)
    (fun a => escrowOf m a + moved a d.computeEscrowCredits) hprice (.inl (.inl hsome))
  rw [moved_append, moved_entry, balanceOf_sender hacc] at h1
  rw [moved_append, moved_entry, escrowOf_sender hacc] at h2
  constructor
  · rintro ⟨ha, hb, hc, hd⟩
    exact ⟨ha, h1.mp hb, hc, h2.mp hd⟩
  · rintro ⟨ha, hb, hc, hd⟩
    exact ⟨ha, h1.mpr hb, hc, h2.mpr hd⟩

end Payments

/-! ## The gas -/

section Gas
variable {env : Env} {w : World} {tx : Transaction} {account : AccountRecord} {d : StateDiff} {f : Fees}

theorem debit_eq_byteFee (hf : FeesOf env w tx account d f) (hgas : d.gasFee = 0)
    (hnone : paymentsOf w.state tx.intent = none) : f.debit = txByteFee env w tx := by
  have hemb : embeddedFee env w tx.intent = none := by
    cases hi : tx.intent <;> rw [hi] at hnone <;> first | rfl | cases hnone
  have hreq : (requiredFees env w (txByteFee env w tx) tx.intent).1 = 0 := by
    cases hi : tx.intent <;> rw [hi] at hnone <;> first | rfl | cases hnone
  rw [hf.debit, hemb, Option.getD_none, Nat.sub_zero, hf.settled.1, hreq]
  simp only [settleFees, lt_irrefl, if_false, true_and]
  by_cases hpos : 0 < txByteFee env w tx
  · split_ifs <;> simp_all
  · have h0 : txByteFee env w tx = 0 := Nat.eq_zero_of_not_pos hpos
    split_ifs <;> simp_all

/-- The gas is within the balance, when the handler leaves a modest record. -/
theorem debit_le_balance (hf : FeesOf env w tx account d f)
    (hnone : paymentsOf w.state tx.intent = none) (hmodest : Modest tx.sender account d.accountUpdates) :
    f.debit ≤ account.balance := by
  have hemb : embeddedFee env w tx.intent = none := by
    cases hi : tx.intent <;> rw [hi] at hnone <;> first | rfl | cases hnone
  rcases Nat.eq_zero_or_pos f.debit with h0 | hpos
  · omega
  · have hcov := hf.covered hpos
    rw [hemb, GasCovered] at hcov
    cases hr : d.accountUpdates[tx.sender]? with
    | none =>
      rw [hr] at hcov
      exact hcov
    | some r =>
      rw [hr] at hcov
      exact hcov.trans (hmodest r hr)

theorem price_le_escrow (hf : FeesOf env w tx account d f) (hdebits : d.computeEscrowDebits = []) :
    f.price ≤ account.computeEscrowTlkd + moved tx.sender d.computeEscrowCredits := by
  rcases Nat.eq_zero_or_pos f.price with h0 | hpos
  · omega
  · have hesc := hf.escrow hpos
    have hle : amountFor tx.sender d.computeEscrowCredits ≤ moved tx.sender d.computeEscrowCredits :=
      Nat.mod_le _ _
    have hzero : amountFor tx.sender d.computeEscrowDebits = 0 := by
      rw [hdebits]
      rfl
    omega

end Gas

/-! ## The condition -/

/-- A call of a system cell goes through: its staking operation and the payout of it, its payments out of
the cell, and the value that is sent along. -/
structure SystemCallFits (env : Env) (s : State) (sender : AccountId) (gas : ℕ) (cellId : AccountId)
    (a : Asked) (value : ℕ) : Prop where
  recipients : Receives s.accounts a.transfers
  operation : FitsAll OpFits opEffect a.staking s.staking
  payouts : ∀ c ∈ payouts env a.staking s.staking, (slot s.accounts c.1).isSome ∧
    balanceOf s.accounts c.1 - (if c.1 = sender then gas else 0) +
      moved c.1 (payouts env a.staking s.staking) < u128
  credit : 0 < value → cellHeld (cellSlot s.cells cellId) + value < u128
  debit : (a.transfers.map Prod.snd).sum ≤ cellHeld (cellSlot s.cells cellId) + value

/-- What has to hold besides the checks of `compute_transaction_diff_skip_sig`, intent by intent: no
recipient overflows, the amount and the gas together are within the balance, the operations of a system
cell go through, and the cells named exist. -/
def Covers (env : Env) (w : World) (tx : Transaction) : Prop :=
  let s := w.state
  let gas := txByteFee env w tx
  match tx.intent with
  | .transfer recipient _ amount => Receives s.accounts [(recipient, amount)]
  | .transferToName name amount => Receives s.accounts [(targetOf s name, amount)]
  | .batchTransfer transfers => Receives s.accounts (payments transfers)
  | .batchTransferToName transfers => Receives s.accounts (namePayments s transfers)
  | .depositCompute amount => amount + gas ≤ balanceOf s.accounts tx.sender ∧
      escrowOf s.accounts tx.sender + amount < u128
  | .withdrawCompute amount => balanceOf s.accounts tx.sender + amount < u128
  | .unwrapTLKD amount => balanceOf s.accounts tx.sender + amount < u128
  | .wrapTLKD amount => amount + gas ≤ balanceOf s.accounts tx.sender ∧
      (wtrthSystemCellId env ∈ s.cells.cells →
        tokenBalanceOf s (wtrthSystemCellId env) tx.sender + amount < u128)
  | .deployToken cellId _ _ _ supply _ _ _ =>
      0 < supply → tokenBalanceOf s cellId tx.sender + supply < u128
  | .callCell cellId calldata value _ => isSystemCell env cellId = true →
      SystemCallFits env s tx.sender gas cellId (askedSystemCall env w cellId calldata value) value
  | .acceptOwnership cellId => CellWith cellId (fun cell => cell.pendingOwner = some tx.sender) s.cells
  | .suspendAgent agentId registryId _ => PolicyKnown env s.cells agentId registryId
  | .reinstateAgent agentId registryId => PolicyKnown env s.cells agentId registryId
  | .closeCell _ => gas ≤ balanceOf s.accounts tx.sender
  | .proposeUrl _ bond _ => bond + gas ≤ balanceOf s.accounts tx.sender
  | .privateBalanceInit .. => rentDeposit env w.globals + gas ≤ balanceOf s.accounts tx.sender
  | .privateBalanceDeposit _ _ amount _ _ _ _ => amount + gas ≤ balanceOf s.accounts tx.sender
  | _ => True

/-- The parts of a computed diff. -/
structure Parts (env : Env) (w : World) (tx : Transaction) (account : AccountRecord) (d : StateDiff)
    (f : Fees) : Prop where
  sender : w.state.accounts[tx.sender]? = some account
  handler : computeIntent env w (start env tx) tx.sender tx.timestamp account tx.intent = .ok d
  fees : FeesOf env w tx account d f

section Parts
variable {env : Env} {w : World} {tx : Transaction} {account : AccountRecord} {d : StateDiff} {f : Fees}

theorem Parts.handled (h : Parts env w tx account d f) : Handled env w tx d :=
  handled_computeIntent _ _ d h.handler

theorem Parts.asked (h : Parts env w tx account d f) :
    askedOf d = asked env w tx.sender account tx.intent := asked_computeIntent _ _ d h.handler

theorem Parts.cells (h : Parts env w tx account d f) :
    CellsFit env w d ↔ CellsKnown env w.state.cells tx.sender tx.intent :=
  cellsFit_computeIntent _ _ d h.handler

theorem Parts.applicable_iff (h : Parts env w tx account d f) :
    Applicable env (withFees tx.sender account f d) w.state ↔
      AccountsFit (withFees tx.sender account f d) w.state.accounts ∧
      FitsAll OpFits opEffect d.stakingUpdates w.state.staking ∧
      (∀ c ∈ payouts env d.stakingUpdates w.state.staking,
        Settled (withFees tx.sender account f d) w.state.accounts c.1 ∧
        settledBalance (withFees tx.sender account f d) w.state.accounts c.1 +
          moved c.1 (payouts env d.stakingUpdates w.state.staking) < u128) ∧
      CellsFit env w d ∧
      BalancesFit env d (runAll (cellEffect env) d.cellUpdates w.state.cells)
        (runAll opEffect d.stakingUpdates w.state.staking) := by
  have hplain : frame d = start env tx := h.handled.plain
  constructor
  · intro ha
    exact ⟨ha.accounts, ha.staking, ha.payouts, ha.cells,
      ⟨ha.balances.tokens, ha.balances.rewards, ha.balances.credits, ha.balances.debits⟩⟩
  · rintro ⟨h1, h2, h3, h4, h5⟩
    have hspent : ∀ n, d.gasFeeSpent ≤ n ∧ d.nameFeeSpent ≤ n ∧ d.computeFeeSpent ≤ n ∧
        d.treasuryFeeSpent ≤ n := by
      have e1 : d.gasFeeSpent = 0 := congrArg StateDiff.gasFeeSpent hplain
      have e2 : d.nameFeeSpent = 0 := congrArg StateDiff.nameFeeSpent hplain
      have e3 : d.computeFeeSpent = 0 := congrArg StateDiff.computeFeeSpent hplain
      have e4 : d.treasuryFeeSpent = 0 := congrArg StateDiff.treasuryFeeSpent hplain
      omega
    refine ⟨h1, h2, h3, h4, ⟨h5.tokens, h5.rewards, h5.credits, h5.debits⟩, (hspent _).1, (hspent _).2.1,
      (hspent _).2.2.1, (hspent _).2.2.2, ?_⟩
    intro l pattern l' hl
    exact .inl (h.handled.slashes (.slashUrlProposer pattern)
      (hl ▸ List.mem_append_right _ List.mem_cons_self))

theorem lists_of_asked {a : Asked} (h : askedOf d = a) :
    d.nativeTransfers = a.transfers ∧ d.nativeDebits = a.debits ∧
    d.computeEscrowCredits = a.escrowCredits ∧ d.computeEscrowDebits = a.escrowDebits ∧
    d.stakingUpdates = a.staking ∧ d.tokenCredits = a.tokenCredits ∧ d.cellCredits = a.cellCredits ∧
    d.cellDebits = a.cellDebits ∧ d.gasFee = a.gas := by
  subst h
  exact ⟨rfl, rfl, rfl, rfl, rfl, rfl, rfl, rfl, rfl⟩

theorem balancesFit_of_none (hplain : frame d = start env tx) (cs : CellState) (st : StakingState)
    (htokens : d.tokenCredits = []) (hcredits : d.cellCredits = []) (hdebits : d.cellDebits = []) :
    BalancesFit env d cs st := by
  have hrewards : d.stakingRewards = [] := congrArg StateDiff.stakingRewards hplain
  refine ⟨?_, ?_, ?_, ?_⟩
  · intro c hc
    rw [htokens] at hc
    exact absurd hc List.not_mem_nil
  · rw [hrewards]
    trivial
  · intro c hc
    rw [hcredits] at hc
    exact absurd hc List.not_mem_nil
  · intro c hc
    rw [hdebits] at hc
    exact absurd hc List.not_mem_nil

theorem Parts.applicable_of_payments (h : Parts env w tx account d f) {a : Asked} (ha : askedOf d = a)
    (hdebits : ∀ c ∈ a.debits, c.1 = tx.sender) (hescrow : ∀ c ∈ a.escrowDebits, c.1 = tx.sender)
    (hstaking : a.staking = []) (htokens : a.tokenCredits = []) (hcredits : a.cellCredits = [])
    (hcells : a.cellDebits = []) :
    Applicable env (withFees tx.sender account f d) w.state ↔
      (Receives w.state.accounts a.transfers ∧
        moved tx.sender a.debits + f.debit ≤ account.balance + moved tx.sender a.transfers ∧
        (∀ c ∈ a.escrowCredits, escrowOf w.state.accounts c.1 + moved c.1 a.escrowCredits < u128) ∧
        moved tx.sender a.escrowDebits + f.price ≤
          account.computeEscrowTlkd + moved tx.sender a.escrowCredits) ∧
      CellsKnown env w.state.cells tx.sender tx.intent := by
  obtain ⟨e1, e2, e3, e4, e5, e6, e7, e8, -⟩ := lists_of_asked ha
  rw [h.applicable_iff, h.cells, accountsFit_withFees h.sender (by rwa [e2]) (by rwa [e4]), e1, e2, e3, e4,
    e5, hstaking]
  have hbal := balancesFit_of_none h.handled.plain (runAll (cellEffect env) d.cellUpdates w.state.cells)
    (runAll opEffect [] w.state.staking) (e6.trans htokens) (e7.trans hcredits) (e8.trans hcells)
  constructor
  · rintro ⟨h1, -, -, h4, -⟩
    exact ⟨h1, h4⟩
  · rintro ⟨h1, h4⟩
    exact ⟨h1, trivial, fun c hc => absurd hc List.not_mem_nil, h4, hbal⟩

theorem Parts.gas (h : Parts env w tx account d f) (hgas : d.gasFee = 0)
    (hnone : paymentsOf w.state tx.intent = none) : f.debit = txByteFee env w tx :=
  debit_eq_byteFee h.fees hgas hnone

theorem Parts.modest (h : Parts env w tx account d f) (hleaves : LeavesBalance tx.intent) :
    f.debit ≤ account.balance := by
  have hnone : paymentsOf w.state tx.intent = none := by
    cases hi : tx.intent <;> rw [hi] at hleaves <;> first | rfl | exact hleaves.elim
  exact debit_le_balance h.fees hnone (modest_computeIntent h.sender _ _ hleaves d h.handler)

theorem Parts.applicable_of_nothing (h : Parts env w tx account d f) (ha : askedOf d = {}) :
    Applicable env (withFees tx.sender account f d) w.state ↔
      f.debit ≤ account.balance ∧ CellsKnown env w.state.cells tx.sender tx.intent := by
  rw [h.applicable_of_payments ha (fun c hc => absurd hc List.not_mem_nil)
    (fun c hc => absurd hc List.not_mem_nil) rfl rfl rfl rfl]
  obtain ⟨-, -, e3, e4, -, -, -, -, -⟩ := lists_of_asked ha
  have hprice := price_le_escrow h.fees e4
  rw [e3] at hprice
  simp only [Receives, List.not_mem_nil, false_implies, implies_true, true_and]
  have hzero : ∀ a : AccountId, moved a [] = 0 := fun _ => rfl
  simp only [hzero] at hprice ⊢
  constructor
  · rintro ⟨⟨h1, -⟩, h2⟩
    exact ⟨by omega, h2⟩
  · rintro ⟨h1, h2⟩
    exact ⟨⟨by omega, by omega⟩, h2⟩

theorem Parts.applicable_of_idle (h : Parts env w tx account d f) (ha : askedOf d = {})
    (hleaves : LeavesBalance tx.intent) :
    Applicable env (withFees tx.sender account f d) w.state ↔
      CellsKnown env w.state.cells tx.sender tx.intent := by
  rw [h.applicable_of_nothing ha]
  exact and_iff_right (h.modest hleaves)

/-- Payments that carry their gas: all that is left to check are the recipients. -/
theorem Parts.applicable_of_pays (h : Parts env w tx account d f) {pays : List (AccountId × ℕ)}
    (hpays : paymentsOf w.state tx.intent = some pays) :
    Applicable env (withFees tx.sender account f d) w.state ↔ Receives w.state.accounts pays := by
  obtain ⟨ha, hlt, hle⟩ := asked_payments tx.timestamp hpays d h.handler
  have hknown : CellsKnown env w.state.cells tx.sender tx.intent := by
    cases hi : tx.intent <;> rw [hi] at hpays <;> trivial
  rw [h.applicable_of_payments ha (fun c hc => by rw [List.mem_singleton.mp hc])
    (fun c hc => absurd hc List.not_mem_nil) rfl rfl rfl rfl]
  obtain ⟨-, e2, e3, e4, -, -, -, -, -⟩ := lists_of_asked ha
  have hprice := price_le_escrow h.fees e4
  rw [e3] at hprice
  refine ⟨fun hall => hall.1.1, fun hrec => ⟨⟨hrec, ?_, fun c hc => absurd hc List.not_mem_nil, ?_⟩, hknown⟩⟩
  · simp only [askedPayments, moved_single]
    obtain ⟨fee, hemb⟩ : ∃ fee, embeddedFee env w tx.intent = some fee := by
      cases hi : tx.intent <;> rw [hi] at hpays <;> first | exact ⟨_, rfl⟩ | cases hpays
    rcases Nat.eq_zero_or_pos f.debit with h0 | hpos
    · omega
    · have hcov := h.fees.covered hpos
      simp only [hemb, GasCovered, e2, askedPayments, amountFor_eq, moved_single,
        Nat.mod_eq_of_lt hlt] at hcov
      omega
  · have hzero : moved tx.sender (askedPayments env w tx.sender pays).escrowDebits = 0 := rfl
    omega

/-- The sender pays one amount out of its balance, and the gas on top. -/
theorem Parts.applicable_of_debit (h : Parts env w tx account d f)
    (ha : askedOf d = { debits := [(tx.sender, n)] }) (hnone : paymentsOf w.state tx.intent = none)
    (hknown : CellsKnown env w.state.cells tx.sender tx.intent) :
    Applicable env (withFees tx.sender account f d) w.state ↔
      n + txByteFee env w tx ≤ balanceOf w.state.accounts tx.sender := by
  rw [h.applicable_of_payments ha (fun c hc => by rw [List.mem_singleton.mp hc])
    (fun c hc => absurd hc List.not_mem_nil) rfl rfl rfl rfl]
  obtain ⟨-, -, e3, e4, -, -, -, -, e9⟩ := lists_of_asked ha
  have hprice := price_le_escrow h.fees e4
  have hgas := h.gas e9 hnone
  rw [e3] at hprice
  rw [balanceOf_sender h.sender]
  have hzero : ∀ a : AccountId, moved a [] = 0 := fun _ => rfl
  simp only [hzero, moved_single] at hprice ⊢
  constructor
  · rintro ⟨⟨-, h2, -⟩, -⟩
    omega
  · intro hle
    exact ⟨⟨fun c hc => absurd hc List.not_mem_nil, by omega, fun c hc => absurd hc List.not_mem_nil,
      by omega⟩, hknown⟩

theorem receives_single (m : Accounts) (a : AccountId) (n : ℕ) :
    Receives m [(a, n)] ↔ balanceOf m a + n < u128 := by
  simp only [Receives, List.mem_singleton, forall_eq, moved_single]

theorem Parts.applicable_deposit (h : Parts env w tx account d f) (hi : tx.intent = .depositCompute n) :
    Applicable env (withFees tx.sender account f d) w.state ↔ Covers env w tx := by
  have ha := h.asked
  rw [hi] at ha
  rw [h.applicable_of_payments ha (fun c hc => by rw [List.mem_singleton.mp hc])
    (fun c hc => absurd hc List.not_mem_nil) rfl rfl rfl rfl]
  obtain ⟨-, -, e3, e4, -, -, -, -, e9⟩ := lists_of_asked ha
  have hprice := price_le_escrow h.fees e4
  have hgas := h.gas e9 (by rw [hi]; rfl)
  rw [e3] at hprice
  have hzero : ∀ a : AccountId, moved a [] = 0 := fun _ => rfl
  simp only [Covers, hi, Demand.asked, hzero, moved_single, List.mem_singleton, forall_eq, CellsKnown, and_true,
    Receives, List.not_mem_nil, false_implies, implies_true, true_and, balanceOf_sender h.sender] at hprice ⊢
  constructor
  · rintro ⟨h1, h2, -⟩
    exact ⟨by omega, h2⟩
  · rintro ⟨h1, h2⟩
    exact ⟨by omega, h2, by omega⟩

theorem Parts.applicable_withdraw (h : Parts env w tx account d f) (hi : tx.intent = .withdrawCompute n) :
    Applicable env (withFees tx.sender account f d) w.state ↔ Covers env w tx := by
  have ha := h.asked
  rw [hi] at ha
  rw [h.applicable_of_payments ha (fun c hc => absurd hc List.not_mem_nil)
    (fun c hc => by rw [List.mem_singleton.mp hc]) rfl rfl rfl rfl]
  obtain ⟨-, -, e3, e4, -, -, -, -, -⟩ := lists_of_asked ha
  have hmodest := h.modest (by rw [hi]; trivial)
  have hescrow : n ≤ account.computeEscrowTlkd := by
    have hd := h.handler
    rw [hi] at hd
    simp only [computeIntent, computeWithdrawComputeDiff, failIf_bind_ok] at hd
    exact Nat.le_of_not_lt hd.2.1
  have hzero : ∀ a : AccountId, moved a [] = 0 := fun _ => rfl
  simp only [Covers, hi, Demand.asked, hzero, moved_single, List.not_mem_nil, CellsKnown, and_true,
    false_implies, implies_true, true_and, receives_single]
  refine ⟨fun hall => hall.1, fun hlt => ⟨hlt, by omega, ?_⟩⟩
  rcases Nat.eq_zero_or_pos f.price with h0 | hpos
  · omega
  · have hesc := h.fees.escrow hpos
    have hn : n % u128 = n := Nat.mod_eq_of_lt (by omega)
    simp only [e3, e4, amountFor_eq, Demand.asked, moved_single, hzero, Nat.zero_mod, hn] at hesc
    omega

theorem Parts.applicable_unwrap (h : Parts env w tx account d f) (hi : tx.intent = .unwrapTLKD n) :
    Applicable env (withFees tx.sender account f d) w.state ↔ Covers env w tx := by
  have ha := h.asked
  rw [hi] at ha
  rw [h.applicable_of_payments ha (fun c hc => absurd hc List.not_mem_nil)
    (fun c hc => absurd hc List.not_mem_nil) rfl rfl rfl rfl]
  obtain ⟨-, -, e3, e4, -, -, -, -, -⟩ := lists_of_asked ha
  have hmodest := h.modest (by rw [hi]; trivial)
  have hprice := price_le_escrow h.fees e4
  rw [e3] at hprice
  have hzero : ∀ a : AccountId, moved a [] = 0 := fun _ => rfl
  simp only [Covers, hi, Demand.asked, hzero, moved_single, List.not_mem_nil, CellsKnown, and_true,
    false_implies, implies_true, true_and, receives_single] at hprice ⊢
  exact ⟨fun hall => hall.1, fun hlt => ⟨hlt, by omega, by omega⟩⟩

theorem Parts.applicable_pbWithdraw (h : Parts env w tx account d f) {agentId recipient : AccountId}
    {enc : Bytes} {comm old : Bytes32} {nonce : BitVec 128}
    (hi : tx.intent = .privateBalanceWithdraw cellId agentId n recipient enc comm nonce old) :
    Applicable env (withFees tx.sender account f d) w.state ↔ Covers env w tx := by
  have ha := h.asked
  rw [hi] at ha
  obtain ⟨-, -, e3, e4, -, -, -, -, -⟩ := lists_of_asked ha
  have hprice := price_le_escrow h.fees e4
  rw [e3] at hprice
  -- the handler has checked the recipient, and its record for the sender counts the payment
  obtain ⟨hlt, hgas⟩ : balanceOf w.state.accounts recipient + n < u128 ∧
      f.debit ≤ account.balance + moved tx.sender [(recipient, n)] := by
    have hd := h.handler
    rw [hi] at hd
    simp only [computeIntent, circuitWithdraw, bind_assoc] at hd
    obtain ⟨cell, -, hd⟩ := bind_eq_ok.mp hd
    obtain ⟨-, -, hd⟩ := bind_eq_ok.mp hd
    obtain ⟨-, -, hd⟩ := bind_eq_ok.mp hd
    obtain ⟨-, -, hd⟩ := bind_eq_ok.mp hd
    simp only [failIf_bind_ok, okOr_bind_ok] at hd
    obtain ⟨-, -, payee, hpayee, balance, hbalance, hd⟩ := hd
    obtain ⟨-, -, hd⟩ := bind_eq_ok.mp hd
    simp only [okOr_bind_ok] at hd
    obtain ⟨withdrawn, -, hd⟩ := hd
    obtain ⟨-, -, hd⟩ := bind_eq_ok.mp hd
    obtain ⟨cipher, -, hd⟩ := bind_eq_ok.mp hd
    simp only [pure_bind, pure_eq_ok] at hd
    obtain ⟨hlt, rfl⟩ := checkedAdd_eq_some.mp hbalance
    refine ⟨by rwa [balanceOf_sender hpayee], ?_⟩
    rcases Nat.eq_zero_or_pos f.debit with h0 | hpos
    · omega
    have hcov := h.fees.covered hpos
    have hslot : slot d.accountUpdates tx.sender = (slot (fromList [(recipient,
        { payee with balance := payee.balance + n })]) tx.sender).or none := by
      rw [← hd]
      exact Agreement.slot_replaceAccounts _ _ _
    have hrec : slot (fromList [(recipient, { payee with balance := payee.balance + n })]) tx.sender =
        if recipient = tx.sender then some { payee with balance := payee.balance + n } else none :=
      slot_insert _ _ _ _
    have hemb : embeddedFee env w tx.intent = none := by rw [hi]; rfl
    rw [hemb, GasCovered, show d.accountUpdates[tx.sender]? = slot d.accountUpdates tx.sender from rfl,
      hslot, hrec] at hcov
    by_cases hs : recipient = tx.sender
    · subst hs
      rw [h.sender] at hpayee
      cases hpayee
      rw [if_pos rfl] at hcov
      rw [moved_single]
      exact hcov
    · rw [if_neg hs] at hcov
      exact hcov.trans (Nat.le_add_right _ _)
  rw [h.applicable_of_payments ha (fun c hc => absurd hc List.not_mem_nil)
    (fun c hc => absurd hc List.not_mem_nil) rfl rfl rfl rfl]
  have hzero : ∀ a : AccountId, moved a [] = 0 := fun _ => rfl
  simp only [Covers, hi, Demand.asked, hzero, List.not_mem_nil, CellsKnown, and_true, false_implies, implies_true,
    true_and, receives_single, iff_true] at hprice ⊢
  exact ⟨hlt, by omega, by omega⟩

/-! ### Tokens -/

theorem Parts.applicable_of_tokens (h : Parts env w tx account d f) {a : Asked} (ha : askedOf d = a)
    (hdebits : ∀ c ∈ a.debits, c.1 = tx.sender) (hescrow : ∀ c ∈ a.escrowDebits, c.1 = tx.sender)
    (hstaking : a.staking = []) (hcredits : a.cellCredits = []) (hcells : a.cellDebits = []) :
    Applicable env (withFees tx.sender account f d) w.state ↔
      (Receives w.state.accounts a.transfers ∧
        moved tx.sender a.debits + f.debit ≤ account.balance + moved tx.sender a.transfers ∧
        (∀ c ∈ a.escrowCredits, escrowOf w.state.accounts c.1 + moved c.1 a.escrowCredits < u128) ∧
        moved tx.sender a.escrowDebits + f.price ≤
          account.computeEscrowTlkd + moved tx.sender a.escrowCredits) ∧
      CellsKnown env w.state.cells tx.sender tx.intent ∧
      TokenCreditsFit a.tokenCredits (runAll (cellEffect env) d.cellUpdates w.state.cells) := by
  obtain ⟨e1, e2, e3, e4, e5, e6, e7, e8, -⟩ := lists_of_asked ha
  have hrewards : d.stakingRewards = [] := congrArg StateDiff.stakingRewards h.handled.plain
  rw [h.applicable_iff, h.cells, accountsFit_withFees h.sender (by rwa [e2]) (by rwa [e4]), e1, e2, e3, e4,
    e5, hstaking, ← e6]
  constructor
  · rintro ⟨h1, -, -, h4, h5⟩
    exact ⟨h1, h4, h5.tokens⟩
  · rintro ⟨h1, h4, h5⟩
    refine ⟨h1, trivial, fun c hc => absurd hc List.not_mem_nil, h4, h5, ?_, fun c hc => ?_, fun c hc => ?_⟩
    · rw [hrewards]
      trivial
    · rw [e7, hcredits] at hc
      exact absurd hc List.not_mem_nil
    · rw [e8, hcells] at hc
      exact absurd hc List.not_mem_nil

theorem tokenCreditsFit_single (token a : AccountId) (n : ℕ) (cs : CellState) :
    TokenCreditsFit [(token, a, n)] cs ↔
      (token ∈ cs.cells → (cs.tokenBalances[(token, a)]?).getD 0 + n < u128) := by
  have htotal : total tokenKey tokenAmount (tokenKey (token, a, n)) [(token, a, n)] = n := by
    rw [total_cons, if_pos rfl]
    rfl
  simp only [TokenCreditsFit, List.mem_singleton, forall_eq, htotal]
  rfl

theorem Parts.applicable_wrap (h : Parts env w tx account d f) (hi : tx.intent = .wrapTLKD n) :
    Applicable env (withFees tx.sender account f d) w.state ↔ Covers env w tx := by
  have ha := h.asked
  rw [hi] at ha
  have hup : d.cellUpdates = [] := by
    have hd := h.handler
    rw [hi] at hd
    simp only [computeIntent, computeWrapTrthDiff, failIf_bind_ok, pure_eq_ok] at hd
    rw [← hd.2.2]
    rfl
  rw [h.applicable_of_tokens ha (fun c hc => by rw [List.mem_singleton.mp hc])
    (fun c hc => absurd hc List.not_mem_nil) rfl rfl rfl]
  obtain ⟨-, -, e3, e4, -, -, -, -, e9⟩ := lists_of_asked ha
  have hprice := price_le_escrow h.fees e4
  have hgas := h.gas e9 (by rw [hi]; rfl)
  rw [e3] at hprice
  have hzero : ∀ a : AccountId, moved a [] = 0 := fun _ => rfl
  simp only [Covers, hi, Demand.asked, hup, runAll_nil, tokenCreditsFit_single, hzero, moved_single,
    CellsKnown, Receives, List.not_mem_nil, false_implies, implies_true, true_and,
    balanceOf_sender h.sender] at hprice ⊢
  constructor
  · rintro ⟨⟨h1, -⟩, h3⟩
    exact ⟨by omega, h3⟩
  · rintro ⟨h1, h3⟩
    exact ⟨⟨by omega, by omega⟩, h3⟩

theorem Parts.applicable_deployToken (h : Parts env w tx account d f)
    {name symbol : String} {decimals supply bps : ℕ} {recipient : Option AccountId} {fixed : Bool}
    (hi : tx.intent = .deployToken cellId name symbol decimals supply bps recipient fixed) :
    Applicable env (withFees tx.sender account f d) w.state ↔ Covers env w tx := by
  have ha := h.asked
  rw [hi] at ha
  obtain ⟨cell, hup⟩ : ∃ cell, d.cellUpdates = [.deploy cellId cell] := by
    have hd := h.handler
    rw [hi] at hd
    simp only [computeIntent, computeDeployTokenDiff, failIf_bind_ok, pure_eq_ok] at hd
    rw [← hd.2.2]
    exact ⟨_, rfl⟩
  rw [h.applicable_of_tokens ha (fun c hc => absurd hc List.not_mem_nil)
    (fun c hc => absurd hc List.not_mem_nil) rfl rfl rfl]
  obtain ⟨-, -, e3, e4, -, -, -, -, -⟩ := lists_of_asked ha
  have hmodest := h.modest (by rw [hi]; trivial)
  have hprice := price_le_escrow h.fees e4
  rw [e3] at hprice
  have hzero : ∀ a : AccountId, moved a [] = 0 := fun _ => rfl
  have htokens : TokenCreditsFit (if 0 < supply then [(cellId, tx.sender, supply)] else [])
      (runAll (cellEffect env) d.cellUpdates w.state.cells) ↔
      (0 < supply → tokenBalanceOf w.state cellId tx.sender + supply < u128) := by
    rw [hup, runAll_cons, runAll_nil]
    split_ifs with hpos
    · rw [tokenCreditsFit_single]
      have hmem : cellId ∈ (cellEffect env (.deploy cellId cell) w.state.cells).cells :=
        Std.ExtTreeMap.mem_insert_self
      exact ⟨fun hfit _ => hfit hmem, fun hfit _ => hfit hpos⟩
    · exact ⟨fun _ hp => absurd hp hpos, fun _ c hc => absurd hc List.not_mem_nil⟩
  simp only [Covers, hi, Demand.asked, htokens, hzero, CellsKnown, Receives, List.not_mem_nil,
    false_implies, implies_true, true_and] at hprice ⊢
  constructor
  · rintro ⟨-, h3⟩
    exact h3
  · intro h3
    exact ⟨⟨by omega, by omega⟩, h3⟩

/-! ### Staking operations -/

theorem slashFits_of_outcome {st : StakingState} {pk : Bytes} {percentage : ℕ} {out : SlashOutcome}
    (h : computeSlashOutcome st pk percentage = .ok out) : SlashFits pk .oracleLie out st := by
  rw [computeSlashOutcome] at h
  cases hv : st.validators[pk]? with
  | none =>
    rw [hv] at h
    cases h
  | some v =>
    rw [hv] at h
    simp only at h
    have hmem : pk ∈ st.validators := by
      rw [Std.ExtTreeMap.mem_iff_isSome_getElem?, hv]
      rfl
    rw [SlashFits, validatorAt_of_some hv]
    split_ifs at h with hstake hraw
    · cases h
      have hpos : min 1 v.activeStake ≠ 0 := by omega
      exact ⟨by decide, hmem, hpos, Nat.min_le_right _ _⟩
    · cases h
      have hpos : min (v.activeStake * percentage % u64 / 100) v.activeStake ≠ 0 := by omega
      exact ⟨by decide, hmem, hpos, Nat.min_le_right _ _⟩

theorem Parts.applicable_reveal (h : Parts env w tx account d f) {requestId : Bytes32} {body : Bytes}
    {status : ℕ} (hi : tx.intent = .submitOracleReveal requestId body status) :
    Applicable env (withFees tx.sender account f d) w.state := by
  have ha := h.asked
  rw [hi] at ha
  obtain ⟨e1, e2, e3, e4, e5, e6, e7, e8, -⟩ := lists_of_asked ha
  have hmodest := h.modest (by rw [hi]; trivial)
  have hprice := price_le_escrow h.fees e4
  rw [e3] at hprice
  have hzero : ∀ a : AccountId, moved a [] = 0 := fun _ => rfl
  have hstaking : FitsAll OpFits opEffect d.stakingUpdates w.state.staking ∧
      payouts env d.stakingUpdates w.state.staking = [] := by
    rw [e5]
    simp only [Demand.asked, revealSlash]
    split_ifs
    · exact ⟨trivial, rfl⟩
    · cases hout : computeSlashOutcome w.state.staking account.pubkeyBytes
        (w.globals.getU64 env "staking.oracle_lie_slash_percentage") with
      | error e => exact ⟨trivial, rfl⟩
      | ok out => exact ⟨⟨slashFits_of_outcome hout, trivial⟩, rfl⟩
  have hdebits : ∀ c ∈ d.nativeDebits, c.1 = tx.sender := by
    rw [e2]
    exact fun c hc => absurd hc List.not_mem_nil
  have hescrow : ∀ c ∈ d.computeEscrowDebits, c.1 = tx.sender := by
    rw [e4]
    exact fun c hc => absurd hc List.not_mem_nil
  rw [h.applicable_iff, h.cells, hi, hstaking.2, accountsFit_withFees h.sender hdebits hescrow, e1, e2, e3, e4]
  refine ⟨⟨fun c hc => absurd hc List.not_mem_nil, ?_, fun c hc => absurd hc List.not_mem_nil, ?_⟩,
    hstaking.1, fun c hc => absurd hc List.not_mem_nil, trivial,
    balancesFit_of_none h.handled.plain _ _ e6 e7 e8⟩
  · simp only [Demand.asked, hzero]
    omega
  · simp only [Demand.asked, hzero] at hprice ⊢
    omega

/-! ### System cells -/

/-- A call of a system cell asks for a staking operation or for payments, not for both. -/
theorem ops_or_payments (env : Env) (cellId : AccountId) (cd : Bytes) (storage : Storage) :
    requestedOps env cellId cd = [] ∨ requestedPayments env cellId cd storage = [] := by
  rw [requestedOps, requestedPayments]
  split_ifs with hst
  · by_cases hdel : readSel cd ∈ [sel "delegate_add", sel "delegate_remove"]
    · exact .inl (if_pos hdel)
    · by_cases hpos : readSel cd ∈ [sel "lock", sel "extend", sel "unlock"]
      · left
        simp only [stakingRequest, if_neg hdel, if_pos hpos]
      · right
        simp only [List.mem_cons, List.not_mem_nil, or_false, not_or] at hpos
        simp [unlockPayment, hpos]
  all_goals exact .inl rfl

theorem cellUpdates_systemCell (h : Parts env w tx account d f)
    {value : ℕ} (hi : tx.intent = .callCell cellId cd value gasLimit)
    (hsys : isSystemCell env cellId = true) :
    (∃ cell, w.state.cells.cells[cellId]? = some cell) ∧
      (d.cellUpdates = [] ∨ ∃ changes, d.cellUpdates = [.storageChange cellId changes]) := by
  have hd := h.handler
  rw [hi] at hd
  simp only [computeIntent, computeCallCellDiff, failIf_bind_ok, okOr_bind_ok] at hd
  obtain ⟨-, -, cell, hcell, -, -, hd⟩ := hd
  rw [if_pos hsys] at hd
  simp only [callSystemCell, failIf_bind_ok, pure_eq_ok] at hd
  refine ⟨⟨cell, hcell⟩, ?_⟩
  rw [← hd.2, cellUpdates_payValue]
  simp only [addTransfers]
  split_ifs
  · exact .inl rfl
  · exact .inr ⟨_, rfl⟩

theorem cellSlot_systemCell (env : Env) {us : List CellUpdate} {cell : CellAccount}
    (hcell : cs.cells[cellId]? = some cell)
    (hus : us = [] ∨ ∃ changes, us = [.storageChange cellId changes]) :
    (cellSlot (runAll (cellEffect env) us cs) cellId).isSome ∧
      cellHeld (cellSlot (runAll (cellEffect env) us cs) cellId) = cellHeld (cellSlot cs cellId) := by
  have hslot : cellSlot cs cellId = some cell := hcell
  rcases hus with rfl | ⟨changes, rfl⟩
  · rw [runAll_nil, hslot]
    exact ⟨rfl, rfl⟩
  · have hmod : cellSlot (runAll (cellEffect env) [.storageChange cellId changes] cs) cellId =
        some { cell with storage := changeStorage cell.storage changes } := by
      rw [runAll_cons, runAll_nil, cellEffect, cellSlot, modifyCell, slot_modify, if_pos rfl]
      exact congrArg (Option.map _) hslot
    rw [hmod, hslot]
    exact ⟨rfl, rfl⟩

/-- Who is paid exists, when the diff pays nobody else and records only the sender. -/
theorem settled_iff {m : Accounts} (hacc : m[tx.sender]? = some account)
    (htransfers : d.nativeTransfers = []) (hescrow : d.computeEscrowCredits = [])
    (hrecord : ∀ b, (slot d.accountUpdates b).isSome → b = tx.sender) :
    Settled (withFees tx.sender account f d) m a ↔ (slot m a).isSome := by
  have hnone : ∀ b : AccountId, ¬ Paid b [] := by
    rintro b ⟨c, hc, -⟩
    exact absurd hc List.not_mem_nil
  have h1 : (withFees tx.sender account f d).nativeTransfers = [] := htransfers
  have h2 : (withFees tx.sender account f d).computeEscrowCredits = [] := hescrow
  rw [Settled, h1, h2, withFees_accountUpdates, slot_insert]
  simp only [hnone, or_false]
  refine ⟨fun h => h.elim id fun hr => ?_, .inl⟩
  have ha : a = tx.sender := by
    by_contra hne
    rw [if_neg (Ne.symm hne)] at hr
    exact hne (hrecord a hr)
  rw [ha, slot, hacc]
  rfl

open Classical in
/-- The balance of an account that exists, after the gas. -/
theorem settledBalance_eq {m : Accounts} (hsome : (slot m a).isSome)
    (htransfers : d.nativeTransfers = []) (hdebits : d.nativeDebits = []) :
    settledBalance (withFees tx.sender account f d) m a =
      balanceOf m a - if a = tx.sender then f.debit else 0 := by
  have h1 : (withFees tx.sender account f d).nativeTransfers = [] := htransfers
  have h2 : (withFees tx.sender account f d).nativeDebits = entry tx.sender f.debit := by
    rw [← List.nil_append (entry _ _), ← hdebits]
    rfl
  have hgas : moved a (entry tx.sender f.debit) = if a = tx.sender then f.debit else 0 := by
    split_ifs with ha
    · rw [ha, moved_entry]
    · exact total_eq_zero fun c hc hca => ha (hca.symm.trans (fst_of_mem_entry hc))
  rw [settledBalance, if_pos (.inl (.inl hsome)), h1, h2, hgas]
  rfl

theorem record_systemCell (h : Parts env w tx account d f)
    {value : ℕ} (hi : tx.intent = .callCell cellId cd value gasLimit)
    (hsys : isSystemCell env cellId = true) (b : AccountId) (hb : (slot d.accountUpdates b).isSome) :
    b = tx.sender := by
  have hd := h.handler
  rw [hi] at hd
  simp only [computeIntent, computeCallCellDiff, failIf_bind_ok, okOr_bind_ok] at hd
  obtain ⟨-, -, cell, -, -, -, hd⟩ := hd
  rw [if_pos hsys] at hd
  simp only [callSystemCell, failIf_bind_ok, pure_eq_ok] at hd
  have hstart : ∀ d' : StateDiff, d'.accountUpdates = ∅ → ∀ v,
      (slot (payValue d' tx.sender v account).accountUpdates b).isSome → b = tx.sender := by
    intro d' hd' v hv
    by_contra hne
    rw [payValue] at hv
    split_ifs at hv
    · rw [putRecord, slot_insert, if_neg (Ne.symm hne), hd'] at hv
      cases hv
    · rw [hd'] at hv
      cases hv
  rw [← hd.2] at hb
  exact hstart _ rfl value hb

theorem moved_map (a : AccountId) (pays : List (AccountId × ℕ)) :
    moved a (pays.map fun p => (a, p.2)) = (pays.map Prod.snd).sum := by
  induction pays with
  | nil => rfl
  | cons p pays ih => rw [List.map_cons, moved, total_cons, if_pos rfl, List.map_cons, List.sum_cons, ← ih]

theorem balancesFit_systemCell (hplain : frame d = start env tx) (st : StakingState)
    {value : ℕ} {pays : List (AccountId × ℕ)} (htokens : d.tokenCredits = [])
    (hcredits : d.cellCredits = entry cellId value)
    (hdebits : d.cellDebits = pays.map fun p => (cellId, p.2)) (hsome : (cellSlot cs cellId).isSome) :
    BalancesFit env d cs st ↔ (0 < value → cellHeld (cellSlot cs cellId) + value < u128) ∧
      (pays.map Prod.snd).sum ≤ cellHeld (cellSlot cs cellId) + value := by
  have hrewards : d.stakingRewards = [] := congrArg StateDiff.stakingRewards hplain
  have hcredit : CellCreditsFit d.cellCredits cs ↔
      (0 < value → cellHeld (cellSlot cs cellId) + value < u128) := by
    rw [hcredits, CellCreditsFit]
    constructor
    · intro hall hpos
      have hmem : (cellId, value) ∈ entry cellId value := by
        rw [entry, if_pos hpos]
        exact List.mem_singleton_self _
      have hfit := hall _ hmem hsome
      rwa [moved_entry] at hfit
    · intro hfit c hc _
      have hpos : 0 < value := by
        by_contra hno
        rw [entry, if_neg hno] at hc
        exact absurd hc List.not_mem_nil
      rw [fst_of_mem_entry hc, moved_entry]
      exact hfit hpos
  have hall : ∀ c ∈ d.cellDebits, c.1 = cellId := by
    rw [hdebits]
    intro c hc
    obtain ⟨p, -, rfl⟩ := List.mem_map.mp hc
    rfl
  have hdebit := debits_fit_iff (fun a => (cellSlot cs a).isSome)
    (fun a => cellHeld (cellSlot cs a) + moved a d.cellCredits) hall hsome
  rw [hdebits, moved_map, hcredits, moved_entry] at hdebit
  constructor
  · rintro ⟨-, -, h3, h4⟩
    rw [hdebits, hcredits] at h4
    exact ⟨hcredit.mp h3, hdebit.mp h4⟩
  · rintro ⟨h3, h4⟩
    refine ⟨?_, ?_, hcredit.mpr h3, ?_⟩
    · intro c hc
      rw [htokens] at hc
      exact absurd hc List.not_mem_nil
    · rw [hrewards]
      trivial
    · rw [hdebits, hcredits]
      exact hdebit.mpr h4

theorem Parts.applicable_systemCell (h : Parts env w tx account d f)
    {value : ℕ} (hi : tx.intent = .callCell cellId cd value gasLimit)
    (hsys : isSystemCell env cellId = true) :
    Applicable env (withFees tx.sender account f d) w.state ↔
      SystemCallFits env w.state tx.sender (txByteFee env w tx) cellId
        (askedSystemCall env w cellId cd value) value := by
  have ha : askedOf d = askedSystemCall env w cellId cd value := by
    rw [h.asked, hi, Demand.asked, if_pos hsys]
  obtain ⟨e1, e2, e3, e4, e5, e6, e7, e8, e9⟩ := lists_of_asked ha
  have hmodest := h.modest (by rw [hi]; trivial)
  have hgas := h.gas e9 (by rw [hi]; rfl)
  have hprice := price_le_escrow h.fees e4
  rw [e3] at hprice
  obtain ⟨⟨cell, hcell⟩, hus⟩ := cellUpdates_systemCell h hi hsys
  have hheld := cellSlot_systemCell env hcell hus
  have hdebits : ∀ c ∈ d.nativeDebits, c.1 = tx.sender := by
    rw [e2]
    exact fun c hc => absurd hc List.not_mem_nil
  have hescrow : ∀ c ∈ d.computeEscrowDebits, c.1 = tx.sender := by
    rw [e4]
    exact fun c hc => absurd hc List.not_mem_nil
  have hknown : CellsFit env w d := by
    rw [h.cells, hi]
    trivial
  have hbalances := balancesFit_systemCell h.handled.plain
    (runAll opEffect d.stakingUpdates w.state.staking) e6 e7 e8 hheld.1
  rw [hheld.2] at hbalances
  have hpayouts : (∀ c ∈ payouts env d.stakingUpdates w.state.staking,
      Settled (withFees tx.sender account f d) w.state.accounts c.1 ∧
      settledBalance (withFees tx.sender account f d) w.state.accounts c.1 +
        moved c.1 (payouts env d.stakingUpdates w.state.staking) < u128) ↔
      ∀ c ∈ payouts env (askedSystemCall env w cellId cd value).staking w.state.staking,
        (slot w.state.accounts c.1).isSome ∧
        balanceOf w.state.accounts c.1 - (if c.1 = tx.sender then txByteFee env w tx else 0) +
          moved c.1 (payouts env (askedSystemCall env w cellId cd value).staking w.state.staking) <
            u128 := by
    rw [e5]
    rcases ops_or_payments env cellId cd
      (((w.state.cells.cells[cellId]?).map CellAccount.storage).getD ∅) with hops | hpays
    · have hnone : (askedSystemCall env w cellId cd value).staking = [] := hops
      rw [hnone]
      exact iff_of_true (fun c hc => absurd hc List.not_mem_nil) fun c hc => absurd hc List.not_mem_nil
    · have hnone : d.nativeTransfers = [] := e1.trans hpays
      refine forall₂_congr fun c _ => ?_
      rw [settled_iff h.sender hnone e3 (record_systemCell h hi hsys)]
      refine and_congr_right fun hsome => ?_
      rw [settledBalance_eq hsome hnone e2, hgas]
  rw [h.applicable_iff, accountsFit_withFees h.sender hdebits hescrow, hpayouts, hbalances, e1, e2, e3, e4, e5]
  have hzero : ∀ a : AccountId, moved a [] = 0 := fun _ => rfl
  constructor
  · rintro ⟨⟨h1, -, -, -⟩, h2, h3, -, h5, h6⟩
    exact ⟨h1, h2, h3, h5, h6⟩
  · rintro ⟨h1, h2, h3, h5, h6⟩
    refine ⟨⟨h1, ?_, fun c hc => absurd hc List.not_mem_nil, ?_⟩, h2, h3, hknown, h5, h6⟩
    · simp only [askedSystemCall, hzero]
      omega
    · simp only [askedSystemCall, hzero] at hprice ⊢
      omega

/-- **When the diff of a transaction can be applied.** -/
theorem Parts.applicable_iff_covers (h : Parts env w tx account d f) :
    Applicable env (withFees tx.sender account f d) w.state ↔ Covers env w tx := by
  have ha := h.asked
  cases hi : tx.intent with
  | transfer | transferToName | batchTransfer | batchTransferToName =>
    rw [h.applicable_of_pays (by rw [hi]; rfl), Covers, hi]
  | depositCompute amount => exact h.applicable_deposit hi
  | withdrawCompute amount => exact h.applicable_withdraw hi
  | wrapTLKD amount => exact h.applicable_wrap hi
  | unwrapTLKD amount => exact h.applicable_unwrap hi
  | deployToken => exact h.applicable_deployToken hi
  | callCell cellId calldata value gasLimit =>
    rw [Covers, hi]
    by_cases hsys : isSystemCell env cellId = true
    · rw [h.applicable_systemCell hi hsys]
      exact ⟨fun hfit _ => hfit, fun hfit => hfit hsys⟩
    · rw [hi, Demand.asked, if_neg hsys] at ha
      rw [h.applicable_of_idle ha (by rw [hi]; trivial), hi]
      exact iff_of_true trivial fun hs => absurd hs hsys
  | proposeUrl pattern bond period =>
    rw [hi] at ha
    rw [h.applicable_of_debit ha (by rw [hi]; rfl) (by rw [hi]; trivial), Covers, hi]
  | privateBalanceInit =>
    rw [hi] at ha
    rw [h.applicable_of_debit ha (by rw [hi]; rfl) (by rw [hi]; trivial), Covers, hi]
  | privateBalanceDeposit =>
    rw [hi] at ha
    rw [h.applicable_of_debit ha (by rw [hi]; rfl) (by rw [hi]; trivial), Covers, hi]
  | privateBalanceWithdraw => exact h.applicable_pbWithdraw hi
  | closeCell cellId =>
    rw [hi] at ha
    rw [h.applicable_of_nothing ha, Covers, hi, balanceOf_sender h.sender,
      h.gas (lists_of_asked ha).2.2.2.2.2.2.2.2 (by rw [hi]; rfl)]
    exact and_iff_left trivial
  | claim recipient pubkey amount =>
    rw [hi] at ha
    have hfee : txByteFee env w tx = 0 := by rw [txByteFee, hi]
    rw [h.applicable_of_nothing ha, Covers, hi,
      h.gas (lists_of_asked ha).2.2.2.2.2.2.2.2 (by rw [hi]; rfl), hfee]
    exact iff_of_true ⟨Nat.zero_le _, trivial⟩ trivial
  | submitOracleReveal requestId body status =>
    rw [Covers, hi]
    exact iff_of_true (h.applicable_reveal hi) trivial
  | _ =>
    rw [hi] at ha
    rw [h.applicable_of_idle ha (by rw [hi]; trivial), Covers, hi]
    rfl

end Parts

/-- **When a computed diff is applied without an error.** -/
theorem apply_succeeds_iff {env : Env} {w : World} {tx : Transaction} {d : StateDiff}
    (h : computeTransactionDiffSkipSig env w tx = .ok d) :
    (outcome (applyDiff env d) w).1 = .ok () ↔ Covers env w tx := by
  obtain ⟨account, d₁, f, hcheck, h1, hf, rfl⟩ := compute_eq_ok h
  obtain ⟨-, hacc, -⟩ := checkTransaction_eq_ok hcheck
  rw [← (Parts.mk hacc h1 hf).applicable_iff_covers]
  constructor
  · intro hok
    by_contra hno
    obtain ⟨e, w', he⟩ := (spec_applyDiff env _).err w hno
    rw [he] at hok
    cases hok
  · intro happ
    rw [(spec_applyDiff env _).ok w happ]

/-- At the sample transfer. -/
theorem apply_sample_succeeds :
    (outcome (applyDiff sampleEnv sampleDiff) sampleWorld).1 = .ok () := by
  refine (apply_succeeds_iff compute_sampleTransfer).mpr ?_
  have hlt : balanceOf sampleState.accounts 2 + 5 < u128 := by decide +kernel
  exact (receives_single _ _ _).mpr hlt

/-- A deposit of the whole balance is computed, since the amount alone is within it, but cannot be applied,
since the gas is not. -/
theorem deposit_not_applied :
    ¬ ∀ env w tx d, computeTransactionDiffSkipSig env w tx = .ok d →
      (outcome (applyDiff env d) w).1 = .ok () := by
  intro h
  cases hd : computeTransactionDiffSkipSig sampleEnv sampleWorld sampleDeposit with
  | error e =>
    have hok : (computeTransactionDiffSkipSig sampleEnv sampleWorld sampleDeposit).isOk = true := by
      decide +kernel
    rw [hd] at hok
    cases hok
  | ok d =>
    have hcov := (apply_succeeds_iff hd).mp (h _ _ _ _ hd)
    have hle : 1000 + txByteFee sampleEnv sampleWorld sampleDeposit ≤ balanceOf sampleState.accounts 1 :=
      hcov.1
    exact absurd hle (by decide +kernel)

end TruthLinked.Ledger.Coverage
