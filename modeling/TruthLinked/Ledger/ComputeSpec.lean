import TruthLinked.Ledger.ComputeCells
import TruthLinked.Ledger.CallSpecs
import TruthLinked.Ledger.Agreement

/-! # What a computed diff contains

Facts about every diff that `compute_transaction_diff_skip_sig` returns: no handler writes the fields of
distributions, rewards and system diffs, parameter updates come alone, and a diff that may slash a bond has
no account record (`Handled`); the fees are one gas debit and one escrow debit on top of what the handler
asks for. -/

namespace TruthLinked.Ledger.ComputeSpec

open Core.Types Core.Bytes Runtime.Cells Runtime.Types Governance.Types Staking.State Oracle.Tally
open Ledger.Model Ledger.Execution Ledger.SystemCells Ledger.Compute Ledger.ComputeCells
open Ledger.AccountSpecs Ledger.Agreement Ledger.CallSpecs Lib.Except

/-- The diff a handler starts from. -/
def start (env : Env) (tx : Transaction) : StateDiff :=
  { nonceUpdates := [(tx.sender, tx.nonce)], txHash := txHashOf env tx }

/-- The fields of a diff that neither a handler nor the fees write. -/
def frame (d : StateDiff) : StateDiff :=
  { isSystem := d.isSystem, txHash := d.txHash, txHashes := d.txHashes, nonceUpdates := d.nonceUpdates,
    stakingRewards := d.stakingRewards, storageDeltas := d.storageDeltas, nameFee := d.nameFee,
    treasuryFee := d.treasuryFee, pendingTokenAuthorityProposals := d.pendingTokenAuthorityProposals,
    tokenAuthorityVotes := d.tokenAuthorityVotes, gasFeeSpent := d.gasFeeSpent,
    nameFeeSpent := d.nameFeeSpent, computeFeeSpent := d.computeFeeSpent,
    treasuryFeeSpent := d.treasuryFeeSpent }

/-- The diff has the frame of the one the handler started from. -/
def Plain (env : Env) (tx : Transaction) (d : StateDiff) : Prop := frame d = start env tx

section Plain
variable {env : Env} {tx : Transaction} {d : StateDiff}

theorem Plain.isSystem (h : Plain env tx d) : d.isSystem = false := congrArg StateDiff.isSystem h

theorem Plain.txHash (h : Plain env tx d) : d.txHash = txHashOf env tx := congrArg StateDiff.txHash h

theorem Plain.txHashes (h : Plain env tx d) : d.txHashes = ∅ := congrArg StateDiff.txHashes h

theorem Plain.nonceUpdates (h : Plain env tx d) : d.nonceUpdates = [(tx.sender, tx.nonce)] :=
  congrArg StateDiff.nonceUpdates h

theorem Plain.tokenAuthorityVotes (h : Plain env tx d) : d.tokenAuthorityVotes = [] :=
  congrArg StateDiff.tokenAuthorityVotes h

end Plain

/-- The proposal that an update slashes exists. -/
def SlashKnown (s : State) : OracleUpdate → Prop
  | .slashUrlProposer pattern => pattern ∈ s.urlProposals
  | _ => True

theorem slashKnown_of_quiet {s : State} {u : OracleUpdate} (h : ¬ MovesMoney u) : SlashKnown s u := by
  cases u with
  | slashUrlProposer pattern => exact (h trivial).elim
  | _ => trivial

/-- What holds of every diff a handler returns. -/
structure Handled (env : Env) (w : World) (tx : Transaction) (d : StateDiff) : Prop where
  plain : Plain env tx d
  computeFeeTlkd : d.computeFeeTlkd = 0
  params : d.paramUpdates = [] ∨
    (d.paramUpdates.length = 1 ∧ d.pendingNameProposals = [] ∧ d.nameRenewals = [] ∧
      d.oracleUpdates = [])
  money : (∀ u ∈ d.oracleUpdates, ¬ MovesMoney u) ∨
    (d.accountUpdates = ∅ ∧ d.nativeTransfers = [] ∧ d.computeEscrowCredits = [])
  slashes : ∀ u ∈ d.oracleUpdates, SlashKnown w.state u

section Handlers
variable {env : Env} {w : World} {tx : Transaction} {account : AccountRecord}

theorem handled_quiet {d : StateDiff} (hp : Plain env tx d) (hf : d.computeFeeTlkd = 0)
    (hparams : d.paramUpdates = []) (ho : d.oracleUpdates = []) : Handled env w tx d := by
  refine ⟨hp, hf, .inl hparams, .inl fun u hu => ?_, fun u hu => ?_⟩
  all_goals
    rw [ho] at hu
    exact absurd hu List.not_mem_nil

theorem handled_oracle {d : StateDiff} (hp : Plain env tx d) (hf : d.computeFeeTlkd = 0)
    (hparams : d.paramUpdates = []) (ho : ∀ u ∈ d.oracleUpdates, ¬ MovesMoney u) : Handled env w tx d :=
  ⟨hp, hf, .inl hparams, .inl ho, fun u hu => slashKnown_of_quiet (ho u hu)⟩

theorem handled_transfer (recipient : AccountId) (pubkey : Bytes) (amount : ℕ) :
    Ensures (computeTransferDiff env w (start env tx) tx.sender recipient pubkey amount account)
      (Handled env w tx) := by
  simp only [computeTransferDiff, ensures_bind, ensures_failIf, ensures_okOr, ensures_pure]
  repeat intro
  exact handled_quiet rfl rfl rfl rfl

theorem handled_batchTransfer (transfers : List BatchTransferEntry) :
    Ensures (computeBatchTransferDiff env w (start env tx) tx.sender transfers account)
      (Handled env w tx) := by
  simp only [computeBatchTransferDiff, ensures_bind, ensures_failIf, ensures_okOr, ensures_pure]
  repeat intro
  exact handled_quiet rfl rfl rfl rfl

theorem handled_voteUrl (urlPattern : String) (approve : Bool) :
    Ensures (computeVoteUrlDiff w (start env tx) urlPattern approve account) (Handled env w tx) := by
  simp only [computeVoteUrlDiff, ensures_bind, ensures_failIf, ensures_okOr, ensures_pure]
  intro _ _ _ _ _
  refine ⟨rfl, rfl, .inl rfl, .inr ⟨rfl, rfl, rfl⟩, fun u hu => ?_⟩
  rw [List.mem_singleton.mp hu]
  trivial

theorem handled_reportMaliciousUrl (urlPattern evidence : String) :
    Ensures (computeReportMaliciousUrlDiff w (start env tx) urlPattern evidence) (Handled env w tx) := by
  simp only [computeReportMaliciousUrlDiff, ensures_bind, ensures_failIf, ensures_pure]
  intro _ _ hknown
  refine ⟨rfl, rfl, .inl rfl, .inr ⟨rfl, rfl, rfl⟩, fun u hu => ?_⟩
  rw [List.mem_singleton.mp hu]
  exact not_not.mp hknown

theorem handled_proposeUrl (urlPattern : String) (bond period createdAt : ℕ) :
    Ensures (computeProposeUrlDiff w (start env tx) tx.sender urlPattern bond period createdAt account)
      (Handled env w tx) := by
  simp only [computeProposeUrlDiff, ensures_bind, ensures_failIf, ensures_pure]
  repeat intro
  refine handled_oracle rfl rfl rfl fun u hu => ?_
  rw [List.mem_singleton.mp hu]
  exact id

theorem handled_setCellVisibility (cellId : AccountId) (visibility : UInt8) :
    Ensures (computeSetCellVisibilityDiff env w (start env tx) tx.sender cellId visibility)
      (Handled env w tx) := by
  simp only [computeSetCellVisibilityDiff, ensures_bind, ensures_failIf, ensures_okOr, ensures_pure]
  repeat intro
  refine handled_oracle rfl rfl rfl fun u hu => ?_
  rw [List.mem_singleton.mp hu]
  exact id

theorem handled_oracleCommit (requestId commitHash : Bytes32) :
    Ensures (computeOracleCommitDiff env w (start env tx) requestId commitHash account)
      (Handled env w tx) := by
  simp only [computeOracleCommitDiff, ensures_bind, ensures_failIf, ensures_pure]
  repeat intro
  refine handled_oracle rfl rfl rfl fun u hu => ?_
  rw [List.mem_singleton.mp hu]
  exact id

theorem finalizedResult_moves_nothing (req : OracleRequest) (tally : OracleTally) (requestId : Bytes32) :
    ∀ u ∈ finalizedResult env w req tally requestId, ¬ MovesMoney u := by
  intro u hu
  rw [finalizedResult] at hu
  split at hu
  · exact absurd hu List.not_mem_nil
  · rw [List.mem_singleton.mp hu]
    exact id

theorem handled_oracleReveal (requestId : Bytes32) (body : Bytes) (status : ℕ) :
    Ensures (computeOracleRevealDiff env w (start env tx) requestId body status account)
      (Handled env w tx) := by
  simp only [computeOracleRevealDiff, ensures_bind, ensures_failIf, ensures_okOr, ensures_ite,
    ensures_pure]
  intro _ req _ tally _ _ commit _ _ _
  refine ⟨fun _ => ensures_true.mono fun _ _ => handled_quiet rfl rfl rfl rfl, fun _ => ?_⟩
  refine handled_oracle rfl rfl rfl fun u hu => ?_
  rcases List.mem_append.mp hu with hu | hu
  · rw [List.mem_singleton.mp hu]
    exact id
  · exact finalizedResult_moves_nothing _ _ _ u hu

/-! ### Calls -/

/-- A diff of the virtual machine: it only queues oracle requests. -/
structure VmHandled (env : Env) (tx : Transaction) (d : StateDiff) : Prop where
  plain : Plain env tx d
  computeFeeTlkd : d.computeFeeTlkd = 0
  paramUpdates : d.paramUpdates = []
  oracleUpdates : ∀ u ∈ d.oracleUpdates, IsQueue u

theorem not_movesMoney_of_isQueue {u : OracleUpdate} (h : IsQueue u) : ¬ MovesMoney u := by
  cases u with
  | queueRequest req => exact id
  | _ => exact h.elim

theorem VmHandled.handled {d : StateDiff} (h : VmHandled env tx d) : Handled env w tx d :=
  handled_oracle h.plain h.computeFeeTlkd h.paramUpdates fun u hu =>
    not_movesMoney_of_isQueue (h.oracleUpdates u hu)

theorem vmHandled_start (env : Env) (tx : Transaction) : VmHandled env tx (start env tx) :=
  ⟨rfl, rfl, rfl, fun _ hu => absurd hu List.not_mem_nil⟩

theorem VmHandled.addResult {d : StateDiff} {r : ExecutionResult} (h : VmHandled env tx d)
    (hr : Silent r) : VmHandled env tx (addResult r d) := by
  have hfee : d.nameFee = 0 := congrArg StateDiff.nameFee h.plain
  refine ⟨?_, h.computeFeeTlkd, ?_, fun u hu => ?_⟩
  · refine Eq.trans ?_ h.plain
    simp only [frame, ComputeCells.addResult, addTransfers, hr.pendingTokenAuthorityProposals,
      hr.tokenAuthorityVotes, List.append_nil, hr.nameFee, hfee]
    rfl
  · simp only [ComputeCells.addResult, addTransfers, h.paramUpdates, hr.paramUpdates, List.append_nil]
  · rcases List.mem_append.mp hu with hu | hu
    · exact h.oracleUpdates u hu
    · exact hr.oracleUpdates u hu

theorem VmHandled.queue {d : StateDiff} (h : VmHandled env tx d) (requests : List OracleRequest) :
    VmHandled env tx { d with oracleUpdates := d.oracleUpdates ++ requests.map .queueRequest } := by
  refine ⟨h.plain, h.computeFeeTlkd, h.paramUpdates, fun u hu => ?_⟩
  rcases List.mem_append.mp hu with hu | hu
  · exact h.oracleUpdates u hu
  · obtain ⟨req, -, rfl⟩ := List.mem_map.mp hu
    trivial

theorem VmHandled.addCells {d : StateDiff} (h : VmHandled env tx d) (before after : CellState) :
    VmHandled env tx (addCells before after d) :=
  ⟨h.plain, h.computeFeeTlkd, h.paramUpdates, h.oracleUpdates⟩

theorem VmHandled.payValue {d : StateDiff} (h : VmHandled env tx d) (value : ℕ) :
    VmHandled env tx (payValue d tx.sender value account) := by
  rw [ComputeCells.payValue]
  split_ifs
  · exact ⟨h.plain, h.computeFeeTlkd, h.paramUpdates, h.oracleUpdates⟩
  · exact h

theorem VmHandled.chain {d : StateDiff} (h : VmHandled env tx d) {results : List ExecutionResult}
    (hr : ∀ r ∈ results, Silent r) : VmHandled env tx (results.foldl addChainResult d) := by
  induction results generalizing d with
  | nil => exact h
  | cons r results ih =>
    exact ih ((h.queue _).addResult (hr r List.mem_cons_self)) fun r' hr' =>
      hr r' (List.mem_cons_of_mem r hr')

theorem handled_callVmCell (cellId : AccountId) (cell : CellAccount) (calldata : Bytes)
    (value gasLimit timestamp height : ℕ) :
    Ensures (callVmCell env w (start env tx) tx.sender cellId cell calldata value gasLimit timestamp
      height account) (VmHandled env tx) := by
  simp only [callVmCell, ensures_bind, ensures_failIf, ensures_pure]
  intro _ root _
  have h := ((vmHandled_start env tx).addResult
    (silent_executeAxiom env w w.state.cells cell tx.sender height timestamp calldata value gasLimit))
  have h' := (h.addCells w.state.cells
    { w.state.cells with cells := w.state.cells.cells.insert cellId root }).queue
    (executeAxiom env w w.state.cells cell tx.sender height timestamp calldata value
      gasLimit).queuedOracleRequests
  refine VmHandled.payValue ?_ value
  exact ⟨h'.plain, h'.computeFeeTlkd, h'.paramUpdates, h'.oracleUpdates⟩

theorem handled_callChain (calls : List CellCall) (gasLimit : ℕ) (allow : Bool) :
    Ensures (computeCallChainDiff env w (start env tx) tx.sender calls gasLimit account allow)
      (VmHandled env tx) := by
  simp only [computeCallChainDiff, ensures_bind, ensures_failIf]
  intro _ _ _ _ _
  refine (silent_executeCallChain env w w.state.cells calls tx.sender 0 gasLimit).mono fun out hout => ?_
  rw [ensures_pure]
  have h := ((vmHandled_start env tx).chain hout).addCells w.state.cells out.1
  refine VmHandled.payValue ?_ _
  exact ⟨h.plain, h.computeFeeTlkd, h.paramUpdates, h.oracleUpdates⟩

theorem dispatch_ok {cellId : AccountId} {cd : Bytes} {caller : AccountId} {storage : Storage}
    {height value gasLimit : ℕ} {s : State}
    (h : ¬ (!(dispatch env cellId cd caller storage height value gasLimit s).success) = true) :
    handler env cellId cd caller storage height value s =
      .ok (dispatch env cellId cd caller storage height value gasLimit s) := by
  rw [dispatch] at h ⊢
  cases hr : handler env cellId cd caller storage height value s with
  | ok r => rfl
  | error msg =>
    rw [hr] at h
    exact absurd rfl h

theorem handled_callSystemCell (cellId : AccountId) (cell : CellAccount) (calldata : Bytes)
    (value gasLimit height : ℕ) :
    Ensures (callSystemCell env w (start env tx) tx.sender cellId cell calldata value gasLimit height
      account) (Handled env w tx) := by
  simp only [callSystemCell, ensures_bind, ensures_failIf, ensures_pure]
  intro hok
  have hask := asks_handler env cellId calldata tx.sender cell.storage height value w.state _
    (dispatch_ok hok)
  have hparams : ∀ d : StateDiff, d.paramUpdates = (addTransfers (dispatch env cellId calldata tx.sender
      cell.storage height value gasLimit w.state) (start env tx)).paramUpdates →
      d.pendingNameProposals = (addTransfers (dispatch env cellId calldata tx.sender
        cell.storage height value gasLimit w.state) (start env tx)).pendingNameProposals →
      d.nameRenewals = (addTransfers (dispatch env cellId calldata tx.sender
        cell.storage height value gasLimit w.state) (start env tx)).nameRenewals →
      d.oracleUpdates = [] → frame d = start env tx → d.computeFeeTlkd = 0 → Handled env w tx d := by
    intro d h1 h2 h3 ho hframe hfee
    refine ⟨hframe, hfee, ?_, .inl fun u hu => ?_, fun u hu => ?_⟩
    · rw [h1, h2, h3, ho]
      exact hask.params.imp id fun h => ⟨h.1, h.2.1, h.2.2, rfl⟩
    all_goals
      rw [ho] at hu
      exact absurd hu List.not_mem_nil
  rw [payValue]
  split_ifs <;> exact hparams _ rfl rfl rfl rfl rfl rfl

/-- **What every handler keeps.** -/
theorem handled_computeIntent (timestamp : ℕ) (intent : TransactionIntent) :
    Ensures (computeIntent env w (start env tx) tx.sender timestamp account intent) (Handled env w tx) := by
  cases intent with
  | transfer recipient pubkey amount => exact handled_transfer _ _ _
  | transferToName name amount =>
    simp only [computeIntent, ensures_bind]
    exact ensures_true.mono fun _ _ => handled_transfer _ _ _
  | batchTransfer transfers => exact handled_batchTransfer _
  | batchTransferToName transfers =>
    simp only [computeIntent, ensures_bind]
    exact ensures_true.mono fun _ _ => handled_batchTransfer _
  | callCell cellId calldata value gasLimit =>
    simp only [computeIntent, computeCallCellDiff, ensures_bind, ensures_failIf, ensures_okOr, ensures_ite]
    intro _ _ cell _ _ _
    exact ⟨fun _ => handled_callSystemCell _ _ _ _ _ _, fun _ =>
      (handled_callVmCell _ _ _ _ _ _ _).mono fun _ h => h.handled⟩
  | callCellChain calls gasLimit =>
    exact (handled_callChain _ _ _).mono fun _ h => h.handled
  | mcpToolCall agentId toolId calldata value gasLimit policyCellId logId time =>
    simp only [computeIntent, ensures_bind]
    exact ensures_true.mono fun _ _ => (handled_callChain _ _ _).mono fun _ h => h.handled
  | proposeUrl pattern bond period => exact handled_proposeUrl _ _ _ _
  | voteUrl pattern approve => exact handled_voteUrl _ _
  | reportMaliciousUrl pattern evidence => exact handled_reportMaliciousUrl _ _
  | setCellVisibility cellId visibility => exact handled_setCellVisibility _ _
  | submitOracleCommit requestId commitHash => exact handled_oracleCommit _ _
  | submitOracleReveal requestId body status => exact handled_oracleReveal _ _ _
  | stake | unstake | withdrawStake | unjail | proposeTokenAuthority | voteTokenAuthority | callSystem =>
    exact ensures_throw.mpr trivial
  | _ =>
    simp only [computeIntent, computeClaimDiff, computeRotateKeyDiff, computeDepositComputeDiff,
      computeWithdrawComputeDiff, computeWrapTrthDiff, computeUnwrapTrthDiff, computeMintNftDiff,
      computeTransferNftDiff, computeBurnNftDiff, computeApproveNftDiff, computeDeployCellDiff,
      computeDeployTokenDiff, computeUpgradeCellDiff, computeTransferOwnershipDiff,
      computeMakeImmutableDiff, computeCloseCellDiff, computeProposeCellUpgradeDiff,
      computeProposeCellOwnershipTransferDiff, computeProposeCellMakeImmutableDiff,
      computeVoteCellProposalDiff, computeExecuteCellProposalDiff, computeTokenTransferDiff,
      computeTokenMintDiff, computeTokenBurnDiff, computeTokenFreezeDiff, redeploy, takeCells,
      takePayments, ensures_bind, ensures_failIf, ensures_okOr, ensures_pure]
    repeat intro
    exact handled_quiet rfl rfl rfl rfl

end Handlers

/-! ## The fees -/

/-- What a transaction pays on top of what its handler asks for: the gas and compute fees, the gas that is
debited, and the price of the compute units. -/
structure Fees where
  gas : ℕ
  cu : ℕ
  debit : ℕ
  price : ℕ

/-- An entry of a payment list, left out when it is empty. -/
def entry (a : AccountId) (n : ℕ) : List (AccountId × ℕ) := if 0 < n then [(a, n)] else []

/-- The diff of a handler with the fees. -/
def withFees (sender : AccountId) (account : AccountRecord) (f : Fees) (d : StateDiff) : StateDiff :=
  recordSender sender account
    { d with
      gasFee := f.gas
      cuFee := f.cu
      nativeDebits := d.nativeDebits ++ entry sender f.debit
      computeEscrowDebits := d.computeEscrowDebits ++ entry sender f.price
      computeFeeTlkd := f.price }

/-- The check of the gas debit: against the balance when the handler has debited gas itself, else against
the record that the handler leaves for the sender. -/
def GasCovered (sender : AccountId) (account : AccountRecord) (debit : ℕ) (d : StateDiff) :
    Option ℕ → Prop
  | some _ => amountFor sender d.nativeDebits + debit ≤ account.balance
  | none => debit ≤ ((d.accountUpdates[sender]?).map AccountRecord.balance).getD account.balance

/-- The fees of a transaction, as the code works them out from the diff `d` of its handler. -/
structure FeesOf (env : Env) (w : World) (tx : Transaction) (account : AccountRecord) (d : StateDiff)
    (f : Fees) : Prop where
  settled : f.gas = (settleFees (requiredFees env w (txByteFee env w tx) tx.intent).1
      (requiredFees env w (txByteFee env w tx) tx.intent).2 (txByteFee env w tx) d).gasFee ∧
    f.cu = (settleFees (requiredFees env w (txByteFee env w tx) tx.intent).1
      (requiredFees env w (txByteFee env w tx) tx.intent).2 (txByteFee env w tx) d).cuFee
  debit : f.debit = f.gas - (embeddedFee env w tx.intent).getD 0
  covered : 0 < f.debit → GasCovered tx.sender account f.debit d (embeddedFee env w tx.intent)
  price : if 0 < f.cu then cuFeeToTlkd env w f.cu = .ok f.price else f.price = 0
  escrow : 0 < f.price →
    amountFor tx.sender d.computeEscrowDebits + f.price ≤
      account.computeEscrowTlkd + amountFor tx.sender d.computeEscrowCredits

theorem getU64_lt (env : Env) (g : Globals) (name : String) : g.getU64 env name < u64 := by
  rw [Globals.getU64, decodeU64]
  refine (leNat_lt _).trans_le ?_
  refine (Nat.pow_le_pow_right (by decide) (List.length_take_le 8 _)).trans ?_
  decide

theorem cuFeeToTlkd_pos {env : Env} {w : World} {cu price : ℕ} (hcu : 0 < cu)
    (h : cuFeeToTlkd env w cu = .ok price) : 0 < price := by
  simp only [cuFeeToTlkd, failIf_bind_ok, pure_eq_ok] at h
  obtain ⟨hrate, hlt, rfl⟩ := h
  have h64 := getU64_lt env w.globals "cu.per_tlkd"
  refine Nat.div_pos ?_ (Nat.pos_of_ne_zero hrate)
  have hone : 0 < cu * oneTlkd := Nat.mul_pos hcu (by decide)
  have hbig : u64 ≤ u128 - 1 := by decide
  rw [satAdd]
  omega

theorem debitGas_eq_ok {sender : AccountId} {account : AccountRecord} {embedded : Option ℕ}
    {d d' : StateDiff} (h : debitGas sender account embedded d = .ok d') :
    (0 < d.gasFee - embedded.getD 0 →
      GasCovered sender account (d.gasFee - embedded.getD 0) d embedded) ∧
    d' = { d with nativeDebits := d.nativeDebits ++ entry sender (d.gasFee - embedded.getD 0) } := by
  cases embedded with
  | none =>
    simp only [debitGas, Option.getD_none, Nat.sub_zero, entry] at h ⊢
    split_ifs at h ⊢ with hpos
    · simp only [failIf_bind_ok, pure_eq_ok] at h
      exact ⟨fun _ => Nat.le_of_not_lt h.1, h.2.symm⟩
    · rw [pure_eq_ok] at h
      refine ⟨fun hp => absurd hp hpos, ?_⟩
      rw [List.append_nil]
      exact h.symm
  | some fee =>
    simp only [debitGas, Option.getD_some, entry] at h ⊢
    by_cases hlt : fee < d.gasFee
    · have hpos : 0 < d.gasFee - fee := by omega
      rw [if_pos hlt] at h
      simp only [okOr_bind_ok, failIf_bind_ok, pure_eq_ok, checkedAdd] at h
      obtain ⟨total, htotal, hle, rfl⟩ := h
      split_ifs at htotal
      cases htotal
      exact ⟨fun _ => Nat.le_of_not_lt hle, by rw [if_pos hpos]⟩
    · have hpos : ¬ 0 < d.gasFee - fee := by omega
      rw [if_neg hlt, pure_eq_ok] at h
      refine ⟨fun hp => absurd hp hpos, ?_⟩
      rw [if_neg hpos, List.append_nil]
      exact h.symm

theorem debitEscrow_eq_ok {env : Env} {w : World} {sender : AccountId} {account : AccountRecord}
    {d d' : StateDiff} (h : debitEscrow env w sender account d = .ok d') (hd : d.computeFeeTlkd = 0) :
    ∃ price, (if 0 < d.cuFee then cuFeeToTlkd env w d.cuFee = .ok price else price = 0) ∧
      (0 < price → amountFor sender d.computeEscrowDebits + price ≤
        account.computeEscrowTlkd + amountFor sender d.computeEscrowCredits) ∧
      d' = { d with
        computeEscrowDebits := d.computeEscrowDebits ++ entry sender price
        computeFeeTlkd := price } := by
  rw [debitEscrow] at h
  split_ifs at h with hcu
  · simp only [okOr_bind_ok] at h
    obtain ⟨credited, hcredited, escrow, hescrow, h⟩ := h
    obtain ⟨price, hprice, h⟩ := bind_eq_ok.mp h
    simp only [failIf_bind_ok, pure_eq_ok] at h
    obtain ⟨hle, rfl⟩ := h
    simp only [checkedAdd, checkedSub] at hcredited hescrow
    split_ifs at hcredited hescrow
    cases hcredited
    cases hescrow
    refine ⟨price, by rw [if_pos hcu]; exact hprice, fun _ => by omega, ?_⟩
    rw [entry, if_pos (cuFeeToTlkd_pos hcu hprice)]
  · rw [pure_eq_ok] at h
    refine ⟨0, by rw [if_neg hcu], fun hp => absurd hp (lt_irrefl 0), ?_⟩
    rw [← h, entry, if_neg (lt_irrefl 0), List.append_nil, ← hd]

theorem payFees_eq_ok {env : Env} {w : World} {tx : Transaction} {account : AccountRecord}
    {d d' : StateDiff} (hd : d.computeFeeTlkd = 0) (h : payFees env w tx account d = .ok d') :
    ∃ f, FeesOf env w tx account d f ∧ d' = withFees tx.sender account f d := by
  simp only [payFees, failIf_bind_ok] at h
  obtain ⟨-, -, h⟩ := h
  obtain ⟨d₁, h1, h⟩ := bind_eq_ok.mp h
  obtain ⟨d₂, h2, h⟩ := bind_eq_ok.mp h
  rw [pure_eq_ok] at h
  obtain ⟨hcov, rfl⟩ := debitGas_eq_ok h1
  generalize hs : settleFees (requiredFees env w (txByteFee env w tx) tx.intent).1
    (requiredFees env w (txByteFee env w tx) tx.intent).2 (txByteFee env w tx) d = s at *
  have hsame : s = { d with gasFee := s.gasFee, cuFee := s.cuFee } := by
    rw [← hs, settleFees]
    split_ifs <;> rfl
  generalize s.gasFee = gas at *
  generalize s.cuFee = cu at *
  subst hsame
  obtain ⟨price, hprice, hesc, rfl⟩ := debitEscrow_eq_ok h2 hd
  exact ⟨⟨gas, cu, gas - (embeddedFee env w tx.intent).getD 0, price⟩,
    ⟨by rw [hs]; exact ⟨rfl, rfl⟩, rfl, hcov, hprice, hesc⟩, h.symm⟩

/-- **What a computed diff is**: the diff of the handler, with the fees. -/
theorem compute_eq_ok {env : Env} {w : World} {tx : Transaction} {d : StateDiff}
    (h : computeTransactionDiffSkipSig env w tx = .ok d) :
    ∃ account d₁ f, checkTransaction env w tx = .ok account ∧
      computeIntent env w (start env tx) tx.sender tx.timestamp account tx.intent = .ok d₁ ∧
      FeesOf env w tx account d₁ f ∧ d = withFees tx.sender account f d₁ := by
  obtain ⟨account, hcheck, h⟩ := bind_eq_ok.mp h
  obtain ⟨d₁, h1, h⟩ := bind_eq_ok.mp h
  obtain ⟨f, hf, hd⟩ := payFees_eq_ok (handled_computeIntent _ _ d₁ h1).computeFeeTlkd h
  exact ⟨account, d₁, f, hcheck, h1, hf, hd⟩

theorem checkTransaction_eq_ok {env : Env} {w : World} {tx : Transaction} {account : AccountRecord}
    (h : checkTransaction env w tx = .ok account) :
    txHashOf env tx ∉ w.state.executedTxHashes ∧ w.state.accounts[tx.sender]? = some account ∧
      tx.nonce = satAdd64 account.nonce 1 := by
  simp only [checkTransaction, failIf_bind_ok, okOr_bind_ok, pure_eq_ok] at h
  obtain ⟨hhash, -, -, a, ha, hnonce, rfl⟩ := h
  exact ⟨hhash, ha, not_not.mp hnonce⟩

theorem plain_withFees {env : Env} {tx : Transaction} {sender : AccountId} {account : AccountRecord}
    {f : Fees} {d : StateDiff} (h : Plain env tx d) : Plain env tx (withFees sender account f d) := h

theorem withFees_accountUpdates (sender : AccountId) (account : AccountRecord) (f : Fees)
    (d : StateDiff) :
    (withFees sender account f d).accountUpdates =
      d.accountUpdates.insert sender
        (if ((d.accountUpdates[sender]?).getD account).pubkeyBytes = [] then
          { (d.accountUpdates[sender]?).getD account with pubkeyBytes := account.pubkeyBytes }
        else (d.accountUpdates[sender]?).getD account) := rfl

end TruthLinked.Ledger.ComputeSpec
