import TruthLinked.Ledger.ComputeSpec

/-! # What an intent asks for

The payments, staking operations and credits in the diff of a handler, read off the intent and the state
before it (`asked`), the record it leaves for the sender, and the cells its updates name. Together these are
all that the checks of `apply_diff` look at. -/

namespace TruthLinked.Ledger.Demand

open Core.Types Runtime.Cells Runtime.Types Governance.Types Staking.State Oracle.Tally Ledger.Model
open Ledger.Phases Ledger.Execution Ledger.SystemCells Ledger.Mcp Ledger.PrivateBalance Ledger.Compute
open Ledger.ComputeCells Ledger.CallSpecs Ledger.ComputeSpec Lib.Except Lib.Keyed

variable {sender : AccountId} {updates : Map AccountId AccountRecord} {r : AccountRecord}

/-- The lists of a diff that move value, and the gas that its handler has taken itself. -/
@[ext] structure Asked where
  transfers : List (AccountId × ℕ) := []
  debits : List (AccountId × ℕ) := []
  escrowCredits : List (AccountId × ℕ) := []
  escrowDebits : List (AccountId × ℕ) := []
  staking : List StakingUpdate := []
  tokenCredits : List (AccountId × AccountId × ℕ) := []
  cellCredits : List (AccountId × ℕ) := []
  cellDebits : List (AccountId × ℕ) := []
  gas : ℕ := 0

/-- What a diff asks for. -/
def askedOf (d : StateDiff) : Asked where
  transfers := d.nativeTransfers
  debits := d.nativeDebits
  escrowCredits := d.computeEscrowCredits
  escrowDebits := d.computeEscrowDebits
  staking := d.stakingUpdates
  tokenCredits := d.tokenCredits
  cellCredits := d.cellCredits
  cellDebits := d.cellDebits
  gas := d.gasFee

/-- The account a name stands for. -/
def targetOf (s : State) (name : String) : AccountId :=
  ((s.nameRegistry[name]?).map NameRegistration.target).getD 0

/-- The payments of a batch. -/
def payments (ts : List BatchTransferEntry) : List (AccountId × ℕ) := ts.map fun t => (t.recipient, t.amount)

/-- The payments of a batch to names. -/
def namePayments (s : State) (ts : List NameTransferEntry) : List (AccountId × ℕ) :=
  ts.map fun t => (targetOf s t.name, t.amount)

/-- What a list of payments asks for: the payments, and their total with gas for each from the sender. -/
def askedPayments (env : Env) (w : World) (sender : AccountId) (pays : List (AccountId × ℕ)) : Asked where
  transfers := pays
  debits := [(sender, (pays.map Prod.snd).sum + gasTransfer env w * pays.length)]
  gas := gasTransfer env w * pays.length

/-- The sender can pay the payments and their gas. -/
def Afforded (env : Env) (w : World) (account : AccountRecord) (pays : List (AccountId × ℕ)) : Prop :=
  (pays.map Prod.snd).sum + gasTransfer env w * pays.length < u128 ∧
    (pays.map Prod.snd).sum + gasTransfer env w * pays.length ≤ account.balance

/-- The payments of the intents that pay their gas with them. -/
def paymentsOf (s : State) : TransactionIntent → Option (List (AccountId × ℕ))
  | .transfer recipient _ amount => some [(recipient, amount)]
  | .transferToName name amount => some [(targetOf s name, amount)]
  | .batchTransfer transfers => some (payments transfers)
  | .batchTransferToName transfers => some (namePayments s transfers)
  | _ => none

/-- The slash that a reveal asks for when it does not match its commit. -/
def revealSlash (env : Env) (w : World) (pk : Bytes) (requestId : Bytes32) (body : Bytes) (status : ℕ) :
    List StakingUpdate :=
  if ((w.state.oraclePending[requestId]?).bind fun tally => tally.commits[pk]?) =
      some (computeCommitHash env.toTallyEnv pk requestId body status) then []
  else
    match computeSlashOutcome w.state.staking pk
      (w.globals.getU64 env "staking.oracle_lie_slash_percentage") with
    | .ok outcome => [.slash pk .oracleLie outcome.amount outcome.redistribution]
    | .error _ => []

/-- What a call of a system cell asks for. -/
def askedSystemCall (env : Env) (w : World) (cellId : AccountId) (cd : Bytes) (value : ℕ) : Asked :=
  let storage := ((w.state.cells.cells[cellId]?).map CellAccount.storage).getD ∅
  { transfers := requestedPayments env cellId cd storage
    staking := requestedOps env cellId cd
    cellCredits := entry cellId value
    cellDebits := (requestedPayments env cellId cd storage).map fun p => (cellId, p.2) }

/-- What an intent asks for. -/
def asked (env : Env) (w : World) (sender : AccountId) (account : AccountRecord) : TransactionIntent → Asked
  | .transfer recipient _ amount => askedPayments env w sender [(recipient, amount)]
  | .transferToName name amount => askedPayments env w sender [(targetOf w.state name, amount)]
  | .batchTransfer transfers => askedPayments env w sender (payments transfers)
  | .batchTransferToName transfers => askedPayments env w sender (namePayments w.state transfers)
  | .depositCompute amount => { debits := [(sender, amount)], escrowCredits := [(sender, amount)] }
  | .withdrawCompute amount => { escrowDebits := [(sender, amount)], transfers := [(sender, amount)] }
  | .wrapTLKD amount =>
    { debits := [(sender, amount)], tokenCredits := [(wtrthSystemCellId env, sender, amount)] }
  | .unwrapTLKD amount => { transfers := [(sender, amount)] }
  | .deployToken cellId _ _ _ supply _ _ _ =>
    { tokenCredits := if 0 < supply then [(cellId, sender, supply)] else [] }
  | .callCell cellId calldata value _ =>
    if isSystemCell env cellId then askedSystemCall env w cellId calldata value else {}
  | .proposeUrl _ bond _ => { debits := [(sender, bond)] }
  | .privateBalanceInit .. => { debits := [(sender, rentDeposit env w.globals)] }
  | .privateBalanceDeposit _ _ amount _ _ _ _ => { debits := [(sender, amount)] }
  | .privateBalanceWithdraw _ _ amount recipient _ _ _ _ => { transfers := [(recipient, amount)] }
  | .submitOracleReveal requestId body status =>
    { staking := revealSlash env w account.pubkeyBytes requestId body status }
  | _ => {}

section Handlers
variable {env : Env} {w : World} {tx : Transaction} {account : AccountRecord}

theorem checkedAdd_eq_some {a b c : ℕ} : checkedAdd a b = some c ↔ a + b < u128 ∧ a + b = c := by
  rw [checkedAdd]
  split_ifs with h
  · exact ⟨fun hc => ⟨h, Option.some.inj hc⟩, fun hc => congrArg some hc.2⟩
  · exact ⟨fun hc => hc.elim, fun hc => absurd hc.1 h⟩

theorem asked_transfer (recipient : AccountId) (pubkey : Bytes) (amount : ℕ) :
    Ensures (computeTransferDiff env w (start env tx) tx.sender recipient pubkey amount account)
      fun d => askedOf d = askedPayments env w tx.sender [(recipient, amount)] ∧
        Afforded env w account [(recipient, amount)] := by
  simp only [computeTransferDiff, ensures_bind, ensures_failIf, ensures_okOr, ensures_pure]
  intro _ total htotal hle
  refine ensures_true.mono fun _ _ => ?_
  obtain ⟨hlt, rfl⟩ := checkedAdd_eq_some.mp htotal
  have hgas : gasTransfer env w * [(recipient, amount)].length = gasTransfer env w := Nat.mul_one _
  have hsum : ([(recipient, amount)].map Prod.snd).sum = amount := List.sum_singleton
  rw [askedPayments, Afforded, hgas, hsum]
  exact ⟨rfl, hlt, Nat.le_of_not_lt hle⟩

theorem batchTotal_eq (s : State) (ts : List BatchTransferEntry) (idx total : ℕ) :
    Ensures (batchTotal env s ts idx total)
      fun n => n = total + ((payments ts).map Prod.snd).sum := by
  induction ts generalizing idx total with
  | nil => exact ensures_pure.mpr rfl
  | cons t ts ih =>
    simp only [batchTotal, ensures_bind, ensures_failIf, ensures_okOr]
    intro _
    refine ensures_true.mono fun _ _ total' htotal => ?_
    obtain ⟨-, rfl⟩ := checkedAdd_eq_some.mp htotal
    refine (ih (idx + 1) (total + t.amount)).mono fun n hn => ?_
    simp only [payments, List.map_cons, List.sum_cons] at hn ⊢
    omega

theorem asked_batchTransfer (transfers : List BatchTransferEntry) :
    Ensures (computeBatchTransferDiff env w (start env tx) tx.sender transfers account)
      fun d => askedOf d = askedPayments env w tx.sender (payments transfers) ∧
        Afforded env w account (payments transfers) := by
  simp only [computeBatchTransferDiff, ensures_bind, ensures_failIf, ensures_okOr, ensures_pure]
  intro _ _
  refine (batchTotal_eq w.state transfers 0 0).mono fun n hn _ total htotal hle => ?_
  obtain ⟨hlt, rfl⟩ := checkedAdd_eq_some.mp htotal
  have hlen : (payments transfers).length = transfers.length := List.length_map _
  rw [Nat.zero_add] at hn
  rw [hn] at hlt hle ⊢
  rw [askedPayments, Afforded, hlen]
  exact ⟨rfl, hlt, Nat.le_of_not_lt hle⟩

theorem resolveName_eq (s : State) (name : String) (height : ℕ) :
    Ensures (resolveNameToAccount s name height) fun a => a = targetOf s name := by
  simp only [resolveNameToAccount, ensures_bind, ensures_okOr, ensures_failIf, ensures_pure]
  intro reg hreg _
  rw [targetOf, hreg]
  rfl

theorem resolveNames_eq (s : State) (ts : List NameTransferEntry) :
    Ensures (resolveNames s ts) fun r => payments r = namePayments s ts := by
  induction ts with
  | nil => exact ensures_pure.mpr rfl
  | cons t ts ih =>
    rw [resolveNames] at ih ⊢
    simp only [List.mapM_cons, ensures_bind, ensures_pure]
    refine (resolveName_eq s t.name _).mono fun a ha => ih.mono fun r hr => ?_
    rw [payments, List.map_cons, namePayments, List.map_cons, ha]
    exact congrArg _ hr

theorem asked_oracleReveal (requestId : Bytes32) (body : Bytes) (status : ℕ) :
    Ensures (computeOracleRevealDiff env w (start env tx) requestId body status account)
      fun d => askedOf d = { staking := revealSlash env w account.pubkeyBytes requestId body status } := by
  simp only [computeOracleRevealDiff, ensures_bind, ensures_failIf, ensures_okOr, ensures_ite,
    ensures_pure]
  intro _ req _ tally htally _ commit hcommit _ _
  have hlook : ((w.state.oraclePending[requestId]?).bind fun tally => tally.commits[account.pubkeyBytes]?) =
      some commit := by rw [htally]; exact hcommit
  rw [revealSlash, hlook]
  refine ⟨fun hne => ?_, fun heq => ?_⟩
  · rw [if_neg fun h => hne (Option.some.inj h).symm]
    intro outcome hout
    rw [hout]
    rfl
  · rw [if_pos (congrArg some (not_not.mp heq).symm)]
    rfl

theorem asked_callSystemCell {cellId : AccountId} {cell : CellAccount}
    (hcell : w.state.cells.cells[cellId]? = some cell) (calldata : Bytes) (value gasLimit height : ℕ) :
    Ensures (callSystemCell env w (start env tx) tx.sender cellId cell calldata value gasLimit height
      account) fun d => askedOf d = askedSystemCall env w cellId calldata value := by
  simp only [callSystemCell, ensures_bind, ensures_failIf, ensures_pure]
  intro hok
  have hask := asks_handler env cellId calldata tx.sender cell.storage height value w.state _
    (dispatch_ok hok)
  simp only [askedSystemCall, hcell, Option.map_some, Option.getD_some]
  have hcredits : ∀ d : StateDiff, d.cellCredits = [] → ∀ l, askedOf { payValue d tx.sender value account with
      cellCredits := (payValue d tx.sender value account).cellCredits ++ l } =
      { askedOf d with cellCredits := l } := by
    intro d hd l
    rw [payValue]
    split_ifs
    · simp only [askedOf, hd, List.nil_append]
    · simp only [askedOf, hd, List.nil_append]
  rw [hcredits _ rfl]
  ext1
  · exact hask.nativeCredits
  · exact hask.nativeDebits
  · rfl
  · rfl
  · exact hask.stakingUpdates
  · rfl
  · rfl
  · exact hask.cellDebits
  · rfl

theorem askedOf_payValue (d : StateDiff) (value : ℕ) :
    askedOf (payValue d tx.sender value account) = askedOf d := by
  rw [payValue]
  split_ifs <;> rfl

theorem askedOf_addResult (d : StateDiff) {r : ExecutionResult} (hr : Silent r) :
    askedOf (addResult r d) = askedOf d := by
  simp only [askedOf, addResult, addTransfers, hr.nativeCredits, hr.nativeDebits, hr.stakingUpdates,
    hr.cellDebits, List.append_nil]

theorem askedOf_chain (d : StateDiff) {results : List ExecutionResult} (hr : ∀ r ∈ results, Silent r) :
    askedOf (results.foldl addChainResult d) = askedOf d := by
  induction results generalizing d with
  | nil => rfl
  | cons r results ih =>
    rw [List.foldl_cons, ih _ fun r' hr' => hr r' (List.mem_cons_of_mem r hr'), addChainResult,
      askedOf_addResult _ (hr r List.mem_cons_self)]
    rfl

theorem asked_callVmCell (cellId : AccountId) (cell : CellAccount) (calldata : Bytes)
    (value gasLimit timestamp height : ℕ) :
    Ensures (callVmCell env w (start env tx) tx.sender cellId cell calldata value gasLimit timestamp
      height account) fun d => askedOf d = {} := by
  simp only [callVmCell, ensures_bind, ensures_failIf, ensures_pure]
  intro _ root _
  rw [askedOf_payValue]
  exact askedOf_addResult (start env tx)
    (silent_executeAxiom env w w.state.cells cell tx.sender height timestamp calldata value gasLimit)

theorem asked_callChain (calls : List CellCall) (gasLimit : ℕ) (allow : Bool) :
    Ensures (computeCallChainDiff env w (start env tx) tx.sender calls gasLimit account allow)
      fun d => askedOf d = {} := by
  simp only [computeCallChainDiff, ensures_bind, ensures_failIf]
  intro _ _ _ _ _
  refine (silent_executeCallChain env w w.state.cells calls tx.sender 0 gasLimit).mono fun out hout => ?_
  rw [ensures_pure, askedOf_payValue]
  exact askedOf_chain (start env tx) hout

theorem asked_payments (timestamp : ℕ) {intent : TransactionIntent} {pays : List (AccountId × ℕ)}
    (h : paymentsOf w.state intent = some pays) :
    Ensures (computeIntent env w (start env tx) tx.sender timestamp account intent)
      fun d => askedOf d = askedPayments env w tx.sender pays ∧ Afforded env w account pays := by
  cases intent with
  | transfer recipient pubkey amount =>
    cases h
    exact asked_transfer _ _ _
  | transferToName name amount =>
    cases h
    simp only [computeIntent, ensures_bind]
    refine (resolveName_eq w.state name _).mono fun a ha => ?_
    rw [ha]
    exact asked_transfer _ _ _
  | batchTransfer transfers =>
    cases h
    exact asked_batchTransfer _
  | batchTransferToName transfers =>
    cases h
    simp only [computeIntent, ensures_bind]
    refine (resolveNames_eq w.state transfers).mono fun r hr => ?_
    rw [← hr]
    exact asked_batchTransfer _
  | _ => cases h

/-- **What the handler of an intent asks for.** -/
theorem asked_computeIntent (timestamp : ℕ) (intent : TransactionIntent) :
    Ensures (computeIntent env w (start env tx) tx.sender timestamp account intent)
      fun d => askedOf d = asked env w tx.sender account intent := by
  cases intent with
  | transfer | transferToName | batchTransfer | batchTransferToName =>
    exact (asked_payments timestamp rfl).mono fun _ h => h.1
  | callCell cellId calldata value gasLimit =>
    simp only [computeIntent, computeCallCellDiff, ensures_bind, ensures_failIf, ensures_okOr, ensures_ite,
      asked]
    intro _ _ cell hcell _ _
    refine ⟨fun hsys => ?_, fun hvm => ?_⟩
    · rw [if_pos hsys]
      exact asked_callSystemCell hcell _ _ _ _
    · rw [if_neg hvm]
      exact asked_callVmCell _ _ _ _ _ _ _
  | callCellChain calls gasLimit => exact asked_callChain _ _ _
  | mcpToolCall agentId toolId calldata value gasLimit policyCellId logId time =>
    simp only [computeIntent, ensures_bind]
    exact ensures_true.mono fun _ _ => asked_callChain _ _ _
  | submitOracleReveal requestId body status => exact asked_oracleReveal _ _ _
  | stake | unstake | withdrawStake | unjail | proposeTokenAuthority | voteTokenAuthority | callSystem =>
    exact ensures_throw.mpr trivial
  | privateBalanceInit cellId agentId enc comm nonce =>
    simp only [computeIntent, circuitInitPrivateBalance, takePayments, takeCells, ensures_bind,
      ensures_failIf, ensures_okOr, ensures_pure]
    repeat intro
    rfl
  | privateBalanceDeposit cellId agentId amount enc comm nonce old =>
    simp only [computeIntent, circuitDeposit, takePayments, takeCells, ensures_bind,
      ensures_failIf, ensures_okOr, ensures_pure]
    repeat intro
    rfl
  | privateBalanceWithdraw cellId agentId amount recipient enc comm nonce old =>
    simp only [computeIntent, circuitWithdraw, takePayments, takeCells, ensures_bind,
      ensures_failIf, ensures_okOr, ensures_pure]
    repeat intro
    rfl
  | privateBalanceConfidentialTransfer sCell sAgent rCell amount proof sEnc sComm sNonce sOld rEnc rComm
      rNonce rOld =>
    simp only [computeIntent, circuitConfidentialTransfer, takePayments, takeCells, ensures_bind,
      ensures_failIf, ensures_okOr, ensures_pure]
    repeat intro
    rfl
  | _ =>
    simp only [computeIntent, computeClaimDiff, computeRotateKeyDiff, computeDepositComputeDiff,
      computeWithdrawComputeDiff, computeWrapTrthDiff, computeUnwrapTrthDiff, computeMintNftDiff,
      computeTransferNftDiff, computeBurnNftDiff, computeApproveNftDiff, computeDeployCellDiff,
      computeDeployTokenDiff, computeUpgradeCellDiff, computeTransferOwnershipDiff,
      computeMakeImmutableDiff, computeCloseCellDiff, computeProposeCellUpgradeDiff,
      computeProposeCellOwnershipTransferDiff, computeProposeCellMakeImmutableDiff,
      computeVoteCellProposalDiff, computeExecuteCellProposalDiff, computeTokenTransferDiff,
      computeTokenMintDiff, computeTokenBurnDiff, computeTokenFreezeDiff, computeProposeUrlDiff,
      computeVoteUrlDiff, computeReportMaliciousUrlDiff, computeSetCellVisibilityDiff,
      computeOracleCommitDiff, redeploy, takeCells, ensures_bind, ensures_failIf, ensures_okOr,
      ensures_pure]
    repeat intro
    rfl

end Handlers

/-! ## The record of the sender -/

/-- The record that a diff has for the sender, if any, gives it no more than its account has. -/
def Modest (sender : AccountId) (account : AccountRecord) (updates : Map AccountId AccountRecord) : Prop :=
  ∀ r, slot updates sender = some r → r.balance ≤ account.balance

/-- The intents whose own record never gives the sender more than it has, and that do not debit gas
themselves. -/
def LeavesBalance : TransactionIntent → Prop
  | .transfer .. | .transferToName .. | .batchTransfer .. | .batchTransferToName .. | .claim ..
  | .closeCell .. | .privateBalanceWithdraw .. => False
  | _ => True

section Records
variable {env : Env} {w : World} {tx : Transaction} {account : AccountRecord}

theorem modest_start (env : Env) : Modest tx.sender account (start env tx).accountUpdates := by
  intro r hr
  have hnone : slot (start env tx).accountUpdates tx.sender = none := Std.ExtTreeMap.getElem?_empty
  rw [hnone] at hr
  cases hr

theorem Modest.insert_other {a : AccountId}
    (h : Modest sender account updates) (ha : a ≠ sender) (r : AccountRecord) :
    Modest sender account (updates.insert a r) := by
  intro r' hr'
  rw [slot_insert, if_neg ha] at hr'
  exact h r' hr'

theorem modest_insert_self (updates : Map AccountId AccountRecord)
    (hr : r.balance ≤ account.balance) : Modest sender account (updates.insert sender r) := by
  intro r' hr'
  rw [slot_insert, if_pos rfl] at hr'
  cases hr'
  exact hr

theorem modest_putRecord (d : StateDiff)
    (hr : r.balance ≤ account.balance) : Modest sender account (putRecord d sender r) :=
  modest_insert_self _ hr

theorem modest_payValue (d : StateDiff) (value : ℕ) (hd : Modest tx.sender account d.accountUpdates) :
    Modest tx.sender account (payValue d tx.sender value account).accountUpdates := by
  rw [payValue]
  split_ifs
  · exact modest_putRecord d (Nat.sub_le _ _)
  · exact hd

theorem accountUpdates_chain (d : StateDiff) (results : List ExecutionResult) :
    (results.foldl addChainResult d).accountUpdates = d.accountUpdates := by
  induction results generalizing d with
  | nil => rfl
  | cons r results ih => rw [List.foldl_cons, ih]; rfl

theorem modest_callChain (calls : List CellCall) (gasLimit : ℕ) (allow : Bool) :
    Ensures (computeCallChainDiff env w (start env tx) tx.sender calls gasLimit account allow)
      fun d => Modest tx.sender account d.accountUpdates := by
  simp only [computeCallChainDiff, ensures_bind, ensures_failIf]
  intro _ _ _ _ _
  refine ensures_true.mono fun out _ => ?_
  rw [ensures_pure]
  refine modest_payValue _ _ ?_
  have hchain := accountUpdates_chain (start env tx) out.2
  simp only [addCells]
  rw [hchain]
  exact modest_start env

theorem modest_payRoyalty (nft : NFTRecord) (salePrice : Option ℕ) :
    Ensures (payRoyalty w.state (start env tx) tx.sender nft salePrice account)
      (Modest tx.sender account) := by
  unfold payRoyalty
  split
  · rw [ensures_ite]
    refine ⟨fun hroyalty => ?_, fun _ => ensures_pure.mpr (modest_start env)⟩
    simp only [ensures_bind, ensures_failIf, ensures_okOr, ensures_pure]
    intro _ balance hbalance payee _ payeeBalance _
    refine (modest_putRecord _ ?_).insert_other hroyalty.2 _
    simp only [checkedSub] at hbalance
    split_ifs at hbalance
    cases hbalance
    exact Nat.sub_le _ _
  · exact ensures_pure.mpr (modest_start env)

theorem modest_nfts (hacc : w.state.accounts[tx.sender]? = some account) {a : AccountId}
    (h : Modest tx.sender account updates) {r' : AccountRecord}
    (hr : updates[a]?.or w.state.accounts[a]? = some r) (hbal : r'.balance = r.balance) :
    Modest tx.sender account (updates.insert a r') := by
  by_cases ha : a = tx.sender
  · subst ha
    refine modest_insert_self updates ?_
    rw [hbal]
    cases hu : updates[tx.sender]? with
    | some u =>
      rw [hu] at hr
      cases hr
      exact h _ hu
    | none =>
      rw [hu, hacc] at hr
      cases hr
      exact le_rfl
  · exact h.insert_other ha _

theorem modest_takeNft (hacc : w.state.accounts[tx.sender]? = some account) (nftId : Bytes32)
    (owner : AccountId) (h : Modest tx.sender account updates) :
    Ensures (takeNft w.state nftId owner updates) (Modest tx.sender account) := by
  simp only [takeNft, ensures_bind, ensures_okOr, ensures_pure]
  intro record hrecord
  exact modest_nfts hacc h hrecord rfl

theorem modest_giveNft (hacc : w.state.accounts[tx.sender]? = some account) (nftId : Bytes32)
    (recipient : AccountId) (pubkey : Bytes)
    (h : Modest tx.sender account updates) :
    Ensures (giveNft w.state nftId recipient pubkey updates) (Modest tx.sender account) := by
  rw [giveNft]
  split
  · rename_i record hrecord
    refine ensures_pure.mpr (modest_nfts hacc h (r := record) ?_ rfl)
    rw [hrecord]
    rfl
  · rename_i hnone
    cases hex : w.state.accounts[recipient]? with
    | some existing =>
      simp only [ensures_bind, ensures_pure, ensures_failIf]
      intro _
      refine modest_nfts hacc h (r := existing) ?_ rfl
      rw [hnone, hex]
      rfl
    | none =>
      simp only [ensures_bind, ensures_pure, ensures_failIf]
      intro _ _
      refine h.insert_other (fun hs => ?_) _
      rw [hs, hacc] at hex
      cases hex

theorem modest_transferNft (hacc : w.state.accounts[tx.sender]? = some account) (nftId : Bytes32)
    (recipient : AccountId) (pubkey : Bytes) (salePrice : Option ℕ) :
    Ensures (computeTransferNftDiff env w (start env tx) tx.sender nftId recipient pubkey salePrice account)
      fun d => Modest tx.sender account d.accountUpdates := by
  simp only [computeTransferNftDiff, ensures_bind, ensures_okOr, ensures_failIf]
  intro nft _ _
  refine (modest_payRoyalty nft salePrice).mono fun u1 h1 => ?_
  refine (modest_takeNft hacc nftId nft.owner h1).mono fun u2 h2 => ?_
  exact (modest_giveNft hacc nftId recipient pubkey h2).mono fun u3 h3 => ensures_pure.mpr h3

theorem modest_takePayments {pb : StateDiff}
    (hpb : pb.accountUpdates = fromList [(sender, r)]) (hr : r.balance ≤ account.balance) :
    Modest sender account (takePayments (start env tx) pb).accountUpdates := by
  have htake : (takePayments (start env tx) pb).accountUpdates =
      replaceAccounts pb.accountUpdates (start env tx).accountUpdates := rfl
  have hself : slot (fromList [(sender, r)]) sender = some r := (slot_insert _ _ _ _).trans (if_pos rfl)
  intro r' hr'
  rw [htake, Agreement.slot_replaceAccounts, hpb, hself] at hr'
  cases hr'
  exact hr

/-- **The sender's record in the diff of a handler.** -/
theorem modest_computeIntent (hacc : w.state.accounts[tx.sender]? = some account) (timestamp : ℕ)
    (intent : TransactionIntent) (hleaves : LeavesBalance intent) :
    Ensures (computeIntent env w (start env tx) tx.sender timestamp account intent)
      fun d => Modest tx.sender account d.accountUpdates := by
  cases intent with
  | transfer | transferToName | batchTransfer | batchTransferToName | claim | closeCell
  | privateBalanceWithdraw => exact hleaves.elim
  | stake | unstake | withdrawStake | unjail | proposeTokenAuthority | voteTokenAuthority | callSystem =>
    exact ensures_throw.mpr trivial
  | rotateKey newPubkey =>
    simp only [computeIntent, computeRotateKeyDiff, ensures_bind, ensures_failIf, ensures_pure]
    exact fun _ _ => modest_putRecord _ le_rfl
  | mintNFT nftId name uri collection bps recipient =>
    simp only [computeIntent, computeMintNftDiff, ensures_bind, ensures_failIf, ensures_okOr, ensures_pure]
    intro _ _ _ _ _ _ existing hex
    rw [hacc] at hex
    cases hex
    exact modest_insert_self _ le_rfl
  | transferNFT nftId recipient pubkey salePrice => exact modest_transferNft hacc _ _ _ _
  | burnNFT nftId =>
    simp only [computeIntent, computeBurnNftDiff, ensures_bind, ensures_failIf, ensures_pure]
    exact fun _ => modest_putRecord _ le_rfl
  | deployCell cellId bytecode balance reads writes keys specs schemas =>
    simp only [computeIntent, computeDeployCellDiff, ensures_bind, ensures_failIf, ensures_pure]
    intro _ _ _ _
    exact ensures_true.mono fun _ _ => modest_putRecord _ (Nat.sub_le _ _)
  | deployToken cellId name symbol decimals supply bps feeRecipient nonTransferable =>
    simp only [computeIntent, computeDeployTokenDiff, ensures_bind, ensures_failIf, ensures_pure]
    exact fun _ _ => modest_putRecord _ (Nat.sub_le _ _)
  | callCell cellId calldata value gasLimit =>
    simp only [computeIntent, computeCallCellDiff, callSystemCell, callVmCell, ensures_bind, ensures_failIf,
      ensures_okOr, ensures_ite, ensures_pure]
    intro _ _ cell _ _ _
    exact ⟨fun _ _ => modest_payValue _ _ (modest_start env), fun _ _ =>
      ensures_true.mono fun _ _ => modest_payValue _ _ (modest_start env)⟩
  | callCellChain calls gasLimit => exact modest_callChain _ _ _
  | mcpToolCall agentId toolId calldata value gasLimit policyCellId logId time =>
    simp only [computeIntent, ensures_bind]
    exact ensures_true.mono fun _ _ => modest_callChain _ _ _
  | privateBalanceInit cellId agentId enc comm nonce =>
    simp only [computeIntent, circuitInitPrivateBalance, ensures_bind, ensures_failIf, ensures_okOr,
      ensures_pure]
    refine ensures_true.mono fun _ _ => ensures_true.mono fun _ _ _ _ _ _ => ?_
    refine ensures_true.mono fun _ _ _ existing hex _ => ensures_true.mono fun _ _ => ?_
    rw [hacc] at hex
    cases hex
    exact modest_takePayments rfl (Nat.sub_le _ _)
  | privateBalanceDeposit cellId agentId amount enc comm nonce old =>
    simp only [computeIntent, circuitDeposit, ensures_bind, ensures_failIf, ensures_okOr, ensures_pure]
    refine ensures_true.mono fun _ _ => ensures_true.mono fun _ _ _ => ?_
    refine ensures_true.mono fun _ _ existing hex _ => ensures_true.mono fun _ _ _ _ _ _ => ?_
    refine ensures_true.mono fun _ _ => ensures_true.mono fun _ _ => ?_
    rw [hacc] at hex
    cases hex
    exact modest_takePayments rfl (Nat.sub_le _ _)
  | submitOracleReveal requestId body status =>
    simp only [computeIntent, computeOracleRevealDiff, ensures_bind, ensures_failIf, ensures_okOr,
      ensures_ite, ensures_pure]
    intro _ _ _ _ _ _ _ _ _ _
    exact ⟨fun _ => ensures_true.mono fun _ _ => modest_start env, fun _ => modest_start env⟩
  | _ =>
    simp only [computeIntent, computeDepositComputeDiff,
      computeWithdrawComputeDiff, computeWrapTrthDiff, computeUnwrapTrthDiff, computeApproveNftDiff,
      computeUpgradeCellDiff, computeTransferOwnershipDiff,
      computeMakeImmutableDiff, computeProposeCellUpgradeDiff,
      computeProposeCellOwnershipTransferDiff, computeProposeCellMakeImmutableDiff,
      computeVoteCellProposalDiff, computeExecuteCellProposalDiff, computeTokenTransferDiff,
      computeTokenMintDiff, computeTokenBurnDiff, computeTokenFreezeDiff, computeProposeUrlDiff,
      computeVoteUrlDiff, computeReportMaliciousUrlDiff, computeSetCellVisibilityDiff,
      computeOracleCommitDiff, circuitConfidentialTransfer, redeploy, takeCells, ensures_bind,
      ensures_failIf, ensures_okOr, ensures_pure]
    repeat intro
    exact modest_start env _ ‹_›

end Records

end TruthLinked.Ledger.Demand
