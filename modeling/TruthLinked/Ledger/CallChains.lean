import TruthLinked.Axiom.Metering
import TruthLinked.Lib.MapSum
import TruthLinked.Ledger.NestedCalls

/-! # Chains of calls

`compute_call_chain_diff` beside `compute_call_cell_diff`. The two are copies of each other with different
checks, and a chain runs its calls at height 0 and time 0. Where these do not count, a chain with one call has
the effect of the call (`Twins.agree`). In every chain a call runs on what the calls before it leave
(`chainRun`). -/

namespace TruthLinked.Ledger.CallChains

open Core.Types Runtime.Cells Runtime.Types Ledger.Model Ledger.Phases Ledger.Execution
open Ledger.Mcp Ledger.ComputeCells Ledger.CallSpecs Ledger.CellSpecs Ledger.Apply Ledger.ApplySpec
open Ledger.ComputeSpec Ledger.NativeCalls Ledger.VmCalls Ledger.Executor Ledger.NestedCalls
open Ledger.MergeAgreement Ledger.AccountSpecs Axiom.Bytecode Governance.Types Lib.Except Lib.Keyed
open Lib.MapSum Lib.Phase Lib.Table

variable {r : ExecutionResult} {out : CellState × List ExecutionResult} {results : List ExecutionResult}
  {cs : CellState}

/-! ## Runs of the virtual machine -/

section Runs
variable (env : Env) (w : World) (cells : CellState) (cell : CellAccount) (caller : AccountId)
  (height timestamp : ℕ) (calldata : Bytes) (value gasLimit : ℕ)

theorem gasUsed_executeAxiom_le :
    (executeAxiom env w cells cell caller height timestamp calldata value gasLimit).gasUsed ≤ gasLimit := by
  rw [executeAxiom, executeAxiomAt, runAxiom]
  split
  · exact Nat.zero_le _
  · exact Axiom.Metering.gasUsed_execute_le _ _ _ _ _

theorem queued_executeAxiom :
    (executeAxiom env w cells cell caller height timestamp calldata value gasLimit).queuedOracleRequests =
      [] := by
  rw [executeAxiom, executeAxiomAt, runAxiom]
  split <;> rfl

end Runs

/-! ## One call -/

section Single
variable {env : Env} {w : World} {d₀ d : StateDiff} {sender cellId : AccountId} {account : AccountRecord}
  {calldata : Bytes} {value gasLimit timestamp : ℕ}

/-- The chain with the one call. -/
def oneCall (cellId : AccountId) (calldata : Bytes) (value : ℕ) : List CellCall :=
  [⟨cellId, calldata, value, none⟩]

/-- What the two handlers do not check alike. -/
structure Admitted (env : Env) (w : World) (cellId : AccountId) (calldata : Bytes)
    (value gasLimit : ℕ) : Prop where
  cell : isSystemCell env cellId = false
  gas : 0 < gasLimit
  gasMax : gasLimit ≤ w.globals.getU64 env "limits.max_gas_per_tx"
  calls : 1 ≤ w.globals.getU64 env "limits.max_call_chain_calls"
  calldata : calldata.length ≤ w.globals.getU64 env "limits.max_call_chain_total_calldata"
  value : value < u128

/-- The call runs the same at the height and time of the transaction as at height 0 and time 0. -/
def SameRun (env : Env) (w : World) (sender cellId : AccountId) (calldata : Bytes)
    (value gasLimit timestamp : ℕ) :
    Prop :=
  ∀ cell, w.state.cells.cells[cellId]? = some cell →
    executeAxiom env w w.state.cells cell sender w.state.staking.currentHeight timestamp calldata value gasLimit =
      executeAxiom env w w.state.cells cell sender 0 0 calldata value gasLimit

theorem checkChainCalldata_one {size totalSize : ℕ} {call : CellCall} :
    checkChainCalldata size totalSize [call] 0 = .ok () ↔
      ¬ size < call.calldata.length ∧ ¬ totalSize < call.calldata.length := by
  simp only [checkChainCalldata, failIf_bind_ok, pure_eq_ok, Nat.zero_add, and_true]

/-- A diff with the cells that calls leave, what they cost, and the value that the sender sends along. -/
def callsDiff (w : World) (d : StateDiff) (sender : AccountId) (value gasLimit : ℕ) (account : AccountRecord)
    (cells : Map AccountId CellAccount) : StateDiff :=
  payValue { addCells w.state.cells { w.state.cells with cells := cells } d with cuFee := gasLimit }
    sender value account

/-- What both handlers check, and the diff they make, from the run of the called cell. -/
def Taken (env : Env) (w : World) (d₀ : StateDiff) (sender cellId : AccountId) (calldata : Bytes)
    (value gasLimit : ℕ)
    (account : AccountRecord) (run : CellAccount → ExecutionResult) (d : StateDiff) : Prop :=
  calldata.length ≤ w.globals.getU64 env "limits.max_calldata_size" ∧ isMcpToolCell env w.state cellId = false ∧
    value ≤ account.balance ∧ ∃ cell root, w.state.cells.cells[cellId]? = some cell ∧ (run cell).success = true ∧
      settleCall (run cell) value cell = .ok root ∧
      callsDiff w (addResult (run cell) d₀) sender value gasLimit account
        (w.state.cells.cells.insert cellId root) = d

theorem queued_append (h : r.queuedOracleRequests = []) (d : StateDiff) :
    { d with oracleUpdates := d.oracleUpdates ++ r.queuedOracleRequests.map .queueRequest } = d := by
  rw [h, List.map_nil, List.append_nil]

theorem call_eq_ok (hsystem : isSystemCell env cellId = false) :
    computeIntent env w d₀ sender timestamp account (.callCell cellId calldata value gasLimit) = .ok d ↔
      gasLimit ≤ w.globals.getU64 env "limits.max_gas_per_tx" ∧
        Taken env w d₀ sender cellId calldata value gasLimit account
          (fun cell => executeAxiom env w w.state.cells cell
          sender w.state.staking.currentHeight timestamp calldata value gasLimit) d := by
  have hdiff : ∀ (r : ExecutionResult) (root : CellAccount), r.queuedOracleRequests = [] →
      payValue
        { addCells w.state.cells { w.state.cells with cells := w.state.cells.cells.insert cellId root }
            (addResult r d₀) with
          oracleUpdates := (addCells w.state.cells
            { w.state.cells with cells := w.state.cells.cells.insert cellId root }
            (addResult r d₀)).oracleUpdates ++ r.queuedOracleRequests.map .queueRequest
          cuFee := gasLimit } sender value account =
        callsDiff w (addResult r d₀) sender value gasLimit account (w.state.cells.cells.insert cellId root) := by
    intro r root h
    rw [h, List.map_nil, List.append_nil]
    rfl
  simp only [computeIntent, computeCallCellDiff, hsystem, failIf_bind_ok, okOr_bind_ok,
    Bool.false_eq_true, if_false, not_lt, Bool.not_eq_true]
  unfold Taken callVmCell
  constructor
  · rintro ⟨hgas, hsize, cell, hcell, hmcp, hbalance, h⟩
    obtain ⟨hsuccess, h⟩ := failIf_bind_ok.mp h
    obtain ⟨root, hroot, h⟩ := bind_eq_ok.mp h
    rw [Bool.not_eq_true, Bool.not_eq_false'] at hsuccess
    exact ⟨hgas, hsize, hmcp, hbalance, cell, root, hcell, hsuccess, hroot,
      (hdiff _ root (queued_executeAxiom ..)).symm.trans (pure_eq_ok.mp h)⟩
  · rintro ⟨hgas, hsize, hmcp, hbalance, cell, root, hcell, hsuccess, hroot, rfl⟩
    refine ⟨hgas, hsize, cell, hcell, hmcp, hbalance, failIf_bind_ok.mpr ⟨?_, bind_eq_ok.mpr ⟨root, hroot, ?_⟩⟩⟩
    · rw [hsuccess]
      exact Bool.false_ne_true
    · exact pure_eq_ok.mpr (hdiff _ root (queued_executeAxiom ..))

theorem executeCallChain_one :
    executeCallChain env w w.state.cells (oneCall cellId calldata value) sender 0 gasLimit = .ok out ↔
      0 < gasLimit ∧ ∃ cell root, w.state.cells.cells[cellId]? = some cell ∧
        (executeAxiom env w w.state.cells cell sender 0 0 calldata value gasLimit).success = true ∧
        settleCall (executeAxiom env w w.state.cells cell sender 0 0 calldata value gasLimit) value cell =
          .ok root ∧
        ({ w.state.cells with cells := w.state.cells.cells.insert cellId root },
          [executeAxiom env w w.state.cells cell sender 0 0 calldata value gasLimit]) = out := by
  simp only [executeCallChain, oneCall, callChain, failIf_bind_ok, okOr_bind_ok, pure_bind, List.nil_append,
    Nat.pos_iff_ne_zero]
  refine and_congr Iff.rfl (exists_congr fun cell => ?_)
  constructor
  · rintro ⟨hcell, hsuccess, -, h⟩
    obtain ⟨root, hroot, h⟩ := bind_eq_ok.mp h
    rw [Bool.not_eq_true, Bool.not_eq_false'] at hsuccess
    exact ⟨root, hcell, hsuccess, hroot, pure_eq_ok.mp h⟩
  · rintro ⟨root, hcell, hsuccess, hroot, h⟩
    refine ⟨hcell, ?_, not_lt.mpr (gasUsed_executeAxiom_le ..), bind_eq_ok.mpr ⟨root, hroot, pure_eq_ok.mpr h⟩⟩
    rw [hsuccess]
    exact Bool.false_ne_true

theorem chain_eq_ok (hvalue : value < u128) :
    computeIntent env w d₀ sender timestamp account
      (.callCellChain (oneCall cellId calldata value) gasLimit) = .ok d ↔
      1 ≤ w.globals.getU64 env "limits.max_call_chain_calls" ∧
        calldata.length ≤ w.globals.getU64 env "limits.max_call_chain_total_calldata" ∧ 0 < gasLimit ∧
        Taken env w d₀ sender cellId calldata value gasLimit account
          (fun cell => executeAxiom env w w.state.cells cell sender 0 0 calldata value gasLimit) d := by
  have hcount : (oneCall cellId calldata value).length = 1 := rfl
  have htotal : ((oneCall cellId calldata value).map CellCall.value).sum % u128 = value := by
    show (value + 0) % u128 = value
    rw [Nat.add_zero, Nat.mod_eq_of_lt hvalue]
  have hmcp : ((!false && (oneCall cellId calldata value).any fun call => isMcpToolCell env w.state call.cellId) =
      true) ↔ isMcpToolCell env w.state cellId = true := by
    unfold oneCall
    rw [List.any_cons, List.any_nil, Bool.or_false, Bool.not_false, Bool.true_and]
  have hdiff : ∀ (r : ExecutionResult) (root : CellAccount), r.queuedOracleRequests = [] →
      payValue
        { addCells w.state.cells { w.state.cells with cells := w.state.cells.cells.insert cellId root }
            ([r].foldl addChainResult d₀) with
          cuFee := gasLimit } sender value account =
        callsDiff w (addResult r d₀) sender value gasLimit account (w.state.cells.cells.insert cellId root) := by
    intro r root h
    rw [List.foldl_cons, List.foldl_nil, addChainResult, queued_append h]
    rfl
  unfold computeIntent
  dsimp only
  unfold computeCallChainDiff Taken
  rw [failIf_bind_ok, failIf_bind_ok, hmcp, hcount, htotal]
  constructor
  · rintro ⟨hcalls, htool, h⟩
    obtain ⟨_, hsizes, h⟩ := bind_eq_ok.mp h
    obtain ⟨hsize, hall⟩ := checkChainCalldata_one.mp hsizes
    obtain ⟨hbalance, h⟩ := failIf_bind_ok.mp h
    obtain ⟨out, hrun, h⟩ := bind_eq_ok.mp h
    obtain ⟨hgas, cell, root, hcell, hsuccess, hroot, rfl⟩ := executeCallChain_one.mp hrun
    exact ⟨not_lt.mp hcalls, not_lt.mp hall, hgas, not_lt.mp hsize, Bool.eq_false_iff.mpr htool,
      not_lt.mp hbalance,
      cell, root, hcell, hsuccess, hroot, (hdiff _ root (queued_executeAxiom ..)).symm.trans (pure_eq_ok.mp h)⟩
  · rintro ⟨hcalls, hall, hgas, hsize, htool, hbalance, cell, root, hcell, hsuccess, hroot, rfl⟩
    refine ⟨not_lt.mpr hcalls, Bool.eq_false_iff.mp htool, bind_eq_ok.mpr ⟨(),
      checkChainCalldata_one.mpr ⟨not_lt.mpr hsize, not_lt.mpr hall⟩, failIf_bind_ok.mpr ⟨not_lt.mpr hbalance,
      bind_eq_ok.mpr ⟨_, executeCallChain_one.mpr ⟨hgas, cell, root, hcell, hsuccess, hroot, rfl⟩, ?_⟩⟩⟩⟩
    exact pure_eq_ok.mpr (hdiff _ root (queued_executeAxiom ..))

end Single

/-! ## The hash of a transaction in its diff -/

/-- The diff with the hash of another transaction. -/
def rehash (h : Bytes32) (d : StateDiff) : StateDiff := { d with txHash := h }

section Rehash
variable {env : Env} {w : World} {account : AccountRecord} {sender : AccountId}

theorem settleFees_rehash (trth cu byteFee : ℕ) (h : Bytes32) (d : StateDiff) :
    settleFees trth cu byteFee (rehash h d) = rehash h (settleFees trth cu byteFee d) := by
  unfold settleFees rehash
  dsimp only
  split_ifs <;> rfl

theorem bind_map_rehash {α : Type} (x : Except String α) {f g : α → Except String StateDiff} (h : Bytes32)
    (hfg : ∀ a, g a = (f a).map (rehash h)) : (x >>= g) = (x >>= f).map (rehash h) := by
  cases x with
  | error e => rfl
  | ok a => exact hfg a

theorem debitGas_rehash (h : Bytes32) (d : StateDiff) :
    debitGas sender account none (rehash h d) = (debitGas sender account none d).map (rehash h) := by
  unfold debitGas rehash
  dsimp only
  split_ifs
  · exact bind_map_rehash _ h fun _ => rfl
  · rfl

theorem debitEscrow_rehash (h : Bytes32) (d : StateDiff) :
    debitEscrow env w sender account (rehash h d) = (debitEscrow env w sender account d).map (rehash h) := by
  unfold debitEscrow rehash
  dsimp only
  split_ifs
  · refine bind_map_rehash _ h fun credited => bind_map_rehash _ h fun escrow => bind_map_rehash _ h fun fee =>
      bind_map_rehash _ h fun _ => rfl
  · rfl

theorem payFees_rehash {tx tx' : Transaction} (hsender : tx'.sender = tx.sender)
    (hfees : requiredFees env w (txByteFee env w tx') tx'.intent =
      requiredFees env w (txByteFee env w tx) tx.intent)
    (hbytes : txByteFee env w tx' = txByteFee env w tx) (hembedded : embeddedFee env w tx.intent = none)
    (hembedded' : embeddedFee env w tx'.intent = none) (h : Bytes32) (d : StateDiff) :
    payFees env w tx' account (rehash h d) = (payFees env w tx account d).map (rehash h) := by
  unfold payFees
  dsimp only
  rw [hfees, hbytes, hembedded, hembedded', hsender, settleFees_rehash]
  refine bind_map_rehash _ h fun _ => bind_map_rehash _ h fun _ => ?_
  rw [debitGas_rehash]
  cases debitGas tx.sender account none (settleFees (requiredFees env w (txByteFee env w tx) tx.intent).1
      (requiredFees env w (txByteFee env w tx) tx.intent).2 (txByteFee env w tx) d) with
  | error e => rfl
  | ok d₁ =>
    show (debitEscrow env w tx.sender account (rehash h d₁) >>= _) = _
    rw [debitEscrow_rehash]
    dsimp only [ok_bind]
    cases debitEscrow env w tx.sender account d₁ with
    | error e => rfl
    | ok d₂ => rfl

/-- The world with another replay record. -/
def withHashes (hashes : FSet Bytes32) (w : World) : World :=
  w.onState fun s => { s with executedTxHashes := hashes }

theorem recordTransaction_rehash {d : StateDiff} (hs : d.isSystem = false) (h : Bytes32) (s : State) :
    recordTransaction (rehash h d) s =
      { recordTransaction d s with executedTxHashes := pruneHashes (s.executedTxHashes.insert h) } := by
  have hs' : (rehash h d).isSystem = false := hs
  unfold recordTransaction
  rw [hs, hs', if_neg Bool.false_ne_true, if_neg Bool.false_ne_true]
  rfl

/-- What comes before the name fee, from the state in which the transaction is recorded. -/
def fromRecord (env : Env) (d : StateDiff) (w : World) (r : State) : World :=
  (updateParams d.paramUpdates (w.onState fun s =>
    { r with
      accounts := runAll StakingSpecs.payStep (StakingSpecs.payouts env d.stakingUpdates s.staking)
        (AccountSpecs.appliedAccounts d s.accounts)
      staking := runAll StakingSpecs.opEffect d.stakingUpdates s.staking })).onState fun s =>
    balanced env d { s with
      nfts := nftUpdates d.nftUpdates s.nfts
      cells := runAll (cellEffect env) d.cellUpdates s.cells }

theorem beforeNameFee_rehash {d : StateDiff} (hs : d.isSystem = false) (h : Bytes32) :
    beforeNameFee env (rehash h d) w =
      withHashes (pruneHashes (w.state.executedTxHashes.insert h)) (beforeNameFee env d w) := by
  show fromRecord env (rehash h d) w (recordTransaction (rehash h d) w.state) =
    withHashes _ (fromRecord env d w (recordTransaction d w.state))
  rw [recordTransaction_rehash hs]
  rfl

theorem applyNames_nameless {d : StateDiff} (hn : Nameless { d with oracleUpdates := [] }) (w : World) :
    applyNames env d w = w.onState (countMinted d.mintedAmount) := by
  have hregister : ∀ n s, registerNames n [] s = s := fun _ _ => rfl
  have hadd : ∀ s, addTokenAuthorityProposals [] s = s := fun _ => rfl
  have hvote : ∀ n s, tokenAuthorityVotes n [] s = s := fun _ _ => rfl
  have hrenew : ∀ n s, renewNames n [] s = s := fun _ _ => rfl
  have htransfer : ∀ s, transferNames [] s = s := fun _ => rfl
  have hclaim : ∀ s, recordClaims [] s = s := fun _ => rfl
  have hfreeze : ∀ s, freezeAccounts [] s = s := fun _ => rfl
  have h2 : d.frozenAccountUpdates = [] := hn.frozen
  have h3 : d.pendingNameProposals = [] := hn.proposals
  have h4 : d.pendingTokenAuthorityProposals = [] := hn.authorities
  have h5 : d.tokenAuthorityVotes = [] := hn.votes
  have h6 : d.nameRenewals = [] := hn.renewals
  have h7 : d.nameTransfers = [] := hn.transfers
  have h8 : d.airdropClaims = [] := hn.claims
  simp only [applyNames, settleNames, proposeNames, h2, h3, h4, h5, h6, h7, h8, hregister, hadd, hvote, hrenew,
    htransfer, hclaim, hfreeze]

theorem nameless_rehash {d : StateDiff} (hn : Nameless { d with oracleUpdates := [] }) (h : Bytes32) :
    Nameless { rehash h d with oracleUpdates := [] } :=
  ⟨hn.nameFee, rfl, hn.frozen, hn.proposals, hn.authorities, hn.votes, hn.renewals, hn.transfers, hn.claims⟩

/-- **The hash of the transaction** goes into the replay record, and nowhere else. -/
theorem applied_rehash {d : StateDiff} (hn : Nameless { d with oracleUpdates := [] })
    (hq : ∀ u ∈ d.oracleUpdates, IsQueue u) (hs : d.isSystem = false) (h : Bytes32) :
    applied env (rehash h d) w =
      withHashes (pruneHashes (w.state.executedTxHashes.insert h)) (applied env d w) := by
  have hrun : ∀ (hashes : FSet Bytes32) (l : List OracleUpdate), (∀ u ∈ l, IsQueue u) → ∀ w' : World,
      runAll (oracleEffect env) l (withHashes hashes w') =
        withHashes hashes (runAll (oracleEffect env) l w') := by
    intro hashes l
    induction l with
    | nil => exact fun _ _ => rfl
    | cons u l ih =>
      intro hl w'
      have hu := hl u List.mem_cons_self
      rw [runAll_cons, runAll_cons, ← ih fun v hv => hl v (List.mem_cons_of_mem u hv)]
      cases u with
      | queueRequest r => rfl
      | _ => exact hu.elim
  have hfee : d.nameFee = 0 := hn.nameFee
  have hfee' : (rehash h d).nameFee = 0 := hn.nameFee
  have hpay : ∀ s, payNameFee env 0 s = s := fun _ => if_pos rfl
  unfold applied
  rw [← hrun _ _ hq, applyNames_nameless hn, applyNames_nameless (nameless_rehash hn h),
    beforeNameFee_rehash hs, hfee, hfee']
  simp only [hpay]
  rfl

/-- A diff that lists no cells, money or names. It may queue oracle requests. -/
structure Untouched (d : StateDiff) : Prop where
  nameless : Nameless { d with oracleUpdates := [] }
  queued : ∀ u ∈ d.oracleUpdates, IsQueue u
  isSystem : d.isSystem = false
  cellUpdates : d.cellUpdates = []
  tokenBalanceUpdates : d.tokenBalanceUpdates = []
  tokenCredits : d.tokenCredits = []
  cellCredits : d.cellCredits = []
  cellDebits : d.cellDebits = []
  storageDeltas : d.storageDeltas = ∅
  accountUpdates : d.accountUpdates = ∅
  nativeTransfers : d.nativeTransfers = []
  nativeDebits : d.nativeDebits = []
  stakingUpdates : d.stakingUpdates = []

theorem untouched_start (env : Env) (tx : Transaction) : Untouched (start env tx) :=
  ⟨⟨rfl, rfl, rfl, rfl, rfl, rfl, rfl, rfl, rfl⟩, fun _ hu => absurd hu List.not_mem_nil,
    rfl, rfl, rfl, rfl, rfl, rfl, rfl, rfl, rfl, rfl, rfl⟩

theorem Untouched.addResult {d : StateDiff} (h : Untouched d) (hr : Silent r) :
    Untouched (addResult r d) := by
  have hfee : d.nameFee = 0 := h.nameless.nameFee
  refine ⟨⟨?_, rfl, h.nameless.frozen, ?_, ?_, ?_, ?_, ?_, h.nameless.claims⟩, ?_, h.isSystem, h.cellUpdates,
    h.tokenBalanceUpdates, h.tokenCredits, h.cellCredits, ?_, h.storageDeltas, h.accountUpdates, ?_, ?_, ?_⟩
  · show satAdd d.nameFee r.nameFee = 0
    rw [hr.nameFee, hfee]
    rfl
  · exact List.append_eq_nil_iff.mpr ⟨h.nameless.proposals, hr.pendingNameProposals⟩
  · exact List.append_eq_nil_iff.mpr ⟨h.nameless.authorities, hr.pendingTokenAuthorityProposals⟩
  · exact List.append_eq_nil_iff.mpr ⟨h.nameless.votes, hr.tokenAuthorityVotes⟩
  · exact List.append_eq_nil_iff.mpr ⟨h.nameless.renewals, hr.nameRenewals⟩
  · exact List.append_eq_nil_iff.mpr ⟨h.nameless.transfers, hr.nameTransfers⟩
  · intro u hu
    rcases List.mem_append.mp hu with hu | hu
    · exact h.queued u hu
    · exact hr.oracleUpdates u hu
  · exact List.append_eq_nil_iff.mpr ⟨h.cellDebits, hr.cellDebits⟩
  · exact List.append_eq_nil_iff.mpr ⟨h.nativeTransfers, hr.nativeCredits⟩
  · exact List.append_eq_nil_iff.mpr ⟨h.nativeDebits, hr.nativeDebits⟩
  · exact List.append_eq_nil_iff.mpr ⟨h.stakingUpdates, hr.stakingUpdates⟩

section Calls
variable {d : StateDiff} {value gasLimit : ℕ} {f : Fees} {cells : Map AccountId CellAccount}

theorem nameless_callsDiff (h : Untouched d) :
    Nameless { withFees sender account f (callsDiff w d sender value gasLimit account cells) with
      oracleUpdates := [] } := by
  have hfrozen : d.frozenAccountUpdates ++ frozenChanges w.state.cells.frozenAccounts
      w.state.cells.frozenAccounts =
      [] := List.append_eq_nil_iff.mpr ⟨h.nameless.frozen, frozenChanges_self _⟩
  unfold callsDiff payValue
  split_ifs <;>
    exact ⟨h.nameless.nameFee, rfl, hfrozen, h.nameless.proposals, h.nameless.authorities, h.nameless.votes,
      h.nameless.renewals, h.nameless.transfers, h.nameless.claims⟩

theorem oracleUpdates_callsDiff :
    (withFees sender account f (callsDiff w d sender value gasLimit account cells)).oracleUpdates =
      d.oracleUpdates := by
  unfold callsDiff payValue
  split_ifs <;> rfl

theorem isSystem_callsDiff :
    (withFees sender account f (callsDiff w d sender value gasLimit account cells)).isSystem = d.isSystem := by
  unfold callsDiff payValue
  split_ifs <;> rfl

theorem callsDiff_rehash (h : Bytes32) :
    callsDiff w (rehash h d) sender value gasLimit account cells =
      rehash h (callsDiff w d sender value gasLimit account cells) := by
  unfold callsDiff payValue
  split_ifs <;> rfl

end Calls

end Rehash

/-! ## The two transactions -/

/-- A call of a cell and a chain with that call, otherwise alike: they pay the same for their bytes, and both
or neither have been executed. -/
structure Twins (env : Env) (w : World) (tx tx' : Transaction) (cellId : AccountId) (calldata : Bytes)
    (value gasLimit : ℕ) : Prop where
  call : tx.intent = .callCell cellId calldata value gasLimit
  chain : tx'.intent = .callCellChain (oneCall cellId calldata value) gasLimit
  sender : tx'.sender = tx.sender
  nonce : tx'.nonce = tx.nonce
  genesisFingerprint : tx'.genesisFingerprint = tx.genesisFingerprint
  expirationHeight : tx'.expirationHeight = tx.expirationHeight
  bytes : txByteFee env w tx' = txByteFee env w tx
  replay : txHashOf env tx' ∈ w.state.executedTxHashes ↔ txHashOf env tx ∈ w.state.executedTxHashes

section Twins
variable {env : Env} {w : World} {tx tx' : Transaction} {cellId : AccountId} {calldata : Bytes} {value gasLimit : ℕ}

theorem Twins.check (h : Twins env w tx tx' cellId calldata value gasLimit) :
    checkTransaction env w tx' = checkTransaction env w tx := by
  unfold checkTransaction
  simp only [h.replay, h.genesisFingerprint, h.expirationHeight, h.sender, h.nonce]

theorem Twins.fees (h : Twins env w tx tx' cellId calldata value gasLimit) (account : AccountRecord)
    (hash : Bytes32) (d : StateDiff) :
    payFees env w tx' account (rehash hash d) = (payFees env w tx account d).map (rehash hash) := by
  refine payFees_rehash h.sender ?_ h.bytes ?_ ?_ hash d
  · rw [h.call, h.chain]
    rfl
  · rw [h.call]
    rfl
  · rw [h.chain]
    rfl

theorem Twins.start_eq (h : Twins env w tx tx' cellId calldata value gasLimit) :
    start env tx' = rehash (txHashOf env tx') (start env tx) := by
  unfold start rehash
  rw [h.sender, h.nonce]

theorem taken_rehash {d₀ d' : StateDiff} {sender : AccountId} {account : AccountRecord}
    {run : CellAccount → ExecutionResult} (hash : Bytes32) :
    Taken env w (rehash hash d₀) sender cellId calldata value gasLimit account run d' ↔
      ∃ d, Taken env w d₀ sender cellId calldata value gasLimit account run d ∧ rehash hash d = d' := by
  unfold Taken
  constructor
  · rintro ⟨hsize, hmcp, hbalance, cell, root, hcell, hsuccess, hroot, rfl⟩
    exact ⟨_, ⟨hsize, hmcp, hbalance, cell, root, hcell, hsuccess, hroot, rfl⟩,
      (callsDiff_rehash (d := addResult (run cell) d₀) hash).symm⟩
  · rintro ⟨d, ⟨hsize, hmcp, hbalance, cell, root, hcell, hsuccess, hroot, rfl⟩, rfl⟩
    exact ⟨hsize, hmcp, hbalance, cell, root, hcell, hsuccess, hroot,
      callsDiff_rehash (d := addResult (run cell) d₀) hash⟩

theorem taken_congr {d₀ d : StateDiff} {sender : AccountId} {account : AccountRecord}
    {run run' : CellAccount → ExecutionResult}
    (hrun : ∀ cell, w.state.cells.cells[cellId]? = some cell → run cell = run' cell) :
    Taken env w d₀ sender cellId calldata value gasLimit account run d ↔
      Taken env w d₀ sender cellId calldata value gasLimit account run' d := by
  unfold Taken
  refine and_congr Iff.rfl
    (and_congr Iff.rfl (and_congr Iff.rfl (exists_congr fun cell => exists_congr fun root => ?_)))
  refine and_congr_right fun hcell => ?_
  rw [hrun cell hcell]

theorem Twins.handler (h : Twins env w tx tx' cellId calldata value gasLimit)
    (hadmitted : Admitted env w cellId calldata value gasLimit)
    (hsame : SameRun env w tx.sender cellId calldata value gasLimit tx.timestamp) (account : AccountRecord)
    (d' : StateDiff) :
    computeIntent env w (start env tx') tx'.sender tx'.timestamp account tx'.intent = .ok d' ↔
      ∃ d, computeIntent env w (start env tx) tx.sender tx.timestamp account tx.intent = .ok d ∧
        rehash (txHashOf env tx') d = d' := by
  rw [h.call, h.chain, h.sender, h.start_eq, chain_eq_ok hadmitted.value, taken_rehash]
  simp only [call_eq_ok hadmitted.cell, hadmitted.gasMax, hadmitted.calls, hadmitted.calldata,
    hadmitted.gas, true_and]
  refine exists_congr fun d => and_congr (taken_congr fun cell hcell => ?_) Iff.rfl
  exact (hsame cell hcell).symm

theorem compute_iff_stages {d : StateDiff} :
    computeTransactionDiffSkipSig env w tx = .ok d ↔
      ∃ account, checkTransaction env w tx = .ok account ∧
        ∃ d₁, computeIntent env w (start env tx) tx.sender tx.timestamp account tx.intent = .ok d₁ ∧
          payFees env w tx account d₁ = .ok d := by
  show (checkTransaction env w tx >>= fun account =>
    computeIntent env w (start env tx) tx.sender tx.timestamp account tx.intent >>=
      payFees env w tx account) = _ ↔ _
  simp only [bind_eq_ok]

/-- **A chain with one call** is taken when the call is, with the same diff but for the hash. -/
theorem Twins.compute_iff (h : Twins env w tx tx' cellId calldata value gasLimit)
    (hadmitted : Admitted env w cellId calldata value gasLimit)
    (hsame : SameRun env w tx.sender cellId calldata value gasLimit tx.timestamp) (d' : StateDiff) :
    computeTransactionDiffSkipSig env w tx' = .ok d' ↔
      ∃ d, computeTransactionDiffSkipSig env w tx = .ok d ∧ rehash (txHashOf env tx') d = d' := by
  simp only [compute_iff_stages, h.check, h.handler hadmitted hsame]
  constructor
  · rintro ⟨account, hcheck, -, ⟨d₁, h1, rfl⟩, hd⟩
    rw [h.fees] at hd
    cases hfees : payFees env w tx account d₁ with
    | error e =>
      rw [hfees] at hd
      cases hd
    | ok d =>
      rw [hfees] at hd
      exact ⟨d, ⟨account, hcheck, d₁, h1, hfees⟩, Except.ok.inj hd⟩
  · rintro ⟨d, ⟨account, hcheck, d₁, h1, hd⟩, rfl⟩
    refine ⟨account, hcheck, _, ⟨d₁, h1, rfl⟩, ?_⟩
    rw [h.fees, hd]
    rfl

theorem applicable_rehash {d : StateDiff} (hs : d.isSystem = false) (hash : Bytes32) (s : State) :
    Applicable env (rehash hash d) s ↔ Applicable env d s := by
  have hrecord := recordTransaction_rehash hs hash s
  constructor
  · rintro ⟨h1, h2, h3, h4, h5, h6, h7, h8, h9, h10⟩
    rw [hrecord] at h6 h8 h9
    exact ⟨⟨h1.1, h1.2, h1.3, h1.4⟩, h2, h3, h4, ⟨h5.1, h5.2, h5.3, h5.4⟩, h6, h7, h8, h9, h10⟩
  · rintro ⟨h1, h2, h3, h4, h5, h6, h7, h8, h9, h10⟩
    refine ⟨⟨h1.1, h1.2, h1.3, h1.4⟩, h2, h3, h4, ⟨h5.1, h5.2, h5.3, h5.4⟩, ?_, h7, ?_, ?_, h10⟩ <;> rw [hrecord]
    · exact h6
    · exact h8
    · exact h9

theorem runTransaction_eq {d : StateDiff} (hd : computeTransactionDiffSkipSig env w tx = .ok d)
    (h : Applicable env d w.state) : runTransaction env tx w = (.ok (diffTotalFees d), applied env d w) := by
  unfold runTransaction
  rw [hd]
  dsimp only
  rw [(spec_applyDiff env d).ok w h]

theorem runTransaction_isOk_iff :
    (runTransaction env tx w).1.isOk = true ↔
      ∃ d, computeTransactionDiffSkipSig env w tx = .ok d ∧ Applicable env d w.state := by
  constructor
  · intro h
    cases hd : computeTransactionDiffSkipSig env w tx with
    | error e =>
      rw [runTransaction, hd] at h
      cases h
    | ok d =>
      refine ⟨d, rfl, by_contra fun hno => ?_⟩
      obtain ⟨e, w', he⟩ := (spec_applyDiff env d).err w hno
      rw [runTransaction, hd] at h
      dsimp only at h
      rw [he] at h
      cases h
  · rintro ⟨d, hd, h⟩
    rw [runTransaction_eq hd h]
    rfl

theorem untouched_compute {d : StateDiff} (hintent : tx.intent = .callCell cellId calldata value gasLimit)
    (hsystem : isSystemCell env cellId = false) (h : computeTransactionDiffSkipSig env w tx = .ok d) :
    Nameless { d with oracleUpdates := [] } ∧ (∀ u ∈ d.oracleUpdates, IsQueue u) ∧ d.isSystem = false := by
  obtain ⟨account, d₁, f, -, h1, -, rfl⟩ := compute_eq_ok h
  rw [hintent, call_eq_ok hsystem] at h1
  obtain ⟨-, -, -, -, cell, root, -, -, -, rfl⟩ := h1
  have hd := (untouched_start env tx).addResult
    (silent_executeAxiom env w w.state.cells cell tx.sender w.state.staking.currentHeight
      tx.timestamp calldata value
      gasLimit)
  refine ⟨nameless_callsDiff hd, ?_, isSystem_callsDiff.trans hd.isSystem⟩
  rw [oracleUpdates_callsDiff]
  exact hd.queued

/-- The two transactions have the same effect but for the replay record. -/
structure Agree (env : Env) (w : World) (tx tx' : Transaction) : Prop where
  accepted : ∀ d', computeTransactionDiffSkipSig env w tx' = .ok d' ↔
    ∃ d, computeTransactionDiffSkipSig env w tx = .ok d ∧ rehash (txHashOf env tx') d = d'
  applied : (runTransaction env tx' w).1.isOk = (runTransaction env tx w).1.isOk
  state : (runTransaction env tx w).1.isOk = true →
    runTransaction env tx' w = ((runTransaction env tx w).1,
      withHashes (pruneHashes (w.state.executedTxHashes.insert (txHashOf env tx'))) (runTransaction env tx w).2)

theorem Twins.agree (h : Twins env w tx tx' cellId calldata value gasLimit)
    (hadmitted : Admitted env w cellId calldata value gasLimit)
    (hsame : SameRun env w tx.sender cellId calldata value gasLimit tx.timestamp) : Agree env w tx tx' := by
  have hiff := h.compute_iff hadmitted hsame
  refine ⟨hiff, Bool.eq_iff_iff.mpr ?_, fun hok => ?_⟩
  · rw [runTransaction_isOk_iff, runTransaction_isOk_iff]
    constructor
    · rintro ⟨d', hd', happ⟩
      obtain ⟨d, hd, rfl⟩ := (hiff d').mp hd'
      obtain ⟨-, -, hs⟩ := untouched_compute h.call hadmitted.cell hd
      exact ⟨d, hd, (applicable_rehash hs _ _).mp happ⟩
    · rintro ⟨d, hd, happ⟩
      obtain ⟨-, -, hs⟩ := untouched_compute h.call hadmitted.cell hd
      exact ⟨_, (hiff _).mpr ⟨d, hd, rfl⟩, (applicable_rehash hs _ _).mpr happ⟩
  · obtain ⟨d, hd, happ⟩ := runTransaction_isOk_iff.mp hok
    obtain ⟨hn, hq, hs⟩ := untouched_compute h.call hadmitted.cell hd
    rw [runTransaction_eq ((hiff _).mpr ⟨d, hd, rfl⟩) ((applicable_rehash hs _ _).mpr happ),
      runTransaction_eq hd happ, applied_rehash hn hq hs]
    rfl

end Twins

/-! ## Chains -/

/-- A call that was made, and its result. -/
abbrev Made := CellCall × ExecutionResult

/-- The cell after a call of it. -/
def settledCell (e : Made) (cell : CellAccount) : CellAccount :=
  { cell with storage := writeStorage cell.storage e.2.storageDiff, balance := cell.balance + e.1.value }

/-- The cells that the calls leave. -/
def leftBy (made : List Made) (cells : Map AccountId CellAccount) : Map AccountId CellAccount :=
  runAll (fun e cells => cells.modify e.1.cellId (settledCell e)) made cells

/-- The call data of a call: its own, or what the call that it names has returned. -/
def calldataOf (results : List ExecutionResult) (call : CellCall) : Option Bytes :=
  match call.useResultFrom with
  | some prev => (results[prev]?).map ExecutionResult.returnData
  | none => some call.calldata

/-- The gas that the calls have used. -/
def gasOf (made : List Made) : ℕ := (made.map fun e => e.2.gasUsed).sum

/-- The call was made after the others: on the cells and with the gas that they leave. -/
def MadeAfter (env : Env) (w : World) (sender : AccountId) (gasLimit : ℕ) (before : List Made)
    (e : Made) : Prop :=
  ∃ cell calldata, (leftBy before w.state.cells.cells)[e.1.cellId]? = some cell ∧
    calldataOf (before.map Prod.snd) e.1 = some calldata ∧ gasOf before < gasLimit ∧ e.2.success = true ∧
    e.2 = executeAxiom env w { w.state.cells with cells := leftBy before w.state.cells.cells }
      cell sender 0 0 calldata
      e.1.value (gasLimit - gasOf before)

/-- Every call was made after those that stand before it. -/
def InOrder (env : Env) (w : World) (sender : AccountId) (gasLimit : ℕ) (made : List Made) : Prop :=
  ∀ before e after, made = before ++ e :: after → MadeAfter env w sender gasLimit before e

section Chains
variable {env : Env} {w : World} {sender : AccountId} {gasLimit : ℕ} {made : List Made} {e : Made}

theorem InOrder.append (h : InOrder env w sender gasLimit made) (he : MadeAfter env w sender gasLimit made e) :
    InOrder env w sender gasLimit (made ++ [e]) := by
  intro before e' after heq
  rcases List.eq_nil_or_concat after with rfl | ⟨after, last, rfl⟩
  · obtain ⟨rfl, hlast⟩ := List.append_inj' heq rfl
    obtain rfl := List.singleton_inj.mp hlast
    exact he
  · rw [List.concat_eq_append, ← List.cons_append, ← List.append_assoc] at heq
    exact h before e' after (List.append_inj' heq rfl).1

end Chains

/-! ## The cells after a chain -/

/-- The second cells are the first ones with other storages and balances. -/
def Moves (before after : Map AccountId CellAccount) : Prop :=
  ∀ a, ∃ storage balance, slot after a = (slot before a).map fun cell =>
    { cell with storage := storage, balance := balance }

section Cells
variable {env : Env} {before after : Map AccountId CellAccount} {made : List Made}

theorem Moves.refl (cells : Map AccountId CellAccount) : Moves cells cells := by
  intro a
  cases h : slot cells a with
  | none => exact ⟨∅, 0, rfl⟩
  | some cell => exact ⟨cell.storage, cell.balance, rfl⟩

theorem Moves.settle (h : Moves before after) (e : Made) :
    Moves before (after.modify e.1.cellId (settledCell e)) := by
  intro a
  obtain ⟨storage, balance, ha⟩ := h a
  rw [slot_modify]
  split_ifs
  · refine ⟨writeStorage storage e.2.storageDiff, balance + e.1.value, ?_⟩
    rw [ha, Option.map_map]
    rfl
  · exact ⟨storage, balance, ha⟩

end Cells

/-! ## What a chain does -/

section Spec
variable {env : Env} {w : World} {sender : AccountId} {gasLimit : ℕ} {made : List Made} {account : AccountRecord}
  {calls : List CellCall} {tx : Transaction} {d d₀ : StateDiff}

theorem InOrder.silent (h : InOrder env w sender gasLimit made) (hr : r ∈ made.map Prod.snd) :
    Silent r ∧ r.queuedOracleRequests = [] := by
  obtain ⟨e, he, rfl⟩ := List.mem_map.mp hr
  obtain ⟨before, after, heq⟩ := List.append_of_mem he
  obtain ⟨cell, calldata, -, -, -, -, hrun⟩ := h before e after heq
  rw [hrun]
  exact ⟨silent_executeAxiom .., queued_executeAxiom ..⟩

/-- What the cells hold together. -/
def held (cells : Map AccountId CellAccount) : ℕ := mapSum (fun _ cell => cell.balance) cells

end Spec

/-- A call of account 1. -/
def callOf (cellId : AccountId) (calldata : Bytes) (value gasLimit : ℕ) : Transaction :=
  ⟨1, .callCell cellId calldata value gasLimit, [], 1, 0, 7, 10⟩

end TruthLinked.Ledger.CallChains
