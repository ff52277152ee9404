import TruthLinked.Ledger.SystemCells
import TruthLinked.Ledger.AccountSpecs

/-! # What a call of a cell asks for

A run of the virtual machine only changes storage and queues oracle requests (`Silent`). A system cell asks
besides for staking operations, payments out of the cell, name and parameter updates; which ones can be
read off the call data and the storage of the cell (`Asks`). -/

namespace TruthLinked.Ledger.CallSpecs

open Core.Types Runtime.Cells Runtime.Types Staking.State Ledger.Model Ledger.Execution Ledger.SystemCells
open Lib.Except

/-! ## Results of the virtual machine -/

/-- An oracle update that only queues a request. -/
def IsQueue : OracleUpdate → Prop
  | .queueRequest _ => True
  | _ => False

/-- The result asks for nothing but storage changes and oracle requests. -/
structure Silent (r : ExecutionResult) : Prop where
  stakingUpdates : r.stakingUpdates = []
  nativeCredits : r.nativeCredits = []
  nativeDebits : r.nativeDebits = []
  cellDebits : r.cellDebits = []
  nameFee : r.nameFee = 0
  pendingNameProposals : r.pendingNameProposals = []
  nameVotes : r.nameVotes = []
  nameRenewals : r.nameRenewals = []
  nameTransfers : r.nameTransfers = []
  pendingTokenAuthorityProposals : r.pendingTokenAuthorityProposals = []
  tokenAuthorityVotes : r.tokenAuthorityVotes = []
  paramUpdates : r.paramUpdates = []
  oracleUpdates : ∀ u ∈ r.oracleUpdates, IsQueue u

theorem silent_runAxiom (env : Env) (w : World) (bytecode : Bytes) (storage : Map Bytes32 Bytes32)
    (ctx : CallContext) (gasLimit depth : ℕ)
    (call : AccountId → Bytes → ℕ → ℕ → Except Axiom.Bytecode.AxiomError Axiom.Machine.CrossCellResult) :
    Silent (runAxiom env w bytecode storage ctx gasLimit depth call) := by
  rw [runAxiom]
  split
  · exact ⟨rfl, rfl, rfl, rfl, rfl, rfl, rfl, rfl, rfl, rfl, rfl, rfl, fun u hu =>
      absurd hu List.not_mem_nil⟩
  · refine ⟨rfl, rfl, rfl, rfl, rfl, rfl, rfl, rfl, rfl, rfl, rfl, rfl, fun u hu => ?_⟩
    obtain ⟨req, -, rfl⟩ := List.mem_map.mp hu
    trivial

theorem silent_executeAxiom (env : Env) (w : World) (cells : CellState) (cell : CellAccount)
    (caller : AccountId) (height timestamp : ℕ) (calldata : Bytes) (value gasLimit : ℕ) :
    Silent (executeAxiom env w cells cell caller height timestamp calldata value gasLimit) :=
  silent_runAxiom ..

theorem callChain_invariant {env : Env} {w : World} {sender : AccountId} {height : ℕ}
    {I : List CellCall → CellState → List ExecutionResult → Prop}
    (hstep : ∀ call calls cells results cell target calldata gas,
      I (call :: calls) cells results → cells.cells[call.cellId]? = some cell →
      settleCall (executeAxiom env w cells cell sender height 0 calldata call.value gas) call.value cell =
        .ok target →
      I calls { cells with cells := cells.cells.insert call.cellId target }
        (results ++ [executeAxiom env w cells cell sender height 0 calldata call.value gas]))
    (calls : List CellCall) (idx : ℕ) (cells : CellState) (results : List ExecutionResult)
    (remaining : ℕ) (h : I calls cells results) :
    Ensures (callChain env w sender height calls idx cells results remaining)
      fun out => I [] out.1 out.2 := by
  induction calls generalizing idx cells results remaining with
  | nil => simpa [callChain] using h
  | cons call calls ih =>
    simp only [callChain, ensures_bind, ensures_failIf]
    intro _
    cases call.useResultFrom with
    | none =>
      simp only [ensures_pure, ensures_okOr, ensures_bind, ensures_failIf]
      intro cell hcell _ _ target htarget
      exact ih _ _ _ _ (hstep call calls cells results cell target _ _ h hcell htarget)
    | some prev =>
      simp only [ensures_okOr, ensures_bind, ensures_failIf]
      intro calldata _ cell hcell _ _ target htarget
      exact ih _ _ _ _ (hstep call calls cells results cell target _ _ h hcell htarget)

theorem silent_executeCallChain (env : Env) (w : World) (cells : CellState) (calls : List CellCall)
    (sender : AccountId) (height gasLimit : ℕ) :
    Ensures (executeCallChain env w cells calls sender height gasLimit)
      fun out => ∀ r ∈ out.2, Silent r := by
  refine callChain_invariant (I := fun _ _ results => ∀ r ∈ results, Silent r) ?_ calls 0 cells [] gasLimit
    fun r hr => absurd hr List.not_mem_nil
  intro call calls cells results cell target calldata gas h _ _ r hr
  rcases List.mem_append.mp hr with hr | hr
  · exact h r hr
  · rw [List.mem_singleton.mp hr]
    exact silent_executeAxiom ..

/-! ## Results of the system cells -/

/-- The result asks for the staking operations `ops` and the payments `pays` out of cell `cellId`; it takes
nothing from an account, updates at most one parameter, and then no name. -/
structure Asks (cellId : AccountId) (ops : List StakingUpdate) (pays : List (AccountId × ℕ))
    (r : ExecutionResult) : Prop where
  stakingUpdates : r.stakingUpdates = ops
  nativeCredits : r.nativeCredits = pays
  cellDebits : r.cellDebits = pays.map fun p => (cellId, p.2)
  nativeDebits : r.nativeDebits = []
  params : r.paramUpdates = [] ∨
    (r.paramUpdates.length = 1 ∧ r.pendingNameProposals = [] ∧ r.nameRenewals = [])

theorem asks_nothing {cellId : AccountId} {gas : ℕ} {storageDiff : List (Bytes32 × Option Bytes32)} :
    Asks cellId [] [] (ok gas { storageDiff := storageDiff }) := ⟨rfl, rfl, rfl, rfl, .inl rfl⟩

/-- The operation a method of the staking cell stands for, with its amount at `off`. -/
def operation (method pubkey cd : Bytes) (off : ℕ) : List StakingUpdate :=
  let amount := leNat (slice cd off (off + 8))
  if method = sel "stake" then [.stake pubkey amount]
  else if method = sel "unstake" then [.unstake pubkey amount]
  else if method = sel "withdraw" then [.withdraw pubkey]
  else if method = sel "unjail" then [.unjail pubkey]
  else []

theorem readLe_eq_some {n : ℕ} {raw : Bytes} {pos v : ℕ} (h : readLe n raw pos = some v) :
    v = leNat (slice raw pos (pos + n)) := by
  rw [readLe] at h
  split_ifs at h
  cases h
  rfl

theorem asks_stakingOp (cellId : AccountId) (method pubkey cd : Bytes) (off : ℕ) :
    Ensures (stakingOp method pubkey cd off) (Asks cellId (operation method pubkey cd off) []) := by
  rw [stakingOp, operation]
  split_ifs
  · simp only [ensures_bind, ensures_okOr, ensures_failIf, ensures_pure]
    intro amount h _
    rw [← readLe_eq_some h]
    exact ⟨rfl, rfl, rfl, rfl, .inl rfl⟩
  · simp only [ensures_bind, ensures_okOr, ensures_failIf, ensures_pure]
    intro amount h _
    rw [← readLe_eq_some h]
    exact ⟨rfl, rfl, rfl, rfl, .inl rfl⟩
  all_goals exact ensures_pure.mpr ⟨rfl, rfl, rfl, rfl, .inl rfl⟩

/-- The method without its `_for`. -/
def withoutFor (s : Bytes) : Bytes :=
  if s = sel "stake_for" then sel "stake"
  else if s = sel "unstake_for" then sel "unstake"
  else if s = sel "withdraw_for" then sel "withdraw"
  else sel "unjail"

/-- The staking operation that the call data of the staking cell spells. -/
def stakingRequest (cd : Bytes) : List StakingUpdate :=
  let s := readSel cd
  if s ∈ [sel "delegate_add", sel "delegate_remove"] then []
  else if s ∈ [sel "lock", sel "extend", sel "unlock"] then []
  else if s ∈ [sel "stake", sel "unstake", sel "withdraw", sel "unjail"] then
    operation s (slice cd 4 (4 + pubkeyLen)) cd (4 + pubkeyLen)
  else operation (withoutFor s) (slice cd 36 (36 + pubkeyLen)) cd (36 + pubkeyLen)

/-- What `unlock` pays: the locked amount of the owner in the call data. -/
def unlockPayment (env : Env) (cd : Bytes) (storage : Storage) : List (AccountId × ℕ) :=
  let s := readSel cd
  let owner := toBytes32 (slice cd 4 36)
  if s ∈ [sel "delegate_add", sel "delegate_remove"] then []
  else if s = sel "lock" ∨ s = sel "extend" then []
  else if s = sel "unlock" then
    [(owner, (((storage[stakingValueSlot env owner]?).map unpackStakingPosition).getD (0, 0)).1)]
  else []

theorem read32_eq_some {cd : Bytes} {off : ℕ} {v : Bytes32} (h : read32 cd off = some v) :
    v = toBytes32 (slice cd off (off + 32)) := by
  rw [read32] at h
  split_ifs at h
  cases h
  rfl

theorem readPubkey_eq_some {cd : Bytes} {off : ℕ} {v : Bytes} (h : readPubkey cd off = some v) :
    v = slice cd off (off + pubkeyLen) := by
  rw [readPubkey] at h
  split_ifs at h
  cases h
  rfl

theorem asks_stakingPosition (env : Env) (cd : Bytes) (caller : AccountId) (storage : Storage)
    (height value : ℕ) (hdel : readSel cd ∉ [sel "delegate_add", sel "delegate_remove"])
    (hpos : readSel cd ∈ [sel "lock", sel "extend", sel "unlock"]) :
    Ensures (stakingPosition env cd caller storage height value)
      (Asks (stakingSystemCellId env) [] (unlockPayment env cd storage)) := by
  simp only [stakingPosition, ensures_bind, ensures_okOr, ensures_failIf, ensures_ite, ensures_pure,
    unlockPayment, if_neg hdel]
  refine fun owner howner _ => ⟨fun hlock _ _ _ => ?_, fun hlock _ => ⟨fun hext _ _ _ => ?_, fun hext _ => ?_⟩⟩
  · rw [if_pos (Or.inl hlock)]
    exact asks_nothing
  · rw [if_pos (Or.inr hext)]
    exact asks_nothing
  · have hunlock : readSel cd = sel "unlock" := by simpa [hlock, hext] using hpos
    rw [if_neg (not_or.mpr ⟨hlock, hext⟩), if_pos hunlock, read32_eq_some howner]
    exact ⟨rfl, rfl, rfl, rfl, .inl rfl⟩

theorem asks_staking (env : Env) (cd : Bytes) (caller : AccountId) (storage : Storage)
    (height value : ℕ) :
    Ensures (staking env cd caller storage height value)
      (Asks (stakingSystemCellId env) (stakingRequest cd) (unlockPayment env cd storage)) := by
  have hnopay : readSel cd ∉ [sel "lock", sel "extend", sel "unlock"] →
      unlockPayment env cd storage = [] := by
    intro hpos
    simp only [List.mem_cons, List.not_mem_nil, or_false, not_or] at hpos
    simp [unlockPayment, hpos]
  simp only [staking, stakingRequest]
  split_ifs with hdel hpos hself hfor
  · have hpay : unlockPayment env cd storage = [] := if_pos hdel
    rw [hpay]
    simp only [stakingDelegate, ensures_bind, ensures_okOr, ensures_pure]
    exact fun _ _ => asks_nothing
  · exact asks_stakingPosition env cd caller storage height value hdel hpos
  · rw [hnopay hpos]
    simp only [stakingSelf, ensures_bind, ensures_okOr, ensures_failIf]
    intro pubkey hpk _
    rw [readPubkey_eq_some hpk]
    exact asks_stakingOp _ _ _ _ _
  · rw [hnopay hpos]
    simp only [stakingFor, ensures_bind, ensures_okOr, ensures_failIf]
    intro pubkey hpk _ _
    rw [readPubkey_eq_some hpk]
    exact asks_stakingOp _ _ _ _ _
  · exact ensures_throw.mpr trivial

/-- What `execute_spend` pays: the amount of the proposal to its recipient. -/
def spendPayment (env : Env) (cd : Bytes) (storage : Storage) : List (AccountId × ℕ) :=
  let id := toBytes32 (slice cd 4 36)
  if readSel cd = sel "propose_spend" ∨ readSel cd = sel "vote_spend" then []
  else if readSel cd = sel "execute_spend" then
    [((storage[treasKey env "proposal.recipient" id]?).getD 0,
      readSlotU128 storage (treasKey env "proposal.amount" id))]
  else []

theorem asks_treasury (env : Env) (cd : Bytes) (caller : AccountId) (storage : Storage) (height : ℕ)
    (s : State) :
    Ensures (treasury env cd caller storage height s)
      (Asks (treasurySystemCellId env) [] (spendPayment env cd storage)) := by
  simp only [treasury, spendPayment]
  by_cases hpropose : readSel cd = sel "propose_spend"
  · rw [if_pos hpropose, if_pos (Or.inl hpropose)]
    simp only [proposeSpend, ensures_bind, ensures_failIf, ensures_okOr, ensures_pure]
    exact fun _ _ _ _ _ _ _ _ _ _ _ => asks_nothing
  by_cases hvote : readSel cd = sel "vote_spend"
  · rw [if_neg hpropose, if_pos hvote, if_pos (Or.inr hvote)]
    simp only [voteSpend, ensures_bind, ensures_failIf, ensures_okOr, ensures_pure]
    exact fun _ _ _ _ _ _ _ => asks_nothing
  rw [if_neg hpropose, if_neg hvote, if_neg (not_or.mpr ⟨hpropose, hvote⟩)]
  split_ifs
  · simp only [executeSpend, ensures_bind, ensures_failIf, ensures_okOr, ensures_pure]
    intro _ id hid _ _ _ _ _
    refine ensures_true.mono fun _ _ _ => ?_
    rw [read32_eq_some hid]
    exact ⟨rfl, rfl, rfl, rfl, .inl rfl⟩
  · exact ensures_throw.mpr trivial

theorem asks_governance (env : Env) (cd : Bytes) (caller : AccountId) (storage : Storage) (height : ℕ)
    (s : State) :
    Ensures (governance env cd caller storage height s) (Asks (governanceSystemCellId env) [] []) := by
  rw [governance]
  split_ifs
  · simp only [getParam, ensures_bind, ensures_okOr, ensures_pure]
    exact fun _ _ => ⟨rfl, rfl, rfl, rfl, .inl rfl⟩
  · simp only [proposeParam, ensures_bind, ensures_failIf, ensures_okOr, ensures_pure]
    exact fun _ _ _ _ _ _ _ _ _ _ _ _ _ _ _ => asks_nothing
  · simp only [voteParam, ensures_bind, ensures_failIf, ensures_okOr, ensures_pure]
    exact fun _ _ _ _ _ _ _ _ _ _ _ _ => asks_nothing
  · simp only [executeParam, ensures_bind, ensures_failIf, ensures_okOr, ensures_pure]
    intro _ _ _ _ _ _ _ _
    exact ensures_true.mono fun _ _ _ => ⟨rfl, rfl, rfl, rfl, .inr ⟨rfl, rfl, rfl⟩⟩
  · exact ensures_throw.mpr trivial

theorem asks_nameRegistry (env : Env) (cd : Bytes) (caller : AccountId) (s : State) (height : ℕ) :
    Ensures (nameRegistry env cd caller s height) (Asks (nameRegistrySystemCellId env) [] []) := by
  rw [nameRegistry]
  split_ifs
  · simp only [proposeName, ensures_bind, ensures_failIf, ensures_okOr, ensures_pure]
    exact fun _ _ _ _ _ _ _ => ⟨rfl, rfl, rfl, rfl, .inl rfl⟩
  · simp only [voteName, ensures_bind, ensures_failIf, ensures_okOr, ensures_pure]
    exact fun _ _ _ => ⟨rfl, rfl, rfl, rfl, .inl rfl⟩
  · simp only [renewName, ensures_bind, ensures_okOr, ensures_pure]
    exact fun _ _ => ⟨rfl, rfl, rfl, rfl, .inl rfl⟩
  · simp only [transferName, ensures_bind, ensures_failIf, ensures_okOr, ensures_pure]
    exact fun _ _ _ _ _ _ _ => ⟨rfl, rfl, rfl, rfl, .inl rfl⟩
  · exact ensures_throw.mpr trivial

/-- The staking operations a call of a system cell asks for. -/
def requestedOps (env : Env) (cellId : AccountId) (cd : Bytes) : List StakingUpdate :=
  if cellId = stakingSystemCellId env then stakingRequest cd else []

/-- The payments a call of a system cell asks for. -/
def requestedPayments (env : Env) (cellId : AccountId) (cd : Bytes) (storage : Storage) :
    List (AccountId × ℕ) :=
  if cellId = stakingSystemCellId env then unlockPayment env cd storage
  else if cellId = governanceSystemCellId env then []
  else if cellId = treasurySystemCellId env then spendPayment env cd storage
  else []

/-- **What a system cell asks for.** -/
theorem asks_handler (env : Env) (cellId : AccountId) (cd : Bytes) (caller : AccountId)
    (storage : Storage) (height value : ℕ) (s : State) :
    Ensures (handler env cellId cd caller storage height value s)
      (Asks cellId (requestedOps env cellId cd) (requestedPayments env cellId cd storage)) := by
  simp only [handler, requestedOps, requestedPayments]
  split_ifs with hst hgov htre hname
  · subst hst
    exact asks_staking env cd caller storage height value
  · subst hgov
    exact asks_governance env cd caller storage height s
  · subst htre
    exact asks_treasury env cd caller storage height s
  · subst hname
    exact asks_nameRegistry env cd caller s height
  · exact ensures_throw.mpr trivial

end TruthLinked.Ledger.CallSpecs
