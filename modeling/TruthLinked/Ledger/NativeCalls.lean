import TruthLinked.Ledger.Runs
import TruthLinked.Ledger.Slots

/-! # Transactions that call a native cell

The diff of a call of a system cell, and what it leaves of the cell and of the parameters once it is applied,
for the calls that write storage, move money and set parameters and do nothing else. -/

namespace TruthLinked.Ledger.NativeCalls

open Core.Types Runtime.Cells Runtime.Types Ledger.Model Ledger.Phases Ledger.Execution Ledger.SystemCells
open Ledger.Mcp Ledger.ComputeCells Ledger.CallSpecs Ledger.CellSpecs Ledger.Apply Ledger.ApplySpec
open Ledger.ComputeSpec Lib.Except Lib.Keyed Lib.Phase

variable {env : Env} {w : World} {tx : Transaction} {cellId : AccountId} {cell : CellAccount} {calldata : Bytes}
  {value gasLimit gas : ℕ} {account : AccountRecord} {f : Fees}

/-- The diff of a call of a system cell. -/
def callDiff (env : Env) (tx : Transaction) (cellId : AccountId) (value : ℕ) (account : AccountRecord)
    (r : ExecutionResult) : StateDiff :=
  let diff := addTransfers r (start env tx)
  let diff := { diff with cellUpdates := diff.cellUpdates ++
    if r.storageDiff = [] then [] else [.storageChange cellId (fromList r.storageDiff)] }
  let diff := payValue diff tx.sender value account
  { diff with cellCredits := diff.cellCredits ++ if 0 < value then [(cellId, value)] else [] }

theorem computeIntent_native {d : StateDiff} (hsystem : isSystemCell env cellId = true)
    (hcell : w.state.cells.cells[cellId]? = some cell)
    (h : computeIntent env w (start env tx) tx.sender tx.timestamp account
      (.callCell cellId calldata value gasLimit) = .ok d) :
    ∃ r, SystemCells.handler env cellId calldata tx.sender cell.storage w.state.staking.currentHeight
      value w.state =
      .ok r ∧ d = callDiff env tx cellId value account r := by
  simp only [computeIntent, computeCallCellDiff, failIf_bind_ok, hcell, okOr_bind_ok, Option.some.injEq,
    exists_eq_left', hsystem, if_true, callSystemCell, pure_eq_ok] at h
  obtain ⟨-, -, -, -, hsuccess, rfl⟩ := h
  cases hr : SystemCells.handler env cellId calldata tx.sender cell.storage w.state.staking.currentHeight value
      w.state with
  | error e =>
    have hdispatch : dispatch env cellId calldata tx.sender cell.storage w.state.staking.currentHeight
        value gasLimit
        w.state = err e gasLimit := by rw [dispatch, hr]
    rw [hdispatch] at hsuccess
    exact absurd rfl hsuccess
  | ok r =>
    have hdispatch : dispatch env cellId calldata tx.sender cell.storage w.state.staking.currentHeight
        value gasLimit
        w.state = r := by rw [dispatch, hr]
    rw [hdispatch]
    exact ⟨r, rfl, rfl⟩

/-- A diff without names, authorities and oracle updates. -/
structure Nameless (d : StateDiff) : Prop where
  nameFee : d.nameFee = 0
  oracleUpdates : d.oracleUpdates = []
  frozen : d.frozenAccountUpdates = []
  proposals : d.pendingNameProposals = []
  authorities : d.pendingTokenAuthorityProposals = []
  votes : d.tokenAuthorityVotes = []
  renewals : d.nameRenewals = []
  transfers : d.nameTransfers = []
  claims : d.airdropClaims = []

theorem cells_applied {d : StateDiff} (h : Nameless d) :
    (applied env d w).state.cells = balancedCells d (runAll (cellEffect env) d.cellUpdates w.state.cells) := by
  unfold applied
  rw [h.nameFee, h.oracleUpdates]
  simp only [applyNames, settleNames, proposeNames, h.frozen, h.proposals, h.authorities, h.votes, h.renewals,
    h.transfers, h.claims, runAll_nil]
  rw [← recordTransaction_cells d w.state]
  rfl

theorem cells_applied_of_queue {d : StateDiff} (h : Nameless { d with oracleUpdates := [] })
    (hq : ∀ u ∈ d.oracleUpdates, IsQueue u) :
    (applied env d w).state.cells = balancedCells d (runAll (cellEffect env) d.cellUpdates w.state.cells) := by
  have hplain : (applied env { d with oracleUpdates := [] } w).state.cells =
      balancedCells d (runAll (cellEffect env) d.cellUpdates w.state.cells) := cells_applied h
  rw [← hplain]
  refine runAll_keeps (E := oracleEffect env)
    (P := fun w' => w'.state.cells = (applied env { d with oracleUpdates := [] } w).state.cells)
    (fun u hu w' hw' => ?_) (applied env { d with oracleUpdates := [] } w) rfl
  have hqueue := hq u hu
  cases u with
  | queueRequest r => exact hw'
  | _ => exact hqueue.elim

theorem params_applied {d : StateDiff} (h : Nameless d) :
    (applied env d w).state.params = d.paramUpdates.foldl (fun m (k, v) => m.insert k v) w.state.params := by
  have hrecord : (recordTransaction d w.state).params = w.state.params := by
    unfold recordTransaction
    split <;> rfl
  unfold applied
  rw [h.nameFee, h.oracleUpdates]
  simp only [applyNames, settleNames, proposeNames, h.frozen, h.proposals, h.authorities, h.votes, h.renewals,
    h.transfers, h.claims, runAll_nil]
  rw [← hrecord]
  rfl

section Result
variable {storageDiff : List (Bytes32 × Option Bytes32)} {credits debits : List (AccountId × ℕ)}
  {params : List (Bytes32 × Bytes32)}

/-- A result that writes storage, moves money and sets parameters. -/
def plainResult (gas : ℕ) (storageDiff : List (Bytes32 × Option Bytes32)) (credits debits : List (AccountId × ℕ))
    (params : List (Bytes32 × Bytes32)) : ExecutionResult :=
  ok gas { storageDiff := storageDiff, nativeCredits := credits, cellDebits := debits, paramUpdates := params }

theorem cells_callDiff (hdiff : storageDiff ≠ []) :
    (applied env (withFees tx.sender account f (callDiff env tx cellId value account
        (plainResult gas storageDiff credits debits params))) w).state.cells =
      runAll cellDebitStep debits (runAll cellCreditStep (if 0 < value then [(cellId, value)] else [])
        (cellEffect env (.storageChange cellId (fromList storageDiff)) w.state.cells)) := by
  by_cases hv : 0 < value
  · simp only [callDiff, plainResult, ok, payValue, hv, hdiff, ↓reduceIte]
    rw [cells_applied ⟨rfl, rfl, rfl, rfl, rfl, rfl, rfl, rfl, rfl⟩]
    rfl
  · simp only [callDiff, plainResult, ok, payValue, hv, hdiff, ↓reduceIte]
    rw [cells_applied ⟨rfl, rfl, rfl, rfl, rfl, rfl, rfl, rfl, rfl⟩]
    rfl

theorem params_callDiff (hdiff : storageDiff ≠ []) :
    (applied env (withFees tx.sender account f (callDiff env tx cellId value account
        (plainResult gas storageDiff credits debits params))) w).state.params =
      params.foldl (fun m (k, v) => m.insert k v) w.state.params := by
  by_cases hv : 0 < value
  · simp only [callDiff, plainResult, ok, payValue, hv, hdiff, ↓reduceIte]
    rw [params_applied ⟨rfl, rfl, rfl, rfl, rfl, rfl, rfl, rfl, rfl⟩]
    rfl
  · simp only [callDiff, plainResult, ok, payValue, hv, hdiff, ↓reduceIte]
    rw [params_applied ⟨rfl, rfl, rfl, rfl, rfl, rfl, rfl, rfl, rfl⟩]
    rfl

theorem cellSlot_moved (env : Env) (value : ℕ) (storageDiff : List (Bytes32 × Option Bytes32))
    (hcell : w.state.cells.cells[cellId]? = some cell)
    (hdebits : debits = [] ∨ ∃ amount, debits = [(cellId, amount)]) :
    cellSlot (runAll cellDebitStep debits (runAll cellCreditStep (if 0 < value then [(cellId, value)] else [])
      (cellEffect env (.storageChange cellId (fromList storageDiff)) w.state.cells))) cellId =
      some { cell with
        storage := changeStorage cell.storage (fromList storageDiff)
        balance := cell.balance + value - (debits.map Prod.snd).sum } := by
  have hslot : slot w.state.cells.cells cellId = some cell := hcell
  have hchanged : cellSlot (cellEffect env (.storageChange cellId (fromList storageDiff)) w.state.cells) cellId =
      some { cell with storage := changeStorage cell.storage (fromList storageDiff) } := by
    rw [cellEffect, cellSlot, modifyCell, slot_modify, if_pos rfl, hslot]
    rfl
  have hcredited : cellSlot (runAll cellCreditStep (if 0 < value then [(cellId, value)] else [])
      (cellEffect env (.storageChange cellId (fromList storageDiff)) w.state.cells)) cellId =
      some { cell with
        storage := changeStorage cell.storage (fromList storageDiff), balance := cell.balance + value } := by
    by_cases hv : 0 < value
    · rw [if_pos hv, runAll_cons, runAll_nil, local_cellCredit.at_key (cellId, value), hchanged]
      rfl
    · rw [if_neg hv, runAll_nil, hchanged, Nat.eq_zero_of_not_pos hv]
      rfl
  obtain rfl | ⟨amount, rfl⟩ := hdebits
  · rw [runAll_nil, hcredited]
    rfl
  · rw [runAll_cons, runAll_nil, local_cellDebit.at_key (cellId, amount), hcredited]
    rfl

end Result

end TruthLinked.Ledger.NativeCalls
