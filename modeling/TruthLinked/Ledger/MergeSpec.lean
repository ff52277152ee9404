import TruthLinked.Ledger.ApplySpec

/-! # When `merge_diff_inplace` goes through

The counterpart of `Ledger.ApplySpec` for the second function: the records of the diff are written first,
the payouts of the staking updates come before the payments, and the fees, the hash and the names after
the balances. -/

namespace TruthLinked.Ledger.MergeSpec

open Core.Types Runtime.Types Ledger.Model Ledger.Phases Ledger.OracleUpdates Ledger.Apply
open Ledger.AccountSpecs Ledger.StakingSpecs Ledger.CellSpecs Ledger.ApplySpec Lib.Phase Lib.Keyed

/-- The accounts once the records and the payouts are in. -/
def recordedAccounts (env : Env) (d : StateDiff) (s : State) : Accounts :=
  runAll payStep (payouts env d.stakingUpdates s.staking) (mergeRecords d s.accounts)

/-- The fees as `merge_diff_inplace` collects them. -/
def collected (d : StateDiff) (s : State) : State := if d.isSystem then s else collectFees d s

/-- What `merge_diff_inplace` checks of the state before the diff. -/
structure Mergeable (env : Env) (d : StateDiff) (s : State) : Prop where
  staking : FitsAll OpFits opEffect d.stakingUpdates s.staking
  payouts : ∀ c ∈ payouts env d.stakingUpdates s.staking, (slot (mergeRecords d s.accounts) c.1).isSome ∧
    balanceOf (mergeRecords d s.accounts) c.1 +
      moved c.1 (payouts env d.stakingUpdates s.staking) < u128
  cells : FitsAll CellUpdateFits (cellEffect env) d.cellUpdates s.cells
  accounts : AccountsFit d (recordedAccounts env d s)
  balances : BalancesFit env d (runAll (cellEffect env) d.cellUpdates s.cells)
    (runAll opEffect d.stakingUpdates s.staking)
  gasSpent : d.gasFeeSpent ≤ (collected d s).accumulatedGasFees
  nameSpent : d.nameFeeSpent ≤
    if d.nameFee = 0 ∨ treasurySystemCellId env ∈ (runAll (cellEffect env) d.cellUpdates s.cells).cells
    then s.accumulatedNameFees else satAdd s.accumulatedNameFees d.nameFee
  computeSpent : d.computeFeeSpent ≤ (collected d s).accumulatedComputeFeesTlkd
  treasurySpent : d.treasuryFeeSpent ≤ (collected d s).accumulatedTreasuryFees
  slashes : SlashesKnown (fun q => q ∈ s.urlProposals) d.oracleUpdates

/-- The accounts after the payments. -/
def mergedAccounts (env : Env) (d : StateDiff) (s : State) : Accounts :=
  paidAccounts ofBytes32 d (recordedAccounts env d s)

/-- The state after the phases that come before the fees. -/
def mergedBalances (env : Env) (d : StateDiff) (w : World) : World :=
  w.onState fun s => balanced env d { s with
    accounts := mergedAccounts env d s
    staking := runAll opEffect d.stakingUpdates s.staking
    nfts := nftUpdates d.nftUpdates s.nfts
    cells := runAll (cellEffect env) d.cellUpdates s.cells }

/-- What `merge_diff_inplace` does when it goes through. -/
def merged (env : Env) (d : StateDiff) (w : World) : World :=
  runAll (oracleEffect env) d.oracleUpdates (mergeNames env d
    ((mergedBalances env d w).onState fun s =>
      recordHashes d (spent d (payNameFee env d.nameFee (collected d s)))))

/-- The phases that come before the fees. -/
def firstMerges (env : Env) (d : StateDiff) : StM Unit := do
  modifyState fun s => { s with accounts := mergeRecords d s.accounts }
  each (stakingUpdate env) d.stakingUpdates
  modifyState fun s => { s with nfts := nftUpdates d.nftUpdates s.nfts }
  onCells (each (cellUpdate env) d.cellUpdates)
  onAccounts (mergeTransfers d)
  applyBalances env d

/-- The fees and the phases after them. -/
def lastMerges (env : Env) (d : StateDiff) : StM Unit := do
  modifyState (collected d)
  modifyState (payNameFee env d.nameFee)
  spendFees d
  modifyState (recordHashes d)
  modify (mergeNames env d)
  each (applyOracleUpdate env) d.oracleUpdates

theorem mergeDiffInplace_eq (env : Env) (d : StateDiff) :
    mergeDiffInplace env d = firstMerges env d >>= fun _ => lastMerges env d := by
  simp only [mergeDiffInplace, firstMerges, lastMerges, bind_assoc]
  rfl

/-- What the phases before the fees check. -/
structure FirstMerges (env : Env) (d : StateDiff) (s : State) : Prop where
  staking : FitsAll OpFits opEffect d.stakingUpdates s.staking
  payouts : FitsAll PayFits payStep (payouts env d.stakingUpdates s.staking)
    (mergeRecords d s.accounts)
  cells : FitsAll CellUpdateFits (cellEffect env) d.cellUpdates s.cells
  accounts : AccountsFit d (recordedAccounts env d s)
  balances : BalancesFit env d (runAll (cellEffect env) d.cellUpdates s.cells)
    (runAll opEffect d.stakingUpdates s.staking)

theorem spec_firstMerges (env : Env) (d : StateDiff) :
    Spec (firstMerges env d) (fun w => FirstMerges env d w.state) (mergedBalances env d) := by
  refine ((spec_modifyState _).seq ((spec_each (spec_stakingUpdate env) d.stakingUpdates).seq
    ((spec_modifyState _).seq ((spec_onCells (spec_each (spec_cellUpdate env) d.cellUpdates)).seq
      ((spec_onAccounts (spec_payments ofBytes32 d)).seq (spec_applyBalances env d)))))).congr
    (fun w => ?_) fun w _ => ?_
  · simp only [fitsAll_updateFits, runAll_updateEffect, World.onState_state]
    constructor
    · rintro ⟨h1, h2, h3, h4, h5⟩
      exact ⟨trivial, ⟨h1, h2⟩, trivial, h3, h4, h5⟩
    · rintro ⟨-, ⟨h1, h2⟩, -, h3, h4, h5⟩
      exact ⟨h1, h2, h3, h4, h5⟩
  · simp only [runAll_updateEffect, mergedBalances, World.onState, mergedAccounts, recordedAccounts]

theorem mergeNames_urlProposals (env : Env) (d : StateDiff) (w : World) :
    (mergeNames env d w).state.urlProposals = w.state.urlProposals := by
  simp only [mergeNames, World.onState_state, freezeAccounts, settleNames, recordClaims, nameVotes,
    transferNames, renewNames, tokenAuthorityVotes, proposeNames, addTokenAuthorityProposals,
    registerNames]

theorem recordHashes_urlProposals (d : StateDiff) (s : State) :
    (recordHashes d s).urlProposals = s.urlProposals := by
  rw [recordHashes]
  split_ifs <;> rfl

theorem collected_urlProposals (d : StateDiff) (s : State) :
    (collected d s).urlProposals = s.urlProposals := by
  rw [collected]
  split_ifs <;> rfl

theorem collected_cells (d : StateDiff) (s : State) : (collected d s).cells = s.cells := by
  rw [collected]
  split_ifs <;> rfl

theorem collected_names (d : StateDiff) (s : State) :
    (collected d s).accumulatedNameFees = s.accumulatedNameFees := by
  rw [collected]
  split_ifs <;> rfl

theorem spec_lastMerges (env : Env) (d : StateDiff) :
    Spec (lastMerges env d)
      (fun w => SpendingFits d (payNameFee env d.nameFee (collected d w.state)) ∧
        SlashesKnown (fun q => q ∈ w.state.urlProposals) d.oracleUpdates)
      (fun w => runAll (oracleEffect env) d.oracleUpdates (mergeNames env d (w.onState fun s =>
        recordHashes d (spent d (payNameFee env d.nameFee (collected d s)))))) := by
  refine ((spec_modifyState _).seq ((spec_modifyState _).seq ((spec_spendFees d).seq
    ((spec_modifyState _).seq ((spec_modify _).seq
      (spec_each (spec_applyOracleUpdate env) d.oracleUpdates)))))).congr (fun w => ?_) fun w _ => rfl
  rw [fitsAll_oracleFits]
  simp only [mergeNames_urlProposals, World.onState_state, recordHashes_urlProposals,
    spent_urlProposals, payNameFee_urlProposals, collected_urlProposals]
  constructor
  · rintro ⟨h1, h2⟩
    exact ⟨trivial, trivial, h1, trivial, trivial, h2⟩
  · rintro ⟨-, -, h1, -, -, h2⟩
    exact ⟨h1, h2⟩

/-- **When `merge_diff_inplace` goes through, and what it then does.** -/
theorem spec_mergeDiffInplace (env : Env) (d : StateDiff) :
    Spec (mergeDiffInplace env d) (fun w => Mergeable env d w.state) (merged env d) := by
  rw [mergeDiffInplace_eq]
  refine ((spec_firstMerges env d).seq (spec_lastMerges env d)).congr (fun w => ?_) fun w _ => rfl
  have hurl : (mergedBalances env d w).state.urlProposals = w.state.urlProposals := by
    simp only [mergedBalances, World.onState_state, balanced]
  have hcells : (treasurySystemCellId env ∈ (mergedBalances env d w).state.cells.cells ↔
      treasurySystemCellId env ∈ (runAll (cellEffect env) d.cellUpdates w.state.cells).cells) :=
    mem_balancedCells d _ _
  have hgas : (collected d (mergedBalances env d w).state).accumulatedGasFees =
      (collected d w.state).accumulatedGasFees := by
    simp only [collected, mergedBalances, World.onState_state, balanced]
    split_ifs <;> rfl
  have hname : (mergedBalances env d w).state.accumulatedNameFees = w.state.accumulatedNameFees := by
    simp only [mergedBalances, World.onState_state, balanced]
  have hcomp : (collected d (mergedBalances env d w).state).accumulatedComputeFeesTlkd =
      (collected d w.state).accumulatedComputeFeesTlkd := by
    simp only [collected, mergedBalances, World.onState_state, balanced]
    split_ifs <;> rfl
  have htre : (collected d (mergedBalances env d w).state).accumulatedTreasuryFees =
      (collected d w.state).accumulatedTreasuryFees := by
    simp only [collected, mergedBalances, World.onState_state, balanced]
    split_ifs <;> rfl
  rw [hurl]
  constructor
  · rintro ⟨h1, h2, h3, h4, h5, h6, h7, h8, h9, h10⟩
    refine ⟨⟨h1, (fits_pay _ _).mpr h2, h3, h4, h5⟩, ⟨?_, ?_, ?_, ?_⟩, h10⟩
    · rw [payNameFee_gas, hgas]
      exact h6
    · rw [payNameFee_names, collected_names, collected_cells, hname]
      simp only [hcells]
      exact h7
    · rw [payNameFee_compute, hcomp]
      exact h8
    · rw [payNameFee_treasury, htre]
      exact h9
  · rintro ⟨⟨h1, h2, h3, h4, h5⟩, ⟨h6, h7, h8, h9⟩, h10⟩
    rw [payNameFee_gas, hgas] at h6
    rw [payNameFee_names, collected_names, collected_cells, hname] at h7
    simp only [hcells] at h7
    rw [payNameFee_compute, hcomp] at h8
    rw [payNameFee_treasury, htre] at h9
    exact ⟨h1, (fits_pay _ _).mp h2, h3, h4, h5, h6, h7, h8, h9, h10⟩

end TruthLinked.Ledger.MergeSpec
