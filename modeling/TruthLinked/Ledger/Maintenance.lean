import TruthLinked.Ledger.Executor
import TruthLinked.Lib.SortKey

/-! # The end of a block

What a block does after its batch (`run_end_of_block_maintenance` of `pq_execution.rs`): expired oracle
requests and results, collections that have grown too large, the distribution of the gas fees and, at the
end of an epoch, the emission. `execute_batch_with_results` of `streaming_consensus.rs` runs the batch
and then this. Sums and products are reduced as in a release build; a division by zero, on which the node
would panic, gives zero. -/

namespace TruthLinked.Ledger.Maintenance

open Core.Types Runtime.Cells Runtime.Types Governance.Types Staking.State Oracle.Tally Ledger.Model
open Ledger.OracleUpdates Ledger.Apply Ledger.Execution Ledger.Executor Lib.Wp Lib.SortKey

/-! ## Oracle requests and results -/

/-- `slash_validator` for silence; a refusal is logged. -/
def slashSilent (percentage : ℕ) (requestId : Bytes32) (st : StakingState) (pk : Bytes) : StakingState :=
  match computeSlashOutcome st pk percentage with
  | .error _ => st
  | .ok result => (outcome (applySlashOutcome pk (.oracleSilence requestId) result) st).2

/-- `slash_silent_oracle_validators`: those that committed and did not reveal, in key order. -/
def slashSilentOracleValidators (percentage : ℕ) (tally : OracleTally) (requestId : Bytes32)
    (st : StakingState) : StakingState :=
  ((tally.commits.toList.map Prod.fst).filter fun pk => pk ∉ tally.reveals).foldl
    (slashSilent percentage requestId) st

/-- One expired request. One that can be finalised is; any other is dropped with its tally. -/
def expireOracleRequest (env : Env) (w : World) (requestId : Bytes32) : World :=
  let finalized := finalizeOracleRequestIfReady env requestId w
  if requestId ∉ finalized.state.pendingOracleRequests then finalized
  else
    let s := { w.state with pendingOracleRequests := w.state.pendingOracleRequests.erase requestId }
    match s.oraclePending[requestId]? with
    | none => { w with state := s }
    | some tally =>
      { w with
        state := { s with
          oraclePending := s.oraclePending.erase requestId
          staking := slashSilentOracleValidators
            (w.globals.getU64 env "staking.oracle_silence_slash_percentage") tally requestId s.staking } }

/-- `process_oracle_timeouts`. -/
def processOracleTimeouts (env : Env) (currentHeight : ℕ) (w : World) : World :=
  ((w.state.pendingOracleRequests.toList.filter fun e => e.2.expiresAt ≤ currentHeight).map Prod.fst).foldl
    (expireOracleRequest env) w

/-- The results without those of the listed requests, in the state and in the cache. -/
def dropResults (ids : List Bytes32) (w : World) : World where
  state := { w.state with oracleResults := ids.foldl (fun m id => m.erase id) w.state.oracleResults }
  globals := { w.globals with oracleResults := ids.foldl (fun m id => m.erase id) w.globals.oracleResults }

/-- `prune_expired_oracle_results`. -/
def pruneExpiredOracleResults (currentHeight : ℕ) (w : World) : World :=
  dropResults ((w.state.oracleResults.toList.filter fun e => isExpired e.2 currentHeight).map Prod.fst) w

/-! ## Collections of bounded size -/

/-- The oldest entries of a map that has more than `limit`; of two of one age, the one of the smaller key
is older. -/
def surplus {K V : Type} [Ord K] [Std.TransOrd K] (limit : ℕ) (age : V → ℕ) (m : Map K V) : List K :=
  ((sortByKey (fun e => (age e.2, e.1)) m.toList).take (m.size - limit)).map Prod.fst

/-- The map without its surplus. -/
def prune {K V : Type} [Ord K] [Std.TransOrd K] (limit : ℕ) (age : V → ℕ) (m : Map K V) : Map K V :=
  (surplus limit age m).foldl (fun m k => m.erase k) m

/-- `prune_state_collections`. -/
def pruneStateCollections (currentHeight : ℕ) (w : World) : World :=
  let live := w.state.nameRegistry.filter fun _ r => currentHeight ≤ r.expiresAt
  let w := w.onState fun s =>
    { s with nameRegistry := prune 100000 NameRegistration.registeredAt live }
  let w := dropResults (surplus 1000 OracleResult.expiresAt w.state.oracleResults) w
  w.onState fun s =>
    { s with
      schemaRegistry := prune 10000 SchemaEntry.createdAt s.schemaRegistry
      pendingNames := prune 1000 PendingNameRegistration.proposedAt s.pendingNames
      tokenAuthorityProposals := prune 256 TokenAuthorityProposal.createdAt s.tokenAuthorityProposals
      urlProposals := prune 256 UrlProposal.createdAt s.urlProposals
      schemaProposals := prune 256 SchemaProposal.createdAt s.schemaProposals
      airdropClaims := prune 50000 id s.airdropClaims }

/-! ## Gas fees -/

/-- A validator's account, what it gets and its stake. -/
structure GasShare where
  accountId : AccountId
  share : ℕ
  stake : ℕ

/-- The shares of the validators with an account, and the sum of those without. -/
def gasShares (env : Env) (s : State) (fees totalStake : ℕ) : List GasShare × ℕ :=
  s.staking.validators.toList.foldl (fun (updates, unmatched) (pk, v) =>
    if ¬ v.isActive s.staking.currentHeight ∨ v.activeStake = 0 then (updates, unmatched)
    else
      let share := fees * v.activeStake % u128 / totalStake
      if share = 0 then (updates, unmatched)
      else
        let id := accountIdFromPubkey env pk
        if id ∈ s.accounts then (updates ++ [⟨id, share, v.activeStake⟩], unmatched)
        else (updates, satAdd unmatched share)) ([], 0)

/-- The position of the largest stake, the last one of several. -/
def largestStake (updates : List GasShare) : ℕ :=
  (updates.zipIdx.foldl (fun (best, stake) (u, i) =>
    if stake ≤ u.stake then (i, u.stake) else (best, stake)) (0, 0)).1

/-- The sum without an account, handed out by stake; what does not divide goes to the largest stake. -/
def redistribute (updates : List GasShare) (unmatched : ℕ) : List GasShare :=
  let matchedStake := sum64 (updates.map GasShare.stake)
  if unmatched = 0 ∨ updates = [] ∨ matchedStake = 0 then updates
  else
    let extras := updates.map fun u => unmatched * u.stake % u128 / matchedStake
    let dust := unmatched - extras.sum % u128
    let extras := if dust = 0 then extras
      else extras.modify (largestStake updates) fun e => satAdd e dust
    (updates.zip extras).map fun (u, extra) => { u with share := satAdd u.share extra }

/-- `compute_gas_fee_distribution_diff`. -/
def computeGasFeeDistributionDiff (env : Env) (s : State) : StateDiff :=
  let fees := s.accumulatedGasFees
  if fees = 0 then { isSystem := true }
  else
    let totalStake := s.staking.activeTotal
    if totalStake = 0 then { isSystem := true, gasFeeSpent := fees }
    else
      let shares := gasShares env s fees totalStake
      let updates := sortByKey GasShare.accountId (redistribute shares.1 shares.2)
      { isSystem := true
        gasFeeSpent := fees
        nativeTransfers := updates.map fun u => (u.accountId, u.share) }

/-- The distribution at the end of a block: a refusal is logged, what was written before it stays. -/
def distributeGasFees (env : Env) (w : World) : World :=
  if w.state.accumulatedGasFees = 0 then w
  else (outcome (applyDiff env (computeGasFeeDistributionDiff env w.state)) w).2

/-! ## Emission -/

/-- `EMISSION_EPOCH_BLOCKS`. -/
def emissionEpochBlocks : ℕ := 432000

/-- `BLOCKS_PER_YEAR`. -/
def blocksPerYear : ℕ := 105120000

/-- `compute_epoch_emission`. -/
def computeEpochEmission (s : State) (currentHeight : ℕ) : ℕ :=
  let epochNumber := currentHeight / emissionEpochBlocks
  let yearNumber := epochNumber * emissionEpochBlocks / blocksPerYear % 2 ^ 32
  let base := (10000 - 2000) ^ yearNumber % u128
  let denom := 10000 ^ yearNumber % u128
  let yearEmission := satMul (satMul 25000000 1000000000) base / denom
  let epochEmission := yearEmission / (blocksPerYear / emissionEpochBlocks)
  epochEmission - s.accumulatedEpochFees

/-- The emission shared out by stake in key order; the last validator gets what is left. -/
def shareEmission (env : Env) (emission totalStake : ℕ) :
    List (Bytes × ℕ) → ℕ → Map AccountId AccountRecord → Map AccountId AccountRecord
  | [], _, accounts => accounts
  | (pk, stake) :: rest, allocated, accounts =>
    let share := if rest = [] then emission - allocated else satMul emission stake / totalStake
    if share = 0 then shareEmission env emission totalStake rest allocated accounts
    else
      let id := accountIdFromPubkey env pk
      let account := (accounts[id]?).getD (AccountRecord.fresh pk)
      shareEmission env emission totalStake rest (satAdd allocated share)
        (accounts.insert id { account with balance := satAdd account.balance share })

/-- `pay_epoch_emission`. -/
def payEpochEmission (env : Env) (currentHeight : ℕ) (s : State) : State :=
  let epochNumber := currentHeight / emissionEpochBlocks
  if epochNumber ≤ s.lastEmissionEpoch then s
  else
    let emission := computeEpochEmission s currentHeight
    if emission = 0 then { s with accumulatedEpochFees := 0, lastEmissionEpoch := epochNumber }
    else
      let treasury := treasurySystemCellId env
      let paid := min emission ((s.cells.cells[treasury]?.map CellAccount.balance).getD 0)
      if paid = 0 then { s with lastEmissionEpoch := epochNumber }
      else
        let active := (s.staking.validators.toList.filter fun (_, v) =>
          v.isActive s.staking.currentHeight ∧ 0 < v.activeStake).map fun (pk, v) => (pk, v.activeStake)
        let totalStake := sum64 (active.map Prod.snd)
        { s with
          cells := { s.cells with
            cells := s.cells.cells.modify treasury fun c => { c with balance := c.balance - paid } }
          accounts := if totalStake = 0 then s.accounts
            else shareEmission env paid totalStake active 0 s.accounts
          accumulatedEpochFees := 0
          lastEmissionEpoch := epochNumber }

/-! ## Blocks -/

/-- `advance_block_counters`. -/
def advanceBlockCounters (s : State) : State :=
  { s with staking := { s.staking with currentHeight := satAdd64 s.staking.currentHeight 1 } }

/-- `run_end_of_block_maintenance`. -/
def runEndOfBlockMaintenance (env : Env) (currentHeight : ℕ) (w : World) : World :=
  let w := processOracleTimeouts env currentHeight w
  let w := pruneExpiredOracleResults currentHeight w
  let w := pruneStateCollections currentHeight w
  let w := distributeGasFees env w
  if 0 < currentHeight ∧ currentHeight % emissionEpochBlocks = 0 then
    w.onState (payEpochEmission env currentHeight)
  else w

/-- `rehydrate_runtime_globals_from_state`. -/
def rehydrateRuntimeGlobals (w : World) : World :=
  w.onGlobals fun g =>
    { g with
      currentHeight := w.state.staking.currentHeight
      oracleResults := w.state.oracleResults
      cellVisibility := w.state.cellVisibility
      urlProposals := w.state.urlProposals
      paramCache := if w.state.params.isEmpty then g.paramCache else w.state.params }

/-- The counters and the maintenance after a batch. -/
def finishBlock (env : Env) (w : World) : World :=
  let w := w.onState advanceBlockCounters
  let blockHeight := w.state.staking.currentHeight
  runEndOfBlockMaintenance env blockHeight (w.onGlobals fun g => { g with currentHeight := blockHeight })

/-- `execute_batch_with_results`. -/
def executeBatchWithResults (env : Env) (split : List PartResult → Split PartResult) (w : World)
    (batch : List Transaction) : Except String BatchResult := do
  let result ← executeBatchParallel env split (rehydrateRuntimeGlobals w) batch
  pure { result with world := finishBlock env result.world }

/-- `execute_batch`. -/
def executeBatch (env : Env) (split : List PartResult → Split PartResult) (w : World)
    (batch : List Transaction) : Except String World := do
  let result ← executeBatchWithResults env split w batch
  pure result.world

end TruthLinked.Ledger.Maintenance
