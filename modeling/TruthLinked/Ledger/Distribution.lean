import TruthLinked.Ledger.SystemCells

/-! # The distribution of the revenue

`compute_treasury_distribution_diff` of `pq_execution.rs`: what has been collected goes to the validators by
stake, to the holders of lock positions by lock-weighted balance, and the rest is burned. The positions and
the vector of holders are read from the storage of the staking cell. -/

namespace TruthLinked.Ledger.Distribution

open Core.Types Runtime.Cells Runtime.Types Staking.State Ledger.Model Ledger.SystemCells Lib.Except

/-- `STAKED_TRTH_MAX_LOCK_BLOCKS`. -/
def stakedTrthMaxLockBlocks : ℕ := 4 * 365 * 432000

/-- The holders in a storage: the elements below the length, an empty slot being skipped. -/
def holdersIn (env : Env) (storage : Storage) : List AccountId :=
  (List.range (readSlotU64 storage (stakingHoldersLenSlot env))).filterMap fun i =>
    storage[stakingHoldersElemSlot env i]?

/-- The lock-weighted balance of an account in a storage, at a height. -/
def weightIn (env : Env) (storage : Storage) (height : ℕ) (account : AccountId) : Option ℕ :=
  if flagAt storage (stakingExistsSlot env account) ≠ 1 then none
  else
    let position := unpackStakingPosition ((storage[stakingValueSlot env account]?).getD 0)
    if position.2 ≤ height then none
    else
      let remaining := min (position.2 - height) stakedTrthMaxLockBlocks
      let weight := satMul position.1 remaining / stakedTrthMaxLockBlocks
      if weight = 0 then none else some (weight % u64)

/-- The storage of the staking cell; with no cell there is nothing to read. -/
def stakingStorage (env : Env) (s : State) : Storage :=
  ((s.cells.cells[stakingSystemCellId env]?).map CellAccount.storage).getD ∅

/-- `load_staking_holders`. -/
def loadStakingHolders (env : Env) (s : State) : List AccountId := holdersIn env (stakingStorage env s)

/-- `staking_balance_of`. -/
def stakingBalanceOf (env : Env) (s : State) (account : AccountId) : Option ℕ :=
  weightIn env (stakingStorage env s) s.staking.currentHeight account

/-- The holders that count, with their lock-weighted balances. -/
def stakingBalances (env : Env) (s : State) : List (AccountId × ℕ) :=
  (loadStakingHolders env s).filterMap fun holder =>
    (stakingBalanceOf env s holder).map fun weight => (holder, weight)

/-- `split_revenue`: the validators' part, the holders' part and what is burned. -/
def splitRevenue (amount : ℕ) : ℕ × ℕ × ℕ :=
  let validators := satMul amount 6000 / 10000
  let staking := satMul amount 2000 / 10000
  (validators, staking, amount - validators - staking)

/-- A saturating `u128` sum. -/
def satSum (xs : List ℕ) : ℕ := xs.foldl satAdd 0

/-- An amount shared out by weight, rounded down; empty shares are left out, and with no weight there are
none. -/
def sharesOf {K : Type} (amount total : ℕ) (weights : List (K × ℕ)) : List (K × ℕ) :=
  if 0 < amount ∧ 0 < total then
    (weights.map fun (k, weight) => (k, satMul amount weight / total)).filter fun e => 0 < e.2
  else []

/-- The part of an amount that its shares leave over. -/
def dustOf {K : Type} (amount : ℕ) (shares : List (K × ℕ)) : ℕ := amount - satSum (shares.map Prod.snd)

/-- `get_active_validators`, in key order. -/
def activeValidators (st : StakingState) : List (Bytes × ℕ) :=
  (st.validators.toList.filter fun (_, v) => v.isActive st.currentHeight).map fun (pk, v) => (pk, v.activeStake)

/-- The revenue of the treasury is taken out of its cell. -/
def debitTreasury (env : Env) (s : State) (revenue : ℕ) : Except String (List CellUpdate) := do
  if 0 < revenue then
    let cell ← okOr s.cells.cells[treasurySystemCellId env]? "Treasury cell not found"
    failIf (cell.balance < revenue) "Treasury balance insufficient for distribution"
    pure [.balanceChange (treasurySystemCellId env) (cell.balance - revenue)]
  else pure []

/-- `compute_treasury_distribution_diff`, with the amount burned (`fee_burned`), which a diff only reports. -/
def computeTreasuryDistributionDiff (env : Env) (s : State) : Except String (StateDiff × ℕ) := do
  let protocol := satAdd (satAdd s.accumulatedGasFees s.accumulatedNameFees) s.accumulatedComputeFeesTlkd
  let revenue := s.accumulatedTreasuryFees
  if satAdd protocol revenue = 0 then pure ({}, 0)
  else
    let (validatorP, stakingP, burnP) := splitRevenue protocol
    let (validatorT, stakingT, burnT) := splitRevenue revenue
    let validatorShare := satAdd validatorP validatorT
    let stakingShare := satAdd stakingP stakingT
    let active := activeValidators s.staking
    let rewards := sharesOf validatorShare (sum64 (active.map Prod.snd)) active
    let balances := stakingBalances env s
    let shares := sharesOf stakingShare (satSum (balances.map Prod.snd)) balances
    let burned :=
      satAdd (satAdd (satAdd burnP burnT) (dustOf validatorShare rewards)) (dustOf stakingShare shares)
    let cellUpdates ← debitTreasury env s revenue
    pure
      ({ isSystem := true
         gasFeeSpent := s.accumulatedGasFees
         nameFeeSpent := s.accumulatedNameFees
         treasuryFeeSpent := s.accumulatedTreasuryFees
         computeFeeSpent := s.accumulatedComputeFeesTlkd
         stakingRewards := rewards.map fun (pk, share) => (accountIdFromPubkey env pk, share)
         nativeTransfers := shares
         cellUpdates := cellUpdates }, burned)

end TruthLinked.Ledger.Distribution
