import TruthLinked.Ledger.OracleUpdates

/-! # `apply_diff` and `merge_diff_inplace`

The two functions that apply a state diff, phase by phase in the order of the source. -/

namespace TruthLinked.Ledger.Apply

open Core.Types Runtime.Types Ledger.Model Ledger.Phases Ledger.OracleUpdates Lib.Phase

/-- The hash of the transaction is recorded and the fees are collected, unless the diff is a system one. -/
def recordTransaction (d : StateDiff) (s : State) : State :=
  if d.isSystem then s
  else
    collectEpochFees d (collectFees d
      { s with executedTxHashes := pruneHashes (s.executedTxHashes.insert d.txHash) })

/-- The parameter updates, in the state and in the cache. -/
def updateParams (updates : List (Bytes32 × Bytes32)) (w : World) : World where
  state := { w.state with params := updates.foldl (fun m (k, v) => m.insert k v) w.state.params }
  globals := { w.globals with
    paramCache := updates.foldl (fun m (k, v) => m.insert k v) w.globals.paramCache }

/-- The accounts part of `apply_diff`, up to the nonces. -/
def applyAccounts (d : StateDiff) : ExceptT String (StateM Accounts) Unit := do
  nativeTransfers (fun _ => []) d.nativeTransfers
  nativeDebits d.nativeDebits
  escrowCredits (fun _ => []) d.computeEscrowCredits
  escrowDebits d.computeEscrowDebits
  modify fun accounts => raiseNonces d.nonceUpdates (patchAccounts d.accountUpdates accounts)

/-- The loops over token balances, rewards, cell balances and storage, the same in both functions. -/
def applyBalances (env : Env) (d : StateDiff) : StM Unit := do
  onCells (each tokenCredit d.tokenCredits)
  modifyState fun s => { s with cells := setTokenBalances d.tokenBalanceUpdates s.cells }
  onStaking (each (stakingReward env) d.stakingRewards)
  onCells (each cellCredit d.cellCredits)
  onCells (each cellDebit d.cellDebits)
  modifyState fun s => { s with cells := storageDeltas d.storageDeltas s.cells }

/-- The name proposals, the token authority proposals and the votes on them. -/
def proposeNames (expiration : ℕ) (d : StateDiff) (s : State) : State :=
  addTokenAuthorityProposals d.pendingTokenAuthorityProposals
    (registerNames expiration d.pendingNameProposals s)

/-- The votes, renewals and transfers, and the airdrop claims. -/
def settleNames (expiration threshold : ℕ) (d : StateDiff) (s : State) : State :=
  recordClaims d.airdropClaims (transferNames d.nameTransfers (renewNames expiration d.nameRenewals
    (tokenAuthorityVotes threshold d.tokenAuthorityVotes s)))

/-- The name and token authority loops of `apply_diff`, and the counters after them. Name votes are
unused. -/
def applyNames (env : Env) (d : StateDiff) (w : World) : World :=
  let expiration := w.globals.getU64 env "name.expiration_blocks"
  let threshold := w.globals.getU64 env "token.authority_approval_threshold"
  w.onState fun s => freezeAccounts d.frozenAccountUpdates (countMinted d.mintedAmount
    (settleNames expiration threshold d (proposeNames expiration d s)))

/-- `State::apply_diff`. -/
def applyDiff (env : Env) (d : StateDiff) : StM Unit := do
  modifyState (recordTransaction d)
  onAccounts (applyAccounts d)
  each (stakingUpdate env) d.stakingUpdates
  modify (updateParams d.paramUpdates)
  modifyState fun s => { s with nfts := nftUpdates d.nftUpdates s.nfts }
  onCells (each (cellUpdate env) d.cellUpdates)
  applyBalances env d
  modifyState (payNameFee env d.nameFee)
  spendFees d
  modify (applyNames env d)
  each (applyOracleUpdate env) d.oracleUpdates

/-- The accounts part of `merge_diff_inplace` that stands before the staking updates. -/
def mergeRecords (d : StateDiff) (accounts : Accounts) : Accounts :=
  raiseNonces d.nonceUpdates (replaceAccounts d.accountUpdates accounts)

/-- The accounts part of `merge_diff_inplace` that stands after the cell updates. A new account gets the
bytes of its id as its public key. -/
def mergeTransfers (d : StateDiff) : ExceptT String (StateM Accounts) Unit := do
  nativeTransfers ofBytes32 d.nativeTransfers
  nativeDebits d.nativeDebits
  escrowCredits ofBytes32 d.computeEscrowCredits
  escrowDebits d.computeEscrowDebits

/-- The transaction hashes are recorded, without a cap. -/
def recordHashes (d : StateDiff) (s : State) : State :=
  if d.isSystem then s
  else if d.txHashes.isEmpty then { s with executedTxHashes := s.executedTxHashes.insert d.txHash }
  else
    { s with
      executedTxHashes := d.txHashes.toList.foldl (fun hs h => hs.insert h) s.executedTxHashes }

/-- The name and token authority loops of `merge_diff_inplace`. -/
def mergeNames (env : Env) (d : StateDiff) (w : World) : World :=
  let expiration := w.globals.getU64 env "name.expiration_blocks"
  let threshold := w.globals.getU64 env "token.authority_approval_threshold"
  w.onState fun s => freezeAccounts d.frozenAccountUpdates (settleNames expiration threshold d
    (nameVotes expiration (w.globals.getU64 env "name.approval_threshold") d.nameVotes
      (proposeNames expiration d s)))

/-- `State::merge_diff_inplace`. -/
def mergeDiffInplace (env : Env) (d : StateDiff) : StM Unit := do
  modifyState fun s => { s with accounts := mergeRecords d s.accounts }
  each (stakingUpdate env) d.stakingUpdates
  modifyState fun s => { s with nfts := nftUpdates d.nftUpdates s.nfts }
  onCells (each (cellUpdate env) d.cellUpdates)
  onAccounts (mergeTransfers d)
  applyBalances env d
  modifyState fun s => if d.isSystem then s else collectFees d s
  modifyState (payNameFee env d.nameFee)
  spendFees d
  modifyState (recordHashes d)
  modify (mergeNames env d)
  each (applyOracleUpdate env) d.oracleUpdates

end TruthLinked.Ledger.Apply
