import TruthLinked.Ledger.Model

/-! # The phases of a state diff

Each loop of `apply_diff` and `merge_diff_inplace` as a computation on the part of the state it works on.
Where the two functions run the same loop it is written once; where they differ, both versions stand
next to each other. -/

namespace TruthLinked.Ledger.Phases

open Core.Types Runtime.Cells Runtime.Types Governance.Types Staking.State Ledger.Model Lib.Phase

/-! ## Accounts -/

/-- An amount of an account that credits and debits change: the balance or the compute escrow. -/
structure Pocket where
  amount : AccountRecord → ℕ
  set : AccountRecord → ℕ → AccountRecord
  amount_set : ∀ r n, amount (set r n) = n
  set_set : ∀ r n k, set (set r n) k = set r k
  set_amount : ∀ r, set r (amount r) = r
  amount_fresh : ∀ pubkey, amount (AccountRecord.fresh pubkey) = 0

/-- The balance. -/
def balancePocket : Pocket where
  amount := AccountRecord.balance
  set r n := { r with balance := n }
  amount_set _ _ := rfl
  set_set _ _ _ := rfl
  set_amount _ := rfl
  amount_fresh _ := rfl

/-- The compute escrow. -/
def escrowPocket : Pocket where
  amount := AccountRecord.computeEscrowTlkd
  set r n := { r with computeEscrowTlkd := n }
  amount_set _ _ := rfl
  set_set _ _ _ := rfl
  set_amount _ := rfl
  amount_fresh _ := rfl

/-- One credit: a missing account is created with public key `pubkey`, then the amount is added. -/
def credit (p : Pocket) (pubkey : AccountId → Bytes) (overflow : String) (c : AccountId × ℕ) :
    ExceptT String (StateM Accounts) Unit := do
  let r := ((← get)[c.1]?).getD (AccountRecord.fresh (pubkey c.1))
  modify fun accounts => accounts.insert c.1 r
  match checkedAdd (p.amount r) c.2 with
  | some n => modify fun accounts => accounts.insert c.1 (p.set r n)
  | none => throw overflow

/-- One debit of an account that must exist. -/
def debit (p : Pocket) (underflow : String) (c : AccountId × ℕ) :
    ExceptT String (StateM Accounts) Unit := do
  match (← get)[c.1]? with
  | none => throw "Sender account not found"
  | some r =>
    match checkedSub (p.amount r) c.2 with
    | some n => modify fun accounts => accounts.insert c.1 (p.set r n)
    | none => throw underflow

/-- The native transfers. -/
def nativeTransfers (pubkey : AccountId → Bytes) (l : List (AccountId × ℕ)) :
    ExceptT String (StateM Accounts) Unit :=
  each (credit balancePocket pubkey "Recipient balance overflow") l

/-- The native debits. -/
def nativeDebits (l : List (AccountId × ℕ)) : ExceptT String (StateM Accounts) Unit :=
  each (debit balancePocket "Sender balance underflow") l

/-- The compute escrow credits. -/
def escrowCredits (pubkey : AccountId → Bytes) (l : List (AccountId × ℕ)) :
    ExceptT String (StateM Accounts) Unit :=
  each (credit escrowPocket pubkey "Recipient escrow overflow") l

/-- The compute escrow debits. -/
def escrowDebits (l : List (AccountId × ℕ)) : ExceptT String (StateM Accounts) Unit :=
  each (debit escrowPocket "Sender escrow underflow") l

/-- An account update as `apply_diff` makes it: of an existing account only the NFT list changes, and the
public key when it has none. -/
def patchAccount (accounts : Accounts) (u : AccountId × AccountRecord) : Accounts :=
  match accounts[u.1]? with
  | some existing =>
    accounts.insert u.1
      { existing with
        pubkeyBytes := if existing.pubkeyBytes = [] then u.2.pubkeyBytes else existing.pubkeyBytes
        nfts := u.2.nfts }
  | none => accounts.insert u.1 u.2

/-- The account updates of `apply_diff`. -/
def patchAccounts (updates : Map AccountId AccountRecord) (accounts : Accounts) : Accounts :=
  updates.toList.foldl patchAccount accounts

/-- The account updates of `merge_diff_inplace`: the records replace those present. -/
def replaceAccounts (updates : Map AccountId AccountRecord) (accounts : Accounts) : Accounts :=
  updates.toList.foldl (fun accounts u => accounts.insert u.1 u.2) accounts

/-- The nonce updates: a nonce only grows. -/
def raiseNonces (updates : List (AccountId × ℕ)) (accounts : Accounts) : Accounts :=
  updates.foldl (fun accounts u =>
    accounts.modify u.1 fun r => { r with nonce := max r.nonce u.2 }) accounts

/-! ## Stakes -/

/-- What a withdrawal pays is added to the balance of the validator's account. -/
def payWithdrawal (account : AccountId) (amount : ℕ) : ExceptT String (StateM Accounts) Unit := do
  match (← get)[account]? with
  | none => throw "Account not found for withdrawal"
  | some r =>
    match checkedAdd r.balance amount with
    | some n => modify fun accounts => accounts.insert account { r with balance := n }
    | none => throw "Balance overflow"

/-- One staking update. -/
def stakingUpdate (env : Env) : StakingUpdate → StM Unit
  | .stake validator amount => onStaking (stake validator amount)
  | .unstake validator amount => onStaking (unstake validator amount)
  | .withdraw validator => do
    let withdrawn ← onStaking (withdraw validator)
    onAccounts (payWithdrawal (accountIdFromPubkey env validator) withdrawn)
  | .slash validator reason amount redistribution =>
    onStaking (applySlashOutcome validator reason ⟨amount, redistribution⟩)
  | .unjail validator => onStaking (unjail validator)

/-- One staking reward: the first validator key, in key order, with that account. -/
def stakingReward (env : Env) (c : AccountId × ℕ) : StakingM Unit := do
  let st ← get
  match st.validators.toList.find? fun (pk, _) => decide (accountIdFromPubkey env pk = c.1) with
  | none => pure ()
  | some (pk, v) =>
    let stake := v.activeStake + c.2 % u64
    if u64 ≤ stake then throw "Staking reward overflow"
    setValidator pk { v with activeStake := stake }

/-! ## Cells -/

/-- Computations on the cells and token balances. -/
abbrev CellsM := ExceptT String (StateM CellState)

/-- The record of a cell that must exist. -/
def getCell (missing : String) (cellId : AccountId) : CellsM CellAccount := do
  match (← get).cells[cellId]? with
  | some cell => pure cell
  | none => throw missing

/-- Writes the record of a cell. -/
def setCell (cellId : AccountId) (cell : CellAccount) : CellsM Unit :=
  modify fun cs => { cs with cells := cs.cells.insert cellId cell }

/-- A storage change: a slot with a value is written, a slot without one is removed. -/
def changeStorage (storage : Map Bytes32 Bytes32) (diff : Map Bytes32 (Option Bytes32)) :
    Map Bytes32 Bytes32 :=
  diff.toList.foldl (fun storage (key, value) =>
    match value with
    | some v => storage.insert key v
    | none => storage.erase key) storage

/-- `CellAccount::compute_manifest_hash`. -/
def computeManifestHash (env : Env) (bytecode : Bytes)
    (declaredReads declaredWrites commutativeKeys oracleSchemaIds : List Bytes32) : Bytes32 :=
  env.blake3 (bytecode ++ declaredReads.flatMap ofBytes32 ++ declaredWrites.flatMap ofBytes32 ++
    commutativeKeys.flatMap ofBytes32 ++ oracleSchemaIds.flatMap ofBytes32)

/-- Removes a cell with the token balances and frozen accounts under it, when it exists. -/
def removeCell (cellId : AccountId) (cs : CellState) : CellState :=
  if cellId ∈ cs.cells then
    { cells := cs.cells.erase cellId
      tokenBalances := cs.tokenBalances.filter fun k _ => k.1 ≠ cellId
      frozenAccounts := cs.frozenAccounts.filter fun k _ => k.1 ≠ cellId }
  else cs

/-- One cell update. -/
def cellUpdate (env : Env) : CellUpdate → CellsM Unit
  | .deploy cellId cell => setCell cellId cell
  | .storageChange cellId storageDiff => do
    let cell ← getCell "Cell not found for storage update" cellId
    setCell cellId { cell with storage := changeStorage cell.storage storageDiff }
  | .balanceChange cellId newBalance => do
    let cell ← getCell "Cell not found for balance update" cellId
    setCell cellId { cell with balance := newBalance }
  | .remove cellId => modify (removeCell cellId)
  | .upgrade cellId newBytecode reads writes keys specs schemas timestamp => do
    let cell ← getCell "Cell not found for upgrade" cellId
    setCell cellId
      { cell with
        bytecode := newBytecode
        declaredReads := reads
        declaredWrites := writes
        commutativeKeys := keys
        storageKeySpecs := specs
        oracleSchemaIds := schemas
        manifestHash := computeManifestHash env newBytecode reads writes keys schemas
        manifestVersion := satAdd64 cell.manifestVersion 1
        upgradedAt := some timestamp }
  | .transferOwnership cellId newOwner => do
    let cell ← getCell "Cell not found for ownership transfer" cellId
    setCell cellId { cell with pendingOwner := some newOwner }
  | .acceptOwnership cellId caller => do
    let cell ← getCell "Cell not found" cellId
    if cell.pendingOwner ≠ some caller then throw "Not pending owner"
    setCell cellId { cell with owner := caller, pendingOwner := none }
  | .makeImmutable cellId caller => do
    let cell ← getCell "Cell not found" cellId
    if cell.owner ≠ caller then throw "Not cell owner"
    setCell cellId { cell with isImmutable := true, pendingOwner := none }

/-- One token credit; credits of a missing token cell are dropped. -/
def tokenCredit (c : AccountId × AccountId × ℕ) : CellsM Unit := do
  let cs ← get
  if c.1 ∈ cs.cells then
    match checkedAdd ((cs.tokenBalances[(c.1, c.2.1)]?).getD 0) c.2.2 with
    | some n => set { cs with tokenBalances := cs.tokenBalances.insert (c.1, c.2.1) n }
    | none => throw "Token balance overflow"
  else pure ()

/-- The token balance updates, of the token cells that exist. -/
def setTokenBalances (updates : List ((AccountId × AccountId) × ℕ)) (cs : CellState) : CellState :=
  updates.foldl (fun cs (key, balance) =>
    if key.1 ∈ cs.cells then { cs with tokenBalances := cs.tokenBalances.insert key balance }
    else cs) cs

/-- One cell credit; a missing cell is skipped. -/
def cellCredit (c : AccountId × ℕ) : CellsM Unit := do
  match (← get).cells[c.1]? with
  | none => pure ()
  | some cell =>
    match checkedAdd cell.balance c.2 with
    | some n => setCell c.1 { cell with balance := n }
    | none => throw "Cell balance overflow"

/-- One cell debit. -/
def cellDebit (c : AccountId × ℕ) : CellsM Unit := do
  let cell ← getCell "Cell not found for debit" c.1
  match checkedSub cell.balance c.2 with
  | some n => setCell c.1 { cell with balance := n }
  | none => throw "Cell balance underflow"

/-- The deltas of one cell's storage. -/
def applyDelta (storage : Map Bytes32 Bytes32) (delta : StorageDelta) : Map Bytes32 Bytes32 :=
  delta.toList.foldl (fun storage (key, op) =>
    storage.insert key (op.apply ((storage[key]?).getD 0))) storage

/-- The storage deltas; a missing cell is skipped. -/
def storageDeltas (deltas : Map AccountId StorageDelta) (cs : CellState) : CellState :=
  { cs with
    cells := deltas.toList.foldl (fun cells (cellId, delta) =>
      cells.modify cellId fun cell => { cell with storage := applyDelta cell.storage delta }) cs.cells }

/-- The freeze and thaw updates. -/
def setFrozen (updates : List ((AccountId × AccountId) × Bool)) (cs : CellState) : CellState :=
  { cs with
    frozenAccounts := updates.foldl (fun frozen (key, on) =>
      if on then frozen.insert key true else frozen.erase key) cs.frozenAccounts }

/-- The NFT updates. -/
def nftUpdates (updates : Map Bytes32 (Option NFTRecord)) (nfts : Map Bytes32 NFTRecord) :
    Map Bytes32 NFTRecord :=
  updates.toList.foldl (fun nfts (id, nft) =>
    match nft with
    | some n => nfts.insert id n
    | none => nfts.erase id) nfts

/-! ## Replay protection and fees -/

/-- `MAX_EXECUTED_TX_HASHES`. -/
def maxExecutedTxHashes : ℕ := 100000

/-- `KEEP_EXECUTED_TX_HASHES`. -/
def keepExecutedTxHashes : ℕ := 80000

/-- Over the cap only the largest hashes are kept. -/
def pruneHashes (hashes : FSet Bytes32) : FSet Bytes32 :=
  if maxExecutedTxHashes < hashes.size then
    .ofList (hashes.toList.reverse.take keepExecutedTxHashes)
  else hashes

/-- The fees of a diff added to the accumulators. The three sums wrap. -/
def collectFees (d : StateDiff) (s : State) : State :=
  { s with
    accumulatedGasFees := (s.accumulatedGasFees + d.gasFee) % u128
    accumulatedComputeFeesTlkd := (s.accumulatedComputeFeesTlkd + d.computeFeeTlkd) % u128
    accumulatedTreasuryFees := (s.accumulatedTreasuryFees + d.treasuryFee) % u128 }

/-- The fees of a diff added to the counter of the emission epoch, which `apply_diff` alone keeps. -/
def collectEpochFees (d : StateDiff) (s : State) : State :=
  { s with
    accumulatedEpochFees :=
      satAdd (satAdd (satAdd s.accumulatedEpochFees d.gasFee) d.computeFeeTlkd) d.treasuryFee }

/-- A name fee goes to the treasury cell, or to the accumulator when there is none. -/
def payNameFee (env : Env) (fee : ℕ) (s : State) : State :=
  if fee = 0 then s
  else if treasurySystemCellId env ∈ s.cells.cells then
    { s with
      cells := { s.cells with
        cells := s.cells.cells.modify (treasurySystemCellId env) fun cell =>
          { cell with balance := satAdd cell.balance fee } } }
  else { s with accumulatedNameFees := satAdd s.accumulatedNameFees fee }

/-- A distribution from one accumulator. -/
def spendFee (amount : State → ℕ) (put : State → ℕ → State) (what : String) (spent : ℕ) : StM Unit := do
  let s := (← get).state
  if 0 < spent then
    if amount s < spent then throw (what ++ " fee distribution exceeds accumulated fees")
    modifyState fun s => put s (amount s - spent)

/-- The four distributions. -/
def spendFees (d : StateDiff) : StM Unit := do
  spendFee State.accumulatedGasFees (fun s n => { s with accumulatedGasFees := n }) "Gas" d.gasFeeSpent
  spendFee State.accumulatedNameFees (fun s n => { s with accumulatedNameFees := n }) "Name"
    d.nameFeeSpent
  spendFee State.accumulatedComputeFeesTlkd (fun s n => { s with accumulatedComputeFeesTlkd := n })
    "Compute" d.computeFeeSpent
  spendFee State.accumulatedTreasuryFees (fun s n => { s with accumulatedTreasuryFees := n })
    "Treasury" d.treasuryFeeSpent

/-! ## Names and token authorities -/

/-- The registration a pending name turns into. -/
def registration (expirationBlocks : ℕ) (p : PendingNameRegistration) : NameRegistration where
  name := p.name
  owner := p.owner
  target := p.cellId
  registeredAt := p.proposedAt
  expiresAt := (p.proposedAt + expirationBlocks) % u64
  isCell := p.isCell

/-- The name proposals: a free name is registered at once. -/
def registerNames (expirationBlocks : ℕ)
    (proposals : List (String × PendingNameRegistration × AccountId × Bool)) (s : State) : State :=
  { s with
    nameRegistry := proposals.foldl (fun names (name, pending, _) =>
      if name ∈ names then names else names.insert name (registration expirationBlocks pending))
      s.nameRegistry }

/-- The token authority proposals. -/
def addTokenAuthorityProposals (proposals : List (AccountId × TokenAuthorityProposal)) (s : State) :
    State :=
  { s with
    tokenAuthorityProposals := proposals.foldl (fun m (cell, p) => m.insert cell p)
      s.tokenAuthorityProposals }

/-- The registered and the pending names. -/
structure Names where
  registry : Map String NameRegistration
  pending : Map String PendingNameRegistration

/-- One name vote, which `merge_diff_inplace` alone counts; `total` is the active stake. -/
def nameVote (expirationBlocks threshold total : ℕ) (n : Names) (vote : String × Bytes × ℕ) : Names :=
  match n.pending[vote.1]? with
  | none => n
  | some pending =>
    if vote.2.1 ∈ pending.votes then n
    else
      let pending' : PendingNameRegistration :=
        { pending with
          votes := pending.votes.insert vote.2.1
          totalStakeVoted := satAdd64 pending.totalStakeVoted vote.2.2 }
      if 0 < total ∧ threshold ≤ pending'.totalStakeVoted * 100 % u64 / total then
        { registry := n.registry.insert vote.1 (registration expirationBlocks pending')
          pending := n.pending.erase vote.1 }
      else { n with pending := n.pending.insert vote.1 pending' }

/-- The name votes. -/
def nameVotes (expirationBlocks threshold : ℕ) (votes : List (String × Bytes × ℕ)) (s : State) : State :=
  let n := votes.foldl (nameVote expirationBlocks threshold s.staking.activeTotal)
    ⟨s.nameRegistry, s.pendingNames⟩
  { s with nameRegistry := n.registry, pendingNames := n.pending }

/-- An approved proposal sets the authorities of its token. -/
def grantAuthority (p : TokenAuthorityProposal) (cell : CellAccount) : CellAccount :=
  if cell.isToken then
    { cell with
      tokenConfig := cell.tokenConfig.map fun cfg =>
        { cfg with
          mintAuthority := if p.setMintAuthority then p.newMintAuthority else cfg.mintAuthority
          freezeAuthority := if p.setFreezeAuthority then p.newFreezeAuthority else cfg.freezeAuthority } }
  else cell

/-- What the token authority votes change; `approved` collects the tokens whose proposal has passed. -/
structure Authorities where
  proposals : Map AccountId TokenAuthorityProposal
  cells : Map AccountId CellAccount
  approved : List AccountId

/-- One token authority vote; `total` is the active stake. -/
def tokenAuthorityVote (total threshold : ℕ) (acc : Authorities) (vote : AccountId × Bytes × ℕ) :
    Authorities :=
  match acc.proposals[vote.1]? with
  | none => acc
  | some p =>
    if vote.1 ∈ acc.approved ∨ vote.2.1 ∈ p.voters then acc
    else
      let p' : TokenAuthorityProposal :=
        { p with
          voters := p.voters.insert vote.2.1
          votesForStake := satAdd64 p.votesForStake vote.2.2 }
      let proposals' := acc.proposals.insert vote.1 p'
      if total ≠ 0 ∧ threshold ≤ p'.votesForStake * 100 % u64 / total then
        { proposals := proposals'
          cells := acc.cells.modify vote.1 (grantAuthority p')
          approved := acc.approved ++ [vote.1] }
      else { acc with proposals := proposals' }

/-- The token authority votes; the proposals that passed are removed. -/
def tokenAuthorityVotes (threshold : ℕ) (votes : List (AccountId × Bytes × ℕ)) (s : State) : State :=
  let r := votes.foldl (tokenAuthorityVote s.staking.activeTotal threshold)
    ⟨s.tokenAuthorityProposals, s.cells.cells, []⟩
  { s with
    cells := { s.cells with cells := r.cells }
    tokenAuthorityProposals := r.approved.foldl (fun m cell => m.erase cell) r.proposals }

/-- The name renewals. -/
def renewNames (expirationBlocks : ℕ) (renewals : List (String × ℕ)) (s : State) : State :=
  { s with
    nameRegistry := renewals.foldl (fun names (name, timestamp) =>
      names.modify name fun r => { r with expiresAt := (timestamp + expirationBlocks) % u64 })
      s.nameRegistry }

/-- The name transfers. -/
def transferNames (transfers : List (String × AccountId)) (s : State) : State :=
  { s with
    nameRegistry := transfers.foldl (fun names (name, newOwner) =>
      names.modify name fun r =>
        { r with owner := newOwner, isCell := decide (newOwner ∈ s.cells.cells) })
      s.nameRegistry }

/-- The airdrop claims. -/
def recordClaims (claims : List (AccountId × ℕ)) (s : State) : State :=
  { s with airdropClaims := claims.foldl (fun m (account, time) => m.insert account time) s.airdropClaims }

/-- The counter of what the faucet has minted, which `apply_diff` alone keeps. -/
def countMinted (minted : ℕ) (s : State) : State :=
  { s with totalMinted := if 0 < minted then satAdd s.totalMinted minted else s.totalMinted }

/-- The freeze and thaw updates, in the state. -/
def freezeAccounts (updates : List ((AccountId × AccountId) × Bool)) (s : State) : State :=
  { s with cells := setFrozen updates s.cells }

end TruthLinked.Ledger.Phases
