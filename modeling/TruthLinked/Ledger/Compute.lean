import TruthLinked.Ledger.PrivateBalance

/-! # The diff of a transaction: payments, names, NFTs and tokens

The handlers of `compute_transaction_diff_internal` in `truthlinked-state/src/pq_execution.rs` that need no
virtual machine. A handler takes the diff built so far and returns it with its own changes, or refuses. The
handlers only read the state. -/

namespace TruthLinked.Ledger.Compute

open Core.Types Runtime.Cells Runtime.Types Ledger.Model Ledger.Execution Lib.Except

/-- `ONE_TLKD`. -/
def oneTlkd : ℕ := 1000000000

/-- `GAS_TRANSFER`, the fee most intents ask for. -/
def gasTransfer (env : Env) (w : World) : ℕ := w.globals.getU64 env "gas.transfer"

/-- A record for the account updates: the nonce of an earlier record of the account stays. -/
def putRecord (diff : StateDiff) (a : AccountId) (r : AccountRecord) : Map AccountId AccountRecord :=
  diff.accountUpdates.insert a
    { r with nonce := ((diff.accountUpdates[a]?).map AccountRecord.nonce).getD r.nonce }

/-! ## Payments -/

/-- A recipient without a given public key must have an account with one; a given key must be that of
the recipient. `position` is the place in a batch, for the messages. -/
def checkRecipient (env : Env) (s : State) (position : String) (recipient : AccountId) (pubkey : Bytes) :
    Except String Unit :=
  if pubkey = [] then do
    let existing ← okOr s.accounts[recipient]?
      ("Recipient account not found" ++ position ++ "; pubkey required")
    failIf (existing.pubkeyBytes = [])
      ("Recipient account missing pubkey" ++ position ++ "; pubkey required")
  else
    failIf (accountIdFromPubkey env pubkey ≠ recipient)
      ("Recipient pubkey does not match recipient AccountId" ++ position)

/-- The record a new recipient gets. -/
def createRecipient (s : State) (recipient : AccountId) (pubkey : Bytes)
    (updates : Map AccountId AccountRecord) : Map AccountId AccountRecord :=
  if recipient ∈ s.accounts then updates else updates.insert recipient (AccountRecord.fresh pubkey)

/-- `compute_transfer_diff`. -/
def computeTransferDiff (env : Env) (w : World) (diff : StateDiff) (sender recipient : AccountId)
    (recipientPubkey : Bytes) (amount : ℕ) (account : AccountRecord) : Except String StateDiff := do
  failIf (amount = 0) "Transfer amount must be > 0"
  let totalCost ← okOr (checkedAdd amount (gasTransfer env w)) "Amount overflow"
  failIf (account.balance < totalCost) "Insufficient balance for transfer + gas"
  checkRecipient env w.state "" recipient recipientPubkey
  pure
    { diff with
      nativeDebits := diff.nativeDebits ++ [(sender, totalCost)]
      accountUpdates := createRecipient w.state recipient recipientPubkey diff.accountUpdates
      nativeTransfers := diff.nativeTransfers ++ [(recipient, amount)]
      gasFee := gasTransfer env w }

/-- The checks of a batch, from position `idx` on, and the total of its amounts. -/
def batchTotal (env : Env) (s : State) : List BatchTransferEntry → ℕ → ℕ → Except String ℕ
  | [], _, total => pure total
  | t :: ts, idx, total => do
    failIf (t.amount = 0) s!"BatchTransfer amount at index {idx} must be > 0"
    checkRecipient env s s!" at index {idx}" t.recipient (t.recipientPubkey.getD [])
    let total ← okOr (checkedAdd total t.amount) "BatchTransfer amount overflow"
    batchTotal env s ts (idx + 1) total

/-- `compute_batch_transfer_diff`. -/
def computeBatchTransferDiff (env : Env) (w : World) (diff : StateDiff) (sender : AccountId)
    (transfers : List BatchTransferEntry) (account : AccountRecord) : Except String StateDiff := do
  failIf (transfers = []) "BatchTransfer must include at least one recipient"
  let limit := w.globals.getU64 env "limits.max_batch_transfer_recipients"
  failIf (limit < transfers.length)
    s!"BatchTransfer too large: {transfers.length} recipients (max: {limit})"
  let totalAmount ← batchTotal env w.state transfers 0 0
  failIf (u128 ≤ gasTransfer env w * transfers.length) "BatchTransfer gas overflow"
  let totalCost ← okOr (checkedAdd totalAmount (gasTransfer env w * transfers.length))
    "BatchTransfer total overflow"
  failIf (account.balance < totalCost) "Insufficient balance for batch transfer + gas"
  pure
    { diff with
      nativeDebits := diff.nativeDebits ++ [(sender, totalCost)]
      accountUpdates := transfers.foldl (fun updates t =>
        createRecipient w.state t.recipient (t.recipientPubkey.getD []) updates) diff.accountUpdates
      nativeTransfers := diff.nativeTransfers ++ transfers.map fun t => (t.recipient, t.amount)
      gasFee := gasTransfer env w * transfers.length }

/-- `resolve_name_to_account`. -/
def resolveNameToAccount (s : State) (name : String) (currentHeight : ℕ) : Except String AccountId := do
  let reg ← okOr s.nameRegistry[name]? "Name not found"
  failIf (reg.expiresAt ≤ currentHeight) "Name expired"
  pure reg.target

/-- The names of a batch, resolved. -/
def resolveNames (s : State) (transfers : List NameTransferEntry) :
    Except String (List BatchTransferEntry) :=
  transfers.mapM fun t => do
    let recipient ← resolveNameToAccount s t.name s.staking.currentHeight
    pure ⟨recipient, none, t.amount⟩

/-- `MAX_TESTNET_MINT`. -/
def maxTestnetMint : ℕ := 100000000 * oneTlkd

/-- `MAX_AIRDROP_AMOUNT`. -/
def maxAirdropAmount : ℕ := 15000 * oneTlkd

/-- The wait between two claims of a recipient. -/
def checkCooldown (env : Env) (w : World) (recipient : AccountId) (timestamp : ℕ) : Except String Unit :=
  match w.state.airdropClaims[recipient]? with
  | some lastClaim =>
    let remaining := w.globals.getU64 env "airdrop.cooldown_secs" - (timestamp - lastClaim)
    failIf (0 < remaining)
      s!"Airdrop cooldown active. Try again in {remaining / 3600}h {remaining % 3600 / 60}m"
  | none => pure ()

/-- The record of the recipient of a claim. -/
def claimRecord (s : State) (recipient : AccountId) (recipientPubkey : Bytes) (amount : ℕ) :
    Except String AccountRecord :=
  match s.accounts[recipient]? with
  | some existing => do
    let balance ← okOr (checkedAdd existing.balance amount) "Balance overflow"
    if existing.pubkeyBytes = [] then
      failIf (recipientPubkey = []) "Recipient account missing pubkey; pubkey required"
      pure { existing with balance := balance, pubkeyBytes := recipientPubkey }
    else pure { existing with balance := balance }
  | none => do
    failIf (recipientPubkey = []) "Recipient account not found; pubkey required"
    pure { AccountRecord.fresh recipientPubkey with balance := amount }

/-- `compute_claim_diff`. -/
def computeClaimDiff (env : Env) (w : World) (diff : StateDiff) (sender recipient : AccountId)
    (recipientPubkey : Bytes) (amount timestamp : ℕ) : Except String StateDiff := do
  failIf (w.state.foundationMintAuthority ≠ some sender) "Airdrop requires foundation mint authority"
  checkRecipient env w.state "" recipient recipientPubkey
  let minted ← okOr (checkedAdd w.state.totalMinted amount) "Mint overflow"
  failIf (maxTestnetMint < minted) "Airdrop would exceed testnet mint cap of 100M TLKD"
  let limit := max (w.globals.getU128 env "airdrop.max_amount") maxAirdropAmount
  failIf (limit < amount)
    s!"Airdrop amount exceeds maximum of {limit / oneTlkd} TLKD (requested: {amount / oneTlkd} TLKD)"
  checkCooldown env w recipient timestamp
  let record ← claimRecord w.state recipient recipientPubkey amount
  pure
    { diff with
      accountUpdates := diff.accountUpdates.insert recipient record
      airdropClaims := diff.airdropClaims ++ [(recipient, timestamp)]
      mintedAmount := amount
      gasFee := 0 }

/-- `compute_rotate_key_diff`. -/
def computeRotateKeyDiff (env : Env) (w : World) (diff : StateDiff) (sender : AccountId)
    (newPubkey : Bytes) (account : AccountRecord) : Except String StateDiff := do
  failIf (newPubkey.length ≠ 1952) "Invalid new public key length"
  failIf (!env.isPublicKey newPubkey) "Invalid ML-DSA-65 public key"
  pure
    { diff with
      accountUpdates := putRecord diff sender { account with pubkeyBytes := newPubkey }
      cuFee := w.globals.getU64 env "gas.rotate_key" }

/-- `compute_deposit_compute_diff`. -/
def computeDepositComputeDiff (diff : StateDiff) (sender : AccountId) (amount : ℕ)
    (account : AccountRecord) : Except String StateDiff := do
  failIf (amount = 0) "Deposit amount must be > 0"
  failIf (account.balance < amount) "Insufficient balance for compute escrow deposit"
  pure
    { diff with
      nativeDebits := diff.nativeDebits ++ [(sender, amount)]
      computeEscrowCredits := diff.computeEscrowCredits ++ [(sender, amount)] }

/-- `compute_withdraw_compute_diff`. -/
def computeWithdrawComputeDiff (diff : StateDiff) (sender : AccountId) (amount : ℕ)
    (account : AccountRecord) : Except String StateDiff := do
  failIf (amount = 0) "Withdraw amount must be > 0"
  failIf (account.computeEscrowTlkd < amount) "Insufficient compute escrow balance"
  pure
    { diff with
      computeEscrowDebits := diff.computeEscrowDebits ++ [(sender, amount)]
      nativeTransfers := diff.nativeTransfers ++ [(sender, amount)] }

/-- `compute_wrap_trth_diff`. -/
def computeWrapTrthDiff (env : Env) (diff : StateDiff) (sender : AccountId) (amount : ℕ)
    (account : AccountRecord) : Except String StateDiff := do
  failIf (amount = 0) "Wrap amount must be > 0"
  failIf (account.balance < amount) "Insufficient TLKD balance to wrap"
  pure
    { diff with
      nativeDebits := diff.nativeDebits ++ [(sender, amount)]
      tokenCredits := diff.tokenCredits ++ [(wtrthSystemCellId env, sender, amount)] }

/-- `compute_unwrap_trth_diff`. -/
def computeUnwrapTrthDiff (env : Env) (w : World) (diff : StateDiff) (sender : AccountId)
    (amount : ℕ) : Except String StateDiff := do
  failIf (amount = 0) "Unwrap amount must be > 0"
  let held := (w.state.cells.tokenBalances[(wtrthSystemCellId env, sender)]?).getD 0
  failIf (held < amount) "Insufficient wTLKD balance"
  pure
    { diff with
      tokenBalanceUpdates :=
        diff.tokenBalanceUpdates ++ [((wtrthSystemCellId env, sender), held - amount)]
      nativeTransfers := diff.nativeTransfers ++ [(sender, amount)] }

/-! ## NFTs -/

/-- Whether a text starts with another. -/
def startsWith (s start : String) : Bool := decide (start.toUTF8.toList <+: s.toUTF8.toList)

/-- `compute_mint_nft_diff`. -/
def computeMintNftDiff (env : Env) (w : World) (diff : StateDiff) (sender : AccountId) (nftId : Bytes32)
    (name metadataUri : String) (collection : Option Bytes32) (royaltyBps : ℕ)
    (royaltyRecipient : Option AccountId) (timestamp : ℕ) : Except String StateDiff := do
  failIf (name = "") "NFT name cannot be empty"
  failIf (64 < name.toUTF8.toList.length) "NFT name too long (max 64 chars)"
  failIf (512 < metadataUri.toUTF8.toList.length) "Metadata URI too long (max 512 chars)"
  failIf (!(startsWith metadataUri "ipfs://" || startsWith metadataUri "ar://" ||
    startsWith metadataUri "https://"))
    "Invalid metadata URI scheme (must be ipfs://, ar://, or https://)"
  failIf (10000 < royaltyBps) "Royalty exceeds 100% (max 10000 bps)"
  failIf (nftId ∈ w.state.nfts) "NFT already exists"
  let account ← okOr w.state.accounts[sender]? "Sender not found"
  pure
    { diff with
      accountUpdates := diff.accountUpdates.insert sender { account with nfts := account.nfts ++ [nftId] }
      nftUpdates := diff.nftUpdates.insert nftId (some
        { nftId := nftId, owner := sender, name := name, metadataUri := metadataUri,
          mintedAt := timestamp, collection := collection, royaltyBps := royaltyBps,
          royaltyRecipient := royaltyRecipient, approved := none })
      cuFee := w.globals.getU64 env "gas.mint_nft" }

/-- The royalty of a sale, as account records of the payer and the recipient. -/
def payRoyalty (s : State) (diff : StateDiff) (sender : AccountId) (nft : NFTRecord)
    (salePrice : Option ℕ) (account : AccountRecord) : Except String (Map AccountId AccountRecord) :=
  match salePrice, nft.royaltyRecipient with
  | some price, some recipient =>
    if 0 < nft.royaltyBps ∧ recipient ≠ sender then do
      failIf (u128 ≤ price * nft.royaltyBps) "Royalty calculation overflow"
      let royalty := price * nft.royaltyBps / 10000
      let balance ← okOr (checkedSub account.balance royalty) "Insufficient balance for royalty"
      let payee ← okOr s.accounts[recipient]? "Royalty recipient not found"
      let payeeBalance ← okOr (checkedAdd payee.balance royalty) "Royalty recipient balance overflow"
      pure ((putRecord diff sender { account with balance := balance }).insert recipient
        { payee with balance := payeeBalance })
    else pure diff.accountUpdates
  | _, _ => pure diff.accountUpdates

/-- The NFT is taken out of the owner's record, which is copied from the state when there is none. -/
def takeNft (s : State) (nftId : Bytes32) (owner : AccountId) (updates : Map AccountId AccountRecord) :
    Except String (Map AccountId AccountRecord) := do
  let record ← okOr (updates[owner]?.or s.accounts[owner]?) "Owner not found"
  pure (updates.insert owner { record with nfts := record.nfts.filter fun id => decide (id ≠ nftId) })

/-- The NFT is added to the recipient's record, which is made when there is none. -/
def giveNft (s : State) (nftId : Bytes32) (recipient : AccountId) (pubkey : Bytes)
    (updates : Map AccountId AccountRecord) : Except String (Map AccountId AccountRecord) :=
  match updates[recipient]? with
  | some record => pure (updates.insert recipient { record with nfts := record.nfts ++ [nftId] })
  | none => do
    let record ← match s.accounts[recipient]? with
      | some existing => pure existing
      | none => do
        failIf (pubkey = []) "Recipient account not found; pubkey required"
        pure (AccountRecord.fresh pubkey)
    failIf (record.pubkeyBytes = [] ∧ pubkey = []) "Recipient account missing pubkey; pubkey required"
    pure (updates.insert recipient
      { record with
        pubkeyBytes := if record.pubkeyBytes = [] then pubkey else record.pubkeyBytes
        nfts := record.nfts ++ [nftId] })

/-- `compute_transfer_nft_diff`. -/
def computeTransferNftDiff (env : Env) (w : World) (diff : StateDiff) (sender : AccountId)
    (nftId : Bytes32) (recipient : AccountId) (recipientPubkey : Bytes) (salePrice : Option ℕ)
    (account : AccountRecord) : Except String StateDiff := do
  let nft ← okOr w.state.nfts[nftId]? "NFT not found"
  failIf (nft.owner ≠ sender ∧ nft.approved ≠ some sender) "Not owner or approved operator"
  let updates ← payRoyalty w.state diff sender nft salePrice account
  let updates ← takeNft w.state nftId nft.owner updates
  let updates ← giveNft w.state nftId recipient recipientPubkey updates
  pure
    { diff with
      accountUpdates := updates
      nftUpdates := diff.nftUpdates.insert nftId (some { nft with owner := recipient, approved := none })
      cuFee := w.globals.getU64 env "gas.transfer_nft" }

/-- `compute_burn_nft_diff`. -/
def computeBurnNftDiff (env : Env) (w : World) (diff : StateDiff) (sender : AccountId)
    (nftId : Bytes32) (account : AccountRecord) : Except String StateDiff := do
  failIf (nftId ∉ account.nfts) "Sender does not own this NFT"
  pure
    { diff with
      accountUpdates := putRecord diff sender
        { account with nfts := account.nfts.filter fun id => decide (id ≠ nftId) }
      nftUpdates := diff.nftUpdates.insert nftId none
      cuFee := w.globals.getU64 env "gas.burn_nft" }

/-- `compute_approve_nft_diff`. -/
def computeApproveNftDiff (env : Env) (w : World) (diff : StateDiff) (nftId : Bytes32)
    (approved : Option AccountId) (account : AccountRecord) : Except String StateDiff := do
  failIf (nftId ∉ account.nfts) "Sender does not own this NFT"
  let nft ← okOr w.state.nfts[nftId]? "NFT not found"
  pure
    { diff with
      nftUpdates := diff.nftUpdates.insert nftId (some { nft with approved := approved })
      cuFee := w.globals.getU64 env "gas.approve_nft" }

/-! ## Tokens -/

/-- A token balance. -/
def tokenBalanceOf (s : State) (token account : AccountId) : ℕ :=
  (s.cells.tokenBalances[(token, account)]?).getD 0

/-- The token balances of some accounts, as a working map. -/
def loadBalances (s : State) (token : AccountId) (accounts : List AccountId) : Map AccountId ℕ :=
  accounts.foldl (fun m a => m.insert a (tokenBalanceOf s token a)) ∅

/-- A working map as token balance updates. -/
def storeBalances (token : AccountId) (balances : Map AccountId ℕ) : List ((AccountId × AccountId) × ℕ) :=
  balances.toList.map fun (a, n) => ((token, a), n)

/-- `compute_token_transfer_diff`. The gas of the transfer's result is 0, so the hook budget is kept. -/
def computeTokenTransferDiff (env : Env) (w : World) (diff : StateDiff)
    (sender tokenCell recipient : AccountId) (amount : ℕ) : Except String StateDiff := do
  let cell ← okOr w.state.cells.cells[tokenCell]? "Token cell not found"
  failIf (!cell.isToken) "Not a token cell"
  let feeRecipient := (cell.tokenConfig.bind TokenConfig.transferFeeRecipient).toList
  let balances ← tokenExecutorTransfer cell sender recipient amount
    (loadBalances w.state tokenCell ([sender, recipient] ++ feeRecipient)) w.state.cells.frozenAccounts
  let hookGas := (cell.tokenConfig.map TokenConfig.transferHookGas).getD 0
  pure
    { diff with
      tokenBalanceUpdates := diff.tokenBalanceUpdates ++ storeBalances tokenCell balances
      cuFee := w.globals.getU64 env "gas.token_transfer" + hookGas }

/-- `compute_token_mint_diff`. -/
def computeTokenMintDiff (env : Env) (w : World) (diff : StateDiff)
    (sender tokenCell recipient : AccountId) (amount : ℕ) : Except String StateDiff := do
  let cell ← okOr w.state.cells.cells[tokenCell]? "Token cell not found"
  let (cell, balances) ← tokenExecutorMint cell sender recipient amount
    (loadBalances w.state tokenCell [recipient])
  pure
    { diff with
      tokenBalanceUpdates := diff.tokenBalanceUpdates ++ storeBalances tokenCell balances
      cellUpdates := diff.cellUpdates ++ [.deploy tokenCell cell]
      cuFee := w.globals.getU64 env "gas.token_mint" }

/-- `compute_token_burn_diff`. -/
def computeTokenBurnDiff (env : Env) (w : World) (diff : StateDiff) (sender tokenCell : AccountId)
    (amount : ℕ) : Except String StateDiff := do
  let cell ← okOr w.state.cells.cells[tokenCell]? "Token cell not found"
  let (cell, balances) ← tokenExecutorBurn cell sender amount (loadBalances w.state tokenCell [sender])
  pure
    { diff with
      tokenBalanceUpdates := diff.tokenBalanceUpdates ++ storeBalances tokenCell balances
      cellUpdates := diff.cellUpdates ++ [.deploy tokenCell cell]
      cuFee := w.globals.getU64 env "gas.token_burn" }

/-- `compute_token_freeze_diff` and `compute_token_thaw_diff`. -/
def computeTokenFreezeDiff (env : Env) (w : World) (diff : StateDiff) (verb : String) (on : Bool)
    (sender tokenCell account : AccountId) : Except String StateDiff := do
  let cell ← okOr w.state.cells.cells[tokenCell]? "Token cell not found"
  tokenExecutorFreeze verb cell sender
  pure
    { diff with
      frozenAccountUpdates := diff.frozenAccountUpdates ++ [((tokenCell, account), on)]
      cuFee := w.globals.getU64 env "gas.token_transfer" }

end TruthLinked.Ledger.Compute
