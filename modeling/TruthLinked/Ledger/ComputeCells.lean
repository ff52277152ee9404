import TruthLinked.Ledger.Compute

/-! # The diff of a transaction: cells, oracles, and the whole function

The handlers for cells and oracle requests, the fees an intent asks for, and
`compute_transaction_diff_skip_sig`, which runs the handler of the intent between the checks of the
transaction and the fees. -/

namespace TruthLinked.Ledger.ComputeCells

open Core.Types Core.Manifest Runtime.Cells Runtime.Types Governance.Types Staking.State Oracle.Tally
open Ledger.Model Ledger.Phases Ledger.Execution Ledger.SystemCells Ledger.Mcp Ledger.PrivateBalance
open Ledger.Compute Lib.Except

/-! ## Deployment -/

/-- `compute_deploy_cell_diff`. -/
def computeDeployCellDiff (env : Env) (w : World) (diff : StateDiff) (sender cellId : AccountId)
    (bytecode : Bytes) (initialBalance timestamp : ℕ)
    (declaredReads declaredWrites commutativeKeys : List Bytes32)
    (storageKeySpecs : List StorageKeySpec) (oracleSchemaIds : List Bytes32) (account : AccountRecord) :
    Except String StateDiff := do
  failIf (cellId ∈ w.state.cells.cells) "Cell already exists"
  let limit := w.globals.getU64 env "limits.max_cell_bytecode_size"
  failIf (limit < bytecode.length) s!"Bytecode too large: {bytecode.length} bytes (max: {limit})"
  failIf (bytecode.take 4 ≠ "AXIO".toUTF8.toList)
    "Invalid bytecode: must be Axiom bytecode (magic: AXIO)"
  let rent := rentDeposit env w.globals
  let required := satAdd initialBalance rent
  failIf (account.balance < required) "Insufficient balance"
  verifyManifestAgainstBytecode bytecode declaredReads declaredWrites storageKeySpecs
  let cell := newCell env w.globals cellId sender bytecode declaredReads declaredWrites commutativeKeys
    oracleSchemaIds rent timestamp
  pure
    { diff with
      cellUpdates := diff.cellUpdates ++
        [.deploy cellId { cell with balance := initialBalance, storageKeySpecs := storageKeySpecs }]
      accountUpdates := putRecord diff sender { account with balance := account.balance - required }
      cuFee := w.globals.getU64 env "gas.deploy_cell" }

/-- `compute_deploy_token_diff`. -/
def computeDeployTokenDiff (env : Env) (w : World) (diff : StateDiff) (sender cellId : AccountId)
    (name symbol : String) (decimals totalSupply transferFeeBps : ℕ)
    (transferFeeRecipient : Option AccountId) (nonTransferable : Bool) (timestamp : ℕ)
    (account : AccountRecord) : Except String StateDiff := do
  failIf (cellId ∈ w.state.cells.cells) "Cell already exists"
  let rent := rentDeposit env w.globals
  failIf (account.balance < rent) "Insufficient balance"
  let config : TokenConfig :=
    { name := name, symbol := symbol, decimals := decimals, totalSupply := totalSupply,
      mintAuthority := some sender, freezeAuthority := some sender, transferFeeBps := transferFeeBps,
      transferFeeRecipient := transferFeeRecipient, transferHook := none, transferHookGas := 0,
      maxSupply := none, nonTransferable := nonTransferable, metadataUri := none,
      permanentDelegate := none }
  let cell := newCell env w.globals cellId (systemAuthorityId env) [] [] [] [] [] rent timestamp
  pure
    { diff with
      cellUpdates := diff.cellUpdates ++
        [.deploy cellId { cell with isToken := true, tokenConfig := some config }]
      tokenCredits := diff.tokenCredits ++
        if 0 < totalSupply then [(cellId, sender, totalSupply)] else []
      accountUpdates := putRecord diff sender { account with balance := account.balance - rent }
      cuFee := w.globals.getU64 env "gas.deploy_token" }

/-! ## Calls -/

/-- The slots in which two storages differ. -/
def storageChanges (before after : Map Bytes32 Bytes32) : Map Bytes32 (Option Bytes32) :=
  fromList ((after.toList.filter fun (k, v) => decide (before[k]? ≠ some v)).map
      (fun (k, v) => (k, some v)) ++
    (before.toList.filter fun (k, _) => decide (k ∉ after)).map fun (k, _) => (k, none))

/-- The updates that turn one record of a cell into another. -/
def cellChange (cellId : AccountId) (before after : CellAccount) : List CellUpdate :=
  (if (storageChanges before.storage after.storage).isEmpty then []
    else [.storageChange cellId (storageChanges before.storage after.storage)]) ++
  (if before.balance ≠ after.balance then [.balanceChange cellId after.balance] else []) ++
  (if before.isToken ∧ before.tokenConfig ≠ after.tokenConfig then [.deploy cellId after] else [])

/-- The cells a call has changed. -/
def cellChanges (before after : Map AccountId CellAccount) : List CellUpdate :=
  after.toList.flatMap fun (cellId, a) =>
    match before[cellId]? with
    | none => []
    | some b => cellChange cellId b a

/-- The token balances a call has changed. -/
def tokenChanges (before after : Map (AccountId × AccountId) ℕ) : List ((AccountId × AccountId) × ℕ) :=
  (after.toList.filter fun (k, n) => decide (n ≠ (before[k]?).getD 0)) ++
  (before.toList.filter fun (k, _) => decide (k ∉ after)).map fun (k, _) => (k, 0)

/-- The frozen accounts a call has changed. -/
def frozenChanges (before after : Map (AccountId × AccountId) Bool) :
    List ((AccountId × AccountId) × Bool) :=
  after.toList.filter fun (k, b) => decide (b ≠ (before[k]?).getD false)

/-- The differences of two cell states, added to a diff. -/
def addCells (before after : CellState) (diff : StateDiff) : StateDiff :=
  { diff with
    cellUpdates := diff.cellUpdates ++ cellChanges before.cells after.cells
    tokenBalanceUpdates :=
      diff.tokenBalanceUpdates ++ tokenChanges before.tokenBalances after.tokenBalances
    frozenAccountUpdates :=
      diff.frozenAccountUpdates ++ frozenChanges before.frozenAccounts after.frozenAccounts }

/-- The lists that every kind of call passes on. -/
def addTransfers (r : ExecutionResult) (diff : StateDiff) : StateDiff :=
  { diff with
    paramUpdates := diff.paramUpdates ++ r.paramUpdates
    nativeTransfers := diff.nativeTransfers ++ r.nativeCredits
    nativeDebits := diff.nativeDebits ++ r.nativeDebits
    cellDebits := diff.cellDebits ++ r.cellDebits
    stakingUpdates := diff.stakingUpdates ++ r.stakingUpdates
    pendingNameProposals := diff.pendingNameProposals ++ r.pendingNameProposals
    nameVotes := diff.nameVotes ++ r.nameVotes
    nameRenewals := diff.nameRenewals ++ r.nameRenewals
    nameTransfers := diff.nameTransfers ++ r.nameTransfers }

/-- The lists that a call of the virtual machine passes on besides. -/
def addResult (r : ExecutionResult) (diff : StateDiff) : StateDiff :=
  { addTransfers r diff with
    nameFee := satAdd diff.nameFee r.nameFee
    pendingTokenAuthorityProposals :=
      diff.pendingTokenAuthorityProposals ++ r.pendingTokenAuthorityProposals
    tokenAuthorityVotes := diff.tokenAuthorityVotes ++ r.tokenAuthorityVotes
    oracleUpdates := diff.oracleUpdates ++ r.oracleUpdates }

/-- The record of a sender who has sent a value along. -/
def payValue (diff : StateDiff) (sender : AccountId) (value : ℕ) (account : AccountRecord) : StateDiff :=
  if 0 < value then
    { diff with
      accountUpdates := putRecord diff sender { account with balance := account.balance - value } }
  else diff

/-- A call of a system cell. -/
def callSystemCell (env : Env) (w : World) (diff : StateDiff) (sender cellId : AccountId)
    (cell : CellAccount) (calldata : Bytes) (value gasLimit height : ℕ) (account : AccountRecord) :
    Except String StateDiff := do
  let r := dispatch env cellId calldata sender cell.storage height value gasLimit w.state
  failIf (!r.success) (r.error.getD "System cell failed")
  let diff := addTransfers r diff
  let diff := { diff with cellUpdates := diff.cellUpdates ++
    if r.storageDiff = [] then [] else [.storageChange cellId (fromList r.storageDiff)] }
  let diff := payValue diff sender value account
  pure { diff with cellCredits := diff.cellCredits ++ if 0 < value then [(cellId, value)] else [] }

/-- A call of a cell of the virtual machine. -/
def callVmCell (env : Env) (w : World) (diff : StateDiff) (sender cellId : AccountId)
    (cell : CellAccount) (calldata : Bytes) (value gasLimit timestamp height : ℕ)
    (account : AccountRecord) : Except String StateDiff := do
  let r := executeAxiom env w w.state.cells cell sender height timestamp calldata value gasLimit
  failIf (!r.success) (r.error.getD "Cell execution failed")
  let root ← settleCall r value cell
  let after := { w.state.cells with cells := w.state.cells.cells.insert cellId root }
  let diff := addCells w.state.cells after (addResult r diff)
  let diff := { diff with
    oracleUpdates := diff.oracleUpdates ++ r.queuedOracleRequests.map .queueRequest
    cuFee := gasLimit }
  pure (payValue diff sender value account)

/-- `compute_call_cell_diff`. -/
def computeCallCellDiff (env : Env) (w : World) (diff : StateDiff) (sender cellId : AccountId)
    (calldata : Bytes) (value gasLimit timestamp height : ℕ) (account : AccountRecord) :
    Except String StateDiff := do
  let limit := w.globals.getU64 env "limits.max_gas_per_tx"
  failIf (limit < gasLimit) s!"Gas limit {gasLimit} exceeds maximum {limit}"
  let size := w.globals.getU64 env "limits.max_calldata_size"
  failIf (size < calldata.length) s!"Calldata too large: {calldata.length} bytes (max: {size})"
  let cell ← okOr w.state.cells.cells[cellId]? "Cell not found"
  failIf (isMcpToolCell env w.state cellId) "Direct calls to MCP tools are not permitted"
  failIf (account.balance < value) "Insufficient balance"
  if isSystemCell env cellId then
    callSystemCell env w diff sender cellId cell calldata value gasLimit height account
  else callVmCell env w diff sender cellId cell calldata value gasLimit timestamp height account

/-- The limits on the call data of a chain; `total` is the call data so far. -/
def checkChainCalldata (size totalSize : ℕ) : List CellCall → ℕ → Except String Unit
  | [], _ => pure ()
  | call :: calls, total => do
    failIf (size < call.calldata.length)
      s!"Calldata too large in call chain: {call.calldata.length} bytes (max: {size})"
    let total := total + call.calldata.length
    failIf (totalSize < total)
      s!"Call chain total calldata too large: {total} bytes (max: {totalSize})"
    checkChainCalldata size totalSize calls total

/-- One result of a chain, added to a diff. -/
def addChainResult (diff : StateDiff) (r : ExecutionResult) : StateDiff :=
  addResult r
    { diff with oracleUpdates := diff.oracleUpdates ++ r.queuedOracleRequests.map .queueRequest }

/-- `compute_call_chain_diff`. -/
def computeCallChainDiff (env : Env) (w : World) (diff : StateDiff) (sender : AccountId)
    (calls : List CellCall) (gasLimit : ℕ) (account : AccountRecord) (allowMcpTools : Bool) :
    Except String StateDiff := do
  let limit := w.globals.getU64 env "limits.max_call_chain_calls"
  failIf (limit < calls.length) s!"Call chain too large: {calls.length} calls (max: {limit})"
  failIf (!allowMcpTools && calls.any fun call => isMcpToolCell env w.state call.cellId)
    "Direct calls to MCP tools are not permitted"
  checkChainCalldata (w.globals.getU64 env "limits.max_calldata_size")
    (w.globals.getU64 env "limits.max_call_chain_total_calldata") calls 0
  let totalValue := (calls.map CellCall.value).sum % u128
  failIf (account.balance < totalValue) "Insufficient balance for call chain"
  let (after, results) ← executeCallChain env w w.state.cells calls sender 0 gasLimit
  let diff := addCells w.state.cells after (results.foldl addChainResult diff)
  pure (payValue { diff with cuFee := gasLimit } sender totalValue account)

/-! ## Ownership and upgrades -/

/-- The cell, which its owner alone may change: not one of the system authority. -/
def ownedCell (env : Env) (s : State) (sender cellId : AccountId) (refusal : String) :
    Except String CellAccount := do
  let cell ← okOr s.cells.cells[cellId]? "Cell not found"
  failIf (cell.owner = systemAuthorityId env) "System-owned cell: use governance proposal"
  failIf (cell.owner ≠ sender) refusal
  pure cell

/-- `compute_upgrade_cell_diff`. -/
def computeUpgradeCellDiff (env : Env) (w : World) (diff : StateDiff) (sender cellId : AccountId)
    (newBytecode : Bytes) (reads writes keys : List Bytes32) (specs : List StorageKeySpec)
    (schemas : List Bytes32) (timestamp : ℕ) : Except String StateDiff := do
  let cell ← ownedCell env w.state sender cellId "Not cell owner"
  failIf cell.isImmutable "Cell is immutable"
  failIf (w.globals.getU64 env "limits.max_cell_bytecode_size" < newBytecode.length)
    "Bytecode too large"
  verifyManifestAgainstBytecode newBytecode reads writes specs
  pure
    { diff with
      cellUpdates := diff.cellUpdates ++
        [.upgrade cellId newBytecode reads writes keys specs schemas timestamp]
      cuFee := w.globals.getU64 env "gas.upgrade_cell" }

/-- `compute_transfer_ownership_diff`. -/
def computeTransferOwnershipDiff (env : Env) (w : World) (diff : StateDiff)
    (sender cellId newOwner : AccountId) : Except String StateDiff := do
  let cell ← ownedCell env w.state sender cellId "Not cell owner"
  failIf cell.isImmutable "Cell is immutable"
  pure
    { diff with
      cellUpdates := diff.cellUpdates ++ [.transferOwnership cellId newOwner]
      cuFee := gasTransfer env w }

/-- `compute_make_immutable_diff`. -/
def computeMakeImmutableDiff (env : Env) (w : World) (diff : StateDiff) (sender cellId : AccountId) :
    Except String StateDiff := do
  let _ ← ownedCell env w.state sender cellId "Not cell owner"
  pure
    { diff with
      cellUpdates := diff.cellUpdates ++ [.makeImmutable cellId sender]
      cuFee := gasTransfer env w }

/-- `compute_close_cell_diff`. -/
def computeCloseCellDiff (env : Env) (w : World) (diff : StateDiff) (sender cellId : AccountId) :
    Except String StateDiff := do
  let cell ← ownedCell env w.state sender cellId "Only the cell owner can close the cell"
  failIf (cell.isToken ∧ 0 < (cell.tokenConfig.map TokenConfig.totalSupply).getD 0)
    "Cannot close token cell with non-zero supply"
  let owner ← okOr w.state.accounts[cell.owner]? "Cell owner account not found"
  pure
    { diff with
      accountUpdates := diff.accountUpdates.insert cell.owner
        { owner with balance := satAdd (satAdd owner.balance cell.balance) cell.rentDeposit }
      cellUpdates := diff.cellUpdates ++ [.remove cellId]
      cuFee := gasTransfer env w }

/-! ## Governance of cells -/

/-- A cell of the system authority, for a validator. -/
def governedCell (env : Env) (s : State) (cellId : AccountId) (account : AccountRecord)
    (refusal : String) : Except String CellAccount := do
  failIf (account.pubkeyBytes ∉ s.staking.validators) refusal
  let cell ← okOr s.cells.cells[cellId]? "Cell not found"
  failIf (cell.owner ≠ systemAuthorityId env) "Cell is not system-owned"
  pure cell

/-- The cell with a record in its place, as every governance intent writes it. -/
def redeploy (env : Env) (w : World) (diff : StateDiff) (cellId : AccountId) (cell : CellAccount) :
    StateDiff :=
  { diff with
    cellUpdates := diff.cellUpdates ++ [.deploy cellId cell]
    cuFee := gasTransfer env w }

/-- The checks of a cell that is to get a proposal. -/
def proposableCell (env : Env) (s : State) (cellId : AccountId) (account : AccountRecord)
    (refusal : String) : Except String CellAccount := do
  let cell ← governedCell env s cellId account refusal
  failIf cell.isImmutable "Cell is immutable"
  failIf (cell.governanceProposal.isSome) "Cell already has an active proposal"
  pure cell

/-- A proposal without votes. -/
def newProposal (w : World) (proposalType : ProposalType) (proposer : AccountId) (timelockBlocks : ℕ) :
    GovernanceProposal where
  proposalType := proposalType
  proposer := proposer
  createdAtHeight := w.globals.currentHeight
  timelockBlocks := timelockBlocks
  requireVote := true
  votesFor := 0
  votesAgainst := 0
  voters := ∅
  executed := false

/-- `compute_propose_cell_upgrade_diff`. -/
def computeProposeCellUpgradeDiff (env : Env) (w : World) (diff : StateDiff) (sender cellId : AccountId)
    (newBytecode : Bytes) (reads writes keys : List Bytes32) (specs : List StorageKeySpec)
    (schemas : List Bytes32) (timelockBlocks : ℕ) (account : AccountRecord) :
    Except String StateDiff := do
  let cell ← proposableCell env w.state cellId account "Only validators can propose upgrades"
  failIf (w.globals.getU64 env "limits.max_cell_bytecode_size" < newBytecode.length)
    "Bytecode too large"
  verifyManifestAgainstBytecode newBytecode reads writes specs
  pure (redeploy env w diff cellId { cell with
    governanceProposal := some (newProposal w
      (.upgrade newBytecode reads writes keys specs schemas) sender timelockBlocks) })

/-- `compute_propose_cell_ownership_transfer_diff`. -/
def computeProposeCellOwnershipTransferDiff (env : Env) (w : World) (diff : StateDiff)
    (sender cellId newOwner : AccountId) (timelockBlocks : ℕ) (account : AccountRecord) :
    Except String StateDiff := do
  let cell ← proposableCell env w.state cellId account "Only validators can propose ownership transfer"
  pure (redeploy env w diff cellId { cell with
    governanceProposal := some (newProposal w (.ownershipTransfer newOwner) sender timelockBlocks) })

/-- `compute_propose_cell_make_immutable_diff`. -/
def computeProposeCellMakeImmutableDiff (env : Env) (w : World) (diff : StateDiff)
    (sender cellId : AccountId) (timelockBlocks : ℕ) (account : AccountRecord) :
    Except String StateDiff := do
  let cell ← proposableCell env w.state cellId account "Only validators can propose make-immutable"
  pure (redeploy env w diff cellId { cell with
    governanceProposal := some (newProposal w .makeImmutable sender timelockBlocks) })

/-- The open proposal of a cell, and the height at which its timelock ends. -/
def openProposal (cell : CellAccount) : Except String (GovernanceProposal × ℕ) := do
  let p ← okOr cell.governanceProposal "No active proposal"
  failIf p.executed "Proposal already executed"
  failIf (u64 ≤ p.createdAtHeight + p.timelockBlocks) "Timelock calculation overflow"
  pure (p, p.createdAtHeight + p.timelockBlocks)

/-- `compute_vote_cell_proposal_diff`. -/
def computeVoteCellProposalDiff (env : Env) (w : World) (diff : StateDiff) (sender cellId : AccountId)
    (approve : Bool) (account : AccountRecord) : Except String StateDiff := do
  let cell ← governedCell env w.state cellId account "Only validators can vote"
  let (p, votingEndsAt) ← openProposal cell
  failIf (votingEndsAt < w.globals.currentHeight) "Voting period closed"
  failIf (sender ∈ p.voters) "Already voted"
  let stake := w.state.staking.stakeAt account.pubkeyBytes
  pure (redeploy env w diff cellId { cell with
    governanceProposal := some { p with
      voters := p.voters.insert sender
      votesFor := if approve then satAdd64 p.votesFor stake else p.votesFor
      votesAgainst := if approve then p.votesAgainst else satAdd64 p.votesAgainst stake } })

/-- What an approved proposal does to its cell. -/
def executeProposal (env : Env) (w : World) (cell : CellAccount) :
    ProposalType → Except String CellAccount
  | .ownershipTransfer newOwner => pure { cell with pendingOwner := some newOwner }
  | .upgrade newBytecode reads writes keys specs schemas => do
    failIf (w.globals.getU64 env "limits.max_cell_bytecode_size" < newBytecode.length)
      "Bytecode too large"
    verifyManifestAgainstBytecode newBytecode reads writes specs
    pure
      { cell with
        manifestVersion := satAdd64 cell.manifestVersion 1
        bytecode := newBytecode
        declaredReads := reads
        declaredWrites := writes
        commutativeKeys := keys
        storageKeySpecs := specs
        oracleSchemaIds := schemas
        manifestHash := computeManifestHash env newBytecode reads writes keys schemas
        upgradedAt := some w.globals.currentHeight }
  | .makeImmutable => pure { cell with isImmutable := true, pendingOwner := none }

/-- `compute_execute_cell_proposal_diff`. -/
def computeExecuteCellProposalDiff (env : Env) (w : World) (diff : StateDiff) (cellId : AccountId)
    (account : AccountRecord) : Except String StateDiff := do
  let cell ← governedCell env w.state cellId account "Only validators can execute proposals"
  let (p, unlockHeight) ← openProposal cell
  failIf (w.globals.currentHeight < unlockHeight) "Timelock not expired"
  let totalStake := w.state.staking.stakeOf fun v => v.isActive w.globals.currentHeight
  failIf (u64 ≤ totalStake * 67) "Approval threshold calculation overflow"
  failIf (p.votesFor < totalStake * 67 / 100) "Insufficient votes for approval"
  let cell ← executeProposal env w cell p.proposalType
  pure (redeploy env w diff cellId { cell with governanceProposal := none })

/-! ## URLs and oracle requests -/

/-- `char::is_whitespace`. -/
def isWhitespace (c : Char) : Bool :=
  (9 ≤ c.toNat && c.toNat ≤ 13) || (0x2000 ≤ c.toNat && c.toNat ≤ 0x200A) ||
  c.toNat ∈ [0x20, 0x85, 0xA0, 0x1680, 0x2028, 0x2029, 0x202F, 0x205F, 0x3000]

/-- `str::trim`. -/
def trim (s : String) : String :=
  String.ofList (((s.toList.dropWhile isWhitespace).reverse.dropWhile isWhitespace).reverse)

/-- The visibility a number of the intent stands for. -/
def parseVisibility (visibility : UInt8) : Except String CellVisibility :=
  if visibility = 0 then pure .private
  else if visibility = 1 then pure .public
  else throw "visibility must be 0 (Private) or 1 (Public)"

/-- `compute_set_cell_visibility_diff`. -/
def computeSetCellVisibilityDiff (env : Env) (w : World) (diff : StateDiff) (sender cellId : AccountId)
    (visibility : UInt8) : Except String StateDiff := do
  let cell ← okOr w.state.cells.cells[cellId]? "Cell not found"
  failIf (cell.owner ≠ sender) "Only cell owner can set visibility"
  let vis ← parseVisibility visibility
  failIf (vis = .public ∧ !(w.state.urlProposals.toList.any fun (_, p) =>
      p.proposer == sender && p.approved && !p.slashed))
    "Public visibility requires at least one approved bonded URL proposal by owner"
  pure
    { diff with
      oracleUpdates := diff.oracleUpdates ++ [.setVisibility cellId vis]
      cuFee := gasTransfer env w }

/-- `compute_propose_url_diff`. -/
def computeProposeUrlDiff (w : World) (diff : StateDiff) (sender : AccountId) (urlPattern : String)
    (bondAmount votingPeriodBlocks createdAt : ℕ) (account : AccountRecord) :
    Except String StateDiff := do
  let pattern := trim urlPattern
  failIf (pattern = "") "url_pattern must not be empty"
  failIf (bondAmount = 0) "URL proposal bond must be greater than zero"
  failIf (account.balance < bondAmount) "Insufficient balance for URL proposal bond"
  failIf (pattern ∈ w.state.urlProposals)
    ("URL proposal already exists for pattern '" ++ pattern ++ "'")
  let proposal : UrlProposal :=
    { urlPattern := pattern, proposer := sender, bondAmount := bondAmount, voters := ∅,
      votesForStake := 0, votesAgainstStake := 0, createdAt := createdAt,
      votingEndsAt := satAdd64 w.state.staking.currentHeight votingPeriodBlocks,
      approved := false, rejected := false, slashed := false, responseFormat := .raw, schemaId := none }
  pure
    { diff with
      nativeDebits := diff.nativeDebits ++ [(sender, bondAmount)]
      oracleUpdates := diff.oracleUpdates ++ [.addUrlProposal proposal] }

/-- `compute_vote_url_diff`. -/
def computeVoteUrlDiff (w : World) (diff : StateDiff) (urlPattern : String) (approve : Bool)
    (account : AccountRecord) : Except String StateDiff := do
  let pattern := trim urlPattern
  failIf (pattern = "") "url_pattern must not be empty"
  let proposal ← okOr w.state.urlProposals[pattern]? ("No proposal for URL pattern '" ++ pattern ++ "'")
  failIf (!proposal.votingOpen w.state.staking.currentHeight)
    ("Voting is closed for URL pattern '" ++ pattern ++ "'")
  let stake := w.state.staking.stakeAt account.pubkeyBytes
  failIf (stake = 0) "Only active validators can vote on URL proposals"
  pure
    { diff with
      oracleUpdates := diff.oracleUpdates ++ [.voteUrlProposal pattern account.pubkeyBytes
        (if approve then stake else 0) (if approve then 0 else stake)] }

/-- `compute_report_malicious_url_diff`. -/
def computeReportMaliciousUrlDiff (w : World) (diff : StateDiff) (urlPattern evidence : String) :
    Except String StateDiff := do
  let pattern := trim urlPattern
  failIf (pattern = "") "url_pattern must not be empty"
  failIf (trim evidence = "") "evidence must not be empty"
  failIf (pattern ∉ w.state.urlProposals) ("No proposal for URL pattern '" ++ pattern ++ "'")
  pure { diff with oracleUpdates := diff.oracleUpdates ++ [.slashUrlProposer pattern] }

/-- `compute_oracle_commit_diff`. -/
def computeOracleCommitDiff (env : Env) (w : World) (diff : StateDiff) (requestId commitHash : Bytes32)
    (account : AccountRecord) : Except String StateDiff := do
  failIf (account.pubkeyBytes ∉ w.state.staking.validators) "Only validators can submit oracle commits"
  failIf (requestId ∉ w.state.pendingOracleRequests) "Unknown oracle request_id"
  failIf ((w.state.oraclePending[requestId]?).any fun t => decide (account.pubkeyBytes ∈ t.commits))
    "Validator already committed for this request"
  pure
    { diff with
      oracleUpdates := diff.oracleUpdates ++ [.addCommit requestId
        ⟨requestId, commitHash, account.pubkeyBytes, w.globals.currentHeight⟩]
      cuFee := gasTransfer env w }

/-- The result a reveal finalises, when the tally with it reaches the quorum. -/
def finalizedResult (env : Env) (w : World) (req : OracleRequest) (tally : OracleTally) (requestId : Bytes32) :
    List OracleUpdate :=
  match tally.tryFinalizeWithFormat env.toTallyEnv w.state.staking req.responseFormat
    (w.globals.getU64 env "oracle.reveal_quorum_percent") with
  | none => []
  | some (body, status, agreeing, total) =>
    [.finalizeResult
      { requestId := requestId, url := req.url, method := req.method, responseBody := body,
        responseStatus := status, bodyHash := env.blake3 body, finalizedAt := w.globals.currentHeight,
        expiresAt :=
          (w.globals.currentHeight + w.globals.getU64 env "oracle.cache_expiry_blocks") % u64,
        quorumStakeNum := agreeing, quorumStakeDen := total, requestingCell := req.requestingCell }]

/-- `compute_oracle_reveal_diff`. A reveal that does not match its commit is a lie: it slashes the
validator instead of being recorded. -/
def computeOracleRevealDiff (env : Env) (w : World) (diff : StateDiff) (requestId : Bytes32)
    (responseBody : Bytes) (responseStatus : ℕ) (account : AccountRecord) : Except String StateDiff := do
  let pk := account.pubkeyBytes
  failIf (pk ∉ w.state.staking.validators) "Only validators can submit oracle reveals"
  let req ← okOr w.state.pendingOracleRequests[requestId]? "Unknown oracle request_id"
  let tally ← okOr w.state.oraclePending[requestId]?
    "No commit tally for this request_id - commit phase must precede reveal"
  failIf (!tally.commitQuorumReached (w.globals.getU64 env "oracle.commit_quorum_percent"))
    "Commit quorum not reached for this request"
  let storedCommit ← okOr tally.commits[pk]? "Validator has not committed for this request"
  failIf (pk ∈ tally.reveals) "Validator already revealed for this request"
  let limit := w.globals.getU64 env "oracle.max_response_bytes"
  failIf (limit < responseBody.length) s!"Response body exceeds {limit} byte limit"
  if computeCommitHash env.toTallyEnv pk requestId responseBody responseStatus ≠ storedCommit then
    let outcome ← computeSlashOutcome w.state.staking pk
      (w.globals.getU64 env "staking.oracle_lie_slash_percentage")
    pure
      { diff with
        stakingUpdates := diff.stakingUpdates ++
          [.slash pk .oracleLie outcome.amount outcome.redistribution]
        cuFee := gasTransfer env w * 2 }
  else
    let tally := { tally with reveals := tally.reveals.insert pk (responseBody, responseStatus) }
    pure
      { diff with
        oracleUpdates := diff.oracleUpdates ++
          [.addReveal requestId ⟨requestId, responseBody, responseStatus, pk, w.globals.currentHeight⟩] ++
          finalizedResult env w req tally requestId
        cuFee := gasTransfer env w * 2 }

/-! ## Fees -/

/-- `cu_fee_to_tlkd`: the price of compute units, rounded up. -/
def cuFeeToTlkd (env : Env) (w : World) (cuFee : ℕ) : Except String ℕ := do
  let rate := w.globals.getU64 env "cu.per_tlkd"
  failIf (rate = 0) "cu_per_tlkd is zero"
  failIf (u128 ≤ cuFee * oneTlkd) "CU fee overflow"
  pure (satAdd (cuFee * oneTlkd) (rate - 1) / rate)

/-- The byte fee of a transaction; a claim pays none. -/
def txByteFee (env : Env) (w : World) (tx : Transaction) : ℕ :=
  match tx.intent with
  | .claim .. => 0
  | _ => satMul (env.serialize tx).length (w.globals.getU64 env "fees.tx_byte")

/-- The gas that the handler of an intent has taken with its own debit. -/
def embeddedFee (env : Env) (w : World) : TransactionIntent → Option ℕ
  | .transfer .. | .transferToName .. => some (gasTransfer env w)
  | .batchTransfer transfers => some (satMul (gasTransfer env w) transfers.length)
  | .batchTransferToName transfers => some (satMul (gasTransfer env w) transfers.length)
  | _ => none

/-- The fees an intent must pay, in TLKD and in compute units. -/
def requiredFees (env : Env) (w : World) (byteFee : ℕ) : TransactionIntent → ℕ × ℕ
  | .transfer .. | .transferToName .. => ((gasTransfer env w + byteFee) % u128, 0)
  | .batchTransfer transfers => (satAdd (satMul (gasTransfer env w) transfers.length) byteFee, 0)
  | .batchTransferToName transfers => (satAdd (satMul (gasTransfer env w) transfers.length) byteFee, 0)
  | .stake .. => (0, w.globals.getU64 env "gas.stake")
  | .unstake .. => (0, w.globals.getU64 env "gas.unstake")
  | .withdrawStake => (0, w.globals.getU64 env "gas.withdraw")
  | .unjail => (0, w.globals.getU64 env "gas.unjail")
  | .tokenTransfer .. | .tokenFreeze .. | .tokenThaw .. => (0, w.globals.getU64 env "gas.token_transfer")
  | .tokenMint .. => (0, w.globals.getU64 env "gas.token_mint")
  | .tokenBurn .. => (0, w.globals.getU64 env "gas.token_burn")
  | .mintNFT .. => (0, w.globals.getU64 env "gas.mint_nft")
  | .transferNFT .. => (0, w.globals.getU64 env "gas.transfer_nft")
  | .burnNFT .. => (0, w.globals.getU64 env "gas.burn_nft")
  | .approveNFT .. => (0, w.globals.getU64 env "gas.approve_nft")
  | .rotateKey .. => (0, w.globals.getU64 env "gas.rotate_key")
  | .deployCell .. | .privateBalanceInit .. => (0, w.globals.getU64 env "gas.deploy_cell")
  | .deployToken .. => (0, w.globals.getU64 env "gas.deploy_token")
  | .upgradeCell .. => (0, w.globals.getU64 env "gas.upgrade_cell")
  | .callCell _ _ _ gasLimit => (0, gasLimit)
  | .callCellChain _ gasLimit => (0, gasLimit)
  | .mcpToolCall .. => (0, gasTransfer env w * 2 % u64)
  | .privateBalanceConfidentialTransfer .. => (0, gasTransfer env w * 3 % u64)
  | .registerMcpTool .. | .registerMcpResource .. | .registerMcpPrompt .. | .registerAgent ..
  | .suspendAgent .. | .reinstateAgent .. | .claim .. => (0, 0)
  | _ => (0, gasTransfer env w)

/-- The fees of the handler's diff, raised to what the intent must pay. -/
def settleFees (requiredTrth requiredCu byteFee : ℕ) (diff : StateDiff) : StateDiff :=
  let diff := if 0 < requiredTrth then
      { diff with cuFee := 0, gasFee := max diff.gasFee requiredTrth }
    else if 0 < requiredCu ∧ diff.cuFee = 0 then { diff with cuFee := requiredCu }
    else diff
  if requiredTrth = 0 ∧ diff.gasFee < byteFee then { diff with gasFee := byteFee } else diff

/-- What a list moves for one account, in `u128` arithmetic. -/
def amountFor (a : AccountId) (l : List (AccountId × ℕ)) : ℕ :=
  ((l.filter fun c => decide (c.1 = a)).map Prod.snd).sum % u128

/-- The debit of the gas. -/
def debitGas (sender : AccountId) (account : AccountRecord) (embedded : Option ℕ) (diff : StateDiff) :
    Except String StateDiff :=
  match embedded with
  | some fee =>
    if fee < diff.gasFee then do
      let extra := diff.gasFee - fee
      let total ← okOr (checkedAdd (amountFor sender diff.nativeDebits) extra) "Gas fee overflow"
      failIf (account.balance < total) "Insufficient balance for byte-weighted gas fee"
      pure { diff with nativeDebits := diff.nativeDebits ++ [(sender, extra)] }
    else pure diff
  | none =>
    if 0 < diff.gasFee then do
      let balance := ((diff.accountUpdates[sender]?).map AccountRecord.balance).getD account.balance
      failIf (balance < diff.gasFee) "Insufficient balance for gas fee"
      pure { diff with nativeDebits := diff.nativeDebits ++ [(sender, diff.gasFee)] }
    else pure diff

/-- The debit of the compute escrow. -/
def debitEscrow (env : Env) (w : World) (sender : AccountId) (account : AccountRecord)
    (diff : StateDiff) : Except String StateDiff :=
  if 0 < diff.cuFee then do
    let credited ← okOr (checkedAdd account.computeEscrowTlkd (amountFor sender diff.computeEscrowCredits))
      "Escrow overflow"
    let escrow ← okOr (checkedSub credited (amountFor sender diff.computeEscrowDebits)) "Escrow underflow"
    let fee ← cuFeeToTlkd env w diff.cuFee
    failIf (escrow < fee) "Insufficient compute escrow"
    pure
      { diff with
        computeEscrowDebits := diff.computeEscrowDebits ++ [(sender, fee)]
        computeFeeTlkd := fee }
  else pure diff

/-- The sender's record is always among the account updates, with its public key. -/
def recordSender (sender : AccountId) (account : AccountRecord) (diff : StateDiff) : StateDiff :=
  let entry := (diff.accountUpdates[sender]?).getD account
  let entry := if entry.pubkeyBytes = [] then { entry with pubkeyBytes := account.pubkeyBytes } else entry
  { diff with accountUpdates := diff.accountUpdates.insert sender entry }

/-! ## The intents -/

/-- A diff of the agent and tool functions, of which cell updates and compute fee are taken. -/
def takeCells (diff mcp : StateDiff) : StateDiff :=
  { diff with cellUpdates := diff.cellUpdates ++ mcp.cellUpdates, cuFee := mcp.cuFee }

/-- A diff of the private balance circuits, of which the payments are taken too. -/
def takePayments (diff pb : StateDiff) : StateDiff :=
  { takeCells diff pb with
    accountUpdates := pb.accountUpdates.toList.foldl (fun m (a, r) => m.insert a r) diff.accountUpdates
    nativeDebits := diff.nativeDebits ++ pb.nativeDebits
    nativeTransfers := diff.nativeTransfers ++ pb.nativeTransfers }

/-- The calls of a tool call. -/
def toolCalls (env : Env) (agentId toolId : AccountId) (calldata : Bytes) (value : ℕ)
    (policyCellId : AccountId) (logId : Option AccountId) (time : ℕ) : Except String (List CellCall) :=
  match compileToolCallToChain env agentId toolId calldata value policyCellId logId time with
  | .ok calls => pure calls
  | .error e => throw ("McpToolCall compile error: " ++ e)

/-- The handler of an intent. -/
def computeIntent (env : Env) (w : World) (diff : StateDiff) (sender : AccountId) (timestamp : ℕ)
    (account : AccountRecord) : TransactionIntent → Except String StateDiff
  | .transfer recipient pubkey amount =>
    computeTransferDiff env w diff sender recipient (pubkey.getD []) amount account
  | .transferToName name amount => do
    let recipient ← resolveNameToAccount w.state name w.state.staking.currentHeight
    computeTransferDiff env w diff sender recipient [] amount account
  | .batchTransfer transfers => computeBatchTransferDiff env w diff sender transfers account
  | .batchTransferToName transfers => do
    let resolved ← resolveNames w.state transfers
    computeBatchTransferDiff env w diff sender resolved account
  | .claim recipient pubkey amount =>
    computeClaimDiff env w diff sender recipient (pubkey.getD []) amount timestamp
  | .rotateKey newPubkey => computeRotateKeyDiff env w diff sender newPubkey account
  | .depositCompute amount => computeDepositComputeDiff diff sender amount account
  | .withdrawCompute amount => computeWithdrawComputeDiff diff sender amount account
  | .wrapTLKD amount => computeWrapTrthDiff env diff sender amount account
  | .unwrapTLKD amount => computeUnwrapTrthDiff env w diff sender amount
  | .stake _ => throw "Staking intents disabled: use staking controller cell"
  | .unstake _ => throw "Unstake intents disabled: use staking controller cell"
  | .withdrawStake => throw "Withdraw intents disabled: use staking controller cell"
  | .unjail => throw "Unjail intents disabled: use staking controller cell"
  | .proposeTokenAuthority .. | .voteTokenAuthority .. | .callSystem .. =>
    throw "Intent disabled: use the corresponding system cell"
  | .mintNFT nftId name uri collection bps recipient =>
    computeMintNftDiff env w diff sender nftId name uri collection bps recipient timestamp
  | .transferNFT nftId recipient pubkey salePrice =>
    computeTransferNftDiff env w diff sender nftId recipient (pubkey.getD []) salePrice account
  | .burnNFT nftId => computeBurnNftDiff env w diff sender nftId account
  | .approveNFT nftId approved => computeApproveNftDiff env w diff nftId approved account
  | .deployCell cellId bytecode balance reads writes keys specs schemas =>
    computeDeployCellDiff env w diff sender cellId bytecode balance timestamp reads writes keys specs
      schemas account
  | .deployToken cellId name symbol decimals supply bps feeRecipient nonTransferable =>
    computeDeployTokenDiff env w diff sender cellId name symbol decimals supply bps feeRecipient
      nonTransferable timestamp account
  | .callCell cellId calldata value gasLimit =>
    computeCallCellDiff env w diff sender cellId calldata value gasLimit timestamp
      w.state.staking.currentHeight account
  | .callCellChain calls gasLimit => computeCallChainDiff env w diff sender calls gasLimit account false
  | .upgradeCell cellId bytecode reads writes keys specs schemas =>
    computeUpgradeCellDiff env w diff sender cellId bytecode reads writes keys specs schemas timestamp
  | .transferOwnership cellId newOwner => computeTransferOwnershipDiff env w diff sender cellId newOwner
  | .acceptOwnership cellId => pure
      { diff with
        cellUpdates := diff.cellUpdates ++ [.acceptOwnership cellId sender]
        cuFee := gasTransfer env w }
  | .makeImmutable cellId => computeMakeImmutableDiff env w diff sender cellId
  | .closeCell cellId => computeCloseCellDiff env w diff sender cellId
  | .proposeCellUpgrade cellId bytecode reads writes keys specs schemas timelock =>
    computeProposeCellUpgradeDiff env w diff sender cellId bytecode reads writes keys specs schemas
      timelock account
  | .proposeCellOwnershipTransfer cellId newOwner timelock =>
    computeProposeCellOwnershipTransferDiff env w diff sender cellId newOwner timelock account
  | .proposeCellMakeImmutable cellId timelock =>
    computeProposeCellMakeImmutableDiff env w diff sender cellId timelock account
  | .voteCellProposal cellId approve =>
    computeVoteCellProposalDiff env w diff sender cellId approve account
  | .executeCellProposal cellId => computeExecuteCellProposalDiff env w diff cellId account
  | .tokenTransfer token recipient amount =>
    computeTokenTransferDiff env w diff sender token recipient amount
  | .tokenMint token recipient amount => computeTokenMintDiff env w diff sender token recipient amount
  | .tokenBurn token amount => computeTokenBurnDiff env w diff sender token amount
  | .tokenFreeze token a => computeTokenFreezeDiff env w diff "freeze" true sender token a
  | .tokenThaw token a => computeTokenFreezeDiff env w diff "thaw" false sender token a
  | .proposeUrl pattern bond period =>
    computeProposeUrlDiff w diff sender pattern bond period timestamp account
  | .voteUrl pattern approve => computeVoteUrlDiff w diff pattern approve account
  | .reportMaliciousUrl pattern evidence => computeReportMaliciousUrlDiff w diff pattern evidence
  | .setCellVisibility cellId visibility =>
    computeSetCellVisibilityDiff env w diff sender cellId visibility
  | .registerMcpTool toolId bytecode name schema category reads writes keys schemas registryId => do
    failIf (sender ≠ systemAuthorityId env) "RegisterMcpTool is protocol-governance only"
    let mcp ← diffRegisterTool env w sender toolId bytecode name schema category reads writes keys
      schemas registryId timestamp
    pure (takeCells diff mcp)
  | .registerMcpResource id bytecode name uri mime data reads writes schemas registryId => do
    let mcp ← diffRegisterResource env w sender id bytecode name uri mime data reads writes schemas
      registryId timestamp
    pure (takeCells diff mcp)
  | .registerMcpPrompt id name template arguments registryId => do
    let mcp ← diffRegisterPrompt env w sender id name template arguments registryId timestamp
    pure (takeCells diff mcp)
  | .registerAgent agentId policyCellId registryId => do
    let mcp ← diffRegisterAgent env w sender agentId policyCellId registryId timestamp
    pure (takeCells diff mcp)
  | .suspendAgent agentId registryId reason => do
    let mcp ← diffSetAgentStatus env w sender agentId registryId 1 reason
    pure (takeCells diff mcp)
  | .reinstateAgent agentId registryId => do
    let mcp ← diffSetAgentStatus env w sender agentId registryId 0 ""
    pure (takeCells diff mcp)
  | .mcpToolCall agentId toolId calldata value gasLimit policyCellId logId time => do
    let calls ← toolCalls env agentId toolId calldata value policyCellId logId time
    computeCallChainDiff env w diff sender calls gasLimit account true
  | .privateBalanceInit cellId agentId enc comm nonce => do
    let pb ← circuitInitPrivateBalance env w sender cellId agentId enc comm nonce timestamp
    pure (takePayments diff pb)
  | .privateBalanceDeposit cellId agentId amount enc comm nonce old => do
    let pb ← circuitDeposit env w sender cellId agentId amount enc comm nonce old
    pure (takePayments diff pb)
  | .privateBalanceWithdraw cellId agentId amount recipient enc comm nonce old => do
    let pb ← circuitWithdraw env w sender cellId agentId amount recipient enc comm nonce old
    pure (takePayments diff pb)
  | .privateBalanceConfidentialTransfer sCell sAgent rCell amount proof sEnc sComm sNonce sOld rEnc rComm
      rNonce rOld => do
    let pb ← circuitConfidentialTransfer env w sender sCell sAgent rCell amount proof sEnc sComm sNonce
      sOld rEnc rComm rNonce rOld
    pure (takePayments diff pb)
  | .submitOracleCommit requestId commitHash =>
    computeOracleCommitDiff env w diff requestId commitHash account
  | .submitOracleReveal requestId body status =>
    computeOracleRevealDiff env w diff requestId body status account

/-! ## The whole function -/

/-- The hash under which a transaction is recorded. -/
def txHashOf (env : Env) (tx : Transaction) : Bytes32 := env.blake3 (env.serialize tx)

/-- The checks of a transaction that do not depend on its intent; they return the sender's account. -/
def checkTransaction (env : Env) (w : World) (tx : Transaction) : Except String AccountRecord := do
  failIf (txHashOf env tx ∈ w.state.executedTxHashes) "Transaction already executed (replay detected)"
  failIf (tx.genesisFingerprint ≠ w.globals.genesisHash)
    ("Invalid genesis fingerprint: expected " ++ hexEncode w.globals.genesisHash ++ ", got " ++
      hexEncode tx.genesisFingerprint)
  failIf (tx.expirationHeight ≤ w.globals.currentHeight)
    s!"Transaction expired: height {tx.expirationHeight} <= current {w.globals.currentHeight}"
  let account ← okOr w.state.accounts[tx.sender]? "Sender account does not exist"
  let expected := satAdd64 account.nonce 1
  failIf (tx.nonce ≠ expected) s!"Invalid nonce: expected {expected}, got {tx.nonce}"
  pure account

/-- The fees of a transaction, once its handler has run. -/
def payFees (env : Env) (w : World) (tx : Transaction) (account : AccountRecord) (diff : StateDiff) :
    Except String StateDiff := do
  let byteFee := txByteFee env w tx
  let required := requiredFees env w byteFee tx.intent
  let diff := settleFees required.1 required.2 byteFee diff
  failIf (0 < required.1 ∧ diff.gasFee < required.1)
    s!"Insufficient TLKD fee: {diff.gasFee} < {required.1}"
  failIf (0 < required.2 ∧ diff.cuFee < required.2) s!"Insufficient CU fee: {diff.cuFee} < {required.2}"
  let diff ← debitGas tx.sender account (embeddedFee env w tx.intent) diff
  let diff ← debitEscrow env w tx.sender account diff
  pure (recordSender tx.sender account diff)

/-- `State::compute_transaction_diff_skip_sig`. -/
def computeTransactionDiffSkipSig (env : Env) (w : World) (tx : Transaction) : Except String StateDiff := do
  let account ← checkTransaction env w tx
  let diff : StateDiff := { nonceUpdates := [(tx.sender, tx.nonce)], txHash := txHashOf env tx }
  let diff ← computeIntent env w diff tx.sender tx.timestamp account tx.intent
  payFees env w tx account diff

end TruthLinked.Ledger.ComputeCells
