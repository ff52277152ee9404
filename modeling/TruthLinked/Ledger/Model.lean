import TruthLinked.Runtime.Types
import TruthLinked.Lib.Phase

/-! # The ledger state

`State` of `truthlinked-state/src/pq_execution.rs`, the process-wide caches beside it, and the
computations that update them. A failed update is not rolled back: `StM` keeps the state it had reached.
Balances are `u128`: `u128` is one more than the largest. -/

namespace TruthLinked.Ledger.Model

open Core.Types Runtime.Cells Runtime.Types Governance.Types Staking.State Oracle.Tally Lib.Phase

/-- One more than `u128::MAX`. -/
abbrev u128 : ℕ := 2 ^ 128

/-- `u128::saturating_add`. -/
def satAdd (a b : ℕ) : ℕ := min (a + b) (u128 - 1)

/-- `u128::saturating_mul`. -/
def satMul (a b : ℕ) : ℕ := min (a * b) (u128 - 1)

/-- `u128::checked_add`. -/
def checkedAdd (a b : ℕ) : Option ℕ := if a + b < u128 then some (a + b) else none

/-- `u128::checked_sub`. -/
def checkedSub (a b : ℕ) : Option ℕ := if b ≤ a then some (a - b) else none

/-- What the ledger uses of third-party code: the hash functions, what a tally uses, the serialised form
of a transaction, the test for a signature key, and the check of a proof against its commitments. -/
structure Env extends TallyEnv where
  sha256 : Bytes → Bytes32
  serialize : Transaction → Bytes
  isPublicKey : Bytes → Bool
  verifyCtProof : Bytes → List Bytes32 → Except String Unit

/-- `account_id_from_pubkey`. -/
def accountIdFromPubkey (env : Env) (pubkey : Bytes) : AccountId :=
  env.sha256 ("truthlinked-account-id-v1".toUTF8.toList ++ pubkey)

/-- `system_cell_id`. -/
def systemCellId (env : Env) (label : String) : AccountId := env.sha256 label.toUTF8.toList

/-- `staking_system_cell_id`. -/
def stakingSystemCellId (env : Env) : AccountId := systemCellId env "truthlinked-staking-v1"

/-- `governance_system_cell_id`. -/
def governanceSystemCellId (env : Env) : AccountId := systemCellId env "truthlinked-governance-v1"

/-- `name_registry_system_cell_id`. -/
def nameRegistrySystemCellId (env : Env) : AccountId := systemCellId env "truthlinked-name-registry-v1"

/-- `token_governance_system_cell_id`. -/
def tokenGovernanceSystemCellId (env : Env) : AccountId :=
  systemCellId env "truthlinked-token-governance-v1"

/-- `oracle_governance_system_cell_id`. -/
def oracleGovernanceSystemCellId (env : Env) : AccountId :=
  systemCellId env "truthlinked-oracle-governance-v1"

/-- `system_authority_id`. -/
def systemAuthorityId (env : Env) : AccountId := systemCellId env "truthlinked-system-authority-v1"

/-- `treasury_system_cell_id`. -/
def treasurySystemCellId (env : Env) : AccountId := systemCellId env "truthlinked-treasury-v1"

/-- `wtrth_system_cell_id`. -/
def wtrthSystemCellId (env : Env) : AccountId := systemCellId env "truthlinked-wtrth-v1"

/-- `is_system_cell`. -/
def isSystemCell (env : Env) (cellId : AccountId) : Bool :=
  cellId ∈ [stakingSystemCellId env, stakingSystemCellId env, wtrthSystemCellId env,
    treasurySystemCellId env, governanceSystemCellId env, nameRegistrySystemCellId env,
    tokenGovernanceSystemCellId env, oracleGovernanceSystemCellId env]

/-- `State`. -/
structure State where
  accounts : Map AccountId AccountRecord
  staking : StakingState
  nfts : Map Bytes32 NFTRecord
  cells : CellState
  accumulatedGasFees : ℕ
  accumulatedNameFees : ℕ
  accumulatedComputeFeesTlkd : ℕ
  accumulatedTreasuryFees : ℕ
  executedTxHashes : FSet Bytes32
  params : Map Bytes32 Bytes32
  nameRegistry : Map String NameRegistration
  pendingNames : Map String PendingNameRegistration
  tokenAuthorityProposals : Map AccountId TokenAuthorityProposal
  airdropClaims : Map AccountId ℕ
  totalMinted : ℕ
  foundationMintAuthority : Option AccountId
  pendingOracleRequests : Map Bytes32 OracleRequest
  oraclePending : Map Bytes32 OracleTally
  oracleResults : Map Bytes32 OracleResult
  urlProposals : Map String UrlProposal
  schemaProposals : Map Bytes32 SchemaProposal
  schemaRegistry : Map Bytes32 SchemaEntry
  cellVisibility : Map AccountId CellVisibility
  accumulatedEpochFees : ℕ
  lastEmissionEpoch : ℕ
  chainAgeYears : ℕ

/-- The process-wide caches and settings: the parameter cache, the oracle results, visibilities and URL
proposals the virtual machine reads, the height and the genesis hash. -/
structure Globals where
  paramCache : Map Bytes32 Bytes32
  oracleResults : Map Bytes32 OracleResult
  cellVisibility : Map AccountId CellVisibility
  urlProposals : Map String UrlProposal
  currentHeight : ℕ
  genesisHash : Bytes32

/-- The state of a node as far as a diff can change it. -/
structure World where
  state : State
  globals : Globals

/-- Updates of the ledger. -/
abbrev StM := ExceptT String (StateM World)

/-- `gp::get_u64`. -/
def Globals.getU64 (env : Env) (g : Globals) (name : String) : ℕ :=
  decodeU64 (requireParam env.sha256 g.paramCache name)

/-- `gp::get_u128`. -/
def Globals.getU128 (env : Env) (g : Globals) (name : String) : ℕ :=
  decodeU128 (requireParam env.sha256 g.paramCache name)

/-- Changes the ledger part of the world. -/
def World.onState (f : State → State) (w : World) : World := { w with state := f w.state }

/-- Changes the caches. -/
def World.onGlobals (f : Globals → Globals) (w : World) : World := { w with globals := f w.globals }

@[simp] theorem World.onState_state (f : State → State) (w : World) :
    (w.onState f).state = f w.state := rfl

@[simp] theorem World.onState_globals (f : State → State) (w : World) :
    (w.onState f).globals = w.globals := rfl

/-- A change of the ledger alone. -/
def modifyState (f : State → State) : StM Unit := modify (World.onState f)

/-- The accounts. -/
abbrev Accounts := Map AccountId AccountRecord

/-- A computation on the accounts. -/
def onAccounts {α : Type} (m : ExceptT String (StateM Accounts) α) : StM α :=
  zoom (fun w => w.state.accounts) (fun a => World.onState fun s => { s with accounts := a }) m

/-- A computation on the stakes. -/
def onStaking {α : Type} (m : StakingM α) : StM α :=
  zoom (fun w => w.state.staking) (fun st => World.onState fun s => { s with staking := st }) m

/-- A computation on the cells and token balances. -/
def onCells {α : Type} (m : ExceptT String (StateM CellState) α) : StM α :=
  zoom (fun w => w.state.cells) (fun c => World.onState fun s => { s with cells := c }) m

end TruthLinked.Ledger.Model
