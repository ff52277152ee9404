import TruthLinked.Ledger.Model
import TruthLinked.Lib.SortKey

/-! # The state root

`compute_state_root_from_state` of `truthlinked-consensus/src/snapshot.rs`: SHA-256 over the concatenation
of about twenty-five sections. Each function below gives the bytes that the function of that name feeds to
the hasher. The code collects the entries of a hash map and sorts them; in which order it finds them is a
parameter (`Iteration`). Log lines are left out. -/

namespace TruthLinked.Consensus.StateRoot

open Core.Types Runtime.Cells Runtime.Types Governance.Types Staking.State Oracle.Tally Ledger.Model
open Lib.SortKey

/-- The order in which hash maps and sets are walked. -/
structure Iteration where
  entries : {K V : Type} → [Ord K] → [Std.TransOrd K] → Map K V → List (K × V)
  entries_perm : ∀ {K V : Type} [Ord K] [Std.TransOrd K] (m : Map K V), (entries m).Perm m.toList
  elements : {K : Type} → [Ord K] → [Std.TransOrd K] → FSet K → List K
  elements_perm : ∀ {K : Type} [Ord K] [Std.TransOrd K] (s : FSet K), (elements s).Perm s.toList

/-- `sort`, `sort_unstable`: equal values cannot be told apart. -/
def sorted {α : Type} [Ord α] (l : List α) : List α := sortByKey id l

/-! ## Strings, numbers and lists -/

/-- `hash_tag`. -/
def hashTag (tag : String) : Bytes := tag.toUTF8.toList ++ [0]

/-- `hash_bytes`. -/
def hashBytes (bytes : Bytes) : Bytes := leBytes 4 bytes.length ++ bytes

/-- `hash_string`. -/
def hashString (value : String) : Bytes := hashBytes value.toUTF8.toList

/-- `hash_bool`. -/
def hashBool (value : Bool) : Bytes := [if value then 1 else 0]

/-- `hash_u8`. -/
def hashU8 (value : ℕ) : Bytes := leBytes 1 value

/-- `hash_u16`. -/
def hashU16 (value : ℕ) : Bytes := leBytes 2 value

/-- `hash_u64`. -/
def hashU64 (value : ℕ) : Bytes := leBytes 8 value

/-- `hash_u128`. -/
def hashU128 (value : ℕ) : Bytes := leBytes 16 value

/-- A `u32` count and the items. -/
def hashItems {α : Type} (hash : α → Bytes) (items : List α) : Bytes :=
  leBytes 4 items.length ++ items.flatMap hash

/-- A flag, and the value after a set one. -/
def hashOption {α : Type} (hash : α → Bytes) : Option α → Bytes
  | some a => hashBool true ++ hash a
  | none => hashBool false

/-- `hash_vec_fixed_32`. -/
def hashVecFixed32 (values : List Bytes32) : Bytes := hashItems ofBytes32 values

section
variable (it : Iteration)

/-- The entries of a map in key order after their number. -/
def hashMap {K V : Type} [Ord K] [Std.TransOrd K] (hash : K × V → Bytes) (m : Map K V) : Bytes :=
  hashItems hash (sortByKey Prod.fst (it.entries m))

/-- The elements of a set in order after their number. -/
def hashSet {K : Type} [Ord K] [Std.TransOrd K] (hash : K → Bytes) (s : FSet K) : Bytes :=
  hashItems hash (sorted (it.elements s))

/-! ## Records -/

/-- `hash_account_record`. -/
def hashAccountRecord (account : AccountRecord) : Bytes :=
  hashBytes account.pubkeyBytes ++ hashU128 account.balance ++ hashU128 account.computeEscrowTlkd ++
    hashItems ofBytes32 account.nfts

/-- `hash_nft_record`. -/
def hashNftRecord (record : NFTRecord) : Bytes :=
  ofBytes32 record.nftId ++ ofBytes32 record.owner ++ hashString record.metadataUri ++
    hashU64 record.mintedAt ++ hashOption ofBytes32 record.collection ++ hashU16 record.royaltyBps ++
    hashOption ofBytes32 record.royaltyRecipient ++ hashOption ofBytes32 record.approved

/-- One entry of `hash_name_registry`. -/
def hashNameRegistration (reg : NameRegistration) : Bytes :=
  ofBytes32 reg.owner ++ ofBytes32 reg.target ++ hashU64 reg.registeredAt ++ hashU64 reg.expiresAt ++
    hashBool reg.isCell

/-- One entry of `hash_pending_names`. -/
def hashPendingName (reg : PendingNameRegistration) : Bytes :=
  ofBytes32 reg.cellId ++ ofBytes32 reg.owner ++ hashBool reg.isCell ++ hashBytes reg.proposer ++
    hashSet it hashBytes reg.votes ++ hashU64 reg.totalStakeVoted ++ hashU64 reg.proposedAt

/-- One entry of `hash_token_authority_proposals`: here a 32-byte value has its length before it. -/
def hashTokenAuthorityProposal (tokenCell : AccountId) (proposal : TokenAuthorityProposal) : Bytes :=
  hashBytes (ofBytes32 tokenCell) ++ hashBytes proposal.proposer ++ hashU64 proposal.votesForStake ++
    hashU64 proposal.createdAt ++ hashU64 proposal.votingEndsAt ++ hashBool proposal.setMintAuthority ++
    hashOption (fun mint => hashBytes (ofBytes32 mint)) proposal.newMintAuthority ++
    hashBool proposal.setFreezeAuthority ++
    hashOption (fun freeze => hashBytes (ofBytes32 freeze)) proposal.newFreezeAuthority

/-- `response_format as u8`. -/
def formatTag : UrlResponseFormat → ℕ
  | .raw => 0
  | .jsonCanonical => 1
  | .priceUsd => 2

/-- One entry of `hash_oracle_requests`. -/
def hashOracleRequest (req : OracleRequest) : Bytes :=
  hashString req.url ++ hashString req.method ++ hashBytes req.body ++
    hashU8 (formatTag req.responseFormat) ++ ofBytes32 (req.schemaId.getD 0) ++
    hashU64 req.requestedAt ++ hashU64 req.expiresAt ++ ofBytes32 req.requestingCell

/-- One entry of `hash_oracle_pending`. -/
def hashOracleTally (tally : OracleTally) : Bytes :=
  hashMap it (fun (pk, commit) => hashBytes pk ++ ofBytes32 commit) tally.commits ++
    hashMap it (fun (pk, body, status) => hashBytes pk ++ hashBytes body ++ hashU16 status)
      tally.reveals ++
    hashU64 tally.committedStake ++ hashU64 tally.totalStake ++ hashBool tally.commitPhaseClosed

/-- One entry of `hash_oracle_results`. -/
def hashOracleResult (res : OracleResult) : Bytes :=
  hashString res.url ++ hashString res.method ++ hashBytes res.responseBody ++
    hashU16 res.responseStatus ++ ofBytes32 res.bodyHash ++ hashU64 res.finalizedAt ++
    hashU64 res.expiresAt ++ hashU64 res.quorumStakeNum ++ hashU64 res.quorumStakeDen

/-- One entry of `hash_url_proposals`. -/
def hashUrlProposal (proposal : UrlProposal) : Bytes :=
  hashString proposal.urlPattern ++ ofBytes32 proposal.proposer ++ hashU128 proposal.bondAmount ++
    hashSet it hashBytes proposal.voters ++ hashU64 proposal.votesForStake ++
    hashU64 proposal.votesAgainstStake ++ hashU64 proposal.createdAt ++ hashU64 proposal.votingEndsAt ++
    hashBool proposal.approved ++ hashBool proposal.rejected ++ hashBool proposal.slashed ++
    hashU8 (formatTag proposal.responseFormat) ++ ofBytes32 (proposal.schemaId.getD 0)

/-- One entry of `hash_schema_proposals`. -/
def hashSchemaProposal (proposal : SchemaProposal) : Bytes :=
  hashItems hashString (sorted proposal.keys) ++ ofBytes32 proposal.proposer ++
    hashSet it hashBytes proposal.voters ++ hashU64 proposal.votesForStake ++
    hashU64 proposal.votesAgainstStake ++ hashU64 proposal.createdAt ++ hashU64 proposal.votingEndsAt ++
    hashBool proposal.approved ++ hashBool proposal.rejected

/-- One entry of `hash_schema_registry`. -/
def hashSchemaEntry (entry : SchemaEntry) : Bytes :=
  hashItems hashString (sorted entry.keys) ++ hashU64 entry.createdAt ++ hashBool entry.approved

/-- The tag of a visibility. -/
def hashVisibility : CellVisibility → Bytes
  | .private => hashU8 0
  | .public => hashU8 1

/-! ## Cells -/

/-- `hash_token_config`. -/
def hashTokenConfig (cfg : TokenConfig) : Bytes :=
  hashString cfg.name ++ hashString cfg.symbol ++ hashU8 cfg.decimals ++ hashU128 cfg.totalSupply ++
    hashOption ofBytes32 cfg.mintAuthority ++ hashOption ofBytes32 cfg.freezeAuthority ++
    hashU16 cfg.transferFeeBps ++ hashOption ofBytes32 cfg.transferFeeRecipient ++
    hashOption ofBytes32 cfg.transferHook ++ hashBool cfg.nonTransferable ++
    hashOption hashString cfg.metadataUri ++ hashOption ofBytes32 cfg.permanentDelegate

/-- The key specifications by offset, then by length. -/
def sortedSpecs (specs : List StorageKeySpec) : List StorageKeySpec :=
  sortByKey (fun spec => (spec.offset, spec.len)) specs

/-- One key specification. -/
def hashSpec (spec : StorageKeySpec) : Bytes := hashU64 spec.offset ++ hashU64 spec.len

/-- The part of `hash_governance_proposal` on the kind of the proposal. The number of key specifications
is a `u64` here. -/
def hashProposalType : ProposalType → Bytes
  | .ownershipTransfer newOwner => hashU8 0 ++ ofBytes32 newOwner
  | .upgrade newBytecode declaredReads declaredWrites commutativeKeys storageKeySpecs oracleSchemaIds =>
    hashU8 1 ++ hashBytes newBytecode ++ hashVecFixed32 (sorted declaredReads) ++
      hashVecFixed32 (sorted declaredWrites) ++ hashVecFixed32 (sorted commutativeKeys) ++
      (hashU64 (sortedSpecs storageKeySpecs).length ++ (sortedSpecs storageKeySpecs).flatMap hashSpec) ++
      hashVecFixed32 (sorted oracleSchemaIds)
  | .makeImmutable => hashU8 2

/-- `hash_governance_proposal`. -/
def hashGovernanceProposal (proposal : GovernanceProposal) : Bytes :=
  hashProposalType proposal.proposalType ++ ofBytes32 proposal.proposer ++
    hashU64 proposal.createdAtHeight ++ hashU64 proposal.timelockBlocks ++
    hashBool proposal.requireVote ++ hashU64 proposal.votesFor ++ hashU64 proposal.votesAgainst ++
    hashSet it ofBytes32 proposal.voters ++ hashBool proposal.executed

/-- `hash_cell_account`. -/
def hashCellAccount (account : CellAccount) : Bytes :=
  ofBytes32 account.cellId ++ ofBytes32 account.owner ++ hashBytes account.bytecode ++
    hashMap it (fun (key, value) => ofBytes32 key ++ ofBytes32 value) account.storage ++
    hashU128 account.balance ++ hashBool account.isToken ++
    hashOption hashTokenConfig account.tokenConfig ++ hashU64 account.createdAt ++
    hashOption hashU64 account.upgradedAt ++ hashU64 account.lastRentPaidHeight ++
    hashU64 account.rentGraceBlocks ++ hashOption ofBytes32 account.pendingOwner ++
    hashBool account.isImmutable ++ hashVecFixed32 (sorted account.declaredReads) ++
    hashVecFixed32 (sorted account.declaredWrites) ++ hashVecFixed32 (sorted account.commutativeKeys) ++
    hashItems hashSpec (sortedSpecs account.storageKeySpecs) ++
    hashVecFixed32 (sorted account.oracleSchemaIds) ++
    hashOption (hashGovernanceProposal it) account.governanceProposal ++
    hashU64 account.manifestVersion ++ ofBytes32 account.manifestHash

/-- `hash_cell_state`. -/
def hashCellState (state : CellState) : Bytes :=
  hashMap it (fun (cellId, account) => ofBytes32 cellId ++ hashCellAccount it account) state.cells ++
    hashMap it (fun (key, amount) => ofBytes32 key.1 ++ ofBytes32 key.2 ++ hashU128 amount)
      state.tokenBalances ++
    hashMap it (fun (key, frozen) => ofBytes32 key.1 ++ ofBytes32 key.2 ++ hashBool frozen)
      state.frozenAccounts

/-! ## Stakes -/

/-- One unbonding entry. -/
def hashUnbondingEntry (entry : UnbondingEntry) : Bytes :=
  hashU64 entry.amount ++ hashU64 entry.completionTick

/-- One validator of `hash_staking_state`. -/
def hashValidatorStake (stake : ValidatorStake) : Bytes :=
  hashU64 stake.activeStake ++ hashItems hashUnbondingEntry stake.unbonding ++
    hashOption hashU64 stake.jailedUntil

/-- `hash_staking_state`. -/
def hashStakingState (staking : StakingState) : Bytes :=
  hashMap it (fun (pubkey, stake) => hashBytes pubkey ++ hashValidatorStake stake) staking.validators ++
    hashU64 staking.currentHeight

/-! ## The sections -/

/-- `hash_accounts`. -/
def hashAccounts (accounts : Map AccountId AccountRecord) : Bytes :=
  hashMap it (fun (id, account) => ofBytes32 id ++ hashAccountRecord account) accounts

/-- `hash_token_authority_proposals`: the only section without the number of its entries. -/
def hashTokenAuthorityProposals (proposals : Map AccountId TokenAuthorityProposal) : Bytes :=
  (sortByKey Prod.fst (it.entries proposals)).flatMap fun (tokenCell, proposal) =>
    hashTokenAuthorityProposal tokenCell proposal

/-- What `compute_state_root_from_parts` feeds to the hasher. -/
def stateRootPreimage (s : State) : Bytes :=
  hashTag "accounts" ++ hashAccounts it s.accounts ++
  hashTag "staking" ++ hashStakingState it s.staking ++
  hashTag "nfts" ++ hashMap it (fun (id, record) => ofBytes32 id ++ hashNftRecord record) s.nfts ++
  hashTag "cells" ++ hashCellState it s.cells ++
  hashTag "accumulated_gas_fees" ++ hashU128 s.accumulatedGasFees ++
  hashTag "accumulated_name_fees" ++ hashU128 s.accumulatedNameFees ++
  hashTag "accumulated_compute_fees_tlkd" ++ hashU128 s.accumulatedComputeFeesTlkd ++
  hashTag "accumulated_treasury_fees" ++ hashU128 s.accumulatedTreasuryFees ++
  hashTag "accumulated_epoch_fees" ++ hashU128 s.accumulatedEpochFees ++
  hashTag "last_emission_epoch" ++ hashU64 s.lastEmissionEpoch ++
  hashTag "chain_age_years" ++ hashU64 s.chainAgeYears ++
  hashTag "executed_tx_hashes" ++ hashVecFixed32 (sorted (it.elements s.executedTxHashes)) ++
  hashTag "params" ++ hashMap it (fun (key, value) => ofBytes32 key ++ ofBytes32 value) s.params ++
  hashTag "name_registry" ++
    hashMap it (fun (name, reg) => hashString name ++ hashNameRegistration reg) s.nameRegistry ++
  hashTag "pending_names" ++
    hashMap it (fun (name, reg) => hashString name ++ hashPendingName it reg) s.pendingNames ++
  hashTag "token_authority_proposals" ++ hashTokenAuthorityProposals it s.tokenAuthorityProposals ++
  hashTag "airdrop_claims" ++ hashMap it (fun (id, ts) => ofBytes32 id ++ hashU64 ts) s.airdropClaims ++
  hashTag "foundation_mint_authority" ++ hashBytes (ofBytes32 (s.foundationMintAuthority.getD 0)) ++
  hashTag "pending_oracle_requests" ++
    hashMap it (fun (id, req) => ofBytes32 id ++ hashOracleRequest req) s.pendingOracleRequests ++
  hashTag "oracle_pending" ++
    hashMap it (fun (id, tally) => ofBytes32 id ++ hashOracleTally it tally) s.oraclePending ++
  hashTag "oracle_results" ++
    hashMap it (fun (id, res) => ofBytes32 id ++ hashOracleResult res) s.oracleResults ++
  hashTag "url_proposals" ++
    hashMap it (fun (url, proposal) => hashString url ++ hashUrlProposal it proposal) s.urlProposals ++
  hashTag "schema_proposals" ++
    hashMap it (fun (id, proposal) => ofBytes32 id ++ hashSchemaProposal it proposal)
      s.schemaProposals ++
  hashTag "schema_registry" ++
    hashMap it (fun (id, entry) => ofBytes32 id ++ hashSchemaEntry entry) s.schemaRegistry ++
  hashTag "cell_visibility" ++
    hashMap it (fun (id, tier) => ofBytes32 id ++ hashVisibility tier) s.cellVisibility

/-- `compute_state_root_from_state`. The type of the digests is open. -/
def computeStateRootFromState {D : Type} (sha256 : Bytes → D) (s : State) : D :=
  sha256 (stateRootPreimage it s)

end

end TruthLinked.Consensus.StateRoot
