import TruthLinked.Core.Types

/-! # Governance records and parameters

The proposal and registration records of `truthlinked-governance/src/types.rs`, and the reads of the
on-chain parameters (`params.rs`). A parameter is looked up in a process-wide cache under the hash of
its name; hashes are an argument of the reads. -/

namespace TruthLinked.Governance.Types

open Core.Types

/-- `PendingNameRegistration`. -/
structure PendingNameRegistration where
  name : String
  cellId : AccountId
  owner : AccountId
  isCell : Bool
  proposer : Bytes
  votes : FSet Bytes
  totalStakeVoted : ℕ
  proposedAt : ℕ
  deriving DecidableEq

/-- `TokenAuthorityProposal`. -/
structure TokenAuthorityProposal where
  tokenCell : AccountId
  proposer : Bytes
  voters : FSet Bytes
  votesForStake : ℕ
  createdAt : ℕ
  votingEndsAt : ℕ
  setMintAuthority : Bool
  newMintAuthority : Option AccountId
  setFreezeAuthority : Bool
  newFreezeAuthority : Option AccountId
  deriving DecidableEq

/-- `TokenAuthorityProposal::voting_open`. -/
def TokenAuthorityProposal.votingOpen (p : TokenAuthorityProposal) (currentHeight : ℕ) : Bool :=
  currentHeight ≤ p.votingEndsAt

/-- `NameRegistration`. -/
structure NameRegistration where
  name : String
  owner : AccountId
  target : AccountId
  registeredAt : ℕ
  expiresAt : ℕ
  isCell : Bool
  deriving DecidableEq

/-- `UrlResponseFormat`. -/
inductive UrlResponseFormat where
  | raw
  | jsonCanonical
  | priceUsd
  deriving DecidableEq

/-- `UrlProposal`. -/
structure UrlProposal where
  urlPattern : String
  proposer : AccountId
  bondAmount : ℕ
  voters : FSet Bytes
  votesForStake : ℕ
  votesAgainstStake : ℕ
  createdAt : ℕ
  votingEndsAt : ℕ
  approved : Bool
  rejected : Bool
  slashed : Bool
  responseFormat : UrlResponseFormat
  schemaId : Option Bytes32
  deriving DecidableEq

/-- `UrlProposal::voting_open`. -/
def UrlProposal.votingOpen (p : UrlProposal) (currentHeight : ℕ) : Bool :=
  !p.approved && !p.rejected && decide (currentHeight ≤ p.votingEndsAt)

/-- `CellVisibility`. -/
inductive CellVisibility where
  | «private»
  | «public»
  deriving DecidableEq

/-- `SchemaProposal`. -/
structure SchemaProposal where
  schemaId : Bytes32
  keys : List String
  proposer : AccountId
  voters : FSet Bytes
  votesForStake : ℕ
  votesAgainstStake : ℕ
  createdAt : ℕ
  votingEndsAt : ℕ
  approved : Bool
  rejected : Bool
  deriving DecidableEq

/-- `SchemaEntry`. -/
structure SchemaEntry where
  schemaId : Bytes32
  keys : List String
  createdAt : ℕ
  approved : Bool
  deriving DecidableEq

/-! ## Parameters -/

/-- `PARAM_DOMAIN`. -/
def paramDomain : Bytes := "truthlinked.param.v1".toUTF8.toList

/-- `param_key`. -/
def paramKey (sha256 : Bytes → Bytes32) (name : String) : Bytes32 :=
  sha256 (paramDomain ++ name.toUTF8.toList)

/-- `decode_u64`: the first eight bytes, little-endian. -/
def decodeU64 (value : Bytes32) : ℕ := leNat ((ofBytes32 value).take 8)

/-- `decode_u128`: the first sixteen bytes, little-endian. -/
def decodeU128 (value : Bytes32) : ℕ := leNat ((ofBytes32 value).take 16)

/-- `encode_u64`. -/
def encodeU64 (value : ℕ) : Bytes32 := toBytes32 (leBytes 8 value ++ List.replicate 24 0)

/-- `require_param`. Two parameters have a compiled default; on any other missing one the node
panics, which the model does not follow. -/
def requireParam (sha256 : Bytes → Bytes32) (cache : Map Bytes32 Bytes32) (name : String) : Bytes32 :=
  match cache[paramKey sha256 name]? with
  | some value => value
  | none =>
    if name = "fees.tx_byte" then encodeU64 1
    else if name = "mempool.max_bytes" then encodeU64 (64 * 1024 * 1024)
    else 0

/-- The names in `PARAM_SPECS`. -/
def paramNames : List String :=
  ["gas.transfer", "gas.claim", "gas.rotate_key", "gas.register_validator", "gas.stake",
    "gas.unstake", "gas.withdraw", "gas.unjail", "gas.mint_nft", "gas.transfer_nft", "gas.burn_nft",
    "gas.approve_nft", "gas.deploy_cell", "gas.deploy_token", "gas.upgrade_cell",
    "gas.token_transfer", "gas.token_mint", "gas.token_burn", "gas.oracle_read", "gas.oracle_queue",
    "gas.price", "gas.distribution_interval", "emission.year1_tlkd", "emission.decay_bps_per_year",
    "emission.epoch_blocks", "consensus.batch_interval_ms", "consensus.max_batch_size",
    "consensus.committee_size", "consensus.epoch_duration_ms", "consensus.finalization_lag",
    "consensus.finalization_timeout_secs", "sync.threshold", "sync.max_batch_range",
    "sync.peer_ttl_secs", "sync.snapshot_threshold", "staking.slash_percentage",
    "staking.oracle_lie_slash_percentage", "staking.oracle_silence_slash_percentage",
    "staking.downtime_slash_percentage", "staking.censorship_slash_percentage",
    "streaming.optimal_batch_size", "streaming.max_wait_ms", "streaming.max_sync_buffer_size",
    "streaming.max_batch_cache", "streaming.max_pending_headers", "streaming.max_seen_txs",
    "streaming.pending_batch_timeout_ms", "limits.max_gas_per_tx", "limits.max_gas_per_batch",
    "limits.max_calldata_size", "limits.max_call_chain_calls", "limits.max_call_chain_total_calldata",
    "limits.max_batch_transfer_recipients", "limits.nonce_lookahead", "limits.max_return_data_size",
    "limits.max_call_depth", "limits.max_log_data_size", "limits.max_logs_per_tx",
    "limits.max_log_topics", "limits.max_cell_bytecode_size", "limits.max_cell_storage_bytes",
    "storage.rent_lifetime_fee", "storage.rent_grace_period_blocks", "fees.min_tx_fee",
    "fees.tx_byte", "mempool.max_bytes", "airdrop.cooldown_secs", "airdrop.max_amount",
    "name.registration_fee", "name.renewal_fee", "name.expiration_blocks", "name.voting_period",
    "name.approval_threshold", "token.authority_approval_threshold", "cu.per_tlkd",
    "oracle.commit_quorum_percent", "oracle.reveal_quorum_percent", "oracle.request_timeout_blocks",
    "oracle.cache_expiry_blocks", "oracle.max_response_bytes", "oracle.max_http_body_bytes",
    "oracle.max_http_url_bytes", "oracle.max_http_method_bytes", "oracle.http_timeout_ms",
    "oracle.malicious_slash_bps", "oracle.min_url_proposal_bond", "oracle.min_raw_url_proposal_bond",
    "oracle.max_url_voting_period_blocks", "oracle.max_schema_keys", "oracle.max_schema_key_bytes",
    "oracle.max_schema_voting_period_blocks", "oracle.max_token_authority_voting_period_blocks",
    "oracle.private_max_depth", "oracle.public_max_depth", "network.ingress.max_connections",
    "network.ingress.max_message_bytes", "network.ingress.max_messages_per_second",
    "network.ack.max_connections", "network.ack.max_message_bytes",
    "network.ack.max_messages_per_second", "network.ack.max_pending_batches",
    "network.ack.max_batch_age_secs", "network.discovery.max_peers",
    "network.discovery.peer_ttl_secs", "network.attestation.max_pending",
    "network.transport.chunk_size", "network.transport.handshake_timeout_secs"]

/-- `is_known_param_key`. -/
def isKnownParamKey (sha256 : Bytes → Bytes32) (key : Bytes32) : Bool :=
  paramNames.any fun name => paramKey sha256 name == key

end TruthLinked.Governance.Types
