import TruthLinked.Core.Types

/-! # Cell records

`CellAccount`, its token configuration and governance proposal, as `truthlinked-runtime` stores
them, and the three maps of `CellState`. -/

namespace TruthLinked.Runtime.Cells

open Core.Types

/-- `TokenConfig`. -/
structure TokenConfig where
  name : String
  symbol : String
  decimals : ℕ
  totalSupply : ℕ
  mintAuthority : Option AccountId
  freezeAuthority : Option AccountId
  transferFeeBps : ℕ
  transferFeeRecipient : Option AccountId
  transferHook : Option AccountId
  transferHookGas : ℕ
  maxSupply : Option ℕ
  nonTransferable : Bool
  metadataUri : Option String
  permanentDelegate : Option AccountId
  deriving DecidableEq

/-- `ProposalType`. -/
inductive ProposalType where
  | ownershipTransfer (newOwner : AccountId)
  | upgrade (newBytecode : Bytes) (declaredReads declaredWrites commutativeKeys : List Bytes32)
      (storageKeySpecs : List StorageKeySpec) (oracleSchemaIds : List Bytes32)
  | makeImmutable
  deriving DecidableEq

/-- `GovernanceProposal`. -/
structure GovernanceProposal where
  proposalType : ProposalType
  proposer : AccountId
  createdAtHeight : ℕ
  timelockBlocks : ℕ
  requireVote : Bool
  votesFor : ℕ
  votesAgainst : ℕ
  voters : FSet AccountId
  executed : Bool
  deriving DecidableEq

/-- `CellAccount`. -/
structure CellAccount where
  cellId : AccountId
  owner : AccountId
  bytecode : Bytes
  storage : Map Bytes32 Bytes32
  balance : ℕ
  rentDeposit : ℕ
  isToken : Bool
  tokenConfig : Option TokenConfig
  createdAt : ℕ
  upgradedAt : Option ℕ
  lastRentPaidHeight : ℕ
  rentGraceBlocks : ℕ
  pendingOwner : Option AccountId
  isImmutable : Bool
  declaredReads : List Bytes32
  declaredWrites : List Bytes32
  commutativeKeys : List Bytes32
  storageKeySpecs : List StorageKeySpec
  oracleSchemaIds : List Bytes32
  governanceProposal : Option GovernanceProposal
  manifestVersion : ℕ
  manifestHash : Bytes32
  deriving DecidableEq

/-- `CellState`. The pair keys are (token cell, account). -/
structure CellState where
  cells : Map AccountId CellAccount
  tokenBalances : Map (AccountId × AccountId) ℕ
  frozenAccounts : Map (AccountId × AccountId) Bool

end TruthLinked.Runtime.Cells
