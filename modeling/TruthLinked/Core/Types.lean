import Mathlib.Algebra.Group.Int.Defs
import Mathlib.Algebra.GroupWithZero.Nat
import Mathlib.Data.List.Infix
import Mathlib.Data.Nat.Notation
import Mathlib.Tactic.Common

/-! # Wire types: identifiers, transactions and intents

The canonical transaction shape of `truthlinked-core`. A 32-byte identifier is a 256-bit word read
big-endian, so that the order on words is the lexicographic order on the byte strings; amounts,
heights and nonces are naturals, the widths of the machine integers being enforced where the code
adds or subtracts (`Lib.Checked`). Hash maps and hash sets are the extensional tree maps of `Std`:
two states are equal iff they agree key by key. -/

namespace TruthLinked.Core.Types

/-- A byte string (`Vec<u8>`, `&[u8]`). -/
abbrev Bytes := List UInt8

/-- A 32-byte array (`[u8; 32]`), read big-endian. -/
abbrev Bytes32 := BitVec 256

/-- `AccountId`. -/
abbrev AccountId := Bytes32

-- pairs are compared lexicographically
attribute [instance] lexOrd

instance : Std.TransOrd Bytes32 := inferInstance

instance : Std.LawfulEqOrd Bytes32 := inferInstance

instance : LawfulBEq Bytes32 := inferInstance

instance : LawfulBEq Bytes := inferInstance

instance : Std.TransOrd (Bytes32 × Bytes32) := inferInstance

/-- A map (`HashMap`, `BTreeMap`), up to its representation. -/
abbrev Map (K V : Type) [Ord K] := Std.ExtTreeMap K V

/-- A set (`HashSet`, `BTreeSet`), up to its representation. -/
abbrev FSet (K : Type) [Ord K] := Std.ExtTreeSet K

/-- The number a byte string spells, most significant byte first. -/
def beNat (bs : Bytes) : ℕ := bs.foldl (fun n b => n * 256 + b.toNat) 0

/-- The number a byte string spells, least significant byte first (`from_le_bytes`). -/
def leNat : Bytes → ℕ
  | [] => 0
  | b :: bs => b.toNat + 256 * leNat bs

/-- `copy_from_slice` into a fresh `[u8; 32]`. -/
def toBytes32 (bs : Bytes) : Bytes32 := BitVec.ofNat 256 (beNat bs)

/-- The bytes of a number, least significant first (`to_le_bytes`). -/
def leBytes : ℕ → ℕ → Bytes
  | 0, _ => []
  | k + 1, n => UInt8.ofNat n :: leBytes k (n / 256)

/-- The bytes of a number, most significant first (`to_be_bytes`). -/
def beBytes (k n : ℕ) : Bytes := (leBytes k n).reverse

/-- The bytes of a 32-byte array. -/
def ofBytes32 (w : Bytes32) : Bytes := beBytes 32 w.toNat

/-- `&bs[i..j]` of an in-range slice. -/
def slice (bs : Bytes) (i j : ℕ) : Bytes := (bs.drop i).take (j - i)

/-- A little-endian number of `n` bytes at `pos`. -/
def readLe (n : ℕ) (raw : Bytes) (pos : ℕ) : Option ℕ :=
  if pos + n ≤ raw.length then some (leNat (slice raw pos (pos + n))) else none

/-- `StorageKeySpec`: a slice of the calldata used as a storage key. -/
structure StorageKeySpec where
  offset : ℕ
  len : ℕ
  deriving DecidableEq

/-- `BatchTransferEntry`. -/
structure BatchTransferEntry where
  recipient : AccountId
  recipientPubkey : Option Bytes
  amount : ℕ
  deriving DecidableEq

/-- `NameTransferEntry`. -/
structure NameTransferEntry where
  name : String
  amount : ℕ
  deriving DecidableEq

/-- `CellCall`. -/
structure CellCall where
  cellId : AccountId
  calldata : Bytes
  value : ℕ
  useResultFrom : Option ℕ
  deriving DecidableEq

/-- `TransactionIntent`. -/
inductive TransactionIntent where
  | transfer (recipient : AccountId) (recipientPubkey : Option Bytes) (amount : ℕ)
  | transferToName (name : String) (amount : ℕ)
  | batchTransfer (transfers : List BatchTransferEntry)
  | batchTransferToName (transfers : List NameTransferEntry)
  | claim (recipient : AccountId) (recipientPubkey : Option Bytes) (amount : ℕ)
  | rotateKey (newPubkey : Bytes)
  | depositCompute (amount : ℕ)
  | withdrawCompute (amount : ℕ)
  | wrapTLKD (amount : ℕ)
  | unwrapTLKD (amount : ℕ)
  | stake (amount : ℕ)
  | unstake (amount : ℕ)
  | withdrawStake
  | unjail
  | mintNFT (nftId : Bytes32) (name metadataUri : String) (collection : Option Bytes32)
      (royaltyBps : ℕ) (royaltyRecipient : Option AccountId)
  | transferNFT (nftId : Bytes32) (recipient : AccountId) (recipientPubkey : Option Bytes)
      (salePrice : Option ℕ)
  | burnNFT (nftId : Bytes32)
  | approveNFT (nftId : Bytes32) (approved : Option AccountId)
  | deployCell (cellId : AccountId) (bytecode : Bytes) (initialBalance : ℕ)
      (declaredReads declaredWrites commutativeKeys : List Bytes32)
      (storageKeySpecs : List StorageKeySpec) (oracleSchemaIds : List Bytes32)
  | deployToken (cellId : AccountId) (name symbol : String) (decimals totalSupply : ℕ)
      (transferFeeBps : ℕ) (transferFeeRecipient : Option AccountId) (nonTransferable : Bool)
  | callCell (cellId : AccountId) (calldata : Bytes) (value gasLimit : ℕ)
  | callCellChain (calls : List CellCall) (gasLimit : ℕ)
  | upgradeCell (cellId : AccountId) (newBytecode : Bytes)
      (newDeclaredReads newDeclaredWrites newCommutativeKeys : List Bytes32)
      (newStorageKeySpecs : List StorageKeySpec) (newOracleSchemaIds : List Bytes32)
  | transferOwnership (cellId newOwner : AccountId)
  | acceptOwnership (cellId : AccountId)
  | makeImmutable (cellId : AccountId)
  | closeCell (cellId : AccountId)
  | proposeCellUpgrade (cellId : AccountId) (newBytecode : Bytes)
      (newDeclaredReads newDeclaredWrites newCommutativeKeys : List Bytes32)
      (newStorageKeySpecs : List StorageKeySpec) (newOracleSchemaIds : List Bytes32)
      (timelockBlocks : ℕ)
  | proposeCellOwnershipTransfer (cellId newOwner : AccountId) (timelockBlocks : ℕ)
  | proposeCellMakeImmutable (cellId : AccountId) (timelockBlocks : ℕ)
  | voteCellProposal (cellId : AccountId) (approve : Bool)
  | executeCellProposal (cellId : AccountId)
  | tokenTransfer (tokenCell recipient : AccountId) (amount : ℕ)
  | tokenMint (tokenCell recipient : AccountId) (amount : ℕ)
  | tokenBurn (tokenCell : AccountId) (amount : ℕ)
  | tokenFreeze (tokenCell account : AccountId)
  | tokenThaw (tokenCell account : AccountId)
  | proposeTokenAuthority (tokenCell : AccountId) (setMintAuthority : Bool)
      (newMintAuthority : AccountId) (setFreezeAuthority : Bool) (newFreezeAuthority : AccountId)
      (votingPeriodBlocks : ℕ)
  | voteTokenAuthority (tokenCell : AccountId) (approve : Bool)
  | callSystem (controller : AccountId) (calldata : Bytes)
  | proposeUrl (urlPattern : String) (bondAmount votingPeriodBlocks : ℕ)
  | voteUrl (urlPattern : String) (approve : Bool)
  | reportMaliciousUrl (urlPattern evidence : String)
  | setCellVisibility (cellId : AccountId) (visibility : UInt8)
  | registerMcpTool (toolId : AccountId) (bytecode : Bytes) (name : String)
      (inputSchemaJson : Bytes) (category : UInt8)
      (declaredReads declaredWrites commutativeKeys oracleSchemaIds : List Bytes32)
      (registryId : AccountId)
  | registerMcpResource (resourceId : AccountId) (bytecode : Bytes)
      (name uriScheme mimeType : String) (initialData : List (Bytes × Bytes))
      (declaredReads declaredWrites oracleSchemaIds : List Bytes32) (registryId : AccountId)
  | registerMcpPrompt (promptId : AccountId) (name : String) (templateBytes : Bytes)
      (arguments : List (String × String × Bool)) (registryId : AccountId)
  | registerAgent (agentId policyCellId agentRegistryId : AccountId)
  | suspendAgent (agentId agentRegistryId : AccountId) (reason : String)
  | reinstateAgent (agentId agentRegistryId : AccountId)
  | mcpToolCall (agentId toolId : AccountId) (toolCalldata : Bytes) (value gasLimit : ℕ)
      (policyCellId : AccountId) (actionLogId : Option AccountId) (timestamp : ℕ)
  | privateBalanceInit (cellId agentId : AccountId) (encryptedBalance : Bytes)
      (commitment : Bytes32) (commitNonce : BitVec 128)
  | privateBalanceDeposit (cellId agentId : AccountId) (amount : ℕ) (newEncryptedBalance : Bytes)
      (newCommitment : Bytes32) (newCommitNonce : BitVec 128) (oldCommitment : Bytes32)
  | privateBalanceWithdraw (cellId agentId : AccountId) (amount : ℕ) (recipient : AccountId)
      (newEncryptedBalance : Bytes) (newCommitment : Bytes32) (newCommitNonce : BitVec 128)
      (oldCommitment : Bytes32)
  | privateBalanceConfidentialTransfer (senderCellId senderAgentId recipientCellId : AccountId)
      (amountCommitment : Bytes32) (starkProof senderNewEncrypted : Bytes)
      (senderNewCommitment : Bytes32) (senderNewCommitNonce : BitVec 128)
      (senderOldCommitment : Bytes32) (recipientNewEncrypted : Bytes)
      (recipientNewCommitment : Bytes32) (recipientNewCommitNonce : BitVec 128)
      (recipientOldCommitment : Bytes32)
  | submitOracleCommit (requestId commitHash : Bytes32)
  | submitOracleReveal (requestId : Bytes32) (responseBody : Bytes) (responseStatus : ℕ)

/-- `Transaction`. -/
structure Transaction where
  sender : AccountId
  intent : TransactionIntent
  signature : Bytes
  nonce : ℕ
  timestamp : ℕ
  genesisFingerprint : Bytes32
  expirationHeight : ℕ

end TruthLinked.Core.Types
