import TruthLinked.Ledger.SystemCells
import TruthLinked.Core.Manifest

/-! # Tool registry and agents

`truthlinked-mcp/src/lib.rs`: the storage layout of the registry cells, the diffs of the registration
intents, and the call chain a tool call stands for. -/

namespace TruthLinked.Ledger.Mcp

open Core.Types Core.Manifest Runtime.Cells Runtime.Types Staking.State Ledger.Model Ledger.Phases
open Ledger.SystemCells Lib.Except

/-! ## Storage keys -/

/-- A byte string cut or padded with zeros to 32 bytes. -/
def padded (bs : Bytes) : Bytes32 := toBytes32 (bs.take 32 ++ List.replicate (32 - bs.length) 0)

/-- `mcp_key`. -/
def mcpKey (tag : String) : Bytes32 := padded tag.toUTF8.toList

/-- `mcp_key` with the index in bytes 16 to 24. -/
def mcpEntry (tag : String) (index : ℕ) : Bytes32 :=
  toBytes32 ((ofBytes32 (mcpKey tag)).take 16 ++ leBytes 8 index ++ (ofBytes32 (mcpKey tag)).drop 24)

/-- `blake3_key`. -/
def blake3Key (env : Env) (tag : String) (data : Bytes) : Bytes32 :=
  env.blake3 (tag.toUTF8.toList ++ data)

/-- `protocol_addresses::mcp_registry`. -/
def mcpRegistry (env : Env) : AccountId := env.blake3 "truthlinked:mcp:registry:v1".toUTF8.toList

/-- `registry_keys::tool_entry`. -/
def toolEntry (index : ℕ) : Bytes32 := mcpEntry "mcp:tool:" index

/-- `read_u64_from_storage`. -/
def readU64FromStorage (cell : CellAccount) (key : Bytes32) : ℕ := readSlotU64 cell.storage key

/-- `is_mcp_tool_cell`. -/
def isMcpToolCell (env : Env) (s : State) (cellId : AccountId) : Bool :=
  match s.cells.cells[mcpRegistry env]? with
  | none => false
  | some registry =>
    (List.range (readU64FromStorage registry (mcpKey "mcp:tool_count"))).any fun i =>
      registry.storage[toolEntry i]? == some cellId

/-! ## New cells -/

/-- A cell with the fields every deployment sets alike. -/
def newCell (env : Env) (g : Globals) (cellId owner : AccountId) (bytecode : Bytes)
    (declaredReads declaredWrites commutativeKeys oracleSchemaIds : List Bytes32)
    (rentDeposit createdAt : ℕ) : CellAccount where
  cellId := cellId
  owner := owner
  bytecode := bytecode
  storage := ∅
  balance := 0
  rentDeposit := rentDeposit
  isToken := false
  tokenConfig := none
  createdAt := createdAt
  upgradedAt := none
  lastRentPaidHeight := 0
  rentGraceBlocks := g.getU64 env "storage.rent_grace_period_blocks"
  pendingOwner := none
  isImmutable := false
  declaredReads := declaredReads
  declaredWrites := declaredWrites
  commutativeKeys := commutativeKeys
  storageKeySpecs := []
  oracleSchemaIds := oracleSchemaIds
  governanceProposal := none
  manifestVersion := 1
  manifestHash := computeManifestHash env bytecode declaredReads declaredWrites commutativeKeys
    oracleSchemaIds

/-- The storage rent of a new cell. -/
def rentDeposit (env : Env) (g : Globals) : ℕ := g.getU128 env "storage.rent_lifetime_fee"

/-- A map from a list of bindings, the later ones winning. -/
def fromList {K V : Type} [Ord K] [Std.TransOrd K] (l : List (K × V)) : Map K V :=
  l.foldl (fun m (k, v) => m.insert k v) ∅

/-- The entry a registration adds to the registry: the count, the slot of the new entry, the name, and
the version. -/
def registryEntry (env : Env) (registry : CellAccount) (registryId : AccountId)
    (countTag entryTag nameTag name : String) (id : AccountId) : CellUpdate :=
  let count := readU64FromStorage registry (mcpKey countTag)
  let version := readU64FromStorage registry (mcpKey "mcp:registry_ver")
  .storageChange registryId (fromList
    [(mcpKey countTag, some (packU64 (count + 1))),
      (mcpEntry entryTag count, some id),
      (blake3Key env nameTag name.toUTF8.toList, some id),
      (mcpKey "mcp:registry_ver", some (packU64 ((version + 1) % u64)))])

/-- The end of a registration: the registry must exist, the sender must hold the rent, the count must
not overflow; then the cell is deployed and entered. -/
def register (env : Env) (w : World) (sender registryId : AccountId) (what : String)
    (countTag entryTag nameTag name : String) (cell : CellAccount) : Except String StateDiff := do
  let registry ← okOr w.state.cells.cells[registryId]? "McpRegistry cell not found"
  let rent := rentDeposit env w.globals
  let account ← okOr w.state.accounts[sender]? "Sender account not found"
  failIf (account.balance < rent) "Insufficient balance for rent deposit"
  failIf (u64 ≤ readU64FromStorage registry (mcpKey countTag) + 1) (what ++ " count overflow")
  pure
    { accountUpdates := fromList [(sender, { account with balance := account.balance - rent })]
      cellUpdates := [.deploy cell.cellId cell,
        registryEntry env registry registryId countTag entryTag nameTag name cell.cellId]
      cuFee := w.globals.getU64 env "gas.deploy_cell" }

/-- The checks of a cell's bytecode. -/
def checkBytecode (env : Env) (g : Globals) (what : String) (bytecode : Bytes)
    (declaredReads declaredWrites : List Bytes32) : Except String Unit := do
  failIf (g.getU64 env "limits.max_cell_bytecode_size" < bytecode.length)
    (what ++ " bytecode exceeds max size")
  failIf (bytecode.take 4 ≠ "AXIO".toUTF8.toList) "Invalid Axiom bytecode: missing magic bytes"
  verifyManifestAgainstBytecode bytecode declaredReads declaredWrites []

/-- `diff_register_tool`. -/
def diffRegisterTool (env : Env) (w : World) (sender toolId : AccountId) (bytecode : Bytes)
    (name : String) (inputSchemaJson : Bytes) (category : UInt8)
    (declaredReads declaredWrites commutativeKeys oracleSchemaIds : List Bytes32)
    (registryId : AccountId) (timestamp : ℕ) : Except String StateDiff := do
  failIf (64 < name.toUTF8.toList.length) "Tool name too long (max 64 bytes)"
  failIf (bytecode = []) "Tool bytecode is empty"
  checkBytecode env w.globals "Tool" bytecode declaredReads declaredWrites
  failIf (toolId ∈ w.state.cells.cells) ("Tool cell " ++ hexEncode toolId ++ " already deployed")
  let schemaHash := env.blake3 inputSchemaJson
  let cell := newCell env w.globals toolId (systemAuthorityId env) bytecode declaredReads declaredWrites
    commutativeKeys oracleSchemaIds (rentDeposit env w.globals) timestamp
  register env w sender registryId "Tool" "mcp:tool_count" "mcp:tool:" "mcp:ntool:" name
    { cell with
      storage := fromList
        [(mcpKey "tool:name", padded name.toUTF8.toList),
          (mcpKey "tool:schema", schemaHash),
          (mcpKey "tool:desc_hash", schemaHash),
          (mcpKey "tool:category", flagWord category),
          (mcpKey "tool:enabled", flagWord 1),
          (mcpKey "tool:owner", sender),
          (mcpKey "tool:calls", 0)] }

/-- `diff_register_resource`. -/
def diffRegisterResource (env : Env) (w : World) (sender resourceId : AccountId) (bytecode : Bytes)
    (name uriScheme mimeType : String) (initialData : List (Bytes × Bytes))
    (declaredReads declaredWrites oracleSchemaIds : List Bytes32) (registryId : AccountId)
    (timestamp : ℕ) : Except String StateDiff := do
  failIf (64 < name.toUTF8.toList.length) "Resource name too long"
  failIf (64 < uriScheme.toUTF8.toList.length) "URI scheme too long"
  if bytecode ≠ [] then checkBytecode env w.globals "Resource" bytecode declaredReads declaredWrites
  failIf (resourceId ∈ w.state.cells.cells)
    ("Resource cell " ++ hexEncode resourceId ++ " already deployed")
  let _ ← okOr w.state.cells.cells[registryId]? "McpRegistry cell not found"
  let account ← okOr w.state.accounts[sender]? "Sender account not found"
  failIf (account.balance < rentDeposit env w.globals) "Insufficient balance for rent deposit"
  failIf (initialData.any fun (_, content) => 32 < content.length)
    "Resource initial data values must be <= 32 bytes"
  let cell := newCell env w.globals resourceId (systemAuthorityId env) bytecode declaredReads
    declaredWrites [] oracleSchemaIds (rentDeposit env w.globals) timestamp
  register env w sender registryId "Resource" "mcp:resource_count" "mcp:res:" "mcp:nres:" name
    { cell with
      storage := fromList
        ([(mcpKey "res:name", padded name.toUTF8.toList),
          (mcpKey "res:uri_scheme", padded uriScheme.toUTF8.toList),
          (mcpKey "res:mime", padded mimeType.toUTF8.toList),
          (mcpKey "res:updated", packU64 timestamp)] ++
          initialData.map (fun (key, content) => (blake3Key env "res:data:" key, padded content)) ++
          [(mcpKey "res:content", env.blake3 (initialData.flatMap fun (key, v) => key ++ v))]) }

/-- `prompt_keys::arg_schema`. -/
def argSchema (i : ℕ) : Bytes32 :=
  toBytes32 ((ofBytes32 (mcpKey "prompt:arg:")).take 16 ++ [UInt8.ofNat i] ++
    (ofBytes32 (mcpKey "prompt:arg:")).drop 17)

/-- `diff_register_prompt`. -/
def diffRegisterPrompt (env : Env) (w : World) (sender promptId : AccountId) (name : String)
    (templateBytes : Bytes) (arguments : List (String × String × Bool)) (registryId : AccountId)
    (timestamp : ℕ) : Except String StateDiff := do
  failIf (64 < name.toUTF8.toList.length) "Prompt name too long"
  failIf (255 < arguments.length) "Too many arguments (max 255)"
  failIf (promptId ∈ w.state.cells.cells) ("Prompt cell " ++ hexEncode promptId ++ " already deployed")
  let cell := newCell env w.globals promptId (systemAuthorityId env) [] [] [] [] []
    (rentDeposit env w.globals) timestamp
  register env w sender registryId "Prompt" "mcp:prompt_count" "mcp:prompt:" "mcp:nprompt:" name
    { cell with
      commutativeKeys := [mcpKey "prompt:uses"]
      storage := fromList
        ([(mcpKey "prompt:name", padded name.toUTF8.toList),
          (mcpKey "prompt:template", env.blake3 templateBytes),
          (mcpKey "prompt:argc", flagWord (UInt8.ofNat arguments.length))] ++
          arguments.mapIdx (fun i a => (argSchema i, padded a.1.toUTF8.toList)) ++
          [(mcpKey "prompt:approved", 0), (mcpKey "prompt:uses", 0)]) }

/-! ## Agents -/

/-- `agent_reg_keys::agent_policy`. -/
def agentPolicy (env : Env) (agentId : AccountId) : Bytes32 := blake3Key env "areg:pol:" (ofBytes32 agentId)

/-- `agent_reg_keys::agent_owner`. -/
def agentOwner (env : Env) (agentId : AccountId) : Bytes32 := blake3Key env "areg:own:" (ofBytes32 agentId)

/-- `diff_register_agent`. -/
def diffRegisterAgent (env : Env) (w : World) (sender agentId policyCellId agentRegistryId : AccountId)
    (timestamp : ℕ) : Except String StateDiff := do
  let registry ← okOr w.state.cells.cells[agentRegistryId]? "AgentRegistry cell not found"
  failIf (policyCellId ∉ w.state.cells.cells) "Policy cell not found"
  failIf (sender = agentId)
    "Agent cannot register itself: owner and agent_id must be different accounts"
  failIf (registry.storage[agentPolicy env agentId]? ≠ some 0 ∧
    agentPolicy env agentId ∈ registry.storage) "Agent already registered"
  let count := readU64FromStorage registry (mcpKey "areg:count")
  failIf (u64 ≤ count + 1) "Agent count overflow"
  pure
    { cellUpdates :=
        [.storageChange agentRegistryId (fromList
          [(agentPolicy env agentId, some policyCellId),
            (agentOwner env agentId, some sender),
            (blake3Key env "areg:idx:" (leBytes 8 count), some agentId),
            (blake3Key env "areg:reg:" (ofBytes32 agentId), some (packU64 timestamp)),
            (mcpKey "areg:count", some (packU64 (count + 1)))]),
          .storageChange policyCellId (fromList
          [(mcpKey "pol:status", some 0),
            (mcpKey "pol:owner", some sender),
            (mcpKey "pol:reads", some (flagWord 1)),
            (mcpKey "pol:writes", some (flagWord 1)),
            (mcpKey "pol:admin", some 0),
            (mcpKey "pol:rate", some 0),
            (mcpKey "pol:spend_tx", some 0),
            (mcpKey "pol:spend_ep", some 0),
            (mcpKey "pol:total", some 0)])]
      cuFee := w.globals.getU64 env "gas.transfer" }

/-- `diff_set_agent_status`: status 1 with a reason suspends, status 0 with an empty one reinstates. -/
def diffSetAgentStatus (env : Env) (w : World) (sender agentId registryId : AccountId) (status : UInt8)
    (reason : String) : Except String StateDiff := do
  let registry ← okOr w.state.cells.cells[registryId]? "AgentRegistry not found"
  failIf ((registry.storage[agentOwner env agentId]?).getD 0 ≠ sender)
    "Only the agent's registered owner can change agent status"
  let policyId ← okOr registry.storage[agentPolicy env agentId]? "Agent not registered"
  pure
    { cellUpdates := [.storageChange policyId (fromList ((mcpKey "pol:status", some (flagWord status)) ::
        if reason = "" then [] else
          [(mcpKey "pol:sus_reason", some (env.blake3 reason.toUTF8.toList))]))]
      cuFee := w.globals.getU64 env "gas.transfer" }

/-- `compile_tool_call_to_chain`: the calls of a tool call, to the policy, the tool and the log. -/
def compileToolCallToChain (env : Env) (agentId toolId : AccountId) (toolCalldata : Bytes) (value : ℕ)
    (policyCellId : AccountId) (actionLogId : Option AccountId) (timestamp : ℕ) :
    Except String (List CellCall) := do
  let logId ← okOr actionLogId "McpToolCall requires action_log_id"
  pure
    [⟨policyCellId, ofBytes32 agentId ++ ofBytes32 toolId ++ ofBytes32 (env.blake3 toolCalldata) ++
        leBytes 16 value ++ leBytes 8 timestamp, 0, none⟩,
      ⟨toolId, toolCalldata, value, none⟩,
      ⟨logId, ofBytes32 agentId ++ ofBytes32 toolId ++ leBytes 8 timestamp, 0, some 1⟩]

end TruthLinked.Ledger.Mcp
