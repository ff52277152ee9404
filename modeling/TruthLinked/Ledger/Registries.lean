import TruthLinked.Lib.Run
import TruthLinked.Ledger.Coverage
import TruthLinked.Ledger.Executor
import TruthLinked.Ledger.Slots

/-! # The registries of tools, resources, prompts and agents

Whoever sends a registration names the registry it goes to, the policy cell of the agent and the name, and
no handler asks whose they are. `Proper` says what a transaction would have to satisfy. In a run of such
transactions the registries list what was registered (`InOrder`), and nobody changes the policy cell or
the status of another's agent (`Authorized`). -/

namespace TruthLinked.Ledger.Registries

open Core.Types Core.Bytes Runtime.Cells Runtime.Types Governance.Types Staking.State Ledger.Model
open Ledger.SystemCells Ledger.Mcp Ledger.ComputeCells Ledger.CellSpecs Ledger.ApplySpec Ledger.ComputeSpec
open Ledger.Coverage Ledger.Executor Ledger.MergeAgreement Ledger.Slots Lib.Except Lib.Keyed Lib.Phase
open Lib.Run

variable {i timestamp : ℕ} {c : AccountId}

/-! ## Slots of the registries -/

/-- The first half of a key. -/
def front (key : Bytes32) : Bytes := (ofBytes32 key).take 16

theorem ofBytes32_mcpEntry (tag : String) (i : ℕ) :
    ofBytes32 (mcpEntry tag i) = front (mcpKey tag) ++ leBytes 8 i ++ (ofBytes32 (mcpKey tag)).drop 24 := by
  refine ofBytes32_toBytes32 ?_
  simp

theorem front_mcpEntry (tag : String) (i : ℕ) : front (mcpEntry tag i) = front (mcpKey tag) := by
  have hlen : (front (mcpKey tag)).length = 16 := by simp [front]
  rw [front, ofBytes32_mcpEntry, List.append_assoc, ← hlen, List.take_left]

theorem mcpEntry_inj {tag : String} {j : ℕ} (hi : i < u64) (hj : j < u64)
    (h : mcpEntry tag i = mcpEntry tag j) : i = j := by
  have hbytes := congrArg ofBytes32 h
  rw [ofBytes32_mcpEntry, ofBytes32_mcpEntry, List.append_left_inj, List.append_right_inj] at hbytes
  exact (leBytes_inj hi hj).mp hbytes

/-- What the tool registry lists. -/
inductive Kind where
  | tool
  | resource
  | prompt
  deriving DecidableEq

/-- `TOOL_COUNT`, `RESOURCE_COUNT`, `PROMPT_COUNT`. -/
def Kind.countTag : Kind → String
  | .tool => "mcp:tool_count"
  | .resource => "mcp:resource_count"
  | .prompt => "mcp:prompt_count"

/-- `tool_entry`, `resource_entry`, `prompt_entry`. -/
def Kind.entryTag : Kind → String
  | .tool => "mcp:tool:"
  | .resource => "mcp:res:"
  | .prompt => "mcp:prompt:"

/-- `name_to_tool`, `name_to_resource`, `name_to_prompt`. -/
def Kind.nameTag : Kind → String
  | .tool => "mcp:ntool:"
  | .resource => "mcp:nres:"
  | .prompt => "mcp:nprompt:"

/-- The tags of the slots that are not digests. -/
def tags : List String :=
  ["mcp:tool_count", "mcp:resource_count", "mcp:prompt_count", "mcp:registry_ver", "mcp:tool:", "mcp:res:",
    "mcp:prompt:"]

theorem keys_distinct :
    (tags.map fun t => front (mcpKey t)).Nodup ∧ mcpKey "pol:sus_reason" ≠ mcpKey "pol:status" := by
  decide +kernel

theorem tag_eq {t t' : String} (ht : t ∈ tags) (ht' : t' ∈ tags)
    (h : front (mcpKey t) = front (mcpKey t')) : t = t' :=
  List.inj_on_of_nodup_map keys_distinct.1 ht ht' h

theorem countTag_mem (k : Kind) : k.countTag ∈ tags := by cases k <;> decide

theorem entryTag_mem (k : Kind) : k.entryTag ∈ tags := by cases k <;> decide

theorem verTag_mem : "mcp:registry_ver" ∈ tags := by decide

/-- A digest that does not begin like one of these slots. -/
def Unmarked (digest : Bytes32) : Prop := ∀ t ∈ tags, front digest ≠ front (mcpKey t)

instance (digest : Bytes32) : Decidable (Unmarked digest) :=
  inferInstanceAs (Decidable (∀ t ∈ tags, front digest ≠ front (mcpKey t)))

/-- `protocol_addresses::agent_registry`. -/
def agentRegistry (env : Env) : AccountId := env.blake3 "truthlinked:mcp:agent_registry:v1".toUTF8.toList

/-- `agent_reg_keys::agent_entry`. -/
def agentEntry (env : Env) (i : ℕ) : Bytes32 := blake3Key env "areg:idx:" (leBytes 8 i)

/-- `agent_reg_keys::agent_registered_at`. -/
def agentRegisteredAt (env : Env) (agentId : AccountId) : Bytes32 :=
  blake3Key env "areg:reg:" (ofBytes32 agentId)

/-- The slot of a name. -/
def nameSlot (env : Env) (k : Kind) (name : String) : Bytes32 := blake3Key env k.nameTag name.toUTF8.toList

/-! ## Storage -/

/-- A slot of a cell. -/
def peek (cs : CellState) (cellId : AccountId) (key : Bytes32) : Option Bytes32 :=
  (slot cs.cells cellId).bind fun cell => slot cell.storage key

/-- The number in a slot, 0 if there is none. -/
def countAt (cs : CellState) (cellId : AccountId) (key : Bytes32) : ℕ :=
  ((peek cs cellId key).map decodeU64).getD 0

/-- The first byte of a slot, 0 if there is none. -/
def byteAt (cs : CellState) (cellId : AccountId) (key : Bytes32) : UInt8 :=
  ((peek cs cellId key).map fun v => (ofBytes32 v).headD 0).getD 0

section
variable {env : Env} {cs : CellState} {cellId : AccountId} {cell : CellAccount}

theorem peek_eq (h : slot cs.cells cellId = some cell) (key : Bytes32) :
    peek cs cellId key = slot cell.storage key := by
  rw [peek, h, Option.bind_some]

theorem mem_of_peek {key v : Bytes32} (h : peek cs cellId key = some v) : cellId ∈ cs.cells := by
  obtain ⟨cell, hcell, -⟩ := Option.bind_eq_some_iff.mp h
  exact mem_of_lookup hcell

theorem countAt_eq (h : slot cs.cells cellId = some cell) (key : Bytes32) :
    readU64FromStorage cell key = countAt cs cellId key := by
  rw [countAt, peek_eq h]
  rfl

theorem peek_storageChange (hcell : cellId ∈ cs.cells) (diff : Map Bytes32 (Option Bytes32)) (c : AccountId)
    (key : Bytes32) :
    peek (cellEffect env (.storageChange cellId diff) cs) c key =
      if c = cellId then (slot diff key).getD (peek cs c key) else peek cs c key := by
  unfold peek
  rw [cellEffect, modifyCell, slot_modify]
  by_cases hc : c = cellId
  · subst hc
    obtain ⟨cell, hcell⟩ := Option.isSome_iff_exists.mp (mem_iff_slot.mp hcell)
    rw [if_pos rfl, if_pos rfl, hcell, Option.map_some, Option.bind_some, Option.bind_some, slot_changeStorage]
  · rw [if_neg (Ne.symm hc), if_neg hc]

theorem peek_deploy (hc : c ≠ cellId) (cell : CellAccount) (key : Bytes32) :
    peek (cellEffect env (.deploy cellId cell) cs) c key = peek cs c key := by
  unfold peek
  rw [cellEffect, slot_insert, if_neg (Ne.symm hc)]

theorem mem_storageChange (diff : Map Bytes32 (Option Bytes32)) (c : AccountId) :
    c ∈ (cellEffect env (.storageChange cellId diff) cs).cells ↔ c ∈ cs.cells := mem_modifyCell _ _ _ _

theorem mem_deploy (cell : CellAccount) (c : AccountId) :
    c ∈ (cellEffect env (.deploy cellId cell) cs).cells ↔ c = cellId ∨ c ∈ cs.cells := by
  rw [mem_iff_slot, mem_iff_slot, cellEffect, slot_insert]
  by_cases hc : cellId = c
  · simp [hc]
  · rw [if_neg hc, or_iff_right (Ne.symm hc)]

end

/-! ## The book of registrations -/

/-- An agent, who registered it, and its policy cell. -/
structure Agent where
  id : AccountId
  owner : AccountId
  policy : AccountId
  deriving DecidableEq

/-- What was registered, in order: agents, and names with their cells. -/
structure Book where
  agents : List Agent
  entries : Kind → List (String × AccountId)

/-- One more cell of a kind. -/
def Book.enter (b : Book) (k : Kind) (name : String) (id : AccountId) : Book :=
  { b with entries := Function.update b.entries k (b.entries k ++ [(name, id)]) }

/-- One more agent. -/
def Book.enrol (b : Book) (a : Agent) : Book := { b with agents := b.agents ++ [a] }

/-- The registration that an intent makes. -/
def Book.note (b : Book) (sender : AccountId) : TransactionIntent → Book
  | .registerAgent agentId policyCellId _ => b.enrol ⟨agentId, sender, policyCellId⟩
  | .registerMcpResource resourceId _ name _ _ _ _ _ _ _ => b.enter .resource name resourceId
  | .registerMcpPrompt promptId name _ _ _ => b.enter .prompt name promptId
  | _ => b

@[simp] theorem Book.enter_self (b : Book) (k : Kind) (name : String) (id : AccountId) :
    (b.enter k name id).entries k = b.entries k ++ [(name, id)] := Function.update_self k _ b.entries

theorem Book.enter_of_ne (b : Book) {k k' : Kind} (h : k' ≠ k) (name : String) (id : AccountId) :
    (b.enter k name id).entries k' = b.entries k' := Function.update_of_ne h _ b.entries

@[simp] theorem Book.enrol_agents (b : Book) (a : Agent) : (b.enrol a).agents = b.agents ++ [a] := rfl

/-- The node and the book of its registrations. -/
structure Registrar where
  world : World
  book : Book

/-- The cells of the node. -/
def Registrar.cells (r : Registrar) : CellState := r.world.state.cells

/-- One transaction, computed and applied; it is noted if it goes through. -/
def step (env : Env) (r : Registrar) (tx : Transaction) : Registrar :=
  { world := (runTransaction env tx r.world).2
    book := if (runTransaction env tx r.world).1.isOk then r.book.note tx.sender tx.intent else r.book }

/-! ## What should hold -/

/-- The tool registry lists the cells of a kind, and every name leads to its cell. -/
structure Listed (env : Env) (cs : CellState) (k : Kind) (entries : List (String × AccountId)) : Prop where
  count : countAt cs (mcpRegistry env) (mcpKey k.countTag) = entries.length
  present : ∀ (i : ℕ) e, entries[i]? = some e → peek cs (mcpRegistry env) (mcpEntry k.entryTag i) = some e.2
  distinct : (entries.map Prod.snd).Nodup
  known : ∀ e ∈ entries, e.2 ∈ cs.cells
  names : ∀ e ∈ entries, peek cs (mcpRegistry env) (nameSlot env k e.1) = some e.2

/-- The agent registry lists the agents, with their owners and policy cells. -/
structure Enrolled (env : Env) (cs : CellState) (agents : List Agent) : Prop where
  count : countAt cs (agentRegistry env) (mcpKey "areg:count") = agents.length
  present : ∀ (i : ℕ) a, agents[i]? = some a → peek cs (agentRegistry env) (agentEntry env i) = some a.id
  distinct : (agents.map Agent.id).Nodup
  known : ∀ a ∈ agents, a.policy ∈ cs.cells
  policies : ∀ a ∈ agents, peek cs (agentRegistry env) (agentPolicy env a.id) = some a.policy
  owners : ∀ a ∈ agents, peek cs (agentRegistry env) (agentOwner env a.id) = some a.owner

/-- **The registries list what was registered.** -/
structure InOrder (env : Env) (r : Registrar) : Prop where
  listed : ∀ k, Listed env r.cells k (r.book.entries k)
  enrolled : Enrolled env r.cells r.book.agents

/-- The slots of a policy cell with its owner and permissions. -/
def Permission (env : Env) (key : Bytes32) : Prop :=
  key ∈ ["pol:owner", "pol:reads", "pol:writes", "pol:admin", "pol:rate", "pol:spend_tx", "pol:spend_ep"].map
    mcpKey ∨ ∃ toolId : AccountId, key = blake3Key env "pol:tool:" (ofBytes32 toolId)

/-- The cell is the sender's: a new one, one it owns, or the policy cell of an agent it has registered. -/
def Own (r : Registrar) (sender cellId : AccountId) : Prop :=
  cellId ∉ r.cells.cells ∨ (∃ cell, slot r.cells.cells cellId = some cell ∧ cell.owner = sender) ∨
    ∃ a ∈ r.book.agents, a.policy = cellId ∧ a.owner = sender

/-- **A transaction keeps to what is the sender's**: permissions are the owner's to change, a suspended
agent is reinstated by its owner, and no other cell is touched. -/
structure Authorized (env : Env) (r : Registrar) (tx : Transaction) : Prop where
  permissions : ∀ a ∈ r.book.agents, tx.sender ≠ a.owner → ∀ key, Permission env key →
    peek (step env r tx).cells a.policy key = peek r.cells a.policy key
  status : ∀ a ∈ r.book.agents, byteAt r.cells a.policy (mcpKey "pol:status") ≠ 0 →
    byteAt (step env r tx).cells a.policy (mcpKey "pol:status") = 0 →
      tx.sender = a.owner ∧ ∃ registryId, tx.intent = .reinstateAgent a.id registryId
  storage : ∀ cellId, cellId ≠ mcpRegistry env → cellId ≠ agentRegistry env → ¬ Own r tx.sender cellId →
    ∀ key, peek (step env r tx).cells cellId key = peek r.cells cellId key

/-! ## What a transaction has to satisfy -/

/-- The slots that the registration of an agent fills. -/
def agentSlots (env : Env) (agentId : AccountId) (i : ℕ) : List Bytes32 :=
  [agentPolicy env agentId, agentOwner env agentId, agentEntry env i, agentRegisteredAt env agentId]

/-- The name is free: its slot is empty and is no slot of the registry's own. -/
def FreeName (env : Env) (r : Registrar) (k : Kind) (name : String) : Prop :=
  peek r.cells (mcpRegistry env) (nameSlot env k name) = none ∧ Unmarked (nameSlot env k name)

/-- The agent can be bound to the policy cell: the cell is the sender's, no registry and not bound, and the
agent's slots are empty. -/
def FreeAgent (env : Env) (r : Registrar) (sender agentId policyCellId : AccountId) : Prop :=
  ((∀ cell, slot r.cells.cells policyCellId = some cell → cell.owner = sender) ∧
    policyCellId ≠ mcpRegistry env ∧ policyCellId ≠ agentRegistry env ∧
    ∀ a ∈ r.book.agents, a.policy ≠ policyCellId) ∧
  (agentSlots env agentId r.book.agents.length).Nodup ∧
  ∀ key ∈ agentSlots env agentId r.book.agents.length, key ≠ mcpKey "areg:count" ∧
    peek r.cells (agentRegistry env) key = none

/-- The agent has a policy cell, and is not registered again. -/
def Taken (env : Env) (r : Registrar) (agentId : AccountId) : Prop :=
  ∃ v, peek r.cells (agentRegistry env) (agentPolicy env agentId) = some v ∧ v ≠ 0

/-- The agent is registered, or its slot is empty. -/
def Resolved (env : Env) (r : Registrar) (agentId : AccountId) : Prop :=
  (∃ a ∈ r.book.agents, a.id = agentId) ∨ peek r.cells (agentRegistry env) (agentPolicy env agentId) = none

/-- The cell named as the registry is the registry, or none at all. -/
def Aimed (r : Registrar) (registryId registry : AccountId) : Prop :=
  registryId ∈ r.cells.cells → registryId = registry

/-- **A proper transaction** names the registry of the protocol and takes only what is free. -/
def Proper (env : Env) (r : Registrar) (tx : Transaction) : Prop :=
  match tx.intent with
  | .registerAgent agentId policyCellId registryId =>
    Aimed r registryId (agentRegistry env) ∧
      (Taken env r agentId ∨ FreeAgent env r tx.sender agentId policyCellId)
  | .suspendAgent agentId registryId _ => Aimed r registryId (agentRegistry env) ∧ Resolved env r agentId
  | .reinstateAgent agentId registryId => Aimed r registryId (agentRegistry env) ∧ Resolved env r agentId
  | .registerMcpResource resourceId _ name _ _ _ _ _ _ registryId =>
    Aimed r registryId (mcpRegistry env) ∧ (resourceId ∈ r.cells.cells ∨ FreeName env r .resource name)
  | .registerMcpPrompt promptId name _ _ registryId =>
    Aimed r registryId (mcpRegistry env) ∧ (promptId ∈ r.cells.cells ∨ FreeName env r .prompt name)
  | _ => False

/-! ## What the handlers write -/

/-- The handler of an intent of the registries. -/
def handler (env : Env) (w : World) (sender : AccountId) (timestamp : ℕ) :
    TransactionIntent → Except String StateDiff
  | .registerMcpResource id bytecode name uri mime data reads writes schemas registryId =>
    diffRegisterResource env w sender id bytecode name uri mime data reads writes schemas registryId timestamp
  | .registerMcpPrompt id name template arguments registryId =>
    diffRegisterPrompt env w sender id name template arguments registryId timestamp
  | .registerAgent agentId policyCellId registryId =>
    diffRegisterAgent env w sender agentId policyCellId registryId timestamp
  | .suspendAgent agentId registryId reason => diffSetAgentStatus env w sender agentId registryId 1 reason
  | .reinstateAgent agentId registryId => diffSetAgentStatus env w sender agentId registryId 0 ""
  | _ => throw "not an intent of the registries"

/-- The intents of the registries. -/
def IsRegistration : TransactionIntent → Prop
  | .registerMcpResource .. | .registerMcpPrompt .. | .registerAgent .. | .suspendAgent ..
  | .reinstateAgent .. => True
  | _ => False

section
variable {env : Env} {w : World} {tx : Transaction}

theorem computeIntent_handler (h : IsRegistration tx.intent) {account : AccountRecord} {d : StateDiff}
    (hd : computeIntent env w (start env tx) tx.sender tx.timestamp account tx.intent = .ok d) :
    ∃ mcp, handler env w tx.sender tx.timestamp tx.intent = .ok mcp ∧ d = takeCells (start env tx) mcp := by
  cases hi : tx.intent with
  | registerMcpResource | registerMcpPrompt | registerAgent | suspendAgent | reinstateAgent =>
    rw [hi, computeIntent] at hd
    obtain ⟨mcp, hmcp, hd⟩ := bind_eq_ok.mp hd
    exact ⟨mcp, hmcp, (pure_eq_ok.mp hd).symm⟩
  | _ =>
    rw [hi] at h
    exact h.elim

theorem applied_cells (account : AccountRecord) (f : Fees) (mcp : StateDiff) :
    (applied env (withFees tx.sender account f (takeCells (start env tx) mcp)) w).state.cells =
      runAll (cellEffect env) mcp.cellUpdates w.state.cells := by
  have hbefore : (beforeNameFee env (withFees tx.sender account f (takeCells (start env tx) mcp))
      w).state.cells = runAll (cellEffect env) mcp.cellUpdates w.state.cells := by
    rw [← recordTransaction_cells (withFees tx.sender account f (takeCells (start env tx) mcp)) w.state]
    rfl
  rw [← hbefore]
  rfl

/-- **What a transaction of the registries does to the cells**: what its handler says, or nothing. -/
theorem runTransaction_cells (h : IsRegistration tx.intent) (hcovers : Covers env w tx) :
    ((runTransaction env tx w).1.isOk = false ∧ (runTransaction env tx w).2 = w) ∨
      ((runTransaction env tx w).1.isOk = true ∧ ∃ mcp,
        handler env w tx.sender tx.timestamp tx.intent = .ok mcp ∧
        (runTransaction env tx w).2.state.cells =
          runAll (cellEffect env) mcp.cellUpdates w.state.cells) := by
  rw [runTransaction]
  cases hd : computeTransactionDiffSkipSig env w tx with
  | error e => exact .inl ⟨rfl, rfl⟩
  | ok d =>
    obtain ⟨account, d₁, f, hcheck, h1, hf, rfl⟩ := compute_eq_ok hd
    obtain ⟨mcp, hmcp, rfl⟩ := computeIntent_handler h h1
    obtain ⟨-, hacc, -⟩ := checkTransaction_eq_ok hcheck
    have happ := (Parts.mk hacc h1 hf).applicable_iff_covers.mpr hcovers
    dsimp only
    rw [(spec_applyDiff env _).ok w happ]
    exact .inr ⟨rfl, mcp, hmcp, applied_cells account f mcp⟩

end

/-- A new cell is entered under a name. -/
def Enters (env : Env) (cs : CellState) (k : Kind) (registryId : AccountId) (name : String) (id : AccountId)
    (mcp : StateDiff) : Prop :=
  id ∉ cs.cells ∧ ∃ cell registry, slot cs.cells registryId = some registry ∧
    readU64FromStorage registry (mcpKey k.countTag) + 1 < u64 ∧
    mcp.cellUpdates = [.deploy id cell,
      registryEntry env registry registryId k.countTag k.entryTag k.nameTag name id]

/-- An agent is entered with its owner and its policy cell. -/
def Enrols (env : Env) (cs : CellState) (registryId sender agentId policyCellId : AccountId)
    (mcp : StateDiff) : Prop :=
  let count := countAt cs registryId (mcpKey "areg:count")
  registryId ∈ cs.cells ∧ policyCellId ∈ cs.cells ∧
  (∀ v, peek cs registryId (agentPolicy env agentId) = some v → v = 0) ∧
  count + 1 < u64 ∧ ∃ timestamp policyDiff,
    mcp.cellUpdates = [.storageChange registryId (fromList
      [(agentPolicy env agentId, some policyCellId), (agentOwner env agentId, some sender),
        (agentEntry env count, some agentId), (agentRegisteredAt env agentId, some (packU64 timestamp)),
        (mcpKey "areg:count", some (packU64 (count + 1)))]),
      .storageChange policyCellId policyDiff]

section
variable {env : Env} {w : World} {sender registryId : AccountId} {mcp : StateDiff}

theorem register_eq_ok {what countTag entryTag nameTag name : String} {cell : CellAccount}
    (h : register env w sender registryId what countTag entryTag nameTag name cell = .ok mcp) :
    ∃ registry, slot w.state.cells.cells registryId = some registry ∧
      readU64FromStorage registry (mcpKey countTag) + 1 < u64 ∧
      mcp.cellUpdates = [.deploy cell.cellId cell,
        registryEntry env registry registryId countTag entryTag nameTag name cell.cellId] := by
  simp only [register, okOr_bind_ok, failIf_bind_ok, pure_eq_ok] at h
  obtain ⟨registry, hregistry, -, -, -, hcount, rfl⟩ := h
  exact ⟨registry, hregistry, not_le.mp hcount, rfl⟩

theorem diffRegisterResource_eq_ok {id : AccountId} {bytecode : Bytes} {name uri mime : String}
    {data : List (Bytes × Bytes)} {reads writes schemas : List Bytes32}
    (h : diffRegisterResource env w sender id bytecode name uri mime data reads writes schemas registryId
      timestamp = .ok mcp) : Enters env w.state.cells .resource registryId name id mcp := by
  simp only [diffRegisterResource, failIf_bind_ok] at h
  obtain ⟨-, -, h⟩ := h
  split at h
  case' isTrue => obtain ⟨-, -, h⟩ := bind_eq_ok.mp h
  all_goals
    simp only [failIf_bind_ok, okOr_bind_ok] at h
    obtain ⟨hnew, -, -, -, -, -, -, h⟩ := h
    obtain ⟨registry, hrest⟩ := register_eq_ok h
    exact ⟨hnew, _, registry, hrest⟩

theorem diffRegisterPrompt_eq_ok {id : AccountId} {name : String} {template : Bytes}
    {arguments : List (String × String × Bool)}
    (h : diffRegisterPrompt env w sender id name template arguments registryId timestamp = .ok mcp) :
    Enters env w.state.cells .prompt registryId name id mcp := by
  simp only [diffRegisterPrompt, failIf_bind_ok] at h
  obtain ⟨-, -, hnew, h⟩ := h
  obtain ⟨registry, hrest⟩ := register_eq_ok h
  exact ⟨hnew, _, registry, hrest⟩

theorem diffRegisterAgent_eq_ok {agentId policyCellId : AccountId}
    (h : diffRegisterAgent env w sender agentId policyCellId registryId timestamp = .ok mcp) :
    Enrols env w.state.cells registryId sender agentId policyCellId mcp := by
  simp only [diffRegisterAgent, okOr_bind_ok, failIf_bind_ok, pure_eq_ok] at h
  obtain ⟨registry, hregistry, hpolicy, -, hfree, hcount, rfl⟩ := h
  have hslot : slot w.state.cells.cells registryId = some registry := hregistry
  rw [countAt_eq hslot] at hcount ⊢
  refine ⟨mem_of_lookup hregistry, not_not.mp hpolicy, ?_, not_le.mp hcount, timestamp, _, rfl⟩
  intro v hv
  rw [peek_eq hslot] at hv
  by_contra hne
  refine hfree ⟨?_, mem_iff_slot.mpr (by rw [hv]; rfl)⟩
  intro hzero
  have hzero' : slot registry.storage (agentPolicy env agentId) = some 0 := hzero
  rw [hv] at hzero'
  exact hne (Option.some.inj hzero')

theorem diffSetAgentStatus_eq_ok {agentId : AccountId} {status : UInt8} {reason : String}
    (h : diffSetAgentStatus env w sender agentId registryId status reason = .ok mcp) :
    (peek w.state.cells registryId (agentOwner env agentId)).getD 0 = sender ∧
      ∃ policyId, peek w.state.cells registryId (agentPolicy env agentId) = some policyId ∧
        mcp.cellUpdates = [.storageChange policyId (fromList ((mcpKey "pol:status", some (flagWord status)) ::
          if reason = "" then [] else [(mcpKey "pol:sus_reason", some (env.blake3 reason.toUTF8.toList))]))] := by
  simp only [diffSetAgentStatus, okOr_bind_ok, failIf_bind_ok, pure_eq_ok] at h
  obtain ⟨registry, hregistry, howner, policyId, hpolicy, rfl⟩ := h
  have hslot : slot w.state.cells.cells registryId = some registry := hregistry
  rw [peek_eq hslot, peek_eq hslot]
  exact ⟨not_not.mp howner, policyId, hpolicy, rfl⟩

end

/-! ## A new cell under a name -/

theorem of_getElem?_concat {α : Type} {l : List α} {x y : α} (h : (l ++ [x])[i]? = some y) :
    (i < l.length ∧ l[i]? = some y) ∨ (i = l.length ∧ y = x) := by
  rcases lt_trichotomy i l.length with hi | rfl | hi
  · rw [List.getElem?_append_left hi] at h
    exact .inl ⟨hi, h⟩
  · rw [List.getElem?_concat_length] at h
    exact .inr ⟨rfl, (Option.some.inj h).symm⟩
  · rw [List.getElem?_eq_none (by simp; omega)] at h
    cases h

theorem slot_empty (key : Bytes32) : slot (∅ : Map Bytes32 (Option Bytes32)) key = none := by
  simp [slot]

section
variable {env : Env} {cs : CellState} {k : Kind} {registryId : AccountId} {name : String} {id : AccountId}
  {mcp : StateDiff}

theorem Enters.mem (h : Enters env cs k registryId name id mcp) (c : AccountId) :
    c ∈ (runAll (cellEffect env) mcp.cellUpdates cs).cells ↔ c = id ∨ c ∈ cs.cells := by
  obtain ⟨-, cell, registry, -, -, hupdates⟩ := h
  rw [hupdates, runAll_cons, runAll_cons, runAll_nil, registryEntry, mem_storageChange, mem_deploy]

theorem Enters.registry_mem (h : Enters env cs k registryId name id mcp) : registryId ∈ cs.cells := by
  obtain ⟨-, cell, registry, hslot, -⟩ := h
  exact mem_of_lookup hslot

theorem Enters.peek_ne (h : Enters env cs k registryId name id mcp) (hid : c ≠ id)
    (hregistry : c ≠ registryId) (key : Bytes32) :
    peek (runAll (cellEffect env) mcp.cellUpdates cs) c key = peek cs c key := by
  obtain ⟨-, cell, registry, hslot, -, hupdates⟩ := h
  have hmem : registryId ∈ (cellEffect env (.deploy id cell) cs).cells :=
    (mem_deploy cell registryId).mpr (.inr (mem_of_lookup hslot))
  rw [hupdates, runAll_cons, runAll_cons, runAll_nil, registryEntry, peek_storageChange hmem, if_neg hregistry,
    peek_deploy hid]

theorem Enters.peek_registry (h : Enters env cs k registryId name id mcp) (key : Bytes32) :
    ∃ version, peek (runAll (cellEffect env) mcp.cellUpdates cs) registryId key =
      if mcpKey "mcp:registry_ver" = key then some version
      else if nameSlot env k name = key then some id
      else if mcpEntry k.entryTag (countAt cs registryId (mcpKey k.countTag)) = key then some id
      else if mcpKey k.countTag = key then some (packU64 (countAt cs registryId (mcpKey k.countTag) + 1))
      else peek cs registryId key := by
  obtain ⟨hnew, cell, registry, hslot, -, hupdates⟩ := h
  have hne : registryId ≠ id := by
    rintro rfl
    exact hnew (mem_of_lookup hslot)
  have hmem : registryId ∈ (cellEffect env (.deploy id cell) cs).cells :=
    (mem_deploy cell registryId).mpr (.inr (mem_of_lookup hslot))
  refine ⟨packU64 ((readU64FromStorage registry (mcpKey "mcp:registry_ver") + 1) % u64), ?_⟩
  rw [hupdates, runAll_cons, runAll_cons, runAll_nil, registryEntry, peek_storageChange hmem, if_pos rfl,
    peek_deploy hne, countAt_eq hslot]
  simp only [fromList, List.foldl_cons, List.foldl_nil, slot_insert, slot_empty]
  rw [← nameSlot]
  split_ifs <;> rfl

theorem Enters.count_lt (h : Enters env cs k registryId name id mcp) :
    countAt cs registryId (mcpKey k.countTag) + 1 < u64 := by
  obtain ⟨-, cell, registry, hslot, hcount, -⟩ := h
  rwa [countAt_eq hslot] at hcount

end

section
variable {env : Env} {cs : CellState} {k : Kind} {name : String} {id : AccountId} {mcp : StateDiff}
  {entries : List (String × AccountId)}

theorem Enters.peek_front (h : Enters env cs k (mcpRegistry env) name id mcp) {key : Bytes32}
    (hver : front key ≠ front (mcpKey "mcp:registry_ver")) (hname : nameSlot env k name ≠ key)
    (hentry : mcpEntry k.entryTag (countAt cs (mcpRegistry env) (mcpKey k.countTag)) ≠ key)
    (hcount : front key ≠ front (mcpKey k.countTag)) :
    peek (runAll (cellEffect env) mcp.cellUpdates cs) (mcpRegistry env) key = peek cs (mcpRegistry env) key := by
  obtain ⟨version, hpeek⟩ := h.peek_registry key
  rw [hpeek, if_neg fun heq => hver (congrArg front heq).symm, if_neg hname, if_neg hentry,
    if_neg fun heq => hcount (congrArg front heq).symm]

theorem Enters.names (h : Enters env cs k (mcpRegistry env) name id mcp)
    (hfree : peek cs (mcpRegistry env) (nameSlot env k name) = none) {k' : Kind} {e : String × AccountId}
    (hunmarked : Unmarked (nameSlot env k' e.1))
    (hold : peek cs (mcpRegistry env) (nameSlot env k' e.1) = some e.2) :
    peek (runAll (cellEffect env) mcp.cellUpdates cs) (mcpRegistry env) (nameSlot env k' e.1) = some e.2 := by
  rw [h.peek_front (hunmarked _ verTag_mem) ?_ ?_ (hunmarked _ (countTag_mem k)), hold]
  · intro heq
    rw [heq, hold] at hfree
    cases hfree
  · intro heq
    exact hunmarked _ (entryTag_mem k) (by rw [← heq, front_mcpEntry])

theorem entry_ne_ver (k : Kind) : front (mcpKey k.entryTag) ≠ front (mcpKey "mcp:registry_ver") := by
  intro h
  have htag := tag_eq (entryTag_mem k) verTag_mem h
  cases k <;> exact absurd htag (by decide)

theorem entry_ne_count (k k' : Kind) : front (mcpKey k.entryTag) ≠ front (mcpKey k'.countTag) := by
  intro h
  have htag := tag_eq (entryTag_mem k) (countTag_mem k') h
  cases k <;> cases k' <;> exact absurd htag (by decide)

theorem count_ne_ver (k : Kind) : front (mcpKey k.countTag) ≠ front (mcpKey "mcp:registry_ver") := by
  intro h
  have htag := tag_eq (countTag_mem k) verTag_mem h
  cases k <;> exact absurd htag (by decide)

theorem count_ne_count {k k' : Kind} (h : k ≠ k') : front (mcpKey k.countTag) ≠ front (mcpKey k'.countTag) := by
  intro heq
  have htag := tag_eq (countTag_mem k) (countTag_mem k') heq
  cases k <;> cases k' <;> first | exact h rfl | exact absurd htag (by decide)

theorem entry_ne_entry {k k' : Kind} (h : k ≠ k') : front (mcpKey k.entryTag) ≠ front (mcpKey k'.entryTag) := by
  intro heq
  have htag := tag_eq (entryTag_mem k) (entryTag_mem k') heq
  cases k <;> cases k' <;> first | exact h rfl | exact absurd htag (by decide)

theorem Enters.count (h : Enters env cs k (mcpRegistry env) name id mcp)
    (hunmarked : Unmarked (nameSlot env k name)) :
    countAt (runAll (cellEffect env) mcp.cellUpdates cs) (mcpRegistry env) (mcpKey k.countTag) =
      countAt cs (mcpRegistry env) (mcpKey k.countTag) + 1 := by
  obtain ⟨version, hpeek⟩ := h.peek_registry (mcpKey k.countTag)
  have hentry : mcpEntry k.entryTag (countAt cs (mcpRegistry env) (mcpKey k.countTag)) ≠ mcpKey k.countTag := by
    intro heq
    exact entry_ne_count k k (by rw [← heq, front_mcpEntry])
  rw [if_neg fun heq => count_ne_ver k (congrArg front heq).symm,
    if_neg fun heq => hunmarked _ (countTag_mem k) (congrArg front heq), if_neg hentry, if_pos rfl] at hpeek
  rw [countAt, hpeek, Option.map_some, Option.getD_some, decodeU64_packU64 h.count_lt]

theorem Enters.count_other (h : Enters env cs k (mcpRegistry env) name id mcp)
    (hunmarked : Unmarked (nameSlot env k name)) {k' : Kind} (hk : k' ≠ k) :
    countAt (runAll (cellEffect env) mcp.cellUpdates cs) (mcpRegistry env) (mcpKey k'.countTag) =
      countAt cs (mcpRegistry env) (mcpKey k'.countTag) := by
  unfold countAt
  rw [h.peek_front (count_ne_ver k') ?_ ?_ (count_ne_count hk)]
  · exact fun heq => hunmarked _ (countTag_mem k') (congrArg front heq)
  · intro heq
    exact entry_ne_count k k' (by rw [← heq, front_mcpEntry])

theorem Enters.entry_old (h : Enters env cs k (mcpRegistry env) name id mcp)
    (hunmarked : Unmarked (nameSlot env k name)) {k' : Kind}
    (hne : mcpEntry k.entryTag (countAt cs (mcpRegistry env) (mcpKey k.countTag)) ≠ mcpEntry k'.entryTag i) :
    peek (runAll (cellEffect env) mcp.cellUpdates cs) (mcpRegistry env) (mcpEntry k'.entryTag i) =
      peek cs (mcpRegistry env) (mcpEntry k'.entryTag i) := by
  refine h.peek_front ?_ ?_ hne ?_
  · rw [front_mcpEntry]
    exact entry_ne_ver k'
  · intro heq
    exact hunmarked _ (entryTag_mem k') (by rw [heq, front_mcpEntry])
  · rw [front_mcpEntry]
    exact entry_ne_count k' k

theorem Enters.entry_new (h : Enters env cs k (mcpRegistry env) name id mcp)
    (hunmarked : Unmarked (nameSlot env k name)) :
    peek (runAll (cellEffect env) mcp.cellUpdates cs) (mcpRegistry env)
      (mcpEntry k.entryTag (countAt cs (mcpRegistry env) (mcpKey k.countTag))) = some id := by
  obtain ⟨version, hpeek⟩ :=
    h.peek_registry (mcpEntry k.entryTag (countAt cs (mcpRegistry env) (mcpKey k.countTag)))
  rw [hpeek, if_neg, if_neg, if_pos rfl]
  · intro heq
    exact hunmarked _ (entryTag_mem k) (by rw [heq, front_mcpEntry])
  · intro heq
    exact entry_ne_ver k (by rw [heq, front_mcpEntry])

theorem Enters.name_new (h : Enters env cs k (mcpRegistry env) name id mcp)
    (hunmarked : Unmarked (nameSlot env k name)) :
    peek (runAll (cellEffect env) mcp.cellUpdates cs) (mcpRegistry env) (nameSlot env k name) = some id := by
  obtain ⟨version, hpeek⟩ := h.peek_registry (nameSlot env k name)
  rw [hpeek, if_neg fun heq => hunmarked _ verTag_mem (congrArg front heq).symm, if_pos rfl]

/-- **The kind of the new cell**: it comes last. -/
theorem Listed.enter (hl : Listed env cs k entries) (h : Enters env cs k (mcpRegistry env) name id mcp)
    (hfree : peek cs (mcpRegistry env) (nameSlot env k name) = none)
    (hunmarked : Unmarked (nameSlot env k name)) (hold : ∀ e ∈ entries, Unmarked (nameSlot env k e.1)) :
    Listed env (runAll (cellEffect env) mcp.cellUpdates cs) k (entries ++ [(name, id)]) where
  count := by
    rw [h.count hunmarked, hl.count, List.length_append, List.length_singleton]
  present := by
    intro i e he
    have hlt := h.count_lt
    rcases of_getElem?_concat he with ⟨hi, he⟩ | ⟨rfl, rfl⟩
    · rw [h.entry_old hunmarked, hl.present i e he]
      intro heq
      rw [hl.count] at heq hlt
      have := mcpEntry_inj (by omega) (by omega) heq
      omega
    · rw [← hl.count]
      exact h.entry_new hunmarked
  distinct := by
    rw [List.map_append, List.nodup_append]
    refine ⟨hl.distinct, by simp, ?_⟩
    intro c hc d hd
    simp only [List.map_cons, List.map_nil, List.mem_singleton] at hd
    obtain ⟨e, he, rfl⟩ := List.mem_map.mp hc
    rintro rfl
    exact h.1 (hd ▸ hl.known e he)
  known := by
    intro e he
    rcases List.mem_append.mp he with he | he
    · exact (h.mem _).mpr (.inr (hl.known e he))
    · rw [List.mem_singleton.mp he]
      exact (h.mem _).mpr (.inl rfl)
  names := by
    intro e he
    rcases List.mem_append.mp he with he | he
    · exact h.names hfree (hold e he) (hl.names e he)
    · rw [List.mem_singleton.mp he]
      exact h.name_new hunmarked

/-- **The other kinds** stay as they are. -/
theorem Listed.enter_other {k' : Kind} (hl : Listed env cs k' entries) (hk : k' ≠ k)
    (h : Enters env cs k (mcpRegistry env) name id mcp)
    (hfree : peek cs (mcpRegistry env) (nameSlot env k name) = none)
    (hunmarked : Unmarked (nameSlot env k name)) (hold : ∀ e ∈ entries, Unmarked (nameSlot env k' e.1)) :
    Listed env (runAll (cellEffect env) mcp.cellUpdates cs) k' entries where
  count := by rw [h.count_other hunmarked hk, hl.count]
  present := by
    intro i e he
    rw [h.entry_old hunmarked, hl.present i e he]
    intro heq
    exact entry_ne_entry hk.symm (by rw [← front_mcpEntry k.entryTag, heq, front_mcpEntry])
  distinct := hl.distinct
  known := fun e he => (h.mem _).mpr (.inr (hl.known e he))
  names := fun e he => h.names hfree (hold e he) (hl.names e he)

end

section
variable {env : Env} {cs cs' : CellState} {k : Kind} {entries : List (String × AccountId)} {agents : List Agent}

theorem Listed.frame (hl : Listed env cs k entries) (hmem : ∀ c ∈ cs.cells, c ∈ cs'.cells)
    (hpeek : ∀ key, peek cs' (mcpRegistry env) key = peek cs (mcpRegistry env) key) :
    Listed env cs' k entries where
  count := by rw [countAt, hpeek, ← countAt, hl.count]
  present := fun i e he => by rw [hpeek, hl.present i e he]
  distinct := hl.distinct
  known := fun e he => hmem _ (hl.known e he)
  names := fun e he => by rw [hpeek, hl.names e he]

theorem Enrolled.frame (hl : Enrolled env cs agents) (hmem : ∀ c ∈ cs.cells, c ∈ cs'.cells)
    (hpeek : ∀ key, peek cs' (agentRegistry env) key = peek cs (agentRegistry env) key) :
    Enrolled env cs' agents where
  count := by rw [countAt, hpeek, ← countAt, hl.count]
  present := fun i a ha => by rw [hpeek, hl.present i a ha]
  distinct := hl.distinct
  known := fun a ha => hmem _ (hl.known a ha)
  policies := fun a ha => by rw [hpeek, hl.policies a ha]
  owners := fun a ha => by rw [hpeek, hl.owners a ha]

end

/-! ## A new agent -/

section
variable {env : Env} {cs : CellState} {sender agentId policyCellId : AccountId} {mcp : StateDiff}
  {agents : List Agent}

theorem Enrols.mem {registryId : AccountId} (h : Enrols env cs registryId sender agentId policyCellId mcp)
    (c : AccountId) : c ∈ (runAll (cellEffect env) mcp.cellUpdates cs).cells ↔ c ∈ cs.cells := by
  obtain ⟨-, -, -, -, timestamp, policyDiff, hupdates⟩ := h
  rw [hupdates, runAll_cons, runAll_cons, runAll_nil, mem_storageChange, mem_storageChange]

theorem Enrols.peek_ne {registryId : AccountId} (h : Enrols env cs registryId sender agentId policyCellId mcp)
    (hpolicy : c ≠ policyCellId) (hregistry : c ≠ registryId) (key : Bytes32) :
    peek (runAll (cellEffect env) mcp.cellUpdates cs) c key = peek cs c key := by
  obtain ⟨hreg, hpol, -, -, timestamp, policyDiff, hupdates⟩ := h
  rw [hupdates, runAll_cons, runAll_cons, runAll_nil,
    peek_storageChange ((mem_storageChange _ _).mpr hpol), if_neg hpolicy, peek_storageChange hreg,
    if_neg hregistry]

theorem Enrols.peek_registry (h : Enrols env cs (agentRegistry env) sender agentId policyCellId mcp)
    (hne : agentRegistry env ≠ policyCellId) (key : Bytes32) :
    ∃ timestamp, peek (runAll (cellEffect env) mcp.cellUpdates cs) (agentRegistry env) key =
      if mcpKey "areg:count" = key then
        some (packU64 (countAt cs (agentRegistry env) (mcpKey "areg:count") + 1))
      else if agentRegisteredAt env agentId = key then some timestamp
      else if agentEntry env (countAt cs (agentRegistry env) (mcpKey "areg:count")) = key then some agentId
      else if agentOwner env agentId = key then some sender
      else if agentPolicy env agentId = key then some policyCellId
      else peek cs (agentRegistry env) key := by
  obtain ⟨hreg, hpol, -, -, timestamp, policyDiff, hupdates⟩ := h
  refine ⟨packU64 timestamp, ?_⟩
  rw [hupdates, runAll_cons, runAll_cons, runAll_nil,
    peek_storageChange ((mem_storageChange _ _).mpr hpol), if_neg hne, peek_storageChange hreg, if_pos rfl]
  simp only [fromList, List.foldl_cons, List.foldl_nil, slot_insert, slot_empty]
  split_ifs <;> rfl

/-- The slots of the new agent are empty and are no count. -/
def Empty (env : Env) (cs : CellState) (agentId : AccountId) (i : ℕ) : Prop :=
  ∀ key ∈ agentSlots env agentId i, key ≠ mcpKey "areg:count" ∧ peek cs (agentRegistry env) key = none

theorem Enrols.old (h : Enrols env cs (agentRegistry env) sender agentId policyCellId mcp)
    (hne : agentRegistry env ≠ policyCellId)
    (hempty : Empty env cs agentId (countAt cs (agentRegistry env) (mcpKey "areg:count"))) {key v : Bytes32}
    (hcount : key ≠ mcpKey "areg:count") (hold : peek cs (agentRegistry env) key = some v) :
    peek (runAll (cellEffect env) mcp.cellUpdates cs) (agentRegistry env) key = some v := by
  obtain ⟨timestamp, hpeek⟩ := h.peek_registry hne key
  have hother : ∀ key' ∈ agentSlots env agentId (countAt cs (agentRegistry env) (mcpKey "areg:count")),
      key' ≠ key := by
    rintro key' hmem rfl
    rw [(hempty _ hmem).2] at hold
    cases hold
  rw [hpeek, if_neg hcount.symm, if_neg (hother _ (by simp [agentSlots])),
    if_neg (hother _ (by simp [agentSlots])), if_neg (hother _ (by simp [agentSlots])),
    if_neg (hother _ (by simp [agentSlots])), hold]

theorem Enrols.new (h : Enrols env cs (agentRegistry env) sender agentId policyCellId mcp)
    (hne : agentRegistry env ≠ policyCellId)
    (hnodup : (agentSlots env agentId (countAt cs (agentRegistry env) (mcpKey "areg:count"))).Nodup)
    (hempty : Empty env cs agentId (countAt cs (agentRegistry env) (mcpKey "areg:count"))) :
    peek (runAll (cellEffect env) mcp.cellUpdates cs) (agentRegistry env) (agentPolicy env agentId) =
        some policyCellId ∧
      peek (runAll (cellEffect env) mcp.cellUpdates cs) (agentRegistry env) (agentOwner env agentId) =
        some sender ∧
      peek (runAll (cellEffect env) mcp.cellUpdates cs) (agentRegistry env)
        (agentEntry env (countAt cs (agentRegistry env) (mcpKey "areg:count"))) = some agentId := by
  have hcount := fun key hmem => (hempty key hmem).1.symm
  simp only [agentSlots, List.nodup_cons, List.mem_cons, List.not_mem_nil, or_false, not_or] at hnodup
  obtain ⟨⟨hpo, hpe, hpr⟩, ⟨hoe, hor⟩, her, -⟩ := hnodup
  obtain ⟨t₁, hpolicy⟩ := h.peek_registry hne (agentPolicy env agentId)
  obtain ⟨t₂, howner⟩ := h.peek_registry hne (agentOwner env agentId)
  obtain ⟨t₃, hentry⟩ :=
    h.peek_registry hne (agentEntry env (countAt cs (agentRegistry env) (mcpKey "areg:count")))
  refine ⟨?_, ?_, ?_⟩
  · rw [hpolicy, if_neg (hcount _ (by simp [agentSlots])), if_neg (Ne.symm hpr), if_neg (Ne.symm hpe),
      if_neg (Ne.symm hpo), if_pos rfl]
  · rw [howner, if_neg (hcount _ (by simp [agentSlots])), if_neg (Ne.symm hor), if_neg (Ne.symm hoe), if_pos rfl]
  · rw [hentry, if_neg (hcount _ (by simp [agentSlots])), if_neg (Ne.symm her), if_pos rfl]

/-- The slots of an agent that are read are none of the count's. -/
def Aside (env : Env) (agents : List Agent) : Prop :=
  ∀ (i : ℕ) a, agents[i]? = some a → ∀ key ∈ agentSlots env a.id i, key ≠ mcpKey "areg:count"

theorem Aside.policy (h : Aside env agents) {a : Agent} (ha : a ∈ agents) :
    agentPolicy env a.id ≠ mcpKey "areg:count" ∧ agentOwner env a.id ≠ mcpKey "areg:count" := by
  obtain ⟨i, hi⟩ := List.mem_iff_getElem?.mp ha
  exact ⟨h i a hi _ (by simp [agentSlots]), h i a hi _ (by simp [agentSlots])⟩

/-- **The new agent** comes last. -/
theorem Enrolled.enter (hl : Enrolled env cs agents) (haside : Aside env agents)
    (h : Enrols env cs (agentRegistry env) sender agentId policyCellId mcp)
    (hne : agentRegistry env ≠ policyCellId) (hnodup : (agentSlots env agentId agents.length).Nodup)
    (hempty : Empty env cs agentId agents.length) :
    Enrolled env (runAll (cellEffect env) mcp.cellUpdates cs) (agents ++ [⟨agentId, sender, policyCellId⟩]) := by
  rw [← hl.count] at hnodup hempty
  obtain ⟨hpolicy, howner, hentry⟩ := h.new hne hnodup hempty
  refine ⟨?_, ?_, ?_, ?_, ?_, ?_⟩
  · obtain ⟨timestamp, hpeek⟩ := h.peek_registry hne (mcpKey "areg:count")
    rw [countAt, hpeek, if_pos rfl, Option.map_some, Option.getD_some, decodeU64_packU64 h.2.2.2.1, hl.count,
      List.length_append, List.length_singleton]
  · intro i a ha
    rcases of_getElem?_concat ha with ⟨-, ha⟩ | ⟨rfl, rfl⟩
    · exact h.old hne hempty (haside i a ha _ (by simp [agentSlots])) (hl.present i a ha)
    · rw [← hl.count]
      exact hentry
  · rw [List.map_append, List.nodup_append]
    refine ⟨hl.distinct, by simp, ?_⟩
    intro c hc d hd
    simp only [List.map_cons, List.map_nil, List.mem_singleton] at hd
    obtain ⟨a, ha, rfl⟩ := List.mem_map.mp hc
    rintro rfl
    have hnone := (hempty (agentPolicy env agentId) (by simp [agentSlots])).2
    rw [← hd, hl.policies a ha] at hnone
    cases hnone
  · intro a ha
    rw [h.mem]
    rcases List.mem_append.mp ha with ha | ha
    · exact hl.known a ha
    · rw [List.mem_singleton.mp ha]
      exact h.2.1
  · intro a ha
    rcases List.mem_append.mp ha with ha | ha
    · exact h.old hne hempty (haside.policy ha).1 (hl.policies a ha)
    · rw [List.mem_singleton.mp ha]
      exact hpolicy
  · intro a ha
    rcases List.mem_append.mp ha with ha | ha
    · exact h.old hne hempty (haside.policy ha).2 (hl.owners a ha)
    · rw [List.mem_singleton.mp ha]
      exact howner

end

/-! ## One transaction -/

/-- **The registries are kept**: they list what was registered, and no two agents share a policy cell. -/
structure Kept (env : Env) (r : Registrar) : Prop extends InOrder env r where
  apart : mcpRegistry env ≠ agentRegistry env
  agency : agentRegistry env ∈ r.cells.cells
  bound : (r.book.agents.map Agent.policy).Nodup
  outside : ∀ a ∈ r.book.agents, a.policy ≠ mcpRegistry env ∧ a.policy ≠ agentRegistry env
  unmarked : ∀ k, ∀ e ∈ r.book.entries k, Unmarked (nameSlot env k e.1)
  aside : Aside env r.book.agents

/-- What a transaction does to the registries. -/
inductive Change (env : Env) (r : Registrar) (tx : Transaction) (r' : Registrar) : Prop
  | same (hcells : r'.cells = r.cells) (hbook : r'.book = r.book)
  | entry {k : Kind} {name : String} {id : AccountId} {mcp : StateDiff}
      (henters : Enters env r.cells k (mcpRegistry env) name id mcp) (hfree : FreeName env r k name)
      (hcells : r'.cells = runAll (cellEffect env) mcp.cellUpdates r.cells)
      (hbook : r'.book = r.book.enter k name id)
  | agent {agentId policyCellId : AccountId} {mcp : StateDiff}
      (henrols : Enrols env r.cells (agentRegistry env) tx.sender agentId policyCellId mcp)
      (hfree : FreeAgent env r tx.sender agentId policyCellId)
      (hcells : r'.cells = runAll (cellEffect env) mcp.cellUpdates r.cells)
      (hbook : r'.book = r.book.enrol ⟨agentId, tx.sender, policyCellId⟩)
  | status {a : Agent} (diff : Map Bytes32 (Option Bytes32)) (ha : a ∈ r.book.agents)
      (howner : tx.sender = a.owner)
      (hstatus : (∃ registryId, tx.intent = .reinstateAgent a.id registryId) ∨
        slot diff (mcpKey "pol:status") = some (some (flagWord 1)))
      (hcells : r'.cells = cellEffect env (.storageChange a.policy diff) r.cells) (hbook : r'.book = r.book)

theorem slot_status (word : Bytes32) (reason : String) (digest : Bytes32) :
    slot (fromList ((mcpKey "pol:status", some word) ::
      if reason = "" then [] else [(mcpKey "pol:sus_reason", some digest)])) (mcpKey "pol:status") =
        some (some word) := by
  have hne := keys_distinct.2
  split_ifs
  · simp [fromList, slot_insert]
  · simp [fromList, slot_insert, hne]

section
variable {env : Env} {r : Registrar} {tx : Transaction}

theorem isRegistration_of_proper (h : Proper env r tx) : IsRegistration tx.intent := by
  unfold Proper at h
  unfold IsRegistration
  split at h <;> simp_all

theorem Kept.resolve (hkept : Kept env r) {agentId policyId sender : AccountId} (h : Resolved env r agentId)
    (howner : (peek r.cells (agentRegistry env) (agentOwner env agentId)).getD 0 = sender)
    (hpolicy : peek r.cells (agentRegistry env) (agentPolicy env agentId) = some policyId) :
    ∃ a ∈ r.book.agents, a.id = agentId ∧ sender = a.owner ∧ policyId = a.policy := by
  rcases h with ⟨a, ha, rfl⟩ | hnone
  · rw [hkept.enrolled.owners a ha] at howner
    rw [hkept.enrolled.policies a ha] at hpolicy
    cases hpolicy
    exact ⟨a, ha, rfl, howner.symm, rfl⟩
  · rw [hnone] at hpolicy
    cases hpolicy

theorem Kept.policyKnown (hkept : Kept env r) {agentId registryId : AccountId}
    (haimed : Aimed r registryId (agentRegistry env)) (h : Resolved env r agentId) :
    PolicyKnown env r.cells agentId registryId := by
  intro registry policyId hregistry hslot
  obtain rfl := haimed (mem_of_lookup hregistry)
  have hpolicy : peek r.cells (agentRegistry env) (agentPolicy env agentId) = some policyId :=
    (peek_eq hregistry _).trans hslot
  obtain ⟨a, ha, -, -, rfl⟩ := hkept.resolve h rfl hpolicy
  exact hkept.enrolled.known a ha

theorem Kept.covers (hkept : Kept env r) (h : Proper env r tx) : Covers env r.world tx := by
  unfold Proper at h
  unfold Covers
  split at h
  case h_2 agentId registryId _ hintent | h_3 agentId registryId hintent =>
    rw [hintent]
    exact hkept.policyKnown h.1 h.2
  case h_6 => exact h.elim
  all_goals
    rename_i hintent
    rw [hintent]
    trivial

theorem Kept.setStatus (hkept : Kept env r) {agentId registryId : AccountId} {status : UInt8} {reason : String}
    {mcp : StateDiff} (haimed : Aimed r registryId (agentRegistry env)) (h : Resolved env r agentId)
    (hmcp : diffSetAgentStatus env r.world tx.sender agentId registryId status reason = .ok mcp) :
    ∃ a ∈ r.book.agents, a.id = agentId ∧ tx.sender = a.owner ∧ ∃ diff,
      slot diff (mcpKey "pol:status") = some (some (flagWord status)) ∧
      runAll (cellEffect env) mcp.cellUpdates r.cells =
        cellEffect env (.storageChange a.policy diff) r.cells := by
  obtain ⟨howner, policyId, hpolicy, hupdates⟩ := diffSetAgentStatus_eq_ok hmcp
  obtain rfl := haimed (mem_of_peek hpolicy)
  obtain ⟨a, ha, hid, hsender, rfl⟩ := hkept.resolve h howner hpolicy
  refine ⟨a, ha, hid, hsender, _, slot_status _ reason (env.blake3 reason.toUTF8.toList), ?_⟩
  rw [hupdates]
  rfl

theorem Change.of_enters {r' : Registrar} {k : Kind} {name : String} {id registryId : AccountId}
    {mcp : StateDiff} (henters : Enters env r.cells k registryId name id mcp)
    (haimed : Aimed r registryId (mcpRegistry env)) (hfree : id ∈ r.cells.cells ∨ FreeName env r k name)
    (hcells : r'.cells = runAll (cellEffect env) mcp.cellUpdates r.cells)
    (hbook : r'.book = r.book.enter k name id) : Change env r tx r' := by
  have hnew := henters.1
  obtain rfl := haimed henters.registry_mem
  exact .entry henters (hfree.resolve_left hnew) hcells hbook

/-- **A proper transaction** is refused, enters a cell, enters an agent or sets a status. -/
theorem Kept.change (hkept : Kept env r) (h : Proper env r tx) : Change env r tx (step env r tx) := by
  rcases runTransaction_cells (isRegistration_of_proper h) (hkept.covers h) with
    ⟨hok, hworld⟩ | ⟨hok, mcp, hmcp, hcells⟩
  · refine .same ?_ ?_
    · rw [step, Registrar.cells, hworld, Registrar.cells]
    · rw [step, hok]
      rfl
  have hbook : (step env r tx).book = r.book.note tx.sender tx.intent := by
    rw [step, hok]
    rfl
  unfold Proper at h
  split at h
  case h_1 hintent =>
    rw [hintent] at hmcp hbook
    have henrols := diffRegisterAgent_eq_ok hmcp
    obtain ⟨haimed, htaken | hfree⟩ := h
    · obtain rfl := haimed henrols.1
      obtain ⟨v, hv, hne⟩ := htaken
      exact (hne (henrols.2.2.1 v hv)).elim
    · obtain rfl := haimed henrols.1
      exact .agent henrols hfree hcells hbook
  case h_2 hintent =>
    rw [hintent] at hmcp hbook
    obtain ⟨a, ha, rfl, howner, diff, hdiff, hrun⟩ := hkept.setStatus h.1 h.2 hmcp
    exact .status diff ha howner (.inr hdiff) (hcells.trans hrun) hbook
  case h_3 hintent =>
    rw [hintent] at hmcp hbook
    obtain ⟨a, ha, rfl, howner, diff, hdiff, hrun⟩ := hkept.setStatus h.1 h.2 hmcp
    exact .status diff ha howner (.inl ⟨_, hintent⟩) (hcells.trans hrun) hbook
  case h_4 hintent =>
    rw [hintent] at hmcp hbook
    exact .of_enters (diffRegisterResource_eq_ok hmcp) h.1 h.2 hcells hbook
  case h_5 hintent =>
    rw [hintent] at hmcp hbook
    exact .of_enters (diffRegisterPrompt_eq_ok hmcp) h.1 h.2 hcells hbook
  case h_6 => exact h.elim

theorem Kept.entry_step (hkept : Kept env r) {r' : Registrar} {k : Kind} {name : String} {id : AccountId}
    {mcp : StateDiff} (henters : Enters env r.cells k (mcpRegistry env) name id mcp)
    (hfree : FreeName env r k name) (hcells : r'.cells = runAll (cellEffect env) mcp.cellUpdates r.cells)
    (hbook : r'.book = r.book.enter k name id) :
    Kept env r' := by
  have hid : agentRegistry env ≠ id := by
    rintro rfl
    exact henters.1 hkept.agency
  have hmem : ∀ c ∈ r.cells.cells, c ∈ r'.cells.cells := by
    intro c hc
    rw [hcells]
    exact (henters.mem c).mpr (.inr hc)
  have hpeek : ∀ key, peek r'.cells (agentRegistry env) key = peek r.cells (agentRegistry env) key := by
    intro key
    rw [hcells]
    exact henters.peek_ne hid hkept.apart.symm key
  refine
    { listed := ?_
      enrolled := ?_
      apart := hkept.apart
      agency := hmem _ hkept.agency
      bound := ?_
      outside := ?_
      unmarked := ?_
      aside := ?_ }
  · intro k'
    rw [hcells, hbook]
    by_cases hk : k' = k
    · subst hk
      rw [Book.enter_self]
      exact (hkept.listed k').enter henters hfree.1 hfree.2 (hkept.unmarked k')
    · rw [Book.enter_of_ne _ hk]
      exact (hkept.listed k').enter_other hk henters hfree.1 hfree.2 (hkept.unmarked k')
  · rw [hbook]
    exact hkept.enrolled.frame hmem hpeek
  · rw [hbook]
    exact hkept.bound
  · rw [hbook]
    exact hkept.outside
  · intro k' e he
    rw [hbook] at he
    by_cases hk : k' = k
    · subst hk
      rw [Book.enter_self] at he
      rcases List.mem_append.mp he with he | he
      · exact hkept.unmarked k' e he
      · rw [List.mem_singleton.mp he]
        exact hfree.2
    · rw [Book.enter_of_ne _ hk] at he
      exact hkept.unmarked k' e he
  · rw [hbook]
    exact hkept.aside

theorem Kept.agent_step (hkept : Kept env r) {r' : Registrar} {agentId policyCellId : AccountId}
    {mcp : StateDiff} (henrols : Enrols env r.cells (agentRegistry env) tx.sender agentId policyCellId mcp)
    (hfree : FreeAgent env r tx.sender agentId policyCellId)
    (hcells : r'.cells = runAll (cellEffect env) mcp.cellUpdates r.cells)
    (hbook : r'.book = r.book.enrol ⟨agentId, tx.sender, policyCellId⟩) :
    Kept env r' := by
  obtain ⟨⟨hown, hmcp, hagency, hnew⟩, hnodup, hempty⟩ := hfree
  have hmem : ∀ c ∈ r.cells.cells, c ∈ r'.cells.cells := by
    intro c hc
    rw [hcells]
    exact (henrols.mem c).mpr hc
  refine
    { listed := ?_
      enrolled := ?_
      apart := hkept.apart
      agency := hmem _ hkept.agency
      bound := ?_
      outside := ?_
      unmarked := ?_
      aside := ?_ }
  · intro k
    rw [hbook]
    refine (hkept.listed k).frame hmem fun key => ?_
    rw [hcells]
    exact henrols.peek_ne hmcp.symm hkept.apart key
  · rw [hcells, hbook]
    exact hkept.enrolled.enter hkept.aside henrols hagency.symm hnodup hempty
  · rw [hbook, Book.enrol_agents, List.map_append, List.nodup_append]
    refine ⟨hkept.bound, by simp, ?_⟩
    intro c hc d hd
    simp only [List.map_cons, List.map_nil, List.mem_singleton] at hd
    obtain ⟨a, ha, rfl⟩ := List.mem_map.mp hc
    rw [hd]
    exact hnew a ha
  · intro a ha
    rw [hbook] at ha
    rcases List.mem_append.mp ha with ha | ha
    · exact hkept.outside a ha
    · rw [List.mem_singleton.mp ha]
      exact ⟨hmcp, hagency⟩
  · rw [hbook]
    exact hkept.unmarked
  · intro i a ha key hkey
    rw [hbook, Book.enrol_agents] at ha
    rcases of_getElem?_concat ha with ⟨-, ha⟩ | ⟨rfl, rfl⟩
    · exact hkept.aside i a ha key hkey
    · exact (hempty key hkey).1

theorem Kept.status_step (hkept : Kept env r) {r' : Registrar} {a : Agent}
    {diff : Map Bytes32 (Option Bytes32)} (ha : a ∈ r.book.agents)
    (hcells : r'.cells = cellEffect env (.storageChange a.policy diff) r.cells) (hbook : r'.book = r.book) :
    Kept env r' := by
  have hmem : ∀ c ∈ r.cells.cells, c ∈ r'.cells.cells := by
    intro c hc
    rw [hcells]
    exact (mem_storageChange _ c).mpr hc
  have hpeek : ∀ c ≠ a.policy, ∀ key, peek r'.cells c key = peek r.cells c key := by
    intro c hc key
    rw [hcells, peek_storageChange (hkept.enrolled.known a ha), if_neg hc]
  obtain ⟨hmcp, hagency⟩ := hkept.outside a ha
  refine
    { listed := ?_
      enrolled := ?_
      apart := hkept.apart
      agency := hmem _ hkept.agency
      bound := hbook ▸ hkept.bound
      outside := hbook ▸ hkept.outside
      unmarked := hbook ▸ hkept.unmarked
      aside := hbook ▸ hkept.aside }
  · rw [hbook]
    exact fun k => (hkept.listed k).frame hmem (hpeek _ hmcp.symm)
  · rw [hbook]
    exact hkept.enrolled.frame hmem (hpeek _ hagency.symm)

/-- **A proper transaction keeps the registries.** -/
theorem Kept.step (hkept : Kept env r) (h : Proper env r tx) : Kept env (Registries.step env r tx) := by
  cases hkept.change h with
  | same hcells hbook =>
    obtain ⟨⟨hlisted, henrolled⟩, hapart, hagency, hbound, houtside, hunmarked, haside⟩ := hkept
    exact ⟨⟨by rwa [hcells, hbook], by rwa [hcells, hbook]⟩, hapart, by rwa [hcells], by rwa [hbook],
      by rwa [hbook], by rwa [hbook], by rwa [hbook]⟩
  | entry henters hfree hcells hbook => exact hkept.entry_step henters hfree hcells hbook
  | agent henrols hfree hcells hbook => exact hkept.agent_step henrols hfree hcells hbook
  | status diff ha howner hstatus hcells hbook => exact hkept.status_step ha hcells hbook

theorem Kept.agent_eq (hkept : Kept env r) {a a' : Agent} (ha : a ∈ r.book.agents) (ha' : a' ∈ r.book.agents)
    (h : a.policy = a'.policy) : a = a' :=
  List.inj_on_of_nodup_map hkept.bound ha ha' h

theorem Authorized.of_frame (hkept : Kept env r)
    (hframe : ∀ c, c ≠ mcpRegistry env → c ≠ agentRegistry env →
      (¬ Own r tx.sender c ∨ ∃ a ∈ r.book.agents, a.policy = c) →
        ∀ key, peek (Registries.step env r tx).cells c key = peek r.cells c key) : Authorized env r tx where
  permissions := fun a ha _ key _ =>
    hframe _ (hkept.outside a ha).1 (hkept.outside a ha).2 (.inr ⟨a, ha, rfl⟩) key
  status := fun a ha hbefore hafter => by
    rw [byteAt, hframe _ (hkept.outside a ha).1 (hkept.outside a ha).2 (.inr ⟨a, ha, rfl⟩)] at hafter
    exact (hbefore hafter).elim
  storage := fun c hmcp hagency hown key => hframe c hmcp hagency (.inl hown) key

/-- **A proper transaction keeps to what is the sender's.** -/
theorem Kept.authorized (hkept : Kept env r) (h : Proper env r tx) : Authorized env r tx := by
  cases hkept.change h with
  | same hcells hbook =>
    refine .of_frame hkept fun c _ _ _ key => ?_
    rw [hcells]
  | @entry k name id mcp henters hfree hcells hbook =>
    refine .of_frame hkept fun c hmcp _ hc key => ?_
    have hid : c ≠ id := by
      rintro rfl
      rcases hc with hown | ⟨a, ha, rfl⟩
      · exact hown (.inl henters.1)
      · exact henters.1 (hkept.enrolled.known a ha)
    rw [hcells, henters.peek_ne hid hmcp]
  | @agent agentId policyCellId mcp henrols hfree hcells hbook =>
    refine .of_frame hkept fun c _ hagency hc key => ?_
    obtain ⟨⟨hown, -, -, hnew⟩, -⟩ := hfree
    have hpolicy : c ≠ policyCellId := by
      rintro rfl
      rcases hc with hnot | ⟨a, ha, rfl⟩
      · obtain ⟨cell, hcell⟩ := Option.isSome_iff_exists.mp (mem_iff_slot.mp henrols.2.1)
        exact hnot (.inr (.inl ⟨cell, hcell, hown cell hcell⟩))
      · exact hnew a ha rfl
    rw [hcells, henrols.peek_ne hpolicy hagency]
  | @status a diff ha howner hstatus hcells hbook =>
    have hpeek : ∀ c key, peek (Registries.step env r tx).cells c key =
        if c = a.policy then (slot diff key).getD (peek r.cells c key) else peek r.cells c key := by
      intro c key
      rw [hcells, peek_storageChange (hkept.enrolled.known a ha)]
    refine ⟨?_, ?_, ?_⟩
    · intro a' ha' hsender key _
      rw [hpeek, if_neg]
      intro heq
      rw [hkept.agent_eq ha' ha heq] at hsender
      exact hsender howner
    · intro a' ha' hbefore hafter
      by_cases heq : a'.policy = a.policy
      · rw [hkept.agent_eq ha' ha heq] at hafter ⊢
        rcases hstatus with hreinstate | hslot
        · exact ⟨howner, hreinstate⟩
        · rw [byteAt, hpeek, if_pos rfl, hslot] at hafter
          rw [Option.getD_some, Option.map_some, Option.getD_some] at hafter
          exact absurd hafter (by decide +kernel)
      · rw [byteAt, hpeek, if_neg heq] at hafter
        exact (hbefore hafter).elim
    · intro c _ _ hown key
      rw [hpeek, if_neg]
      rintro rfl
      exact hown (.inr (.inr ⟨a, ha, rfl, howner.symm⟩))

/-- **Registry and policy authority.** In every run of proper transactions the registries list what was
registered, every name at its target, and each transaction keeps to what is the sender's. -/
theorem authority_of_proper (env : Env) (r : Registrar) (hkept : Kept env r) (txs : List Transaction)
    (h : Along (Registries.step env) (Proper env) r txs) :
    Along (Registries.step env) (fun r tx => InOrder env r ∧ Authorized env r tx) r txs ∧
      InOrder env (run (Registries.step env) r txs) := by
  have hstep : ∀ r tx, Kept env r → Proper env r tx → Kept env (Registries.step env r tx) :=
    fun _ _ hkept hproper => hkept.step hproper
  refine ⟨h.imp_of_invariant hstep (fun r tx hkept hproper => ?_) hkept, (h.invariant hstep hkept).toInOrder⟩
  exact ⟨hkept.toInOrder, hkept.authorized hproper⟩

end

theorem Kept.fresh {env : Env} {w : World} (hapart : mcpRegistry env ≠ agentRegistry env)
    (hagency : agentRegistry env ∈ w.state.cells.cells)
    (hkinds : ∀ k : Kind, countAt w.state.cells (mcpRegistry env) (mcpKey k.countTag) = 0)
    (hagents : countAt w.state.cells (agentRegistry env) (mcpKey "areg:count") = 0) :
    Kept env ⟨w, ⟨[], fun _ => []⟩⟩ where
  listed := fun k => ⟨hkinds k, by simp, by simp, by simp, by simp⟩
  enrolled := ⟨hagents, by simp, by simp, by simp, by simp, by simp⟩
  apart := hapart
  agency := hagency
  bound := by simp
  outside := by simp
  unmarked := by simp
  aside := by simp [Aside]

/-! ### A sample agent

Account 1 owns cell 5 and binds agent 3 to it; account 2 owns nothing. The hash functions and the serialised
form are those of the node on the inputs that occur here. -/

def agentBytes : TransactionIntent → Bytes
  | .registerAgent agentId policyCellId registryId =>
    [47] ++ ofBytes32 agentId ++ ofBytes32 policyCellId ++ ofBytes32 registryId
  | .suspendAgent agentId registryId reason =>
    [48] ++ ofBytes32 agentId ++ ofBytes32 registryId ++ varint 10 reason.toUTF8.toList.length ++
      reason.toUTF8.toList
  | .reinstateAgent agentId registryId => [49] ++ ofBytes32 agentId ++ ofBytes32 registryId
  | _ => []

def agentTxBytes (tx : Transaction) : Bytes :=
  ofBytes32 tx.sender ++ agentBytes tx.intent ++ varint 10 tx.signature.length ++ tx.signature ++
    varint 10 tx.nonce ++ varint 10 tx.timestamp ++ ofBytes32 tx.genesisFingerprint ++
    varint 10 tx.expirationHeight

/-- The address of the agent registry. -/
def agencyId : AccountId := 0xcbe450cfef76afa2287f5696ec76072846cabd3ffa9cd684283e41710a52239b

def toolboxId : AccountId := 0xcfc3d06b40cd52bca5693769510beca15ad89a7a82049e5c7f1c37cd77b868ca

/-- Account 1 registers agent 3 with policy cell 5. -/
def enrol : Transaction := ⟨1, .registerAgent 3 5 agencyId, [], 1, 0, 7, 10⟩

def suspend : Transaction := ⟨1, .suspendAgent 3 agencyId "", [], 2, 0, 7, 10⟩

def reinstate : Transaction := ⟨1, .reinstateAgent 3 agencyId, [], 3, 0, 7, 10⟩

def seize : Transaction := ⟨2, .registerAgent 4 5 agencyId, [], 1, 0, 7, 10⟩

def agentDigests : List (Bytes × Bytes32) :=
  [("truthlinked:mcp:registry:v1".toUTF8.toList, toolboxId),
    ("truthlinked:mcp:agent_registry:v1".toUTF8.toList, agencyId),
    ("areg:pol:".toUTF8.toList ++ ofBytes32 3,
      0xad75776f3f0fb25773c4a59472cac619e61ed4384a50caffc7b411e5324035be),
    ("areg:own:".toUTF8.toList ++ ofBytes32 3,
      0xef95d6a6c0fc062e920ce6e793fd1e6a3320e34ebda6dea35d2abb782040e3b6),
    ("areg:reg:".toUTF8.toList ++ ofBytes32 3,
      0xc16267c9481789f93f0448cfd9cb9a70ccead631053509721a58aaeda9c78195),
    ("areg:pol:".toUTF8.toList ++ ofBytes32 4,
      0x727e1b5d4ba06344bfc968aa2c7fe06c04e0ad543129a7184f24420ee833547b),
    ("areg:own:".toUTF8.toList ++ ofBytes32 4,
      0xefcfa253e396fe72fecf72bb1c9ac374efb04b5928a971400f9b34506ab64b0b),
    ("areg:reg:".toUTF8.toList ++ ofBytes32 4,
      0xe160f65214b6852e87da33bef31fcb82885e85fdcbc7eb9d66e59e0dd6e821dc),
    ("areg:idx:".toUTF8.toList ++ leBytes 8 0,
      0x7e2c68f073cdf47c9b9b3bea1ee52f1b35f2e419a940573a62804847ffe0dec5),
    ("areg:idx:".toUTF8.toList ++ leBytes 8 1,
      0x158f82f47b4a40b978e41a6bd88b3f7f8bbb568a7ba4fe6deb5e19c280ba267b),
    (agentTxBytes enrol, 0xecda8c5c12317ebde862c8e21928891993976420bf3adee8c461bb840c22f2fc),
    (agentTxBytes suspend, 0xc39474678efc8abe2692adc6bf0301c2bf5dd2abc0c853dcdf5a36e74841d16a),
    (agentTxBytes reinstate, 0x7a398811aee104c39f77fbd9b3149a9af4dd180db7a7c307b9d01c2edefaa7d2),
    (agentTxBytes seize, 0x625cbfc351721c0c66cfa0990a952e713cf93308d139b9640f894d1abcd5dc29)]

/-- The third-party code, on the inputs that occur here. -/
def agentEnv : Env :=
  { sampleEnv with
    blake3 := fun bs => (agentDigests.lookup bs).getD
      0xaf1349b9f5f9a1a6a0404dea36dcc9499bcb25c9adc112b7cc9a93cae41f3262
    serialize := agentTxBytes }

def storageCell (cellId owner : AccountId) (storage : Map Bytes32 Bytes32) : CellAccount where
  cellId := cellId
  owner := owner
  bytecode := []
  storage := storage
  balance := 0
  rentDeposit := 0
  isToken := false
  tokenConfig := none
  createdAt := 0
  upgradedAt := none
  lastRentPaidHeight := 0
  rentGraceBlocks := 0
  pendingOwner := none
  isImmutable := false
  declaredReads := []
  declaredWrites := []
  commutativeKeys := []
  storageKeySpecs := []
  oracleSchemaIds := []
  governanceProposal := none
  manifestVersion := 0
  manifestHash := 0

def agentWorld : World :=
  { sampleWorld with
    state := { sampleState with
      accounts := fromList [(1, ⟨[1], 1000, 1000, 0, []⟩), (2, ⟨[2], 1000, 1000, 0, []⟩)]
      cells := ⟨fromList [(toolboxId, storageCell toolboxId 9 (fromList [(mcpKey "mcp:tool_count", 0),
          (mcpKey "mcp:resource_count", 0), (mcpKey "mcp:prompt_count", 0), (mcpKey "mcp:registry_ver", 0)])),
        (agencyId, storageCell agencyId 9 (fromList [(mcpKey "areg:count", 0)])),
        (5, storageCell 5 1 ∅)], ∅, ∅⟩ } }

def newOffice : Registrar := ⟨agentWorld, ⟨[], fun _ => []⟩⟩

theorem newOffice_facts :
    (mcpRegistry agentEnv ≠ agentRegistry agentEnv ∧ agentRegistry agentEnv ∈ newOffice.cells.cells ∧
      (∀ k ∈ [Kind.tool, Kind.resource, Kind.prompt],
        countAt newOffice.cells (mcpRegistry agentEnv) (mcpKey k.countTag) = 0) ∧
      countAt newOffice.cells (agentRegistry agentEnv) (mcpKey "areg:count") = 0) ∧
    ((slot newOffice.cells.cells 5).map CellAccount.owner = some 1 ∧ 5 ≠ mcpRegistry agentEnv ∧
      5 ≠ agentRegistry agentEnv ∧ (agentSlots agentEnv 3 0).Nodup ∧
      (agentSlots agentEnv 3 0).all (fun key => decide (key ≠ mcpKey "areg:count" ∧
        peek newOffice.cells (agentRegistry agentEnv) key = none)) = true) ∧
    agencyId = agentRegistry agentEnv ∧
    (∃ a ∈ (step agentEnv newOffice enrol).book.agents, a.id = 3) ∧
    (∃ a ∈ (step agentEnv (step agentEnv newOffice enrol) suspend).book.agents, a.id = 3) ∧
    (run (step agentEnv) newOffice [enrol, suspend, reinstate]).book.agents = [⟨3, 1, 5⟩] := by
  decide +kernel

theorem kept_newOffice : Kept agentEnv newOffice := by
  obtain ⟨⟨hapart, hagency, hkinds, hagents⟩, -⟩ := newOffice_facts
  exact Kept.fresh hapart hagency (fun k => hkinds k (by cases k <;> simp)) hagents

theorem freeAgent_sample : FreeAgent agentEnv newOffice 1 3 5 := by
  obtain ⟨-, ⟨howner, hne, hne', hnodup, hslots⟩, -⟩ := newOffice_facts
  refine ⟨⟨?_, hne, hne', by simp [newOffice]⟩, hnodup, ?_⟩
  · intro cell hcell
    rw [hcell] at howner
    exact Option.some.inj howner
  · intro key hkey
    exact of_decide_eq_true (List.all_eq_true.mp hslots key hkey)

/-- Account 1 registers, suspends and reinstates its agent. -/
theorem authority_sample :
    (run (step agentEnv) newOffice [enrol, suspend, reinstate]).book.agents = [⟨3, 1, 5⟩] ∧
      Along (step agentEnv) (fun r tx => InOrder agentEnv r ∧ Authorized agentEnv r tx) newOffice
        [enrol, suspend, reinstate] ∧
      InOrder agentEnv (run (step agentEnv) newOffice [enrol, suspend, reinstate]) := by
  obtain ⟨-, -, haimed, hsuspend, hreinstate, hagents⟩ := newOffice_facts
  refine ⟨hagents, authority_of_proper agentEnv newOffice kept_newOffice _ ⟨?_, ?_, ?_, trivial⟩⟩
  · exact ⟨fun _ => haimed, .inr freeAgent_sample⟩
  · exact ⟨fun _ => haimed, .inl hsuspend⟩
  · exact ⟨fun _ => haimed, .inl hreinstate⟩

/-- Account 2 registers an agent of its own with the policy cell of a suspended agent of account 1, and the
suspension is gone: `diff_register_agent` does not ask whose the cell is. -/
theorem seized_policy_cell :
    ¬ ∀ env r txs, Kept env r → (∀ tx ∈ txs, IsRegistration tx.intent) →
      Along (step env) (fun r tx => InOrder env r ∧ Authorized env r tx) r txs ∧
        InOrder env (run (step env) r txs) := by
  intro h
  have hkinds : ∀ tx ∈ [enrol, suspend, seize], IsRegistration tx.intent := by
    simp only [List.forall_mem_cons, List.not_mem_nil, false_implies, implies_true, and_true]
    exact ⟨trivial, trivial, trivial⟩
  obtain ⟨⟨-, -, ⟨-, hseize⟩, -⟩, -⟩ := h agentEnv newOffice [enrol, suspend, seize] kept_newOffice hkinds
  obtain ⟨hsender, -⟩ := hseize.status ⟨3, 1, 5⟩ (by decide +kernel) (by decide +kernel) (by decide +kernel)
  exact absurd hsender (by decide)

end TruthLinked.Ledger.Registries
