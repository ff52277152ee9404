import TruthLinked.Ledger.Phases
import TruthLinked.Axiom.Machine
import TruthLinked.Lib.Except

/-! # Running cells

`truthlinked-state/src/vm/axiom_runtime.rs` and `cells.rs`: the host that connects the virtual machine to
the ledger, a call of a cell, a chain of calls, and the token operations. A cross-cell call runs the callee
on the cells as they were before the transaction; of its result only the success flag, the return data and
the gas reach the caller. -/

namespace TruthLinked.Ledger.Execution

open Core.Types Runtime.Cells Runtime.Types Governance.Types Staking.State Oracle.Tally Axiom.Bytecode
open Axiom.Machine Ledger.Model Lib.Except

/-- `ExecutionResult`, without the access lists, which nothing reads. -/
structure ExecutionResult where
  success : Bool := false
  returnData : Bytes := []
  gasUsed : ℕ := 0
  storageDiff : List (Bytes32 × Option Bytes32) := []
  queuedOracleRequests : List OracleRequest := []
  stakingUpdates : List StakingUpdate := []
  nativeCredits : List (AccountId × ℕ) := []
  nativeDebits : List (AccountId × ℕ) := []
  cellDebits : List (AccountId × ℕ) := []
  nameFee : ℕ := 0
  pendingNameProposals : List (String × PendingNameRegistration × AccountId × Bool) := []
  nameVotes : List (String × Bytes × ℕ) := []
  nameRenewals : List (String × ℕ) := []
  nameTransfers : List (String × AccountId) := []
  pendingTokenAuthorityProposals : List (AccountId × TokenAuthorityProposal) := []
  tokenAuthorityVotes : List (AccountId × Bytes × ℕ) := []
  oracleUpdates : List OracleUpdate := []
  paramUpdates : List (Bytes32 × Bytes32) := []
  logs : List CellLog := []
  error : Option String := none

/-! ## The host -/

/-- `url_matches_pattern`. -/
def urlMatchesPattern (url pattern : String) : Bool :=
  let u := url.toUTF8.toList
  let p := pattern.toUTF8.toList
  if "/*".toUTF8.toList <:+ p then decide (p.take (p.length - 2) <+: u) else url == pattern

/-- The first approved proposal whose pattern the URL matches. -/
def approvedProposal (proposals : Map String UrlProposal) (url : String) : Option UrlProposal :=
  (proposals.toList.map Prod.snd).find? fun p => p.approved && urlMatchesPattern url p.urlPattern

/-- `check_url_permitted`. -/
def checkUrlPermitted (url : String) (visibility : CellVisibility) (proposals : Map String UrlProposal) :
    Bool :=
  match visibility with
  | .private => true
  | .public => (approvedProposal proposals url).isSome

/-- `url_response_format`. -/
def urlResponseFormat (url : String) (visibility : CellVisibility)
    (proposals : Map String UrlProposal) : UrlResponseFormat :=
  match visibility with
  | .private => .raw
  | .public => ((approvedProposal proposals url).map UrlProposal.responseFormat).getD .raw

/-- `url_schema_id`. -/
def urlSchemaId (url : String) (visibility : CellVisibility) (proposals : Map String UrlProposal) :
    Option Bytes32 :=
  match visibility with
  | .private => none
  | .public => (approvedProposal proposals url).bind UrlProposal.schemaId

/-- `queue_oracle_request`. -/
def queueOracleRequest (env : Env) (g : Globals) (url method : String) (body : Bytes)
    (format : UrlResponseFormat) (schemaId : Option Bytes32) (cell : AccountId) (height : ℕ) :
    OracleRequest where
  requestId := requestIdOf env.toTallyEnv url method body format schemaId
  url := url
  method := method
  body := body
  responseFormat := format
  schemaId := schemaId
  requestedAt := height
  expiresAt := (height + g.getU64 env "oracle.request_timeout_blocks") % u64
  requestingCell := cell

/-- `OracleResult::is_expired`. -/
def isExpired (r : OracleResult) (height : ℕ) : Bool := r.expiresAt ≤ height

/-- What a call of a cell is given: the fixed fields of `AxiomHost`. -/
structure CallContext where
  cellId : AccountId
  owner : AccountId
  caller : AccountId
  height : ℕ
  timestamp : ℕ
  value : ℕ
  calldata : Bytes

/-- The fields of `AxiomHost` that a run changes. The privileged lists stay empty, since no instruction
reaches the methods that fill them; the queued requests stand for the oracle updates. -/
structure HostState where
  storage : Map Bytes32 Bytes32
  storageDiff : List (Bytes32 × Option Bytes32)
  returnData : Bytes
  logs : List CellLog
  requests : List OracleRequest

/-- `PRIVATE_ACCORD_LIMIT`. -/
def privateAccordLimit : ℕ := 5

/-- The text a byte string spells, when it is UTF-8 (`str::from_utf8`). -/
def fromUtf8 (bs : Bytes) : Option String := String.fromUTF8? ⟨bs.toArray⟩

/-- `AxiomHost::accord_request`. -/
def accordRequest (env : Env) (w : World) (ctx : CallContext) (url method body : Bytes) (h : HostState) :
    Answer HostState Bytes32 :=
  match fromUtf8 url, fromUtf8 method with
  | some urlStr, some methodStr =>
    let visibility := (w.state.cellVisibility[ctx.cellId]?).getD .private
    if !checkUrlPermitted urlStr visibility w.state.urlProposals then (.error .unauthorized, h)
    else if visibility = .private ∧ privateAccordLimit ≤
        ((w.state.pendingOracleRequests.toList.map Prod.snd).filter
          fun r => decide (r.requestingCell = ctx.cellId)).length then
      (.error .unauthorized, h)
    else
      let format := if "accord_format=price_usd".toUTF8.toList <:+: url then .priceUsd
        else urlResponseFormat urlStr visibility w.state.urlProposals
      let req := queueOracleRequest env w.globals urlStr methodStr body format
        (urlSchemaId urlStr visibility w.state.urlProposals) ctx.cellId ctx.height
      (.ok req.requestId, { h with requests := h.requests ++ [req] })
  | _, _ => (.error .invalidBytecode, h)

/-- `AxiomHost::accord_read`: the result in the state, or the one in the process-wide cache. -/
def accordRead (w : World) (ctx : CallContext) (requestId : Bytes32) : Option Bytes :=
  let live (r : Option OracleResult) : Option Bytes :=
    (r.filter fun r => !isExpired r ctx.height).map OracleResult.responseBody
  (live w.state.oracleResults[requestId]?).or (live w.globals.oracleResults[requestId]?)

/-- The methods of `AxiomHost`; `call` answers a cross-cell call. -/
def axiomHost (env : Env) (w : World) (ctx : CallContext)
    (call : AccountId → Bytes → ℕ → ℕ → Except AxiomError CrossCellResult) : Host HostState where
  storageRead key h := (.ok ((h.storage[key]?).getD 0), h)
  storageWrite key value h :=
    (.ok (), { h with
      storage := h.storage.insert key value, storageDiff := h.storageDiff ++ [(key, some value)] })
  storageDelete key h :=
    (.ok (), { h with
      storage := h.storage.erase key, storageDiff := h.storageDiff ++ [(key, none)] })
  caller _ := ctx.caller
  owner _ := ctx.owner
  cellId _ := ctx.cellId
  height _ := ctx.height
  timestamp _ := ctx.timestamp
  value _ := ctx.value
  calldata _ := ctx.calldata
  setReturnData data h := (.ok (), { h with returnData := data })
  emitLog log h := (.ok (), { h with logs := h.logs ++ [log] })
  callCell cellId calldata value gas h := (call cellId calldata value gas, h)
  sha256 := env.sha256
  accordRequest url method body h := accordRequest env w ctx url method body h
  accordRead requestId h := (.ok (accordRead w ctx requestId), h)
  tokenBalance _ _ h := (.error .unauthorized, h)
  tokenTransfer _ _ _ _ h := (.error .unauthorized, h)
  tokenMint _ _ _ h := (.error .unauthorized, h)
  tokenBurn _ _ _ h := (.error .unauthorized, h)
  tokenFreeze _ _ h := (.error .unauthorized, h)
  tokenThaw _ _ h := (.error .unauthorized, h)
  maxReturnData := 262144
  maxLogData := 65536
  maxLogTopics := 8
  maxCallDepth := 500

/-- The body of `execute_axiom`, with the answers to its cross-cell calls. -/
def runAxiom (env : Env) (w : World) (bytecode : Bytes) (storage : Map Bytes32 Bytes32)
    (ctx : CallContext) (gasLimit depth : ℕ)
    (call : AccountId → Bytes → ℕ → ℕ → Except AxiomError CrossCellResult) : ExecutionResult :=
  match decode bytecode with
  | .error e => { error := some ("Axiom decode error: " ++ e.debug) }
  | .ok cell =>
    let (res, h) := execute (axiomHost env w ctx call) cell ⟨storage, [], [], [], []⟩ gasLimit depth
    { success := res.success
      returnData := h.returnData
      gasUsed := res.gasUsed
      storageDiff := h.storageDiff
      logs := h.logs
      oracleUpdates := h.requests.map .queueRequest
      error := res.error.map AxiomError.debug }

/-- `execute_axiom` on the cells `cells`, with `levels` more levels of calls under it. The machine
refuses a call at depth 500, so that 500 levels below depth 1 are enough. -/
def executeAxiomAt (env : Env) (w : World) (cells : CellState) :
    ℕ → Bytes → Map Bytes32 Bytes32 → CallContext → ℕ → ℕ → ExecutionResult
  | 0, bytecode, storage, ctx, gasLimit, depth =>
    runAxiom env w bytecode storage ctx gasLimit depth fun _ _ _ _ => .error .callDepthExceeded
  | levels + 1, bytecode, storage, ctx, gasLimit, depth =>
    runAxiom env w bytecode storage ctx gasLimit depth fun cellId calldata value gas =>
      match cells.cells[cellId]? with
      | none => .error (.crossCellFailed "cell not found")
      | some cell =>
        let r := executeAxiomAt env w cells levels cell.bytecode cell.storage
          { cellId := cell.cellId, owner := cell.owner, caller := ctx.caller, height := ctx.height,
            timestamp := ctx.timestamp, value := value, calldata := calldata } gas (depth + 1)
        .ok ⟨r.success, r.returnData, r.gasUsed⟩

/-- A call of a cell from outside. -/
def executeAxiom (env : Env) (w : World) (cells : CellState) (cell : CellAccount) (caller : AccountId)
    (height timestamp : ℕ) (calldata : Bytes) (value gasLimit : ℕ) : ExecutionResult :=
  executeAxiomAt env w cells 500 cell.bytecode cell.storage
    ⟨cell.cellId, cell.owner, caller, height, timestamp, value, calldata⟩ gasLimit 1

/-! ## Call chains -/

/-- A list of storage changes, one after the other. -/
def writeStorage (storage : Map Bytes32 Bytes32) (diff : List (Bytes32 × Option Bytes32)) :
    Map Bytes32 Bytes32 :=
  diff.foldl (fun storage (key, value) =>
    match value with
    | some v => storage.insert key v
    | none => storage.erase key) storage

/-- What a call leaves in the cell it was made to: its storage changes, and the value it was sent. -/
def settleCall (r : ExecutionResult) (value : ℕ) (cell : CellAccount) : Except String CellAccount := do
  let cell := { cell with storage := writeStorage cell.storage r.storageDiff }
  if 0 < value then
    let balance ← okOr (checkedAdd cell.balance value) "Cell balance overflow"
    pure { cell with balance := balance }
  else pure cell

/-- The loop of `ComposabilityEngine::execute_call_chain`, from call number `idx` on. -/
def callChain (env : Env) (w : World) (sender : AccountId) (height : ℕ) :
    List CellCall → ℕ → CellState → List ExecutionResult → ℕ →
      Except String (CellState × List ExecutionResult)
  | [], _, cells, results, _ => pure (cells, results)
  | call :: calls, idx, cells, results, remaining => do
    failIf (remaining = 0) "Insufficient gas for call chain"
    let calldata ← match call.useResultFrom with
      | some prev => okOr ((results[prev]?).map ExecutionResult.returnData) "Invalid use_result_from index"
      | none => pure call.calldata
    let cell ← okOr cells.cells[call.cellId]? s!"Cell not found in call chain at index {idx}"
    let r := executeAxiom env w cells cell sender height 0 calldata call.value remaining
    failIf (!r.success) (r.error.getD "Call chain failed")
    failIf (remaining < r.gasUsed) "Call chain gas limit exceeded"
    let target ← settleCall r call.value cell
    callChain env w sender height calls (idx + 1)
      { cells with cells := cells.cells.insert call.cellId target } (results ++ [r])
      (remaining - r.gasUsed)

/-- `ComposabilityEngine::execute_call_chain`: the cells after the chain, and the results. -/
def executeCallChain (env : Env) (w : World) (cells : CellState) (calls : List CellCall)
    (sender : AccountId) (height gasLimit : ℕ) : Except String (CellState × List ExecutionResult) :=
  callChain env w sender height calls 0 cells [] gasLimit

/-! ## Tokens -/

/-- The configuration of a token cell. -/
def tokenConfigOf (token : CellAccount) : Except String TokenConfig := do
  failIf (!token.isToken) "Not a token cell"
  okOr token.tokenConfig "Token config missing"

/-- A balance of the working map. -/
def heldBy (balances : Map AccountId ℕ) (a : AccountId) : ℕ := (balances[a]?).getD 0

/-- `TokenExecutor::transfer`: the balances after it. The result it reports is an empty success. -/
def tokenExecutorTransfer (token : CellAccount) (sender recipient : AccountId) (amount : ℕ)
    (balances : Map AccountId ℕ) (frozen : Map (AccountId × AccountId) Bool) :
    Except String (Map AccountId ℕ) := do
  let config ← tokenConfigOf token
  failIf config.nonTransferable "Token is non-transferable"
  failIf (frozen[(token.cellId, sender)]?.getD false) "Sender account is frozen"
  failIf (frozen[(token.cellId, recipient)]?.getD false) "Recipient account is frozen"
  let senderBal := heldBy balances sender
  failIf (senderBal < amount) "Insufficient token balance"
  let fee ← if config.transferFeeBps = 0 then pure 0 else do
    failIf (u128 ≤ amount * config.transferFeeBps) "Transfer fee overflow"
    pure (amount * config.transferFeeBps / 10000)
  failIf (amount < fee) "Transfer fee exceeds amount"
  let balances := balances.insert sender (senderBal - amount)
  let balances := balances.insert recipient (satAdd (heldBy balances recipient) (amount - fee))
  match config.transferFeeRecipient with
  | some feeRecipient =>
    if 0 < fee then pure (balances.insert feeRecipient (satAdd (heldBy balances feeRecipient) fee))
    else pure balances
  | none => pure balances

/-- `ABSOLUTE_MAX`. -/
def absoluteMax : ℕ := 1000000000 * 1000000000

/-- `TokenExecutor::mint`: the token cell and the balances after it. -/
def tokenExecutorMint (token : CellAccount) (sender recipient : AccountId) (amount : ℕ)
    (balances : Map AccountId ℕ) : Except String (CellAccount × Map AccountId ℕ) := do
  let config ← tokenConfigOf token
  match config.mintAuthority with
  | some authority => failIf (authority ≠ sender) "Unauthorized mint"
  | none => throw "Token has no mint authority"
  let balances := balances.insert recipient (satAdd (heldBy balances recipient) amount)
  let newSupply ← okOr (checkedAdd config.totalSupply amount) "Total supply overflow"
  let cap := min (config.maxSupply.getD absoluteMax) absoluteMax
  failIf (cap < newSupply) s!"Mint would exceed max supply ({cap} xiom)"
  pure ({ token with tokenConfig := some { config with totalSupply := newSupply } }, balances)

/-- `TokenExecutor::burn`: the token cell and the balances after it. -/
def tokenExecutorBurn (token : CellAccount) (sender : AccountId) (amount : ℕ)
    (balances : Map AccountId ℕ) : Except String (CellAccount × Map AccountId ℕ) := do
  failIf (!token.isToken) "Not a token cell"
  let senderBal := heldBy balances sender
  failIf (senderBal < amount) "Insufficient token balance"
  let balances := balances.insert sender (senderBal - amount)
  match token.tokenConfig with
  | some config =>
    let newSupply ← okOr (checkedSub config.totalSupply amount) "Total supply underflow"
    pure ({ token with tokenConfig := some { config with totalSupply := newSupply } }, balances)
  | none => pure (token, balances)

/-- `TokenExecutor::freeze` and `TokenExecutor::thaw`, with the verb of the refusal. -/
def tokenExecutorFreeze (verb : String) (token : CellAccount) (sender : AccountId) :
    Except String Unit := do
  let config ← tokenConfigOf token
  match config.freezeAuthority with
  | some authority => failIf (authority ≠ sender) ("Unauthorized " ++ verb)
  | none => throw "Token has no freeze authority"

end TruthLinked.Ledger.Execution
