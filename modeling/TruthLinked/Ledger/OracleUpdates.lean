import TruthLinked.Ledger.Phases

/-! # Oracle and URL governance updates

`apply_oracle_update` and what it calls: queueing, commits, reveals and finalization of oracle requests,
the votes on URL and schema proposals, and the slash of a URL proposer's bond. The one error is a slash
of a proposal that does not exist. -/

namespace TruthLinked.Ledger.OracleUpdates

open Core.Types Runtime.Types Governance.Types Staking.State Oracle.Tally Ledger.Model

/-- `MAX_ORACLE_RESULTS`. -/
def maxOracleResults : ℕ := 1000

/-- The first key whose result expires earliest. -/
def oldestResult : List (Bytes32 × OracleResult) → Option (Bytes32 × OracleResult)
  | [] => none
  | e :: rest =>
    match oldestResult rest with
    | none => some e
    | some o => if o.2.expiresAt < e.2.expiresAt then some o else some e

/-- `register_oracle_result`: a full cache drops the result that expires first. -/
def registerOracleResult (result : OracleResult) (g : Globals) : Globals :=
  let kept := if maxOracleResults ≤ g.oracleResults.size then
      match oldestResult g.oracleResults.toList with
      | some (oldest, _) => g.oracleResults.erase oldest
      | none => g.oracleResults
    else g.oracleResults
  { g with oracleResults := kept.insert result.requestId result }

/-- `register_url_proposal`. -/
def registerUrlProposal (proposal : UrlProposal) (g : Globals) : Globals :=
  { g with urlProposals := g.urlProposals.insert proposal.urlPattern proposal }

/-- `register_cell_visibility`. -/
def registerCellVisibility (cellId : AccountId) (visibility : CellVisibility) (g : Globals) : Globals :=
  { g with cellVisibility := g.cellVisibility.insert cellId visibility }

/-- The validators that share the slashed part of a bond, in key order. -/
def slashRecipients (env : Env) (staking : StakingState) (excluded : AccountId) : List Bytes :=
  (staking.validators.toList.filter fun (pk, v) =>
    accountIdFromPubkey env pk ≠ excluded ∧ v.isActive staking.currentHeight).map Prod.fst

/-- The payouts: equal shares, the first `dust` recipients get one more; empty payouts are skipped. -/
def paySlash (env : Env) (share : ℕ) : List Bytes → ℕ → Accounts → Accounts
  | [], _, accounts => accounts
  | pk :: rest, dust, accounts =>
    let payout := if 0 < dust then satAdd share 1 else share
    let accounts' := if payout = 0 then accounts
      else
        let id := accountIdFromPubkey env pk
        let r := (accounts[id]?).getD (AccountRecord.fresh pk)
        accounts.insert id { r with balance := satAdd r.balance payout }
    paySlash env share rest (dust - 1) accounts'

/-- `distribute_url_slash_equally`. -/
def distributeUrlSlashEqually (env : Env) (total : ℕ) (excluded : AccountId) (s : State) : State :=
  let recipients := slashRecipients env s.staking excluded
  if total = 0 ∨ recipients = [] then s
  else
    { s with
      accounts := paySlash env (total / recipients.length) recipients (total % recipients.length)
        s.accounts }

/-- `slash_url_proposer_bond` of an existing proposal. -/
def slashBond (env : Env) (pattern : String) (proposal : UrlProposal) (w : World) : World :=
  if proposal.slashed then w
  else
    let slashed := { proposal with slashed := true, approved := false, rejected := true, bondAmount := 0 }
    let slashAmount :=
      proposal.bondAmount * w.globals.getU64 env "oracle.malicious_slash_bps" % u128 / 10000
    let returned := proposal.bondAmount - slashAmount
    let s := w.state
    let s := { s with urlProposals := s.urlProposals.insert pattern slashed }
    let s := { s with
      accounts := s.accounts.modify proposal.proposer fun r =>
        { r with balance := satAdd r.balance returned } }
    { state := distributeUrlSlashEqually env slashAmount proposal.proposer s
      globals := registerUrlProposal slashed w.globals }

/-- `slash_url_proposer_bond`. -/
def slashUrlProposerBond (env : Env) (pattern : String) : StM Unit := do
  match (← get).state.urlProposals[pattern]? with
  | none => throw s!"No proposal for URL pattern '{pattern}'"
  | some proposal => modify (slashBond env pattern proposal)

/-- `finalize_oracle_request_if_ready`. -/
def finalizeOracleRequestIfReady (env : Env) (requestId : Bytes32) (w : World) : World :=
  match w.state.pendingOracleRequests[requestId]?, w.state.oraclePending[requestId]? with
  | some req, some tally =>
    match tally.tryFinalizeWithFormat env.toTallyEnv w.state.staking req.responseFormat
        (w.globals.getU64 env "oracle.reveal_quorum_percent") with
    | none => w
    | some (body, status, agreeing, total) =>
      let height := w.state.staking.currentHeight
      let result : OracleResult :=
        { requestId := requestId
          url := req.url
          method := req.method
          responseBody := body
          responseStatus := status
          bodyHash := env.blake3 body
          finalizedAt := height
          expiresAt := (height + w.globals.getU64 env "oracle.cache_expiry_blocks") % u64
          quorumStakeNum := agreeing
          quorumStakeDen := total
          requestingCell := req.requestingCell }
      { state := { w.state with
          pendingOracleRequests := w.state.pendingOracleRequests.erase requestId
          oraclePending := w.state.oraclePending.erase requestId
          oracleResults := w.state.oracleResults.insert requestId result }
        globals := registerOracleResult result w.globals }
  | _, _ => w

/-- A commit: its stake counts once per validator. -/
def addCommit (quorumPercent : ℕ) (requestId : Bytes32) (commit : OracleCommit) (s : State) : State :=
  let tally := (s.oraclePending[requestId]?).getD ⟨requestId, ∅, ∅, 0, s.staking.totalStake, false⟩
  let stake := if commit.validatorPk ∈ tally.commits then tally.committedStake
    else satAdd64 tally.committedStake (s.staking.stakeAt commit.validatorPk)
  let tally := { tally with
    commits := tally.commits.insert commit.validatorPk commit.commitHash
    committedStake := stake }
  let tally := if tally.commitQuorumReached quorumPercent then { tally with commitPhaseClosed := true }
    else tally
  { s with oraclePending := s.oraclePending.insert requestId tally }

/-- A reveal: the first one of a validator stands. -/
def addReveal (requestId : Bytes32) (reveal : OracleReveal) (s : State) : State :=
  { s with
    oraclePending := s.oraclePending.modify requestId fun tally =>
      { tally with
        reveals := tally.reveals.insertIfNew reveal.validatorPk
          (reveal.responseBody, reveal.responseStatus) } }

/-- A vote on a URL proposal; the flag asks for the slash of the bond. -/
def voteUrl (total : ℕ) (voter : Bytes) (forDelta againstDelta : ℕ) (p : UrlProposal) :
    UrlProposal × Bool :=
  let p := { p with
    voters := p.voters.insert voter
    votesForStake := satAdd64 p.votesForStake forDelta
    votesAgainstStake := satAdd64 p.votesAgainstStake againstDelta }
  if 0 < total ∧ satMul64 total 2 ≤ satMul64 p.votesForStake 3 then
    ({ p with approved := true, rejected := false }, false)
  else if 0 < total ∧ satMul64 total 2 ≤ satMul64 p.votesAgainstStake 3 then
    ({ p with rejected := true, approved := false }, true)
  else (p, false)

/-- `OracleUpdate::VoteUrlProposal`: votes on a closed proposal and second votes change nothing. -/
def voteUrlProposal (env : Env) (pattern : String) (voter : Bytes) (forDelta againstDelta : ℕ)
    (w : World) : World :=
  match w.state.urlProposals[pattern]? with
  | none => w
  | some p =>
    if p.approved ∨ p.rejected ∨ p.slashed ∨ voter ∈ p.voters then w
    else
      let (p', slash) := voteUrl w.state.staking.totalStake voter forDelta againstDelta p
      let w' := w.onState fun s => { s with urlProposals := s.urlProposals.insert pattern p' }
      if p'.approved then w'.onGlobals (registerUrlProposal p')
      else if slash then slashBond env pattern p' w'
      else w'

/-- `OracleUpdate::VoteSchemaProposal`. -/
def voteSchemaProposal (schemaId : Bytes32) (voter : Bytes) (forDelta againstDelta : ℕ) (s : State) :
    State :=
  match s.schemaProposals[schemaId]? with
  | none => s
  | some p =>
    if p.approved ∨ p.rejected ∨ voter ∈ p.voters then s
    else
      let total := s.staking.totalStake
      let p : SchemaProposal := { p with
        voters := p.voters.insert voter
        votesForStake := satAdd64 p.votesForStake forDelta
        votesAgainstStake := satAdd64 p.votesAgainstStake againstDelta }
      if 0 < total ∧ satMul64 total 2 ≤ satMul64 p.votesForStake 3 then
        { s with
          schemaProposals := s.schemaProposals.insert schemaId
            { p with approved := true, rejected := false }
          schemaRegistry := s.schemaRegistry.insert p.schemaId ⟨p.schemaId, p.keys, p.createdAt, true⟩ }
      else if 0 < total ∧ satMul64 total 2 ≤ satMul64 p.votesAgainstStake 3 then
        { s with
          schemaProposals := s.schemaProposals.insert schemaId
            { p with rejected := true, approved := false } }
      else { s with schemaProposals := s.schemaProposals.insert schemaId p }

/-- `apply_oracle_update` on the updates that cannot fail. -/
def oracleStep (env : Env) : OracleUpdate → World → World
  | .queueRequest req => World.onState fun s =>
    { s with pendingOracleRequests := s.pendingOracleRequests.insert req.requestId req }
  | .addCommit requestId commit => fun w =>
    w.onState (addCommit (w.globals.getU64 env "oracle.commit_quorum_percent") requestId commit)
  | .addReveal requestId reveal => fun w =>
    finalizeOracleRequestIfReady env requestId (w.onState (addReveal requestId reveal))
  | .finalizeResult result => fun w =>
    { state := { w.state with
        pendingOracleRequests := w.state.pendingOracleRequests.erase result.requestId
        oraclePending := w.state.oraclePending.erase result.requestId
        oracleResults := w.state.oracleResults.insert result.requestId result }
      globals := registerOracleResult result w.globals }
  | .addUrlProposal proposal => World.onState fun s =>
    { s with urlProposals := s.urlProposals.insertIfNew proposal.urlPattern proposal }
  | .voteUrlProposal pattern voter forDelta againstDelta =>
    voteUrlProposal env pattern voter forDelta againstDelta
  | .addSchemaProposal proposal => World.onState fun s =>
    { s with schemaProposals := s.schemaProposals.insertIfNew proposal.schemaId proposal }
  | .voteSchemaProposal schemaId voter forDelta againstDelta =>
    World.onState (voteSchemaProposal schemaId voter forDelta againstDelta)
  | .setVisibility cellId visibility => fun w =>
    { state := { w.state with cellVisibility := w.state.cellVisibility.insert cellId visibility }
      globals := registerCellVisibility cellId visibility w.globals }
  | .slashUrlProposer _ => id

/-- `apply_oracle_update`. -/
def applyOracleUpdate (env : Env) : OracleUpdate → StM Unit
  | .slashUrlProposer pattern => slashUrlProposerBond env pattern
  | u => modify (oracleStep env u)

end TruthLinked.Ledger.OracleUpdates
