import TruthLinked.Ledger.Maintenance
import TruthLinked.Ledger.Rollback
import TruthLinked.Lib.Table

/-! # The caches of a process and the copies of its state

A node executes many copies of its state: proposals, blocks of other leaders, forks. The parameters it reads
are those of one cache in the process, which `apply_diff` writes whatever copy it works on, and which is read
from a state only by `rehydrate_runtime_globals_from_state`.

* `Synced`: the caches hold what the state holds; every update of the copy keeps this (`Stable.run`).
* `Holds`: the runs of a process that end on the copy which the caches were last read from. Then every
  parameter read is the one in the state, and the result of a transaction is the same after any such run
  (`execution_of_held_copy`).
* The batch executor is such a run (`heldAt_worldAt`). A call on another copy is not: the parameters
  are those of the copy that was thrown away (`discarded_copy_sets_fee`). -/

namespace TruthLinked.Ledger.ParamCache

open Core.Types Runtime.Cells Runtime.Types Governance.Types Staking.State Oracle.Tally Ledger.Model
open Ledger.Phases Ledger.OracleUpdates Ledger.Apply Ledger.Execution Ledger.ComputeCells Ledger.Executor
open Ledger.Maintenance Ledger.MergeAgreement Ledger.Rollback Lib.Phase Lib.Wp Lib.Table

/-! ## What a transaction can see -/

/-- Two worlds that no transaction can tell apart. -/
structure SameView (w w' : World) : Prop where
  state : w.state = w'.state
  params : w.globals.paramCache = w'.globals.paramCache
  height : w.globals.currentHeight = w'.globals.currentHeight
  genesis : w.globals.genesisHash = w'.globals.genesisHash
  reads : ∀ ctx id, accordRead w ctx id = accordRead w' ctx id

section View
variable (env : Env) {w w' : World}

theorem axiomHost_view (h : SameView w w') (ctx : CallContext)
    (call : AccountId → Bytes → ℕ → ℕ → Except Axiom.Bytecode.AxiomError Axiom.Machine.CrossCellResult) :
    axiomHost env w ctx call = axiomHost env w' ctx call := by
  obtain ⟨s, ⟨pc, o, v, u, height, genesis⟩⟩ := w
  obtain ⟨s', ⟨pc', o', v', u', height', genesis'⟩⟩ := w'
  obtain ⟨hs, hp, hh, hg, hr⟩ := h
  dsimp only at hs hp hh hg
  subst hs hp hh hg
  unfold axiomHost
  simp only [hr]
  rfl

theorem executeAxiomAt_view (h : SameView w w') (cells : CellState) (levels : ℕ) (bytecode : Bytes)
    (storage : Map Bytes32 Bytes32) (ctx : CallContext) (gasLimit depth : ℕ) :
    executeAxiomAt env w cells levels bytecode storage ctx gasLimit depth =
      executeAxiomAt env w' cells levels bytecode storage ctx gasLimit depth := by
  induction levels generalizing bytecode storage ctx gasLimit depth with
  | zero =>
    unfold executeAxiomAt runAxiom
    rw [axiomHost_view env h]
  | succ levels ih =>
    unfold executeAxiomAt
    simp only [ih]
    unfold runAxiom
    rw [axiomHost_view env h]

theorem executeAxiom_view (h : SameView w w') : executeAxiom env w = executeAxiom env w' := by
  funext cells cell caller height timestamp calldata value gasLimit
  exact executeAxiomAt_view env h ..

theorem executeCallChain_view (h : SameView w w') : executeCallChain env w = executeCallChain env w' := by
  have hloop : ∀ sender height calls idx cells results remaining,
      callChain env w sender height calls idx cells results remaining =
        callChain env w' sender height calls idx cells results remaining := by
    intro sender height calls
    induction calls with
    | nil => exact fun _ _ _ _ => rfl
    | cons call calls ih =>
      intro idx cells results remaining
      unfold callChain
      simp only [ih, executeAxiom_view env h]
  funext cells calls sender height gasLimit
  exact hloop ..

/-- **A transaction sees its state, the parameters, the height, the genesis hash and the oracle results.** -/
theorem compute_view (h : SameView w w') (tx : Transaction) :
    computeTransactionDiffSkipSig env w tx = computeTransactionDiffSkipSig env w' tx := by
  have hrun := executeAxiom_view env h
  have hchain := executeCallChain_view env h
  obtain ⟨s, ⟨pc, o, v, u, height, genesis⟩⟩ := w
  obtain ⟨s', ⟨pc', o', v', u', height', genesis'⟩⟩ := w'
  obtain ⟨hs, hp, hh, hg, -⟩ := h
  dsimp only at hs hp hh hg
  subst hs hp hh hg
  obtain ⟨sender, intent, signature, nonce, timestamp, fingerprint, expiration⟩ := tx
  -- only the three intents that run a cell reach the oracle results
  cases intent with
  | callCell cellId calldata value gasLimit =>
    unfold computeTransactionDiffSkipSig computeIntent computeCallCellDiff callVmCell
    simp only [hrun]
    rfl
  | callCellChain calls gasLimit =>
    unfold computeTransactionDiffSkipSig computeIntent computeCallChainDiff
    simp only [hchain]
    rfl
  | mcpToolCall agentId toolId calldata value gasLimit policyCellId logId time =>
    unfold computeTransactionDiffSkipSig computeIntent computeCallChainDiff
    simp only [hchain]
    rfl
  | _ => rfl

end View

/-! ## Caches that follow a state -/

/-- The caches hold what the state holds. The cache of oracle results may have dropped some. -/
structure Synced (w : World) : Prop where
  params : w.globals.paramCache = w.state.params
  height : w.globals.currentHeight = w.state.staking.currentHeight
  results : ∀ (id : Bytes32) (r : OracleResult), w.globals.oracleResults[id]? = some r →
    w.state.oracleResults[id]? = some r

section Synced
variable {w w' : World}

theorem Synced.accordRead (h : Synced w) (ctx : CallContext) (id : Bytes32) :
    Execution.accordRead w ctx id =
      (w.state.oracleResults[id]?.filter fun r => !isExpired r ctx.height).map OracleResult.responseBody := by
  unfold Execution.accordRead
  cases hcache : w.globals.oracleResults[id]? with
  | none => simp
  | some r =>
    rw [h.results id r hcache]
    cases isExpired r ctx.height <;> simp

theorem Synced.sameView (h : Synced w) (h' : Synced w') (hstate : w.state = w'.state)
    (hgenesis : w.globals.genesisHash = w'.globals.genesisHash) : SameView w w' where
  state := hstate
  params := by rw [h.params, h'.params, hstate]
  height := by rw [h.height, h'.height, hstate]
  genesis := hgenesis
  reads ctx id := by rw [h.accordRead, h'.accordRead, hstate]

theorem synced_rehydrate (h : w.state.params.isEmpty = false) : Synced (rehydrateRuntimeGlobals w) where
  params := by
    show (if w.state.params.isEmpty then w.globals.paramCache else w.state.params) = w.state.params
    rw [h]
    rfl
  height := rfl
  results _ _ hr := hr

end Synced

/-! ## Invariants of the caches

An update writes the caches in four places: the parameters, a new oracle result, the results that are dropped,
and the height at the end of a block. What these four keep, every update keeps. -/

/-- The caches, and the parts of the state they are read from. -/
structure Seen where
  cache : Map Bytes32 Bytes32
  cachedHeight : ℕ
  cachedResults : Map Bytes32 OracleResult
  genesis : Bytes32
  params : Map Bytes32 Bytes32
  height : ℕ
  results : Map Bytes32 OracleResult

/-- The caches of a world, and the parts of its state they are read from. -/
def seen (w : World) : Seen where
  cache := w.globals.paramCache
  cachedHeight := w.globals.currentHeight
  cachedResults := w.globals.oracleResults
  genesis := w.globals.genesisHash
  params := w.state.params
  height := w.state.staking.currentHeight
  results := w.state.oracleResults

/-- A new result, in the state and in the cache. -/
def putResult (result : OracleResult) (w : World) : World where
  state := { w.state with oracleResults := w.state.oracleResults.insert result.requestId result }
  globals := registerOracleResult result w.globals

/-- The next height, in the state and in the cache. -/
def nextHeight (w : World) : World :=
  let w := w.onState advanceBlockCounters
  w.onGlobals fun g => { g with currentHeight := w.state.staking.currentHeight }

/-- A property of the caches that the four writes keep. -/
structure Stable (P : World → Prop) : Prop where
  of_seen : ∀ {w w'}, P w → seen w' = seen w → P w'
  params : ∀ {w} updates, P w → P (updateParams updates w)
  result : ∀ {w} result, P w → P (putResult result w)
  drop : ∀ {w} ids, P w → P (dropResults ids w)
  tick : ∀ {w}, P w → P (nextHeight w)

theorem stable_genesis (genesis : Bytes32) : Stable fun w => w.globals.genesisHash = genesis where
  of_seen h hseen := (congrArg Seen.genesis hseen).trans h
  params _ h := h
  result _ h := h
  drop _ h := h
  tick h := h

theorem getElem?_eraseAll (ids : List Bytes32) (m : Map Bytes32 OracleResult) (id : Bytes32) :
    (ids.foldl (fun m id => m.erase id) m)[id]? = if id ∈ ids then none else m[id]? := by
  induction ids generalizing m with
  | nil => rfl
  | cons a ids ih =>
    rw [List.foldl_cons, ih, getElem?_erase_ite]
    by_cases ha : id = a
    · simp [ha]
    · simp [ha]

theorem Synced.putResult {w : World} (h : Synced w) (result : OracleResult) :
    Synced (ParamCache.putResult result w) where
  params := h.params
  height := h.height
  results id r hr := by
    dsimp only [ParamCache.putResult, registerOracleResult] at hr ⊢
    rw [getElem?_insert_ite] at hr ⊢
    by_cases hid : id = result.requestId
    · rwa [if_pos hid] at hr ⊢
    · rw [if_neg hid] at hr ⊢
      refine h.results id r ?_
      -- of a full cache one entry is gone, the others are as before
      split at hr
      · split at hr
        · rw [getElem?_erase_ite] at hr
          split at hr
          · cases hr
          · exact hr
        · exact hr
      · exact hr

theorem Synced.dropResults {w : World} (h : Synced w) (ids : List Bytes32) :
    Synced (Maintenance.dropResults ids w) where
  params := h.params
  height := h.height
  results id r hr := by
    unfold Maintenance.dropResults at hr ⊢
    rw [getElem?_eraseAll] at hr ⊢
    by_cases hid : id ∈ ids
    · rw [if_pos hid] at hr
      cases hr
    · rw [if_neg hid] at hr ⊢
      exact h.results id r hr

theorem Synced.of_seen {w w' : World} (h : Synced w) (hseen : seen w' = seen w) : Synced w' where
  params := by
    have hcache : w'.globals.paramCache = w.globals.paramCache := congrArg Seen.cache hseen
    have hparams : w'.state.params = w.state.params := congrArg Seen.params hseen
    rw [hcache, hparams, h.params]
  height := by
    have hcache : w'.globals.currentHeight = w.globals.currentHeight := congrArg Seen.cachedHeight hseen
    have hheight : w'.state.staking.currentHeight = w.state.staking.currentHeight :=
      congrArg Seen.height hseen
    rw [hcache, hheight, h.height]
  results id r hr := by
    have hcache : w'.globals.oracleResults = w.globals.oracleResults := congrArg Seen.cachedResults hseen
    have hresults : w'.state.oracleResults = w.state.oracleResults := congrArg Seen.results hseen
    rw [hcache] at hr
    rw [hresults]
    exact h.results id r hr

/-- Each write changes the caches as it changes the state. -/
theorem stable_synced : Stable Synced where
  of_seen h hseen := h.of_seen hseen
  params updates h :=
    { height := h.height
      results := h.results
      params := by
        show updates.foldl _ _ = updates.foldl _ _
        rw [h.params] }
  result result h := h.putResult result
  drop ids h := h.dropResults ids
  tick h := { params := h.params, height := rfl, results := h.results }

/-! ## The phases of an update -/

section Phases
variable (env : Env) (d : StateDiff)

theorem keeps_onAccounts {α : Type} (m : ExceptT String (StateM Accounts) α) :
    Keeps seen (onAccounts m) := keeps_zoom _ m fun _ _ => rfl

theorem keeps_onCells {α : Type} (m : CellsM α) : Keeps seen (onCells m) := keeps_zoom _ m fun _ _ => rfl

theorem keeps_modifyState {f : State → State} (h : ∀ s, (f s).params = s.params ∧
    (f s).staking.currentHeight = s.staking.currentHeight ∧ (f s).oracleResults = s.oracleResults) :
    Keeps seen (modifyState f) := by
  refine keeps_modify fun w => ?_
  obtain ⟨h1, h2, h3⟩ := h w.state
  simp only [seen, World.onState_state, World.onState_globals, h1, h2, h3]

theorem keeps_onStaking {α : Type} {m : StakingM α} (h : Keeps StakingState.currentHeight m) :
    Keeps seen (onStaking m) := by
  intro w
  have hh : (outcome m w.state.staking).2.currentHeight = w.state.staking.currentHeight := h _
  simp only [onStaking, outcome_zoom, seen, World.onState_state, World.onState_globals, hh]

theorem keeps_setValidator (pk : Bytes) (v : ValidatorStake) :
    Keeps StakingState.currentHeight (setValidator pk v) := keeps_modify fun _ => rfl

theorem keeps_getValidator (pk : Bytes) : Keeps StakingState.currentHeight (getValidator pk) := by
  refine keeps_get.bind fun st => ?_
  cases st.validators[pk]? with
  | none => exact keeps_throw _
  | some v => exact keeps_pure v

theorem keeps_check {S β γ : Type} {v : S → β} {c : Prop} [Decidable c] {e : String}
    {m : ExceptT String (StateM S) γ} {n : PUnit → ExceptT String (StateM S) γ} (h : Keeps v m) :
    Keeps v (if c then throw e >>= n else m) := by
  by_cases hc : c
  · rw [if_pos hc]
    exact fun _ => rfl
  · rwa [if_neg hc]

theorem keeps_stake (pk : Bytes) (amount : ℕ) : Keeps StakingState.currentHeight (stake pk amount) := by
  unfold stake
  refine keeps_check (keeps_get.bind fun st => (keeps_setValidator pk _).bind fun _ => ?_)
  exact keeps_check (keeps_check (keeps_setValidator pk _))

theorem keeps_unstake (pk : Bytes) (amount : ℕ) :
    Keeps StakingState.currentHeight (unstake pk amount) := by
  unfold unstake
  refine (keeps_getValidator pk).bind fun v => keeps_get.bind fun st => ?_
  refine (keeps_setValidator pk _).bind fun _ => ?_
  exact keeps_check (keeps_check (keeps_check (keeps_setValidator pk _)))

theorem keeps_withdraw (pk : Bytes) : Keeps StakingState.currentHeight (withdraw pk) := by
  unfold withdraw
  refine (keeps_getValidator pk).bind fun v => keeps_get.bind fun st => ?_
  refine (keeps_setValidator pk _).bind fun _ => keeps_check ?_
  dsimp only
  split_ifs
  · refine (keeps_modify ?_).bind fun _ => keeps_pure _
    exact fun _ => rfl
  · exact keeps_pure _

theorem keeps_applySlashOutcome (pk : Bytes) (reason : SlashReason) (result : SlashOutcome) :
    Keeps StakingState.currentHeight (applySlashOutcome pk reason result) := by
  unfold applySlashOutcome
  refine keeps_check ((keeps_getValidator pk).bind fun v => keeps_check (keeps_check ?_))
  refine keeps_get.bind fun st => (keeps_setValidator pk _).bind fun _ => ?_
  exact keeps_modify fun _ => rfl

theorem keeps_unjail (pk : Bytes) : Keeps StakingState.currentHeight (unjail pk) := by
  unfold unjail
  refine (keeps_getValidator pk).bind fun v => ?_
  cases v.jailedUntil with
  | none => exact keeps_check (keeps_setValidator pk _)
  | some jailHeight =>
    exact keeps_get.bind fun st => keeps_check (keeps_check (keeps_setValidator pk _))

theorem keeps_stakingReward (c : AccountId × ℕ) :
    Keeps StakingState.currentHeight (stakingReward env c) := by
  unfold stakingReward
  refine keeps_get.bind fun st => ?_
  split
  · exact keeps_pure _
  · exact keeps_check (keeps_setValidator _ _)

theorem keeps_stakingUpdate (u : StakingUpdate) : Keeps seen (stakingUpdate env u) := by
  cases u with
  | stake validator amount => exact keeps_onStaking (keeps_stake validator amount)
  | unstake validator amount => exact keeps_onStaking (keeps_unstake validator amount)
  | withdraw validator =>
    exact (keeps_onStaking (keeps_withdraw validator)).bind fun _ => keeps_onAccounts _
  | slash validator reason amount redistribution =>
    exact keeps_onStaking (keeps_applySlashOutcome validator reason _)
  | unjail validator => exact keeps_onStaking (keeps_unjail validator)

theorem keeps_applyBalances : Keeps seen (applyBalances env d) := by
  unfold applyBalances
  refine (keeps_onCells _).bind fun _ => (keeps_modifyState ?_).bind fun _ => ?_
  · exact fun _ => ⟨rfl, rfl, rfl⟩
  refine (keeps_onStaking (keeps_each (keeps_stakingReward env) _)).bind fun _ => ?_
  refine (keeps_onCells _).bind fun _ => (keeps_onCells _).bind fun _ => ?_
  exact keeps_modifyState fun _ => ⟨rfl, rfl, rfl⟩

theorem keeps_spendFee (amount : State → ℕ) {put : State → ℕ → State} (what : String) (n : ℕ)
    (h : ∀ s n, (put s n).params = s.params ∧ (put s n).staking.currentHeight = s.staking.currentHeight ∧
      (put s n).oracleResults = s.oracleResults) : Keeps seen (spendFee amount put what n) := by
  unfold spendFee
  refine keeps_get.bind fun w => ?_
  dsimp only
  split_ifs
  · exact fun _ => rfl
  · exact keeps_modifyState fun s => h s _
  · exact keeps_pure _

theorem keeps_spendFees : Keeps seen (spendFees d) := by
  unfold spendFees
  refine (keeps_spendFee _ _ _ ?_).bind fun _ => (keeps_spendFee _ _ _ ?_).bind fun _ =>
    (keeps_spendFee _ _ _ ?_).bind fun _ => keeps_spendFee _ _ _ ?_
  all_goals exact fun _ _ => ⟨rfl, rfl, rfl⟩

theorem keeps_payNameFee (fee : ℕ) : Keeps seen (modifyState (payNameFee env fee)) := by
  refine keeps_modifyState fun s => ?_
  unfold payNameFee
  split_ifs <;> exact ⟨rfl, rfl, rfl⟩

theorem keeps_collectFees : Keeps seen (modifyState fun s => if d.isSystem then s else collectFees d s) := by
  refine keeps_modifyState fun s => ?_
  split_ifs <;> exact ⟨rfl, rfl, rfl⟩

theorem keeps_recordTransaction : Keeps seen (modifyState (recordTransaction d)) := by
  refine keeps_modifyState fun s => ?_
  unfold recordTransaction
  split_ifs <;> exact ⟨rfl, rfl, rfl⟩

theorem keeps_recordHashes : Keeps seen (modifyState (recordHashes d)) := by
  refine keeps_modifyState fun s => ?_
  unfold recordHashes
  split_ifs <;> exact ⟨rfl, rfl, rfl⟩

theorem seen_slashBond (pattern : String) (p : UrlProposal) (w : World) :
    seen (slashBond env pattern p w) = seen w := by
  unfold slashBond distributeUrlSlashEqually
  dsimp only
  split_ifs <;> rfl

theorem seen_voteUrlProposal (pattern : String) (voter : Bytes) (m n : ℕ) (w : World) :
    seen (voteUrlProposal env pattern voter m n w) = seen w := by
  unfold voteUrlProposal
  split
  · rfl
  · dsimp only
    split_ifs
    · rfl
    · rfl
    · exact seen_slashBond env pattern _ _
    · rfl

variable {P : World → Prop} (hP : Stable P)
include hP

theorem Stable.of_keeps {α : Type} {m : StM α} (h : Keeps seen m) : Stays P m :=
  h.stays fun _ _ hseen hs => hP.of_seen hs hseen

theorem Stable.finalizeOracleRequest {w : World} (h : P w) (id : Bytes32) :
    P (finalizeOracleRequestIfReady env id w) := by
  unfold finalizeOracleRequestIfReady
  split
  · split
    · exact h
    · exact hP.of_seen (hP.result _ h) rfl
  · exact h

theorem Stable.applyOracleUpdate (u : OracleUpdate) : Stays P (OracleUpdates.applyOracleUpdate env u) := by
  cases u with
  | slashUrlProposer pattern =>
    unfold OracleUpdates.applyOracleUpdate slashUrlProposerBond
    refine stays_get.bind fun w => ?_
    cases w.state.urlProposals[pattern]? with
    | none => exact stays_throw _
    | some p => exact stays_modify fun w' hw => hP.of_seen hw (seen_slashBond env pattern p w')
  | addReveal requestId reveal =>
    refine stays_modify fun w hw => hP.finalizeOracleRequest env ?_ requestId
    exact hP.of_seen hw rfl
  | finalizeResult result =>
    exact stays_modify fun w hw => hP.of_seen (hP.result result hw) rfl
  | voteUrlProposal pattern voter m n =>
    exact stays_modify fun w hw => hP.of_seen hw (seen_voteUrlProposal env pattern voter m n w)
  | voteSchemaProposal id voter m n =>
    refine stays_modify fun w hw => hP.of_seen hw ?_
    simp only [oracleStep, voteSchemaProposal, seen, World.onState_state, World.onState_globals]
    split
    · rfl
    · split_ifs <;> rfl
  | _ => exact stays_modify fun w hw => hP.of_seen hw rfl

theorem Stable.applyDiff : Stays P (Apply.applyDiff env d) := by
  unfold Apply.applyDiff
  refine (hP.of_keeps (keeps_recordTransaction d)).bind fun _ => ?_
  refine (hP.of_keeps (keeps_onAccounts _)).bind fun _ => ?_
  refine (hP.of_keeps (keeps_each (keeps_stakingUpdate env) _)).bind fun _ => ?_
  refine (stays_modify fun w hw => hP.params _ hw).bind fun _ => ?_
  refine (hP.of_keeps (keeps_modifyState ?_)).bind fun _ => ?_
  · exact fun _ => ⟨rfl, rfl, rfl⟩
  refine (hP.of_keeps (keeps_onCells _)).bind fun _ => ?_
  refine (hP.of_keeps (keeps_applyBalances env d)).bind fun _ => ?_
  refine (hP.of_keeps (keeps_payNameFee env _)).bind fun _ => ?_
  refine (hP.of_keeps (keeps_spendFees d)).bind fun _ => ?_
  refine (stays_modify fun w hw => hP.of_seen hw ?_).bind fun _ =>
    stays_each (hP.applyOracleUpdate env) _
  simp only [applyNames, seen, World.onState_state, World.onState_globals, freezeAccounts, countMinted,
    settleNames, recordClaims, transferNames, renewNames, tokenAuthorityVotes, proposeNames,
    addTokenAuthorityProposals, registerNames]

theorem Stable.mergeDiffInplace : Stays P (Apply.mergeDiffInplace env d) := by
  unfold Apply.mergeDiffInplace
  refine (hP.of_keeps (keeps_modifyState ?_)).bind fun _ => ?_
  · exact fun _ => ⟨rfl, rfl, rfl⟩
  refine (hP.of_keeps (keeps_each (keeps_stakingUpdate env) _)).bind fun _ => ?_
  refine (hP.of_keeps (keeps_modifyState ?_)).bind fun _ => ?_
  · exact fun _ => ⟨rfl, rfl, rfl⟩
  refine (hP.of_keeps (keeps_onCells _)).bind fun _ => ?_
  refine (hP.of_keeps (keeps_onAccounts _)).bind fun _ => ?_
  refine (hP.of_keeps (keeps_applyBalances env d)).bind fun _ => ?_
  refine (hP.of_keeps (keeps_collectFees d)).bind fun _ => ?_
  refine (hP.of_keeps (keeps_payNameFee env _)).bind fun _ => ?_
  refine (hP.of_keeps (keeps_spendFees d)).bind fun _ => ?_
  refine (hP.of_keeps (keeps_recordHashes d)).bind fun _ => ?_
  refine (stays_modify fun w hw => hP.of_seen hw ?_).bind fun _ =>
    stays_each (hP.applyOracleUpdate env) _
  simp only [mergeNames, seen, World.onState_state, World.onState_globals, freezeAccounts,
    settleNames, recordClaims, transferNames, renewNames, tokenAuthorityVotes, nameVotes, proposeNames,
    addTokenAuthorityProposals, registerNames]

end Phases

/-! ## The end of a block -/

theorem slashSilent_height (percentage : ℕ) (id : Bytes32) (st : StakingState) (pk : Bytes) :
    (slashSilent percentage id st pk).currentHeight = st.currentHeight := by
  unfold slashSilent
  split
  · rfl
  · exact keeps_applySlashOutcome pk _ _ st

theorem slashSilentOracleValidators_height (percentage : ℕ) (tally : OracleTally) (id : Bytes32)
    (st : StakingState) :
    (slashSilentOracleValidators percentage tally id st).currentHeight = st.currentHeight :=
  runAll_frame (v := StakingState.currentHeight) (fun pk st => slashSilent_height percentage id st pk) _ st

section Maintenance
variable {P : World → Prop} (hP : Stable P) (env : Env) {w : World}
include hP

theorem Stable.expireOracleRequest (h : P w) (id : Bytes32) :
    P (Maintenance.expireOracleRequest env w id) := by
  unfold Maintenance.expireOracleRequest
  dsimp only
  split_ifs
  · split
    · exact hP.of_seen h rfl
    · refine hP.of_seen h ?_
      simp only [seen, slashSilentOracleValidators_height]
  · exact hP.finalizeOracleRequest env h id

theorem Stable.distributeGasFees (h : P w) : P (Maintenance.distributeGasFees env w) := by
  unfold Maintenance.distributeGasFees
  split_ifs
  · exact h
  · exact hP.applyDiff env _ w h

theorem Stable.payEpochEmission (h : P w) (height : ℕ) :
    P (w.onState (Maintenance.payEpochEmission env height)) := by
  refine hP.of_seen h ?_
  simp only [seen, World.onState_state, World.onState_globals, Maintenance.payEpochEmission]
  split_ifs <;> rfl

theorem Stable.pruneStateCollections (h : P w) (height : ℕ) :
    P (Maintenance.pruneStateCollections height w) := by
  have hstate : ∀ (f : State → State) (w : World), P w → (∀ s, (f s).params = s.params ∧
      (f s).staking.currentHeight = s.staking.currentHeight ∧ (f s).oracleResults = s.oracleResults) →
      P (w.onState f) := fun f w hw hf => hP.of_keeps (keeps_modifyState hf) w hw
  unfold Maintenance.pruneStateCollections
  extract_lets live named bounded
  have hnamed : P named := hstate _ w h fun _ => ⟨rfl, rfl, rfl⟩
  have hbounded : P bounded := hP.drop _ hnamed
  clear_value bounded
  exact hstate _ bounded hbounded fun _ => ⟨rfl, rfl, rfl⟩

theorem Stable.runEndOfBlockMaintenance (h : P w) (height : ℕ) :
    P (Maintenance.runEndOfBlockMaintenance env height w) := by
  have hexpired : P (processOracleTimeouts env height w) :=
    runAll_keeps (E := fun id w => Maintenance.expireOracleRequest env w id) (P := P)
      (fun id _ _ hw => hP.expireOracleRequest env hw id) _ h
  have hpruned : P (pruneExpiredOracleResults height (processOracleTimeouts env height w)) :=
    hP.drop _ hexpired
  have hbounded := hP.pruneStateCollections hpruned height
  unfold Maintenance.runEndOfBlockMaintenance
  dsimp only
  split_ifs
  · exact hP.payEpochEmission env (hP.distributeGasFees env hbounded) height
  · exact hP.distributeGasFees env hbounded

theorem Stable.finishBlock (h : P w) : P (Maintenance.finishBlock env w) :=
  hP.runEndOfBlockMaintenance env (hP.tick h) _

end Maintenance

/-! ## Runs of a process -/

/-- What a process does to a copy of the state: it reads its caches from it, applies or merges a diff, ends a
block, or sets the height. -/
inductive Op where
  | rehydrate
  | apply (d : StateDiff)
  | merge (d : StateDiff)
  | finish
  | setHeight (height : ℕ)

/-- The copy and the caches afterwards. -/
def Op.run (env : Env) : Op → World → World
  | .rehydrate, w => rehydrateRuntimeGlobals w
  | .apply d, w => (outcome (applyDiff env d) w).2
  | .merge d, w => (outcome (mergeDiffInplace env d) w).2
  | .finish, w => finishBlock env w
  | .setHeight height, w => w.onGlobals fun g => { g with currentHeight := height }

/-- One step of a process: any copy of a state, and what is done to it. -/
structure Step where
  copy : State
  op : Op

/-- The caches after a run. The copies are kept or thrown away as the node likes: a later step may be on any
state. -/
def process (env : Env) (g : Globals) (steps : List Step) : Globals :=
  steps.foldl (fun g step => (step.op.run env ⟨step.copy, g⟩).globals) g

/-- The operations that move the caches together with the copy. -/
def Op.Moves : Op → Prop
  | .apply _ | .merge _ | .finish => True
  | .rehydrate | .setHeight _ => False

/-- The run ends on the copy `s` that the caches were last read from: that state had parameters, and every
step since then was on the copy, as the step before had left it. -/
inductive Holds (env : Env) (g : Globals) : List Step → State → Prop
  | rehydrate (steps : List Step) (s : State) :
    s.params.isEmpty = false → Holds env g (steps ++ [⟨s, .rehydrate⟩]) s
  | move {steps : List Step} {s : State} {op : Op} : Holds env g steps s → op.Moves →
    Holds env g (steps ++ [⟨s, op⟩]) (op.run env ⟨s, process env g steps⟩).state

section Process
variable (env : Env) (g : Globals)

theorem process_snoc (steps : List Step) (step : Step) :
    process env g (steps ++ [step]) = (step.op.run env ⟨step.copy, process env g steps⟩).globals := by
  unfold process
  rw [List.foldl_append]
  rfl

theorem Stable.run {P : World → Prop} (hP : Stable P) {w : World} (h : P w) {op : Op} (hop : op.Moves) :
    P (op.run env w) := by
  cases op with
  | apply d => exact hP.applyDiff env d w h
  | merge d => exact hP.mergeDiffInplace env d w h
  | finish => exact hP.finishBlock env h
  | rehydrate => exact hop.elim
  | setHeight height => exact hop.elim

theorem process_genesis (steps : List Step) : (process env g steps).genesisHash = g.genesisHash := by
  induction steps using List.reverseRecOn with
  | nil => rfl
  | append_singleton steps step ih =>
    rw [process_snoc]
    obtain ⟨s, op⟩ := step
    cases op with
    | rehydrate => exact ih
    | setHeight height => exact ih
    | _ => exact (stable_genesis g.genesisHash).run env ih trivial

variable {env g}

theorem Holds.synced {steps : List Step} {s : State} (h : Holds env g steps s) :
    Synced ⟨s, process env g steps⟩ := by
  induction h with
  | rehydrate steps s hs =>
    rw [process_snoc]
    exact synced_rehydrate (w := ⟨s, process env g steps⟩) hs
  | move _ hop ih =>
    rw [process_snoc]
    exact stable_synced.run env ih hop

/-- The world is the one that a run on a held copy ends with. -/
def HeldAt (env : Env) (g : Globals) (w : World) : Prop :=
  ∃ steps, Holds env g steps w.state ∧ process env g steps = w.globals

theorem HeldAt.runTransaction {w : World} (h : HeldAt env g w) (tx : Transaction) :
    HeldAt env g (Executor.runTransaction env tx w).2 := by
  unfold Executor.runTransaction
  split
  · exact h
  · rename_i d _
    obtain ⟨steps, hsteps, hglobals⟩ := h
    have hmove : HeldAt env g (outcome (applyDiff env d) w).2 := by
      refine ⟨steps ++ [⟨w.state, .apply d⟩], ?_, ?_⟩
      · have hop : (Op.apply d).Moves := trivial
        have hw := hsteps.move hop
        rwa [hglobals] at hw
      · rw [process_snoc, hglobals]
        rfl
    split
    · rename_i heq
      rwa [heq] at hmove
    · rename_i heq
      rwa [heq] at hmove

/-- **The batch executor works on a held copy.** It reads the caches from the state it is given, and each of
its transactions is computed on the state that the ones before it left. -/
theorem heldAt_worldAt (steps : List Step) {s : State} (hs : s.params.isEmpty = false)
    (batch : List Transaction) (i : ℕ) :
    HeldAt env g (worldAt env (rehydrateRuntimeGlobals ⟨s, process env g steps⟩) batch i) := by
  rw [worldAt_eq]
  refine runAll_keeps (E := fun tx w => (Executor.runTransaction env tx w).2) (P := HeldAt env g)
    (fun tx _ w hw => hw.runTransaction tx) _ ?_
  refine ⟨steps ++ [⟨s, .rehydrate⟩], .rehydrate steps s hs, ?_⟩
  rw [process_snoc]
  rfl

end Process

/-- **Execution on the copy that the caches were last read from.** Every parameter read is the one in the
state, and the result of a transaction is the same after any two such runs of the process. -/
theorem execution_of_held_copy (env : Env) (g : Globals) (steps : List Step) (s : State)
    (h : Holds env g steps s) :
    (∀ name, requireParam env.sha256 (process env g steps).paramCache name =
      requireParam env.sha256 s.params name) ∧
    ∀ (other : List Step) (tx : Transaction), Holds env g other s →
      computeTransactionDiffSkipSig env ⟨s, process env g steps⟩ tx =
        computeTransactionDiffSkipSig env ⟨s, process env g other⟩ tx := by
  constructor
  · intro name
    have hparams : (process env g steps).paramCache = s.params := h.synced.params
    rw [hparams]
  · intro other tx hother
    have hgenesis : (process env g steps).genesisHash = (process env g other).genesisHash := by
      rw [process_genesis, process_genesis]
    exact compute_view env (h.synced.sameView hother.synced rfl hgenesis) tx

/-! ## A copy that was thrown away -/

/-- The ledger with the parameters that the node of the sample has in its cache. -/
def pricedState : State := { sampleState with params := sampleWorld.globals.paramCache }

/-- The diff of a governance call that sets the fee for a byte to 2. -/
def byteFeeDiff : StateDiff :=
  { txHash := 3
    paramUpdates := [(paramKey paramDigest "fees.tx_byte", encodeU64 2)] }

def emptyCaches : Globals := ⟨∅, ∅, ∅, ∅, 0, 7⟩

def plainRun : List Step := [⟨pricedState, .rehydrate⟩]

/-- The state is executed and a diff is applied to the copy, which is then thrown away. -/
def discardedRun : List Step := [⟨pricedState, .rehydrate⟩, ⟨pricedState, .apply byteFeeDiff⟩]

example : byteFeeDiff.paramUpdates.map Prod.snd = [encodeU64 2] := by decide +kernel

theorem pricedState_held : Holds sampleEnv emptyCaches plainRun pricedState :=
  .rehydrate [] pricedState (by decide +kernel)

/-- The condition at the sample: two runs that end on the state they have read. -/
theorem execution_of_held_copy_sample :
    Holds sampleEnv emptyCaches plainRun pricedState ∧
    Holds sampleEnv emptyCaches (discardedRun ++ plainRun) pricedState ∧
    computeTransactionDiffSkipSig sampleEnv
        ⟨pricedState, process sampleEnv emptyCaches plainRun⟩ sampleTransfer =
      computeTransactionDiffSkipSig sampleEnv
        ⟨pricedState, process sampleEnv emptyCaches (discardedRun ++ plainRun)⟩ sampleTransfer := by
  have hagain : Holds sampleEnv emptyCaches (discardedRun ++ plainRun) pricedState :=
    .rehydrate discardedRun pricedState (by decide +kernel)
  refine ⟨pricedState_held, hagain, ?_⟩
  exact (execution_of_held_copy sampleEnv emptyCaches plainRun pricedState pricedState_held).2 _ _ hagain

/-- After a copy with another fee was thrown away, the fee of the sample transfer on the unchanged state is
that of the copy. -/
theorem discarded_copy_sets_fee :
    ¬ ∀ (env : Env) (g : Globals) (steps other : List Step) (s : State) (tx : Transaction),
      (∀ name, requireParam env.sha256 (process env g steps).paramCache name =
        requireParam env.sha256 s.params name) ∧
      computeTransactionDiffSkipSig env ⟨s, process env g steps⟩ tx =
        computeTransactionDiffSkipSig env ⟨s, process env g other⟩ tx := by
  intro h
  have hsame := (h sampleEnv emptyCaches discardedRun plainRun pricedState sampleTransfer).2
  have hfees := congrArg (fun r => r.toOption.map StateDiff.gasFee) hsame
  revert hfees
  decide +kernel

end TruthLinked.Ledger.ParamCache
