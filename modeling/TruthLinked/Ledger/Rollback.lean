import TruthLinked.Ledger.Executor
import TruthLinked.Ledger.MergeAgreement

/-! # What a failed diff leaves

`apply_diff` writes as it checks. The hash of the transaction is recorded before the first check, and no
later phase takes it out again (`marks_applyDiff`). So a diff with a new hash that is refused has changed the
state, and a transaction that fails when its diff is applied has an effect. -/

namespace TruthLinked.Ledger.Rollback

open Core.Types Runtime.Types Staking.State Ledger.Model Ledger.Phases Ledger.OracleUpdates Ledger.Apply
open Ledger.ApplySpec Ledger.ComputeCells Ledger.Executor Ledger.MergeAgreement Lib.Phase Lib.Wp

/-! ## The counters that only the first phase writes -/

/-- The executed hashes and the fees of the epoch. -/
def ledgerMarks (w : World) : FSet Bytes32 × ℕ := (w.state.executedTxHashes, w.state.accumulatedEpochFees)

section Marks
variable (env : Env) (d : StateDiff)

theorem keeps_onAccounts {α : Type} (m : ExceptT String (StateM Accounts) α) :
    Keeps ledgerMarks (onAccounts m) := keeps_zoom _ m fun _ _ => rfl

theorem keeps_onStaking {α : Type} (m : StakingM α) : Keeps ledgerMarks (onStaking m) :=
  keeps_zoom _ m fun _ _ => rfl

theorem keeps_onCells {α : Type} (m : CellsM α) : Keeps ledgerMarks (onCells m) :=
  keeps_zoom _ m fun _ _ => rfl

theorem keeps_modifyState {f : State → State} (h : ∀ s, (f s).executedTxHashes = s.executedTxHashes ∧
    (f s).accumulatedEpochFees = s.accumulatedEpochFees) : Keeps ledgerMarks (modifyState f) :=
  keeps_modify fun w => Prod.ext (h w.state).1 (h w.state).2

theorem keeps_stakingUpdate (u : StakingUpdate) : Keeps ledgerMarks (stakingUpdate env u) := by
  cases u with
  | withdraw validator => exact (keeps_onStaking _).bind fun _ => keeps_onAccounts _
  | _ => exact keeps_onStaking _

theorem keeps_applyBalances : Keeps ledgerMarks (applyBalances env d) := by
  rw [applyBalances]
  refine (keeps_onCells _).bind fun _ => (keeps_modifyState ?_).bind fun _ =>
    (keeps_onStaking _).bind fun _ => (keeps_onCells _).bind fun _ => (keeps_onCells _).bind fun _ =>
      keeps_modifyState ?_
  · exact fun _ => ⟨rfl, rfl⟩
  · exact fun _ => ⟨rfl, rfl⟩

theorem keeps_spendFee (amount : State → ℕ) {put : State → ℕ → State} (what : String) (n : ℕ)
    (h : ∀ s n, (put s n).executedTxHashes = s.executedTxHashes ∧
      (put s n).accumulatedEpochFees = s.accumulatedEpochFees) :
    Keeps ledgerMarks (spendFee amount put what n) := by
  refine keeps_get.bind fun w => ?_
  simp only
  split_ifs
  · exact (keeps_throw _).bind fun _ => keeps_modifyState fun s => h s _
  · exact keeps_modifyState fun s => h s _
  · exact keeps_pure _

theorem keeps_spendFees : Keeps ledgerMarks (spendFees d) := by
  rw [spendFees]
  refine (keeps_spendFee _ _ _ ?_).bind fun _ => (keeps_spendFee _ _ _ ?_).bind fun _ =>
    (keeps_spendFee _ _ _ ?_).bind fun _ => keeps_spendFee _ _ _ ?_
  all_goals exact fun _ _ => ⟨rfl, rfl⟩

theorem payNameFee_marks (fee : ℕ) (s : State) :
    (payNameFee env fee s).executedTxHashes = s.executedTxHashes ∧
      (payNameFee env fee s).accumulatedEpochFees = s.accumulatedEpochFees := by
  rw [payNameFee]
  split_ifs <;> exact ⟨rfl, rfl⟩

theorem keeps_applyOracleUpdate (u : OracleUpdate) : Keeps ledgerMarks (applyOracleUpdate env u) := by
  have hquiet : ∀ u w, ledgerMarks (oracleEffect env u w) = ledgerMarks w := fun u w =>
    Prod.ext (congrArg Agreement.Quiet.executedTxHashes (Agreement.quiet_oracleEffect env u w).1)
      (congrArg Agreement.Quiet.accumulatedEpochFees (Agreement.quiet_oracleEffect env u w).1)
  cases u with
  | slashUrlProposer pattern =>
    rw [applyOracleUpdate, slashUrlProposerBond]
    refine keeps_get.bind fun w => ?_
    cases w.state.urlProposals[pattern]? with
    | none => exact keeps_throw _
    | some p =>
      refine keeps_modify fun w' => ?_
      have hq := Agreement.quiet_slashBond env pattern p w'
      exact Prod.ext (congrArg Agreement.Quiet.executedTxHashes hq)
        (congrArg Agreement.Quiet.accumulatedEpochFees hq)
  | queueRequest req => exact keeps_modify (hquiet (.queueRequest req))
  | addCommit requestId commit => exact keeps_modify (hquiet (.addCommit requestId commit))
  | addReveal requestId reveal => exact keeps_modify (hquiet (.addReveal requestId reveal))
  | finalizeResult result => exact keeps_modify (hquiet (.finalizeResult result))
  | addUrlProposal proposal => exact keeps_modify (hquiet (.addUrlProposal proposal))
  | voteUrlProposal pattern voter m n => exact keeps_modify (hquiet (.voteUrlProposal pattern voter m n))
  | addSchemaProposal proposal => exact keeps_modify (hquiet (.addSchemaProposal proposal))
  | voteSchemaProposal id voter m n => exact keeps_modify (hquiet (.voteSchemaProposal id voter m n))
  | setVisibility cellId visibility => exact keeps_modify (hquiet (.setVisibility cellId visibility))

theorem keeps_laterPhases :
    Keeps ledgerMarks (do
      onAccounts (applyAccounts d)
      each (stakingUpdate env) d.stakingUpdates
      modify (updateParams d.paramUpdates)
      modifyState fun s => { s with nfts := nftUpdates d.nftUpdates s.nfts }
      onCells (each (cellUpdate env) d.cellUpdates)
      applyBalances env d
      modifyState (payNameFee env d.nameFee)
      spendFees d
      modify (applyNames env d)
      each (applyOracleUpdate env) d.oracleUpdates) := by
  refine (keeps_onAccounts _).bind fun _ => ?_
  refine (keeps_each (keeps_stakingUpdate env) _).bind fun _ => ?_
  refine (keeps_modify ?_).bind fun _ => (keeps_modifyState ?_).bind fun _ => ?_
  · exact fun _ => rfl
  · exact fun _ => ⟨rfl, rfl⟩
  refine (keeps_onCells _).bind fun _ => ?_
  refine (keeps_applyBalances env d).bind fun _ => ?_
  refine (keeps_modifyState (payNameFee_marks env _)).bind fun _ => ?_
  refine (keeps_spendFees d).bind fun _ => ?_
  refine (keeps_modify fun w => ?_).bind fun _ => keeps_each (keeps_applyOracleUpdate env) _
  have hq := (Agreement.quiet_applyNames env d w).1
  exact Prod.ext (congrArg Agreement.Quiet.executedTxHashes hq)
    (congrArg Agreement.Quiet.accumulatedEpochFees hq)

/-- **The hash and the epoch fees of a diff stand, whether it is refused later or not.** -/
theorem marks_applyDiff (w : World) :
    ledgerMarks (outcome (applyDiff env d) w).2 = ledgerMarks (w.onState (recordTransaction d)) := by
  rw [applyDiff, outcome_bind]
  exact keeps_laterPhases env d _

end Marks

/-! ## One diff -/

/-- When `apply_diff` refuses the diff, the state is the one it started from. -/
def RefusalKeeps (env : Env) (d : StateDiff) (w : World) : Prop :=
  ∀ e w', outcome (applyDiff env d) w = (.error e, w') → w'.state = w.state

theorem recorded_hashes_ne {d : StateDiff} {s : State} (hsys : d.isSystem = false)
    (hnew : d.txHash ∉ s.executedTxHashes) :
    (recordTransaction d s).executedTxHashes ≠ s.executedTxHashes := by
  simp only [recordTransaction, hsys, Bool.false_eq_true, if_false, collectEpochFees, collectFees]
  intro h
  by_cases hcap : (s.executedTxHashes.insert d.txHash).size ≤ maxExecutedTxHashes
  · rw [(pruneHashes_eq_iff _).mpr hcap] at h
    exact hnew (h ▸ Std.ExtTreeSet.mem_insert_self)
  · have hsize := size_pruneHashes (Nat.lt_of_not_le hcap)
    have hgrow : (s.executedTxHashes.insert d.txHash).size = s.executedTxHashes.size + 1 := by
      have hnot : ¬ s.executedTxHashes.contains d.txHash = true := hnew
      rw [Std.ExtTreeSet.size_insert, if_neg hnot]
    have hkeep : keepExecutedTxHashes < maxExecutedTxHashes := by decide
    rw [h] at hsize
    omega

theorem refusalKeeps_of_applicable {env : Env} {d : StateDiff} {w : World}
    (h : Applicable env d w.state) : RefusalKeeps env d w := by
  intro e w' he
  rw [(spec_applyDiff env d).ok w h] at he
  cases he

/-- A diff with a new hash is refused without a trace only when it is not refused. -/
theorem applicable_of_refusalKeeps {env : Env} {d : StateDiff} {w : World} (hsys : d.isSystem = false)
    (hnew : d.txHash ∉ w.state.executedTxHashes) (h : RefusalKeeps env d w) :
    Applicable env d w.state := by
  by_contra hno
  obtain ⟨e, w', he⟩ := (spec_applyDiff env d).err w hno
  have hmarks := congrArg Prod.fst (marks_applyDiff env d w)
  rw [he] at hmarks
  have hstate := congrArg State.executedTxHashes (h e w' he)
  exact recorded_hashes_ne hsys hnew (hmarks.symm.trans hstate)

/-! ## A batch -/

section Batch
variable {env : Env}

theorem sequentialLoop_world (batch : List Transaction) (idx : ℕ) (w : World)
    (failed : List (ℕ × String)) (fees : ℕ) :
    (sequentialLoop env batch idx w failed fees).1 =
      batch.foldl (fun w tx => (runTransaction env tx w).2) w := by
  induction batch generalizing idx w failed fees with
  | nil => rfl
  | cons tx txs ih =>
    rw [sequentialLoop, List.foldl_cons]
    generalize runTransaction env tx w = r
    obtain ⟨_ | n, w'⟩ := r
    · exact ih _ _ _ _
    · exact ih _ _ _ _

/-- The world before transaction number `i` of a batch. -/
def worldAt (env : Env) (w : World) (batch : List Transaction) (i : ℕ) : World :=
  (executeSequential env w (batch.take i)).world

theorem worldAt_eq (w : World) (batch : List Transaction) (i : ℕ) :
    worldAt env w batch i = (batch.take i).foldl (fun w tx => (runTransaction env tx w).2) w :=
  sequentialLoop_world _ _ _ _ _

theorem worldAt_succ (w : World) {batch : List Transaction} {i : ℕ} {tx : Transaction}
    (h : batch[i]? = some tx) :
    worldAt env w batch (i + 1) = (runTransaction env tx (worldAt env w batch i)).2 := by
  rw [worldAt_eq, worldAt_eq, List.take_add_one, h, Option.toList_some, List.foldl_append]
  rfl

theorem mem_failed_loop (batch : List Transaction) (idx : ℕ) (w : World) (failed : List (ℕ × String))
    (fees : ℕ) (i : ℕ) :
    i ∈ (sequentialLoop env batch idx w failed fees).2.1.map Prod.fst ↔
      i ∈ failed.map Prod.fst ∨ ∃ k tx e, i = idx + k ∧ batch[k]? = some tx ∧
        (runTransaction env tx (worldAt env w batch k)).1 = .error e := by
  induction batch generalizing idx w failed fees with
  | nil => simp [sequentialLoop]
  | cons tx txs ih =>
    have hshift : ∀ k, worldAt env w (tx :: txs) (k + 1) =
        worldAt env (runTransaction env tx w).2 txs k := by
      intro k
      rw [worldAt_eq, worldAt_eq]
      rfl
    have hsplit : (∃ k tx' e, i = idx + k ∧ (tx :: txs)[k]? = some tx' ∧
        (runTransaction env tx' (worldAt env w (tx :: txs) k)).1 = .error e) ↔
        (i = idx ∧ ∃ e, (runTransaction env tx w).1 = .error e) ∨
        ∃ k tx' e, i = idx + 1 + k ∧ txs[k]? = some tx' ∧
          (runTransaction env tx' (worldAt env (runTransaction env tx w).2 txs k)).1 = .error e := by
      constructor
      · rintro ⟨k, tx', e, hi, htx, he⟩
        cases k with
        | zero =>
          cases htx
          exact .inl ⟨hi, e, he⟩
        | succ k =>
          rw [hshift] at he
          exact .inr ⟨k, tx', e, by omega, htx, he⟩
      · rintro (⟨hi, e, he⟩ | ⟨k, tx', e, hi, htx, he⟩)
        · exact ⟨0, tx, e, hi, rfl, he⟩
        · rw [← hshift] at he
          exact ⟨k + 1, tx', e, by omega, htx, he⟩
    rw [hsplit, sequentialLoop]
    generalize hr : runTransaction env tx w = r at *
    obtain ⟨e | n, w'⟩ := r
    · rw [ih]
      simp only [List.map_append, List.map_cons, List.map_nil, List.mem_append, List.mem_singleton,
        Except.error.injEq, exists_eq', and_true, or_assoc]
    · rw [ih]
      simp

theorem mem_failed (w : World) (batch : List Transaction) (i : ℕ) :
    i ∈ (executeSequential env w batch).failed.map Prod.fst ↔
      ∃ tx e, batch[i]? = some tx ∧ (runTransaction env tx (worldAt env w batch i)).1 = .error e := by
  rw [executeSequential, mem_failed_loop]
  simp

/-- A transaction that the executor reports as failed leaves the state as it was. -/
def FailuresKeep (env : Env) (w : World) (batch : List Transaction) : Prop :=
  ∀ i ∈ (executeSequential env w batch).failed.map Prod.fst,
    (worldAt env w batch (i + 1)).state = (worldAt env w batch i).state

theorem runTransaction_error {tx : Transaction} {w : World} {d : StateDiff}
    (hd : computeTransactionDiffSkipSig env w tx = .ok d) {e : String} {w' : World}
    (he : outcome (applyDiff env d) w = (.error e, w')) : runTransaction env tx w = (.error e, w') := by
  simp only [runTransaction, hd, he]

theorem failuresKeep_iff (w : World) (batch : List Transaction) :
    FailuresKeep env w batch ↔ ∀ i tx d, batch[i]? = some tx →
      computeTransactionDiffSkipSig env (worldAt env w batch i) tx = .ok d →
      Applicable env d (worldAt env w batch i).state := by
  constructor
  · intro h i tx d htx hd
    obtain ⟨hplain, hnew, -, -⟩ := computed hd
    refine applicable_of_refusalKeeps hplain.isSystem (by rwa [hplain.txHash]) fun e w' he => ?_
    have hrun := runTransaction_error hd he
    have hkeep := h i ((mem_failed w batch i).mpr ⟨tx, e, htx, by rw [hrun]⟩)
    rw [worldAt_succ w htx, hrun] at hkeep
    exact hkeep
  · intro h i hi
    obtain ⟨tx, e, htx, he⟩ := (mem_failed w batch i).mp hi
    rw [worldAt_succ w htx]
    cases hd : computeTransactionDiffSkipSig env (worldAt env w batch i) tx with
    | error e' => simp only [runTransaction, hd]
    | ok d =>
      simp only [runTransaction, hd, (spec_applyDiff env d).ok _ (h i tx d htx hd)] at he
      cases he

end Batch

/-- **When a refusal leaves no trace.** A diff whose checks pass is never refused. A diff with a new hash,
such as the executor applies, is refused without a trace only then, and so the failed transactions of a batch
leave no trace exactly when every computed diff passes the checks on the state it meets. -/
theorem refusal_without_trace_iff (env : Env) (d : StateDiff) (w : World) (batch : List Transaction) :
    (Applicable env d w.state → RefusalKeeps env d w) ∧
      (d.isSystem = false → d.txHash ∉ w.state.executedTxHashes →
        (RefusalKeeps env d w ↔ Applicable env d w.state)) ∧
      (FailuresKeep env w batch ↔ ∀ i tx d, batch[i]? = some tx →
        computeTransactionDiffSkipSig env (worldAt env w batch i) tx = .ok d →
        Applicable env d (worldAt env w batch i).state) :=
  ⟨refusalKeeps_of_applicable,
    fun hsys hnew => ⟨applicable_of_refusalKeeps hsys hnew, refusalKeeps_of_applicable⟩,
    failuresKeep_iff w batch⟩

example : (outcome (applyDiff sampleEnv sampleDiff) sampleWorld).1 = .ok () := by decide +kernel

theorem sampleDiff_applicable : Applicable sampleEnv sampleDiff sampleState := by
  have hok : (outcome (applyDiff sampleEnv sampleDiff) sampleWorld).1 = .ok () := by decide +kernel
  by_contra hno
  obtain ⟨e, w', he⟩ := (spec_applyDiff sampleEnv sampleDiff).err sampleWorld hno
  rw [he] at hok
  cases hok

/-- At the sample transfer, alone and as a batch. -/
theorem refusal_without_trace_sample :
    RefusalKeeps sampleEnv sampleDiff sampleWorld ∧ FailuresKeep sampleEnv sampleWorld [sampleTransfer] := by
  have h := refusal_without_trace_iff sampleEnv sampleDiff sampleWorld [sampleTransfer]
  refine ⟨h.1 sampleDiff_applicable, h.2.2.mpr ?_⟩
  intro i tx d htx hd
  cases i with
  | zero =>
    cases htx
    cases compute_sampleTransfer.symm.trans hd
    exact sampleDiff_applicable
  | succ i => cases htx

/-- A deposit of the whole balance fails for want of the gas fee, with its hash recorded and the fees
collected. -/
theorem failed_deposit_leaves_trace :
    (¬ ∀ env d w, RefusalKeeps env d w) ∧ ¬ ∀ env w batch, FailuresKeep env w batch := by
  have hfees : (executeSequential sampleEnv sampleWorld [sampleDeposit]).world.state.accumulatedEpochFees =
      81 := by decide +kernel
  have hfailed : (executeSequential sampleEnv sampleWorld [sampleDeposit]).failed.map Prod.fst = [0] := by
    decide +kernel
  have hbatch : ¬ FailuresKeep sampleEnv sampleWorld [sampleDeposit] := by
    intro h
    have hkeep := congrArg State.accumulatedEpochFees (h 0 (hfailed ▸ List.mem_singleton_self 0))
    exact absurd (hfees.symm.trans hkeep) (by decide)
  refine ⟨fun h => hbatch ((failuresKeep_iff _ _).mpr fun i tx d htx hd => ?_), fun h => hbatch (h _ _ _)⟩
  obtain ⟨hplain, hnew, -, -⟩ := computed hd
  exact applicable_of_refusalKeeps hplain.isSystem (by rwa [hplain.txHash]) (h _ _ _)

end TruthLinked.Ledger.Rollback
