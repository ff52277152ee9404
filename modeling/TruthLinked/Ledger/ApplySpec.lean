import TruthLinked.Ledger.CellSpecs

/-! # When `apply_diff` goes through

`Applicable env d s` lists, phase by phase and in terms of the state before the diff, what `apply_diff`
checks. The diff is applied without an error exactly then (`spec_applyDiff`). -/

namespace TruthLinked.Ledger.ApplySpec

open Core.Types Runtime.Cells Runtime.Types Governance.Types Staking.State Ledger.Model
open Ledger.Phases Ledger.OracleUpdates Ledger.Apply Ledger.AccountSpecs Ledger.StakingSpecs
open Ledger.CellSpecs Lib.Phase Lib.Keyed Lib.Wp

theorem spec_modifyState (f : State → State) :
    Spec (modifyState f) (fun _ => True) (World.onState f) := spec_modify _

theorem spec_onCells {m : CellsM Unit} {F : CellState → Prop} {E : CellState → CellState}
    (h : Spec m F E) :
    Spec (onCells m) (fun w => F w.state.cells)
      (fun w => w.onState fun s => { s with cells := E s.cells }) :=
  h.zoom _ _

/-! ## Balances -/

/-- The token, reward and cell balance loops go through. -/
structure BalancesFit (env : Env) (d : StateDiff) (cs : CellState) (st : StakingState) : Prop where
  tokens : TokenCreditsFit d.tokenCredits cs
  rewards : FitsAll (RewardFits env) (rewardStep env) d.stakingRewards st
  credits : CellCreditsFit d.cellCredits cs
  debits : ∀ c ∈ d.cellDebits, (cellSlot cs c.1).isSome ∧
    moved c.1 d.cellDebits ≤ cellHeld (cellSlot cs c.1) + moved c.1 d.cellCredits

/-- The cells after the balance loops. -/
def balancedCells (d : StateDiff) (cs : CellState) : CellState :=
  storageDeltas d.storageDeltas (runAll cellDebitStep d.cellDebits (runAll cellCreditStep d.cellCredits
    (setTokenBalances d.tokenBalanceUpdates (runAll tokenCreditStep d.tokenCredits cs))))

/-- The state after the balance loops. -/
def balanced (env : Env) (d : StateDiff) (s : State) : State :=
  { s with
    cells := balancedCells d s.cells
    staking := runAll (rewardStep env) d.stakingRewards s.staking }

theorem cellSlot_tokens (d : StateDiff) (cs : CellState) (a : AccountId) :
    cellSlot (setTokenBalances d.tokenBalanceUpdates (runAll tokenCreditStep d.tokenCredits cs)) a =
      cellSlot cs a := by
  rw [cellSlot, setTokenBalances_cells, runAll_tokenCredit_cells, cellSlot]

theorem spec_applyBalances (env : Env) (d : StateDiff) :
    Spec (applyBalances env d) (fun w => BalancesFit env d w.state.cells w.state.staking)
      (World.onState (balanced env d)) := by
  refine ((spec_onCells (spec_tokenCredits d.tokenCredits)).seq ((spec_modifyState _).seq
    ((spec_onStaking (spec_each (spec_stakingReward env) d.stakingRewards)).seq
      ((spec_onCells (spec_cellCredits d.cellCredits)).seq
        ((spec_onCells (spec_cellDebits d.cellDebits)).seq (spec_modifyState _)))))).congr
    (fun w => ?_) fun w _ => rfl
  simp only [World.onState_state, CellCreditsFit, CellDebitsFit, cellSlot_tokens, isSome_credited_cell]
  constructor
  · rintro ⟨htok, hrew, hcred, hdeb⟩
    refine ⟨htok, trivial, hrew, hcred, fun c hc => ?_, trivial⟩
    obtain ⟨hsome, hle⟩ := hdeb c hc
    refine ⟨hsome, ?_⟩
    rw [cellHeld_credited _ _ _ (by rwa [cellSlot_tokens]), cellSlot_tokens]
    exact hle
  · rintro ⟨htok, -, hrew, hcred, hdeb, -⟩
    refine ⟨htok, hrew, hcred, fun c hc => ?_⟩
    obtain ⟨hsome, hle⟩ := hdeb c hc
    rw [cellHeld_credited _ _ _ (by rwa [cellSlot_tokens]), cellSlot_tokens] at hle
    exact ⟨hsome, hle⟩

theorem mem_modifyCell (cellId a : AccountId) (f : CellAccount → CellAccount) (cs : CellState) :
    a ∈ (modifyCell cellId f cs).cells ↔ a ∈ cs.cells := by
  rw [modifyCell, mem_iff_slot, slot_modify, mem_iff_slot]
  split_ifs <;> simp

theorem mem_storageDeltas (deltas : Map AccountId StorageDelta) (cs : CellState) (a : AccountId) :
    a ∈ (storageDeltas deltas cs).cells ↔ a ∈ cs.cells := by
  rw [storageDeltas]
  refine runAll_keeps (E := fun (u : AccountId × StorageDelta) cells =>
      Std.ExtTreeMap.modify cells u.1 fun cell => { cell with storage := applyDelta cell.storage u.2 })
    (P := fun cells => a ∈ cells ↔ a ∈ cs.cells) (fun u _ cells h => ?_) cs.cells Iff.rfl
  rw [← h, mem_iff_slot, slot_modify, mem_iff_slot]
  split_ifs <;> simp

theorem mem_balancedCells (d : StateDiff) (cs : CellState) (a : AccountId) :
    a ∈ (balancedCells d cs).cells ↔ a ∈ cs.cells := by
  have hcredit : ∀ cs, a ∈ (runAll cellCreditStep d.cellCredits cs).cells ↔ a ∈ cs.cells := fun cs =>
    runAll_keeps (P := fun cs' => a ∈ cs'.cells ↔ a ∈ cs.cells)
      (fun c _ cs' h => (mem_modifyCell _ _ _ _).trans h) cs Iff.rfl
  have hdebit : ∀ cs, a ∈ (runAll cellDebitStep d.cellDebits cs).cells ↔ a ∈ cs.cells := fun cs =>
    runAll_keeps (P := fun cs' => a ∈ cs'.cells ↔ a ∈ cs.cells)
      (fun c _ cs' h => (mem_modifyCell _ _ _ _).trans h) cs Iff.rfl
  rw [balancedCells, mem_storageDeltas, hdebit, hcredit, setTokenBalances_cells,
    runAll_tokenCredit_cells]

/-! ## Fees -/

theorem spec_spendFee (amount : State → ℕ) (put : State → ℕ → State) (what : String) (spent : ℕ) :
    Spec (spendFee amount put what spent) (fun w => spent ≤ amount w.state)
      (World.onState fun s => if 0 < spent then put s (amount s - spent) else s) where
  ok w h := by
    have hle : ¬ amount w.state < spent := by omega
    by_cases hpos : 0 < spent
    · simp only [spendFee, outcome_bind, outcome_get, if_pos hpos, if_neg hle]
      rfl
    · simp only [spendFee, outcome_bind, outcome_get, if_neg hpos, outcome_pure]
      rfl
  err w h := by
    have hlt : amount w.state < spent := by omega
    have hpos : 0 < spent := by omega
    simp only [spendFee, outcome_bind, outcome_get, if_pos hpos, if_pos hlt, outcome_throw]
    exact ⟨_, _, rfl⟩

/-- The distributions of a diff are covered by the accumulators. -/
structure SpendingFits (d : StateDiff) (s : State) : Prop where
  gas : d.gasFeeSpent ≤ s.accumulatedGasFees
  name : d.nameFeeSpent ≤ s.accumulatedNameFees
  compute : d.computeFeeSpent ≤ s.accumulatedComputeFeesTlkd
  treasury : d.treasuryFeeSpent ≤ s.accumulatedTreasuryFees

/-- The accumulators after the distributions. -/
def spent (d : StateDiff) (s : State) : State :=
  { s with
    accumulatedGasFees := s.accumulatedGasFees - d.gasFeeSpent
    accumulatedNameFees := s.accumulatedNameFees - d.nameFeeSpent
    accumulatedComputeFeesTlkd := s.accumulatedComputeFeesTlkd - d.computeFeeSpent
    accumulatedTreasuryFees := s.accumulatedTreasuryFees - d.treasuryFeeSpent }

theorem spec_spendFees (d : StateDiff) :
    Spec (spendFees d) (fun w => SpendingFits d w.state) (World.onState (spent d)) := by
  have hput : ∀ (amount : State → ℕ) (put : State → ℕ → State) (what : String) (n : ℕ),
      (∀ s, put s (amount s) = s) →
      Spec (spendFee amount put what n) (fun w => n ≤ amount w.state)
        (World.onState fun s => put s (amount s - n)) := by
    intro amount put what n hself
    refine (spec_spendFee amount put what n).congr (fun _ => Iff.rfl) fun w _ => ?_
    simp only [World.onState]
    split_ifs with hpos
    · rfl
    · have hn : n = 0 := by omega
      rw [hn, Nat.sub_zero, hself]
  refine ((hput _ _ _ _ fun _ => rfl).seq ((hput _ _ _ _ fun _ => rfl).seq
    ((hput _ _ _ _ fun _ => rfl).seq (hput _ _ _ _ fun _ => rfl)))).congr (fun w => ?_) fun w _ => rfl
  constructor
  · rintro ⟨h1, h2, h3, h4⟩
    exact ⟨h1, h2, h3, h4⟩
  · rintro ⟨h1, h2, h3, h4⟩
    exact ⟨h1, h2, h3, h4⟩

/-! ## Oracle updates -/

/-- A slash needs its proposal. -/
def OracleFits : OracleUpdate → World → Prop
  | .slashUrlProposer pattern => fun w => pattern ∈ w.state.urlProposals
  | _ => fun _ => True

/-- What an oracle update does. -/
def oracleEffect (env : Env) : OracleUpdate → World → World
  | .slashUrlProposer pattern => fun w =>
    match w.state.urlProposals[pattern]? with
    | some proposal => slashBond env pattern proposal w
    | none => w
  | u => oracleStep env u

theorem spec_applyOracleUpdate (env : Env) (u : OracleUpdate) :
    Spec (applyOracleUpdate env u) (OracleFits u) (oracleEffect env u) := by
  cases u with
  | slashUrlProposer pattern =>
    constructor
    · intro w h
      obtain ⟨p, hp⟩ := Option.isSome_iff_exists.mp (Std.ExtTreeMap.mem_iff_isSome_getElem?.mp h)
      simp only [applyOracleUpdate, slashUrlProposerBond, outcome_bind, outcome_get, hp, outcome_modify,
        oracleEffect]
    · intro w h
      have hmem : ¬ pattern ∈ w.state.urlProposals := h
      have hp : w.state.urlProposals[pattern]? = none := by
        rwa [Std.ExtTreeMap.mem_iff_isSome_getElem?, Option.not_isSome_iff_eq_none] at hmem
      simp only [applyOracleUpdate, slashUrlProposerBond, outcome_bind, outcome_get, hp, outcome_throw]
      exact ⟨_, _, rfl⟩
  | _ => exact spec_modify _

theorem distribute_urlProposals (env : Env) (total : ℕ) (excluded : AccountId) (s : State) :
    (distributeUrlSlashEqually env total excluded s).urlProposals = s.urlProposals := by
  rw [distributeUrlSlashEqually]
  split_ifs <;> rfl

theorem mem_insert_existing {m : Map String UrlProposal} {pattern q : String} (h : pattern ∈ m)
    (p : UrlProposal) : q ∈ m.insert pattern p ↔ q ∈ m := by
  rw [Std.ExtTreeMap.mem_insert, Std.LawfulEqOrd.compare_eq_iff_eq]
  constructor
  · rintro (rfl | hq)
    · exact h
    · exact hq
  · exact Or.inr

theorem mem_slashBond (env : Env) {pattern q : String} (p : UrlProposal) {w : World}
    (h : pattern ∈ w.state.urlProposals) :
    q ∈ (slashBond env pattern p w).state.urlProposals ↔ q ∈ w.state.urlProposals := by
  rw [slashBond]
  split_ifs
  · rfl
  · simp only [distribute_urlProposals]
    exact mem_insert_existing h _

theorem mem_voteUrlProposal (env : Env) (pattern q : String) (voter : Bytes) (m n : ℕ) (w : World) :
    q ∈ (voteUrlProposal env pattern voter m n w).state.urlProposals ↔ q ∈ w.state.urlProposals := by
  rw [voteUrlProposal]
  cases hp : w.state.urlProposals[pattern]? with
  | none => rfl
  | some p =>
    have hmem : pattern ∈ w.state.urlProposals := by
      rw [Std.ExtTreeMap.mem_iff_isSome_getElem?, hp]
      rfl
    simp only
    split_ifs
    · rfl
    · exact mem_insert_existing hmem _
    · rw [mem_slashBond env _ ((mem_insert_existing hmem _).mpr hmem)]
      exact mem_insert_existing hmem _
    · exact mem_insert_existing hmem _

theorem finalize_urlProposals (env : Env) (requestId : Bytes32) (w : World) :
    (finalizeOracleRequestIfReady env requestId w).state.urlProposals = w.state.urlProposals := by
  rw [finalizeOracleRequestIfReady]
  split
  · split <;> rfl
  · rfl

theorem voteSchema_urlProposals (schemaId : Bytes32) (voter : Bytes) (m n : ℕ) (s : State) :
    (voteSchemaProposal schemaId voter m n s).urlProposals = s.urlProposals := by
  rw [voteSchemaProposal]
  split
  · rfl
  · simp only
    split_ifs <;> rfl

theorem mem_oracleEffect (env : Env) (u : OracleUpdate) (w : World) (q : String) :
    q ∈ (oracleEffect env u w).state.urlProposals ↔
      q ∈ w.state.urlProposals ∨ ∃ p, u = .addUrlProposal p ∧ p.urlPattern = q := by
  cases u with
  | addUrlProposal p =>
    show q ∈ w.state.urlProposals.insertIfNew p.urlPattern p ↔ _
    rw [Std.ExtTreeMap.mem_insertIfNew, Std.LawfulEqOrd.compare_eq_iff_eq]
    constructor
    · rintro (rfl | hq)
      · exact .inr ⟨p, rfl, rfl⟩
      · exact .inl hq
    · rintro (hq | ⟨p', hp', rfl⟩)
      · exact .inr hq
      · cases hp'
        exact .inl rfl
  | slashUrlProposer pattern =>
    simp only [oracleEffect, reduceCtorEq, false_and, exists_false, or_false]
    cases hp : w.state.urlProposals[pattern]? with
    | none => rfl
    | some p =>
      refine mem_slashBond env p ?_
      rw [Std.ExtTreeMap.mem_iff_isSome_getElem?, hp]
      rfl
  | voteUrlProposal pattern voter m n =>
    simp only [reduceCtorEq, false_and, exists_false, or_false]
    exact mem_voteUrlProposal env pattern q voter m n w
  | addReveal requestId reveal =>
    simp only [oracleEffect, oracleStep, finalize_urlProposals, reduceCtorEq, false_and, exists_false,
      or_false]
    rfl
  | voteSchemaProposal schemaId voter m n =>
    simp only [oracleEffect, oracleStep, World.onState_state, voteSchema_urlProposals, reduceCtorEq,
      false_and, exists_false, or_false]
  | _ => simp only [reduceCtorEq, false_and, exists_false, or_false]; rfl

/-- Every slash of the list is of a proposal known before the list or added before it. -/
def SlashesKnown (known : String → Prop) (us : List OracleUpdate) : Prop :=
  ∀ l pattern l', us = l ++ .slashUrlProposer pattern :: l' →
    known pattern ∨ ∃ p, .addUrlProposal p ∈ l ∧ p.urlPattern = pattern

theorem slashesKnown_cons (known : String → Prop) (u : OracleUpdate) (us : List OracleUpdate) :
    SlashesKnown known (u :: us) ↔ (∀ pattern, u = .slashUrlProposer pattern → known pattern) ∧
      SlashesKnown (fun q => known q ∨ ∃ p, u = .addUrlProposal p ∧ p.urlPattern = q) us := by
  constructor
  · intro h
    refine ⟨fun pattern hu => ?_, fun l pattern l' hl => ?_⟩
    · refine (h [] pattern us (by rw [hu]; rfl)).resolve_right ?_
      rintro ⟨p, hp, -⟩
      exact absurd hp List.not_mem_nil
    · rcases h (u :: l) pattern l' (by rw [hl]; rfl) with hk | ⟨p, hp, hpat⟩
      · exact .inl (.inl hk)
      · rcases List.mem_cons.mp hp with hpu | hpl
        · exact .inl (.inr ⟨p, hpu.symm, hpat⟩)
        · exact .inr ⟨p, hpl, hpat⟩
  · rintro ⟨hu, hus⟩ l pattern l' hl
    cases l with
    | nil =>
      rw [List.nil_append, List.cons.injEq] at hl
      exact .inl (hu pattern hl.1)
    | cons v l =>
      rw [List.cons_append, List.cons.injEq] at hl
      rcases hus l pattern l' hl.2 with (hk | ⟨p, hp, hpat⟩) | ⟨p, hp, hpat⟩
      · exact .inl hk
      · refine .inr ⟨p, ?_, hpat⟩
        rw [← hl.1, hp]
        exact List.mem_cons_self
      · exact .inr ⟨p, List.mem_cons_of_mem v hp, hpat⟩

theorem fitsAll_oracleFits (env : Env) (us : List OracleUpdate) (w : World) :
    FitsAll OracleFits (oracleEffect env) us w ↔
      SlashesKnown (fun q => q ∈ w.state.urlProposals) us := by
  induction us generalizing w with
  | nil =>
    refine ⟨fun _ l pattern l' hl => ?_, fun _ => trivial⟩
    cases l <;> cases hl
  | cons u us ih =>
    simp only [FitsAll]
    rw [ih, slashesKnown_cons]
    simp only [mem_oracleEffect]
    refine and_congr_left fun _ => ?_
    cases u <;> simp [OracleFits]

/-! ## The whole diff -/

theorem recordTransaction_accounts (d : StateDiff) (s : State) :
    (recordTransaction d s).accounts = s.accounts := by
  rw [recordTransaction]
  split_ifs <;> rfl

theorem recordTransaction_staking (d : StateDiff) (s : State) :
    (recordTransaction d s).staking = s.staking := by
  rw [recordTransaction]
  split_ifs <;> rfl

theorem recordTransaction_cells (d : StateDiff) (s : State) :
    (recordTransaction d s).cells = s.cells := by
  rw [recordTransaction]
  split_ifs <;> rfl

theorem recordTransaction_urlProposals (d : StateDiff) (s : State) :
    (recordTransaction d s).urlProposals = s.urlProposals := by
  rw [recordTransaction]
  split_ifs <;> rfl

theorem payNameFee_urlProposals (env : Env) (fee : ℕ) (s : State) :
    (payNameFee env fee s).urlProposals = s.urlProposals := by
  rw [payNameFee]
  split_ifs <;> rfl

theorem payNameFee_names (env : Env) (fee : ℕ) (s : State) :
    (payNameFee env fee s).accumulatedNameFees =
      if fee = 0 ∨ treasurySystemCellId env ∈ s.cells.cells then s.accumulatedNameFees
      else satAdd s.accumulatedNameFees fee := by
  rw [payNameFee]
  split_ifs <;> first | rfl | tauto

theorem payNameFee_gas (env : Env) (fee : ℕ) (s : State) :
    (payNameFee env fee s).accumulatedGasFees = s.accumulatedGasFees := by
  rw [payNameFee]
  split_ifs <;> rfl

theorem payNameFee_compute (env : Env) (fee : ℕ) (s : State) :
    (payNameFee env fee s).accumulatedComputeFeesTlkd = s.accumulatedComputeFeesTlkd := by
  rw [payNameFee]
  split_ifs <;> rfl

theorem payNameFee_treasury (env : Env) (fee : ℕ) (s : State) :
    (payNameFee env fee s).accumulatedTreasuryFees = s.accumulatedTreasuryFees := by
  rw [payNameFee]
  split_ifs <;> rfl

theorem recordTransaction_names (d : StateDiff) (s : State) :
    (recordTransaction d s).accumulatedNameFees = s.accumulatedNameFees := by
  rw [recordTransaction]
  split_ifs <;> rfl

/-- What `apply_diff` checks of the state before the diff. -/
structure Applicable (env : Env) (d : StateDiff) (s : State) : Prop where
  accounts : AccountsFit d s.accounts
  staking : FitsAll OpFits opEffect d.stakingUpdates s.staking
  payouts : ∀ c ∈ payouts env d.stakingUpdates s.staking, Settled d s.accounts c.1 ∧
    settledBalance d s.accounts c.1 + moved c.1 (payouts env d.stakingUpdates s.staking) < u128
  cells : FitsAll CellUpdateFits (cellEffect env) d.cellUpdates s.cells
  balances : BalancesFit env d (runAll (cellEffect env) d.cellUpdates s.cells)
    (runAll opEffect d.stakingUpdates s.staking)
  gasSpent : d.gasFeeSpent ≤ (recordTransaction d s).accumulatedGasFees
  nameSpent : d.nameFeeSpent ≤
    if d.nameFee = 0 ∨ treasurySystemCellId env ∈ (runAll (cellEffect env) d.cellUpdates s.cells).cells
    then s.accumulatedNameFees else satAdd s.accumulatedNameFees d.nameFee
  computeSpent : d.computeFeeSpent ≤ (recordTransaction d s).accumulatedComputeFeesTlkd
  treasurySpent : d.treasuryFeeSpent ≤ (recordTransaction d s).accumulatedTreasuryFees
  slashes : SlashesKnown (fun q => q ∈ s.urlProposals) d.oracleUpdates

/-- The state after the phases that come before the name fee. -/
def beforeNameFee (env : Env) (d : StateDiff) (w : World) : World :=
  (updateParams d.paramUpdates (w.onState fun s =>
    { recordTransaction d s with
      accounts := runAll payStep (payouts env d.stakingUpdates s.staking) (appliedAccounts d s.accounts)
      staking := runAll opEffect d.stakingUpdates s.staking })).onState fun s =>
    balanced env d { s with
      nfts := nftUpdates d.nftUpdates s.nfts
      cells := runAll (cellEffect env) d.cellUpdates s.cells }

/-- What `apply_diff` does when it goes through. -/
def applied (env : Env) (d : StateDiff) (w : World) : World :=
  runAll (oracleEffect env) d.oracleUpdates (applyNames env d
    ((beforeNameFee env d w).onState fun s => spent d (payNameFee env d.nameFee s)))

/-- The phases that come before the name fee. -/
def firstPhases (env : Env) (d : StateDiff) : StM Unit := do
  modifyState (recordTransaction d)
  onAccounts (applyAccounts d)
  each (stakingUpdate env) d.stakingUpdates
  modify (updateParams d.paramUpdates)
  modifyState fun s => { s with nfts := nftUpdates d.nftUpdates s.nfts }
  onCells (each (cellUpdate env) d.cellUpdates)
  applyBalances env d

/-- The name fee and the phases after it. -/
def lastPhases (env : Env) (d : StateDiff) : StM Unit := do
  modifyState (payNameFee env d.nameFee)
  spendFees d
  modify (applyNames env d)
  each (applyOracleUpdate env) d.oracleUpdates

theorem applyDiff_eq (env : Env) (d : StateDiff) :
    applyDiff env d = firstPhases env d >>= fun _ => lastPhases env d := by
  simp only [applyDiff, firstPhases, lastPhases, bind_assoc]

/-- What the phases before the name fee check. -/
structure FirstFits (env : Env) (d : StateDiff) (s : State) : Prop where
  accounts : AccountsFit d s.accounts
  staking : FitsAll OpFits opEffect d.stakingUpdates s.staking
  payouts : FitsAll PayFits payStep (payouts env d.stakingUpdates s.staking)
    (appliedAccounts d s.accounts)
  cells : FitsAll CellUpdateFits (cellEffect env) d.cellUpdates s.cells
  balances : BalancesFit env d (runAll (cellEffect env) d.cellUpdates s.cells)
    (runAll opEffect d.stakingUpdates s.staking)

theorem spec_firstPhases (env : Env) (d : StateDiff) :
    Spec (firstPhases env d) (fun w => FirstFits env d w.state) (beforeNameFee env d) := by
  refine ((spec_modifyState _).seq ((spec_onAccounts (spec_applyAccounts d)).seq
    ((spec_each (spec_stakingUpdate env) d.stakingUpdates).seq
      ((spec_modify _).seq ((spec_modifyState _).seq
        ((spec_onCells (spec_each (spec_cellUpdate env) d.cellUpdates)).seq
          (spec_applyBalances env d))))))).congr (fun w => ?_) fun w _ => ?_
  · simp only [fitsAll_updateFits, runAll_updateEffect, World.onState_state, recordTransaction_accounts,
      recordTransaction_staking, updateParams, recordTransaction_cells]
    constructor
    · rintro ⟨h1, h2, h3, h4, h5⟩
      exact ⟨trivial, h1, ⟨h2, h3⟩, trivial, trivial, h4, h5⟩
    · rintro ⟨-, h1, ⟨h2, h3⟩, -, -, h4, h5⟩
      exact ⟨h1, h2, h3, h4, h5⟩
  · simp only [runAll_updateEffect, beforeNameFee, World.onState, recordTransaction_accounts,
      recordTransaction_staking]

theorem applyNames_urlProposals (env : Env) (d : StateDiff) (w : World) :
    (applyNames env d w).state.urlProposals = w.state.urlProposals := by
  simp only [applyNames, World.onState_state, freezeAccounts, countMinted, settleNames, recordClaims,
    transferNames, renewNames, tokenAuthorityVotes, proposeNames, addTokenAuthorityProposals,
    registerNames]

theorem spent_urlProposals (d : StateDiff) (s : State) : (spent d s).urlProposals = s.urlProposals := by
  simp only [spent]

theorem spec_lastPhases (env : Env) (d : StateDiff) :
    Spec (lastPhases env d)
      (fun w => SpendingFits d (payNameFee env d.nameFee w.state) ∧
        SlashesKnown (fun q => q ∈ w.state.urlProposals) d.oracleUpdates)
      (fun w => runAll (oracleEffect env) d.oracleUpdates (applyNames env d
        (w.onState fun s => spent d (payNameFee env d.nameFee s)))) := by
  refine ((spec_modifyState _).seq ((spec_spendFees d).seq ((spec_modify _).seq
    (spec_each (spec_applyOracleUpdate env) d.oracleUpdates)))).congr (fun w => ?_) fun w _ => rfl
  rw [fitsAll_oracleFits]
  simp only [applyNames_urlProposals, World.onState_state, spent_urlProposals, payNameFee_urlProposals]
  constructor
  · rintro ⟨h1, h2⟩
    exact ⟨trivial, h1, trivial, h2⟩
  · rintro ⟨-, h1, -, h2⟩
    exact ⟨h1, h2⟩

/-- **When `apply_diff` goes through, and what it then does.** -/
theorem spec_applyDiff (env : Env) (d : StateDiff) :
    Spec (applyDiff env d) (fun w => Applicable env d w.state) (applied env d) := by
  rw [applyDiff_eq]
  refine ((spec_firstPhases env d).seq (spec_lastPhases env d)).congr (fun w => ?_) fun w _ => rfl
  have hurl : (beforeNameFee env d w).state.urlProposals = w.state.urlProposals :=
    recordTransaction_urlProposals d w.state
  have hcells : (treasurySystemCellId env ∈ (beforeNameFee env d w).state.cells.cells ↔
      treasurySystemCellId env ∈ (runAll (cellEffect env) d.cellUpdates w.state.cells).cells) := by
    rw [← recordTransaction_cells d w.state]
    exact mem_balancedCells d _ _
  have hgas : (beforeNameFee env d w).state.accumulatedGasFees =
      (recordTransaction d w.state).accumulatedGasFees := rfl
  have hname : (beforeNameFee env d w).state.accumulatedNameFees = w.state.accumulatedNameFees :=
    recordTransaction_names d w.state
  have hcomp : (beforeNameFee env d w).state.accumulatedComputeFeesTlkd =
      (recordTransaction d w.state).accumulatedComputeFeesTlkd := rfl
  have htre : (beforeNameFee env d w).state.accumulatedTreasuryFees =
      (recordTransaction d w.state).accumulatedTreasuryFees := rfl
  have hpay : (∀ c ∈ payouts env d.stakingUpdates w.state.staking, Settled d w.state.accounts c.1 ∧
      settledBalance d w.state.accounts c.1 +
        moved c.1 (payouts env d.stakingUpdates w.state.staking) < u128) ↔
      FitsAll PayFits payStep (payouts env d.stakingUpdates w.state.staking)
        (appliedAccounts d w.state.accounts) := by
    rw [fits_pay]
    simp only [isSome_appliedAccounts, balanceOf_appliedAccounts]
  rw [hurl]
  constructor
  · rintro ⟨h1, h2, h3, h4, h5, h6, h7, h8, h9, h10⟩
    refine ⟨⟨h1, h2, hpay.mp h3, h4, h5⟩, ⟨?_, ?_, ?_, ?_⟩, h10⟩
    · rw [payNameFee_gas, hgas]
      exact h6
    · rw [payNameFee_names, hname]
      simp only [hcells]
      exact h7
    · rw [payNameFee_compute, hcomp]
      exact h8
    · rw [payNameFee_treasury, htre]
      exact h9
  · rintro ⟨⟨h1, h2, h3, h4, h5⟩, ⟨h6, h7, h8, h9⟩, h10⟩
    rw [payNameFee_gas, hgas] at h6
    rw [payNameFee_names, hname] at h7
    simp only [hcells] at h7
    rw [payNameFee_compute, hcomp] at h8
    rw [payNameFee_treasury, htre] at h9
    exact ⟨h1, h2, hpay.mpr h3, h4, h5, h6, h7, h8, h9, h10⟩

end TruthLinked.Ledger.ApplySpec
