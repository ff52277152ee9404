import TruthLinked.Ledger.StakingSpecs

/-! # When the cell phases go through

A cell update needs its cell, and the two ownership updates also the right caller. Credits of cells and
tokens skip what does not exist; debits need the cell and its balance. -/

namespace TruthLinked.Ledger.CellSpecs

open Core.Types Runtime.Cells Runtime.Types Staking.State Staking.Specs Ledger.Model Ledger.Phases
open Ledger.AccountSpecs Lib.Phase Lib.Keyed Lib.Wp

/-! ## Cell updates -/

/-- Changes one cell, if it exists. -/
def modifyCell (cellId : AccountId) (f : CellAccount → CellAccount) (cs : CellState) : CellState :=
  { cs with cells := cs.cells.modify cellId f }

/-- The cell exists and satisfies `P`. -/
def CellWith (cellId : AccountId) (P : CellAccount → Prop) (cs : CellState) : Prop :=
  ∃ cell, slot cs.cells cellId = some cell ∧ P cell

theorem setCell_eq_modifyCell {cs : CellState} {cellId : AccountId} {cell : CellAccount}
    (h : slot cs.cells cellId = some cell) (f : CellAccount → CellAccount) :
    ({ cs with cells := cs.cells.insert cellId (f cell) } : CellState) = modifyCell cellId f cs := by
  rw [modifyCell]
  congr 1
  refine slot_ext fun a => ?_
  rw [slot_insert, slot_modify]
  split_ifs with ha
  · subst ha
    rw [h]
    rfl
  · rfl

theorem spec_cell (missing refused : String) (cellId : AccountId) (P : CellAccount → Prop)
    [DecidablePred P] (f : CellAccount → CellAccount) :
    Spec (do
      let cell ← getCell missing cellId
      if ¬ P cell then throw refused
      setCell cellId (f cell)) (CellWith cellId P) (modifyCell cellId f) where
  ok cs h := by
    obtain ⟨cell, hcell, hP⟩ := h
    have hget : outcome (getCell missing cellId) cs = (.ok cell, cs) := by
      have hcell' : cs.cells[cellId]? = some cell := hcell
      simp only [getCell, outcome_bind, outcome_get, hcell', outcome_pure]
    simp only [outcome_bind, hget, hP, not_true, if_false]
    exact Prod.ext rfl (setCell_eq_modifyCell hcell f)
  err cs h := by
    cases hcell : cs.cells[cellId]? with
    | none =>
      simp only [getCell, outcome_bind, outcome_get, hcell, outcome_throw]
      exact ⟨_, _, rfl⟩
    | some cell =>
      have hP : ¬ P cell := fun hP => h ⟨cell, hcell, hP⟩
      simp only [getCell, outcome_bind, outcome_get, hcell, outcome_pure, hP, not_false_eq_true, if_true,
        outcome_throw]
      exact ⟨_, _, rfl⟩

theorem spec_anyCell (missing : String) (cellId : AccountId) (f : CellAccount → CellAccount) :
    Spec (do
      let cell ← getCell missing cellId
      setCell cellId (f cell)) (CellWith cellId fun _ => True) (modifyCell cellId f) := by
  have h := spec_cell missing "" cellId (fun _ => True) f
  simpa only [not_true, if_false] using h

/-- When a cell update goes through. -/
def CellUpdateFits : CellUpdate → CellState → Prop
  | .deploy _ _ | .remove _ => fun _ => True
  | .storageChange cellId _ | .balanceChange cellId _ | .transferOwnership cellId _ =>
    CellWith cellId fun _ => True
  | .upgrade cellId _ _ _ _ _ _ _ => CellWith cellId fun _ => True
  | .acceptOwnership cellId caller => CellWith cellId fun cell => cell.pendingOwner = some caller
  | .makeImmutable cellId caller => CellWith cellId fun cell => cell.owner = caller

/-- What a cell update does. -/
def cellEffect (env : Env) : CellUpdate → CellState → CellState
  | .deploy cellId cell => fun cs => { cs with cells := cs.cells.insert cellId cell }
  | .storageChange cellId storageDiff => modifyCell cellId fun cell =>
    { cell with storage := changeStorage cell.storage storageDiff }
  | .balanceChange cellId newBalance => modifyCell cellId fun cell => { cell with balance := newBalance }
  | .remove cellId => removeCell cellId
  | .upgrade cellId newBytecode reads writes keys specs schemas timestamp =>
    modifyCell cellId fun cell =>
      { cell with
        bytecode := newBytecode
        declaredReads := reads
        declaredWrites := writes
        commutativeKeys := keys
        storageKeySpecs := specs
        oracleSchemaIds := schemas
        manifestHash := computeManifestHash env newBytecode reads writes keys schemas
        manifestVersion := satAdd64 cell.manifestVersion 1
        upgradedAt := some timestamp }
  | .transferOwnership cellId newOwner => modifyCell cellId fun cell =>
    { cell with pendingOwner := some newOwner }
  | .acceptOwnership cellId caller => modifyCell cellId fun cell =>
    { cell with owner := caller, pendingOwner := none }
  | .makeImmutable cellId _ => modifyCell cellId fun cell =>
    { cell with isImmutable := true, pendingOwner := none }

theorem spec_cellUpdate (env : Env) (u : CellUpdate) :
    Spec (cellUpdate env u) (CellUpdateFits u) (cellEffect env u) := by
  cases u with
  | deploy cellId cell => exact spec_modify _
  | remove cellId => exact spec_modify _
  | storageChange cellId storageDiff => exact spec_anyCell _ cellId _
  | balanceChange cellId newBalance => exact spec_anyCell _ cellId _
  | upgrade cellId newBytecode reads writes keys specs schemas timestamp =>
    exact spec_anyCell _ cellId fun cell =>
      { cell with
        bytecode := newBytecode
        declaredReads := reads
        declaredWrites := writes
        commutativeKeys := keys
        storageKeySpecs := specs
        oracleSchemaIds := schemas
        manifestHash := computeManifestHash env newBytecode reads writes keys schemas
        manifestVersion := satAdd64 cell.manifestVersion 1
        upgradedAt := some timestamp }
  | transferOwnership cellId newOwner => exact spec_anyCell _ cellId _
  | acceptOwnership cellId caller =>
    exact spec_cell "Cell not found" "Not pending owner" cellId
      (fun cell => cell.pendingOwner = some caller) _
  | makeImmutable cellId caller =>
    exact spec_cell "Cell not found" "Not cell owner" cellId (fun cell => cell.owner = caller) _

theorem local_changeStorage : Local (S := Map Bytes32 Bytes32) slot Prod.fst
    (fun (c : Bytes32 × Option Bytes32) m => match c.2 with
      | some v => m.insert c.1 v
      | none => m.erase c.1) (fun c _ => c.2) := by
  constructor
  · rintro ⟨key, _ | v⟩ m
    · exact (slot_erase _ _ _).trans (if_pos rfl)
    · exact (slot_insert _ _ _ _).trans (if_pos rfl)
  · rintro ⟨key, _ | v⟩ m a ha
    · exact (slot_erase _ _ _).trans (if_neg ha)
    · exact (slot_insert _ _ _ _).trans (if_neg ha)

theorem slot_changeStorage (storage : Map Bytes32 Bytes32) (diff : Map Bytes32 (Option Bytes32))
    (k : Bytes32) :
    slot (changeStorage storage diff) k = (slot diff k).getD (slot storage k) := by
  refine (local_changeStorage.run k diff.toList storage).trans ?_
  rw [pick_toList]
  cases slot diff k <;> rfl

/-! ## Token and cell balances -/

/-- The balance of a cell; a missing cell has none. -/
def cellHeld (o : Option CellAccount) : ℕ := o.elim 0 CellAccount.balance

/-- A cell as the slot of the cell map. -/
def cellSlot (cs : CellState) (a : AccountId) : Option CellAccount := slot cs.cells a

theorem local_modifyCell {ι : Type} (key : ι → AccountId) (f : ι → CellAccount → CellAccount) :
    Local cellSlot key (fun c => modifyCell (key c) (f c)) (fun c o => Option.map (f c) o) where
  at_key c cs := by rw [cellSlot, modifyCell, slot_modify, if_pos rfl]; rfl
  off_key c cs a h := by rw [cellSlot, modifyCell, slot_modify, if_neg h]; rfl

/-- A cell with more. -/
def addBalance (n : ℕ) (cell : CellAccount) : CellAccount := { cell with balance := cell.balance + n }

/-- A cell with less. -/
def subBalance (n : ℕ) (cell : CellAccount) : CellAccount := { cell with balance := cell.balance - n }

/-- A cell credit. -/
def cellCreditStep (c : AccountId × ℕ) : CellState → CellState := modifyCell c.1 (addBalance c.2)

/-- A cell debit. -/
def cellDebitStep (c : AccountId × ℕ) : CellState → CellState := modifyCell c.1 (subBalance c.2)

theorem local_cellCredit :
    Local cellSlot Prod.fst cellCreditStep (fun c o => Option.map (addBalance c.2) o) :=
  local_modifyCell Prod.fst fun c => addBalance c.2

theorem local_cellDebit :
    Local cellSlot Prod.fst cellDebitStep (fun c o => Option.map (subBalance c.2) o) :=
  local_modifyCell Prod.fst fun c => subBalance c.2

theorem spec_cellCredit (c : AccountId × ℕ) :
    Spec (cellCredit c)
      (fun cs => (cellSlot cs c.1).isSome → cellHeld (cellSlot cs c.1) + c.2 < u128)
      (cellCreditStep c) where
  ok cs h := by
    cases hcell : cs.cells[c.1]? with
    | none =>
      simp only [cellCredit, outcome_bind, outcome_get, hcell, outcome_pure]
      have hcells : cs.cells.modify c.1 (addBalance c.2) = cs.cells := by
        refine slot_ext fun a => ?_
        rw [slot_modify]
        split_ifs with ha
        · subst ha
          rw [slot, hcell]
          rfl
        · rfl
      rw [cellCreditStep, modifyCell, hcells]
    | some cell =>
      have hcell' : slot cs.cells c.1 = some cell := hcell
      have hlt : cell.balance + c.2 < u128 := by
        rw [cellSlot, hcell'] at h
        exact h rfl
      simp only [cellCredit, outcome_bind, outcome_get, hcell, checkedAdd, if_pos hlt]
      exact Prod.ext rfl (setCell_eq_modifyCell hcell' (addBalance c.2))
  err cs h := by
    push Not at h
    obtain ⟨hsome, hge⟩ := h
    obtain ⟨cell, hcell⟩ := Option.isSome_iff_exists.mp hsome
    have hcell' : cs.cells[c.1]? = some cell := hcell
    have hlt : ¬ cell.balance + c.2 < u128 := by
      rw [hcell] at hge
      exact Nat.not_lt.mpr hge
    simp only [cellCredit, outcome_bind, outcome_get, hcell', checkedAdd, if_neg hlt]
    exact ⟨_, _, rfl⟩

theorem spec_cellDebit (c : AccountId × ℕ) :
    Spec (cellDebit c)
      (fun cs => (cellSlot cs c.1).isSome ∧ c.2 ≤ cellHeld (cellSlot cs c.1)) (cellDebitStep c) where
  ok cs h := by
    obtain ⟨cell, hcell⟩ := Option.isSome_iff_exists.mp h.1
    have hcell' : cs.cells[c.1]? = some cell := hcell
    have hle : c.2 ≤ cell.balance := by
      have hle := h.2
      rw [hcell] at hle
      exact hle
    simp only [cellDebit, getCell, outcome_bind, outcome_get, hcell', outcome_pure, checkedSub,
      if_pos hle]
    exact Prod.ext rfl (setCell_eq_modifyCell hcell (subBalance c.2))
  err cs h := by
    cases hcell : cs.cells[c.1]? with
    | none =>
      simp only [cellDebit, getCell, outcome_bind, outcome_get, hcell, outcome_throw]
      exact ⟨_, _, rfl⟩
    | some cell =>
      have hle : ¬ c.2 ≤ cell.balance := by
        intro hle
        refine h ⟨?_, ?_⟩
        · rw [cellSlot, slot, hcell]
          rfl
        · rw [cellSlot, slot, hcell]
          exact hle
      simp only [cellDebit, getCell, outcome_bind, outcome_get, hcell, outcome_pure, checkedSub,
        if_neg hle]
      exact ⟨_, _, rfl⟩

/-- The credits of existing cells stay in range. -/
def CellCreditsFit (l : List (AccountId × ℕ)) (cs : CellState) : Prop :=
  ∀ c ∈ l, (cellSlot cs c.1).isSome → cellHeld (cellSlot cs c.1) + moved c.1 l < u128

theorem spec_cellCredits (l : List (AccountId × ℕ)) :
    Spec (each cellCredit l) (CellCreditsFit l) (runAll cellCreditStep l) := by
  refine (spec_each spec_cellCredit l).congr (fun cs => ?_) fun _ _ => rfl
  refine (local_cellCredit.fits_add_imp (O := fun o : Option CellAccount => o.isSome = true)
    (w := cellHeld) (n := Prod.snd) u128 (fun c o h => ?_) (fun c o => ?_) l cs).symm
  · obtain ⟨cell, rfl⟩ := Option.isSome_iff_exists.mp h
    rfl
  · simp

/-- The debited cells exist and cover their debits. -/
def CellDebitsFit (l : List (AccountId × ℕ)) (cs : CellState) : Prop :=
  ∀ c ∈ l, (cellSlot cs c.1).isSome ∧ moved c.1 l ≤ cellHeld (cellSlot cs c.1)

theorem spec_cellDebits (l : List (AccountId × ℕ)) :
    Spec (each cellDebit l) (CellDebitsFit l) (runAll cellDebitStep l) := by
  refine (spec_each spec_cellDebit l).congr (fun cs => ?_) fun _ _ => rfl
  refine (local_cellDebit.fits_sub (O := fun o : Option CellAccount => o.isSome = true)
    (w := cellHeld) (n := Prod.snd) (fun c o => ?_) (fun c o h => ?_) l cs).symm
  · cases o with
    | none => simp [cellHeld]
    | some cell => rfl
  · simpa using h

theorem cellHeld_credited (l : List (AccountId × ℕ)) (cs : CellState) (a : AccountId)
    (h : (cellSlot cs a).isSome) :
    cellHeld (cellSlot (runAll cellCreditStep l cs) a) = cellHeld (cellSlot cs a) + moved a l := by
  rw [local_cellCredit.run]
  refine amt_runAll_add (O := fun o : Option CellAccount => o.isSome = true) (fun c o ho => ?_)
    (fun c o ho => ?_) _ h
  · obtain ⟨cell, rfl⟩ := Option.isSome_iff_exists.mp ho
    rfl
  · simpa using ho

theorem isSome_credited_cell (l : List (AccountId × ℕ)) (cs : CellState) (a : AccountId) :
    (cellSlot (runAll cellCreditStep l cs) a).isSome ↔ (cellSlot cs a).isSome := by
  rw [local_cellCredit.run]
  exact isSome_runAll_map _ _

/-- A token balance with the flag that its cell exists. -/
def tokenSlot (cs : CellState) (k : AccountId × AccountId) : Bool × Option ℕ :=
  (decide (k.1 ∈ cs.cells), slot cs.tokenBalances k)

/-- The token balance of an account; none is zero. -/
def tokenHeld (x : Bool × Option ℕ) : ℕ := x.2.getD 0

/-- The balance a token credit changes. -/
def tokenKey (c : AccountId × AccountId × ℕ) : AccountId × AccountId := (c.1, c.2.1)

/-- The amount of a token credit. -/
def tokenAmount (c : AccountId × AccountId × ℕ) : ℕ := c.2.2

/-- A token credit. -/
def tokenCreditStep (c : AccountId × AccountId × ℕ) (cs : CellState) : CellState :=
  if c.1 ∈ cs.cells then
    { cs with
      tokenBalances := cs.tokenBalances.insert (tokenKey c)
        (tokenHeld (tokenSlot cs (tokenKey c)) + tokenAmount c) }
  else cs

theorem spec_tokenCredit (c : AccountId × AccountId × ℕ) :
    Spec (tokenCredit c)
      (fun cs => (tokenSlot cs (tokenKey c)).1 = true →
        tokenHeld (tokenSlot cs (tokenKey c)) + tokenAmount c < u128) (tokenCreditStep c) where
  ok cs h := by
    by_cases hmem : c.1 ∈ cs.cells
    · have hlt : (cs.tokenBalances[(c.1, c.2.1)]?).getD 0 + c.2.2 < u128 := h (decide_eq_true hmem)
      simp only [tokenCredit, outcome_bind, outcome_get, if_pos hmem, checkedAdd, if_pos hlt, outcome_set,
        tokenCreditStep]
      rfl
    · simp only [tokenCredit, outcome_bind, outcome_get, if_neg hmem, outcome_pure, tokenCreditStep]
  err cs h := by
    push Not at h
    have hmem : c.1 ∈ cs.cells := of_decide_eq_true h.1
    have hlt : ¬ (cs.tokenBalances[(c.1, c.2.1)]?).getD 0 + c.2.2 < u128 := Nat.not_lt.mpr h.2
    simp only [tokenCredit, outcome_bind, outcome_get, if_pos hmem, checkedAdd, if_neg hlt, outcome_throw]
    exact ⟨_, _, rfl⟩

theorem tokenCreditStep_cells (c : AccountId × AccountId × ℕ) (cs : CellState) :
    (tokenCreditStep c cs).cells = cs.cells := by
  rw [tokenCreditStep]
  split_ifs <;> rfl

theorem local_tokenCredit :
    Local tokenSlot tokenKey tokenCreditStep
      (fun c x => if x.1 then (x.1, some (tokenHeld x + tokenAmount c)) else x) where
  at_key c cs := by
    refine Prod.ext ?_ ?_
    · show decide (_ ∈ (tokenCreditStep c cs).cells) = _
      rw [tokenCreditStep_cells]
      split_ifs <;> rfl
    · by_cases hmem : c.1 ∈ cs.cells
      · have hflag : (tokenSlot cs (tokenKey c)).1 = true := decide_eq_true hmem
        rw [if_pos hflag, tokenCreditStep, if_pos hmem]
        show slot (cs.tokenBalances.insert _ _) _ = _
        rw [slot_insert, if_pos rfl]
      · have hflag : ¬ (tokenSlot cs (tokenKey c)).1 = true := fun hflag =>
          hmem (of_decide_eq_true hflag)
        rw [if_neg hflag, tokenCreditStep, if_neg hmem]
  off_key c cs k h := by
    refine Prod.ext ?_ ?_
    · show decide (_ ∈ (tokenCreditStep c cs).cells) = _
      rw [tokenCreditStep_cells]
      rfl
    · rw [tokenCreditStep]
      split_ifs
      · show slot (cs.tokenBalances.insert _ _) _ = _
        rw [slot_insert, if_neg h]
        rfl
      · rfl

/-- The token credits of existing cells stay in range. -/
def TokenCreditsFit (l : List (AccountId × AccountId × ℕ)) (cs : CellState) : Prop :=
  ∀ c ∈ l, c.1 ∈ cs.cells →
    (slot cs.tokenBalances (tokenKey c)).getD 0 + total tokenKey tokenAmount (tokenKey c) l < u128

theorem spec_tokenCredits (l : List (AccountId × AccountId × ℕ)) :
    Spec (each tokenCredit l) (TokenCreditsFit l) (runAll tokenCreditStep l) := by
  refine (spec_each spec_tokenCredit l).congr (fun cs => ?_) fun _ _ => rfl
  have h := local_tokenCredit.fits_add_imp (O := fun x : Bool × Option ℕ => x.1 = true)
    (w := tokenHeld) (n := tokenAmount) u128 (fun c x hx => ?_) (fun c x => ?_) l cs
  · rw [h]
    simp only [TokenCreditsFit, tokenSlot, tokenHeld, decide_eq_true_eq]
    rfl
  · rw [if_pos hx]
    rfl
  · split_ifs <;> simp_all

theorem runAll_tokenCredit_cells (l : List (AccountId × AccountId × ℕ)) (cs : CellState) :
    (runAll tokenCreditStep l cs).cells = cs.cells :=
  runAll_frame (v := CellState.cells) tokenCreditStep_cells l cs

theorem setTokenBalances_cells (updates : List ((AccountId × AccountId) × ℕ)) (cs : CellState) :
    (setTokenBalances updates cs).cells = cs.cells := by
  rw [setTokenBalances]
  induction updates generalizing cs with
  | nil => rfl
  | cons u us ih =>
    rw [List.foldl_cons, ih]
    obtain ⟨key, balance⟩ := u
    simp only
    split_ifs <;> rfl

/-! ## Rewards -/

/-- The validator a reward goes to. -/
def rewarded (env : Env) (a : AccountId) (st : StakingState) : Option (Bytes × ValidatorStake) :=
  st.validators.toList.find? fun (pk, _) => decide (accountIdFromPubkey env pk = a)

/-- The stake of the rewarded validator stays in range. -/
def RewardFits (env : Env) (c : AccountId × ℕ) (st : StakingState) : Prop :=
  ∀ pk v, rewarded env c.1 st = some (pk, v) → v.activeStake + c.2 % u64 < u64

/-- What a reward does. -/
def rewardStep (env : Env) (c : AccountId × ℕ) (st : StakingState) : StakingState :=
  match rewarded env c.1 st with
  | none => st
  | some (pk, v) => StakingState.put pk { v with activeStake := v.activeStake + c.2 % u64 } st

theorem spec_stakingReward (env : Env) (c : AccountId × ℕ) :
    Spec (stakingReward env c) (RewardFits env c) (rewardStep env c) where
  ok st h := by
    cases hr : rewarded env c.1 st with
    | none =>
      rw [rewarded] at hr
      simp only [stakingReward, outcome_bind, outcome_get, hr, outcome_pure, rewardStep, rewarded]
    | some x =>
      have hlt := h x.1 x.2 hr
      have hle : ¬ u64 ≤ x.2.activeStake + c.2 % u64 := by omega
      rw [rewarded] at hr
      simp only [stakingReward, outcome_bind, outcome_get, hr, if_neg hle, outcome_setValidator,
        rewardStep, rewarded]
  err st h := by
    simp only [RewardFits, not_forall] at h
    obtain ⟨pk, v, hr, hlt⟩ := h
    have hle : u64 ≤ v.activeStake + c.2 % u64 := by omega
    rw [rewarded] at hr
    simp only [stakingReward, outcome_bind, outcome_get, hr, if_pos hle, outcome_throw]
    exact ⟨_, _, rfl⟩

end TruthLinked.Ledger.CellSpecs
