import TruthLinked.Ledger.NativeCalls
import TruthLinked.Lib.MapSum

/-! # The books of a token

The supply a token cell states, and what the accounts hold of it. `Kept` says that a state has the tokens of
an earlier one with what was held of them, apart from some tokens; each phase of `apply_diff` keeps it,
refused or not (`kept_applyDiff`). Writing a whole working map of balances changes what is held by what the
map gains (`held_storeBalances`). -/

namespace TruthLinked.Ledger.TokenBooks

open Core.Types Runtime.Cells Runtime.Types Ledger.Model Ledger.Phases Ledger.Execution Ledger.Apply
open Ledger.CellSpecs Ledger.ApplySpec Ledger.Compute Lib.Except Lib.Keyed Lib.MapSum Lib.Phase Lib.Table
open Lib.Wp

variable {f : CellAccount → CellAccount} {fee : ℕ}

/-! ## Supplies and balances -/

/-- What the configuration of a token says of its supply. -/
structure Supply where
  total : ℕ
  maxSupply : Option ℕ

/-- The cap that `TokenExecutor::mint` enforces. -/
def Supply.cap (s : Supply) : ℕ := min (s.maxSupply.getD absoluteMax) absoluteMax

/-- The supply a cell states, when it is a token. -/
def supplyOf (cell : CellAccount) : Option Supply :=
  if cell.isToken then cell.tokenConfig.map fun c => ⟨c.totalSupply, c.maxSupply⟩ else none

/-- The supply that the cell of an id states. -/
def tokenAt (cs : CellState) (c : AccountId) : Option Supply := cs.cells[c]?.bind supplyOf

/-- A balance of a token. -/
def balanceIn (cs : CellState) (c a : AccountId) : ℕ := (cs.tokenBalances[(c, a)]?).getD 0

/-- An entry of the balances, counted when it is of the token. -/
def entryOf (c : AccountId) (k : AccountId × AccountId) (n : ℕ) : ℕ := if k.1 = c then n else 0

/-- The sum of the balances of a token over all accounts. -/
def held (cs : CellState) (c : AccountId) : ℕ := mapSum (entryOf c) cs.tokenBalances

/-- Balances are there for existing cells alone. -/
def Clean (cs : CellState) : Prop := ∀ k, k ∈ cs.tokenBalances → k.1 ∈ cs.cells

section Held
variable {cs : CellState} {c b : AccountId}

theorem mem_of_tokenAt {t : Supply} (h : tokenAt cs c = some t) : c ∈ cs.cells := by
  unfold tokenAt at h
  cases hcell : cs.cells[c]? with
  | none =>
    rw [hcell] at h
    cases h
  | some cell => exact Std.ExtTreeMap.mem_iff_isSome_getElem?.mpr (by rw [hcell]; rfl)

theorem valueAt_entryOf (m : Map (AccountId × AccountId) ℕ) (c : AccountId) (k : AccountId × AccountId) :
    valueAt (entryOf c) m k = if k.1 = c then (m[k]?).getD 0 else 0 := by
  unfold valueAt entryOf
  cases m[k]? with
  | none => rw [Option.elim_none, Option.getD_none, ite_self]
  | some n => rfl

theorem balanceIn_le_held (cs : CellState) (c a : AccountId) : balanceIn cs c a ≤ held cs c := by
  have h := valueAt_le (f := entryOf c) cs.tokenBalances (c, a)
  rwa [valueAt_entryOf, if_pos rfl] at h

theorem held_insert (cs : CellState) (c a : AccountId) (n : ℕ) :
    mapSum (entryOf c) (cs.tokenBalances.insert (c, a) n) + balanceIn cs c a = held cs c + n := by
  have h := mapSum_insert (f := entryOf c) cs.tokenBalances (c, a) n
  rwa [valueAt_entryOf, if_pos rfl, entryOf, if_pos rfl] at h

theorem held_insert_of_ne {k : AccountId × AccountId} (h : k.1 ≠ c) (m : Map (AccountId × AccountId) ℕ) (n : ℕ) :
    mapSum (entryOf c) (m.insert k n) = mapSum (entryOf c) m := by
  have hsum := mapSum_insert (f := entryOf c) m k n
  rwa [valueAt_entryOf, if_neg h, entryOf, if_neg h] at hsum

theorem held_filter_of_ne (h : b ≠ c) (m : Map (AccountId × AccountId) ℕ) :
    mapSum (entryOf c) (m.filter fun k _ => k.1 ≠ b) = mapSum (entryOf c) m := by
  refine mapSum_congr fun k => ?_
  rw [valueAt_entryOf, valueAt_entryOf]
  by_cases hk : k.1 = c
  · have hkb : k.1 ≠ b := fun heq => h (heq.symm.trans hk)
    rw [if_pos hk, if_pos hk, Std.ExtTreeMap.getElem?_filter']
    cases m[k]? with
    | none => rfl
    | some n => rw [Option.filter_some, if_pos (decide_eq_true hkb)]
  · rw [if_neg hk, if_neg hk]

theorem held_of_notMem (hclean : Clean cs) (h : c ∉ cs.cells) : held cs c = 0 := by
  have hnone : mapSum (entryOf c) cs.tokenBalances =
      mapSum (entryOf c) (∅ : Map (AccountId × AccountId) ℕ) := by
    refine mapSum_congr fun k => ?_
    rw [valueAt_entryOf, valueAt_entryOf]
    by_cases hk : k.1 = c
    · have hmem : k ∉ cs.tokenBalances := fun hin => h (hk ▸ hclean k hin)
      rw [if_pos hk, if_pos hk, Std.ExtTreeMap.getElem?_eq_none hmem, Std.ExtTreeMap.getElem?_empty]
    · rw [if_neg hk, if_neg hk]
  rw [held, hnone]
  rfl

end Held

/-! ## What other transactions keep -/

/-- The tokens of `cs` are tokens of `cs₀`, with what is held of them, except for those of `X` and those that
an update of the list has removed. -/
structure Kept (X : List AccountId) (us : List CellUpdate) (cs₀ cs : CellState) : Prop where
  clean : Clean cs
  supply : ∀ c ∉ X, ∀ t, tokenAt cs c = some t → tokenAt cs₀ c = some t
  held : ∀ c ∉ X, (tokenAt cs₀ c).isSome → held cs c = held cs₀ c ∨ (.remove c ∈ us ∧ c ∉ cs.cells)

/-- The diff makes no token of a cell, and writes no balance of a token, other than those of `X`. -/
structure Spares (X : List AccountId) (cs₀ : CellState) (d : StateDiff) : Prop where
  deploys : ∀ c cell, .deploy c cell ∈ d.cellUpdates → .remove c ∉ d.cellUpdates ∧
    (c ∈ X ∨ ∀ t, supplyOf cell = some t → tokenAt cs₀ c = some t)
  credits : ∀ k ∈ d.tokenCredits, k.1 ∈ X ∨ tokenAt cs₀ k.1 = none
  updates : ∀ u ∈ d.tokenBalanceUpdates, u.1.1 ∈ X ∨ tokenAt cs₀ u.1.1 = none

section Kept
variable {X : List AccountId} {us : List CellUpdate} {cs₀ cs cs' : CellState} {c : AccountId}

theorem kept_refl (h : Clean cs) : Kept X us cs cs := ⟨h, fun _ _ _ ht => ht, fun _ _ _ => .inl rfl⟩

/-- **What is kept of a token**. -/
theorem Kept.books (h : Kept X us cs₀ cs) (hc : c ∉ X) {t : Supply} (ht : tokenAt cs c = some t) :
    tokenAt cs₀ c = some t ∧ TokenBooks.held cs c = TokenBooks.held cs₀ c := by
  have h₀ := h.supply c hc t ht
  refine ⟨h₀, (h.held c hc (by rw [h₀]; rfl)).resolve_right ?_⟩
  rintro ⟨-, hgone⟩
  exact hgone (mem_of_tokenAt ht)

theorem Kept.cells (h : Kept X us cs₀ cs) (hbal : cs'.tokenBalances = cs.tokenBalances)
    (hmem : ∀ c, c ∈ cs'.cells ↔ c ∈ cs.cells)
    (hsupply : ∀ c t, tokenAt cs' c = some t → tokenAt cs c = some t) : Kept X us cs₀ cs' := by
  refine ⟨?_, fun c hc t ht => h.supply c hc t (hsupply c t ht), fun c hc hsome => ?_⟩
  · intro k hk
    rw [hbal] at hk
    exact (hmem k.1).mpr (h.clean k hk)
  · unfold TokenBooks.held
    rw [hbal, hmem]
    exact h.held c hc hsome

theorem tokenAt_modifyCell {id : AccountId} (hf : ∀ cell, supplyOf (f cell) = supplyOf cell)
    (cs : CellState) (c : AccountId) : tokenAt (modifyCell id f cs) c = tokenAt cs c := by
  unfold tokenAt modifyCell
  rw [getElem?_modify_ite]
  by_cases hc : c = id
  · subst hc
    rw [if_pos rfl]
    cases cs.cells[c]? with
    | none => rfl
    | some cell => exact hf cell
  · rw [if_neg hc]

theorem Kept.modifyCell {id : AccountId} (h : Kept X us cs₀ cs)
    (hf : ∀ cell, supplyOf (f cell) = supplyOf cell) : Kept X us cs₀ (CellSpecs.modifyCell id f cs) :=
  h.cells rfl (fun c => mem_modifyCell id c f cs) fun c t ht => by rwa [tokenAt_modifyCell hf] at ht

theorem Kept.deploy {id : AccountId} {cell : CellAccount} (h : Kept X us cs₀ cs) (hstays : .remove id ∉ us)
    (hcell : id ∈ X ∨ ∀ t, supplyOf cell = some t → tokenAt cs₀ id = some t) :
    Kept X us cs₀ { cs with cells := cs.cells.insert id cell } := by
  have hmem : ∀ c, c ∈ cs.cells.insert id cell ↔ c = id ∨ c ∈ cs.cells := by
    intro c
    rw [Std.ExtTreeMap.mem_insert, Std.LawfulEqOrd.compare_eq_iff_eq, eq_comm]
  refine ⟨fun k hk => (hmem k.1).mpr (.inr (h.clean k hk)), fun c hc t ht => ?_, fun c hc hsome => ?_⟩
  · unfold tokenAt at ht
    rw [getElem?_insert_ite] at ht
    by_cases hid : c = id
    · subst hid
      rw [if_pos rfl] at ht
      exact hcell.resolve_left hc t ht
    · rw [if_neg hid] at ht
      exact h.supply c hc t ht
  · rcases h.held c hc hsome with hheld | ⟨hrem, hgone⟩
    · exact .inl hheld
    · refine .inr ⟨hrem, fun hin => hgone (((hmem c).mp hin).resolve_left ?_)⟩
      rintro rfl
      exact hstays hrem

theorem Kept.remove {id : AccountId} (h : Kept X us cs₀ cs) (hrem : .remove id ∈ us) :
    Kept X us cs₀ (removeCell id cs) := by
  by_cases hin : id ∈ cs.cells
  · have hmem : ∀ c, c ∈ cs.cells.erase id ↔ c ≠ id ∧ c ∈ cs.cells := by
      intro c
      rw [Std.ExtTreeMap.mem_erase, Ne, Std.LawfulEqOrd.compare_eq_iff_eq, Ne, eq_comm]
    unfold removeCell
    rw [if_pos hin]
    refine ⟨fun k hk => ?_, fun c hc t ht => ?_, fun c hc hsome => ?_⟩
    · obtain ⟨n, hn⟩ := Option.isSome_iff_exists.mp (Std.ExtTreeMap.mem_iff_isSome_getElem?.mp hk)
      rw [Std.ExtTreeMap.getElem?_filter', Option.filter_eq_some_iff] at hn
      refine (hmem k.1).mpr ⟨of_decide_eq_true hn.2, h.clean k ?_⟩
      exact Std.ExtTreeMap.mem_iff_isSome_getElem?.mpr (by rw [hn.1]; rfl)
    · unfold tokenAt at ht
      rw [getElem?_erase_ite] at ht
      by_cases hid : c = id
      · rw [if_pos hid] at ht
        cases ht
      · rw [if_neg hid] at ht
        exact h.supply c hc t ht
    · by_cases hid : c = id
      · subst hid
        exact .inr ⟨hrem, fun hc' => ((hmem c).mp hc').1 rfl⟩
      · have hheld : mapSum (entryOf c) (cs.tokenBalances.filter fun k _ => k.1 ≠ id) = TokenBooks.held cs c :=
          held_filter_of_ne (Ne.symm hid) _
        rcases h.held c hc hsome with heq | ⟨hrem', hgone⟩
        · exact .inl (hheld.trans heq)
        · exact .inr ⟨hrem', fun hc' => hgone ((hmem c).mp hc').2⟩
  · unfold removeCell
    rw [if_neg hin]
    exact h

theorem Kept.balance {k : AccountId × AccountId} {n : ℕ} (h : Kept X us cs₀ cs) (hin : k.1 ∈ cs.cells)
    (hk : k.1 ∈ X ∨ tokenAt cs₀ k.1 = none) :
    Kept X us cs₀ { cs with tokenBalances := cs.tokenBalances.insert k n } := by
  refine ⟨fun k' hk' => ?_, h.supply, fun c hc hsome => ?_⟩
  · rw [Std.ExtTreeMap.mem_insert, Std.LawfulEqOrd.compare_eq_iff_eq] at hk'
    obtain rfl | hk' := hk'
    · exact hin
    · exact h.clean k' hk'
  · have hne : k.1 ≠ c := by
      rintro rfl
      obtain hX | hnone := hk
      · exact hc hX
      · rw [hnone] at hsome
        cases hsome
    have hsame : TokenBooks.held { cs with tokenBalances := cs.tokenBalances.insert k n } c =
        TokenBooks.held cs c :=
      held_insert_of_ne hne _ n
    rw [hsame]
    exact h.held c hc hsome

end Kept

/-! ## The phases of a diff -/

section Refused
variable {cs : CellState} {id : AccountId}

theorem refused_cell {missing refused : String} {P : CellAccount → Prop} [DecidablePred P]
    (h : ¬ CellWith id P cs) :
    (outcome (do
      let cell ← getCell missing id
      if ¬ P cell then throw refused
      setCell id (f cell)) cs).2 = cs := by
  cases hcell : cs.cells[id]? with
  | none => simp only [getCell, outcome_bind, outcome_get, hcell, outcome_throw]
  | some cell =>
    have hP : ¬ P cell := fun hP => h ⟨cell, hcell, hP⟩
    simp only [getCell, outcome_bind, outcome_get, hcell, outcome_pure, hP, not_false_eq_true, if_true,
      outcome_throw]

theorem refused_anyCell {missing : String} (h : ¬ CellWith id (fun _ => True) cs) :
    (outcome (do
      let cell ← getCell missing id
      setCell id (f cell)) cs).2 = cs := by
  have hr := @refused_cell f cs id missing "" _ _ h
  simpa only [not_true, if_false] using hr

theorem refused_cellUpdate (env : Env) {u : CellUpdate} (h : ¬ CellUpdateFits u cs) :
    (outcome (cellUpdate env u) cs).2 = cs := by
  cases u with
  | deploy | remove => exact absurd trivial h
  | acceptOwnership id caller => exact refused_cell (P := fun cell => cell.pendingOwner = some caller) h
  | makeImmutable id caller => exact refused_cell (P := fun cell => cell.owner = caller) h
  | _ => exact refused_anyCell h

theorem refused_tokenCredit {c : AccountId × AccountId × ℕ}
    (h : ¬ ((tokenSlot cs (tokenKey c)).1 = true →
      tokenHeld (tokenSlot cs (tokenKey c)) + tokenAmount c < u128)) :
    (outcome (tokenCredit c) cs).2 = cs := by
  push Not at h
  have hmem : c.1 ∈ cs.cells := of_decide_eq_true h.1
  have hlt : ¬ (cs.tokenBalances[(c.1, c.2.1)]?).getD 0 + c.2.2 < u128 := Nat.not_lt.mpr h.2
  simp only [tokenCredit, outcome_bind, outcome_get, if_pos hmem, checkedAdd, if_neg hlt, outcome_throw]

theorem refused_cellCredit {c : AccountId × ℕ}
    (h : ¬ ((cellSlot cs c.1).isSome → cellHeld (cellSlot cs c.1) + c.2 < u128)) :
    (outcome (cellCredit c) cs).2 = cs := by
  push Not at h
  obtain ⟨cell, hcell⟩ := Option.isSome_iff_exists.mp h.1
  have hcell' : cs.cells[c.1]? = some cell := hcell
  have hlt : ¬ cell.balance + c.2 < u128 := by
    have hge := h.2
    rw [hcell] at hge
    exact Nat.not_lt.mpr hge
  simp only [cellCredit, outcome_bind, outcome_get, hcell', checkedAdd, if_neg hlt, outcome_throw]

theorem refused_cellDebit {c : AccountId × ℕ}
    (h : ¬ ((cellSlot cs c.1).isSome ∧ c.2 ≤ cellHeld (cellSlot cs c.1))) :
    (outcome (cellDebit c) cs).2 = cs := by
  cases hcell : cs.cells[c.1]? with
  | none => simp only [cellDebit, getCell, outcome_bind, outcome_get, hcell, outcome_throw]
  | some cell =>
    have hslot : cellSlot cs c.1 = some cell := hcell
    have hle : ¬ c.2 ≤ cell.balance := fun hle => h ⟨by rw [hslot]; rfl, by rw [hslot]; exact hle⟩
    simp only [cellDebit, getCell, outcome_bind, outcome_get, hcell, outcome_pure, checkedSub, if_neg hle,
      outcome_throw]

end Refused

section Phases
variable {env : Env} {X : List AccountId} {us : List CellUpdate} {cs₀ cs : CellState} {d : StateDiff}

theorem stays_cellUpdate {u : CellUpdate} (hu : u ∈ us)
    (hdeploy : ∀ c cell, u = .deploy c cell → .remove c ∉ us ∧
      (c ∈ X ∨ ∀ t, supplyOf cell = some t → tokenAt cs₀ c = some t)) :
    Stays (Kept X us cs₀) (cellUpdate env u) := by
  refine stays_of_spec (spec_cellUpdate env u) (fun cs hf => refused_cellUpdate env hf) fun cs _ h => ?_
  cases u with
  | deploy c cell => exact h.deploy (hdeploy c cell rfl).1 (hdeploy c cell rfl).2
  | remove c => exact h.remove hu
  | _ => exact h.modifyCell fun _ => rfl

theorem stays_tokenCredit {k : AccountId × AccountId × ℕ} (hk : k.1 ∈ X ∨ tokenAt cs₀ k.1 = none) :
    Stays (Kept X us cs₀) (tokenCredit k) := by
  refine stays_of_spec (spec_tokenCredit k) (fun cs hf => refused_tokenCredit hf) fun cs _ h => ?_
  unfold tokenCreditStep
  split_ifs with hin
  · exact h.balance hin hk
  · exact h

theorem stays_cellCredit (c : AccountId × ℕ) : Stays (Kept X us cs₀) (cellCredit c) :=
  stays_of_spec (spec_cellCredit c) (fun _ hf => refused_cellCredit hf) fun _ _ h => h.modifyCell fun _ => rfl

theorem stays_cellDebit (c : AccountId × ℕ) : Stays (Kept X us cs₀) (cellDebit c) :=
  stays_of_spec (spec_cellDebit c) (fun _ hf => refused_cellDebit hf) fun _ _ h => h.modifyCell fun _ => rfl

theorem kept_setTokenBalances {l : List ((AccountId × AccountId) × ℕ)} (h : Kept X us cs₀ cs)
    (hl : ∀ u ∈ l, u.1.1 ∈ X ∨ tokenAt cs₀ u.1.1 = none) : Kept X us cs₀ (setTokenBalances l cs) := by
  refine runAll_keeps (E := fun (u : (AccountId × AccountId) × ℕ) cs =>
    if u.1.1 ∈ cs.cells then { cs with tokenBalances := cs.tokenBalances.insert u.1 u.2 } else cs)
    (fun u hu cs h => ?_) cs h
  split_ifs with hin
  · exact h.balance hin (hl u hu)
  · exact h

theorem kept_storageDeltas (deltas : Map AccountId StorageDelta) (h : Kept X us cs₀ cs) :
    Kept X us cs₀ (storageDeltas deltas cs) := by
  have hrun : ∀ l : List (AccountId × StorageDelta), Kept X us cs₀
      { cs with
        cells := l.foldl (fun cells (u : AccountId × StorageDelta) => Std.ExtTreeMap.modify cells u.1
          fun cell => { cell with storage := applyDelta cell.storage u.2 }) cs.cells } := by
    intro l
    induction l using List.reverseRecOn with
    | nil => exact h
    | append_singleton l u ih =>
      rw [List.foldl_append]
      exact ih.modifyCell fun _ => rfl
  exact hrun deltas.toList

theorem stays_onCells {m : CellsM Unit} (h : Stays (Kept X us cs₀) m) :
    Stays (fun w => Kept X us cs₀ w.state.cells) (onCells m) := fun w hw => h w.state.cells hw

theorem stays_modifyCells {f : State → State} (h : ∀ s, Kept X us cs₀ s.cells → Kept X us cs₀ (f s).cells) :
    Stays (fun w => Kept X us cs₀ w.state.cells) (modifyState f) := stays_modify fun w hw => h w.state hw

theorem stays_of_keeps {α : Type} {m : StM α} (h : Keeps (fun w => w.state.cells) m) :
    Stays (fun w => Kept X us cs₀ w.state.cells) m := by
  refine h.stays fun w w' hsame hw => ?_
  rw [hsame]
  exact hw

theorem keeps_onStaking {α : Type} (m : Staking.State.StakingM α) :
    Keeps (fun w : World => w.state.cells) (onStaking m) := keeps_zoom _ m fun _ _ => rfl

theorem keeps_onAccounts {α : Type} (m : ExceptT String (StateM Accounts) α) :
    Keeps (fun w : World => w.state.cells) (onAccounts m) := keeps_zoom _ m fun _ _ => rfl

theorem keeps_stakingUpdate (u : StakingUpdate) :
    Keeps (fun w : World => w.state.cells) (stakingUpdate env u) := by
  cases u with
  | withdraw validator => exact (keeps_onStaking _).bind fun _ => keeps_onAccounts _
  | _ => exact keeps_onStaking _

theorem keeps_spendFee (amount : State → ℕ) {put : State → ℕ → State} (what : String) (n : ℕ)
    (h : ∀ s n, (put s n).cells = s.cells) :
    Keeps (fun w : World => w.state.cells) (spendFee amount put what n) := by
  refine keeps_get.bind fun w => ?_
  simp only
  split_ifs
  · exact (keeps_throw _).bind fun _ => keeps_modify fun w' => h w'.state _
  · exact keeps_modify fun w' => h w'.state _
  · exact keeps_pure _

theorem keeps_spendFees (d : StateDiff) : Keeps (fun w : World => w.state.cells) (spendFees d) := by
  unfold spendFees
  refine (keeps_spendFee _ _ _ ?_).bind fun _ => (keeps_spendFee _ _ _ ?_).bind fun _ =>
    (keeps_spendFee _ _ _ ?_).bind fun _ => keeps_spendFee _ _ _ ?_
  all_goals exact fun _ _ => rfl

theorem cells_oracleEffect (env : Env) (u : OracleUpdate) (w : World) :
    (oracleEffect env u w).state.cells = w.state.cells :=
  Agreement.of_beside (v := State.cells) (fun _ => rfl) (Agreement.beside_oracleEffect env u w)

theorem keeps_applyOracleUpdate (u : OracleUpdate) :
    Keeps (fun w : World => w.state.cells) (OracleUpdates.applyOracleUpdate env u) := by
  intro w
  by_cases hfits : OracleFits u w
  · rw [(spec_applyOracleUpdate env u).ok w hfits]
    exact cells_oracleEffect env u w
  · -- only a slash of a missing proposal is refused, before it writes
    cases u with
    | slashUrlProposer pattern =>
      have hnone : w.state.urlProposals[pattern]? = none := Std.ExtTreeMap.getElem?_eq_none hfits
      simp only [OracleUpdates.applyOracleUpdate, OracleUpdates.slashUrlProposerBond, outcome_bind, outcome_get,
        hnone, outcome_throw]
    | _ => exact absurd trivial hfits

theorem stays_applyBalances (h : Spares X cs₀ d) :
    Stays (fun w => Kept X us cs₀ w.state.cells) (applyBalances env d) := by
  unfold applyBalances
  refine (stays_onCells (stays_each_mem fun k hk => stays_tokenCredit (h.credits k hk))).bind fun _ => ?_
  refine (stays_modifyCells fun s hs => kept_setTokenBalances hs h.updates).bind fun _ => ?_
  refine (stays_of_keeps (keeps_onStaking _)).bind fun _ => ?_
  refine (stays_onCells (stays_each stays_cellCredit _)).bind fun _ => ?_
  refine (stays_onCells (stays_each stays_cellDebit _)).bind fun _ => ?_
  exact stays_modifyCells fun s hs => kept_storageDeltas _ hs

theorem kept_payNameFee (fee : ℕ) (s : State) (h : Kept X us cs₀ s.cells) :
    Kept X us cs₀ (payNameFee env fee s).cells := by
  unfold payNameFee
  split_ifs
  · exact h
  · show Kept X us cs₀ (CellSpecs.modifyCell (treasurySystemCellId env) _ s.cells)
    exact h.modifyCell fun _ => rfl
  · exact h

theorem kept_applyNames (hvotes : d.tokenAuthorityVotes = []) (w : World) (hw : Kept X us cs₀ w.state.cells) :
    Kept X us cs₀ (applyNames env d w).state.cells := by
  have hcells : (applyNames env d w).state.cells = setFrozen d.frozenAccountUpdates w.state.cells := by
    simp only [applyNames, World.onState_state, freezeAccounts, countMinted, settleNames,
      recordClaims, transferNames,
      renewNames, tokenAuthorityVotes, proposeNames, addTokenAuthorityProposals, registerNames, hvotes,
      List.foldl_nil]
  rw [hcells]
  exact hw.cells rfl (fun _ => Iff.rfl) fun _ _ ht => ht

/-- **What a diff keeps of the tokens it spares**, refused or not. -/
theorem kept_applyDiff (env : Env) {w : World} (hclean : Clean w.state.cells)
    (hvotes : d.tokenAuthorityVotes = []) (h : Spares X w.state.cells d) :
    Kept X d.cellUpdates w.state.cells (outcome (applyDiff env d) w).2.state.cells := by
  have hstays : Stays (fun w' => Kept X d.cellUpdates w.state.cells w'.state.cells) (applyDiff env d) := by
    unfold applyDiff
    refine (stays_of_keeps (keeps_modify fun w' => recordTransaction_cells d w'.state)).bind fun _ => ?_
    refine (stays_of_keeps (keeps_onAccounts _)).bind fun _ => ?_
    refine (stays_of_keeps (keeps_each keeps_stakingUpdate _)).bind fun _ => ?_
    refine (stays_of_keeps (keeps_modify ?_)).bind fun _ => (stays_of_keeps (keeps_modify ?_)).bind fun _ => ?_
    · exact fun _ => rfl
    · exact fun _ => rfl
    refine (stays_onCells (stays_each_mem fun u hu => stays_cellUpdate hu fun c cell he => ?_)).bind fun _ => ?_
    · exact h.deploys c cell (he ▸ hu)
    refine (stays_applyBalances h).bind fun _ => (stays_modifyCells (kept_payNameFee _)).bind fun _ => ?_
    refine (stays_of_keeps (keeps_spendFees d)).bind fun _ => ?_
    exact (stays_modify (kept_applyNames hvotes)).bind fun _ =>
      stays_of_keeps (keeps_each keeps_applyOracleUpdate _)
  exact hstays w (kept_refl hclean)

end Phases

/-! ## Writing a working map -/

/-- The sum of the balances of a working map. -/
def total (F : Map AccountId ℕ) : ℕ := mapSum (fun _ n => n) F

/-- The sum of what a function says of the accounts of a working map. -/
def sumOver (g : AccountId → ℕ) (F : Map AccountId ℕ) : ℕ := mapSum (fun a _ => g a) F

section Working
variable {cs : CellState} {c a : AccountId} {F : Map AccountId ℕ}

theorem held_setTokenBalances :
    ∀ {l : List (AccountId × ℕ)} {cs : CellState}, c ∈ cs.cells → (l.map Prod.fst).Nodup →
    held (setTokenBalances (l.map fun e => ((c, e.1), e.2)) cs) c + (l.map fun e => balanceIn cs c e.1).sum =
      held cs c + (l.map Prod.snd).sum
  | [], _, _, _ => rfl
  | (a, n) :: l, cs, hin, hnodup => by
    rw [List.map_cons, List.nodup_cons] at hnodup
    have hwrite : setTokenBalances (((a, n) :: l).map fun e => ((c, e.1), e.2)) cs =
        setTokenBalances (l.map fun e => ((c, e.1), e.2))
          { cs with tokenBalances := cs.tokenBalances.insert (c, a) n } := by
      rw [setTokenBalances, List.map_cons, List.foldl_cons]
      simp only [if_pos hin]
      rfl
    have hrest : (l.map fun e => balanceIn { cs with tokenBalances := cs.tokenBalances.insert (c, a) n } c e.1) =
        l.map fun e => balanceIn cs c e.1 := by
      refine List.map_congr_left fun e he => ?_
      have hne : (c, e.1) ≠ (c, a) := by
        intro heq
        have ha : e.1 = a := congrArg Prod.snd heq
        exact hnodup.1 (List.mem_map.mpr ⟨e, he, ha⟩)
      rw [balanceIn, balanceIn, getElem?_insert_ite, if_neg hne]
    have hfirst : held { cs with tokenBalances := cs.tokenBalances.insert (c, a) n } c + balanceIn cs c a =
        held cs c + n := held_insert cs c a n
    have ih := @held_setTokenBalances l { cs with tokenBalances := cs.tokenBalances.insert (c, a) n } hin hnodup.2
    rw [hrest] at ih
    rw [hwrite, List.map_cons, List.sum_cons, List.map_cons, List.sum_cons]
    dsimp only
    omega

theorem nodup_toList (F : Map AccountId ℕ) : (F.toList.map Prod.fst).Nodup := by
  rw [Std.ExtTreeMap.map_fst_toList_eq_keys]
  exact Std.ExtTreeMap.nodup_keys

/-- **A working map is written**: what is held changes by what the map has gained. -/
theorem held_storeBalances (hin : c ∈ cs.cells) (F : Map AccountId ℕ) :
    held (setTokenBalances (storeBalances c F) cs) c + sumOver (balanceIn cs c) F = held cs c + total F :=
  held_setTokenBalances hin (nodup_toList F)

theorem sumOver_le_held (hin : c ∈ cs.cells) (F : Map AccountId ℕ) : sumOver (balanceIn cs c) F ≤ held cs c := by
  have hzero := held_setTokenBalances (l := F.toList.map fun e => (e.1, 0)) hin (by
    rw [List.map_map]
    exact nodup_toList F)
  simp only [List.map_map] at hzero
  have hsum : (F.toList.map (Prod.snd ∘ fun e : AccountId × ℕ => (e.1, 0))).sum = 0 := by
    refine List.sum_eq_zero fun n hn => ?_
    obtain ⟨e, -, rfl⟩ := List.mem_map.mp hn
    rfl
  have hover : sumOver (balanceIn cs c) F =
      (F.toList.map ((fun e => balanceIn cs c e.1) ∘ fun e : AccountId × ℕ => (e.1, 0))).sum := rfl
  omega

theorem sumOver_insert (g : AccountId → ℕ) (ha : a ∈ F) (n : ℕ) : sumOver g (F.insert a n) = sumOver g F := by
  have h := mapSum_insert (f := fun a _ => g a) F a n
  obtain ⟨v, hv⟩ := Option.isSome_iff_exists.mp (Std.ExtTreeMap.mem_iff_isSome_getElem?.mp ha)
  rw [valueAt_of_some hv] at h
  exact Nat.add_right_cancel h

theorem total_insert (F : Map AccountId ℕ) (a : AccountId) (n : ℕ) :
    total (F.insert a n) + heldBy F a = total F + n := by
  have h := mapSum_insert (f := fun (_ : AccountId) n => n) F a n
  have hvalue : valueAt (fun (_ : AccountId) n => n) F a = heldBy F a := by
    unfold valueAt heldBy
    cases F[a]? <;> rfl
  rwa [hvalue] at h

theorem heldBy_le_total (F : Map AccountId ℕ) (a : AccountId) : heldBy F a ≤ total F := by
  have h := total_insert F a (heldBy F a)
  have hzero := total_insert F a 0
  omega

theorem getElem?_loadBalances (s : State) (c : AccountId) (accounts : List AccountId) (a : AccountId) :
    (loadBalances s c accounts)[a]? = if a ∈ accounts then some (balanceIn s.cells c a) else none := by
  induction accounts using List.reverseRecOn with
  | nil => exact Std.ExtTreeMap.getElem?_empty
  | append_singleton accounts b ih =>
    rw [loadBalances, List.foldl_append, List.foldl_cons, List.foldl_nil, getElem?_insert_ite]
    by_cases hab : a = b
    · subst hab
      rw [if_pos rfl, if_pos (List.mem_append_right _ List.mem_cons_self)]
      rfl
    · have hmem : a ∈ accounts ++ [b] ↔ a ∈ accounts := by
        rw [List.mem_append, List.mem_singleton]
        exact or_iff_left hab
      rw [if_neg hab, if_congr hmem rfl rfl]
      exact ih

theorem mem_loadBalances {s : State} {accounts : List AccountId} (h : a ∈ accounts) :
    a ∈ loadBalances s c accounts := by
  rw [Std.ExtTreeMap.mem_iff_isSome_getElem?, getElem?_loadBalances, if_pos h]
  rfl

theorem total_loadBalances (s : State) (c : AccountId) (accounts : List AccountId) :
    total (loadBalances s c accounts) = sumOver (balanceIn s.cells c) (loadBalances s c accounts) := by
  refine mapSum_congr fun a => ?_
  unfold valueAt
  rw [getElem?_loadBalances]
  split_ifs <;> rfl

end Working

/-! ## The token executor -/

section Executor
variable {cell : CellAccount} {config : TokenConfig} {sender recipient : AccountId} {amount : ℕ}
  {L F : Map AccountId ℕ} {frozen : Map (AccountId × AccountId) Bool}

theorem total_credit {a : AccountId} (h : total F + amount < u128) :
    total (F.insert a (satAdd (heldBy F a) amount)) = total F + amount := by
  have hsum := total_insert F a (satAdd (heldBy F a) amount)
  have hle := heldBy_le_total F a
  have hsat : satAdd (heldBy F a) amount = heldBy F a + amount := Nat.min_eq_left (by omega)
  rw [hsat] at hsum ⊢
  omega

theorem total_debit {a : AccountId} (h : amount ≤ heldBy F a) :
    total (F.insert a (heldBy F a - amount)) + amount = total F := by
  have hsum := total_insert F a (heldBy F a - amount)
  omega

/-- The fee of a transfer that nobody receives. -/
def lostFee (config : TokenConfig) (amount : ℕ) : ℕ :=
  if config.transferFeeRecipient.isNone then amount * config.transferFeeBps / 10000 else 0

theorem sums_fee (hf : ∀ a, config.transferFeeRecipient = some a → a ∈ F) (hlt : total F + fee < u128) :
    Ensures (ε := String)
      (match config.transferFeeRecipient with
        | some r => if 0 < fee then pure (F.insert r (satAdd (heldBy F r) fee)) else pure F
        | none => pure F)
      fun F' => (∀ g, sumOver g F' = sumOver g F) ∧
        total F' = total F + if config.transferFeeRecipient.isNone then 0 else fee := by
  cases hr : config.transferFeeRecipient with
  | none => exact ensures_pure.mpr ⟨fun _ => rfl, rfl⟩
  | some r =>
    simp only [Option.isNone_some, Bool.false_eq_true, if_false]
    split_ifs with hpos
    · exact ensures_pure.mpr ⟨fun g => sumOver_insert g (hf r hr) _, total_credit hlt⟩
    · exact ensures_pure.mpr ⟨fun _ => rfl, by omega⟩

/-- The working map after the two legs of a transfer. -/
def legs (L : Map AccountId ℕ) (sender recipient : AccountId) (amount fee : ℕ) : Map AccountId ℕ :=
  (L.insert sender (heldBy L sender - amount)).insert recipient
    (satAdd (heldBy (L.insert sender (heldBy L sender - amount)) recipient) (amount - fee))

theorem mem_legs {a : AccountId} (ha : a ∈ L) : a ∈ legs L sender recipient amount fee := by
  rw [legs, Std.ExtTreeMap.mem_insert, Std.ExtTreeMap.mem_insert]
  exact .inr (.inr ha)

theorem sumOver_legs (hs : sender ∈ L) (hr : recipient ∈ L) (g : AccountId → ℕ) :
    sumOver g (legs L sender recipient amount fee) = sumOver g L := by
  have hmem : recipient ∈ L.insert sender (heldBy L sender - amount) := by
    rw [Std.ExtTreeMap.mem_insert]
    exact .inr hr
  rw [legs, sumOver_insert g hmem, sumOver_insert g hs]

theorem total_legs (hle : amount ≤ heldBy L sender) (hfee : fee ≤ amount) (hlt : total L < u128) :
    total (legs L sender recipient amount fee) + fee = total L := by
  have hdebit := total_debit hle
  have hcredit := @total_credit (amount - fee) (L.insert sender (heldBy L sender - amount)) recipient (by omega)
  rw [legs, hcredit]
  omega

/-- **A transfer** keeps what the accounts of the map hold together, except for a fee that nobody receives. -/
theorem sums_transfer (hs : sender ∈ L) (hr : recipient ∈ L)
    (hf : ∀ a, (cell.tokenConfig.bind TokenConfig.transferFeeRecipient) = some a → a ∈ L) (hlt : total L < u128) :
    Ensures (tokenExecutorTransfer cell sender recipient amount L frozen) fun F =>
      (∀ g, sumOver g F = sumOver g L) ∧
      ∀ config, cell.tokenConfig = some config → total F + lostFee config amount = total L := by
  simp only [tokenExecutorTransfer, tokenConfigOf, ensures_bind, ensures_failIf,
    ensures_okOr, ensures_ite, ensures_pure]
  intro _ config hconfig _ _ _ hle
  rw [hconfig, Option.bind_some] at hf
  have hpaid : ∀ fee, fee = amount * config.transferFeeBps / 10000 → ¬ amount < fee →
      ∀ F', ((∀ g, sumOver g F' = sumOver g (legs L sender recipient amount fee)) ∧
        total F' = total (legs L sender recipient amount fee) +
          if config.transferFeeRecipient.isNone then 0 else fee) →
      (∀ g, sumOver g F' = sumOver g L) ∧
        ∀ config, cell.tokenConfig = some config → total F' + lostFee config amount = total L := by
    intro fee hfee hfit F' hsums
    obtain ⟨hover, htotal⟩ := hsums
    have hlegs : total (legs L sender recipient amount fee) + fee = total L :=
      total_legs (Nat.le_of_not_lt hle) (Nat.le_of_not_lt hfit) hlt
    refine ⟨fun g => (hover g).trans (sumOver_legs hs hr g), fun config' hconfig' => ?_⟩
    rw [hconfig] at hconfig'
    cases hconfig'
    unfold lostFee
    rw [← hfee, htotal]
    cases config.transferFeeRecipient.isNone with
    | true => exact hlegs
    | false => exact hlegs
  have hfits : ∀ fee, ¬ amount < fee → total (legs L sender recipient amount fee) + fee < u128 := by
    intro fee hfit
    rw [total_legs (Nat.le_of_not_lt hle) (Nat.le_of_not_lt hfit) hlt]
    exact hlt
  refine ⟨fun hbps hfit => ?_, fun _ _ hfit => ?_⟩
  · refine (sums_fee (F := legs L sender recipient amount 0) (fun a ha => mem_legs (hf a ha))
      (hfits 0 hfit)).mono ?_
    exact hpaid 0 (by rw [hbps, Nat.mul_zero, Nat.zero_div]) hfit
  · refine (sums_fee (F := legs L sender recipient amount (amount * config.transferFeeBps / 10000))
      (fun a ha => mem_legs (hf a ha)) (hfits _ hfit)).mono ?_
    exact hpaid _ rfl hfit

theorem checkedAdd_eq_some {a b n : ℕ} (h : checkedAdd a b = some n) : n = a + b ∧ a + b < u128 := by
  unfold checkedAdd at h
  split_ifs at h with hlt
  cases h
  exact ⟨rfl, hlt⟩

/-- **A mint** raises the supply and what the accounts of the map hold by the same amount, within the cap. -/
theorem sums_mint (hr : recipient ∈ L) (hle : ∀ t, supplyOf cell = some t → total L ≤ t.total) :
    Ensures (tokenExecutorMint cell sender recipient amount L) fun r =>
      (∀ g, sumOver g r.2 = sumOver g L) ∧ total r.2 = total L + amount ∧
      ∃ t, supplyOf cell = some t ∧ supplyOf r.1 = some ⟨t.total + amount, t.maxSupply⟩ ∧
        t.total + amount < u128 ∧ t.total + amount ≤ t.cap := by
  simp only [tokenExecutorMint, tokenConfigOf, ensures_bind, ensures_failIf, ensures_okOr]
  intro htoken config hconfig
  have htok : cell.isToken = true := by simpa using htoken
  have hsupply : supplyOf cell = some ⟨config.totalSupply, config.maxSupply⟩ := by
    rw [supplyOf, if_pos htok, hconfig]
    rfl
  cases config.mintAuthority with
  | none => exact ensures_throw.mpr trivial
  | some authority =>
    simp only [ensures_bind, ensures_failIf, ensures_okOr, ensures_pure]
    intro _ n hn hcap
    obtain ⟨rfl, hlt⟩ := checkedAdd_eq_some hn
    have hfits : total L + amount < u128 := lt_of_le_of_lt (Nat.add_le_add_right (hle _ hsupply) _) hlt
    refine ⟨fun g => sumOver_insert g hr _, total_credit hfits, _, hsupply, ?_, hlt, Nat.le_of_not_lt hcap⟩
    rw [supplyOf, if_pos htok]
    rfl

/-- **A burn** lowers both by the same amount. -/
theorem sums_burn (hs : sender ∈ L) :
    Ensures (tokenExecutorBurn cell sender amount L) fun r =>
      (∀ g, sumOver g r.2 = sumOver g L) ∧ total r.2 + amount = total L ∧
      ∀ t, supplyOf r.1 = some t → ∃ t', supplyOf cell = some t' ∧ t.total + amount = t'.total ∧
        t.maxSupply = t'.maxSupply := by
  simp only [tokenExecutorBurn, ensures_bind, ensures_failIf]
  intro htoken hle
  have htok : cell.isToken = true := by simpa using htoken
  have hsums := fun g => sumOver_insert g hs (heldBy L sender - amount)
  have htotal := total_debit (Nat.le_of_not_lt hle)
  cases hconfig : cell.tokenConfig with
  | none =>
    refine ensures_pure.mpr ⟨hsums, htotal, fun t ht => ?_⟩
    rw [supplyOf, if_pos htok, hconfig] at ht
    cases ht
  | some config =>
    simp only [ensures_bind, ensures_okOr, ensures_pure]
    intro n hn
    have hn' : n + amount = config.totalSupply := by
      unfold checkedSub at hn
      split_ifs at hn
      cases hn
      omega
    refine ⟨hsums, htotal, fun t ht => ⟨⟨config.totalSupply, config.maxSupply⟩, ?_, ?_⟩⟩
    · rw [supplyOf, if_pos htok, hconfig]
      rfl
    · rw [supplyOf, if_pos htok] at ht
      cases ht
      exact ⟨hn', rfl⟩

end Executor

end TruthLinked.Ledger.TokenBooks
