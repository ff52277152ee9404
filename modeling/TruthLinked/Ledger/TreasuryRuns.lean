import TruthLinked.Ledger.NestedCalls
import TruthLinked.Ledger.Treasury

/-! # Payments of the treasury

A call of the treasury cell by a transaction: what it leaves of the cell and of the balances (`turn`). The
recipient is credited and the proposal marked before the cell is debited, so an execution that the cell cannot
pay has paid all the same. In a run in which the cell covers what it pays, nobody votes on a namespace and the
comparisons are exact, every payment is due and made once (`payments_due`). -/

namespace TruthLinked.Ledger.TreasuryRuns

open Core.Types Runtime.Cells Runtime.Types Governance.Types Staking.State Ledger.Model Ledger.Phases
open Ledger.Execution Ledger.SystemCells Ledger.Slots Ledger.Mcp Ledger.Apply Ledger.AccountSpecs Ledger.ApplySpec
open Ledger.ComputeCells Ledger.ComputeSpec Ledger.CellSpecs Ledger.Demand Ledger.Coverage Ledger.NativeCalls
open Ledger.Executor Ledger.Treasury Lib.Keyed Lib.Phase Lib.Run Lib.Wp
open Ledger.ParamVotes (Vote Ballot Call Lawful)

/-! ## One transaction -/

/-- The call data of an intent. -/
def calldataOf : TransactionIntent → Bytes
  | .callCell _ calldata _ _ => calldata
  | _ => []

/-- The value an intent sends along. -/
def valueOf : TransactionIntent → ℕ
  | .callCell _ _ value _ => value
  | _ => 0

/-- The call that a transaction makes. -/
def callOf (w : World) (tx : Transaction) : Call :=
  ⟨tx.sender, calldataOf tx.intent, w.state.staking.currentHeight % u64, w.state, Nat.mod_lt _ (by decide)⟩

/-- A transaction that calls the treasury cell. -/
def CallsTreasury (env : Env) (tx : Transaction) : Prop :=
  ∃ calldata value gasLimit, tx.intent = .callCell (treasurySystemCellId env) calldata value gasLimit

/-- The treasury cell. -/
def vault (env : Env) (w : World) : Option CellAccount := w.state.cells.cells[treasurySystemCellId env]?

/-- The balances after some payments: what the sender has spent on fees is gone, what is paid has arrived. -/
def Moves (w w' : World) (sender : AccountId) (pays : List (AccountId × ℕ)) : Prop :=
  ∃ spent, ∀ a, balanceOf w'.state.accounts a + (if a = sender then spent else 0) =
    balanceOf w.state.accounts a + moved a pays

section Turn
variable {env : Env} {w : World} {tx : Transaction} {account : AccountRecord} {f : Fees} {cell : CellAccount}
  {gas value : ℕ} {writes : List (Label × Option Bytes32)} {pays : List (AccountId × ℕ)}

/-- The diff of a call of the treasury cell. -/
def spendDiff (env : Env) (tx : Transaction) (value : ℕ) (account : AccountRecord) (gas : ℕ)
    (writes : List (Label × Option Bytes32)) (pays : List (AccountId × ℕ)) : StateDiff :=
  callDiff env tx (treasurySystemCellId env) value account (spendResult env gas writes pays)

theorem spendDiff_lists :
    (spendDiff env tx value account gas writes pays).nativeTransfers = pays ∧
      (spendDiff env tx value account gas writes pays).nativeDebits = [] ∧
      (spendDiff env tx value account gas writes pays).computeEscrowCredits = [] ∧
      (spendDiff env tx value account gas writes pays).stakingUpdates = [] ∧
      (spendDiff env tx value account gas writes pays).oracleUpdates = [] ∧
      ∀ a u, slot (spendDiff env tx value account gas writes pays).accountUpdates a = some u → a = tx.sender := by
  have hnone : ∀ a, slot (∅ : Map AccountId AccountRecord) a = none := fun _ => Std.ExtTreeMap.getElem?_empty
  by_cases hv : 0 < value
  · simp only [spendDiff, callDiff, spendResult, plainResult, ok, payValue, hv, ↓reduceIte]
    refine ⟨rfl, rfl, rfl, rfl, rfl, fun a u hu => ?_⟩
    by_contra hne
    rw [Compute.putRecord, slot_insert, if_neg (Ne.symm hne)] at hu
    exact absurd ((hnone a).symm.trans hu) (by simp)
  · simp only [spendDiff, callDiff, spendResult, plainResult, ok, payValue, hv, ↓reduceIte]
    refine ⟨rfl, rfl, rfl, rfl, rfl, fun a u hu => ?_⟩
    exact absurd ((hnone a).symm.trans hu) (by simp)

/-- **The balances** after the diff of a call, once it is applied. -/
theorem moves_applied (hacc : w.state.accounts[tx.sender]? = some account)
    (happ : Applicable env (withFees tx.sender account f (spendDiff env tx value account gas writes pays))
      w.state) :
    Moves w (applied env (withFees tx.sender account f (spendDiff env tx value account gas writes pays)) w)
      tx.sender pays := by
  obtain ⟨htransfers, hdebits, hcredits, hstaking, horacle, hrecords⟩ :=
    @spendDiff_lists env tx account gas value writes pays
  set d := withFees tx.sender account f (spendDiff env tx value account gas writes pays) with hd
  have htransfers' : d.nativeTransfers = pays := htransfers
  have hdebits' : d.nativeDebits = entry tx.sender f.debit := by
    rw [hd]
    exact (congrArg (· ++ entry tx.sender f.debit) hdebits).trans (List.nil_append _)
  have hstaking' : d.stakingUpdates = [] := hstaking
  have horacle' : d.oracleUpdates = [] := horacle
  have haccounts : (applied env d w).state.accounts = appliedAccounts d w.state.accounts :=
    Agreement.accounts_applied env hstaking' horacle' w
  refine ⟨f.debit, fun a => ?_⟩
  rw [haccounts, balanceOf_appliedAccounts, settledBalance, htransfers', hdebits']
  have hspent : moved a (entry tx.sender f.debit) = if a = tx.sender then f.debit else 0 := by
    split_ifs with ha
    · rw [ha, moved_entry]
    · refine Agreement.moved_unpaid fun hpaid => ha ?_
      obtain ⟨c, hc, hca⟩ := hpaid
      rw [entry] at hc
      split_ifs at hc
      · rw [← hca, List.mem_singleton.mp hc]
      · cases hc
  rw [← hspent]
  by_cases hsome : ((slot w.state.accounts a).isSome ∨ Paid a pays) ∨ Paid a d.computeEscrowCredits
  · -- the debit of the sender is covered
    have hcovered : moved a (entry tx.sender f.debit) ≤ balanceOf w.state.accounts a + moved a pays := by
      by_cases ha : a = tx.sender ∧ 0 < f.debit
      · have h := (happ.accounts.debits (tx.sender, f.debit) (by
          rw [hdebits', entry, if_pos ha.2]
          exact List.mem_singleton_self _)).2
        rw [hdebits', htransfers'] at h
        rw [ha.1]
        exact h
      · rw [hspent]
        split_ifs with heq
        · have hzero := not_and.mp ha heq
          omega
        · exact Nat.zero_le _
    rw [if_pos hsome]
    omega
  · have hnoacc : ¬ (slot w.state.accounts a).isSome := fun h => hsome (.inl (.inl h))
    have hunpaid : ¬ Paid a pays := fun h => hsome (.inl (.inr h))
    have ha : a ≠ tx.sender := by
      intro heq
      refine hnoacc ?_
      rw [heq, slot, hacc]
      rfl
    have hrecord : slot d.accountUpdates a = none := by
      rw [hd, withFees_accountUpdates, slot_insert, if_neg (Ne.symm ha)]
      by_contra hne
      obtain ⟨u, hu⟩ := Option.ne_none_iff_exists'.mp hne
      exact ha (hrecords a u hu)
    rw [if_neg hsome, balanceOf, hrecord, Agreement.moved_unpaid hunpaid, balanceOf,
      Option.not_isSome_iff_eq_none.mp hnoacc, hspent, if_neg ha]

/-- A payment that does not fit stops `apply_diff` before anything else. -/
theorem refused_credit {d : StateDiff} {r : AccountId} {n : ℕ} (h : d.nativeTransfers = [(r, n)])
    (hover : ¬ balanceOf w.state.accounts r + n < u128) :
    (outcome (applyDiff env d) w).1.isOk = false ∧ (outcome (applyDiff env d) w).2.state.cells = w.state.cells ∧
      ∀ a, balanceOf (outcome (applyDiff env d) w).2.state.accounts a = balanceOf w.state.accounts a := by
  obtain ⟨m, hm⟩ : ∃ m, (recordTransaction d w.state).accounts = m := ⟨_, rfl⟩
  have hm' : m = w.state.accounts := hm ▸ recordTransaction_accounts d w.state
  have hadd : checkedAdd (balancePocket.amount ((m[r]?).getD (AccountRecord.fresh []))) n = none := by
    rw [checkedAdd, held_getD, if_neg]
    rw [hm']
    exact hover
  have hcredit : outcome (credit balancePocket (fun _ => []) "Recipient balance overflow" (r, n)) m =
      (.error "Recipient balance overflow", m.insert r ((m[r]?).getD (AccountRecord.fresh []))) := by
    simp only [credit, outcome_bind, outcome_get, outcome_modify, hadd, outcome_throw]
  have haccounts : outcome (applyAccounts d) m =
      (.error "Recipient balance overflow", m.insert r ((m[r]?).getD (AccountRecord.fresh []))) := by
    rw [applyAccounts, outcome_bind, nativeTransfers, h, each, outcome_bind, hcredit]
  have hdiff : outcome (applyDiff env d) w = (.error "Recipient balance overflow",
      (w.onState (recordTransaction d)).onState fun s =>
        { s with accounts := m.insert r ((m[r]?).getD (AccountRecord.fresh [])) }) := by
    rw [applyDiff, outcome_bind, modifyState, outcome_modify]
    dsimp only
    rw [outcome_bind, onAccounts, outcome_zoom, World.onState_state, hm, haccounts]
  rw [hdiff]
  refine ⟨rfl, recordTransaction_cells d w.state, fun a => ?_⟩
  show balanceOf (m.insert r ((m[r]?).getD (AccountRecord.fresh []))) a = _
  rw [balanceOf, slot_insert, balanceOf, ← hm']
  split_ifs with ha
  · subst ha
    exact held_getD balancePocket m[r]? []
  · rfl

/-- What a call of the treasury cell leaves. -/
inductive Turned (env : Env) (w : World) (tx : Transaction) (cell : CellAccount) (value : ℕ) : Prop
  /-- Nothing but fees that were counted. -/
  | refused (hok : (runTransaction env tx w).1.isOk = false)
      (hcells : (runTransaction env tx w).2.state.cells = w.state.cells)
      (hmoves : ∀ a, balanceOf (runTransaction env tx w).2.state.accounts a = balanceOf w.state.accounts a)
  /-- What the handler says. -/
  | accepted (hok : (runTransaction env tx w).1.isOk = true) (writes : List (Label × Option Bytes32))
      (pays : List (AccountId × ℕ)) (heffect : Effect env cell.storage (callOf w tx) writes pays)
      (hcovered : (pays.map Prod.snd).sum ≤ cell.balance + value)
      (hvault : vault env (runTransaction env tx w).2 =
        some { cell with
          storage := write (Label.slot env) cell.storage writes
          balance := cell.balance + value - (pays.map Prod.snd).sum })
      (hmoves : Moves w (runTransaction env tx w).2 tx.sender pays)
  /-- A payment that the recipient can take and the cell cannot make. -/
  | uncovered (writes : List (Label × Option Bytes32)) (pays : List (AccountId × ℕ))
      (heffect : Effect env cell.storage (callOf w tx) writes pays) (hreceives : Receives w.state.accounts pays)
      (huncovered : cell.balance + value < (pays.map Prod.snd).sum)

theorem covers_of_balance {d : StateDiff}
    (hcalls : tx.intent = .callCell (treasurySystemCellId env) (calldataOf tx.intent) value gas)
    (hsystem : isSystemCell env (treasurySystemCellId env) = true) (hcell : vault env w = some cell)
    (hvalue : 0 < value → cell.balance + value < u128) (hparts : Parts env w tx account d f)
    (htransfers : d.nativeTransfers = pays) (hstaking : d.stakingUpdates = [])
    (hreceives : Receives w.state.accounts pays) (hcovered : (pays.map Prod.snd).sum ≤ cell.balance + value) :
    Covers env w tx := by
  have hasked : askedOf d = askedSystemCall env w (treasurySystemCellId env) (calldataOf tx.intent) value := by
    rw [hparts.asked, hcalls, Demand.asked, if_pos hsystem]
    rfl
  obtain ⟨e1, -, -, -, e5, -⟩ := lists_of_asked hasked
  rw [htransfers] at e1
  rw [hstaking] at e5
  have hheld : cellHeld (cellSlot w.state.cells (treasurySystemCellId env)) = cell.balance := by
    rw [cellSlot, show slot w.state.cells.cells (treasurySystemCellId env) = some cell from hcell]
    rfl
  rw [Covers, hcalls]
  intro _
  refine ⟨?_, ?_, ?_, fun hv => ?_, ?_⟩
  · rw [← e1]
    exact hreceives
  · rw [← e5]
    trivial
  · rw [← e5]
    exact fun c hc => absurd hc List.not_mem_nil
  · rw [hheld]
    exact hvalue hv
  · rw [← e1, hheld]
    exact hcovered

/-- **A call of the treasury cell.** -/
theorem turned (hcalls : tx.intent = .callCell (treasurySystemCellId env) (calldataOf tx.intent) value gas)
    (hids : treasurySystemCellId env ≠ stakingSystemCellId env ∧
      treasurySystemCellId env ≠ governanceSystemCellId env)
    (hheight : w.state.staking.currentHeight < u64) (hcell : vault env w = some cell)
    (hvalue : 0 < value → cell.balance + value < u128) : Turned env w tx cell value := by
  have hsystem : isSystemCell env (treasurySystemCellId env) = true := by
    rw [isSystemCell, decide_eq_true_eq]
    simp
  cases hd : computeTransactionDiffSkipSig env w tx with
  | error e =>
    have hsame : runTransaction env tx w = (.error e, w) := by rw [runTransaction, hd]
    exact .refused (by rw [hsame]; rfl) (by rw [hsame]) fun a => by rw [hsame]
  | ok d =>
    obtain ⟨account, d₁, f, hcheck, h1, hfees, rfl⟩ := compute_eq_ok hd
    have hacc := (checkTransaction_eq_ok hcheck).2.1
    have hparts : Parts env w tx account d₁ f := ⟨hacc, h1, hfees⟩
    rw [hcalls] at h1
    obtain ⟨r, hr, rfl⟩ := computeIntent_native hsystem hcell h1
    rw [SystemCells.handler, if_neg hids.1, if_neg hids.2, if_pos rfl] at hr
    have hanswer : treasury env (callOf w tx).calldata (callOf w tx).caller cell.storage (callOf w tx).height
        (callOf w tx).ledger = .ok r := by
      have hsame : (callOf w tx).height = w.state.staking.currentHeight := Nat.mod_eq_of_lt hheight
      rw [hsame]
      exact hr
    obtain ⟨writes, pays, heffect, hnil, gas', rfl⟩ := treasury_effect hanswer
    have htransfers : (spendDiff env tx value account gas' writes pays).nativeTransfers = pays :=
      spendDiff_lists.1
    have hdiff : callDiff env tx (treasurySystemCellId env) value account (spendResult env gas' writes pays) =
        spendDiff env tx value account gas' writes pays := rfl
    rw [hdiff] at hd hparts
    by_cases hreceives : Receives w.state.accounts pays
    · by_cases hcovered : (pays.map Prod.snd).sum ≤ cell.balance + value
      · have hcovers := covers_of_balance hcalls hsystem hcell hvalue hparts htransfers spendDiff_lists.2.2.2.1
          hreceives hcovered
        have hrun := Runs.runTransaction_applied hd hcovers
        have hnil' : (writes.map fun w => (w.1.slot env, w.2)) ≠ [] := by simp [hnil]
        have hdebits : (pays.map fun p => (treasurySystemCellId env, p.2)) = [] ∨
            ∃ amount, (pays.map fun p => (treasurySystemCellId env, p.2)) =
              [(treasurySystemCellId env, amount)] := by
          obtain rfl | ⟨p, rfl⟩ := heffect.payee
          · exact .inl rfl
          · exact .inr ⟨p.2, rfl⟩
        have hsum : ((pays.map fun p => (treasurySystemCellId env, p.2)).map Prod.snd).sum =
            (pays.map Prod.snd).sum := by
          rw [List.map_map]
          rfl
        refine .accepted (by rw [hrun]; rfl) writes pays heffect hcovered ?_ ?_
        · have hmoved := cellSlot_moved env value (writes.map fun w => (w.1.slot env, w.2)) hcell hdebits
          rw [hsum] at hmoved
          rw [hrun, vault, ← hdiff, spendResult, cells_callDiff hnil']
          exact hmoved
        · have hok := (apply_succeeds_iff hd).mpr hcovers
          have happ := ((spec_applyDiff env _).of_ok (Prod.ext hok rfl)).1
          rw [hrun]
          exact moves_applied hacc happ
      · exact .uncovered writes pays heffect hreceives (not_le.mp hcovered)
    · obtain rfl | ⟨⟨recipient, amount⟩, rfl⟩ := heffect.payee
      · exact absurd (fun c hc => absurd hc List.not_mem_nil) hreceives
      · have hover : ¬ balanceOf w.state.accounts recipient + amount < u128 := by
          intro hfits
          refine hreceives fun c hc => ?_
          rw [List.mem_singleton.mp hc, moved_single]
          exact hfits
        have htransfers' : (withFees tx.sender account f
            (spendDiff env tx value account gas' writes [(recipient, amount)])).nativeTransfers =
              [(recipient, amount)] := htransfers
        obtain ⟨hfails, hcells, hmoves⟩ := refused_credit htransfers' hover
        have hworld := Runs.runTransaction_world hd
        refine .refused ?_ (by rw [hworld, hcells]) fun a => by rw [hworld, hmoves]
        by_contra hok
        have hcovers := Runs.covers_of_isOk hd (by simpa using hok)
        rw [(apply_succeeds_iff hd).mpr hcovers] at hfails
        cases hfails

end Turn

/-! ## The observer -/

/-- The world, the proposals as they were noted, and the ids of those that were paid, in order. -/
structure Watched where
  world : World
  spends : Bytes32 → Option Spend
  payments : List Bytes32

/-- What happens: a transaction, or something else that leaves another world. -/
inductive Event where
  | transaction (tx : Transaction)
  | elsewhere (w : World)

/-- One event. -/
def watch (env : Env) (s : Watched) : Event → Watched
  | .transaction tx =>
    let r := runTransaction env tx s.world
    let c := callOf s.world tx
    if r.1.isOk then
      { world := r.2
        spends := Function.update s.spends c.key (note env c (s.spends c.key))
        payments := if readSel c.calldata = sel "execute_spend" then s.payments ++ [c.key] else s.payments }
    else { s with world := r.2 }
  | .elsewhere w => { s with world := w }

/-- The transactions call the treasury cell, with ids and voters among those listed; elsewhere its storage
stays. -/
def Governs (env : Env) (ids : List Bytes32) (voters : List AccountId) (s : Watched) : Event → Prop
  | .transaction tx => CallsTreasury env tx ∧ s.world.state.staking.currentHeight < u64 ∧
      (∀ id, read32 (calldataOf tx.intent) 4 = some id → id ∈ ids) ∧
      (readSel (calldataOf tx.intent) = sel "vote_spend" → tx.sender ∈ voters)
  | .elsewhere w => (vault env w).map CellAccount.storage = (vault env s.world).map CellAccount.storage

/-- A transaction sends a value that fits into the balance of the cell; it does not vote on a proposal whose
id is a namespace; and if it executes a proposal whose recipient can take the amount, the cell covers the
amount, and the votes, the active stake and the height are in the range where the comparisons are exact. -/
structure Careful (env : Env) (s : Watched) (tx : Transaction) (cell : CellAccount) : Prop where
  value : 0 < valueOf tx.intent → cell.balance + valueOf tx.intent < u128
  vote : readSel (calldataOf tx.intent) = sel "vote_spend" → (s.spends (callOf s.world tx).key).isSome →
    ¬ Reserved env (callOf s.world tx).key
  covered : readSel (calldataOf tx.intent) = sel "execute_spend" →
    ∀ b, s.spends (callOf s.world tx).key = some b →
    balanceOf s.world.state.accounts b.ballot.value + b.amount < u128 →
      b.amount ≤ cell.balance + valueOf tx.intent
  exact : readSel (calldataOf tx.intent) = sel "execute_spend" → ∀ b, s.spends (callOf s.world tx).key = some b →
    2 * b.ballot.stake < u64 ∧ ParamVotes.activeStake s.world.state.staking < u64 ∧
      s.world.state.staking.currentHeight + 1 < u64

/-- Every transaction is careful. -/
def Prudent (env : Env) (s : Watched) (e : Event) : Prop :=
  ∀ tx cell, e = .transaction tx → vault env s.world = some cell → Careful env s tx cell

/-- The balance of the treasury cell. -/
def heldIn (env : Env) (w : World) : ℕ := cellHeld (vault env w)

/-- An execution that goes through is of a lawful proposal that was not paid before, and pays its amount from
the cell to its recipient; no other transaction pays anything; and the key of an accepted vote is no slot of a
proposal. -/
def Due (env : Env) (ids : List Bytes32) (s : Watched) (e : Event) : Prop :=
  ∀ tx, e = .transaction tx →
    ((runTransaction env tx s.world).1.isOk = true → readSel (calldataOf tx.intent) = sel "execute_spend" →
      ∃ b, s.spends (callOf s.world tx).key = some b ∧ (callOf s.world tx).key ∉ s.payments ∧
        Lawful (callOf s.world tx) b.ballot ∧
        Moves s.world (runTransaction env tx s.world).2 tx.sender [(b.ballot.value, b.amount)] ∧
        heldIn env (runTransaction env tx s.world).2 + b.amount = heldIn env s.world + valueOf tx.intent) ∧
    (((runTransaction env tx s.world).1.isOk = false ∨ readSel (calldataOf tx.intent) ≠ sel "execute_spend") →
      Moves s.world (runTransaction env tx s.world).2 tx.sender [] ∧
        heldIn env s.world ≤ heldIn env (runTransaction env tx s.world).2) ∧
    ((runTransaction env tx s.world).1.isOk = true → readSel (calldataOf tx.intent) = sel "vote_spend" →
      ∀ f, ∀ id ∈ ids, (Label.vote (callOf s.world tx).key tx.sender).slot env ≠ (Label.field f id).slot env)

/-- The storage shows the proposals noted, and those that were paid are marked and noted once. -/
structure Reflects (env : Env) (ids : List Bytes32) (voters : List AccountId) (s : Watched) : Prop where
  shown : ∃ cell, vault env s.world = some cell ∧ ∀ id ∈ ids, Shown env ids voters cell.storage id (s.spends id)
  paid : ∀ id ∈ s.payments, ∃ b, s.spends id = some b ∧ b.ballot.executed = true
  once : s.payments.Nodup

section Runs
variable {env : Env} {ids : List Bytes32} {voters : List AccountId} {s : Watched} {e : Event} {tx : Transaction}

/-- What a transaction of the run does, with the proposals shown in the cell. -/
inductive Passed (env : Env) (ids : List Bytes32) (voters : List AccountId) (s : Watched) (tx : Transaction)
    (cell : CellAccount) : Prop
  | refused (hok : (runTransaction env tx s.world).1.isOk = false)
      (hcells : (runTransaction env tx s.world).2.state.cells = s.world.state.cells)
      (hmoves : ∀ a, balanceOf (runTransaction env tx s.world).2.state.accounts a =
        balanceOf s.world.state.accounts a)
  | accepted (hok : (runTransaction env tx s.world).1.isOk = true) (writes : List (Label × Option Bytes32))
      (pays : List (AccountId × ℕ)) (heffect : Effect env cell.storage (callOf s.world tx) writes pays)
      (hid : (callOf s.world tx).key ∈ ids)
      (hvote : readSel (calldataOf tx.intent) = sel "vote_spend" →
        ¬ Reserved env (callOf s.world tx).key ∧ tx.sender ∈ voters)
      (hcovered : (pays.map Prod.snd).sum ≤ cell.balance + valueOf tx.intent)
      (hvault : vault env (runTransaction env tx s.world).2 =
        some { cell with
          storage := write (Label.slot env) cell.storage writes
          balance := cell.balance + valueOf tx.intent - (pays.map Prod.snd).sum })
      (hmoves : Moves s.world (runTransaction env tx s.world).2 tx.sender pays)

theorem passed (hids : treasurySystemCellId env ≠ stakingSystemCellId env ∧
      treasurySystemCellId env ≠ governanceSystemCellId env) (hgov : Governs env ids voters s (.transaction tx))
    {cell : CellAccount} (hcell : vault env s.world = some cell)
    (hshown : ∀ id ∈ ids, Shown env ids voters cell.storage id (s.spends id)) (hcareful : Careful env s tx cell) :
    Passed env ids voters s tx cell := by
  obtain ⟨⟨calldata, value, gas, hintent⟩, hheight, hlisted, hvoter⟩ := hgov
  have hcalls : tx.intent = .callCell (treasurySystemCellId env) (calldataOf tx.intent)
      (valueOf tx.intent) gas := by
    rw [hintent]
    rfl
  cases turned hcalls hids hheight hcell hcareful.value with
  | refused hok hcells hmoves => exact .refused hok hcells hmoves
  | accepted hok writes pays heffect hcovered hvault hmoves =>
    have hid := hlisted _ heffect.read
    refine .accepted hok writes pays heffect hid (fun hsel => ⟨?_, hvoter hsel⟩) hcovered hvault hmoves
    obtain ⟨b, hb, -⟩ := (hshown _ hid).open (heffect.voting hsel)
    exact hcareful.vote hsel (by rw [hb]; rfl)
  | uncovered writes pays heffect hreceives huncovered =>
    have hid := hlisted _ heffect.read
    have hsel := heffect.paying (by rintro rfl; exact absurd huncovered (Nat.not_lt_zero _))
    obtain ⟨b, hb, -, -, -, rfl⟩ := heffect.executing hsel (hshown _ hid)
    have hfits := hreceives _ (List.mem_singleton_self _)
    rw [moved_single] at hfits
    exact absurd (hcareful.covered hsel b hb hfits) (by simpa using huncovered)

theorem paid_note {storage : Storage} {c : Call} {writes : List (Label × Option Bytes32)}
    {pays : List (AccountId × ℕ)}
    (hpaid : ∀ id ∈ s.payments, ∃ b, s.spends id = some b ∧ b.ballot.executed = true)
    (heffect : Effect env storage c writes pays) (hshown : Shown env ids voters storage c.key (s.spends c.key)) :
    ∀ id ∈ (if readSel c.calldata = sel "execute_spend" then s.payments ++ [c.key] else s.payments),
      ∃ b, Function.update s.spends c.key (note env c (s.spends c.key)) id = some b ∧
        b.ballot.executed = true := by
  obtain ⟨hvp, hep, hev⟩ := sel_distinct
  intro id hmem
  by_cases hne : id = c.key
  · subst hne
    rw [Function.update_self]
    by_cases hsel : readSel c.calldata = sel "execute_spend"
    · obtain ⟨b, hb, -⟩ := heffect.executing hsel hshown
      rw [note, if_neg (hsel ▸ hep), if_neg (hsel ▸ hev), hb]
      exact ⟨_, rfl, rfl⟩
    · rw [if_neg hsel] at hmem
      obtain ⟨b, hb, hdone⟩ := hpaid _ hmem
      cases heffect with
      | propose hsel' hid hfresh =>
        -- there is a proposal, so another one is refused
        exact absurd (hshown.spend b hb).present hfresh
      | vote hsel' hid hpresent hfresh =>
        rw [note, if_neg (hsel' ▸ hvp), if_pos hsel', hb]
        exact ⟨_, rfl, hdone⟩
      | execute hsel' hid hpasses => exact absurd hsel' hsel
  · rw [Function.update_of_ne hne]
    refine hpaid id ?_
    split_ifs at hmem
    · exact (List.mem_append.mp hmem).resolve_right fun h => hne (List.mem_singleton.mp h)
    · exact hmem

theorem Moves.of_same {w w' : World} {sender : AccountId}
    (h : ∀ a, balanceOf w'.state.accounts a = balanceOf w.state.accounts a) : Moves w w' sender [] := by
  refine ⟨0, fun a => ?_⟩
  rw [h a, ite_self]
  rfl

/-- **One event** keeps the storage right. -/
theorem reflects_watch (hcol : NoCollision env ids voters)
    (hids : treasurySystemCellId env ≠ stakingSystemCellId env ∧
      treasurySystemCellId env ≠ governanceSystemCellId env) (h : Reflects env ids voters s)
    (hgov : Governs env ids voters s e) (hprudent : Prudent env s e) :
    Reflects env ids voters (watch env s e) := by
  obtain ⟨cell, hcell, hshown⟩ := h.shown
  cases e with
  | elsewhere w =>
    have hsame : (vault env w).map CellAccount.storage = some cell.storage := by
      have hsame := hgov
      rw [Governs, hcell] at hsame
      exact hsame
    obtain ⟨cell', hcell', hstorage⟩ := Option.map_eq_some_iff.mp hsame
    exact ⟨⟨cell', hcell', fun id hid => hstorage ▸ hshown id hid⟩, h.paid, h.once⟩
  | transaction tx =>
    cases passed hids hgov hcell hshown (hprudent tx cell rfl hcell) with
    | refused hok hcells hmoves =>
      simp only [watch, hok, Bool.false_eq_true, if_false]
      have hcell' : vault env (runTransaction env tx s.world).2 = some cell := by rw [vault, hcells]; exact hcell
      exact ⟨⟨cell, hcell', hshown⟩, h.paid, h.once⟩
    | accepted hok writes pays heffect hid hvote hcovered hvault hmoves =>
      have hw : Written (Label.slot env) (labels env ids voters) writes cell.storage
          (write (Label.slot env) cell.storage writes) :=
        written_write (slot_injOn hcol) (heffect.labels hid hvote) cell.storage
      simp only [watch, hok, if_true]
      refine ⟨⟨_, hvault, fun id hmem => ?_⟩, ?_, ?_⟩
      · dsimp only
        by_cases hne : id = (callOf s.world tx).key
        · subst hne
          rw [Function.update_self]
          exact shown_note heffect hw hid hvote (hshown _ hid)
        · rw [Function.update_of_ne hne]
          exact (hshown id hmem).frame hmem (heffect.others hw hne)
      · exact paid_note h.paid heffect (hshown _ hid)
      · split_ifs with hsel
        · obtain ⟨b, hb, hunpaid, -⟩ := heffect.executing hsel (hshown _ hid)
          refine h.once.append (List.nodup_singleton _) (List.disjoint_singleton.mpr fun hmem => ?_)
          obtain ⟨b', hb', hpaid⟩ := h.paid _ hmem
          obtain rfl := Option.some.inj (hb.symm.trans hb')
          rw [hunpaid] at hpaid
          cases hpaid
        · exact h.once

/-- **One event** pays what is due. -/
theorem due_watch (hcol : NoCollision env ids voters)
    (hids : treasurySystemCellId env ≠ stakingSystemCellId env ∧
      treasurySystemCellId env ≠ governanceSystemCellId env) (h : Reflects env ids voters s)
    (hgov : Governs env ids voters s e) (hprudent : Prudent env s e) : Due env ids s e := by
  obtain ⟨cell, hcell, hshown⟩ := h.shown
  intro tx he
  subst he
  have hcareful := hprudent tx cell rfl hcell
  have hheld : heldIn env s.world = cell.balance := by rw [heldIn, hcell]; rfl
  cases passed hids hgov hcell hshown hcareful with
  | refused hok hcells hmoves =>
    have hcell' : vault env (runTransaction env tx s.world).2 = some cell := by rw [vault, hcells]; exact hcell
    refine ⟨fun hok' => ?_, fun _ => ⟨.of_same hmoves, ?_⟩, fun hok' => ?_⟩
    · rw [hok] at hok'
      cases hok'
    · rw [hheld, heldIn, hcell']
      exact le_rfl
    · rw [hok] at hok'
      cases hok'
  | accepted hok writes pays heffect hid hvote hcovered hvault hmoves =>
    have hheld' : heldIn env (runTransaction env tx s.world).2 =
        cell.balance + valueOf tx.intent - (pays.map Prod.snd).sum := by
      rw [heldIn, hvault]
      rfl
    refine ⟨fun _ hsel => ?_, fun hother => ?_, fun _ hsel f id hmem heq => ?_⟩
    · obtain ⟨b, hb, hunpaid, hshows, hpasses, rfl⟩ := heffect.executing hsel (hshown _ hid)
      obtain ⟨hvotes, hactive, hheight⟩ := hcareful.exact hsel b hb
      have hsame : (callOf s.world tx).height = s.world.state.staking.currentHeight := Nat.mod_eq_of_lt hgov.2.1
      have hlawful := lawful_of_passes hshows hpasses hunpaid hvotes hactive (by rw [hsame]; exact hheight)
      refine ⟨b, hb, fun hmem => ?_, hlawful, hmoves, ?_⟩
      · obtain ⟨b', hb', hpaid⟩ := h.paid _ hmem
        obtain rfl := Option.some.inj (hb.symm.trans hb')
        rw [hunpaid] at hpaid
        cases hpaid
      · have hamount : b.amount ≤ cell.balance + valueOf tx.intent := by simpa using hcovered
        rw [hheld', hheld]
        simp only [List.map_cons, List.map_nil, List.sum_cons, List.sum_nil, Nat.add_zero]
        omega
    · have hnone : pays = [] := by
        by_contra hne
        rcases hother with hok' | hsel
        · rw [hok] at hok'
          cases hok'
        · exact hsel (heffect.paying hne)
      subst hnone
      refine ⟨hmoves, ?_⟩
      rw [hheld', hheld]
      simp only [List.map_nil, List.sum_nil]
      omega
    · obtain ⟨hreserved, hvoter⟩ := hvote hsel
      have hvoted : Label.vote (callOf s.world tx).key tx.sender ∈ labels env ids voters :=
        ⟨hid, hreserved, hvoter⟩
      have hfield : Label.field f id ∈ labels env ids voters := hmem
      cases slot_injOn hcol hvoted hfield heq

end Runs

/-- **Payments are due.** In every run of calls of the fresh treasury cell, with arbitrary other changes in
between that leave its storage alone, in which the calls are careful: every payment is of a lawful proposal,
with its recipient and its amount, which the cell loses, and no proposal is paid twice. -/
theorem payments_due (env : Env) (ids : List Bytes32) (voters : List AccountId) (w : World) (cell : CellAccount)
    (es : List Event) (hcol : NoCollision env ids voters)
    (hids : treasurySystemCellId env ≠ stakingSystemCellId env ∧
      treasurySystemCellId env ≠ governanceSystemCellId env)
    (hcell : vault env w = some cell) (hfresh : cell.storage = ∅)
    (hgov : Along (watch env) (Governs env ids voters) ⟨w, fun _ => none, []⟩ es)
    (hprudent : Along (watch env) (Prudent env) ⟨w, fun _ => none, []⟩ es) :
    (run (watch env) ⟨w, fun _ => none, []⟩ es).payments.Nodup ∧
      Along (watch env) (Due env ids) ⟨w, fun _ => none, []⟩ es := by
  have hreflects : Reflects env ids voters ⟨w, fun _ => none, []⟩ := by
    refine ⟨⟨cell, hcell, fun id _ => ⟨fun _ => ?_, nofun⟩⟩, nofun, List.nodup_nil⟩
    rw [flagIn, hfresh, flagAt_of_none Std.ExtTreeMap.getElem?_empty]
    decide
  have hboth := hgov.and hprudent
  have hstep : ∀ s e, Reflects env ids voters s → Governs env ids voters s e ∧ Prudent env s e →
      Reflects env ids voters (watch env s e) := fun s e h he => reflects_watch hcol hids h he.1 he.2
  exact ⟨(hboth.invariant hstep hreflects).once,
    hboth.imp_of_invariant hstep (fun s e h he => due_watch hcol hids h he.1 he.2) hreflects⟩

/-! ## Samples

The hash functions and the serialised form are those of the node on the inputs that occur here. -/

/-- What is hashed for the slots of some ids and the votes of some accounts. -/
def inputs (env : Env) (ids : List Bytes32) (voters : List AccountId) : List Bytes :=
  fields.map Field.name ++ ids.flatMap (fun id => fields.map fun f => (Label.field f id).input env) ++
    ids.flatMap fun id => if id ∈ fields.map fun f => env.sha256 f.name then []
      else voters.map fun voter => (Label.vote id voter).input env

theorem noCollision_of_nodup {env : Env} {ids : List Bytes32} {voters : List AccountId}
    (h : ((inputs env ids voters).map env.sha256).Nodup) : NoCollision env ids voters := by
  have hmem : ∀ bs ∈ Set.range Field.name ∪ Set.image (Label.input env) (labels env ids voters),
      bs ∈ inputs env ids voters := by
    rintro _ (⟨f, rfl⟩ | ⟨l, hl, rfl⟩)
    · exact List.mem_append_left _ (List.mem_append_left _ (List.mem_map_of_mem (mem_fields f)))
    · cases l with
      | field f id =>
        exact List.mem_append_left _ (List.mem_append_right _
          (List.mem_flatMap.mpr ⟨id, hl, List.mem_map.mpr ⟨f, mem_fields f, rfl⟩⟩))
      | vote id voter =>
        obtain ⟨hid, hreserved, hvoter⟩ := hl
        refine List.mem_append_right _ (List.mem_flatMap.mpr ⟨id, hid, ?_⟩)
        rw [if_neg fun h => hreserved (mem_reserved.mp h)]
        exact List.mem_map.mpr ⟨voter, hvoter, rfl⟩
  exact fun a ha b hb heq => List.inj_on_of_nodup_map h (hmem a ha) (hmem b hb) heq

def treasuryId : AccountId := 0xe79e57ad2f265294226975057021bea65dc948aa10d181704848ff291fe1fae1

def executedSpace : Bytes32 := 0xf843149bfce4df462efd58f6346c61bc30995c7f1f0b93eebb39433b9595945d

/-- The namespaces of the fields, by the length of the name and its byte 30, with their slots for the account
of the validator and for the last namespace. -/
def spaceDigests : List (ℕ × UInt8 × Bytes32 × Bytes32 × Bytes32) :=
  [(36, 101, 0x3089af5e3c3afc204b6c9a0657cd06060e64b904deee81f14e1d9fc2ae62ef0e,
      0xcc08bcb6c268c2e479f609e05d43dbdfb39626cb5b8a34f83e116b6efcbe2e31,
      0x24bc42e2297bf206154f7c5858dfc55ae1e88b1f66c4004d6e2423c8b9ebd091),
    (39, 114, 0x92ef74be6076e43866c9788f9eeff67419244d22d6c231034beae2a21ac90b9d,
      0xb3e323a5a77ac06cc7e41f27055e971ce3184d5ffe091694fd8496a9ddfc8a03,
      0x9bffea69d4732235038afeace7bc03ff37c284b2cc5b2dee28561af298e49194),
    (36, 97, 0x6833387a3bcfea770248247749ac8861f4c389b915f63031b57913fa42435d20,
      0x23b2ba4e49674860b98b0e7542e6b166f60918d766be2a43767d5a663179292f,
      0x881eded13653e8eebb5dde046b31823ef146254cde2fbfa71b99a3756bef6b07),
    (37, 99, 0x06104a15e601aa1eb37178749206d296e11ff2f9c1ee18760ec316fd3f6f031e,
      0xacc1fd0f0cbb949b5a24e99eff888b3566cb3583253f7f9fe56a5f2634fd5931,
      0x191520c2b8dfb74b93cc57e4834f749f011af0283ed0119db22c9cb92633a617),
    (38, 116, 0x0b06431bb2ed350aed73a6213c96f603ef70a3dabae9d5ea2168d32b55db1c60,
      0xfc6c1050a55c1e8bb86d8237ba863c4d23b92a266d4511cceb68c0222c99b75b,
      0x46a629c45cc90345021595c0be4ec58482eabce85d406441a08ec9a499cde04e),
    (39, 118, 0xe809a86cd2966d7498d830b4ffcf4f8e5edf579bc7b4560a5449461b03798d45,
      0x683f22471469a93129f420b62d16d5218a84457189807cef4c6e57b6e58041ec,
      0x71456b52db57b332ce454e5cf96c20186badc0198ed42d5ef63fc573258094c0),
    (43, 118, 0x81d58181b9fdbd328ce6183bf296615f68f8aa8f80f1dde25dc946d46f12abfa,
      0x348715354c1480ba6837092e08aa53c98bbdc50037eb8b93378e2ce124756c30,
      0xcc8201451d9d3084d737443c829fd4a89c1b9210de8a7e54c78f207d09bbe5a6),
    (38, 101, executedSpace, 0xb2db9b62c7c1987256ca1db630686416a9039c295cf5df3b00f22a05b68d1a23,
      0x783a3fb925f1a0a48bf0157e24d5eb8a3cc7f0fcd681d2c4826878d048cb6c41)]

/-- The ids of the system cells and the keys of the parameters, by the length of the name and its byte 12. -/
def nameDigests : List (ℕ × UInt8 × Bytes32) :=
  [(25, 103, 0x191843cac9e459553f94821e347e2b20eaf7dfb1af3835e5884c2880eb4f215f),
    (28, 110, 0x29f9359b77a6bb3c4fb5ba4ce225d57fcf666bab958c5d68b68eb37871c00f7e),
    (32, 111, 0x225b3f4c82f8d9ce49e9f39fb5f16ebde243e01ef2efb8d9b4b260c737e1bae7),
    (22, 115, 0x0348b5d1fba38117a16fc2ae9a12eb287305d16a9c49f792f52ae1952bb9a51d),
    (31, 116, 0x0dbca3ee37934cc2c3a356ca0a60545f70e7748235a462c411ef08f6f365ac3b),
    (23, 116, treasuryId),
    (20, 119, 0xf78c324351c07398964a5fe388cd0b0afde37be056075886dc52d4e120905257),
    (31, 112, 0x650a85b912bb7463e3c2205d8341fa629b3f03fb2379d4643c560ad94e5f42d6),
    (32, 112, 0x20b073866fefc2eaa9139669458c86d59a01586baf154a11e5a5871ed9001ab3),
    (44, 112, 0x32b2ca6eb5d4e1440d021b9452546d3e838f63904068dce20e7278b5a42502bf),
    (41, 112, 0x684b664e3ab335816b2dae2a52339c48392c26cb75aad486e3461c1df14a84c9),
    (42, 112, 0xb4e66ef4dd1269318d317fa25a4d446a184e85245dd4652f4d28ab114cc5959e),
    (54, 112, 0x4549f1c904c75a1a39968c7e8659d638094512ce6bf56f95b6e2104023ee487f)]

def voteDigest : Bytes32 := 0x683e2562543ad1624433278c8c29b7aa1136850ed9469cb27f3cb41ea3d30b40

/-- SHA-256 on the inputs that occur here, which are told apart by their length and one byte: the account of
the validator, the slots by the first byte of either word, the namespaces, and the other names. -/
def spendSha256 (bs : Bytes) : Bytes32 :=
  let n := bs.length
  if n = 1977 then ParamVotes.aliceId
  else if n = 64 then
    ((spaceDigests.find? fun e => decide (e.2.2.1.toNat / 2 ^ 248 = (bs.headD 0).toNat)).map fun e =>
      if bs.getD 32 0 = 0xe7 then e.2.2.2.1 else e.2.2.2.2).getD voteDigest
  else
    ((spaceDigests.find? fun e => decide (e.1 = n ∧ e.2.1 = bs.getD 30 0)).map fun e => e.2.2.1).getD
      (((nameDigests.find? fun e => decide (e.1 = n ∧ e.2.1 = bs.getD 12 0)).map fun e => e.2.2).getD 0)

def spendCall (calldata : Bytes) (nonce : ℕ) : Transaction :=
  ⟨ParamVotes.aliceId, .callCell treasuryId calldata 0 10000, [], nonce, 0, 7, 1000000⟩

/-- A proposal of the id to pay 500 to account 5, with a timelock of 10. -/
def proposeCall (id : Bytes32) (nonce : ℕ) : Transaction :=
  spendCall (sel "propose_spend" ++ ofBytes32 id ++ ofBytes32 5 ++ leBytes 16 500 ++ leBytes 8 10) nonce

def voteCall (id : Bytes32) (nonce : ℕ) : Transaction := spendCall (sel "vote_spend" ++ ofBytes32 id ++ [1]) nonce

def executeCall (id : Bytes32) (nonce : ℕ) : Transaction := spendCall (sel "execute_spend" ++ ofBytes32 id) nonce

/-- The third-party code, on the inputs that occur here. -/
def spendEnv : Env :=
  { MergeAgreement.sampleEnv with
    blake3 := fun bs =>
      if bs = NestedCalls.callBytes (proposeCall ParamVotes.aliceId 1) then
        0x8ac1f3071ef4269ea85f5b1c10095959c0b188351406ed5ee119589ecf9de46f
      else if bs = NestedCalls.callBytes (proposeCall executedSpace 2) then
        0xa5eaf511294e932855571f3076b8d480a7d34e1ab303b8e6529c960de1d1b354
      else if bs = NestedCalls.callBytes (voteCall executedSpace 3) then
        0xf4a3dbc8e593f40511bc6131fed2288103edd65ab3e2b7f34441a9285f0bffd2
      else if bs = NestedCalls.callBytes (voteCall ParamVotes.aliceId 2) then
        0x9abb3a70ce1aadd71c3ab14453d5fb3b312cbd89951ffde91673d033ee16f9a1
      else 0x4bfc5bbc8e31db27a3d768a7dec92cc60801577e2a8dad146a9bbde420a1fadf
    serialize := NestedCalls.callBytes
    sha256 := spendSha256 }

def spendWorld : World where
  state :=
    { MergeAgreement.sampleState with
      accounts := fromList [(ParamVotes.aliceId, ⟨ParamVotes.alice, 1000000, 1000000, 0, []⟩)]
      staking := ⟨fromList [(ParamVotes.alice, .new 30000000000)], 0, none⟩
      cells := ⟨fromList
        [(treasuryId, { NestedCalls.programCell treasuryId ⟨[], []⟩ with balance := 1000 })], ∅, ∅⟩ }
  globals :=
    { MergeAgreement.sampleWorld.globals with
      paramCache := fromList
        [(0x684b664e3ab335816b2dae2a52339c48392c26cb75aad486e3461c1df14a84c9, encodeU64 10000),
          (0x32b2ca6eb5d4e1440d021b9452546d3e838f63904068dce20e7278b5a42502bf, encodeU64 100),
          (0x20b073866fefc2eaa9139669458c86d59a01586baf154a11e5a5871ed9001ab3, encodeU64 1),
          (0x650a85b912bb7463e3c2205d8341fa629b3f03fb2379d4643c560ad94e5f42d6, encodeU64 1000000000)] }

def spendStart : Watched := ⟨spendWorld, fun _ => none, []⟩

def atHeight (height : ℕ) (w : World) : World :=
  w.onState fun s => { s with staking := { s.staking with currentHeight := height } }

theorem vault_atHeight (env : Env) (height : ℕ) (w : World) : vault env (atHeight height w) = vault env w := rfl

/-- The ledger after two calls, when the voting and the timelock are over. -/
def spendLater : World :=
  atHeight 432020 (watch spendEnv (watch spendEnv spendStart (.transaction (proposeCall ParamVotes.aliceId 1)))
    (.transaction (voteCall ParamVotes.aliceId 2))).world

/-- The validator proposes, votes, and executes when the voting is over. -/
def paidRun : List Event :=
  [.transaction (proposeCall ParamVotes.aliceId 1), .transaction (voteCall ParamVotes.aliceId 2),
    .elsewhere spendLater, .transaction (executeCall ParamVotes.aliceId 3)]

theorem paidRun_facts :
    (treasurySystemCellId spendEnv = treasuryId ∧
      treasurySystemCellId spendEnv ≠ stakingSystemCellId spendEnv ∧
      treasurySystemCellId spendEnv ≠ governanceSystemCellId spendEnv) ∧
    (spendWorld.state.staking.currentHeight < u64 ∧
      (watch spendEnv spendStart
        (.transaction (proposeCall ParamVotes.aliceId 1))).world.state.staking.currentHeight <
        u64 ∧ spendLater.state.staking.currentHeight < u64) ∧
    (read32 (calldataOf (proposeCall ParamVotes.aliceId 1).intent) 4 = some ParamVotes.aliceId ∧
      read32 (calldataOf (voteCall ParamVotes.aliceId 2).intent) 4 = some ParamVotes.aliceId ∧
      read32 (calldataOf (executeCall ParamVotes.aliceId 3).intent) 4 = some ParamVotes.aliceId) ∧
    (readSel (calldataOf (proposeCall ParamVotes.aliceId 1).intent) ≠ sel "vote_spend" ∧
      readSel (calldataOf (proposeCall ParamVotes.aliceId 1).intent) ≠ sel "execute_spend" ∧
      readSel (calldataOf (voteCall ParamVotes.aliceId 2).intent) ≠ sel "execute_spend" ∧
      readSel (calldataOf (executeCall ParamVotes.aliceId 3).intent) ≠ sel "vote_spend") ∧
    ParamVotes.aliceId ∉ fields.map (fun f => spendEnv.sha256 f.name) ∧
    (callOf (watch spendEnv spendStart (.transaction (proposeCall ParamVotes.aliceId 1))).world
      (voteCall ParamVotes.aliceId 2)).key = ParamVotes.aliceId ∧
    ∃ s, run (watch spendEnv) spendStart (paidRun.take 3) = s ∧
      (vault spendEnv s.world).map CellAccount.balance = some 1000 ∧
      (s.spends (callOf s.world (executeCall ParamVotes.aliceId 3)).key).map
        (fun b => (b.amount, b.ballot.stake)) = some (500, 30000000000) ∧
      ParamVotes.activeStake s.world.state.staking < u64 ∧ s.world.state.staking.currentHeight + 1 < u64 := by
  simp only [exists_eq_left']
  decide +kernel

theorem callsTreasury_spendCall (calldata : Bytes) (nonce : ℕ) :
    CallsTreasury spendEnv (spendCall calldata nonce) :=
  ⟨calldata, 0, 10000, by rw [paidRun_facts.1.1]; rfl⟩

theorem governs_paidRun :
    Along (watch spendEnv) (Governs spendEnv [ParamVotes.aliceId] [ParamVotes.aliceId]) spendStart paidRun := by
  obtain ⟨-, ⟨hheight, hheight', hheight''⟩, ⟨hread, hread', hread''⟩, -⟩ := paidRun_facts
  have hlisted : ∀ {tx : Transaction} {id : Bytes32}, read32 (calldataOf tx.intent) 4 = some ParamVotes.aliceId →
      read32 (calldataOf tx.intent) 4 = some id → id ∈ [ParamVotes.aliceId] := by
    intro tx id halice hid
    rw [Option.some.inj (hid.symm.trans halice)]
    exact List.mem_singleton_self _
  exact ⟨⟨callsTreasury_spendCall _ _, hheight, fun id => hlisted hread, fun _ => List.mem_singleton_self _⟩,
    ⟨callsTreasury_spendCall _ _, hheight', fun id => hlisted hread', fun _ => List.mem_singleton_self _⟩,
    congrArg (Option.map CellAccount.storage) (vault_atHeight _ _ _),
    ⟨callsTreasury_spendCall _ _, hheight'', fun id => hlisted hread'', fun _ =>
      List.mem_singleton_self _⟩, trivial⟩

theorem prudent_execution : Prudent spendEnv (run (watch spendEnv) spendStart (paidRun.take 3))
    (.transaction (executeCall ParamVotes.aliceId 3)) := by
  obtain ⟨-, -, -, ⟨-, -, -, hvote⟩, -, -, s, hs, hbalance, hspend, hactive, hheight⟩ := paidRun_facts
  rw [hs]
  intro tx cell he hcell
  obtain rfl := Event.transaction.inj he
  rw [hcell, Option.map_some, Option.some.injEq] at hbalance
  have hnoted : ∀ b, s.spends (callOf s.world (executeCall ParamVotes.aliceId 3)).key = some b →
      b.amount = 500 ∧ b.ballot.stake = 30000000000 := by
    intro b hb
    rw [hb, Option.map_some, Option.some.injEq, Prod.mk.injEq] at hspend
    exact hspend
  refine ⟨fun h => absurd h (lt_irrefl 0), fun h => absurd h hvote, fun _ b hb _ => ?_, fun _ b hb => ?_⟩
  · rw [(hnoted b hb).1, hbalance]
    exact Nat.le_of_ble_eq_true rfl
  · rw [(hnoted b hb).2]
    exact ⟨by decide, hactive, hheight⟩

theorem prudent_paidRun : Along (watch spendEnv) (Prudent spendEnv) spendStart paidRun := by
  obtain ⟨-, -, -, ⟨hpropose, hpropose', hvote, -⟩, hreserved, hkey, -⟩ := paidRun_facts
  have hfree : ¬ Reserved spendEnv ParamVotes.aliceId := by
    rw [← mem_reserved]
    exact hreserved
  refine ⟨?_, ?_, ?_, ?_, trivial⟩
  · intro tx cell he _
    obtain rfl := Event.transaction.inj he
    exact ⟨fun h => absurd h (lt_irrefl 0), fun h => absurd h hpropose, fun h => absurd h hpropose',
      fun h => absurd h hpropose'⟩
  · intro tx cell he _
    obtain rfl := Event.transaction.inj he
    refine ⟨fun h => absurd h (lt_irrefl 0), fun _ _ => ?_, fun h => absurd h hvote, fun h => absurd h hvote⟩
    rw [hkey]
    exact hfree
  · intro tx cell he
    cases he
  · exact prudent_execution

/-- The condition at the sample run, in which the proposal is paid. -/
theorem payments_due_sample :
    (run (watch spendEnv) spendStart paidRun).payments = [ParamVotes.aliceId] ∧
      Along (watch spendEnv) (Due spendEnv [ParamVotes.aliceId]) spendStart paidRun := by
  refine ⟨by decide +kernel, ?_⟩
  obtain ⟨cell, hcell, hfresh⟩ : ∃ cell, vault spendEnv spendWorld = some cell ∧ cell.storage = ∅ :=
    ⟨{ NestedCalls.programCell treasuryId ⟨[], []⟩ with balance := 1000 }, by decide +kernel, rfl⟩
  exact (payments_due spendEnv [ParamVotes.aliceId] [ParamVotes.aliceId] spendWorld cell paidRun
    (noCollision_of_nodup (by decide +kernel)) paidRun_facts.1.2 hcell hfresh governs_paidRun prudent_paidRun).2

/-- The validator proposes a spend with its account as the id, and another one with the namespace `executed`,
on which it votes. -/
def reservedRun : List Event :=
  [.transaction (proposeCall ParamVotes.aliceId 1), .transaction (proposeCall executedSpace 2),
    .transaction (voteCall executedSpace 3)]

/-- The vote marks the first proposal as executed. -/
theorem vote_on_namespace : ¬ ∀ (env : Env) (ids : List Bytes32) (voters : List AccountId) (w : World)
    (cell : CellAccount) (es : List Event), NoCollision env ids voters →
    (treasurySystemCellId env ≠ stakingSystemCellId env ∧ treasurySystemCellId env ≠ governanceSystemCellId env) →
    vault env w = some cell → cell.storage = ∅ →
    Along (watch env) (Governs env ids voters) ⟨w, fun _ => none, []⟩ es →
      (run (watch env) ⟨w, fun _ => none, []⟩ es).payments.Nodup ∧
        Along (watch env) (Due env ids) ⟨w, fun _ => none, []⟩ es := by
  intro h
  obtain ⟨cell, hcell, hfresh⟩ : ∃ cell, vault spendEnv spendWorld = some cell ∧ cell.storage = ∅ :=
    ⟨{ NestedCalls.programCell treasuryId ⟨[], []⟩ with balance := 1000 }, by decide +kernel, rfl⟩
  have hgov : Along (watch spendEnv) (Governs spendEnv [ParamVotes.aliceId, executedSpace] [ParamVotes.aliceId])
      spendStart reservedRun := by
    refine ⟨⟨callsTreasury_spendCall _ _, by decide +kernel, ?_, fun _ => List.mem_singleton_self _⟩,
      ⟨callsTreasury_spendCall _ _, by decide +kernel, ?_, fun _ => List.mem_singleton_self _⟩,
      ⟨callsTreasury_spendCall _ _, by decide +kernel, ?_, fun _ => List.mem_singleton_self _⟩, trivial⟩
    · intro id hid
      have hread : some id = some ParamVotes.aliceId := hid.symm.trans (by decide +kernel)
      rw [Option.some.inj hread]
      exact List.mem_cons_self
    all_goals
      intro id hid
      have hread : some id = some executedSpace := hid.symm.trans (by decide +kernel)
      rw [Option.some.inj hread]
      exact List.mem_cons_of_mem _ (List.mem_singleton_self _)
  have hdue := (h spendEnv [ParamVotes.aliceId, executedSpace] [ParamVotes.aliceId] spendWorld cell reservedRun
    (noCollision_of_nodup (by decide +kernel)) paidRun_facts.1.2 hcell hfresh hgov).2
  obtain ⟨s, hs⟩ : ∃ s, run (watch spendEnv) spendStart (reservedRun.take 2) = s := ⟨_, rfl⟩
  have hstate : (runTransaction spendEnv (voteCall executedSpace 3) s.world).1.isOk = true ∧
      (callOf s.world (voteCall executedSpace 3)).key = executedSpace := by
    rw [← hs]
    decide +kernel
  have hvote := (hdue.2.2.1 (voteCall executedSpace 3) rfl).2.2 (by rw [← hs] at hstate; exact hstate.1)
    (by decide +kernel) .executed ParamVotes.aliceId List.mem_cons_self
  have hkey : (callOf (run (watch spendEnv) spendStart (reservedRun.take 2)).world
      (voteCall executedSpace 3)).key =
      spendEnv.sha256 Field.executed.name := by decide +kernel
  exact hvote ((congrArg (fun id => (Label.vote id ParamVotes.aliceId).slot spendEnv) hkey).trans
    (slot_reserved .executed ParamVotes.aliceId))

end TruthLinked.Ledger.TreasuryRuns
