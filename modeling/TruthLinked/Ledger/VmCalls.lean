import TruthLinked.Ledger.NativeCalls

/-! # Transactions that call a cell of the virtual machine

The diff of such a call lists the differences between the cells before and after the run. Applied, it leaves
the storage that the run wrote in the cell that was called, and every other storage as it was
(`storedAt_applied`). -/

namespace TruthLinked.Ledger.VmCalls

open Core.Types Runtime.Cells Runtime.Types Ledger.Model Ledger.Phases Ledger.Execution
open Ledger.ComputeCells Ledger.CallSpecs Ledger.CellSpecs Ledger.ApplySpec Ledger.ComputeSpec
open Ledger.NativeCalls Ledger.Slots Lib.Except Lib.Keyed Lib.Phase Lib.Table

/-! ## Differences of storages -/

section Storage
variable {before after : Map Bytes32 Bytes32} {k : Bytes32}

theorem getElem?_writeStorage (storage : Map Bytes32 Bytes32) (diff : List (Bytes32 × Option Bytes32))
    (k : Bytes32) : (writeStorage storage diff)[k]? = overlaid diff k storage[k]? := by
  induction diff using List.reverseRecOn with
  | nil => rfl
  | append_singleton diff e ih =>
    obtain ⟨key, value⟩ := e
    unfold writeStorage overlaid at ih ⊢
    rw [List.foldl_append, List.foldl_append, List.foldl_cons, List.foldl_nil, List.foldl_cons,
      List.foldl_nil, ← ih]
    cases value with
    | none =>
      rw [getElem?_erase_ite]
      exact if_congr eq_comm rfl rfl
    | some v =>
      rw [getElem?_insert_ite]
      exact if_congr eq_comm rfl rfl

/-- The entries of the difference of two storages. -/
def changes (before after : Map Bytes32 Bytes32) : List (Bytes32 × Option Bytes32) :=
  (after.toList.filter fun (k, v) => decide (before[k]? ≠ some v)).map (fun (k, v) => (k, some v)) ++
    (before.toList.filter fun (k, _) => decide (k ∉ after)).map fun (k, _) => (k, none)

theorem changes_sound {e : Bytes32 × Option Bytes32} (h : e ∈ changes before after) :
    e.2 = after[e.1]? ∧ before[e.1]? ≠ after[e.1]? := by
  rcases List.mem_append.mp h with h | h
  · obtain ⟨⟨key, v⟩, hmem, rfl⟩ := List.mem_map.mp h
    obtain ⟨hin, hne⟩ := List.mem_filter.mp hmem
    have hafter := Std.ExtTreeMap.mem_toList_iff_getElem?_eq_some.mp hin
    exact ⟨hafter.symm, fun heq => of_decide_eq_true hne (heq.trans hafter)⟩
  · obtain ⟨⟨key, v⟩, hmem, rfl⟩ := List.mem_map.mp h
    obtain ⟨hin, hout⟩ := List.mem_filter.mp hmem
    have hbefore := Std.ExtTreeMap.mem_toList_iff_getElem?_eq_some.mp hin
    have hafter : after[key]? = none := Std.ExtTreeMap.getElem?_eq_none (of_decide_eq_true hout)
    refine ⟨hafter.symm, fun heq => ?_⟩
    have hcontra := (hbefore.symm.trans heq).trans hafter
    cases hcontra

theorem changes_complete (h : before[k]? ≠ after[k]?) : ∃ e ∈ changes before after, e.1 = k := by
  cases hafter : after[k]? with
  | some v =>
    refine ⟨(k, some v), List.mem_append_left _ (List.mem_map.mpr ⟨(k, v), ?_, rfl⟩), rfl⟩
    refine List.mem_filter.mpr ⟨Std.ExtTreeMap.mem_toList_iff_getElem?_eq_some.mpr hafter, decide_eq_true ?_⟩
    rwa [hafter] at h
  | none =>
    rw [hafter] at h
    obtain ⟨v, hv⟩ := Option.ne_none_iff_exists'.mp h
    refine ⟨(k, none), List.mem_append_right _ (List.mem_map.mpr ⟨(k, v), ?_, rfl⟩), rfl⟩
    refine List.mem_filter.mpr ⟨Std.ExtTreeMap.mem_toList_iff_getElem?_eq_some.mpr hv, decide_eq_true ?_⟩
    rw [Std.ExtTreeMap.mem_iff_isSome_getElem?, hafter]
    exact Bool.false_ne_true

theorem getElem?_storageChanges (before after : Map Bytes32 Bytes32) (k : Bytes32) :
    (storageChanges before after)[k]? = if before[k]? = after[k]? then none else some after[k]? := by
  have hlast : (storageChanges before after)[k]? = (lastOf Prod.fst k (changes before after)).map Prod.snd :=
    slot_fromList (changes before after) k
  rw [hlast]
  cases hl : lastOf Prod.fst k (changes before after) with
  | none =>
    have hsame : before[k]? = after[k]? := by
      by_contra hne
      obtain ⟨e, he, hk⟩ := changes_complete hne
      exact lastOf_eq_none.mp hl e he hk
    rw [if_pos hsame]
    rfl
  | some e =>
    obtain ⟨hmem, rfl⟩ := lastOf_mem hl
    obtain ⟨hvalue, hne⟩ := changes_sound hmem
    rw [if_neg hne, Option.map_some, hvalue]

/-- **The difference of two storages** turns the one into the other. -/
theorem changeStorage_storageChanges (before after : Map Bytes32 Bytes32) :
    changeStorage before (storageChanges before after) = after := by
  refine slot_ext fun k => ?_
  have hchange : slot (storageChanges before after) k =
      if slot before k = slot after k then none else some (slot after k) :=
    getElem?_storageChanges before after k
  rw [slot_changeStorage, hchange]
  by_cases h : slot before k = slot after k
  · rw [if_pos h]
    exact h
  · rw [if_neg h]
    rfl

theorem eq_of_storageChanges_isEmpty (h : (storageChanges before after).isEmpty = true) : after = before := by
  refine slot_ext fun k => ?_
  have hnone : (storageChanges before after)[k]? = none := by
    rw [Std.ExtTreeMap.isEmpty_iff.mp h, Std.ExtTreeMap.getElem?_empty]
  rw [getElem?_storageChanges] at hnone
  split_ifs at hnone with hk
  exact hk.symm

end Storage

/-! ## Differences of cells -/

section Cells
variable {env : Env} {cells : Map AccountId CellAccount} {cellId : AccountId} {cell root : CellAccount}

theorem storageChanges_self (storage : Map Bytes32 Bytes32) : storageChanges storage storage = ∅ := by
  refine slot_ext fun k => ?_
  have hnone := getElem?_storageChanges storage storage k
  rw [if_pos rfl] at hnone
  exact hnone.trans Std.ExtTreeMap.getElem?_empty.symm

theorem cellChange_self (cellId : AccountId) (cell : CellAccount) : cellChange cellId cell cell = [] := by
  have hempty : (storageChanges cell.storage cell.storage).isEmpty = true := by
    rw [storageChanges_self]
    rfl
  unfold cellChange
  rw [if_pos hempty, if_neg fun h => h rfl, if_neg fun h => h.2 rfl]
  rfl

theorem flatMap_at {K V α : Type} {l : List (K × V)} (hl : (l.map Prod.fst).Nodup) {p : K × V} (hp : p ∈ l)
    {f : K × V → List α} (hf : ∀ q ∈ l, q.1 ≠ p.1 → f q = []) : l.flatMap f = f p := by
  obtain ⟨before, after, rfl⟩ := List.append_of_mem hp
  rw [List.map_append, List.map_cons, List.nodup_append, List.nodup_cons] at hl
  obtain ⟨-, ⟨hout, -⟩, hdisj⟩ := hl
  have hbefore : before.flatMap f = [] := List.flatMap_eq_nil_iff.mpr fun q hq =>
    hf q (List.mem_append_left _ hq) (hdisj q.1 (List.mem_map_of_mem hq) p.1 List.mem_cons_self)
  have hafter : after.flatMap f = [] := List.flatMap_eq_nil_iff.mpr fun q hq =>
    hf q (List.mem_append_right _ (List.mem_cons_of_mem _ hq)) fun heq => hout (heq ▸ List.mem_map_of_mem hq)
  rw [List.flatMap_append, List.flatMap_cons, hbefore, hafter, List.nil_append, List.append_nil]

theorem cellChanges_insert (hcell : cells[cellId]? = some cell) :
    cellChanges cells (cells.insert cellId root) = cellChange cellId cell root := by
  have hkeys : ((cells.insert cellId root).toList.map Prod.fst).Nodup := by
    rw [Std.ExtTreeMap.map_fst_toList_eq_keys]
    exact Std.ExtTreeMap.nodup_keys
  have hin : (cellId, root) ∈ (cells.insert cellId root).toList := by
    rw [Std.ExtTreeMap.mem_toList_iff_getElem?_eq_some, getElem?_insert_ite, if_pos rfl]
  refine (flatMap_at hkeys hin ?_).trans ?_
  · rintro ⟨c, a⟩ hmem hne
    rw [Std.ExtTreeMap.mem_toList_iff_getElem?_eq_some, getElem?_insert_ite, if_neg hne] at hmem
    dsimp only
    rw [hmem]
    exact cellChange_self c a
  · dsimp only
    rw [hcell]

theorem slot_cellChange {cs : CellState} (htoken : root.tokenConfig = cell.tokenConfig)
    (hcell : slot cs.cells cellId = some cell) (a : AccountId) :
    (slot (runAll (cellEffect env) (cellChange cellId cell root) cs).cells a).map CellAccount.storage =
      if a = cellId then some root.storage else (slot cs.cells a).map CellAccount.storage := by
  have hbalance : ∀ (n : ℕ) (cs : CellState),
      (slot (runAll (cellEffect env) (if cell.balance ≠ n then [.balanceChange cellId n] else []) cs).cells a).map
        CellAccount.storage = (slot cs.cells a).map CellAccount.storage := by
    intro n cs
    split_ifs
    · rw [runAll_cons, runAll_nil, cellEffect, modifyCell, slot_modify]
      split_ifs
      · rw [Option.map_map]
        rfl
      · rfl
    · rfl
  have hdeploy : ¬ (cell.isToken = true ∧ cell.tokenConfig ≠ root.tokenConfig) := fun h => h.2 htoken.symm
  unfold cellChange
  rw [if_neg hdeploy, List.append_nil, runAll_append, hbalance]
  by_cases hempty : (storageChanges cell.storage root.storage).isEmpty = true
  · rw [if_pos hempty, runAll_nil]
    split_ifs with ha
    · rw [ha, hcell, eq_of_storageChanges_isEmpty hempty]
      rfl
    · rfl
  · rw [if_neg hempty, runAll_cons, runAll_nil, cellEffect, modifyCell, slot_modify]
    by_cases ha : a = cellId
    · rw [if_pos ha, if_pos ha.symm, ha, hcell]
      simp only [Option.map_some, changeStorage_storageChanges]
    · rw [if_neg ha, if_neg (Ne.symm ha)]

end Cells

/-! ## The diff of a call -/

section Diff
variable {env : Env} {w : World} {tx : Transaction} {cellId : AccountId} {cell root : CellAccount} {calldata : Bytes}
  {value gasLimit : ℕ} {account : AccountRecord} {f : Fees} {r : ExecutionResult}

/-- The run of the call. -/
def runOf (env : Env) (w : World) (tx : Transaction) (cell : CellAccount) (calldata : Bytes)
    (value gasLimit : ℕ) :
    ExecutionResult :=
  executeAxiom env w w.state.cells cell tx.sender w.state.staking.currentHeight tx.timestamp
    calldata value gasLimit

/-- The diff of a call of a cell, from the result of the run and the record it leaves. -/
def vmDiff (env : Env) (w : World) (tx : Transaction) (cellId : AccountId) (value gasLimit : ℕ)
    (account : AccountRecord) (r : ExecutionResult) (root : CellAccount) : StateDiff :=
  let after := { w.state.cells with cells := w.state.cells.cells.insert cellId root }
  let diff := addCells w.state.cells after (addResult r (start env tx))
  { diff with
    oracleUpdates := diff.oracleUpdates ++ r.queuedOracleRequests.map .queueRequest
    cuFee := gasLimit
    accountUpdates := (payValue diff tx.sender value account).accountUpdates }

theorem payValue_eq (diff : StateDiff) (sender : AccountId) (value : ℕ) (account : AccountRecord) :
    payValue diff sender value account =
      { diff with accountUpdates := (payValue diff sender value account).accountUpdates } := by
  unfold payValue
  split_ifs <;> rfl

theorem computeIntent_vm {d : StateDiff} (hsystem : isSystemCell env cellId = false)
    (h : computeIntent env w (start env tx) tx.sender tx.timestamp account
      (.callCell cellId calldata value gasLimit) = .ok d) :
    ∃ cell root, w.state.cells.cells[cellId]? = some cell ∧
      (runOf env w tx cell calldata value gasLimit).success = true ∧
      settleCall (runOf env w tx cell calldata value gasLimit) value cell = .ok root ∧
      d = vmDiff env w tx cellId value gasLimit account (runOf env w tx cell calldata value gasLimit) root := by
  simp only [computeIntent, computeCallCellDiff, failIf_bind_ok, okOr_bind_ok, hsystem,
    Bool.false_eq_true, if_false, callVmCell] at h
  obtain ⟨-, -, cell, hcell, -, -, hsuccess, h⟩ := h
  obtain ⟨root, hroot, h⟩ := bind_eq_ok.mp h
  rw [pure_eq_ok, payValue_eq] at h
  refine ⟨cell, root, hcell, by simpa [runOf] using hsuccess, hroot, h.symm.trans ?_⟩
  unfold vmDiff payValue
  split_ifs <;> rfl

theorem settleCall_storage (h : settleCall r value cell = .ok root) :
    root.storage = writeStorage cell.storage r.storageDiff ∧ root.tokenConfig = cell.tokenConfig := by
  unfold settleCall at h
  split_ifs at h
  · obtain ⟨balance, -, hroot⟩ := okOr_bind_ok.mp h
    obtain rfl := Except.ok.inj hroot
    exact ⟨rfl, rfl⟩
  · obtain rfl := Except.ok.inj h
    exact ⟨rfl, rfl⟩

theorem frozenChanges_self (frozen : Map (AccountId × AccountId) Bool) : frozenChanges frozen frozen = [] := by
  refine List.filter_eq_nil_iff.mpr ?_
  rintro ⟨k, b⟩ hmem hne
  rw [Std.ExtTreeMap.mem_toList_iff_getElem?_eq_some] at hmem
  refine of_decide_eq_true hne ?_
  rw [hmem]
  rfl

/-- What a run of the virtual machine leaves empty, the diff of the call leaves empty. -/
theorem nameless_vmDiff (hr : Silent r) :
    Nameless { withFees tx.sender account f (vmDiff env w tx cellId value gasLimit account r root) with
      oracleUpdates := [] } := by
  refine ⟨?_, rfl, frozenChanges_self _, ?_, ?_, ?_, ?_, ?_, rfl⟩
  · show satAdd 0 r.nameFee = 0
    rw [hr.nameFee]
    rfl
  · exact hr.pendingNameProposals
  · exact hr.pendingTokenAuthorityProposals
  · exact hr.tokenAuthorityVotes
  · exact hr.nameRenewals
  · exact hr.nameTransfers

theorem queued_runOf : (runOf env w tx cell calldata value gasLimit).queuedOracleRequests = [] := by
  rw [runOf, executeAxiom, executeAxiomAt, runAxiom]
  split <;> rfl

theorem silent_runOf (env : Env) (w : World) (tx : Transaction) (cell : CellAccount) (calldata : Bytes)
    (value gasLimit : ℕ) : Silent (runOf env w tx cell calldata value gasLimit) := silent_executeAxiom ..

/-- The storage of a cell maps the key to the value. -/
def storedAt (cs : CellState) (c : AccountId) (k : Bytes32) : Option Bytes32 :=
  (cs.cells[c]?).bind fun cell => cell.storage[k]?

/-- **The storages after a call**: what the run of the called cell writes, and nothing else. -/
theorem storedAt_applied (hr : Silent r) (hqueue : r.queuedOracleRequests = [])
    (hcell : w.state.cells.cells[cellId]? = some cell) (hroot : settleCall r value cell = .ok root)
    (c : AccountId)
    (k : Bytes32) :
    storedAt (applied env (withFees tx.sender account f (vmDiff env w tx cellId value gasLimit account r root))
        w).state.cells c k =
      if c = cellId then overlaid r.storageDiff k (storedAt w.state.cells c k)
      else storedAt w.state.cells c k := by
  have hd : ∀ u ∈ (withFees tx.sender account f
      (vmDiff env w tx cellId value gasLimit account r root)).oracleUpdates, IsQueue u := by
    intro u hu
    rcases List.mem_append.mp hu with hu | hu
    · exact hr.oracleUpdates u hu
    · rw [hqueue] at hu
      exact absurd hu List.not_mem_nil
  have hslots : slot
      (balancedCells (withFees tx.sender account f (vmDiff env w tx cellId value gasLimit account r root))
      (runAll (cellEffect env) (cellChange cellId cell root) w.state.cells)).cells c =
      slot (runAll (cellEffect env) (cellChange cellId cell root) w.state.cells).cells c := by
    have hdebits :
        (withFees tx.sender account f (vmDiff env w tx cellId value gasLimit account r root)).cellDebits =
        [] := hr.cellDebits
    unfold balancedCells
    rw [hdebits, runAll_nil]
    exact cellSlot_tokens _ _ c
  have hupdates :
      (withFees tx.sender account f (vmDiff env w tx cellId value gasLimit account r root)).cellUpdates =
      cellChange cellId cell root := cellChanges_insert hcell
  obtain ⟨hstorage, htoken⟩ := settleCall_storage hroot
  have hbind : ∀ (cs : CellState), storedAt cs c k =
      ((slot cs.cells c).map CellAccount.storage).bind fun storage => storage[k]? := by
    intro cs
    rw [storedAt, slot, Option.bind_map]
    rfl
  rw [hbind, cells_applied_of_queue (nameless_vmDiff hr) hd, hupdates, hslots,
    slot_cellChange htoken hcell, hbind]
  by_cases hc : c = cellId
  · subst hc
    have hslot : slot w.state.cells.cells c = some cell := hcell
    rw [if_pos rfl, if_pos rfl, hslot, hstorage]
    exact getElem?_writeStorage cell.storage r.storageDiff k
  · rw [if_neg hc, if_neg hc]

end Diff

end TruthLinked.Ledger.VmCalls
