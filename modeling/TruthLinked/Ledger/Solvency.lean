import TruthLinked.Lib.Weight
import TruthLinked.Ledger.Coverage
import TruthLinked.Ledger.Executor

/-! # The money behind the private balances

A private balance cell holds what its commitment opens to. A deposit and a withdrawal replace the commitment
by one that the sender supplies, and no opening of either is asked for. `Honest` says what the commitments of
a transaction would have to satisfy; in a run of honest transactions the cells never hold more than was paid
in and not paid out (`Backed`), so that no withdrawal takes more than its cell holds. -/

namespace TruthLinked.Ledger.Solvency

open Core.Types Runtime.Cells Runtime.Types Governance.Types Ledger.Model Ledger.Phases Ledger.SystemCells
open Ledger.Mcp Ledger.PrivateBalance Ledger.ComputeCells Ledger.Apply Ledger.AccountSpecs Ledger.CellSpecs
open Ledger.ApplySpec Ledger.ComputeSpec Ledger.Coverage Ledger.Executor Ledger.MergeAgreement Lib.Except
open Lib.Keyed Lib.Phase Lib.Wp Lib.Weight

/-! ## What a cell holds -/

section Holdings
variable (value : Bytes32 → Option ℕ)

/-- What a commitment stands for: the balance it opens to, if it opens. -/
def held (c : Bytes32) : ℕ := (value c).getD 0

/-- What a cell holds, once it is initialised. -/
def heldIn (cell : CellAccount) : ℕ :=
  if flagAt cell.storage (pbKey "L") = 1 then held value (slotOf cell "c") else 0

/-- What the cell at an address holds. -/
def heldAt (cs : CellState) (a : AccountId) : ℕ := ((slot cs.cells a).map (heldIn value)).getD 0

/-- What all cells hold. -/
noncomputable def privateTotal (cs : CellState) : ℕ := ∑ᶠ a, heldAt value cs a

theorem finite_support (cs : CellState) : (Function.support (heldAt value cs)).Finite := by
  refine cs.cells.keys.finite_toSet.subset fun a ha => ?_
  have hmem : a ∈ cs.cells := by
    rw [mem_iff_slot]
    by_contra hnone
    rw [Option.not_isSome_iff_eq_none] at hnone
    rw [Function.mem_support, heldAt, hnone] at ha
    exact ha rfl
  exact Std.ExtTreeMap.mem_keys.mpr hmem

theorem privateTotal_exchange {cs cs' : CellState} {a : AccountId}
    (h : ∀ b, b ≠ a → slot cs'.cells b = slot cs.cells b) :
    privateTotal value cs' + heldAt value cs a = privateTotal value cs + heldAt value cs' a :=
  finsum_exchange (finite_support value cs) fun b hb => by rw [heldAt, h b hb, heldAt]

theorem privateTotal_eq_zero {cs : CellState}
    (h : ∀ a cell, slot cs.cells a = some cell → flagAt cell.storage (pbKey "L") ≠ 1) :
    privateTotal value cs = 0 := by
  have hzero : ∀ a, heldAt value cs a = 0 := by
    intro a
    rw [heldAt]
    cases hc : slot cs.cells a with
    | none => rfl
    | some cell => exact if_neg (h a cell hc)
  rw [privateTotal]
  simp only [hzero, finsum_zero]

end Holdings

/-! ## Slots of a cell -/

/-- The commitment and the flag lie apart from the other slots that an update writes. -/
theorem pbKey_apart : ∀ t ∈ ["l", "h", "n", "td", "tw", "to", "o", "a", "tf", "sv"],
    pbKey t ≠ pbKey "c" ∧ pbKey t ≠ pbKey "L" := by
  decide +kernel

theorem pbKey_c_ne_L : pbKey "c" ≠ pbKey "L" := by decide +kernel

theorem slot_extra {extra : List (String × Bytes32)} (m : Map Bytes32 (Option Bytes32)) {k : Bytes32}
    (hk : ∀ e ∈ extra, pbKey e.1 ≠ k) :
    slot ((extra.map fun e => (pbKey e.1, some e.2)).foldl (fun m (k, v) => m.insert k v) m) k = slot m k := by
  induction extra generalizing m with
  | nil => rfl
  | cons e extra ih =>
    rw [List.map_cons, List.foldl_cons, ih _ fun e he => hk e (List.mem_cons_of_mem _ he)]
    rw [slot_insert, if_neg (hk e List.mem_cons_self)]

/-- The slots of an update: the commitment is the new one, the flag is left alone. -/
theorem slot_balanceSlots (comm : Bytes32) (cipher : Bytes32 × Bytes32) (nonce : BitVec 128)
    (extra : List (String × Bytes32)) (hextra : ∀ e ∈ extra, e.1 ∈ ["td", "tw", "to"]) :
    let diff := fromList (balanceSlots comm cipher nonce ++ extra.map fun e => (pbKey e.1, some e.2))
    slot diff (pbKey "c") = some (some comm) ∧ slot diff (pbKey "L") = none := by
  have hsub : ∀ t ∈ ["td", "tw", "to"], pbKey t ≠ pbKey "c" ∧ pbKey t ≠ pbKey "L" := fun t ht =>
    pbKey_apart t (by simp only [List.mem_cons, List.not_mem_nil, or_false] at ht ⊢; tauto)
  obtain ⟨hl, hl'⟩ := pbKey_apart "l" (by decide)
  obtain ⟨hh, hh'⟩ := pbKey_apart "h" (by decide)
  obtain ⟨hn, hn'⟩ := pbKey_apart "n" (by decide)
  intro diff
  simp only [diff, fromList, balanceSlots, List.foldl_append]
  rw [slot_extra _ fun e he => (hsub e.1 (hextra e he)).1, slot_extra _ fun e he => (hsub e.1 (hextra e he)).2]
  simp only [List.foldl_cons, List.foldl_nil, slot_insert, if_neg hl, if_neg hh, if_neg hn, if_neg hl',
    if_neg hh', if_neg hn', if_neg pbKey_c_ne_L]
  exact ⟨rfl, rfl⟩

theorem slot_initSlots (comm : Bytes32) (cipher : Bytes32 × Bytes32) (nonce : BitVec 128)
    (owner agent : AccountId) :
    let storage : Map Bytes32 Bytes32 := fromList
      [(pbKey "c", comm), (pbKey "l", cipher.1), (pbKey "h", cipher.2), (pbKey "n", packNonce nonce),
        (pbKey "o", owner), (pbKey "a", agent), (pbKey "td", 0), (pbKey "tw", 0), (pbKey "tf", 0),
        (pbKey "to", 0), (pbKey "L", flagWord 1), (pbKey "sv", flagWord 1)]
    slot storage (pbKey "c") = some comm ∧ slot storage (pbKey "L") = some (flagWord 1) := by
  have hc : ∀ t ∈ ["l", "h", "n", "td", "tw", "to", "o", "a", "tf", "sv"], pbKey t ≠ pbKey "c" :=
    fun t ht => (pbKey_apart t ht).1
  have hsv : pbKey "sv" ≠ pbKey "L" := (pbKey_apart "sv" (by decide)).2
  simp only [List.forall_mem_cons] at hc
  obtain ⟨hl, hh, hn, htd, htw, hto, ho, ha, htf, hs, -⟩ := hc
  intro storage
  simp only [storage, fromList, List.foldl_cons, List.foldl_nil, slot_insert, if_neg hl, if_neg hh,
    if_neg hn, if_neg htd, if_neg htw, if_neg hto, if_neg ho, if_neg ha, if_neg htf, if_neg hs,
    if_neg hsv, if_neg pbKey_c_ne_L.symm, if_true, and_self]

theorem flagAt_of_slot {storage : Map Bytes32 Bytes32} {k : Bytes32}
    (h : slot storage k = some (flagWord 1)) : flagAt storage k = 1 := by
  rw [flagAt, show storage[k]? = some (flagWord 1) from h]
  rfl

/-! ## What the circuits write -/

/-- The update replaces the commitment `old` of an initialised cell by `new`. -/
def Replaces (cs : CellState) (cellId : AccountId) (old new : Bytes32) (u : CellUpdate) : Prop :=
  ∃ cell diff, slot cs.cells cellId = some cell ∧ flagAt cell.storage (pbKey "L") = 1 ∧
    old = slotOf cell "c" ∧ u = .storageChange cellId diff ∧
    slot diff (pbKey "c") = some (some new) ∧ slot diff (pbKey "L") = none

/-- The update writes a new balance, with some of the counters, into an initialised cell whose commitment is
`old`. -/
def Writes (cs : CellState) (cellId : AccountId) (old comm : Bytes32) (enc : Bytes) (nonce : BitVec 128)
    (u : CellUpdate) : Prop :=
  ∃ (cell : CellAccount) (cipher : Bytes32 × Bytes32) (extra : List (String × Bytes32)),
    slot cs.cells cellId = some cell ∧ flagAt cell.storage (pbKey "L") = 1 ∧
    old = slotOf cell "c" ∧ packCiphertext enc = .ok cipher ∧ (∀ e ∈ extra, e.1 ∈ ["td", "tw", "to"]) ∧
    u = .storageChange cellId
      (fromList (balanceSlots comm cipher nonce ++ extra.map fun e => (pbKey e.1, some e.2)))

theorem Writes.replaces {cs : CellState} {cellId : AccountId} {old comm : Bytes32} {enc : Bytes}
    {nonce : BitVec 128} {u : CellUpdate} (h : Writes cs cellId old comm enc nonce u) :
    Replaces cs cellId old comm u := by
  obtain ⟨cell, cipher, extra, hcell, hflag, hold, -, hextra, hu⟩ := h
  obtain ⟨hc, hL⟩ := slot_balanceSlots comm cipher nonce extra hextra
  exact ⟨cell, _, hcell, hflag, hold, hu, hc, hL⟩

section Effect
variable {cs : CellState} {cellId : AccountId} {old new : Bytes32} {u : CellUpdate}

theorem Replaces.heldAt (h : Replaces cs cellId old new u) (value : Bytes32 → Option ℕ) :
    heldAt value cs cellId = held value old := by
  obtain ⟨cell, diff, hcell, hflag, rfl, -, -, -⟩ := h
  rw [Solvency.heldAt, hcell]
  exact if_pos hflag

theorem Replaces.slot_ne (h : Replaces cs cellId old new u) (env : Env) {a : AccountId} (ha : a ≠ cellId) :
    slot (cellEffect env u cs).cells a = slot cs.cells a := by
  obtain ⟨cell, diff, -, -, -, rfl, -, -⟩ := h
  rw [cellEffect, modifyCell, slot_modify, if_neg (Ne.symm ha)]

theorem Replaces.heldAt_after (h : Replaces cs cellId old new u) (env : Env)
    (value : Bytes32 → Option ℕ) : Solvency.heldAt value (cellEffect env u cs) cellId = held value new := by
  obtain ⟨cell, diff, hcell, hflag, -, rfl, hcomm, hL⟩ := h
  have hslot : slot (cellEffect env (.storageChange cellId diff) cs).cells cellId =
      some { cell with storage := changeStorage cell.storage diff } := by
    rw [cellEffect, modifyCell, slot_modify, if_pos rfl, hcell]
    rfl
  have hflag' : flagAt (changeStorage cell.storage diff) (pbKey "L") = 1 := by
    have hkeep := slot_changeStorage cell.storage diff (pbKey "L")
    rw [hL, Option.getD_none] at hkeep
    rw [flagAt, show (changeStorage cell.storage diff)[pbKey "L"]? = cell.storage[pbKey "L"]? from hkeep]
    exact hflag
  have hcomm' : (changeStorage cell.storage diff)[pbKey "c"]? = some new := by
    have hset := slot_changeStorage cell.storage diff (pbKey "c")
    rwa [hcomm, Option.getD_some] at hset
  rw [Solvency.heldAt, hslot, Option.map_some, Option.getD_some, heldIn, if_pos hflag', slotOf, hcomm']
  rfl

theorem Replaces.total (h : Replaces cs cellId old new u) (env : Env) (value : Bytes32 → Option ℕ) :
    privateTotal value (cellEffect env u cs) + held value old = privateTotal value cs + held value new := by
  have hex := @privateTotal_exchange value cs (cellEffect env u cs) cellId
    fun b hb => h.slot_ne env hb
  rwa [h.heldAt value, h.heldAt_after env value] at hex

theorem Replaces.after {cellId' : AccountId} {old' new' : Bytes32} {u' : CellUpdate}
    (h : Replaces cs cellId old new u) (h' : Replaces cs cellId' old' new' u') (env : Env)
    (hne : cellId ≠ cellId') : Replaces (cellEffect env u' cs) cellId old new u := by
  obtain ⟨cell, diff, hcell, hrest⟩ := h
  refine ⟨cell, diff, ?_, hrest⟩
  rwa [h'.slot_ne env hne]

theorem total_deploy {cell : CellAccount} (hnew : cellId ∉ cs.cells) (env : Env)
    (value : Bytes32 → Option ℕ) :
    privateTotal value (cellEffect env (.deploy cellId cell) cs) =
      privateTotal value cs + heldIn value cell := by
  have hnone : slot cs.cells cellId = none := by
    rwa [mem_iff_slot, Option.not_isSome_iff_eq_none] at hnew
  have hslot : ∀ a, slot (cellEffect env (.deploy cellId cell) cs).cells a =
      if cellId = a then some cell else slot cs.cells a := fun a => slot_insert _ _ _ _
  have hex := @privateTotal_exchange value cs (cellEffect env (.deploy cellId cell) cs) cellId
    fun b hb => (hslot b).trans (if_neg (Ne.symm hb))
  rw [heldAt, hnone, heldAt, hslot, if_pos rfl] at hex
  exact hex

end Effect

theorem loadAndGuard_eq_ok {s : State} {cellId agentId sender : AccountId} {old : Bytes32}
    {cell : CellAccount} (h : loadAndGuard s cellId agentId sender old = .ok cell) :
    slot s.cells.cells cellId = some cell ∧ flagAt cell.storage (pbKey "L") = 1 ∧
      old = slotOf cell "c" := by
  simp only [loadAndGuard, okOr_bind_ok, failIf_bind_ok, pure_eq_ok] at h
  obtain ⟨c, hc, hflag, -, -, hold, rfl⟩ := h
  exact ⟨hc, not_not.mp hflag, not_not.mp hold⟩

section Circuits
variable {env : Env} {w : World} {sender cellId agentId recipient : AccountId} {amount : ℕ} {enc : Bytes}
  {comm old : Bytes32} {nonce : BitVec 128} {pb : StateDiff}

theorem circuitInit_writes {timestamp : ℕ}
    (h : circuitInitPrivateBalance env w sender cellId agentId enc comm nonce timestamp = .ok pb) :
    ∃ cell cipher, cellId ∉ w.state.cells.cells ∧ pb.cellUpdates = [.deploy cellId cell] ∧
      packCiphertext enc = .ok cipher ∧ cell.storage = fromList
        [(pbKey "c", comm), (pbKey "l", cipher.1), (pbKey "h", cipher.2), (pbKey "n", packNonce nonce),
          (pbKey "o", sender), (pbKey "a", agentId), (pbKey "td", 0), (pbKey "tw", 0), (pbKey "tf", 0),
          (pbKey "to", 0), (pbKey "L", flagWord 1), (pbKey "sv", flagWord 1)] := by
  rw [circuitInitPrivateBalance] at h
  obtain ⟨pubkey, -, h⟩ := bind_eq_ok.mp h
  obtain ⟨-, -, h⟩ := bind_eq_ok.mp h
  simp only [failIf_bind_ok] at h
  obtain ⟨-, hnew, -, -, h⟩ := h
  obtain ⟨-, -, h⟩ := bind_eq_ok.mp h
  simp only [failIf_bind_ok, okOr_bind_ok] at h
  obtain ⟨-, account, -, -, h⟩ := h
  obtain ⟨cipher, hcipher, h⟩ := bind_eq_ok.mp h
  rw [pure_eq_ok] at h
  subst h
  exact ⟨_, cipher, hnew, rfl, hcipher, rfl⟩

theorem circuitInit_eq_ok {timestamp : ℕ}
    (h : circuitInitPrivateBalance env w sender cellId agentId enc comm nonce timestamp = .ok pb) :
    ∃ cell, cellId ∉ w.state.cells.cells ∧ pb.cellUpdates = [.deploy cellId cell] ∧
      ∀ value, heldIn value cell = held value comm := by
  obtain ⟨cell, cipher, hnew, hus, -, hstorage⟩ := circuitInit_writes h
  obtain ⟨hcomm, hL⟩ := slot_initSlots comm cipher nonce sender agentId
  refine ⟨cell, hnew, hus, fun value => ?_⟩
  rw [heldIn, hstorage, if_pos (flagAt_of_slot hL), slotOf, hstorage]
  exact congrArg (fun o : Option Bytes32 => held value (o.getD 0)) hcomm

theorem circuitDeposit_writes
    (h : circuitDeposit env w sender cellId agentId amount enc comm nonce old = .ok pb) :
    ∃ u, pb.cellUpdates = [u] ∧ Writes w.state.cells cellId old comm enc nonce u := by
  rw [circuitDeposit] at h
  obtain ⟨cell, hload, h⟩ := bind_eq_ok.mp h
  obtain ⟨hcell, hflag, hold⟩ := loadAndGuard_eq_ok hload
  obtain ⟨-, -, h⟩ := bind_eq_ok.mp h
  simp only [failIf_bind_ok] at h
  obtain ⟨-, h⟩ := h
  obtain ⟨-, -, h⟩ := bind_eq_ok.mp h
  simp only [okOr_bind_ok, failIf_bind_ok] at h
  obtain ⟨account, -, -, h⟩ := h
  obtain ⟨-, -, h⟩ := bind_eq_ok.mp h
  simp only [okOr_bind_ok, failIf_bind_ok] at h
  obtain ⟨-, -, deposited, -, h⟩ := h
  obtain ⟨-, -, h⟩ := bind_eq_ok.mp h
  obtain ⟨cipher, hcipher, h⟩ := bind_eq_ok.mp h
  rw [pure_eq_ok] at h
  subst h
  exact ⟨_, rfl, cell, cipher, [("td", packU128 deposited)], hcell, hflag, hold, hcipher, by simp, rfl⟩

theorem circuitDeposit_eq_ok
    (h : circuitDeposit env w sender cellId agentId amount enc comm nonce old = .ok pb) :
    ∃ u, pb.cellUpdates = [u] ∧ Replaces w.state.cells cellId old comm u := by
  obtain ⟨u, hus, hu⟩ := circuitDeposit_writes h
  exact ⟨u, hus, hu.replaces⟩

theorem circuitWithdraw_writes
    (h : circuitWithdraw env w sender cellId agentId amount recipient enc comm nonce old = .ok pb) :
    ∃ u, pb.cellUpdates = [u] ∧ Writes w.state.cells cellId old comm enc nonce u := by
  rw [circuitWithdraw] at h
  obtain ⟨cell, hload, h⟩ := bind_eq_ok.mp h
  obtain ⟨hcell, hflag, hold⟩ := loadAndGuard_eq_ok hload
  obtain ⟨-, -, h⟩ := bind_eq_ok.mp h
  obtain ⟨-, -, h⟩ := bind_eq_ok.mp h
  obtain ⟨-, -, h⟩ := bind_eq_ok.mp h
  simp only [okOr_bind_ok, failIf_bind_ok] at h
  obtain ⟨-, -, account, -, balance, -, h⟩ := h
  obtain ⟨-, -, h⟩ := bind_eq_ok.mp h
  simp only [okOr_bind_ok] at h
  obtain ⟨withdrawn, -, h⟩ := h
  obtain ⟨-, -, h⟩ := bind_eq_ok.mp h
  obtain ⟨cipher, hcipher, h⟩ := bind_eq_ok.mp h
  rw [pure_eq_ok] at h
  subst h
  exact ⟨_, rfl, cell, cipher, [("tw", packU128 withdrawn)], hcell, hflag, hold, hcipher, by simp, rfl⟩

theorem circuitWithdraw_eq_ok
    (h : circuitWithdraw env w sender cellId agentId amount recipient enc comm nonce old = .ok pb) :
    ∃ u, pb.cellUpdates = [u] ∧ Replaces w.state.cells cellId old comm u := by
  obtain ⟨u, hus, hu⟩ := circuitWithdraw_writes h
  exact ⟨u, hus, hu.replaces⟩

theorem circuitConfidentialTransfer_writes {sCell sAgent rCell : AccountId}
    {amt sNew sOld rNew rOld : Bytes32} {proof sEnc rEnc : Bytes} {sNonce rNonce : BitVec 128}
    (h : circuitConfidentialTransfer env w sender sCell sAgent rCell amt proof sEnc sNew sNonce sOld rEnc
      rNew rNonce rOld = .ok pb) :
    env.verifyCtProof proof [sOld, sNew, rOld, rNew, amt] = .ok () ∧ sCell ≠ rCell ∧
      ∃ u v, pb.cellUpdates = [u, v] ∧ Writes w.state.cells sCell sOld sNew sEnc sNonce u ∧
        Writes w.state.cells rCell rOld rNew rEnc rNonce v := by
  rw [circuitConfidentialTransfer] at h
  obtain ⟨cell, hload, h⟩ := bind_eq_ok.mp h
  obtain ⟨hcell, hflag, hold⟩ := loadAndGuard_eq_ok hload
  obtain ⟨-, -, h⟩ := bind_eq_ok.mp h
  simp only [okOr_bind_ok, failIf_bind_ok] at h
  obtain ⟨cell', hcell', hflag', hold', hne, h⟩ := h
  obtain ⟨-, -, h⟩ := bind_eq_ok.mp h
  obtain ⟨-, -, h⟩ := bind_eq_ok.mp h
  simp only [failIf_bind_ok] at h
  obtain ⟨-, -, -, -, -, -, -, h⟩ := h
  obtain ⟨⟨⟩, hproof, h⟩ := bind_eq_ok.mp h
  simp only [okOr_bind_ok] at h
  obtain ⟨sent, -, h⟩ := h
  obtain ⟨sCipher, hsCipher, h⟩ := bind_eq_ok.mp h
  obtain ⟨rCipher, hrCipher, h⟩ := bind_eq_ok.mp h
  rw [pure_eq_ok] at h
  subst h
  exact ⟨hproof, hne, _, _, rfl,
    ⟨cell, sCipher, [("to", packU128 sent)], hcell, hflag, hold, hsCipher, by simp, rfl⟩,
    ⟨cell', rCipher, [], hcell', not_not.mp hflag', not_not.mp hold', hrCipher, by simp, rfl⟩⟩

theorem circuitConfidentialTransfer_eq_ok {sCell sAgent rCell : AccountId}
    {amt sNew sOld rNew rOld : Bytes32} {proof sEnc rEnc : Bytes} {sNonce rNonce : BitVec 128}
    (h : circuitConfidentialTransfer env w sender sCell sAgent rCell amt proof sEnc sNew sNonce sOld rEnc
      rNew rNonce rOld = .ok pb) :
    env.verifyCtProof proof [sOld, sNew, rOld, rNew, amt] = .ok () ∧ sCell ≠ rCell ∧
      ∃ u v, pb.cellUpdates = [u, v] ∧ Replaces w.state.cells sCell sOld sNew u ∧
        Replaces w.state.cells rCell rOld rNew v := by
  obtain ⟨hproof, hne, u, v, hus, hu, hv⟩ := circuitConfidentialTransfer_writes h
  exact ⟨hproof, hne, u, v, hus, hu.replaces, hv.replaces⟩

end Circuits

/-! ## One transaction -/

/-- The intents of the private balances. -/
def IsPrivateBalance : TransactionIntent → Prop
  | .privateBalanceInit .. | .privateBalanceDeposit .. | .privateBalanceWithdraw ..
  | .privateBalanceConfidentialTransfer .. => True
  | _ => False

/-- The circuit of an intent. -/
def circuit (env : Env) (w : World) (sender : AccountId) (timestamp : ℕ) :
    TransactionIntent → Except String StateDiff
  | .privateBalanceInit cellId agentId enc comm nonce =>
    circuitInitPrivateBalance env w sender cellId agentId enc comm nonce timestamp
  | .privateBalanceDeposit cellId agentId amount enc comm nonce old =>
    circuitDeposit env w sender cellId agentId amount enc comm nonce old
  | .privateBalanceWithdraw cellId agentId amount recipient enc comm nonce old =>
    circuitWithdraw env w sender cellId agentId amount recipient enc comm nonce old
  | .privateBalanceConfidentialTransfer sCell sAgent rCell amount proof sEnc sComm sNonce sOld rEnc rComm
      rNonce rOld =>
    circuitConfidentialTransfer env w sender sCell sAgent rCell amount proof sEnc sComm sNonce sOld rEnc
      rComm rNonce rOld
  | _ => throw "not a private balance intent"

section One
variable {env : Env} {w : World} {tx : Transaction}

theorem computeIntent_circuit (h : IsPrivateBalance tx.intent) {account : AccountRecord} {d : StateDiff}
    (hd : computeIntent env w (start env tx) tx.sender tx.timestamp account tx.intent = .ok d) :
    ∃ pb, circuit env w tx.sender tx.timestamp tx.intent = .ok pb ∧ d = takePayments (start env tx) pb := by
  cases hi : tx.intent with
  | privateBalanceInit | privateBalanceDeposit | privateBalanceWithdraw
  | privateBalanceConfidentialTransfer =>
    rw [hi, computeIntent] at hd
    obtain ⟨pb, hpb, hd⟩ := bind_eq_ok.mp hd
    exact ⟨pb, hpb, (pure_eq_ok.mp hd).symm⟩
  | _ =>
    rw [hi] at h
    exact h.elim

theorem cells_of_unpaid (env : Env) {d : StateDiff} (h : ¬ AccountsFit d w.state.accounts) :
    (outcome (applyDiff env d) w).1.isOk = false ∧
      (outcome (applyDiff env d) w).2.state.cells = w.state.cells := by
  have hkeep : Keeps (fun w : World => w.state.cells) (onAccounts (applyAccounts d)) :=
    keeps_zoom _ _ fun _ _ => rfl
  have hfit : ¬ AccountsFit d (w.onState (recordTransaction d)).state.accounts := by
    rwa [World.onState_state, recordTransaction_accounts]
  obtain ⟨e, w', he⟩ := (spec_onAccounts (spec_applyAccounts d)).err _ hfit
  have hcells := hkeep (w.onState (recordTransaction d))
  rw [he] at hcells
  have hout : outcome (applyDiff env d) w = (.error e, w') := by
    rw [applyDiff, outcome_bind]
    show outcome (onAccounts (applyAccounts d) >>= _) (w.onState (recordTransaction d)) = _
    rw [outcome_bind, he]
  rw [hout]
  exact ⟨rfl, hcells.trans (recordTransaction_cells d w.state)⟩

theorem applied_cells (account : AccountRecord) (f : Fees) (pb : StateDiff) :
    (applied env (withFees tx.sender account f (takePayments (start env tx) pb)) w).state.cells =
      runAll (cellEffect env) pb.cellUpdates w.state.cells := by
  have hbefore : (beforeNameFee env (withFees tx.sender account f (takePayments (start env tx) pb))
      w).state.cells = runAll (cellEffect env) pb.cellUpdates w.state.cells := by
    rw [← recordTransaction_cells (withFees tx.sender account f (takePayments (start env tx) pb)) w.state]
    rfl
  rw [← hbefore]
  rfl

/-- **What a private balance transaction does to the cells**: what its circuit says, or nothing. -/
theorem runTransaction_cells (h : IsPrivateBalance tx.intent) :
    ((runTransaction env tx w).1.isOk = false ∧ (runTransaction env tx w).2.state.cells = w.state.cells) ∨
      ((runTransaction env tx w).1.isOk = true ∧ ∃ pb,
        circuit env w tx.sender tx.timestamp tx.intent = .ok pb ∧
        (runTransaction env tx w).2.state.cells =
          runAll (cellEffect env) pb.cellUpdates w.state.cells) := by
  rw [runTransaction]
  cases hd : computeTransactionDiffSkipSig env w tx with
  | error e => exact .inl ⟨rfl, rfl⟩
  | ok d =>
    obtain ⟨account, d₁, f, hcheck, h1, hf, rfl⟩ := compute_eq_ok hd
    obtain ⟨pb, hpb, rfl⟩ := computeIntent_circuit h h1
    have hparts : Parts env w tx account (takePayments (start env tx) pb) f :=
      ⟨(checkTransaction_eq_ok hcheck).2.1, h1, hf⟩
    by_cases hfit : AccountsFit (withFees tx.sender account f (takePayments (start env tx) pb))
        w.state.accounts
    · have happ := hparts.applicable_iff.mpr ⟨hfit, trivial, fun c hc => absurd hc List.not_mem_nil,
        hparts.cells.mpr ?_, balancesFit_of_none hparts.handled.plain _ _ rfl rfl rfl⟩
      · simp only
        rw [(spec_applyDiff env _).ok w happ]
        exact .inr ⟨rfl, pb, hpb, applied_cells account f pb⟩
      · cases hi : tx.intent <;> rw [hi] at h <;> first | exact h.elim | exact trivial
    · left
      obtain ⟨herr, hcells⟩ := cells_of_unpaid env hfit
      simp only
      generalize outcome (applyDiff env _) w = r at herr hcells
      obtain ⟨_ | _, w'⟩ := r
      · exact ⟨rfl, hcells⟩
      · cases herr

end One

/-! ## Runs -/

/-- The ledger, with what has been paid into private balances and out of them. -/
structure Books where
  world : World
  deposited : ℕ := 0
  withdrawn : ℕ := 0

/-- The public money that a transaction moves into a private balance. -/
def paidIn : TransactionIntent → ℕ
  | .privateBalanceDeposit _ _ amount _ _ _ _ => amount
  | _ => 0

/-- The public money that a transaction takes out of a private balance. -/
def paidOut : TransactionIntent → ℕ
  | .privateBalanceWithdraw _ _ amount _ _ _ _ _ => amount
  | _ => 0

/-- One transaction, computed and applied; what it moves counts when it goes through. -/
def settle (env : Env) (b : Books) (tx : Transaction) : Books :=
  let r := runTransaction env tx b.world
  if r.1.isOk then ⟨r.2, b.deposited + paidIn tx.intent, b.withdrawn + paidOut tx.intent⟩
  else { b with world := r.2 }

/-- The transactions one after the other. -/
def books (env : Env) (w : World) (txs : List Transaction) : Books := txs.foldl (settle env) { world := w }

/-- The commitment that a cell holds now. -/
def commitmentOf (s : State) (cellId : AccountId) : Bytes32 :=
  ((slot s.cells.cells cellId).map fun cell => slotOf cell "c").getD 0

/-- No more is paid out than was paid in, and no withdrawal takes more than the commitment of its cell opens
to. -/
structure Solvent (env : Env) (value : Bytes32 → Option ℕ) (w : World) (txs : List Transaction) : Prop where
  covered : (books env w txs).withdrawn ≤ (books env w txs).deposited
  opened : ∀ before tx after cellId agentId amount recipient enc comm nonce old,
    txs = before ++ tx :: after →
    tx.intent = .privateBalanceWithdraw cellId agentId amount recipient enc comm nonce old →
    (runTransaction env tx (books env w before).world).1.isOk = true →
    amount ≤ held value (commitmentOf (books env w before).world.state cellId)

/-- The verifier takes a proof only if the commitments open as the relation of the confidential transfer
says: what the sender loses the recipient gains. -/
def ProofsSound (env : Env) (value : Bytes32 → Option ℕ) : Prop :=
  ∀ proof sOld sNew rOld rNew amt, env.verifyCtProof proof [sOld, sNew, rOld, rNew, amt] = .ok () →
    ∃ a b x y n, value sOld = some a ∧ value sNew = some b ∧ value rOld = some x ∧ value rNew = some y ∧
      value amt = some n ∧ a = b + n ∧ y = x + n

/-- No private balance is open. -/
def NoPrivateBalance (s : State) : Prop :=
  ∀ a cell, slot s.cells.cells a = some cell → flagAt cell.storage (pbKey "L") ≠ 1

/-- The new commitment of a transaction opens to no more than the old one and the amount that is moved
allow: a new cell starts empty, a deposit adds at most the amount, a withdrawal takes off at least the
amount. -/
def Honest (value : Bytes32 → Option ℕ) : TransactionIntent → Prop
  | .privateBalanceInit _ _ _ comm _ => held value comm = 0
  | .privateBalanceDeposit _ _ amount _ comm _ old => held value comm ≤ held value old + amount
  | .privateBalanceWithdraw _ _ amount _ _ comm _ old => amount + held value comm ≤ held value old
  | _ => True

section Runs
variable {env : Env} {value : Bytes32 → Option ℕ}

/-- The cells and the payments out of them are backed by the payments into them and by `start`. -/
def Backed (value : Bytes32 → Option ℕ) (start : ℕ) (b : Books) : Prop :=
  b.withdrawn + privateTotal value b.world.state.cells ≤ b.deposited + start

theorem total_circuit (hsound : ProofsSound env value) {w : World} {tx : Transaction} {pb : StateDiff}
    (hkind : IsPrivateBalance tx.intent) (hhonest : Honest value tx.intent)
    (h : circuit env w tx.sender tx.timestamp tx.intent = .ok pb) :
    paidOut tx.intent + privateTotal value (runAll (cellEffect env) pb.cellUpdates w.state.cells) ≤
      paidIn tx.intent + privateTotal value w.state.cells := by
  cases hi : tx.intent with
  | privateBalanceInit cellId agentId enc comm nonce =>
    rw [hi] at h hhonest
    obtain ⟨cell, hnew, hus, hcell⟩ := circuitInit_eq_ok h
    have hzero : held value comm = 0 := hhonest
    have htotal := @total_deploy _ _ cell hnew env value
    rw [hcell, hzero] at htotal
    rw [hus, runAll_cons, runAll_nil, htotal]
    simp only [paidOut, paidIn]
    omega
  | privateBalanceDeposit cellId agentId amount enc comm nonce old =>
    rw [hi] at h hhonest
    obtain ⟨u, hus, hu⟩ := circuitDeposit_eq_ok h
    have hle : held value comm ≤ held value old + amount := hhonest
    have htotal := hu.total env value
    rw [hus, runAll_cons, runAll_nil]
    simp only [paidOut, paidIn]
    omega
  | privateBalanceWithdraw cellId agentId amount recipient enc comm nonce old =>
    rw [hi] at h hhonest
    obtain ⟨u, hus, hu⟩ := circuitWithdraw_eq_ok h
    have hle : amount + held value comm ≤ held value old := hhonest
    have htotal := hu.total env value
    rw [hus, runAll_cons, runAll_nil]
    simp only [paidOut, paidIn]
    omega
  | privateBalanceConfidentialTransfer sCell sAgent rCell amt proof sEnc sNew sNonce sOld rEnc rNew rNonce
      rOld =>
    rw [hi] at h
    obtain ⟨hproof, hne, u, v, hus, hu, hv⟩ := circuitConfidentialTransfer_eq_ok h
    obtain ⟨a, b, x, y, n, ha, hb, hx, hy, -, rfl, rfl⟩ := hsound proof sOld sNew rOld rNew amt hproof
    have hsend := hu.total env value
    have hrecv := (hv.after hu env (Ne.symm hne)).total env value
    rw [hus, runAll_cons, runAll_cons, runAll_nil]
    simp only [held, ha, hb, hx, hy, Option.getD_some] at hsend hrecv
    simp only [paidOut, paidIn]
    omega
  | _ =>
    rw [hi] at hkind
    exact hkind.elim

theorem Backed.settle (hsound : ProofsSound env value) {start : ℕ} {b : Books} (h : Backed value start b)
    {tx : Transaction} (hkind : IsPrivateBalance tx.intent) (hhonest : Honest value tx.intent) :
    Backed value start (settle env b tx) := by
  rw [Backed] at h
  rcases @runTransaction_cells env b.world tx hkind with
    ⟨hfail, hcells⟩ | ⟨hok, pb, hpb, hcells⟩
  · rw [Solvency.settle, if_neg (by rw [hfail]; decide), Backed, hcells]
    exact h
  · have htotal := total_circuit hsound hkind hhonest hpb
    rw [Solvency.settle, if_pos hok, Backed, hcells]
    simp only
    omega

theorem backed_books (hsound : ProofsSound env value) (w : World) {txs : List Transaction}
    (hkind : ∀ tx ∈ txs, IsPrivateBalance tx.intent) (hhonest : ∀ tx ∈ txs, Honest value tx.intent) :
    Backed value (privateTotal value w.state.cells) (books env w txs) := by
  have hrun : ∀ (txs : List Transaction) (b : Books), (∀ tx ∈ txs, IsPrivateBalance tx.intent) →
      (∀ tx ∈ txs, Honest value tx.intent) → Backed value (privateTotal value w.state.cells) b →
      Backed value (privateTotal value w.state.cells) (txs.foldl (Solvency.settle env) b) := by
    intro txs
    induction txs with
    | nil => exact fun b _ _ hb => hb
    | cons tx txs ih =>
      intro b hkind hhonest hb
      exact ih _ (fun t ht => hkind t (List.mem_cons_of_mem _ ht))
        (fun t ht => hhonest t (List.mem_cons_of_mem _ ht))
        (hb.settle hsound (hkind tx List.mem_cons_self) (hhonest tx List.mem_cons_self))
  refine hrun txs _ hkind hhonest ?_
  rw [Backed]

theorem old_eq_commitmentOf {w : World} {tx : Transaction} {cellId agentId recipient : AccountId}
    {amount : ℕ} {enc : Bytes} {comm old : Bytes32} {nonce : BitVec 128}
    (hi : tx.intent = .privateBalanceWithdraw cellId agentId amount recipient enc comm nonce old)
    (hok : (runTransaction env tx w).1.isOk = true) : old = commitmentOf w.state cellId := by
  have hkind : IsPrivateBalance tx.intent := by
    rw [hi]
    trivial
  rcases @runTransaction_cells env w tx hkind with ⟨hfail, -⟩ | ⟨-, pb, hpb, -⟩
  · rw [hfail] at hok
    cases hok
  · rw [hi] at hpb
    obtain ⟨u, -, cell, diff, hcell, -, hold, -⟩ := circuitWithdraw_eq_ok hpb
    rw [commitmentOf, hcell]
    exact hold

end Runs

/-- **Private balances are covered in every run of honest transactions.** -/
theorem solvent_of_honest (env : Env) (value : Bytes32 → Option ℕ) (hsound : ProofsSound env value)
    (w : World) (hnone : NoPrivateBalance w.state) (txs : List Transaction)
    (hkind : ∀ tx ∈ txs, IsPrivateBalance tx.intent) (hhonest : ∀ tx ∈ txs, Honest value tx.intent) :
    Solvent env value w txs := by
  refine ⟨?_, ?_⟩
  · have hbacked := backed_books hsound w hkind hhonest
    rw [Backed, privateTotal_eq_zero value hnone] at hbacked
    omega
  · intro before tx after cellId agentId amount recipient enc comm nonce old htxs hi hok
    have hmem : tx ∈ txs := by
      rw [htxs]
      exact List.mem_append_right _ List.mem_cons_self
    have hle := hhonest tx hmem
    rw [hi] at hle
    have hamount : amount + held value comm ≤ held value old := hle
    rw [old_eq_commitmentOf hi hok] at hamount
    omega

/-! ### A sample cell

Account 1 owns the cell of agent 2. The hash functions and the serialised form are those of the node on the
inputs that occur here; the verifier takes no proof. -/

/-- The serialised form of the private balance intents that occur here. -/
def privateBytes : TransactionIntent → Bytes
  | .privateBalanceInit cellId agentId enc comm nonce =>
    [51] ++ ofBytes32 cellId ++ ofBytes32 agentId ++ varint 10 enc.length ++ enc ++ ofBytes32 comm ++
      nonceBytes nonce
  | .privateBalanceDeposit cellId agentId amount enc comm nonce old =>
    [52] ++ ofBytes32 cellId ++ ofBytes32 agentId ++ varint 19 amount ++ varint 10 enc.length ++ enc ++
      ofBytes32 comm ++ nonceBytes nonce ++ ofBytes32 old
  | .privateBalanceWithdraw cellId agentId amount recipient enc comm nonce old =>
    [53] ++ ofBytes32 cellId ++ ofBytes32 agentId ++ varint 19 amount ++ ofBytes32 recipient ++
      varint 10 enc.length ++ enc ++ ofBytes32 comm ++ nonceBytes nonce ++ ofBytes32 old
  | _ => []

def privateTxBytes (tx : Transaction) : Bytes :=
  ofBytes32 tx.sender ++ privateBytes tx.intent ++ varint 10 tx.signature.length ++ tx.signature ++
    varint 10 tx.nonce ++ varint 10 tx.timestamp ++ ofBytes32 tx.genesisFingerprint ++
    varint 10 tx.expirationHeight

/-- The address of the cell. -/
def agentCell : AccountId := 0x6f38936723e940f8b1048fd09c288d185933edad2957550b06c6e8b607acc3ec

/-- A ciphertext. -/
def blank : Bytes := List.replicate ciphertextLen 0

def openCell : Transaction := ⟨1, .privateBalanceInit agentCell 2 blank 1 1, [], 1, 0, 7, 10⟩

def payIn : Transaction := ⟨1, .privateBalanceDeposit agentCell 2 10 blank 2 2 1, [], 2, 0, 7, 10⟩

def payOut : Transaction := ⟨1, .privateBalanceWithdraw agentCell 2 4 1 blank 3 3 2, [], 3, 0, 7, 10⟩

/-- It takes 1000 out of the new cell. -/
def drain : Transaction := ⟨1, .privateBalanceWithdraw agentCell 2 1000 1 blank 2 2 1, [], 2, 0, 7, 10⟩

def privateDigest (bs : Bytes) : Bytes32 :=
  if bs = "truthlinked.param.v1gas.deploy_cell".toUTF8.toList then
    0x4e57ce9af39c0f6025a7f7083ea5863918f68337c62737687257f1fbd585907c
  else if bs = "truthlinked.param.v1storage.rent_lifetime_fee".toUTF8.toList then
    0x15ca1006626056fc0997282bd011a4b7b5d461c1f117139560a8a656b81a54bf
  else if bs = "truthlinked.param.v1storage.rent_grace_period_blocks".toUTF8.toList then
    0x94439b5dada8cc2c3b4f5993a11adf6be194b88fa4f04c40aeabbdfea3959e0e
  else if bs = "truthlinked-system-authority-v1".toUTF8.toList then
    0xab923a002917cab8090516e64bf46a5d49efcb1a5dae7932816beb614abe0412
  else paramDigest bs

/-- The third-party code, on the inputs that occur here. -/
def privateEnv : Env :=
  { sampleEnv with
    blake3 := fun bs => if bs = "pb:cell:".toUTF8.toList ++ ofBytes32 2 then agentCell
      else if bs = privateTxBytes openCell then
        0x23e28ab1402d16edc7396200cad94608c4bfdd969802a74288b66f5e3a817724
      else if bs = privateTxBytes payIn then
        0x4e6044dd5188000384d1363dafe149685fcfc6b2edaada00e60aeba9f682791f
      else if bs = privateTxBytes payOut then
        0x4fbf66b51cd4be440c04ed03cd00057dbcede73e12ccdfc6781575c5738b6f72
      else if bs = privateTxBytes drain then
        0x2f294b02a2746d78ed30185594a7bba0698f9e287640e6f0c2d594102ec9a301
      else 0xaf1349b9f5f9a1a6a0404dea36dcc9499bcb25c9adc112b7cc9a93cae41f3262
    sha256 := privateDigest
    serialize := privateTxBytes }

/-- The node: account 1 has the stake that a private balance needs, the rent of a cell is 10 and its
deployment 20 compute units. -/
def privateWorld : World where
  state := { sampleState with staking := ⟨fromList [([1], .new privateBalanceMinStake)], 0, none⟩ }
  globals := { sampleWorld.globals with
    paramCache := fromList
      [(paramKey privateDigest "gas.transfer", encodeU64 10),
        (paramKey privateDigest "fees.tx_byte", encodeU64 1),
        (paramKey privateDigest "cu.per_tlkd", encodeU64 1000000000),
        (paramKey privateDigest "gas.deploy_cell", encodeU64 20),
        (paramKey privateDigest "storage.rent_lifetime_fee", encodeU64 10),
        (paramKey privateDigest "storage.rent_grace_period_blocks", encodeU64 100)] }

def sampleValue (c : Bytes32) : Option ℕ :=
  if c = 1 then some 0 else if c = 2 then some 10 else if c = 3 then some 6 else none

theorem proofsSound_of_refusing (value : Bytes32 → Option ℕ) : ProofsSound privateEnv value :=
  fun _ _ _ _ _ _ h => by cases h

theorem noPrivateBalance_privateWorld : NoPrivateBalance privateWorld.state := by
  intro a cell hcell
  have hempty : slot (∅ : Map AccountId CellAccount) a = some cell := hcell
  simp [slot] at hempty

/-- 10 paid in and 4 paid out, by honest transactions. -/
theorem solvent_sample :
    (books privateEnv privateWorld [openCell, payIn, payOut]).deposited = 10 ∧
      (books privateEnv privateWorld [openCell, payIn, payOut]).withdrawn = 4 ∧
      Solvent privateEnv sampleValue privateWorld [openCell, payIn, payOut] := by
  obtain ⟨hin, hout⟩ : (books privateEnv privateWorld [openCell, payIn, payOut]).deposited = 10 ∧
      (books privateEnv privateWorld [openCell, payIn, payOut]).withdrawn = 4 := by decide +kernel
  refine ⟨hin, hout, ?_⟩
  refine solvent_of_honest _ _ (proofsSound_of_refusing _) _ noPrivateBalance_privateWorld _ ?_ ?_
  · simp only [List.forall_mem_cons, List.not_mem_nil, false_implies, implies_true, and_true]
    exact ⟨trivial, trivial, trivial⟩
  · simp only [List.forall_mem_cons, List.not_mem_nil, false_implies, implies_true, and_true]
    refine ⟨?_, ?_, ?_⟩
    · show held sampleValue 1 = 0
      decide
    · show held sampleValue 2 ≤ held sampleValue 1 + 10
      decide
    · show 4 + held sampleValue 3 ≤ held sampleValue 2
      decide

/-- A cell is opened and 1000 taken out of it, without a deposit: nobody asks what the commitment opens
to. -/
theorem drained_unfunded_cell :
    ¬ ∀ env value w txs, ProofsSound env value → NoPrivateBalance w.state →
      (∀ tx ∈ txs, IsPrivateBalance tx.intent) → Solvent env value w txs := by
  intro h
  have hsolvent := h privateEnv sampleValue privateWorld [openCell, drain] (proofsSound_of_refusing _)
    noPrivateBalance_privateWorld (by
      simp only [List.forall_mem_cons, List.not_mem_nil, false_implies, implies_true, and_true]
      exact ⟨trivial, trivial⟩)
  obtain ⟨hin, hout⟩ : (books privateEnv privateWorld [openCell, drain]).deposited = 0 ∧
      (books privateEnv privateWorld [openCell, drain]).withdrawn = 1000 := by decide +kernel
  have hle := hsolvent.covered
  omega

end TruthLinked.Ledger.Solvency
