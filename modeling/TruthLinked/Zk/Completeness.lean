import TruthLinked.Zk.Soundness
import Mathlib.Data.BitVec

/-! # What the prover of a confidential transfer writes

`CtProver::prove`, `build_trace` and `get_pub_inputs`. The table comes uninitialised and is filled cell by
cell: the rounds of each hash by a loop that counts its rows, then the row of balances. What is in the rows
(`filled_rows`) is what the constraints ask of them, so the table of every witness that passes the checks of
`prove` is accepted for the commitments that `prove` returns (`complete`). -/

namespace TruthLinked.Zk.Completeness

open Core.Types Lib.Goldilocks Lib.Rows Lib.Except Ledger.Model Zk.Transfer Zk.Soundness

/-! ## The table -/

/-- `SEL_COL`. -/
def selCol : ℕ := stateW

/-- `TraceTable::set`. -/
def set (t : Trace) (col row : ℕ) (v : Felt) : Trace :=
  Function.update t row (Function.update (t row) col v)

/-- Writes to the cells of a row: column and value. -/
def writeCells (t : Trace) (row : ℕ) (cells : List (ℕ × Felt)) : Trace :=
  cells.foldl (fun t p => set t p.1 row p.2) t

/-- A state written to a row, and the number of its hash to the selector column. -/
def writeState (t : Trace) (row : ℕ) (state : HashState) (hashIdx : ℕ) : Trace :=
  writeCells t row ((List.ofFn fun col : Fin stateW => ((col : ℕ), state col)) ++ [(selCol, (hashIdx : Felt))])

/-- One round of `fill_rescue_trace`. -/
def fillRound (c : Rescue) (hashIdx : ℕ) (s : Trace × ℕ × HashState) (r : ℕ) : Trace × ℕ × HashState :=
  let (t, row, state) := s
  let state := firstHalf c r state
  let row := row + 1
  let t := writeState t row state hashIdx
  let state := secondHalf c r state
  let row := row + 1
  (writeState t row state hashIdx, row, state)

/-- `fill_rescue_trace`. -/
def fillRescueTrace (c : Rescue) (t : Trace) (startRow : ℕ) (initialState : HashState) (hashIdx : ℕ) : Trace :=
  ((List.range numRounds).foldl (fillRound c hashIdx)
    (writeState t startRow initialState hashIdx, startRow, initialState)).1

/-- The writes of `build_trace` to the row of balances: column and value. -/
def balanceCells (w : CtWitness) : List (ℕ × Felt) :=
  [(0, (u128ToFelts w.sOldBal).1), (1, (u128ToFelts w.sOldBal).2), (2, (u128ToFelts w.sNewBal).1),
    (3, (u128ToFelts w.sNewBal).2), (4, (u128ToFelts w.rOldBal).1), (5, (u128ToFelts w.rOldBal).2),
    (6, (u128ToFelts w.rNewBal).1), (7, (u128ToFelts w.rNewBal).2), (8, (u128ToFelts w.amount).1),
    (9, (u128ToFelts w.amount).2), (selCol, 99)]

/-- `build_trace`, on the uninitialised table `blank`. -/
def buildTable (c : Rescue) (blank : Trace) (w : CtWitness) : Trace :=
  let t := fillRescueTrace c blank (hashStart 0) (buildRescueInput w.sOldBal w.sOldNonce w.ctHashSOld) 0
  let t := fillRescueTrace c t (hashStart 1) (buildRescueInput w.sNewBal w.sNewNonce w.ctHashSNew) 1
  let t := fillRescueTrace c t (hashStart 2) (buildRescueInput w.rOldBal w.rOldNonce w.ctHashROld) 2
  let t := fillRescueTrace c t (hashStart 3) (buildRescueInput w.rNewBal w.rNewNonce w.ctHashRNew) 3
  let t := fillRescueTrace c t (hashStart 4) (buildAmountRescueInput w.amount w.amtNonce) 4
  writeCells t conservationRow (balanceCells w)

/-- `digest_of` in `get_pub_inputs`. -/
def digestIn (t : Trace) (h : ℕ) : Digest :=
  let row := hashStart h + rowsPerHash - 1
  ![t row 4, t row 5, t row 6, t row 7]

/-- `CtProver::get_pub_inputs`. -/
def getPubInputs (t : Trace) : CtPublicInputs :=
  { sOld := digestIn t 0, sNew := digestIn t 1, rOld := digestIn t 2, rNew := digestIn t 3, amt := digestIn t 4 }

/-! ## The prover -/

/-- The checks of `CtProver::prove`. -/
def checkWitness (w : CtWitness) : Except String Unit := do
  let (sOld, sNew, rOld, rNew, amt) :=
    (w.sOldBal.toNat, w.sNewBal.toNat, w.rOldBal.toNat, w.rNewBal.toNat, w.amount.toNat)
  failIf ([sOld, sNew, rOld, rNew, amt].any fun value => decide (2 ^ 64 - 1 < value))
    "Confidential transfer balances and amount must fit in u64"
  failIf (amt = 0) "Amount must be > 0"
  let expectedSNew ← okOr (checkedSub sOld amt) "Sender balance underflow: old_balance < amount"
  failIf (sNew ≠ expectedSNew) s!"Conservation violated: {sOld} - {amt} != {sNew}"
  let expectedRNew ← okOr (checkedAdd rOld amt) "Recipient balance overflow"
  failIf (rNew ≠ expectedRNew) s!"Conservation violated: {rOld} + {amt} != {rNew}"

/-- `CtProver::prove`; `generate` is the prover of the proof library. -/
def prove (c : Rescue) (generate : Trace → Except String Bytes) (blank : Trace) (w : CtWitness) :
    Except String (Bytes × CtPublicInputs) := do
  checkWitness w
  match generate (buildTable c blank w) with
  | .ok proof => pure (proof, w.pubInputs c)
  | .error e => throw s!"Proof generation failed: {e}"

/-- What the checks say. -/
structure Checked (w : CtWitness) : Prop where
  small : ∀ bal ∈ [w.sOldBal, w.sNewBal, w.rOldBal, w.rNewBal, w.amount], bal.toNat < 2 ^ 64
  sender : w.sOldBal.toNat = w.sNewBal.toNat + w.amount.toNat
  recipient : w.rNewBal.toNat = w.rOldBal.toNat + w.amount.toNat

theorem checked_of_ok {w : CtWitness} (h : checkWitness w = .ok ()) : Checked w := by
  unfold checkWitness at h
  dsimp only at h
  obtain ⟨hsmall, h⟩ := failIf_bind_ok.mp h
  obtain ⟨-, h⟩ := failIf_bind_ok.mp h
  obtain ⟨expectedSNew, hsub, h⟩ := okOr_bind_ok.mp h
  obtain ⟨hsNew, h⟩ := failIf_bind_ok.mp h
  obtain ⟨expectedRNew, hadd, h⟩ := okOr_bind_ok.mp h
  have hrNew := failIf_eq_ok.mp h
  rw [ne_eq, not_not] at hsNew hrNew
  unfold checkedSub at hsub
  unfold checkedAdd at hadd
  refine ⟨?_, ?_, ?_⟩
  · simp only [List.any_cons, List.any_nil, Bool.or_eq_true, decide_eq_true_eq, not_or] at hsmall
    simp only [List.mem_cons, List.not_mem_nil, or_false, forall_eq_or_imp, forall_eq]
    omega
  · split at hsub
    · have := Option.some.inj hsub
      omega
    · cases hsub
  · split at hadd
    · have := Option.some.inj hadd
      omega
    · cases hadd

/-! ## Single writes -/

theorem set_row_ne {t : Trace} {col row r : ℕ} {v : Felt} (h : r ≠ row) : set t col row v r = t r :=
  Function.update_of_ne h _ _

theorem set_row (t : Trace) (col row : ℕ) (v : Felt) : set t col row v row = Function.update (t row) col v :=
  Function.update_self row _ _

theorem writeCells_ne {t : Trace} {row r : ℕ} (cells : List (ℕ × Felt)) (h : r ≠ row) :
    writeCells t row cells r = t r := by
  unfold writeCells
  induction cells generalizing t with
  | nil => rfl
  | cons p cells ih => rw [List.foldl_cons, ih, set_row_ne h]

theorem writeCells_mem {t : Trace} {row : ℕ} {cells : List (ℕ × Felt)} (hcols : (cells.map Prod.fst).Nodup)
    {p : ℕ × Felt} (hp : p ∈ cells) : writeCells t row cells row p.1 = p.2 := by
  unfold writeCells
  induction cells using List.reverseRecOn with
  | nil => cases hp
  | append_singleton cells q ih =>
    rw [List.map_append, List.nodup_append] at hcols
    rw [List.foldl_append, List.foldl_cons, List.foldl_nil, set_row]
    rcases List.mem_append.mp hp with hp | hp
    · have hne : p.1 ≠ q.1 := hcols.2.2 p.1 (List.mem_map_of_mem hp) q.1 (by simp)
      rw [Function.update_of_ne hne]
      exact ih hcols.1 hp
    · obtain rfl := List.mem_singleton.mp hp
      exact Function.update_self p.1 _ _

theorem writeState_ne {t : Trace} {row r : ℕ} (state : HashState) (hashIdx : ℕ) (h : r ≠ row) :
    writeState t row state hashIdx r = t r := writeCells_ne _ h

theorem columns_nodup : ((List.ofFn fun col : Fin stateW => (col : ℕ)) ++ [selCol]).Nodup := by decide

theorem stateOf_writeState (t : Trace) (row : ℕ) (state : HashState) (hashIdx : ℕ) :
    stateOf (writeState t row state hashIdx row) = state := by
  funext i
  have hmap : ((List.ofFn fun col : Fin stateW => ((col : ℕ), state col)) ++
      [(selCol, (hashIdx : Felt))]).map Prod.fst = (List.ofFn fun col : Fin stateW => (col : ℕ)) ++ [selCol] := by
    rw [List.map_append, List.map_ofFn]
    rfl
  have hi : ((i : ℕ), state i) ∈ (List.ofFn fun col : Fin stateW => ((col : ℕ), state col)) ++
      [(selCol, (hashIdx : Felt))] :=
    List.mem_append_left _ (List.mem_ofFn.mpr ⟨i, rfl⟩)
  have hcell := @writeCells_mem t row _ (hmap ▸ columns_nodup) _ hi
  unfold stateOf writeState
  exact hcell

/-! ## A hash -/

/-- **After `n` rounds** the row is two for each round further, and the rows up to there hold the permutation
half by half. -/
theorem fillRounds (c : Rescue) (t : Trace) (startRow : ℕ) (init : HashState) (hashIdx n : ℕ) :
    ∃ t', (List.range n).foldl (fillRound c hashIdx) (writeState t startRow init hashIdx, startRow, init) =
        (t', startRow + 2 * n, iter (half c) (2 * n) init) ∧
      (∀ k ≤ 2 * n, stateOf (t' (startRow + k)) = iter (half c) k init) ∧
      ∀ r, r < startRow ∨ startRow + 2 * n < r → t' r = t r := by
  induction n with
  | zero =>
    refine ⟨writeState t startRow init hashIdx, rfl, fun k hk => ?_, fun r hr => writeState_ne _ _ (by omega)⟩
    obtain rfl : k = 0 := by omega
    exact stateOf_writeState t startRow init hashIdx
  | succ n ih =>
    obtain ⟨t', heq, hrows, hother⟩ := ih
    have hfirst : firstHalf c n (iter (half c) (2 * n) init) = iter (half c) (2 * n + 1) init :=
      (half_even c n _).symm
    have hsecond : secondHalf c n (iter (half c) (2 * n + 1) init) = iter (half c) (2 * n + 2) init :=
      (half_odd c n _).symm
    rw [List.range_succ, List.foldl_append, heq, List.foldl_cons, List.foldl_nil, fillRound, hfirst, hsecond]
    refine ⟨_, rfl, fun k hk => ?_, fun r hr => ?_⟩
    · rcases Nat.lt_trichotomy k (2 * n + 1) with hlt | rfl | hgt
      · rw [writeState_ne _ _ (by omega), writeState_ne _ _ (by omega)]
        exact hrows k (by omega)
      · rw [writeState_ne _ _ (by omega)]
        exact stateOf_writeState _ _ _ _
      · obtain rfl : k = 2 * n + 2 := by omega
        exact stateOf_writeState _ _ _ _
    · rw [writeState_ne _ _ (by omega), writeState_ne _ _ (by omega)]
      exact hother r (by omega)

/-- **What `fill_rescue_trace` writes.** -/
theorem fillRescueTrace_rows (c : Rescue) (t : Trace) (startRow : ℕ) (init : HashState) (hashIdx : ℕ) :
    (∀ k < rowsPerHash, stateOf (fillRescueTrace c t startRow init hashIdx (startRow + k)) =
      iter (half c) k init) ∧
    ∀ r, r < startRow ∨ startRow + rowsPerHash ≤ r → fillRescueTrace c t startRow init hashIdx r = t r := by
  obtain ⟨t', heq, hrows, hother⟩ := fillRounds c t startRow init hashIdx numRounds
  unfold fillRescueTrace
  rw [heq]
  refine ⟨fun k hk => hrows k ?_, fun r hr => hother r ?_⟩
  · unfold rowsPerHash at hk
    omega
  · unfold rowsPerHash at hr
    omega

/-! ## The whole table -/

/-- The hashes up to the number `n`, one after another. -/
def fillHashes (c : Rescue) (blank : Trace) (w : CtWitness) (n : ℕ) : Trace :=
  (List.range n).foldl (fun t h => fillRescueTrace c t (hashStart h) (w.input h) h) blank

theorem buildTable_eq (c : Rescue) (blank : Trace) (w : CtWitness) :
    buildTable c blank w = writeCells (fillHashes c blank w numHashes) conservationRow (balanceCells w) := rfl

theorem fillHashes_rows (c : Rescue) (blank : Trace) (w : CtWitness) {n h k : ℕ} (hh : h < n)
    (hk : k < rowsPerHash) : stateOf (fillHashes c blank w n (stepOf h k)) = iter (half c) k (w.input h) := by
  induction n with
  | zero => omega
  | succ n ih =>
    obtain ⟨hrows, hother⟩ := fillRescueTrace_rows c (fillHashes c blank w n) (hashStart n) (w.input n) n
    have hfold : fillHashes c blank w (n + 1) =
        fillRescueTrace c (fillHashes c blank w n) (hashStart n) (w.input n) n := by
      unfold fillHashes
      rw [List.range_succ, List.foldl_append]
      rfl
    rw [hfold]
    rcases Nat.lt_succ_iff_lt_or_eq.mp hh with hlt | rfl
    · have hbelow : stepOf h k < hashStart n := by
        have hnext : (h + 1) * rowsPerHash ≤ n * rowsPerHash := Nat.mul_le_mul_right _ hlt
        unfold stepOf hashStart
        rw [Nat.succ_mul] at hnext
        omega
      rw [hother _ (.inl hbelow)]
      exact ih hlt
    · exact hrows k hk

/-- **The rows of the table.** -/
theorem filled_rows (c : Rescue) (blank : Trace) (w : CtWitness) {h k : ℕ} (hh : h < numHashes)
    (hk : k < rowsPerHash) : stateOf (buildTable c blank w (stepOf h k)) = iter (half c) k (w.input h) := by
  have hne : stepOf h k ≠ conservationRow := by
    unfold stepOf hashStart conservationRow
    unfold numHashes at hh ⊢
    unfold rowsPerHash numRounds at hk ⊢
    omega
  rw [buildTable_eq, writeCells_ne _ hne]
  exact fillHashes_rows c blank w hh hk

theorem balance_cell (c : Rescue) (blank : Trace) (w : CtWitness) {p : ℕ × Felt} (hp : p ∈ balanceCells w) :
    buildTable c blank w conservationRow p.1 = p.2 := by
  have hcols : ((balanceCells w).map Prod.fst).Nodup :=
    (by decide : [0, 1, 2, 3, 4, 5, 6, 7, 8, 9, 12].Nodup)
  rw [buildTable_eq]
  exact writeCells_mem hcols hp

theorem limbs_of_small {v : BitVec 128} (h : v.toNat < 2 ^ 64) : u128ToFelts v = ((v.toNat : Felt), 0) := by
  unfold u128ToFelts
  rw [Nat.mod_eq_of_lt h, Nat.div_eq_of_lt h, Nat.cast_zero]

/-- The row of balances meets its constraints, also where a value is not below the modulus. -/
theorem balanced_buildTable (c : Rescue) (blank : Trace) {w : CtWitness} (hw : Checked w) :
    Balanced (buildTable c blank w conservationRow) := by
  have hcell : ∀ p ∈ balanceCells w, buildTable c blank w conservationRow p.1 = p.2 :=
    fun p hp => balance_cell c blank w hp
  obtain ⟨hsmall, hsender, hrecipient⟩ := hw
  unfold balanceCells at hcell
  simp only [List.mem_cons, List.not_mem_nil, or_false, forall_eq_or_imp, forall_eq] at hcell hsmall
  obtain ⟨hsOld, hsNew, hrOld, hrNew, hamount⟩ := hsmall
  rw [limbs_of_small hsOld, limbs_of_small hsNew, limbs_of_small hrOld, limbs_of_small hrNew,
    limbs_of_small hamount] at hcell
  obtain ⟨h0, h1, h2, h3, h4, h5, h6, h7, h8, h9, -⟩ := hcell
  unfold Soundness.Balanced
  rw [h0, h1, h2, h3, h4, h5, h6, h7, h8, h9, hsender, hrecipient, Nat.cast_add, Nat.cast_add]
  exact ⟨rfl, rfl, rfl, rfl, rfl, rfl, rfl⟩

theorem digestIn_eq (t : Trace) (h : ℕ) :
    digestIn t h = digestOf (stateOf (t (hashStart h + rowsPerHash - 1))) := rfl

theorem digestIn_buildTable (c : Rescue) (blank : Trace) (w : CtWitness) :
    ∀ h < numHashes, digestIn (buildTable c blank w) h = digestAt (w.pubInputs c) h := by
  intro h hh
  have hrow : hashStart h + rowsPerHash - 1 = stepOf h (rowsPerHash - 1) := by
    unfold stepOf rowsPerHash numRounds
    omega
  rw [digestIn_eq, hrow, filled_rows c blank w hh (by decide), ← applyPermutation_eq]
  exact digest_input c w h hh

/-- **The circuit is complete**: for every witness that passes the checks of `prove`, `prove` gives the
proof of its table for its commitments, that table is accepted for them, and they are what `get_pub_inputs`
reads off it. -/
theorem complete (c : Rescue) (hinv : Rescue.Invertible c) (blank : Trace) (w : CtWitness)
    (hw : checkWitness w = .ok ()) :
    (∀ generate proof, generate (buildTable c blank w) = .ok proof →
      prove c generate blank w = .ok (proof, w.pubInputs c)) ∧
    Accepts c (w.pubInputs c) (buildTable c blank w) ∧
    getPubInputs (buildTable c blank w) = w.pubInputs c := by
  refine ⟨fun generate proof hproof => ?_, ?_, ?_⟩
  · unfold prove
    rw [hw, ok_bind, hproof]
    rfl
  · exact accepts_of_rows hinv (fun h hh k hk => filled_rows c blank w hh hk)
      (balanced_buildTable c blank (checked_of_ok hw)) (digest_input c w)
  · obtain ⟨h0, h1, h2, h3, h4⟩ := forall_hash.mp (digestIn_buildTable c blank w)
    unfold getPubInputs
    rw [h0, h1, h2, h3, h4]
    rfl

/-- A transfer of the greatest amount, from an account that has no more to one that has nothing. -/
def greatestTransfer : CtWitness :=
  { sampleWitness with
    sOldBal := 2 ^ 64 - 1
    sNewBal := 0
    rOldBal := 0
    rNewBal := 2 ^ 64 - 1
    amount := 2 ^ 64 - 1 }

theorem greatestTransfer_accepted :
    Accepts (rp64 0 0) (greatestTransfer.pubInputs (rp64 0 0)) (buildTable (rp64 0 0) 0 greatestTransfer) :=
  (complete (rp64 0 0) (rp64_invertible 0 0) 0 greatestTransfer (by decide +kernel)).2.1

end TruthLinked.Zk.Completeness
