import TruthLinked.Zk.Transfer
import TruthLinked.Lib.Rows
import TruthLinked.Ledger.PrivateBalance
import Mathlib.Tactic.LinearCombination

/-! # What the circuit of a confidential transfer proves

The constraints tie the rows of each hash to each other and the last row to the digest. They do not tie the
first rows: neither the capacity and padding cells of a hash, nor its balance to the row of balances, nor the
size of any value. The permutation is invertible, so a table for any five digests exists.

* `transition_iff`: what the constraints say at a step of a hash.
* `accepts_forged`: every public input is accepted.
* `opens_of_filled`: a table whose free cells are those of the honest prover proves the transfer.
* `sound_iff`: so the circuit is sound at a public input only when the transfer exists anyway. -/

namespace TruthLinked.Zk.Soundness

open Lib.Goldilocks Lib.Rows Zk.Transfer Ledger.PrivateBalance Matrix

variable {p : CtPublicInputs} {h : ℕ} {t : Trace} {w : CtWitness}

theorem pow7_eq (x : Felt) : pow7 x = x ^ 7 := by
  unfold pow7
  ring

/-! ## One hash -/

/-- The matrices are inverse to each other. -/
def Rescue.Invertible (c : Rescue) : Prop := c.mds * c.invMds = 1 ∧ c.invMds * c.mds = 1

/-- Half a round: even steps are first halves. -/
def half (c : Rescue) (k : ℕ) (s : HashState) : HashState :=
  if k % 2 = 0 then firstHalf c (k / 2) s else secondHalf c (k / 2) s

theorem half_even (c : Rescue) (r : ℕ) (s : HashState) : half c (2 * r) s = firstHalf c r s := by
  unfold half
  rw [if_pos (by omega), Nat.mul_div_cancel_left r (by decide)]

theorem half_odd (c : Rescue) (r : ℕ) (s : HashState) : half c (2 * r + 1) s = secondHalf c r s := by
  unfold half
  rw [if_neg (by omega), show (2 * r + 1) / 2 = r by omega]

theorem rounds_eq (c : Rescue) (s : HashState) (n : ℕ) :
    (List.range n).foldl (fun s r => secondHalf c r (firstHalf c r s)) s = iter (half c) (2 * n) s := by
  induction n with
  | zero => rfl
  | succ n ih =>
    rw [List.range_succ, List.foldl_append, ih, show 2 * (n + 1) = 2 * n + 1 + 1 by omega, iter, iter,
      half_even, half_odd]
    rfl

theorem applyPermutation_eq (c : Rescue) (s : HashState) :
    applyPermutation c s = iter (half c) (rowsPerHash - 1) s := rounds_eq c s numRounds

section Half
variable {c : Rescue} (hinv : Rescue.Invertible c)
include hinv

theorem mds_invMds (v : HashState) : c.mds *ᵥ (c.invMds *ᵥ v) = v := by
  rw [mulVec_mulVec, hinv.1, one_mulVec]

theorem invMds_mds (v : HashState) : c.invMds *ᵥ (c.mds *ᵥ v) = v := by
  rw [mulVec_mulVec, hinv.2, one_mulVec]

/-- The two halves are undone by the S-boxes and the inverse matrix. -/
theorem half_surjective (k : ℕ) : Function.Surjective (half c k) := by
  intro y
  unfold half
  by_cases hk : k % 2 = 0
  · simp only [if_pos hk]
    refine ⟨fun i => (c.invMds *ᵥ (y - c.ark1 (k / 2))) i ^ invAlpha, ?_⟩
    unfold firstHalf
    simp only [pow7_eq, root_pow, mds_invMds hinv, sub_add_cancel]
  · simp only [if_neg hk]
    refine ⟨fun i => (c.invMds *ᵥ (y - c.ark2 (k / 2))) i ^ 7, ?_⟩
    unfold secondHalf
    simp only [pow_root, mds_invMds hinv, sub_add_cancel]

theorem secondHalf_iff (r : ℕ) (s next : HashState) :
    (∀ i, s i = pow7 ((c.invMds *ᵥ (next - c.ark2 r)) i)) ↔ next = secondHalf c r s := by
  constructor
  · intro h
    have hroot : (fun i => s i ^ invAlpha) = c.invMds *ᵥ (next - c.ark2 r) := by
      funext i
      rw [h i, pow7_eq, pow_root]
    unfold secondHalf
    rw [hroot, mds_invMds hinv, sub_add_cancel]
  · rintro rfl i
    unfold secondHalf
    rw [add_sub_cancel_right, invMds_mds hinv, pow7_eq, root_pow]

end Half

theorem firstHalf_iff (c : Rescue) (r : ℕ) (s next : HashState) :
    (∀ i, next i - (c.mds *ᵥ fun j => pow7 (s j)) i - c.ark1 r i = 0) ↔ next = firstHalf c r s := by
  unfold firstHalf
  rw [funext_iff]
  refine forall_congr' fun i => ?_
  rw [sub_sub, sub_eq_zero]
  rfl

/-! ## The steps of the table -/

/-- Step `k` of hash `h`. -/
def stepOf (h k : ℕ) : ℕ := hashStart h + k

theorem periodic_active : ∀ h < numHashes, ∀ k < rowsPerHash - 1,
    activeStep (stepOf h k) = true ∧ roundAt (k % 2) (stepOf h k) = some (k / 2) ∧
      roundAt ((k + 1) % 2) (stepOf h k) = none := by
  decide +kernel

theorem activeStep_iff : ∀ step < traceLen,
    activeStep step = true ↔ step / rowsPerHash < numHashes ∧ step % rowsPerHash < rowsPerHash - 1 := by
  decide +kernel

/-- **A step inside a hash.** The constraints say that the next row is half a round further. -/
theorem transition_iff {c : Rescue} (hinv : Rescue.Invertible c) {k : ℕ} (hh : h < numHashes)
    (hk : k < rowsPerHash - 1) (cur next : ℕ → Felt) :
    (∀ i, stateConstraint c cur next (getPeriodicColumnValues c (stepOf h k)) i = 0) ↔
      stateOf next = half c k (stateOf cur) := by
  obtain ⟨hactive, hround, hother⟩ := periodic_active h hh k hk
  rcases Nat.mod_two_eq_zero_or_one k with hpar | hpar
  · rw [hpar] at hround
    have hhalf : half c k (stateOf cur) = firstHalf c (k / 2) (stateOf cur) := if_pos hpar
    rw [hhalf, ← firstHalf_iff]
    refine forall_congr' fun i => ?_
    simp only [stateConstraint, getPeriodicColumnValues, hactive, hround, Option.map_some,
      Option.getD_some, Option.isSome_some, if_true, one_mul, sub_self, zero_mul, add_zero]
    rfl
  · have hpar' : (k + 1) % 2 = 0 := by omega
    rw [hpar] at hround
    rw [hpar'] at hother
    have hhalf : half c k (stateOf cur) = secondHalf c (k / 2) (stateOf cur) :=
      if_neg (by omega)
    rw [hhalf, ← secondHalf_iff hinv]
    refine forall_congr' fun i => ?_
    simp only [stateConstraint, getPeriodicColumnValues, hactive, hround, hother, Option.map_some,
      Option.getD_some, Option.isSome_none, if_true, one_mul, zero_mul, zero_add, sub_zero, sub_eq_zero,
      Bool.false_eq_true, if_false]
    rfl

theorem stateConstraint_inactive (c : Rescue) {step : ℕ} (h : activeStep step = false) (cur next : ℕ → Felt)
    (i : Fin stateW) : stateConstraint c cur next (getPeriodicColumnValues c step) i = 0 := by
  simp only [stateConstraint, getPeriodicColumnValues, h, Bool.false_eq_true, if_false, zero_mul]

theorem evaluate_iff (c : Rescue) (cur next : ℕ → Felt) (step : ℕ) :
    (∀ r ∈ evaluateTransition c cur next (getPeriodicColumnValues c step), r = 0) ↔
      (∀ i, stateConstraint c cur next (getPeriodicColumnValues c step) i = 0) ∧
      (step = conservationRow → cur 0 = cur 2 + cur 8 ∧ cur 6 = cur 4 + cur 8 ∧
        cur 1 = 0 ∧ cur 3 = 0 ∧ cur 5 = 0 ∧ cur 7 = 0 ∧ cur 9 = 0) := by
  unfold evaluateTransition
  simp only [List.append_assoc, List.mem_append, List.mem_singleton, or_imp, forall_and, forall_eq,
    List.mem_ofFn, forall_exists_index, forall_apply_eq_imp_iff, true_and]
  refine and_congr_right fun _ => ?_
  by_cases hstep : step = conservationRow
  · simp only [conservationConstraints, getPeriodicColumnValues, hstep, if_true, one_mul, List.mem_cons,
      List.not_mem_nil, or_false, forall_eq_or_imp, forall_eq, true_implies]
    refine and_congr ?_ (and_congr ?_ Iff.rfl)
    · constructor
      · intro h
        linear_combination h
      · intro h
        linear_combination h
    · constructor
      · intro h
        linear_combination -h
      · intro h
        linear_combination -h
  · simp [conservationConstraints, getPeriodicColumnValues, hstep]

/-- The digest of the hash with the given number. -/
def digestAt (p : CtPublicInputs) : ℕ → Digest
  | 0 => p.sOld
  | 1 => p.sNew
  | 2 => p.rOld
  | 3 => p.rNew
  | _ => p.amt

theorem forall_hash {P : ℕ → Prop} : (∀ h < numHashes, P h) ↔ P 0 ∧ P 1 ∧ P 2 ∧ P 3 ∧ P 4 := by
  constructor
  · intro h
    exact ⟨h 0 (by decide), h 1 (by decide), h 2 (by decide), h 3 (by decide), h 4 (by decide)⟩
  · rintro ⟨h0, h1, h2, h3, h4⟩ h hh
    have hcases : h = 0 ∨ h = 1 ∨ h = 2 ∨ h = 3 ∨ h = 4 := by
      unfold numHashes at hh
      omega
    rcases hcases with rfl | rfl | rfl | rfl | rfl
    exacts [h0, h1, h2, h3, h4]

theorem digest_asserted (digest : Digest) (row : ℕ) (t : Trace) :
    (∀ a ∈ (List.ofFn digest).zipIdx.map fun (val, d) => (⟨4 + d, row, val⟩ : Assertion),
      t a.row a.column = a.value) ↔ digestOf (stateOf (t row)) = digest := by
  simp only [List.ofFn_succ, List.ofFn_zero, List.zipIdx_cons, List.zipIdx_nil, List.map_cons, List.map_nil,
    List.mem_cons, List.not_mem_nil, or_false, forall_eq_or_imp, forall_eq, digestOf]
  constructor
  · rintro ⟨h0, h1, h2, h3⟩
    funext d
    fin_cases d
    exacts [h0, h1, h2, h3]
  · rintro rfl
    exact ⟨rfl, rfl, rfl, rfl⟩

theorem boundary_iff (p : CtPublicInputs) (t : Trace) :
    (∀ a ∈ getAssertions p, t a.row a.column = a.value) ↔
      ∀ h < numHashes, digestOf (stateOf (t (stepOf h (rowsPerHash - 1)))) = digestAt p h := by
  have hrow : ∀ h, stepOf h (rowsPerHash - 1) = hashStart h + rowsPerHash - 1 := by
    intro h
    unfold stepOf rowsPerHash numRounds
    omega
  rw [forall_hash]
  simp only [hrow, digestAt, ← digest_asserted]
  unfold getAssertions CtPublicInputs.digests
  simp only [List.zipIdx_cons, List.zipIdx_nil, List.flatMap_cons, List.flatMap_nil, List.append_nil,
    List.forall_mem_append]

/-! ## Tables -/

/-- A table from the first rows of its hashes and its row of balances, the other cells zero. -/
def fill (c : Rescue) (start : ℕ → HashState) (balances : ℕ → Felt) : Trace := fun row col =>
  if row < conservationRow then
    if hcol : col < stateW then iter (half c) (row % rowsPerHash) (start (row / rowsPerHash)) ⟨col, hcol⟩
    else 0
  else if row = conservationRow then balances col
  else 0

/-- The row of balances meets its constraints. -/
def Balanced (row : ℕ → Felt) : Prop :=
  row 0 = row 2 + row 8 ∧ row 6 = row 4 + row 8 ∧ row 1 = 0 ∧ row 3 = 0 ∧ row 5 = 0 ∧ row 7 = 0 ∧ row 9 = 0

theorem fill_hash (c : Rescue) (start : ℕ → HashState) (balances : ℕ → Felt) {k : ℕ} (hh : h < numHashes)
    (hk : k < rowsPerHash) : stateOf (fill c start balances (stepOf h k)) = iter (half c) k (start h) := by
  have hlt : stepOf h k < conservationRow := by
    unfold stepOf hashStart conservationRow
    unfold numHashes at hh ⊢
    unfold rowsPerHash numRounds at hk ⊢
    omega
  have hdiv : stepOf h k / rowsPerHash = h := by
    unfold stepOf hashStart
    rw [Nat.add_comm, Nat.add_mul_div_right k h (by decide), Nat.div_eq_of_lt hk, Nat.zero_add]
  have hmod : stepOf h k % rowsPerHash = k := by
    unfold stepOf hashStart
    rw [Nat.add_comm, Nat.add_mul_mod_self_right, Nat.mod_eq_of_lt hk]
  funext i
  unfold stateOf fill
  rw [if_pos hlt, dif_pos i.isLt, hdiv, hmod]

theorem fill_balances (c : Rescue) (start : ℕ → HashState) (balances : ℕ → Felt) :
    fill c start balances conservationRow = balances := by
  funext col
  unfold fill
  rw [if_neg (lt_irrefl _), if_pos rfl]

/-- **A table whose hashes are written half by half is accepted for the digests they end in.** -/
theorem accepts_of_rows {c : Rescue} (hinv : Rescue.Invertible c) {start : ℕ → HashState}
    (hrows : ∀ h < numHashes, ∀ k < rowsPerHash,
      stateOf (t (stepOf h k)) = iter (half c) k (start h)) (hbal : Balanced (t conservationRow))
    (hstart : ∀ h < numHashes, digestOf (applyPermutation c (start h)) = digestAt p h) : Accepts c p t where
  transition step hstep := by
    rw [evaluate_iff]
    constructor
    · cases hactive : activeStep step with
      | false => exact stateConstraint_inactive c hactive _ _
      | true =>
        obtain ⟨hh, hk⟩ := (activeStep_iff step (by omega)).mp hactive
        have hdecomp : step = stepOf (step / rowsPerHash) (step % rowsPerHash) := by
          unfold stepOf hashStart
          rw [Nat.mul_comm]
          exact (Nat.div_add_mod step rowsPerHash).symm
        generalize step / rowsPerHash = h at *
        generalize step % rowsPerHash = k at *
        subst hdecomp
        rw [transition_iff hinv hh hk]
        have hnext : stepOf h k + 1 = stepOf h (k + 1) := rfl
        rw [hnext, hrows h hh (k + 1) (by omega), hrows h hh k (by omega)]
        rfl
    · rintro rfl
      exact hbal
  boundary := by
    rw [boundary_iff]
    intro h hh
    rw [hrows h hh _ (by decide), ← applyPermutation_eq]
    exact hstart h hh

theorem accepts_fill {c : Rescue} (hinv : Rescue.Invertible c) {start : ℕ → HashState}
    {balances : ℕ → Felt} (hbal : Balanced balances)
    (hstart : ∀ h < numHashes, digestOf (applyPermutation c (start h)) = digestAt p h) :
    Accepts c p (fill c start balances) := by
  refine accepts_of_rows hinv (fun h hh k hk => fill_hash c start balances hh hk) ?_ hstart
  rw [fill_balances]
  exact hbal

theorem exists_input {c : Rescue} (hinv : Rescue.Invertible c) (digest : Digest) :
    ∃ s, digestOf (applyPermutation c s) = digest := by
  obtain ⟨s, hs⟩ := iter_surjective (half_surjective hinv) (rowsPerHash - 1)
    ![0, 0, 0, 0, digest 0, digest 1, digest 2, digest 3, 0, 0, 0, 0]
  refine ⟨s, ?_⟩
  rw [applyPermutation_eq, hs]
  funext d
  fin_cases d <;> rfl

/-- **Every public input is accepted**, with a row of balances that is all zero. -/
theorem accepts_forged {c : Rescue} (hinv : Rescue.Invertible c) (p : CtPublicInputs) :
    ∃ t, Accepts c p t := by
  choose start hstart using fun h => exists_input hinv (digestAt p h)
  refine ⟨fill c start 0, accepts_fill hinv ?_ fun h _ => hstart h⟩
  simp [Balanced]

/-! ## Honest tables -/

/-- The digests commit to balances in range that the amount moves from one account to the other. -/
structure Opens (c : Rescue) (p : CtPublicInputs) (w : CtWitness) : Prop where
  commitments : p = w.pubInputs c
  range : ∀ bal ∈ [w.sOldBal, w.sNewBal, w.rOldBal, w.rNewBal], bal.toNat ≤ maxPrivateBalance
  sender : w.sOldBal.toNat = w.sNewBal.toNat + w.amount.toNat
  recipient : w.rNewBal.toNat = w.rOldBal.toNat + w.amount.toNat

/-- The cells that no constraint ties are those of the prover: the first row of each hash is the input of its
commitment, the row of balances holds the committed values, and these are too small to wrap around. -/
structure Filled (w : CtWitness) (t : Trace) : Prop where
  inputs : ∀ h < numHashes, stateOf (t (hashStart h)) = w.input h
  balances : t conservationRow 0 = (u128ToFelts w.sOldBal).1 ∧ t conservationRow 2 = (u128ToFelts w.sNewBal).1 ∧
    t conservationRow 4 = (u128ToFelts w.rOldBal).1 ∧ t conservationRow 6 = (u128ToFelts w.rNewBal).1 ∧
    t conservationRow 8 = (u128ToFelts w.amount).1
  small : w.sOldBal.toNat < modulus ∧ w.rNewBal.toNat < modulus ∧
    w.sNewBal.toNat + w.amount.toNat < modulus ∧ w.rOldBal.toNat + w.amount.toNat < modulus

theorem accepted_hash {c : Rescue} (hinv : Rescue.Invertible c)
    (ht : Accepts c p t) (hh : h < numHashes) :
    digestAt p h = digestOf (applyPermutation c (stateOf (t (hashStart h)))) := by
  have hrows : ∀ k < rowsPerHash - 1, stateOf (t (stepOf h (k + 1))) = half c k (stateOf (t (stepOf h k))) := by
    intro k hk
    have hlen : stepOf h k + 1 < traceLen := by
      unfold stepOf hashStart traceLen
      unfold numHashes at hh
      unfold rowsPerHash numRounds at hk ⊢
      omega
    have hstep := ((evaluate_iff c _ _ _).mp (ht.transition (stepOf h k) hlen)).1
    exact (transition_iff hinv hh hk _ _).mp hstep
  have hlast := @eq_iter _ _ (fun k => stateOf (t (stepOf h k))) _ hrows
  rw [applyPermutation_eq, ← (boundary_iff p t).mp ht.boundary h hh, hlast]
  rfl

/-- Low limbs of values below the modulus: sums that do not wrap are sums of numbers. -/
theorem eq_of_limbs {a b d : BitVec 128} (ha : a.toNat < modulus) (hbd : b.toNat + d.toNat < modulus)
    (h : (u128ToFelts a).1 = (u128ToFelts b).1 + (u128ToFelts d).1) : a.toNat = b.toNat + d.toNat := by
  have hsmall : ∀ x < modulus, x % 2 ^ 64 = x := fun x hx => by
    have hlt : modulus < 2 ^ 64 := by norm_num
    omega
  unfold u128ToFelts at h
  dsimp only at h
  rw [hsmall _ ha, hsmall b.toNat (by omega), hsmall d.toNat (by omega), ← Nat.cast_add] at h
  have hval := congrArg ZMod.val h
  rwa [ZMod.val_natCast, ZMod.val_natCast, Nat.mod_eq_of_lt ha, Nat.mod_eq_of_lt hbd] at hval

/-- **A table filled by the prover proves the transfer.** -/
theorem opens_of_filled {c : Rescue} (hinv : Rescue.Invertible c)
    (ht : Accepts c p t) (hw : Filled w t) : Opens c p w := by
  have hdigest : ∀ h < numHashes, digestAt p h = digestOf (applyPermutation c (w.input h)) := by
    intro h hh
    rw [accepted_hash hinv ht hh, hw.inputs h hh]
  obtain ⟨h0, h1, h2, h3, h4⟩ := forall_hash.mp hdigest
  have hstep := ht.transition conservationRow (by decide)
  obtain ⟨hs, hr, -⟩ := ((evaluate_iff c _ _ _).mp hstep).2 rfl
  obtain ⟨b0, b2, b4, b6, b8⟩ := hw.balances
  obtain ⟨hsOld, hrNew, hsSum, hrSum⟩ := hw.small
  rw [b0, b2, b8] at hs
  rw [b6, b4, b8] at hr
  have hsender := eq_of_limbs hsOld hsSum hs
  have hrecipient := eq_of_limbs hrNew hrSum hr
  have hmax : modulus < maxPrivateBalance := by norm_num [maxPrivateBalance]
  refine ⟨?_, ?_, hsender, hrecipient⟩
  · obtain ⟨sOld, sNew, rOld, rNew, amt⟩ := p
    exact CtPublicInputs.mk.injEq .. |>.mpr ⟨h0, h1, h2, h3, h4⟩
  · simp only [List.mem_cons, List.not_mem_nil, or_false, forall_eq_or_imp, forall_eq]
    omega

def balanceRow (w : CtWitness) : ℕ → Felt
  | 0 => (u128ToFelts w.sOldBal).1
  | 1 => (u128ToFelts w.sOldBal).2
  | 2 => (u128ToFelts w.sNewBal).1
  | 3 => (u128ToFelts w.sNewBal).2
  | 4 => (u128ToFelts w.rOldBal).1
  | 5 => (u128ToFelts w.rOldBal).2
  | 6 => (u128ToFelts w.rNewBal).1
  | 7 => (u128ToFelts w.rNewBal).2
  | 8 => (u128ToFelts w.amount).1
  | 9 => (u128ToFelts w.amount).2
  | _ => 0

def buildTrace (c : Rescue) (w : CtWitness) : Trace := fill c w.input (balanceRow w)

theorem digest_input (c : Rescue) (w : CtWitness) :
    ∀ h < numHashes, digestOf (applyPermutation c (w.input h)) = digestAt (w.pubInputs c) h := by
  rw [forall_hash]
  unfold CtWitness.pubInputs rescueCommit rescueCommitAmount
  exact ⟨rfl, rfl, rfl, rfl, rfl⟩

theorem accepts_buildTrace {c : Rescue} (hinv : Rescue.Invertible c)
    (hbal : Balanced (balanceRow w)) : Accepts c (w.pubInputs c) (buildTrace c w) :=
  accepts_fill hinv hbal (digest_input c w)

theorem filled_buildTrace (c : Rescue)
    (hsmall : w.sOldBal.toNat < modulus ∧ w.rNewBal.toNat < modulus ∧
      w.sNewBal.toNat + w.amount.toNat < modulus ∧ w.rOldBal.toNat + w.amount.toNat < modulus) :
    Filled w (buildTrace c w) where
  inputs h hh := by
    have hfirst : 0 < rowsPerHash := by decide
    have hrow := fill_hash c w.input (balanceRow w) hh hfirst
    unfold stepOf at hrow
    rw [Nat.add_zero] at hrow
    exact hrow
  balances := by
    unfold buildTrace
    rw [fill_balances]
    exact ⟨rfl, rfl, rfl, rfl, rfl⟩
  small := hsmall

/-! ## Soundness -/

/-- **What the circuit proves.** Some table is accepted for every public input, so the circuit is sound at an
input only when the transfer exists without any proof. A table proves the transfer when the cells that no
constraint ties are those of the prover. -/
theorem sound_iff (c : Rescue) (hinv : Rescue.Invertible c) (p : CtPublicInputs) :
    (∃ t, Accepts c p t) ∧
    ((∀ t, Accepts c p t → ∃ w, Opens c p w) ↔ ∃ w, Opens c p w) ∧
    ∀ t w, Accepts c p t → Filled w t → Opens c p w := by
  obtain ⟨t, ht⟩ := accepts_forged hinv p
  refine ⟨⟨t, ht⟩, ⟨fun h => h t ht, fun h _ _ => h⟩, ?_⟩
  intro t w ht hw
  exact opens_of_filled hinv ht hw

def circulant (row : List ℕ) : Matrix (Fin stateW) (Fin stateW) Felt :=
  fun i j => (row.getD ((j + stateW - i) % stateW) 0 : ℕ)

def rp64 (ark1 ark2 : ℕ → Fin stateW → Felt) : Rescue where
  mds := circulant [7, 23, 8, 26, 13, 10, 9, 7, 6, 22, 21, 8]
  invMds := circulant
    [14868391535953158196, 13278298489594233127, 389999932707070822, 9782021734907796003,
      4829905704463175582, 7567822018949214430, 14205019324568680367, 15489674211196160593,
      17636013826542227504, 16254215311946436093, 3641486184877122796, 11069068059762973582]
  ark1 := ark1
  ark2 := ark2

theorem rp64_invertible (ark1 ark2 : ℕ → Fin stateW → Felt) : Rescue.Invertible (rp64 ark1 ark2) := by
  have hentry : ∀ i j, ((rp64 0 0).mds * (rp64 0 0).invMds) i j = (if i = j then 1 else 0) ∧
      ((rp64 0 0).invMds * (rp64 0 0).mds) i j = if i = j then 1 else 0 := by
    decide +kernel
  constructor
  · ext i j
    rw [Matrix.one_apply]
    exact (hentry i j).1
  · ext i j
    rw [Matrix.one_apply]
    exact (hentry i j).2

def sampleWitness : CtWitness where
  sOldBal := 1000
  sNewBal := 700
  rOldBal := 200
  rNewBal := 500
  amount := 300
  sOldNonce := 11
  sNewNonce := 22
  rOldNonce := 33
  rNewNonce := 44
  amtNonce := 55
  ctHashSOld := ⟨List.replicate 16 1, rfl⟩
  ctHashSNew := ⟨List.replicate 16 2, rfl⟩
  ctHashROld := ⟨List.replicate 16 3, rfl⟩
  ctHashRNew := ⟨List.replicate 16 4, rfl⟩

/-- The result at the matrices of `Rp64_256`, where the prover's table of the sample is accepted and
filled. -/
theorem sound_iff_rp64 :
    (∀ ark1 ark2, Rescue.Invertible (rp64 ark1 ark2)) ∧
    ∀ ark1 ark2, ∃ t, Accepts (rp64 ark1 ark2) (sampleWitness.pubInputs (rp64 ark1 ark2)) t ∧
      Filled sampleWitness t ∧
      Opens (rp64 ark1 ark2) (sampleWitness.pubInputs (rp64 ark1 ark2)) sampleWitness := by
  refine ⟨rp64_invertible, fun ark1 ark2 => ?_⟩
  have hinv := rp64_invertible ark1 ark2
  have ht : Accepts (rp64 ark1 ark2) (sampleWitness.pubInputs (rp64 ark1 ark2))
      (buildTrace (rp64 ark1 ark2) sampleWitness) :=
    accepts_buildTrace hinv (by unfold Balanced; decide +kernel)
  have hfilled : Filled sampleWitness (buildTrace (rp64 ark1 ark2) sampleWitness) :=
    filled_buildTrace (rp64 ark1 ark2) (by decide +kernel)
  exact ⟨_, ht, hfilled, (sound_iff _ hinv _).2.2 _ _ ht hfilled⟩

theorem exists_unopened (commit : BitVec 128 → BitVec 128 → Digest) : ∃ digest : Digest,
    ∀ amount nonce : BitVec 128, amount.toNat ≤ maxPrivateBalance → digest ≠ commit amount nonce := by
  by_contra hall
  push Not at hall
  have hsurj : Function.Surjective fun x : Fin (2 ^ 96) × Fin (2 ^ 128) =>
      commit (BitVec.ofNat 128 x.1) (BitVec.ofFin x.2) := by
    intro digest
    obtain ⟨amount, nonce, hle, heq⟩ := hall digest
    have hlt : amount.toNat < 2 ^ 96 := by
      unfold maxPrivateBalance at hle
      omega
    refine ⟨(⟨amount.toNat, hlt⟩, nonce.toFin), ?_⟩
    dsimp only
    rw [BitVec.ofNat_toNat, BitVec.setWidth_eq, heq]
  have hcard := Fintype.card_le_of_surjective _ hsurj
  have hfelt : Fintype.card Felt = modulus := ZMod.card modulus
  rw [Fintype.card_prod, Fintype.card_fin (2 ^ 96), Fintype.card_fin (2 ^ 128), Fintype.card_fun, hfelt,
    Fintype.card_fin 4] at hcard
  norm_num at hcard

/-- For no constants is the circuit sound: a digest that commits to no amount in range is accepted too. -/
theorem forged_amount_accepted :
    ¬ ∃ c, Rescue.Invertible c ∧ ∀ p t, Accepts c p t → ∃ w, Opens c p w := by
  rintro ⟨c, hinv, hsound⟩
  obtain ⟨digest, hdigest⟩ := exists_unopened (rescueCommitAmount c)
  obtain ⟨t, ht⟩ := accepts_forged hinv ⟨0, 0, 0, 0, digest⟩
  obtain ⟨w, hw⟩ := hsound _ t ht
  refine hdigest w.amount w.amtNonce ?_ (congrArg CtPublicInputs.amt hw.commitments)
  have hrange := hw.range w.sOldBal List.mem_cons_self
  have hsender := hw.sender
  omega

end TruthLinked.Zk.Soundness
