import TruthLinked.Consensus.DoubleSign
import TruthLinked.Staking.Bounds

/-! # Who is slashed for a double sign

`slash_validator` takes the validator and the evidence as two arguments. The evidence is checked under the key
that it carries itself, and that key is never compared with the validator's. So a slash rests on the slashed
validator's own signatures exactly where the evidence carries its key or takes nothing from it
(`accountable_iff`). -/

namespace TruthLinked.Staking.Accountability

open Core.Types Staking.State Staking.Specs Staking.Slash Staking.Conservation Staking.Bounds
open Consensus.Types Consensus.DoubleSign Lib.Table

section
variable (prim : Primitives) (isKey : Bytes → Bool) (percentage : SlashReason → ℕ)

/-- The state after `slash_validator(v, DoubleSign, ev)`. -/
def afterSlash (st : StakingState) (v : Bytes) (ev : DoubleSignEvidence) : StakingState :=
  slashStep (verifyDoubleSignEvidence prim isKey) percentage .doubleSign (some ev) st v

/-- The evidence is about `w`, whose key signed two batches at one height. -/
structure OwnEvidence (w : Bytes) (ev : DoubleSignEvidence) : Prop where
  key : ev.validatorPubkey = w
  differ : ev.batchHash1 ≠ ev.batchHash2
  first : prim.verify w (stakingAttestationMessage ev.height ev.batchHash1) ev.signature1
    attestationContext = true
  second : prim.verify w (stakingAttestationMessage ev.height ev.batchHash2) ev.signature2
    attestationContext = true

/-- **Whoever loses stake has signed twice.** -/
def Accountable (st : StakingState) (v : Bytes) (ev : DoubleSignEvidence) : Prop :=
  ∀ w, (afterSlash prim isKey percentage st v ev).stakeAt w < st.stakeAt w → OwnEvidence prim w ev

end

section
variable {prim : Primitives} {isKey : Bytes → Bool} {percentage : SlashReason → ℕ} {st : StakingState}
  {v w : Bytes} {ev : DoubleSignEvidence}

theorem verifyDoubleSignEvidence_ok (h : verifyDoubleSignEvidence prim isKey ev = .ok ()) :
    OwnEvidence prim ev.validatorPubkey ev := by
  refine ⟨rfl, ?_, ?_, ?_⟩
  · intro hsame
    simp [verifyDoubleSignEvidence, hsame, throw, throwThe, MonadExceptOf.throw, bind, Except.bind] at h
  · by_contra hfirst
    rw [Bool.not_eq_true] at hfirst
    simp [verifyDoubleSignEvidence, hfirst, throw, throwThe, MonadExceptOf.throw, bind, Except.bind] at h
    split_ifs at h
  · by_contra hsecond
    rw [Bool.not_eq_true] at hsecond
    simp [verifyDoubleSignEvidence, hsecond, throw, throwThe, MonadExceptOf.throw, bind, Except.bind] at h
    split_ifs at h

theorem checkEvidence_doubleSign (check : DoubleSignEvidence → Except String Unit) :
    checkEvidence check .doubleSign (some ev) = check ev := rfl

theorem computeSlash_doubleSign {check : DoubleSignEvidence → Except String Unit} (h : check ev = .ok ()) :
    computeSlash check percentage st v .doubleSign (some ev) =
      computeSlashOutcome st v (percentage .doubleSign) := by
  rw [computeSlash, checkEvidence_doubleSign, h]
  rfl

/-! ## Stakes after a slash -/

theorem stakeAt_of_some {r : ValidatorStake} (h : st.validators[v]? = some r) : st.stakeAt v = r.activeStake := by
  rw [StakingState.stakeAt, h]
  rfl

/-- The stake of a key in a map of records. -/
def stakeIn (m : Map Bytes ValidatorStake) (pk : Bytes) : ℕ := (m[pk]?.map ValidatorStake.activeStake).getD 0

theorem stakeIn_le_redistribution (shares : List (Bytes × ℕ)) {m : Map Bytes ValidatorStake} {a : Bytes}
    (h : stakeIn m a < u64) : stakeIn m a ≤ stakeIn (applyRedistribution shares m) a := by
  induction shares generalizing m with
  | nil => exact le_rfl
  | cons e shares ih =>
    obtain ⟨k, share⟩ := e
    obtain ⟨m', hm', hlook⟩ := applyRedistribution_cons k share shares m a
    have hstep : stakeIn m a ≤ stakeIn m' a ∧ stakeIn m' a < u64 := by
      unfold stakeIn at h ⊢
      rw [hlook]
      split_ifs with ha
      · rw [ha] at h ⊢
        cases hk : m[k]? with
        | none => simp
        | some r =>
          rw [hk] at h
          simp only [Option.map_some, Option.getD_some] at h ⊢
          unfold given
          split_ifs
          · exact ⟨le_rfl, h⟩
          · dsimp only
            unfold satAdd64
            omega
      · exact ⟨le_rfl, h⟩
    rw [hm']
    exact hstep.1.trans (ih hstep.2)

theorem stakeAt_slashed_of_ne {o : SlashOutcome} (hne : w ≠ v) (h : st.stakeAt w < u64) :
    st.stakeAt w ≤ (slashed v o st).stakeAt w := by
  have hsame : stakeIn (debited v o st).validators w = st.stakeAt w := by
    rw [stakeIn, debited_getElem?, if_neg hne, StakingState.stakeAt]
  have hle := stakeIn_le_redistribution o.redistribution (a := w) (m := (debited v o st).validators)
    (by rwa [hsame])
  rwa [hsame] at hle

/-- The key that gets everything back is the treasury's. -/
def Returned (st : StakingState) (v : Bytes) : Prop :=
  eligible st v = [] ∧ ∃ treasury, st.treasuryAccountId = some treasury ∧ ofBytes32 treasury = v

theorem stakeAt_debited {o : SlashOutcome} {r : ValidatorStake} (hr : st.validators[v]? = some r) :
    (debited v o st).validators[v]? = some (penalised st.currentHeight o r) := by
  rw [debited_getElem?, if_pos rfl, validatorAt_of_some hr]

/-- The slashed validator loses the amount, unless it is the treasury. -/
theorem stakeAt_slashed_self {o : SlashOutcome} {p : ℕ} (h : computeSlashOutcome st v p = .ok o)
    (hnot : ¬ Returned st v) : (slashed v o st).stakeAt v < st.stakeAt v := by
  obtain ⟨r, hr, hamount, hle, hred⟩ := computeSlashOutcome_eq_ok h
  have hkey : v ∉ o.redistribution.map Prod.fst := by
    intro hin
    obtain ⟨e, he, rfl⟩ := List.mem_map.mp hin
    rw [hred] at he
    by_cases hnone : eligible st e.1 = []
    · unfold computeRedistribution at he
      simp only [hnone, if_true] at he
      cases ht : st.treasuryAccountId with
      | none =>
        rw [ht] at he
        cases he
      | some treasury =>
        rw [ht] at he
        exact hnot ⟨hnone, treasury, ht, by rw [List.mem_singleton.mp he]⟩
    · obtain ⟨e', he', heq⟩ := List.mem_map.mp (fst_mem_redistribution hnone he)
      exact (eligible_spec he').1 heq
  have hafter : (slashed v o st).validators[v]? = some (penalised st.currentHeight o r) := by
    rw [slashed_eq, applyRedistribution_of_notMem hkey, stakeAt_debited hr]
  rw [stakeAt_of_some hafter, stakeAt_of_some hr]
  show r.activeStake - o.amount < r.activeStake
  omega

theorem stakeAt_slashed_returned {o : SlashOutcome} {p : ℕ} (h : computeSlashOutcome st v p = .ok o)
    (h64 : st.stakeAt v < u64) (hret : Returned st v) : (slashed v o st).stakeAt v = st.stakeAt v := by
  obtain ⟨r, hr, hamount, hle, hred⟩ := computeSlashOutcome_eq_ok h
  obtain ⟨hnone, treasury, ht, hkey⟩ := hret
  have hshares : o.redistribution = [(v, o.amount)] := by
    rw [hred, computeRedistribution]
    simp only [hnone, if_true, ht, hkey]
  have hnodup : (o.redistribution.map Prod.fst).Nodup := by
    rw [hshares]
    exact List.nodup_singleton _
  have hmem : (v, o.amount) ∈ o.redistribution := by
    rw [hshares]
    exact List.mem_cons_self
  have hafter : (slashed v o st).validators[v]? =
      some (given o.amount (penalised st.currentHeight o r)) := by
    rw [slashed_eq, applyRedistribution_of_mem hnodup hmem, stakeAt_debited hr, Option.map_some]
  rw [stakeAt_of_some hr] at h64 ⊢
  rw [stakeAt_of_some hafter, given, if_neg hamount]
  have hstake : (penalised st.currentHeight o r).activeStake = r.activeStake - o.amount := rfl
  rw [hstake, satAdd64_eq (by omega)]
  exact Nat.sub_add_cancel hle

theorem computeSlashOutcome_of_pos (p : ℕ) (h : st.stakeAt v ≠ 0) : ∃ o, computeSlashOutcome st v p = .ok o := by
  unfold computeSlashOutcome
  cases hr : st.validators[v]? with
  | none =>
    rw [StakingState.stakeAt, hr] at h
    exact absurd rfl h
  | some r =>
    rw [stakeAt_of_some hr] at h
    simp only [if_neg h]
    exact ⟨_, rfl⟩

/-- **The link between evidence and victim.** Whoever loses stake has signed twice, exactly where the evidence
carries the key of the slashed validator or takes nothing from it: because the evidence is refused, because
the validator has no active stake, or because all of it comes back to it as the treasury. -/
theorem accountable_iff (prim : Primitives) (isKey : Bytes → Bool) (percentage : SlashReason → ℕ)
    (st : StakingState) (v : Bytes) (ev : DoubleSignEvidence) (h64 : ∀ w, st.stakeAt w < u64) :
    Accountable prim isKey percentage st v ev ↔
      ev.validatorPubkey = v ∨ verifyDoubleSignEvidence prim isKey ev ≠ .ok () ∨ st.stakeAt v = 0 ∨
        Returned st v := by
  unfold Accountable afterSlash slashStep
  cases ho : computeSlash (verifyDoubleSignEvidence prim isKey) percentage st v .doubleSign (some ev) with
  | error e =>
    -- nothing is taken, so one of the reasons applies
    rw [outcome_slashValidator_error ho]
    refine ⟨fun _ => ?_, fun _ w hlt => absurd hlt (lt_irrefl _)⟩
    by_contra hno
    push Not at hno
    obtain ⟨-, hok, hpos, -⟩ := hno
    obtain ⟨o, hcompute⟩ := computeSlashOutcome_of_pos (percentage .doubleSign) hpos
    have hslash : computeSlash (verifyDoubleSignEvidence prim isKey) percentage st v .doubleSign (some ev) =
        .ok o := by
      rw [computeSlash_doubleSign hok, hcompute]
    rw [ho] at hslash
    cases hslash
  | ok o =>
    obtain ⟨hev, hcompute⟩ := computeSlash_eq_ok ho
    rw [checkEvidence_doubleSign] at hev
    have hown := verifyDoubleSignEvidence_ok hev
    rw [outcome_slashValidator_ok ho]
    constructor
    · intro hacc
      by_cases hret : Returned st v
      · exact .inr (.inr (.inr hret))
      · exact .inl (hacc v (stakeAt_slashed_self hcompute hret)).key
    · intro hcond w hlt
      dsimp only at hlt
      have hw : w = v := by
        by_contra hne
        have hle := @stakeAt_slashed_of_ne st v w o hne (h64 w)
        omega
      subst hw
      rcases hcond with rfl | hbad | hzero | hret
      · exact hown
      · exact absurd hev hbad
      · omega
      · rw [stakeAt_slashed_returned hcompute (h64 w) hret] at hlt
        exact absurd hlt (lt_irrefl _)

end

/-! ### A framed validator -/

def honestKey : Bytes := List.replicate 1952 2

def twoStaked : StakingState :=
  ⟨((∅ : Map Bytes ValidatorStake).insert cheatKey ⟨minValidatorStake, [], none⟩).insert honestKey
    ⟨minValidatorStake, [], none⟩, 1, none⟩

/-- Two signatures of the validator with `cheatKey`, over the messages of the staking crate. -/
def cheatEvidence : DoubleSignEvidence :=
  { validatorPubkey := cheatKey, height := 1, batchHash1 := 5, batchHash2 := 6
    signature1 := cheatSignature 1, signature2 := cheatSignature 2 }

def cheatPrim : Primitives where
  blake3 _ := 0
  sha256 _ := 0
  verify pk m s ctx :=
    pk == cheatKey && ctx == attestationContext &&
      ((m == stakingAttestationMessage 1 5 && s == cheatSignature 1) ||
        (m == stakingAttestationMessage 1 6 && s == cheatSignature 2))

theorem cheatEvidence_ok : verifyDoubleSignEvidence cheatPrim logKey cheatEvidence = .ok () := by decide +kernel

theorem cheatKey_ne : cheatKey ≠ honestKey := by decide +kernel

theorem stakeAt_twoStaked (w : Bytes) : twoStaked.stakeAt w < u64 := by
  have hu64 : minValidatorStake < u64 := by decide
  unfold StakingState.stakeAt twoStaked
  simp only [getElem?_insert_ite]
  split_ifs
  · exact hu64
  · exact hu64
  · simp

theorem accountable_cheat :
    Accountable cheatPrim logKey (fun _ => 5) twoStaked cheatKey cheatEvidence :=
  (accountable_iff cheatPrim logKey (fun _ => 5) twoStaked cheatKey cheatEvidence stakeAt_twoStaked).mpr
    (.inl rfl)

/-- The evidence against one validator slashes the other, which signed nothing. -/
theorem framed_validator :
    ¬ ∀ (prim : Primitives) isKey percentage st v ev, (∀ w, st.stakeAt w < u64) →
      Accountable prim isKey percentage st v ev := by
  intro h
  have hacc := h cheatPrim logKey (fun _ => 5) twoStaked honestKey cheatEvidence stakeAt_twoStaked
  have hpos : twoStaked.stakeAt honestKey ≠ 0 := by decide +kernel
  obtain ⟨o, ho⟩ := computeSlashOutcome_of_pos 5 hpos
  have hslash : computeSlash (verifyDoubleSignEvidence cheatPrim logKey) (fun _ => 5) twoStaked honestKey
      .doubleSign (some cheatEvidence) = .ok o := by
    rw [computeSlash_doubleSign cheatEvidence_ok, ho]
  have hnot : ¬ Returned twoStaked honestKey := by
    rintro ⟨-, treasury, htreasury, -⟩
    cases htreasury
  have hloss : (afterSlash cheatPrim logKey (fun _ => 5) twoStaked honestKey cheatEvidence).stakeAt honestKey <
      twoStaked.stakeAt honestKey := by
    rw [afterSlash, slashStep, outcome_slashValidator_ok hslash]
    exact stakeAt_slashed_self ho hnot
  exact cheatKey_ne (hacc honestKey hloss).key

end TruthLinked.Staking.Accountability
