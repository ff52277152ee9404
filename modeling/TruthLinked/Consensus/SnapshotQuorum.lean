import TruthLinked.Consensus.PeerSnapshot
import TruthLinked.Consensus.RoundSafety

/-! # The quorum behind a snapshot

`verify_snapshot` walks the signatures of a snapshot and adds the stake of each valid one, in unchecked `u64`
arithmetic. It keeps no set of the validators it has seen. Where no active validator has two valid signatures
in the list, what it counts is the stake of distinct signers and fits; where one has two, it counts that stake
twice (`verifySnapshot_sound_iff`). -/

namespace TruthLinked.Consensus.SnapshotQuorum

open Core.Types Staking.State Consensus.Types Consensus.Certificate Consensus.NodeState
open Consensus.PeerSnapshot Consensus.RoundSafety Consensus.ExecutionOrder Lib.Except Lib.Weight

/-- `TOTAL_SUPPLY`. -/
def totalSupply : ℕ := 1000000000000000000

section Verify
variable (prim : Primitives) (snapshot : StateSnapshot)

/-- The stakes that `verify_snapshot` goes by. -/
def snapshotStakes : StakeMap := getActiveValidators snapshot.data.staking

/-- The lengths of key and signature are right; a list is read up to the first entry where they are not. -/
def wellFormed (sig : ValidatorSignature) : Bool :=
  decide (sig.validatorPubkey.length = 1952) && decide (sig.signature.length = 3309)

/-- The signature is one over the message of the snapshot. -/
def signatureValid (sig : ValidatorSignature) : Bool :=
  prim.verify sig.validatorPubkey (computeMessage prim snapshot) sig.signature snapshotSignContext

/-- The keys with a valid signature, one for each entry. -/
def signerList (sigs : List ValidatorSignature) : List Bytes :=
  (sigs.filter (signatureValid prim snapshot)).map ValidatorSignature.validatorPubkey

/-- What the loop adds up, without wrapping. -/
def countedStake (sigs : List ValidatorSignature) : ℕ :=
  ((signerList prim snapshot sigs).map (stakeAt (snapshotStakes snapshot))).sum

/-- The loop comes to the end of `read` with `signedStake`. -/
def Reaches (read : List ValidatorSignature) (signedStake : ℕ) : Prop :=
  read.foldlM (addSigned prim snapshot (snapshotStakes snapshot)) 0 = .ok signedStake

/-- **A snapshot is verified soundly.** -/
structure Sound : Prop where
  /-- It is accepted only with the signatures of active validators that hold two thirds of the active stake. -/
  quorum : verifySnapshot prim snapshot = .ok () →
    TwoThirds snapshot.data.staking (signedSnapshot prim snapshot)
  /-- Wherever the loop stands, it has counted each signer once. -/
  once : ∀ read rest signedStake, snapshot.validatorSignatures = read ++ rest →
    Reaches prim snapshot read signedStake →
    signedStake = stakeWhere snapshot.data.staking fun pk => decide (pk ∈ signerList prim snapshot read)
  /-- Neither the sums nor the products overflow. -/
  total : totalStake snapshot.data.staking * 2 < u64
  sums : ∀ read rest signedStake, snapshot.validatorSignatures = read ++ rest →
    Reaches prim snapshot read signedStake → countedStake prim snapshot read < u64
  product : ∀ signedStake, Reaches prim snapshot snapshot.validatorSignatures signedStake →
    signedStake * 3 < u64

/-- No active validator with stake has two valid signatures among the entries that are read. -/
def NoneTwice : Prop :=
  ∀ pk, 0 < stakeAt (snapshotStakes snapshot) pk →
    (signerList prim snapshot (snapshot.validatorSignatures.takeWhile wellFormed)).count pk ≤ 1

end Verify

/-! ## The loop -/

section Loop
variable {prim : Primitives} {snapshot : StateSnapshot}

theorem signerList_cons (sig : ValidatorSignature) (sigs : List ValidatorSignature) :
    signerList prim snapshot (sig :: sigs) =
      if signatureValid prim snapshot sig then sig.validatorPubkey :: signerList prim snapshot sigs
      else signerList prim snapshot sigs := by
  unfold signerList
  by_cases h : signatureValid prim snapshot sig
  · rw [if_pos h, List.filter_cons_of_pos h, List.map_cons]
  · rw [if_neg h, List.filter_cons_of_neg h]

theorem addSigned_eq_ok {signedStake next : ℕ} {sig : ValidatorSignature} :
    addSigned prim snapshot (snapshotStakes snapshot) signedStake sig = .ok next ↔
      wellFormed sig = true ∧ next = if signatureValid prim snapshot sig then
        (signedStake + stakeAt (snapshotStakes snapshot) sig.validatorPubkey) % u64 else signedStake := by
  unfold addSigned
  simp only [failIf_bind_ok, not_not, wellFormed, Bool.and_eq_true, decide_eq_true_eq, and_assoc]
  refine and_congr_right fun _ => and_congr_right fun _ => ?_
  by_cases h : signatureValid prim snapshot sig
  · rw [if_pos h, if_pos (by exact h), pure_eq_ok, eq_comm]
  · rw [if_neg h, if_neg (by exact h), pure_eq_ok, eq_comm]

theorem foldlM_addSigned {sigs : List ValidatorSignature} {start signedStake : ℕ} (hstart : start < u64) :
    sigs.foldlM (addSigned prim snapshot (snapshotStakes snapshot)) start = .ok signedStake ↔
      (∀ sig ∈ sigs, wellFormed sig = true) ∧ signedStake = (start + countedStake prim snapshot sigs) % u64 := by
  induction sigs generalizing start with
  | nil =>
    have hzero : countedStake prim snapshot [] = 0 := rfl
    rw [List.foldlM_nil, pure_eq_ok, hzero, Nat.add_zero, Nat.mod_eq_of_lt hstart, eq_comm]
    exact ⟨fun h => ⟨fun sig hsig => absurd hsig List.not_mem_nil, h⟩, And.right⟩
  | cons sig sigs ih =>
    rw [List.foldlM_cons, bind_eq_ok]
    simp only [addSigned_eq_ok, List.forall_mem_cons]
    have hpos : 0 < u64 := by decide
    have hmod (a b : ℕ) : (start + (a + b)) % u64 = ((start + a) % u64 + b) % u64 := by
      rw [Nat.mod_add_mod, Nat.add_assoc]
    have hcons : countedStake prim snapshot (sig :: sigs) =
        (if signatureValid prim snapshot sig then stakeAt (snapshotStakes snapshot) sig.validatorPubkey else 0) +
          countedStake prim snapshot sigs := by
      unfold countedStake
      rw [signerList_cons]
      split_ifs
      · rw [List.map_cons, List.sum_cons]
      · rw [Nat.zero_add]
    rw [hcons]
    rcases Bool.eq_false_or_eq_true (signatureValid prim snapshot sig) with hvalid | hvalid
    · simp only [hvalid, if_true]
      rw [hmod]
      constructor
      · rintro ⟨next, ⟨hwf, rfl⟩, hrest⟩
        obtain ⟨hall, hlast⟩ := (ih (Nat.mod_lt _ hpos)).mp hrest
        exact ⟨⟨hwf, hall⟩, hlast⟩
      · rintro ⟨⟨hwf, hall⟩, hlast⟩
        exact ⟨_, ⟨hwf, rfl⟩, (ih (Nat.mod_lt _ hpos)).mpr ⟨hall, hlast⟩⟩
    · simp only [hvalid, Bool.false_eq_true, if_false, Nat.zero_add]
      constructor
      · rintro ⟨next, ⟨hwf, rfl⟩, hrest⟩
        obtain ⟨hall, hlast⟩ := (ih hstart).mp hrest
        exact ⟨⟨hwf, hall⟩, hlast⟩
      · rintro ⟨⟨hwf, hall⟩, hlast⟩
        exact ⟨_, ⟨hwf, rfl⟩, (ih hstart).mpr ⟨hall, hlast⟩⟩

theorem reaches_iff {read : List ValidatorSignature} {signedStake : ℕ} :
    Reaches prim snapshot read signedStake ↔
      (∀ sig ∈ read, wellFormed sig = true) ∧ signedStake = countedStake prim snapshot read % u64 := by
  unfold Reaches
  rw [foldlM_addSigned (by decide), Nat.zero_add]

/-- The loop reaches the parts of the list before the first malformed entry. -/
theorem prefix_of_reaches {read rest : List ValidatorSignature} {signedStake : ℕ}
    (hlist : snapshot.validatorSignatures = read ++ rest) (h : Reaches prim snapshot read signedStake) :
    read <+: snapshot.validatorSignatures.takeWhile wellFormed := by
  have hall := (reaches_iff.mp h).1
  rw [hlist, List.takeWhile_append_of_pos hall]
  exact List.prefix_append _ _

/-- The loop comes to the end of the entries that are read. -/
theorem reaches_takeWhile (signedStake : ℕ) :
    Reaches prim snapshot (snapshot.validatorSignatures.takeWhile wellFormed) signedStake ↔
      signedStake = countedStake prim snapshot (snapshot.validatorSignatures.takeWhile wellFormed) % u64 := by
  rw [reaches_iff, and_iff_right]
  exact fun sig hsig => List.all_eq_true.mp List.all_takeWhile sig hsig

theorem stakeWhere_eq (st : StakingState) (p : Bytes → Bool) :
    stakeWhere st p =
      weight (stakeAt (getActiveValidators st))
        ((members (getActiveValidators st)).filter fun pk => p pk = true) := by
  have hkeys : ((getActiveValidators st).toList.filter fun e => p e.1).map Prod.snd =
      (((getActiveValidators st).toList.map Prod.fst).filter p).map (stakeAt (getActiveValidators st)) := by
    rw [List.filter_map, List.map_map]
    refine List.map_congr_left fun e he => ?_
    have hget : (getActiveValidators st)[e.1]? = some e.2 :=
      Std.ExtTreeMap.mem_toList_iff_getElem?_eq_some.mp (List.mem_of_mem_filter he)
    rw [Function.comp_apply, stakeAt, hget]
    rfl
  rw [stakeWhere, hkeys, sum_map_eq_weight _ ((keys_nodup _).filter _), List.toFinset_filter]
  rfl

theorem stakeWhere_le_total (st : StakingState) (p : Bytes → Bool) : stakeWhere st p ≤ totalStake st := by
  rw [stakeWhere_eq, totalStake, sum_stakes]
  exact weight_mono _ (Finset.filter_subset _ _)

theorem stakeWhere_mono (st : StakingState) {p q : Bytes → Bool} (h : ∀ pk, p pk = true → q pk = true) :
    stakeWhere st p ≤ stakeWhere st q := by
  rw [stakeWhere_eq, stakeWhere_eq]
  exact weight_mono _ (Finset.monotone_filter_right _ fun pk _ => h pk)

theorem stakeWhere_mem (l : List Bytes) :
    stakeWhere snapshot.data.staking (fun pk => decide (pk ∈ l)) =
      weight (stakeAt (snapshotStakes snapshot)) l.toFinset := by
  rw [stakeWhere_eq]
  refine Finset.sum_subset (fun pk hpk => ?_) fun pk hpk hout => ?_
  · exact List.mem_toFinset.mpr (of_decide_eq_true (Finset.mem_filter.mp hpk).2)
  · refine stakeAt_eq_zero fun hmem => hout (Finset.mem_filter.mpr ⟨hmem, ?_⟩)
    exact decide_eq_true (List.mem_toFinset.mp hpk)

theorem countedStake_eq_iff (sigs : List ValidatorSignature) :
    countedStake prim snapshot sigs =
        stakeWhere snapshot.data.staking (fun pk => decide (pk ∈ signerList prim snapshot sigs)) ↔
      ∀ pk, 0 < stakeAt (snapshotStakes snapshot) pk → (signerList prim snapshot sigs).count pk ≤ 1 := by
  rw [stakeWhere_mem, countedStake, sum_map_eq_weight_iff]

end Loop

section Verified
variable {prim : Primitives} {snapshot : StateSnapshot}

theorem verifySnapshot_eq_ok :
    verifySnapshot prim snapshot = .ok () ↔
      snapshot.validatorSignatures ≠ [] ∧ totalStake snapshot.data.staking % u64 ≠ 0 ∧
        ∃ signedStake, Reaches prim snapshot snapshot.validatorSignatures signedStake ∧
          totalStake snapshot.data.staking % u64 * 2 % u64 ≤ signedStake * 3 % u64 := by
  unfold verifySnapshot Reaches snapshotStakes
  rw [failIf_bind_ok, failIf_bind_ok, bind_eq_ok]
  simp only [failIf_eq_ok, not_lt, ne_eq]

theorem signedSnapshot_of_mem {pk : Bytes} (hwf : ∀ sig ∈ snapshot.validatorSignatures, wellFormed sig = true)
    (h : pk ∈ signerList prim snapshot snapshot.validatorSignatures) :
    signedSnapshot prim snapshot pk = true := by
  obtain ⟨sig, hsig, rfl⟩ := List.mem_map.mp h
  obtain ⟨hmem, hvalid⟩ := List.mem_filter.mp hsig
  obtain ⟨hkey, hlength⟩ := Bool.and_eq_true_iff.mp (hwf sig hmem)
  refine List.any_eq_true.mpr ⟨sig, hmem, ?_⟩
  rw [hkey, hlength, decide_eq_true rfl]
  exact hvalid

end Verified

/-- **A snapshot is verified soundly exactly when no active validator is counted twice.** -/
theorem verifySnapshot_sound_iff (prim : Primitives) (snapshot : StateSnapshot)
    (hsupply : totalStake snapshot.data.staking ≤ totalSupply) :
    Sound prim snapshot ↔ NoneTwice prim snapshot := by
  have hfit : totalSupply * 3 < u64 := by decide
  constructor
  · intro hsound
    set read := snapshot.validatorSignatures.takeWhile wellFormed with hread
    have hlist : snapshot.validatorSignatures = read ++ snapshot.validatorSignatures.dropWhile wellFormed :=
      List.takeWhile_append_dropWhile.symm
    have hreach := (@reaches_takeWhile prim snapshot _).mpr rfl
    have honce := hsound.once _ _ _ hlist hreach
    rw [Nat.mod_eq_of_lt (hsound.sums _ _ _ hlist hreach)] at honce
    exact (countedStake_eq_iff read).mp honce
  · intro hnone
    have heq : ∀ read rest signedStake, snapshot.validatorSignatures = read ++ rest →
        Reaches prim snapshot read signedStake → countedStake prim snapshot read =
          stakeWhere snapshot.data.staking fun pk => decide (pk ∈ signerList prim snapshot read) := by
      intro read rest signedStake hlist hreach
      refine (countedStake_eq_iff read).mpr fun pk hpk => ?_
      have hpre := prefix_of_reaches hlist hreach
      have hsub : (signerList prim snapshot read).Sublist
          (signerList prim snapshot (snapshot.validatorSignatures.takeWhile wellFormed)) :=
        (hpre.sublist.filter _).map _
      exact (hsub.count_le pk).trans (hnone pk hpk)
    have hle : ∀ read rest signedStake, snapshot.validatorSignatures = read ++ rest →
        Reaches prim snapshot read signedStake → countedStake prim snapshot read ≤ totalSupply := by
      intro read rest signedStake hlist hreach
      rw [heq read rest signedStake hlist hreach]
      exact (stakeWhere_le_total _ _).trans hsupply
    have hcount : ∀ read rest signedStake, snapshot.validatorSignatures = read ++ rest →
        Reaches prim snapshot read signedStake → signedStake = countedStake prim snapshot read := by
      intro read rest signedStake hlist hreach
      have hsmall := hle read rest signedStake hlist hreach
      rw [(reaches_iff.mp hreach).2, Nat.mod_eq_of_lt (by omega)]
    have hself : snapshot.validatorSignatures = snapshot.validatorSignatures ++ [] := (List.append_nil _).symm
    refine ⟨fun hok => ?_, fun read rest signedStake hlist hreach => ?_, by omega,
      fun read rest signedStake hlist hreach => ?_, fun signedStake hreach => ?_⟩
    · obtain ⟨-, hpos, signedStake, hreach, hthirds⟩ := verifySnapshot_eq_ok.mp hok
      have hsmall := hle _ _ _ hself hreach
      have hcounted := hcount _ _ _ hself hreach
      rw [Nat.mod_eq_of_lt (by omega : totalStake snapshot.data.staking < u64)] at hpos hthirds
      rw [Nat.mod_eq_of_lt (by omega), Nat.mod_eq_of_lt (by omega), hcounted, heq _ _ _ hself hreach] at hthirds
      have hwf := (reaches_iff.mp hreach).1
      have hmono : stakeWhere snapshot.data.staking
            (fun pk => decide (pk ∈ signerList prim snapshot snapshot.validatorSignatures)) ≤
          stakeWhere snapshot.data.staking (signedSnapshot prim snapshot) := by
        exact stakeWhere_mono _ fun pk hpk => signedSnapshot_of_mem hwf (of_decide_eq_true hpk)
      exact ⟨Nat.pos_of_ne_zero hpos, by omega⟩
    · rw [hcount read rest signedStake hlist hreach, heq read rest signedStake hlist hreach]
    · have hsmall := hle read rest signedStake hlist hreach
      omega
    · have hsmall := hle _ _ _ hself hreach
      have hcounted := hcount _ _ _ hself hreach
      omega

/-! ## Samples -/

def twoStaked : StakingState :=
  { validators := ((∅ : Map Bytes ValidatorStake).insert leaderKey ⟨minValidatorStake, [], none⟩).insert
      attesterKey ⟨minValidatorStake, [], none⟩
    currentHeight := 1, treasuryAccountId := none }

/-- A snapshot of the two with the signatures of `keys`, in this order. -/
def signedBy (keys : List Bytes) : StateSnapshot :=
  ⟨1, 0, { soleWorld.state with staking := twoStaked }, keys.map fun pk => ⟨pk, List.replicate 3309 7⟩, 0⟩

theorem signedBy_facts :
    totalStake twoStaked ≤ totalSupply ∧
      verifySnapshot (toyPrim [leaderKey]) (signedBy [leaderKey, leaderKey]) = .ok () ∧
      totalStake twoStaked * 2 > 3 *
        stakeWhere twoStaked (signedSnapshot (toyPrim [leaderKey]) (signedBy [leaderKey, leaderKey])) := by
  decide +kernel

theorem verifySnapshot_sound_iff_sample :
    totalStake twoStaked ≤ totalSupply ∧
      (Sound (toyPrim [leaderKey, attesterKey]) (signedBy [leaderKey, attesterKey]) ↔
        NoneTwice (toyPrim [leaderKey, attesterKey]) (signedBy [leaderKey, attesterKey])) :=
  ⟨signedBy_facts.1, verifySnapshot_sound_iff _ (signedBy [leaderKey, attesterKey]) signedBy_facts.1⟩

/-- **One validator, twice in the list**: a snapshot passes with half of the stake behind it. -/
theorem verifySnapshot_counts_twice :
    totalStake (signedBy [leaderKey, leaderKey]).data.staking ≤ totalSupply ∧
      verifySnapshot (toyPrim [leaderKey]) (signedBy [leaderKey, leaderKey]) = .ok () ∧
      ¬ Sound (toyPrim [leaderKey]) (signedBy [leaderKey, leaderKey]) := by
  obtain ⟨hsupply, hok, hhalf⟩ := signedBy_facts
  refine ⟨hsupply, hok, fun hsound => ?_⟩
  have hthirds := (hsound.quorum hok).2
  have hstaking : (signedBy [leaderKey, leaderKey]).data.staking = twoStaked := rfl
  rw [hstaking] at hthirds
  omega

end TruthLinked.Consensus.SnapshotQuorum
