import TruthLinked.Consensus.HeaderTree
import TruthLinked.Consensus.NodeState

/-! # The finalization task

`finalization_task` walks up from the finalized height and asks of each block that it finds whether two thirds
of the active stake stand behind it. It goes by the weight that fork choice has recorded for the block, which
is the whole active stake, and by the certificate only where no weight is recorded; the required stake is
rounded down, and a height without a block is passed over. `finalization_task_iff` says on which chains it
finalizes nothing but blocks with a certificate all the same. -/

namespace TruthLinked.Consensus.FinalizationTask

open Core.Types Staking.State Consensus.Types Consensus.ForkChoice Consensus.HeaderTree Lib.Loop Lib.Run

/-! ## The task -/

/-- `get_stake_weight`. -/
def getStakeWeight (c : BlockChain) (hash : Bytes32) : ℕ := c.stakeWeight[hash]?.getD 0

/-- `effective_stake`. -/
def effectiveStake (c : BlockChain) (header : BatchHeader) : ℕ :=
  if 0 < getStakeWeight c header.batchHash then getStakeWeight c header.batchHash
  else header.finalityCertificate.signedStake

/-- `required_stake`. -/
def requiredStake (st : StakingState) : ℕ :=
  sum64 ((getActiveValidators st).toList.map Prod.snd) * 2 % u64 / 3

/-- The loop over the heights. There is no result while a walk down the chain goes on. -/
def walkHeights (c : BlockChain) (required fuel : ℕ) : (heights : List ℕ) → (newFinalized : ℕ) → Option ℕ
  | [], newFinalized => some newFinalized
  | height :: heights, newFinalized =>
    match getBatchByHeight c height fuel with
    | none => none
    | some none => walkHeights c required fuel heights newFinalized
    | some (some header) =>
      if required ≤ effectiveStake c header then walkHeights c required fuel heights height
      else some newFinalized

/-- The finalized height after one turn of `finalization_task`. -/
def finalizationTask (c : BlockChain) (st : StakingState) (lag finalizedHeight fuel : ℕ) : Option ℕ :=
  if c.currentHeight ≤ finalizedHeight + lag then some finalizedHeight
  else walkHeights c (requiredStake st) fuel
    (List.range' (finalizedHeight + 1) (c.currentHeight - lag - finalizedHeight)) finalizedHeight

/-! ## What it is for -/

/-- The block of a height on the canonical chain. -/
def OnChain (c : BlockChain) (height : ℕ) (header : BatchHeader) : Prop :=
  ∃ fuel, getBatchByHeight c height fuel = some (some header)

/-- The block has a certificate of two thirds of the active stake. -/
def Certified (st : StakingState) (header : BatchHeader) : Prop :=
  2 * NodeState.totalStake st ≤ 3 * header.finalityCertificate.signedStake

/-- The height has a block with a certificate. -/
def Attested (c : BlockChain) (st : StakingState) (height : ℕ) : Prop :=
  ∃ header, OnChain c height header ∧ Certified st header

/-- **Only certified blocks are finalized.** -/
def FinalizesCertified (c : BlockChain) (st : StakingState) (lag finalizedHeight : ℕ) : Prop :=
  ∀ fuel h, finalizationTask c st lag finalizedHeight fuel = some h → finalizedHeight < h →
    ∀ height, finalizedHeight < height → height ≤ h → Attested c st height

/-- A block at or above a height that is not attested has, at or below it, a block whose stake is short of the
required one. Nothing is asked where the first walk does not end, since the task then hangs. -/
def StoppedInTime (c : BlockChain) (st : StakingState) (lag finalizedHeight : ℕ) : Prop :=
  Terminates (getBatchByHeight c (finalizedHeight + 1)) →
    ∀ gap height header, finalizedHeight < gap → gap ≤ height → height + lag ≤ c.currentHeight →
      ¬ Attested c st gap → OnChain c height header →
      ∃ below header', finalizedHeight < below ∧ below ≤ height ∧ OnChain c below header' ∧
        effectiveStake c header' < requiredStake st

/-! ## Walks down the chain -/

section Walks
variable {c : BlockChain}

theorem batchByHeight_mono {height height' : ℕ} (hle : height ≤ height') {fuel : ℕ} {hash : Bytes32}
    (h : (loop (batchByHeightTurn c height) fuel hash).isSome) :
    (loop (batchByHeightTurn c height') fuel hash).isSome := by
  induction fuel generalizing hash with
  | zero => cases h
  | succ fuel ih =>
    cases hturn : batchByHeightTurn c height' hash with
    | inr r =>
      simp only [loop, hturn]
      rfl
    | inl next =>
      -- the lower walk goes on as well, to the same block
      have hlower : batchByHeightTurn c height hash = .inl next := by
        unfold batchByHeightTurn at hturn ⊢
        cases hk : c.headers[hash]? with
        | none =>
          rw [hk] at hturn
          cases hturn
        | some header =>
          simp only [hk] at hturn ⊢
          split_ifs at hturn with heq hlt
          rw [if_neg (by omega), if_neg (by omega)]
          exact hturn
      rw [loop_succ_inl hturn]
      rw [loop_succ_inl hlower] at h
      exact ih h

theorem getBatchByHeight_isSome_mono {height height' : ℕ} (hle : height ≤ height') {fuel : ℕ}
    (h : (getBatchByHeight c height fuel).isSome) : (getBatchByHeight c height' fuel).isSome := by
  unfold getBatchByHeight at h ⊢
  by_cases hhigh : c.currentHeight < height'
  · rw [if_pos hhigh]
    rfl
  · rw [if_neg (by omega)] at h
    rw [if_neg hhigh]
    exact batchByHeight_mono hle h

theorem getBatchByHeight_mono {height fuel fuel' : ℕ} (hle : fuel ≤ fuel') {r : Option BatchHeader}
    (h : getBatchByHeight c height fuel = some r) : getBatchByHeight c height fuel' = some r := by
  unfold getBatchByHeight at h ⊢
  split_ifs at h ⊢
  · exact h
  · exact loop_mono hle h

theorem found_of_onChain {height fuel : ℕ} {header : BatchHeader}
    (hends : (getBatchByHeight c height fuel).isSome) (h : OnChain c height header) :
    getBatchByHeight c height fuel = some (some header) := by
  obtain ⟨fuel', hfound⟩ := h
  obtain ⟨r, hr⟩ := Option.isSome_iff_exists.mp hends
  have hmax := getBatchByHeight_mono (Nat.le_max_left fuel fuel') hr
  rw [getBatchByHeight_mono (Nat.le_max_right fuel fuel') hfound] at hmax
  rw [hr, hmax]

end Walks

/-! ## The loop -/

section Heights
variable {c : BlockChain} {required fuel : ℕ}

/-- What the loop has seen when it returns. -/
structure Climbed (c : BlockChain) (required fuel first count newFinalized result : ℕ) : Prop where
  /-- It stays, or ends at a block. -/
  block : result = newFinalized ∨
    first ≤ result ∧ result < first + count ∧ ∃ header, getBatchByHeight c result fuel = some (some header)
  /-- The blocks up to the result have the required stake. -/
  passed : ∀ height header, first ≤ height → height ≤ result →
    getBatchByHeight c height fuel = some (some header) → required ≤ effectiveStake c header
  /-- A block is not above the result if all blocks up to it have the required stake. -/
  highest : ∀ height header, first ≤ height → height < first + count →
    getBatchByHeight c height fuel = some (some header) →
    (∀ below header', first ≤ below → below ≤ height →
      getBatchByHeight c below fuel = some (some header') → required ≤ effectiveStake c header') →
    height ≤ result

theorem walkHeights_climbed {first count newFinalized result : ℕ} (hlt : newFinalized < first)
    (h : walkHeights c required fuel (List.range' first count) newFinalized = some result) :
    Climbed c required fuel first count newFinalized result := by
  induction count generalizing first newFinalized with
  | zero =>
    obtain rfl := Option.some.inj h
    exact ⟨Or.inl rfl, fun height _ hlow hhigh _ => by omega, fun height _ hlow hhigh _ _ => by omega⟩
  | succ count ih =>
    rw [List.range'_succ, walkHeights] at h
    cases hlook : getBatchByHeight c first fuel with
    | none =>
      rw [hlook] at h
      cases h
    | some found =>
      rw [hlook] at h
      cases found with
      | none =>
        -- no block at this height
        obtain ⟨hblock, hpassed, hhighest⟩ := ih (by omega) h
        have hskip : ∀ height header, first ≤ height →
            getBatchByHeight c height fuel = some (some header) → first + 1 ≤ height := by
          intro height header hlow hfound
          rcases Nat.eq_or_lt_of_le hlow with rfl | hlt
          · rw [hlook] at hfound
            cases hfound
          · exact hlt
        refine ⟨?_, fun height header hlow hhigh hfound => ?_, fun height header hlow hhigh hfound hall => ?_⟩
        · rcases hblock with heq | ⟨hlow, hhigh, hheader⟩
          · exact Or.inl heq
          · exact Or.inr ⟨by omega, by omega, hheader⟩
        · exact hpassed height header (hskip height header hlow hfound) hhigh hfound
        · exact hhighest height header (hskip height header hlow hfound) (by omega) hfound
            fun below header' hlow' => hall below header' (by omega)
      | some header =>
        dsimp only at h
        split_ifs at h with hpass
        · obtain ⟨hblock, hpassed, hhighest⟩ := ih (by omega) h
          have hle : first ≤ result := by
            rcases hblock with heq | ⟨hlow, -, -⟩ <;> omega
          refine ⟨Or.inr ?_, fun height other hlow hhigh hfound => ?_,
            fun height other hlow hhigh hfound hall => ?_⟩
          · rcases hblock with rfl | ⟨hlow, hhigh, hheader⟩
            · exact ⟨le_rfl, by omega, header, hlook⟩
            · exact ⟨by omega, by omega, hheader⟩
          · rcases Nat.eq_or_lt_of_le hlow with rfl | hlt'
            · rw [hlook] at hfound
              obtain rfl := Option.some.inj (Option.some.inj hfound)
              exact hpass
            · exact hpassed height other hlt' hhigh hfound
          · rcases Nat.eq_or_lt_of_le hlow with rfl | hlt'
            · exact hle
            · exact hhighest height other hlt' (by omega) hfound
                fun below header' hlow' => hall below header' (by omega)
        · obtain rfl := Option.some.inj h
          refine ⟨Or.inl rfl, fun height _ hlow hhigh _ => by omega, fun height _ hlow _ _ hall => ?_⟩
          exact absurd (hall first header le_rfl hlow hlook) hpass

theorem walkHeights_isSome {heights : List ℕ}
    (hends : ∀ height ∈ heights, (getBatchByHeight c height fuel).isSome) (newFinalized : ℕ) :
    (walkHeights c required fuel heights newFinalized).isSome := by
  induction heights generalizing newFinalized with
  | nil => rfl
  | cons height heights ih =>
    have hrest := ih fun k hk => hends k (List.mem_cons_of_mem _ hk)
    rw [walkHeights]
    obtain ⟨found, hfound⟩ := Option.isSome_iff_exists.mp (hends height List.mem_cons_self)
    rw [hfound]
    cases found with
    | none => exact hrest newFinalized
    | some header =>
      dsimp only
      split_ifs
      · exact hrest height
      · rfl

end Heights

/-! ## The task finalizes certified blocks -/

theorem finalizationTask_climbed {c : BlockChain} {st : StakingState} {lag finalizedHeight fuel h : ℕ}
    (hrun : finalizationTask c st lag finalizedHeight fuel = some h) :
    Climbed c (requiredStake st) fuel (finalizedHeight + 1) (c.currentHeight - lag - finalizedHeight)
      finalizedHeight h := by
  unfold finalizationTask at hrun
  split_ifs at hrun with hnear
  · obtain rfl := Option.some.inj hrun
    have hzero : c.currentHeight - lag - finalizedHeight = 0 := by omega
    exact hzero ▸ walkHeights_climbed (Nat.lt_succ_self _) rfl
  · exact walkHeights_climbed (Nat.lt_succ_self _) hrun

theorem finalizationTask_isSome {c : BlockChain} {finalizedHeight fuel : ℕ}
    (hends : (getBatchByHeight c (finalizedHeight + 1) fuel).isSome) (st : StakingState) (lag : ℕ) :
    (finalizationTask c st lag finalizedHeight fuel).isSome := by
  unfold finalizationTask
  split_ifs
  · rfl
  · refine walkHeights_isSome (fun height hheight => ?_) _
    exact getBatchByHeight_isSome_mono (List.mem_range'_1.mp hheight).1 hends

theorem first_walk_ends {c : BlockChain} {st : StakingState} {lag finalizedHeight fuel h : ℕ}
    (hrun : finalizationTask c st lag finalizedHeight fuel = some h) (hadv : finalizedHeight < h) :
    (getBatchByHeight c (finalizedHeight + 1) fuel).isSome := by
  unfold finalizationTask at hrun
  split_ifs at hrun with hnear
  · obtain rfl := Option.some.inj hrun
    omega
  · obtain ⟨count, hcount⟩ : ∃ count, c.currentHeight - lag - finalizedHeight = count + 1 :=
      ⟨c.currentHeight - lag - finalizedHeight - 1, by omega⟩
    rw [hcount, List.range'_succ, walkHeights] at hrun
    cases hlook : getBatchByHeight c (finalizedHeight + 1) fuel with
    | none =>
      rw [hlook] at hrun
      cases hrun
    | some found => rfl

/-- **The task finalizes nothing but certified blocks exactly when it is stopped in time**, on every chain and
for every staking state. -/
theorem finalization_task_iff (c : BlockChain) (st : StakingState) (lag finalizedHeight : ℕ) :
    FinalizesCertified c st lag finalizedHeight ↔ StoppedInTime c st lag finalizedHeight := by
  constructor
  · intro hcert hterm gap height header hlow hle hhigh hgap hon
    obtain ⟨fuel, hends⟩ := hterm
    obtain ⟨h, hrun⟩ := Option.isSome_iff_exists.mp (finalizationTask_isSome hends st lag)
    have hclimbed := finalizationTask_climbed hrun
    by_contra hno
    push Not at hno
    -- with no block in the way the task comes to the block, and past the gap
    have hreach : height ≤ h := by
      refine hclimbed.highest height header (by omega) (by omega)
        (found_of_onChain (getBatchByHeight_isSome_mono (by omega) hends) hon) ?_
      intro below header' hlow' hle' hfound
      exact hno below header' (by omega) hle' ⟨fuel, hfound⟩
    exact hgap (hcert fuel h hrun (by omega) gap hlow (by omega))
  · intro hstop fuel h hrun hadv height hlow hhigh
    have hclimbed := finalizationTask_climbed hrun
    rcases hclimbed.block with heq | ⟨-, hin, header, hfound⟩
    · omega
    · by_contra hgap
      have hends := first_walk_ends hrun hadv
      obtain ⟨below, header', hlow', hle', hon, hshort⟩ :=
        hstop ⟨fuel, hends⟩ height h header hlow hhigh (by omega) hgap ⟨fuel, hfound⟩
      have hpass := hclimbed.passed below header' hlow' hle'
        (found_of_onChain (getBatchByHeight_isSome_mono hlow' hends) hon)
      omega

/-! ## A chain without attestations -/

def loneStaked : StakingState :=
  { validators := (∅ : Map Bytes ValidatorStake).insert [1] ⟨minValidatorStake, [], none⟩
    currentHeight := 1, treasuryAccountId := none }

def bareHeader (height : ℕ) (parentHash batchHash : Bytes32) : BatchHeader :=
  { genesis idlePrim with height := height, parentHash := parentHash, batchHash := batchHash }

def bareChain : BlockChain :=
  run call (BlockChain.new idlePrim)
    [.addHeader (bareHeader 1 0 1), .setCanonicalTip 1 minValidatorStake,
      .addHeader (bareHeader 2 1 2), .setCanonicalTip 2 minValidatorStake]

theorem bareChain_facts :
    finalizationTask bareChain loneStaked 1 0 4 = some 1 ∧
      getBatchByHeight bareChain 1 4 = some (some (bareHeader 1 0 1)) ∧
      3 * (bareHeader 1 0 1).finalityCertificate.signedStake < 2 * NodeState.totalStake loneStaked := by
  decide +kernel

/-- **Nobody has signed**: the task finalizes a block with an empty certificate. -/
theorem unsigned_block_finalized : ¬ FinalizesCertified bareChain loneStaked 1 0 := by
  obtain ⟨hrun, hfound, hshort⟩ := bareChain_facts
  intro hcert
  obtain ⟨header, ⟨fuel, hon⟩, hsigned⟩ := hcert 4 1 hrun Nat.one_pos 1 Nat.one_pos le_rfl
  have hsame := found_of_onChain (hfound ▸ rfl : (getBatchByHeight bareChain 1 4).isSome) ⟨fuel, hon⟩
  rw [hfound] at hsame
  obtain rfl := Option.some.inj (Option.some.inj hsame)
  unfold Certified at hsigned
  omega

end TruthLinked.Consensus.FinalizationTask
