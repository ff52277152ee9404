import TruthLinked.Consensus.LeaderCertificate
import TruthLinked.Core.Bytes

/-! # The certificate that is built

`from_attestations` and the checks of `blockchain.rs` on both sides of a certificate: the builder sets the
bits, sums the stake and sorts the signatures, the verifier reads bits and stake back. A list of attestations
counts by the first one of each validator for the statement (`firsts`). A certificate does not depend on the
order of the attesters; it does not depend on the order of the attestations either as long as no two signers
have places that the 32-bit index cannot tell apart (`certificate_wellBuilt_iff`). -/

namespace TruthLinked.Consensus.CertificateShape

open Core.Types Core.Bytes Staking.State Consensus.Types Consensus.Certificate Consensus.AttestationPipeline
open Consensus.LeaderCertificate Lib.Except Lib.Weight

/-! ## What a certificate should be -/

/-- The active validators that signed exactly this statement. -/
def signersOf (key : AttestationKey) (attesters : List Bytes) (atts : List Attestation) : Finset Bytes :=
  attesters.toFinset.filter fun pk => ∃ a ∈ atts, keyFromAttestation a = key ∧ a.validatorPubkey = pk

/-- **A certificate is well built.** -/
structure WellBuilt (prim : Primitives) (key : AttestationKey) (attesters : List Bytes) (stakeMap : StakeMap)
    (leader : Bytes) (atts : List Attestation) : Prop where
  /-- The bitmap gives back the number of signers and the stake. -/
  bitmap : bitmapSignedStake (fromAttestations prim key attesters stakeMap leader atts)
    attesters stakeMap leader =
    .ok ((signersOf key attesters atts).card,
      (fromAttestations prim key attesters stakeMap leader atts).signedStake)
  /-- The stake is that of the signers other than the leader. -/
  stake : (fromAttestations prim key attesters stakeMap leader atts).signedStake =
    min (weight (stakeAt stakeMap) ((signersOf key attesters atts).erase leader)) (u64 - 1)
  attesterOrder : ∀ attesters', attesters'.Perm attesters →
    fromAttestations prim key attesters' stakeMap leader atts =
      fromAttestations prim key attesters stakeMap leader atts
  attestationOrder : (atts.map Attestation.validatorPubkey).Nodup → ∀ atts', atts'.Perm atts →
    fromAttestations prim key attesters stakeMap leader atts' =
      fromAttestations prim key attesters stakeMap leader atts
  root : (fromAttestations prim key attesters stakeMap leader atts).signatureRoot =
    PqFinalityCertificate.signatureRootFor prim
      (fromAttestations prim key attesters stakeMap leader atts).signatures
  metadata : ∀ requiredStake,
    validateCompactMetadata (fromAttestations prim key attesters stakeMap leader atts) attesters stakeMap leader
        requiredStake = .ok () ↔
      (signersOf key attesters atts).Nonempty ∧
        requiredStake ≤ (fromAttestations prim key attesters stakeMap leader atts).signedStake

/-- The 32-bit indices of the signers differ. -/
def IndicesDiffer (key : AttestationKey) (attesters : List Bytes) (atts : List Attestation) : Prop :=
  ∀ pk ∈ signersOf key attesters atts, ∀ pk' ∈ signersOf key attesters atts,
    (canonical attesters).idxOf pk % 2 ^ 32 = (canonical attesters).idxOf pk' % 2 ^ 32 → pk = pk'

/-! ## The attestations that count -/

/-- The first attestation of each validator for the statement, those of `seen` left out. -/
def firstsAfter (key : AttestationKey) : (seen : List Bytes) → List Attestation → List Attestation
  | _, [] => []
  | seen, a :: atts =>
    if keyFromAttestation a ≠ key ∨ a.validatorPubkey ∈ seen then firstsAfter key seen atts
    else a :: firstsAfter key (a.validatorPubkey :: seen) atts

/-- The attestations that count. -/
def firsts (key : AttestationKey) (atts : List Attestation) : List Attestation := firstsAfter key [] atts

section Firsts
variable {key : AttestationKey} {seen : List Bytes} {atts : List Attestation}

/-- The attestations that count come from new validators, one from each. -/
theorem firstsAfter_tidy :
    TidyList key (firstsAfter key seen atts) ∧ ∀ a ∈ firstsAfter key seen atts, a.validatorPubkey ∉ seen := by
  induction atts generalizing seen with
  | nil => exact ⟨⟨List.nodup_nil, fun a ha => absurd ha List.not_mem_nil⟩, fun a ha =>
    absurd ha List.not_mem_nil⟩
  | cons a atts ih =>
    rw [firstsAfter]
    split_ifs with hskip
    · exact ih
    · obtain ⟨hkey, hnew⟩ := not_or.mp hskip
      obtain ⟨⟨hnd, hkeys⟩, hout⟩ := @ih (a.validatorPubkey :: seen)
      refine ⟨⟨?_, ?_⟩, ?_⟩
      · rw [List.map_cons, List.nodup_cons]
        refine ⟨fun hmem => ?_, hnd⟩
        obtain ⟨b, hb, heq⟩ := List.mem_map.mp hmem
        exact hout b hb (heq ▸ List.mem_cons_self)
      · intro b hb
        rcases List.mem_cons.mp hb with rfl | hb
        · exact not_not.mp hkey
        · exact hkeys b hb
      · intro b hb
        rcases List.mem_cons.mp hb with rfl | hb
        · exact hnew
        · exact fun hmem => hout b hb (List.mem_cons_of_mem _ hmem)

theorem mem_firstsAfter {pk : Bytes} :
    pk ∈ (firstsAfter key seen atts).map Attestation.validatorPubkey ↔
      pk ∉ seen ∧ ∃ a ∈ atts, keyFromAttestation a = key ∧ a.validatorPubkey = pk := by
  induction atts generalizing seen with
  | nil => simp [firstsAfter]
  | cons a atts ih =>
    rw [firstsAfter]
    split_ifs with hskip
    · rw [ih, List.exists_mem_cons_iff]
      refine and_congr_right fun hnew => ⟨Or.inr, ?_⟩
      rintro (⟨hkey, rfl⟩ | hrest)
      · rcases hskip with hne | hmem
        · exact absurd hkey hne
        · exact absurd hmem hnew
      · exact hrest
    · obtain ⟨hkey, hnew⟩ := not_or.mp hskip
      rw [List.map_cons, List.mem_cons, ih, List.exists_mem_cons_iff, List.mem_cons, not_or]
      constructor
      · rintro (rfl | ⟨⟨-, hout⟩, hrest⟩)
        · exact ⟨hnew, Or.inl ⟨not_not.mp hkey, rfl⟩⟩
        · exact ⟨hout, Or.inr hrest⟩
      · rintro ⟨hout, ⟨-, rfl⟩ | hrest⟩
        · exact Or.inl rfl
        · by_cases heq : pk = a.validatorPubkey
          · exact Or.inl heq
          · exact Or.inr ⟨⟨heq, hout⟩, hrest⟩

theorem firstsAfter_of_nodup (hnd : (atts.map Attestation.validatorPubkey).Nodup)
    (hnew : ∀ a ∈ atts, a.validatorPubkey ∉ seen) :
    firstsAfter key seen atts = atts.filter fun a => decide (keyFromAttestation a = key) := by
  induction atts generalizing seen with
  | nil => rfl
  | cons a atts ih =>
    rw [List.map_cons, List.nodup_cons] at hnd
    have hrest := fun b hb => hnew b (List.mem_cons_of_mem _ hb)
    rw [firstsAfter]
    by_cases hkey : keyFromAttestation a = key
    · rw [if_neg (not_or.mpr ⟨not_not.mpr hkey, hnew a List.mem_cons_self⟩),
        List.filter_cons_of_pos (by simpa using hkey)]
      congr 1
      refine ih hnd.2 fun b hb hmem => ?_
      rcases List.mem_cons.mp hmem with heq | hmem
      · exact hnd.1 (heq ▸ List.mem_map_of_mem hb)
      · exact hrest b hb hmem
    · rw [if_pos (Or.inl hkey), List.filter_cons_of_neg (by simpa using hkey)]
      exact ih hnd.2 hrest

theorem firsts_tidy : TidyList key (firsts key atts) := firstsAfter_tidy.1

theorem firsts_of_nodup (hnd : (atts.map Attestation.validatorPubkey).Nodup) :
    firsts key atts = atts.filter fun a => decide (keyFromAttestation a = key) :=
  firstsAfter_of_nodup hnd fun _ _ => List.not_mem_nil

end Firsts

/-- **The loop of `from_attestations`** takes in what counts. -/
theorem foldl_gather_firsts {key : AttestationKey} {canon : List Bytes} (stakeMap : StakeMap) (leader : Bytes)
    {seen : List Bytes} {g : Gathered} (hseen : ∀ pk ∈ canon, pk ∈ g.seen ↔ pk ∈ seen) (atts : List Attestation) :
    atts.foldl (gather key canon stakeMap leader) g =
      (firstsAfter key seen atts).foldl (gather key canon stakeMap leader) g := by
  induction atts generalizing seen g with
  | nil => rfl
  | cons a atts ih =>
    rw [List.foldl_cons, firstsAfter]
    by_cases hkey : keyFromAttestation a = key
    · by_cases hmem : a.validatorPubkey ∈ seen
      · have hskip : gather key canon stakeMap leader g a = g := by
          unfold gather
          rw [if_neg (not_not.mpr hkey)]
          by_cases hin : a.validatorPubkey ∈ canon
          · rw [if_neg (not_not.mpr hin), if_pos ((hseen _ hin).mpr hmem)]
          · rw [if_pos hin]
        rw [if_pos (Or.inr hmem), hskip]
        exact ih hseen
      · rw [if_neg (not_or.mpr ⟨not_not.mpr hkey, hmem⟩), List.foldl_cons]
        refine ih fun pk hpk => ?_
        unfold gather
        rw [if_neg (not_not.mpr hkey)]
        by_cases hin : a.validatorPubkey ∈ canon
        · rw [if_neg (not_not.mpr hin), if_neg fun hold => hmem ((hseen _ hin).mp hold)]
          dsimp only
          rw [List.mem_cons, List.mem_cons, hseen pk hpk]
        · have hne : pk ≠ a.validatorPubkey := fun heq => hin (heq ▸ hpk)
          rw [if_pos hin, hseen pk hpk, List.mem_cons, or_iff_right hne]
    · have hskip : gather key canon stakeMap leader g a = g := by
        unfold gather
        rw [if_pos hkey]
      rw [if_pos (Or.inl hkey), hskip]
      exact ih hseen

section Built
variable (prim : Primitives) (key : AttestationKey) (attesters : List Bytes) (stakeMap : StakeMap) (leader : Bytes)
variable (atts : List Attestation)

theorem fromAttestations_firsts :
    fromAttestations prim key attesters stakeMap leader atts =
      fromAttestations prim key attesters stakeMap leader (firsts key atts) := by
  simp only [fromAttestations, firsts]
  rw [foldl_gather_firsts stakeMap leader (fun _ _ => Iff.rfl) atts]

theorem inCertificate_toFinset :
    (inCertificate attesters (firsts key atts)).toFinset = signersOf key attesters atts := by
  ext pk
  rw [List.mem_toFinset, signersOf, Finset.mem_filter, List.mem_toFinset]
  constructor
  · intro hpk
    refine ⟨mem_canonical.mp (mem_canonical_of_inCertificate hpk), ?_⟩
    obtain ⟨a, ha, rfl⟩ := List.mem_map.mp hpk
    exact (mem_firstsAfter.mp (List.mem_map_of_mem (List.mem_of_mem_filter ha))).2
  · rintro ⟨hact, hsigned⟩
    obtain ⟨a, ha, rfl⟩ := List.mem_map.mp (mem_firstsAfter.mpr ⟨List.not_mem_nil, hsigned⟩)
    exact List.mem_map_of_mem (List.mem_filter.mpr ⟨ha, decide_eq_true (mem_canonical.mpr hact)⟩)

theorem bitmap_length :
    (fromAttestations prim key attesters stakeMap leader atts).signerBitmap.length =
      ((canonical attesters).length + 7) / 8 := by
  rw [fromAttestations_firsts, (fromAttestations_spec prim attesters stakeMap leader firsts_tidy).1,
    length_foldl_setBit, List.length_replicate]

theorem bitmap_noStray :
    strayBits (fromAttestations prim key attesters stakeMap leader atts).signerBitmap
      (canonical attesters).length =
      false := by
  refine strayBits_eq_false (bitmap_length prim key attesters stakeMap leader atts) fun j hj => ?_
  rw [Bool.eq_false_iff, fromAttestations_firsts]
  intro hbit
  obtain ⟨pk, hpk, rfl⟩ := (bit_fromAttestations prim attesters stakeMap leader firsts_tidy j).mp hbit
  have := List.idxOf_lt_length_of_mem (mem_canonical_of_inCertificate hpk)
  omega

theorem bitmapSignedStake_built :
    bitmapSignedStake (fromAttestations prim key attesters stakeMap leader atts) attesters stakeMap leader =
      .ok ((signersOf key attesters atts).card,
        (fromAttestations prim key attesters stakeMap leader atts).signedStake) := by
  have hlen := bitmap_length prim key attesters stakeMap leader atts
  have hstray := bitmap_noStray prim key attesters stakeMap leader atts
  rw [fromAttestations_firsts] at hlen hstray ⊢
  have htidy : TidyList key (firsts key atts) := firsts_tidy
  have hperm := bitmapSigners_fromAttestations prim attesters stakeMap leader htidy
  have hnd : (inCertificate attesters (firsts key atts)).Nodup := inCertificate_nodup firsts_tidy
  simp only [bitmapSignedStake, failIf_bind_ok, hlen, hstray, not_true_eq_false, not_false_eq_true, true_and,
    Bool.false_eq_true, ne_eq]
  rw [pure_eq_ok, foldl_addStake_perm hperm, hperm.length_eq, ← inCertificate_toFinset,
    List.toFinset_card_of_nodup hnd, (fromAttestations_spec prim attesters stakeMap leader firsts_tidy).2.2]

theorem signedStake_built :
    (fromAttestations prim key attesters stakeMap leader atts).signedStake =
      min (weight (stakeAt stakeMap) ((signersOf key attesters atts).erase leader)) (u64 - 1) := by
  have hnd : (inCertificate attesters (firsts key atts)).Nodup := inCertificate_nodup firsts_tidy
  have herase : (signersOf key attesters atts).erase leader =
      ((inCertificate attesters (firsts key atts)).filter fun pk => pk ≠ leader).toFinset := by
    rw [List.toFinset_filter, inCertificate_toFinset]
    ext pk
    rw [Finset.mem_erase, Finset.mem_filter, decide_eq_true_eq, and_comm]
  rw [fromAttestations_firsts, (fromAttestations_spec prim attesters stakeMap leader firsts_tidy).2.2,
    foldl_addStake _ _ _ (Nat.zero_le _), Nat.zero_add, herase, sum_map_eq_weight _ (hnd.filter _)]

end Built

/-! ## Orders -/

theorem canonical_congr {attesters attesters' : List Bytes} (h : ∀ pk, pk ∈ attesters' ↔ pk ∈ attesters) :
    canonical attesters' = canonical attesters := by
  unfold canonical
  congr 1
  refine Std.ExtTreeSet.ext_mem fun pk => ?_
  rw [Std.ExtTreeSet.mem_ofList, Std.ExtTreeSet.mem_ofList, List.contains_iff_mem, List.contains_iff_mem, h]

theorem setBit_comm (bm : Bytes) (i j : ℕ) : setBit (setBit bm i) j = setBit (setBit bm j) i := by
  unfold setBit
  refine List.ext_getElem? fun k => ?_
  simp only [List.getElem?_modify, Option.map_eq_map, Option.map_map]
  congr 1
  funext b
  simp only [Function.comp_apply]
  split_ifs
  · rw [UInt8.or_assoc, UInt8.or_assoc, UInt8.or_comm (UInt8.ofNat _)]
  all_goals rfl

instance : RightCommutative setBit := ⟨setBit_comm⟩

/-- Two lists of different elements do not hold two of them in both orders. -/
theorem not_sublist_swap {α : Type} {x y : α} {l : List α} (hnd : l.Nodup) (hxy : [x, y].Sublist l)
    (hyx : [y, x].Sublist l) : False := by
  induction l with
  | nil => cases hxy
  | cons z l ih =>
    obtain ⟨hz, hnd⟩ := List.nodup_cons.mp hnd
    cases hxy with
    | cons _ hxy =>
      cases hyx with
      | cons _ hyx => exact ih hnd hxy hyx
      | cons_cons _ _ => exact hz (hxy.subset (by simp))
    | cons_cons _ hy =>
      cases hyx with
      | cons _ hyx => exact hz (hyx.subset (by simp))
      | cons_cons _ _ => exact hz (hy.subset (by simp))

section Orders
variable {prim : Primitives} {key : AttestationKey} {attesters : List Bytes} {stakeMap : StakeMap} {leader : Bytes}
variable {atts atts' : List Attestation}

/-- The entries of the attestations that count, as they are gathered. -/
def entries (key : AttestationKey) (attesters : List Bytes) (atts : List Attestation) :
    List PqFinalitySignature :=
  (listed (canonical attesters) (firsts key atts)).map (entryOf (canonical attesters))

theorem signatures_built :
    (fromAttestations prim key attesters stakeMap leader atts).signatures =
      (entries key attesters atts).insertionSort fun a b => a.validatorIndex ≤ b.validatorIndex := by
  have htidy : TidyList key (firsts key atts) := firsts_tidy
  have hgather := (foldl_gather (canonical attesters) stakeMap leader htidy
    (g := ⟨List.replicate (((canonical attesters).length + 7) / 8) 0, [], [], 0⟩) fun a _ => List.not_mem_nil).2.1
  rw [List.nil_append] at hgather
  rw [fromAttestations_firsts, entries, ← hgather]
  rfl

theorem fromAttestations_ext {attesters' : List Bytes}
    (hbitmap : (fromAttestations prim key attesters' stakeMap leader atts').signerBitmap =
      (fromAttestations prim key attesters stakeMap leader atts).signerBitmap)
    (hsigs : (fromAttestations prim key attesters' stakeMap leader atts').signatures =
      (fromAttestations prim key attesters stakeMap leader atts).signatures)
    (hstake : (fromAttestations prim key attesters' stakeMap leader atts').signedStake =
      (fromAttestations prim key attesters stakeMap leader atts).signedStake) :
    fromAttestations prim key attesters' stakeMap leader atts' =
      fromAttestations prim key attesters stakeMap leader atts := by
  have hmk : ∀ attesters atts, fromAttestations prim key attesters stakeMap leader atts =
      ⟨PqFinalityCertificate.VERSION, key.1, key.2.1, key.2.2.1, key.2.2.2,
        (fromAttestations prim key attesters stakeMap leader atts).signerBitmap,
        (fromAttestations prim key attesters stakeMap leader atts).signatures,
        PqFinalityCertificate.signatureRootFor prim
          (fromAttestations prim key attesters stakeMap leader atts).signatures,
        (fromAttestations prim key attesters stakeMap leader atts).signedStake⟩ := fun _ _ => rfl
  rw [hmk attesters' atts', hmk attesters atts, hbitmap, hsigs, hstake]

theorem mem_signersOf {a : Attestation} (ha : a ∈ listed (canonical attesters) (firsts key atts)) :
    a.validatorPubkey ∈ signersOf key attesters atts := by
  rw [← inCertificate_toFinset, List.mem_toFinset]
  exact List.mem_map_of_mem ha

theorem sorted_entries_eq (hperm : (entries key attesters atts').Perm (entries key attesters atts))
    (hdiffer : IndicesDiffer key attesters atts) :
    (entries key attesters atts').insertionSort (fun a b => a.validatorIndex ≤ b.validatorIndex) =
      (entries key attesters atts).insertionSort fun a b => a.validatorIndex ≤ b.validatorIndex := by
  have : Std.Total fun a b : PqFinalitySignature => a.validatorIndex ≤ b.validatorIndex :=
    ⟨fun a b => le_total _ _⟩
  have : IsTrans PqFinalitySignature fun a b => a.validatorIndex ≤ b.validatorIndex := ⟨fun a b c => le_trans⟩
  refine List.Perm.eq_of_pairwise ?_ (List.pairwise_insertionSort _ _) (List.pairwise_insertionSort _ _)
    ((List.perm_insertionSort _ _).trans (hperm.trans (List.perm_insertionSort _ _).symm))
  intro e e' he he' hle hle'
  obtain ⟨a, ha, rfl⟩ := List.mem_map.mp (hperm.mem_iff.mp ((List.perm_insertionSort _ _).mem_iff.mp he))
  obtain ⟨b, hb, rfl⟩ := List.mem_map.mp ((List.perm_insertionSort _ _).mem_iff.mp he')
  have hpk := hdiffer _ (mem_signersOf ha) _ (mem_signersOf hb) (le_antisymm hle hle')
  have htidy : TidyList key (firsts key atts) := firsts_tidy
  have hab : a = b := List.inj_on_of_nodup_map htidy.nodup
    (List.mem_of_mem_filter ha) (List.mem_of_mem_filter hb) hpk
  rw [hab]

theorem fromAttestations_perm (hnd : (atts.map Attestation.validatorPubkey).Nodup) (hperm : atts'.Perm atts)
    (hdiffer : IndicesDiffer key attesters atts) :
    fromAttestations prim key attesters stakeMap leader atts' =
      fromAttestations prim key attesters stakeMap leader atts := by
  have hfirsts : (firsts key atts').Perm (firsts key atts) := by
    rw [firsts_of_nodup hnd, firsts_of_nodup ((hperm.map _).nodup_iff.mpr hnd)]
    exact hperm.filter _
  have hlisted : (listed (canonical attesters) (firsts key atts')).Perm
      (listed (canonical attesters) (firsts key atts)) := hfirsts.filter _
  have hin : (inCertificate attesters (firsts key atts')).Perm (inCertificate attesters (firsts key atts)) :=
    hlisted.map _
  refine fromAttestations_ext ?_ ?_ ?_
  · rw [fromAttestations_firsts, fromAttestations_firsts prim key attesters stakeMap leader atts,
      (fromAttestations_spec prim attesters stakeMap leader firsts_tidy).1,
      (fromAttestations_spec prim attesters stakeMap leader firsts_tidy).1]
    exact (hin.map _).foldl_eq _
  · rw [signatures_built, signatures_built]
    exact sorted_entries_eq (hlisted.map _) hdiffer
  · rw [fromAttestations_firsts, fromAttestations_firsts prim key attesters stakeMap leader atts,
      (fromAttestations_spec prim attesters stakeMap leader firsts_tidy).2.2,
      (fromAttestations_spec prim attesters stakeMap leader firsts_tidy).2.2]
    exact foldl_addStake_perm hin

variable (prim stakeMap leader) in
/-- Two signers with one index stand in the certificate as they were gathered. -/
theorem order_matters {a b : Attestation} {rest : List Attestation}
    (hnd : ((a :: b :: rest).map Attestation.validatorPubkey).Nodup)
    (ha : keyFromAttestation a = key ∧ a.validatorPubkey ∈ attesters)
    (hb : keyFromAttestation b = key ∧ b.validatorPubkey ∈ attesters)
    (hidx : (canonical attesters).idxOf a.validatorPubkey % 2 ^ 32 =
      (canonical attesters).idxOf b.validatorPubkey % 2 ^ 32) :
    fromAttestations prim key attesters stakeMap leader (a :: b :: rest) ≠
      fromAttestations prim key attesters stakeMap leader (b :: a :: rest) := by
  intro heq
  have hswap : (a :: b :: rest).Perm (b :: a :: rest) := List.Perm.swap b a rest
  have hsigs := congrArg PqFinalityCertificate.signatures heq
  rw [signatures_built, signatures_built] at hsigs
  have htwo : ∀ x y : Attestation, ((x :: y :: rest).map Attestation.validatorPubkey).Nodup →
      keyFromAttestation x = key ∧ x.validatorPubkey ∈ attesters →
      keyFromAttestation y = key ∧ y.validatorPubkey ∈ attesters →
      [entryOf (canonical attesters) x, entryOf (canonical attesters) y].Sublist
        (entries key attesters (x :: y :: rest)) := by
    intro x y hnd hx hy
    rw [entries, firsts_of_nodup hnd, List.filter_cons_of_pos (by simpa using hx.1),
      List.filter_cons_of_pos (by simpa using hy.1), listed,
      List.filter_cons_of_pos (by simpa using mem_canonical.mpr hx.2),
      List.filter_cons_of_pos (by simpa using mem_canonical.mpr hy.2)]
    exact ((List.nil_sublist _).cons_cons _).cons_cons _
  have hle : ∀ x y : Attestation, (canonical attesters).idxOf x.validatorPubkey % 2 ^ 32 =
      (canonical attesters).idxOf y.validatorPubkey % 2 ^ 32 →
      (entryOf (canonical attesters) x).validatorIndex ≤ (entryOf (canonical attesters) y).validatorIndex :=
    fun x y h => h.le
  have hnd' := (hswap.map Attestation.validatorPubkey).nodup_iff.mp hnd
  have hab := List.pair_sublist_insertionSort
    (r := fun a b : PqFinalitySignature => a.validatorIndex ≤ b.validatorIndex)
    (hle a b hidx) (htwo a b hnd ha hb)
  have hba := List.pair_sublist_insertionSort
    (r := fun a b : PqFinalitySignature => a.validatorIndex ≤ b.validatorIndex)
    (hle b a hidx.symm) (htwo b a hnd' hb ha)
  rw [← hsigs] at hba
  refine not_sublist_swap ?_ hab hba
  rw [(List.perm_insertionSort _ _).nodup_iff]
  refine List.Nodup.of_map PqFinalitySignature.validatorPubkey ?_
  rw [entries, List.map_map]
  exact inCertificate_nodup firsts_tidy

end Orders

/-- **Which certificates are well built**: all of them, but where two signers have one 32-bit index the
signatures stand in the order of the attestations. -/
theorem certificate_wellBuilt_iff (prim : Primitives) (key : AttestationKey) (attesters : List Bytes)
    (stakeMap : StakeMap) (leader : Bytes) (atts : List Attestation) :
    WellBuilt prim key attesters stakeMap leader atts ↔
      ((atts.map Attestation.validatorPubkey).Nodup → IndicesDiffer key attesters atts) := by
  constructor
  · intro h hnd pk hpk pk' hpk' hidx
    by_contra hne
    obtain ⟨hact, a, ha, hkey, rfl⟩ := Finset.mem_filter.mp hpk
    obtain ⟨hact', b, hb, hkey', rfl⟩ := Finset.mem_filter.mp hpk'
    obtain ⟨l₁, l₂, rfl⟩ := List.append_of_mem ha
    have hb' : b ∈ l₁ ++ l₂ := by
      rcases List.mem_cons.mp (List.perm_middle.mem_iff.mp hb) with rfl | hb'
      · exact absurd rfl hne
      · exact hb'
    obtain ⟨m₁, m₂, hm⟩ := List.append_of_mem hb'
    have hperm : (a :: b :: (m₁ ++ m₂)).Perm (l₁ ++ a :: l₂) :=
      ((List.perm_middle.symm.trans (.of_eq hm.symm)).cons a).trans List.perm_middle.symm
    have hnd' := (hperm.map Attestation.validatorPubkey).nodup_iff.mpr hnd
    refine order_matters prim stakeMap leader hnd'
      ⟨hkey, List.mem_toFinset.mp hact⟩ ⟨hkey', List.mem_toFinset.mp hact'⟩ hidx ?_
    rw [h.attestationOrder hnd _ hperm, h.attestationOrder hnd _ ((List.Perm.swap a b _).trans hperm)]
  · intro hdiffer
    refine ⟨bitmapSignedStake_built prim key attesters stakeMap leader atts,
      signedStake_built prim key attesters stakeMap leader atts, fun attesters' hperm => ?_,
      fun hnd atts' hperm => fromAttestations_perm hnd hperm (hdiffer hnd), rfl, fun requiredStake => ?_⟩
    · unfold fromAttestations
      rw [canonical_congr fun pk => hperm.mem_iff]
    · unfold validateCompactMetadata
      rw [bitmapSignedStake_built]
      simp only [ok_bind, failIf_bind_ok, failIf_eq_ok, ne_eq, not_true_eq_false, not_false_eq_true, true_and,
        Finset.card_eq_zero, not_lt, Finset.nonempty_iff_ne_empty]

/-- Up to `2^32` attesters have different indices. -/
theorem indicesDiffer_of_few {key : AttestationKey} {attesters : List Bytes} {atts : List Attestation}
    (h : (canonical attesters).length ≤ 2 ^ 32) : IndicesDiffer key attesters atts := by
  have hplace : ∀ pk ∈ signersOf key attesters atts, pk ∈ canonical attesters := fun pk hpk =>
    mem_canonical.mpr (List.mem_toFinset.mp (Finset.mem_filter.mp hpk).1)
  intro pk hpk pk' hpk' hidx
  have hlt := List.idxOf_lt_length_of_mem (hplace pk hpk)
  have hlt' := List.idxOf_lt_length_of_mem (hplace pk' hpk')
  rw [Nat.mod_eq_of_lt (hlt.trans_le h), Nat.mod_eq_of_lt (hlt'.trans_le h)] at hidx
  exact (List.idxOf_inj (hplace pk hpk)).mp hidx

/-! ## More attesters than indices -/

def crowd (n : ℕ) : List Bytes := (List.range n).map (leBytes 8)

theorem length_canonical_crowd {n : ℕ} (hn : n ≤ 256 ^ 8) : (canonical (crowd n)).length = n := by
  have hnd : (crowd n).Nodup := by
    refine List.Nodup.map_on ?_ List.nodup_range
    intro x hx y hy heq
    have hlt : ∀ k ∈ List.range n, k < 256 ^ 8 := fun k hk => (List.mem_range.mp hk).trans_le hn
    rw [← leNat_leBytes (hlt x hx), heq, leNat_leBytes (hlt y hy)]
  have hperm : (canonical (crowd n)).Perm (crowd n) :=
    (List.perm_ext_iff_of_nodup (canonical_nodup _) hnd).mpr fun pk => mem_canonical
  rw [hperm.length_eq, crowd, List.length_map, List.length_range]

/-- The attestation of the attester at a place of the sorted list. -/
def attestationAt (attesters : List Bytes) (place : ℕ) : Attestation :=
  { height := 1, round := 0, batchHash := 1, stateRoot := 1
    validatorPubkey := (canonical attesters).getD place [], signature := [] }

theorem idxOf_attestationAt {attesters : List Bytes} {place : ℕ} (h : place < (canonical attesters).length) :
    (canonical attesters).idxOf (attestationAt attesters place).validatorPubkey = place := by
  have hget : (attestationAt attesters place).validatorPubkey = (canonical attesters)[place] := by
    rw [attestationAt, List.getD_eq_getElem?_getD, List.getElem?_eq_getElem h]
    rfl
  rw [hget, (canonical_nodup attesters).idxOf_getElem]

/-- With more attesters than indices there are attestations whose order shows in the certificate. -/
theorem not_wellBuilt_of_many {attesters : List Bytes} (hmany : 2 ^ 32 < (canonical attesters).length)
    (prim : Primitives) (stakeMap : StakeMap) (leader : Bytes) :
    ¬ WellBuilt prim (1, 0, 1, 1) attesters stakeMap leader
      [attestationAt attesters 0, attestationAt attesters (2 ^ 32)] := by
  intro h
  have hfirst := @idxOf_attestationAt attesters 0 (by omega)
  have hlast := idxOf_attestationAt hmany
  have hact : ∀ place, place < (canonical attesters).length →
      (attestationAt attesters place).validatorPubkey ∈ attesters := by
    intro place hplace
    refine mem_canonical.mp ?_
    rw [← List.idxOf_lt_length_iff, idxOf_attestationAt hplace]
    exact hplace
  have hne : (attestationAt attesters 0).validatorPubkey ≠
      (attestationAt attesters (2 ^ 32)).validatorPubkey := by
    intro heq
    rw [heq, hlast] at hfirst
    omega
  have hnd : ([attestationAt attesters 0, attestationAt attesters (2 ^ 32)].map
      Attestation.validatorPubkey).Nodup := by
    simpa using hne
  refine order_matters prim stakeMap leader hnd
    ⟨rfl, hact 0 (by omega)⟩ ⟨rfl, hact _ hmany⟩ (by rw [hfirst, hlast, Nat.zero_mod, Nat.mod_self]) ?_
  exact (h.attestationOrder hnd _ (List.Perm.swap _ _ [])).symm

/-- **2^32 + 1 attesters**: the certificate depends on the order of two attestations. -/
theorem crowd_not_wellBuilt :
    ¬ WellBuilt (toyPrim []) (1, 0, 1, 1) (crowd (2 ^ 32 + 1)) ∅ []
      [attestationAt (crowd (2 ^ 32 + 1)) 0, attestationAt (crowd (2 ^ 32 + 1)) (2 ^ 32)] := by
  refine not_wellBuilt_of_many ?_ _ _ _
  rw [length_canonical_crowd (by decide)]
  exact Nat.lt_succ_self _

end TruthLinked.Consensus.CertificateShape
