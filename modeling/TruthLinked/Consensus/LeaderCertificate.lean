import TruthLinked.Consensus.AttestationPipeline

/-! # The leader's certificate under the validators' check

`from_attestations` of `blockchain.rs` and the header that the leader puts around its certificate. The
leader waits for a quorum of the attesters it takes for live, the validators ask for a quorum of all
active ones. A header that the leader builds passes their check iff the collected attestations reach the
second threshold (`leader_header_accepted_iff`). -/

namespace TruthLinked.Consensus.LeaderCertificate

open Core.Types Staking.State Consensus.Types Consensus.Certificate Consensus.AttestationPipeline Lib.Weight

/-! ## Building a certificate -/

/-- What `from_attestations` has gathered so far. -/
structure Gathered where
  bitmap : Bytes
  seen : List Bytes
  signatures : List PqFinalitySignature
  signedStake : ℕ

/-- One turn of the loop of `from_attestations`. -/
def gather (key : AttestationKey) (canon : List Bytes) (stakeMap : StakeMap) (leader : Bytes)
    (g : Gathered) (att : Attestation) : Gathered :=
  if keyFromAttestation att ≠ key then g
  else if att.validatorPubkey ∉ canon then g
  else if att.validatorPubkey ∈ g.seen then g
  else
    let index := canon.idxOf att.validatorPubkey
    { bitmap := setBit g.bitmap index
      seen := att.validatorPubkey :: g.seen
      signatures := g.signatures ++ [⟨index % 2 ^ 32, att.validatorPubkey, att.signature⟩]
      signedStake := addStake stakeMap leader g.signedStake att.validatorPubkey }

/-- `PqFinalityCertificate::from_attestations`. -/
def fromAttestations (prim : Primitives) (key : AttestationKey) (attesters : List Bytes)
    (stakeMap : StakeMap) (leader : Bytes) (atts : List Attestation) : PqFinalityCertificate :=
  let canon := canonical attesters
  let g := atts.foldl (gather key canon stakeMap leader)
    ⟨List.replicate ((canon.length + 7) / 8) 0, [], [], 0⟩
  let signatures := g.signatures.insertionSort fun a b => a.validatorIndex ≤ b.validatorIndex
  { version := PqFinalityCertificate.VERSION
    height := key.1, round := key.2.1, batchHash := key.2.2.1, stateRoot := key.2.2.2
    signerBitmap := g.bitmap
    signatures
    signatureRoot := PqFinalityCertificate.signatureRootFor prim signatures
    signedStake := g.signedStake }

/-- The attestations of a quorum as the leader hands them on, by key. -/
def leaderAttestations (stateRoot : Bytes32) (atts : List Attestation) : List Attestation :=
  (atts.filter fun a => decide (a.stateRoot = stateRoot)).insertionSort
    fun a b => (compare a.validatorPubkey b.validatorPubkey).isLE

/-- The statement that the attesters of a block sign. -/
def statementOf (block : BatchHeader) : AttestationKey :=
  (block.height, block.leaderRound, block.batchHash, block.stateRoot)

/-- The header that the leader builds: the other fields are those of the block. -/
def leaderHeader (prim : Primitives) (block : BatchHeader) (attesters : List Bytes)
    (stakeMap : StakeMap) (atts : List Attestation) : BatchHeader :=
  { block with
    finalityCertificate := fromAttestations prim (statementOf block) attesters stakeMap
      block.leaderPubkey (leaderAttestations block.stateRoot atts) }

/-! ## Bitmaps -/

theorem length_setBit (bm : Bytes) (i : ℕ) : (setBit bm i).length = bm.length := by
  simp [setBit]

theorem testBit_or_pow (b : UInt8) {k j : ℕ} (hk : k < 8) :
    (b ||| UInt8.ofNat (2 ^ k)).toNat.testBit j = (decide (k = j) || b.toNat.testBit j) := by
  have hlt : 2 ^ k < 2 ^ 8 := Nat.pow_lt_pow_right (by decide) hk
  have hval : (UInt8.ofNat (2 ^ k)).toNat = 2 ^ k := by
    rw [UInt8.toNat_ofNat']
    exact Nat.mod_eq_of_lt hlt
  rw [UInt8.toNat_or, Nat.testBit_or, hval, Nat.testBit_two_pow, Bool.or_comm]

theorem bit_setBit {bm : Bytes} {i : ℕ} (h : i / 8 < bm.length) (j : ℕ) :
    bit (setBit bm i) j = (decide (i = j) || bit bm j) := by
  unfold bit setBit
  rw [List.getD_eq_getElem?_getD, List.getD_eq_getElem?_getD, List.getElem?_modify]
  by_cases hj : i / 8 = j / 8
  · have hget : bm[j / 8]? = some (bm.getD (j / 8) 0) := by
      rw [List.getD_eq_getElem?_getD, List.getElem?_eq_getElem (hj ▸ h)]
      rfl
    have hiff : (i % 8 = j % 8) ↔ i = j := by omega
    rw [hget]
    simp only [if_pos hj, Option.map_eq_map, Option.map_some, Option.getD_some]
    rw [testBit_or_pow _ (Nat.mod_lt _ (by decide))]
    simp only [hiff]
  · have hne : i ≠ j := fun he => hj (by rw [he])
    simp [hj, hne]

theorem length_foldl_setBit (is : List ℕ) (bm : Bytes) :
    (is.foldl setBit bm).length = bm.length := by
  induction is generalizing bm with
  | nil => rfl
  | cons i is ih => rw [List.foldl_cons, ih, length_setBit]

theorem bit_foldl_setBit {is : List ℕ} {bm : Bytes} (h : ∀ i ∈ is, i / 8 < bm.length) (j : ℕ) :
    bit (is.foldl setBit bm) j = (decide (j ∈ is) || bit bm j) := by
  induction is generalizing bm with
  | nil => simp
  | cons i is ih =>
    have hrest : ∀ i' ∈ is, i' / 8 < (setBit bm i).length := by
      intro i' hi'
      rw [length_setBit]
      exact h i' (List.mem_cons_of_mem _ hi')
    rw [List.foldl_cons, ih hrest, bit_setBit (h i List.mem_cons_self)]
    by_cases hij : i = j
    · simp [hij]
    · have : j ≠ i := fun he => hij he.symm
      simp [hij, this]

theorem bit_replicate_zero (n j : ℕ) : bit (List.replicate n 0) j = false := by
  unfold bit
  rw [List.getD_eq_getElem?_getD, List.getElem?_replicate]
  split_ifs <;> simp

theorem small_masked : ∀ v : Fin 8, ∀ m < 2 ^ v.val, UInt8.ofNat m &&& ~~~(UInt8.ofNat (2 ^ v.val) - 1) = 0 := by
  decide +kernel

theorem byte_masked (b : Fin 256) (v : Fin 8) (h : ∀ k : Fin 8, v ≤ k → b.val.testBit k.val = false) :
    UInt8.ofFin b &&& ~~~(UInt8.ofNat (2 ^ v.val) - 1) = 0 := by
  have hlt : b.val < 2 ^ v.val := by
    refine Nat.lt_pow_two_of_testBit _ fun i hi => ?_
    by_cases hi8 : i < 8
    · exact h ⟨i, hi8⟩ hi
    · have hpow : 256 ≤ 2 ^ i := Nat.pow_le_pow_right (show 0 < 2 by decide) (Nat.le_of_not_lt hi8)
      exact Nat.testBit_lt_two_pow (b.isLt.trans_le hpow)
  have hb : UInt8.ofFin b = UInt8.ofNat b.val := UInt8.toNat_inj.mp (by simp)
  rw [hb]
  exact small_masked v b.val hlt

theorem strayBits_eq_false {bm : Bytes} {n : ℕ} (hlen : bm.length = (n + 7) / 8)
    (h : ∀ j, n ≤ j → bit bm j = false) : strayBits bm n = false := by
  unfold strayBits
  by_cases hn : n % 8 = 0
  · simp [hn]
  · have hlast : bm.length - 1 = n / 8 := by omega
    rw [hlast]
    set b := bm.getD (n / 8) 0 with hb
    have hmask : b &&& ~~~(UInt8.ofNat (2 ^ (n % 8)) - 1) = 0 := by
      refine byte_masked b.toFin ⟨n % 8, Nat.mod_lt _ (by decide)⟩ ?_
      intro k hk
      have hbit := h (8 * (n / 8) + k.val) (by have : n % 8 ≤ k.val := hk; omega)
      unfold bit at hbit
      rw [show (8 * (n / 8) + k.val) / 8 = n / 8 by omega,
        show (8 * (n / 8) + k.val) % 8 = k.val by omega] at hbit
      exact hbit
    simp [hmask]

theorem bitmapSigners_eq {canon : List Bytes} (h : canon.Nodup) (bm : Bytes) :
    bitmapSigners canon bm = canon.filter fun pk => bit bm (canon.idxOf pk) := by
  have hidx : ∀ e ∈ canon.zipIdx, bit bm e.2 = bit bm (canon.idxOf e.1) := by
    intro e he
    obtain ⟨hlt, he1⟩ := List.mem_zipIdx' he
    rw [he1, h.idxOf_getElem]
  unfold bitmapSigners
  rw [List.filter_congr hidx]
  have hmap := List.filter_map (f := Prod.fst) (p := fun pk => bit bm (canon.idxOf pk)) (l := canon.zipIdx)
  rw [List.zipIdx_map_fst] at hmap
  exact hmap.symm

/-! ## What a certificate is built from -/

section Gather
variable (canon : List Bytes) (stakeMap : StakeMap) (leader : Bytes) {key : AttestationKey}

/-- The attestations of listed attesters. -/
def listed (atts : List Attestation) : List Attestation :=
  atts.filter fun a => decide (a.validatorPubkey ∈ canon)

/-- The place of an attestation's validator. -/
def placeOf (a : Attestation) : ℕ := canon.idxOf a.validatorPubkey

/-- The entry of an attestation in the certificate. -/
def entryOf (a : Attestation) : PqFinalitySignature :=
  ⟨placeOf canon a % 2 ^ 32, a.validatorPubkey, a.signature⟩

/-- **The loop of `from_attestations`** over attestations of different validators for one statement
takes in those of the listed attesters. -/
theorem foldl_gather {atts : List Attestation} (h : TidyList key atts) {g : Gathered}
    (hnew : ∀ a ∈ atts, a.validatorPubkey ∉ g.seen) :
    let r := atts.foldl (gather key canon stakeMap leader) g
    r.bitmap = ((listed canon atts).map (placeOf canon)).foldl setBit g.bitmap ∧
    r.signatures = g.signatures ++ (listed canon atts).map (entryOf canon) ∧
    r.signedStake = ((listed canon atts).map Attestation.validatorPubkey).foldl
      (addStake stakeMap leader) g.signedStake := by
  induction atts generalizing g with
  | nil => simp [listed]
  | cons a atts ih =>
    have hnd := h.nodup
    rw [List.map_cons, List.nodup_cons] at hnd
    have hrest : TidyList key atts := ⟨hnd.2, fun b hb => h.key b (List.mem_cons_of_mem _ hb)⟩
    have hkey : ¬ keyFromAttestation a ≠ key := not_not.mpr (h.key a List.mem_cons_self)
    rw [List.foldl_cons]
    by_cases hmem : a.validatorPubkey ∈ canon
    · have hlist : listed canon (a :: atts) = a :: listed canon atts :=
        List.filter_cons_of_pos (by simpa using hmem)
      rw [gather, if_neg hkey, if_neg (not_not.mpr hmem), if_neg (hnew a List.mem_cons_self), hlist]
      have hnew' : ∀ b ∈ atts, b.validatorPubkey ∉ a.validatorPubkey :: g.seen := by
        intro b hb hin
        rcases List.mem_cons.mp hin with he | hin
        · exact hnd.1 (he ▸ List.mem_map_of_mem hb)
        · exact hnew b (List.mem_cons_of_mem _ hb) hin
      obtain ⟨h1, h2, h3⟩ := ih (g := ⟨_, _, _, _⟩) hrest hnew'
      refine ⟨h1, ?_, h3⟩
      rw [h2, List.map_cons, List.append_assoc]
      rfl
    · have hlist : listed canon (a :: atts) = listed canon atts :=
        List.filter_cons_of_neg (by simpa using hmem)
      rw [gather, if_neg hkey, if_pos hmem, hlist]
      exact ih hrest fun b hb => hnew b (List.mem_cons_of_mem _ hb)

end Gather

theorem foldl_addStake_perm {stakeMap : StakeMap} {leader : Bytes} {pks pks' : List Bytes}
    (h : pks.Perm pks') :
    pks.foldl (addStake stakeMap leader) 0 = pks'.foldl (addStake stakeMap leader) 0 := by
  rw [foldl_addStake _ _ _ (Nat.zero_le _), foldl_addStake _ _ _ (Nat.zero_le _),
    ((h.filter _).map _).sum_eq]

section Built
variable (prim : Primitives) (attesters : List Bytes) (stakeMap : StakeMap) (leader : Bytes)
  {key : AttestationKey} {atts : List Attestation}

/-- The validators in a certificate. -/
def inCertificate (atts : List Attestation) : List Bytes :=
  (listed (canonical attesters) atts).map Attestation.validatorPubkey

theorem inCertificate_nodup {attesters : List Bytes} (h : TidyList key atts) :
    (inCertificate attesters atts).Nodup :=
  h.nodup.sublist (List.Sublist.map _ List.filter_sublist)

theorem mem_canonical_of_inCertificate {attesters : List Bytes} {pk : Bytes}
    (h : pk ∈ inCertificate attesters atts) :
    pk ∈ canonical attesters := by
  obtain ⟨a, ha, rfl⟩ := List.mem_map.mp h
  simpa [listed] using (List.mem_filter.mp ha).2

theorem fromAttestations_spec (h : TidyList key atts) :
    let cert := fromAttestations prim key attesters stakeMap leader atts
    cert.signerBitmap = ((inCertificate attesters atts).map ((canonical attesters).idxOf ·)).foldl setBit
      (List.replicate (((canonical attesters).length + 7) / 8) 0) ∧
    cert.signatures.Perm ((listed (canonical attesters) atts).map (entryOf (canonical attesters))) ∧
    cert.signedStake = (inCertificate attesters atts).foldl (addStake stakeMap leader) 0 := by
  obtain ⟨h1, h2, h3⟩ := foldl_gather (canonical attesters) stakeMap leader h (g := ⟨_, [], [], 0⟩)
    fun a _ => List.not_mem_nil
  refine ⟨?_, ?_, h3⟩
  · rw [inCertificate, List.map_map]
    exact h1
  · rw [List.nil_append] at h2
    rw [← h2]
    exact List.perm_insertionSort _ _

theorem bit_fromAttestations (h : TidyList key atts) (j : ℕ) :
    bit (fromAttestations prim key attesters stakeMap leader atts).signerBitmap j = true ↔
      ∃ pk ∈ inCertificate attesters atts, (canonical attesters).idxOf pk = j := by
  have hplace : ∀ i ∈ (inCertificate attesters atts).map ((canonical attesters).idxOf ·),
      i / 8 < (List.replicate (((canonical attesters).length + 7) / 8) (0 : UInt8)).length := by
    intro i hi
    obtain ⟨pk, hpk, rfl⟩ := List.mem_map.mp hi
    have := List.idxOf_lt_length_of_mem (mem_canonical_of_inCertificate hpk)
    rw [List.length_replicate]
    omega
  rw [(fromAttestations_spec prim attesters stakeMap leader h).1, bit_foldl_setBit hplace,
    bit_replicate_zero, Bool.or_false, decide_eq_true_eq, List.mem_map]

theorem bitmapSigners_fromAttestations (h : TidyList key atts) :
    (bitmapSigners (canonical attesters)
      (fromAttestations prim key attesters stakeMap leader atts).signerBitmap).Perm
      (inCertificate attesters atts) := by
  have hnd := canonical_nodup attesters
  rw [bitmapSigners_eq hnd, List.perm_ext_iff_of_nodup (hnd.filter _) (inCertificate_nodup h)]
  intro pk
  rw [List.mem_filter, bit_fromAttestations prim attesters stakeMap leader h]
  constructor
  · rintro ⟨hpk, pk', hpk', he⟩
    rwa [← List.idxOf_inj (mem_canonical_of_inCertificate hpk') |>.mp he]
  · intro hpk
    exact ⟨mem_canonical_of_inCertificate hpk, pk, hpk, rfl⟩

theorem validate_fromAttestations (h : TidyList key atts) {requiredStake : ℕ} (hreq : 0 < requiredStake) :
    validateCompactMetadata (fromAttestations prim key attesters stakeMap leader atts) attesters
        stakeMap leader requiredStake = .ok () ↔
      requiredStake ≤ (inCertificate attesters atts).foldl (addStake stakeMap leader) 0 := by
  obtain ⟨hbitmap, -, hstake⟩ := fromAttestations_spec prim attesters stakeMap leader h
  have hperm := bitmapSigners_fromAttestations prim attesters stakeMap leader h
  rw [validateCompactMetadata_eq_ok, foldl_addStake_perm hperm, hstake]
  constructor
  · exact fun hmeta => hmeta.2.2.2.2
  · intro hle
    have hlen : (fromAttestations prim key attesters stakeMap leader atts).signerBitmap.length =
        ((canonical attesters).length + 7) / 8 := by
      rw [hbitmap, length_foldl_setBit, List.length_replicate]
    refine ⟨hlen, strayBits_eq_false hlen ?_, ?_, rfl, hle⟩
    · intro j hj
      rw [Bool.eq_false_iff]
      intro hbit
      obtain ⟨pk, hpk, rfl⟩ := (bit_fromAttestations prim attesters stakeMap leader h j).mp hbit
      have := List.idxOf_lt_length_of_mem (mem_canonical_of_inCertificate hpk)
      omega
    · intro he
      rw [he, List.nil_perm] at hperm
      rw [hperm, List.foldl_nil] at hle
      omega

/-- The signatures of a built certificate pass iff no place was cut to 32 bits. -/
theorem verify_fromAttestations (h : TidyList key atts)
    (hsig : ∀ a ∈ atts, verifyAttestationSignature prim a = true) :
    let cert := fromAttestations prim key attesters stakeMap leader atts
    verifySignatures prim cert (canonical attesters) stakeMap leader cert.signatures [] 0 =
        .ok cert.signedStake ↔
      ∀ pk ∈ inCertificate attesters atts, (canonical attesters).idxOf pk < 2 ^ 32 := by
  intro cert
  obtain ⟨-, hsigs, hstake⟩ := fromAttestations_spec prim attesters stakeMap leader h
  have hpks : (cert.signatures.map PqFinalitySignature.validatorPubkey).Perm
      (inCertificate attesters atts) := by
    have := hsigs.map PqFinalitySignature.validatorPubkey
    rwa [List.map_map] at this
  rw [verifySignatures_eq_ok]
  constructor
  · rintro ⟨hok, -, -⟩ pk hpk
    obtain ⟨a, ha, rfl⟩ := List.mem_map.mp hpk
    obtain ⟨⟨hidx, -, -⟩, -⟩ := hok _ (hsigs.mem_iff.mpr (List.mem_map_of_mem ha))
    -- the cut place is the place of the same key
    obtain ⟨hlt, he⟩ := List.getElem?_eq_some_iff.mp hidx
    have hplace := (canonical_nodup attesters).idxOf_getElem _ hlt
    rw [he] at hplace
    have hcut : (canonical attesters).idxOf a.validatorPubkey =
        (canonical attesters).idxOf a.validatorPubkey % 2 ^ 32 := hplace
    rw [hcut]
    exact Nat.mod_lt _ (by decide)
  · intro hsmall
    refine ⟨?_, ?_, ?_⟩
    · intro sig hs
      obtain ⟨a, ha, rfl⟩ := List.mem_map.mp (hsigs.mem_iff.mp hs)
      have hin : a.validatorPubkey ∈ inCertificate attesters atts := List.mem_map_of_mem ha
      have hmem := List.mem_filter.mp ha
      have hplace : placeOf (canonical attesters) a % 2 ^ 32 = placeOf (canonical attesters) a :=
        Nat.mod_eq_of_lt (hsmall _ hin)
      refine ⟨⟨?_, ?_, ?_⟩, List.not_mem_nil⟩
      · rw [entryOf, hplace]
        exact List.getElem?_idxOf (mem_canonical_of_inCertificate hin)
      · rw [entryOf, hplace, bit_fromAttestations prim attesters stakeMap leader h]
        exact ⟨_, hin, rfl⟩
      · have hkey := h.key a hmem.1
        have hatt : attestationOf cert (entryOf (canonical attesters) a) = a := by
          obtain ⟨⟩ := hkey
          rfl
        rw [hatt]
        exact hsig a hmem.1
    · exact hpks.nodup_iff.mpr (inCertificate_nodup h)
    · rw [foldl_addStake_perm hpks]
      exact hstake

end Built

/-! ## Leader and validators -/

theorem leaderAttestations_perm {block : BatchHeader} {atts : List Attestation}
    (h : TidyList (statementOf block) atts) : (leaderAttestations block.stateRoot atts).Perm atts := by
  have hroot : (atts.filter fun a => decide (a.stateRoot = block.stateRoot)) = atts := by
    refine List.filter_eq_self.mpr fun a ha => ?_
    have hk := h.key a ha
    have : (keyFromAttestation a).2.2.2 = (statementOf block).2.2.2 := by rw [hk]
    simpa [keyFromAttestation, statementOf] using this
  rw [leaderAttestations, hroot]
  exact List.perm_insertionSort _ _

theorem stakeAt_active (st : StakingState) (pk : Bytes) :
    stakeAt (getActiveValidators st) pk = 0 ∨
      minValidatorStake ≤ stakeAt (getActiveValidators st) pk := by
  unfold stakeAt getActiveValidators
  rw [Std.ExtTreeMap.getElem?_filterMap']
  cases st.validators[pk]? with
  | none => exact Or.inl rfl
  | some v =>
    by_cases hv : v.isActive st.currentHeight = true
    · have hmin := hv
      simp only [ValidatorStake.isActive, Bool.and_eq_true, decide_eq_true_eq] at hmin
      simpa [hv] using Or.inr hmin.2
    · simp [hv]

theorem nonLeaderStake_ne_zero {stakeMap : StakeMap} {leader : Bytes} {attesters : List Bytes} :
    nonLeaderStake stakeMap attesters leader ≠ 0 ↔
      ∃ pk ∈ attesters, pk ≠ leader ∧ stakeAt stakeMap pk ≠ 0 := by
  have hmin : ∀ n : ℕ, min n (u64 - 1) ≠ 0 ↔ n ≠ 0 := by
    intro n
    have hcap : 1 < u64 := by decide
    omega
  rw [nonLeaderStake_eq, hmin, Ne, List.sum_eq_zero_iff]
  constructor
  · intro h
    push Not at h
    obtain ⟨n, hn, h0⟩ := h
    obtain ⟨pk, hpk, rfl⟩ := List.mem_map.mp hn
    obtain ⟨hpk, hne⟩ := List.mem_filter.mp hpk
    exact ⟨pk, hpk, by simpa using hne, h0⟩
  · rintro ⟨pk, hpk, hne, h0⟩ h
    exact h0 (h _ (List.mem_map_of_mem (List.mem_filter.mpr ⟨hpk, by simpa using hne⟩)))

theorem required_pos_of_subset {st : StakingState} {leader : Bytes} {live active : List Bytes}
    (hsub : ∀ pk ∈ live, pk ∈ active)
    (h : 0 < requiredNonLeaderStakeForAttesters (getActiveValidators st) live leader) :
    0 < requiredNonLeaderStakeForAttesters (getActiveValidators st) active leader := by
  have hlive : nonLeaderStake (getActiveValidators st) live leader ≠ 0 := by
    intro h0
    rw [required_eq, h0, effectiveNonLeaderQuorumRequired, if_pos rfl] at h
    omega
  obtain ⟨pk, hpk, hne, h0⟩ := nonLeaderStake_ne_zero.mp hlive
  have hstake : minValidatorStake ≤ stakeAt (getActiveValidators st) pk :=
    (stakeAt_active st pk).resolve_left h0
  have hmem : stakeAt (getActiveValidators st) pk ∈
      (active.filter fun pk => pk ≠ leader).map (stakeAt (getActiveValidators st)) :=
    List.mem_map_of_mem (List.mem_filter.mpr ⟨hsub pk hpk, by simpa using hne⟩)
  have hsum := List.single_le_sum (fun _ _ => Nat.zero_le _) _ hmem
  have htotal : minValidatorStake ≤ nonLeaderStake (getActiveValidators st) active leader := by
    rw [nonLeaderStake_eq]
    exact le_min (hstake.trans hsum) (by decide)
  rw [required_eq]
  have hcap : 10 < u64 := by decide
  unfold minValidatorStake at htotal
  unfold effectiveNonLeaderQuorumRequired satMul64
  split_ifs <;> omega

/-- **The validators accept the leader's header iff what was collected reaches their threshold**, the one
of all active attesters, and no signer stands beyond the reach of a 32-bit index. -/
theorem leader_header_accepted_iff (prim : Primitives) (st : StakingState) (block : BatchHeader)
    (live : List Bytes) (polls : List Pipeline) (reread : Pipeline) (atts : List Attestation)
    (hlive : ∀ pk ∈ live, pk ∈ (getActiveValidators st).keys)
    (hcall : 0 < requiredNonLeaderStakeForAttesters (getActiveValidators st) live block.leaderPubkey)
    (hreread : Reachable reread)
    (hwait : waitForQuorum reread (statementOf block)
      (requiredNonLeaderStakeForAttesters (getActiveValidators st) live block.leaderPubkey)
      (getActiveValidators st) block.leaderPubkey (some live) polls = some atts)
    (hsig : ∀ a ∈ atts, verifyAttestationSignature prim a = true) :
    let stakes := getActiveValidators st
    let required := requiredNonLeaderStakeForAttesters stakes stakes.keys block.leaderPubkey
    let signers := signersOf block.leaderPubkey (some stakes.keys) (collected reread (statementOf block))
    verifyAttestationSet prim (leaderHeader prim block stakes.keys stakes atts) stakes.keys stakes
        required = .ok () ↔
      required ≤ weight (stakeAt stakes) signers.toFinset ∧
      ∀ pk ∈ signers, (canonical stakes.keys).idxOf pk < 2 ^ 32 := by
  intro stakes required signers
  have hreq : 0 < required := required_pos_of_subset hlive hcall
  have htidy := collected_tidy hreread (statementOf block)
  have hatts := waitForQuorum_eq_some hwait
  have hfiltered : TidyList (statementOf block) atts := by
    rw [hatts]
    exact htidy.filter _
  have hperm := leaderAttestations_perm hfiltered
  have hleader : TidyList (statementOf block) (leaderAttestations block.stateRoot atts) :=
    hfiltered.perm hperm.symm
  have hmem : ∀ pk, pk ∈ inCertificate stakes.keys (leaderAttestations block.stateRoot atts) ↔
      pk ∈ signers := by
    intro pk
    simp only [inCertificate, listed, signers, signersOf, isLive, List.mem_map, List.mem_filter,
      decide_eq_true_eq, hperm.mem_iff, mem_canonical]
    simp only [hatts, List.mem_filter, decide_eq_true_eq]
    constructor
    · rintro ⟨a, ⟨⟨ha, hne⟩, hin⟩, rfl⟩
      exact ⟨⟨a, ha, rfl⟩, hne, hin⟩
    · rintro ⟨⟨a, ha, rfl⟩, hne, hin⟩
      exact ⟨a, ⟨⟨ha, hne⟩, hin⟩, rfl⟩
  have hstake : required ≤ (inCertificate stakes.keys (leaderAttestations block.stateRoot atts)).foldl
      (addStake stakes block.leaderPubkey) 0 ↔ required ≤ weight (stakeAt stakes) signers.toFinset := by
    have hother : (inCertificate stakes.keys (leaderAttestations block.stateRoot atts)).filter
        (fun pk => pk ≠ block.leaderPubkey) =
        inCertificate stakes.keys (leaderAttestations block.stateRoot atts) := by
      refine List.filter_eq_self.mpr fun pk hpk => ?_
      have := (hmem pk).mp hpk
      simp only [signers, signersOf, List.mem_filter, decide_eq_true_eq] at this
      simpa using this.2.1
    rw [foldl_addStake _ _ _ (Nat.zero_le _), Nat.zero_add, hother,
      sum_map_eq_weight _ (inCertificate_nodup hleader), le_min_iff,
      and_iff_left (required_le stakes _ _)]
    rw [show (inCertificate stakes.keys (leaderAttestations block.stateRoot atts)).toFinset =
      signers.toFinset from Finset.ext fun pk => by rw [List.mem_toFinset, List.mem_toFinset, hmem]]
  rw [verifyAttestationSet_eq_ok hreq]
  have hmatch : Matches (leaderHeader prim block stakes.keys stakes atts)
      (leaderHeader prim block stakes.keys stakes atts).finalityCertificate := ⟨rfl, rfl, rfl, rfl, rfl⟩
  have hmeta := validate_fromAttestations prim stakes.keys stakes block.leaderPubkey hleader hreq
  have hver := verify_fromAttestations prim stakes.keys stakes block.leaderPubkey hleader
    fun a ha => hsig a (hperm.mem_iff.mp ha)
  constructor
  · rintro ⟨-, hok, hfull⟩
    have hle := hmeta.mp hok
    -- a certificate that reaches the threshold carries signatures
    have hne : (leaderHeader prim block stakes.keys stakes atts).finalityCertificate.signatures ≠ [] := by
      intro he
      have hnil := (fromAttestations_spec prim stakes.keys stakes block.leaderPubkey hleader).2.1
      rw [show (fromAttestations prim (statementOf block) stakes.keys stakes block.leaderPubkey
        (leaderAttestations block.stateRoot atts)).signatures = [] from he, List.nil_perm,
        List.map_eq_nil_iff] at hnil
      rw [inCertificate, hnil, List.map_nil, List.foldl_nil] at hle
      omega
    exact ⟨hstake.mp hle, fun pk hpk => hver.mp (hfull hne).2 pk ((hmem pk).mpr hpk)⟩
  · rintro ⟨hle, hsmall⟩
    refine ⟨hmatch, hmeta.mpr (hstake.mpr hle), fun _ => ⟨rfl, ?_⟩⟩
    exact hver.mpr fun pk hpk => hsmall pk ((hmem pk).mp hpk)

/-! ## Four validators -/

def fourKeys : List Bytes := [1, 2, 3, 4].map fun b => List.replicate 1952 b

/-- The four validators have the least stake of an active validator. -/
def fourStaked : StakingState :=
  { validators := fourKeys.foldl (fun m pk => m.insert pk ⟨minValidatorStake, [], none⟩) ∅
    currentHeight := 1, treasuryAccountId := none }

/-- The attestation of validator `n` to the block of `fullHeader`. -/
def attestationBy (n : ℕ) : Attestation :=
  { height := 1, round := 0, batchHash := 5, stateRoot := 6, validatorPubkey := fourKeys.getD n []
    signature := List.replicate 3309 7 }

/-- The attestations of some validators, collected for that block. -/
def collecting (ns : List ℕ) : Pipeline :=
  ns.foldl (fun p n => addAttestation 10 (attestationBy n) p)
    (startCollection 10 0 (statementOf fullHeader) Pipeline.new)

theorem collecting_reachable (ns : List ℕ) : Reachable (collecting ns) := by
  have h : ∀ p, Reachable p →
      Reachable (ns.foldl (fun p n => addAttestation 10 (attestationBy n) p) p) := by
    induction ns with
    | nil => exact fun p hp => hp
    | cons n ns ih => exact fun p hp => ih _ (.addAttestation 10 (attestationBy n) hp)
  exact h _ (.startCollection 10 0 _ .new)

theorem fourKeys_accepted :
    verifyAttestationSet (toyPrim fourKeys)
      (leaderHeader (toyPrim fourKeys) fullHeader (getActiveValidators fourStaked).keys
        (getActiveValidators fourStaked) [attestationBy 1, attestationBy 2])
      (getActiveValidators fourStaked).keys (getActiveValidators fourStaked)
      (requiredNonLeaderStakeForAttesters (getActiveValidators fourStaked)
        (getActiveValidators fourStaked).keys leaderKey) = .ok () :=
  (leader_header_accepted_iff (toyPrim fourKeys) fourStaked fullHeader fourKeys
    [collecting [1], collecting [1, 2]] (collecting [1, 2]) _ (by decide +kernel) (by decide +kernel)
    (collecting_reachable _) (by decide +kernel) (by decide +kernel)).mpr
    ⟨by decide +kernel, by decide +kernel⟩

/-- **A leader that takes one of three for live** commits on that one attestation, and the others refuse
its header. -/
theorem leader_header_refused :
    ¬ ∀ (prim : Primitives) (st : StakingState) (block : BatchHeader) (live : List Bytes)
      (polls : List Pipeline) (reread : Pipeline) (atts : List Attestation),
      (∀ pk ∈ live, pk ∈ (getActiveValidators st).keys) →
      0 < requiredNonLeaderStakeForAttesters (getActiveValidators st) live block.leaderPubkey →
      Reachable reread →
      waitForQuorum reread (statementOf block)
        (requiredNonLeaderStakeForAttesters (getActiveValidators st) live block.leaderPubkey)
        (getActiveValidators st) block.leaderPubkey (some live) polls = some atts →
      (∀ a ∈ atts, verifyAttestationSignature prim a = true) →
      verifyAttestationSet prim
        (leaderHeader prim block (getActiveValidators st).keys (getActiveValidators st) atts)
        (getActiveValidators st).keys (getActiveValidators st)
        (requiredNonLeaderStakeForAttesters (getActiveValidators st) (getActiveValidators st).keys
          block.leaderPubkey) = .ok () := by
  intro h
  have hok := h (toyPrim fourKeys) fourStaked fullHeader (fourKeys.take 2) [collecting [1]]
    (collecting [1]) [attestationBy 1] (by decide +kernel) (by decide +kernel)
    (collecting_reachable _) (by decide +kernel) (by decide +kernel)
  revert hok
  decide +kernel

end TruthLinked.Consensus.LeaderCertificate
