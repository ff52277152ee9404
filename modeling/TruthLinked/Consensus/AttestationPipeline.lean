import TruthLinked.Consensus.Certificate
import TruthLinked.Lib.Keyed

/-! # Collecting attestations

`AttestationPipeline` of `attestation_pipeline.rs`: the batches under collection, the attestations that
came before their batch, and the leader's wait for a quorum. In every state the operations reach, a
batch holds at most one attestation of each validator, all of them for its own statement
(`Reachable.tidy`). Whether two quorums of one batch height always share a validator depends on how
the stake can be divided (`quorums_meet`). -/

namespace TruthLinked.Consensus.AttestationPipeline

open Core.Types Staking.State Consensus.Types Lib.Weight

variable {atts : List Attestation} {live : Option (List Bytes)}

/-! ## The operations -/

/-- `AttestationKey`: height, round, batch hash and state root. -/
abbrev AttestationKey := ℕ × ℕ × Bytes32 × Bytes32

/-- `key_from_attestation`. -/
def keyFromAttestation (att : Attestation) : AttestationKey :=
  (att.height, att.round, att.batchHash, att.stateRoot)

/-- `PendingBatch`. -/
structure PendingBatch where
  attestations : List Attestation
  startedAt : ℕ
  cancelled : Bool

/-- `AttestationPipeline`. -/
structure Pipeline where
  pending : Map AttestationKey PendingBatch
  early : Map (AttestationKey × Bytes) Attestation

/-- `AttestationPipeline::new`. -/
def Pipeline.new : Pipeline := ⟨∅, ∅⟩

/-- Appends an attestation unless its validator has one. -/
def push (atts : List Attestation) (att : Attestation) : List Attestation :=
  if att.validatorPubkey ∈ atts.map Attestation.validatorPubkey then atts else atts ++ [att]

/-- The batch that was started first. -/
def oldest (pending : Map AttestationKey PendingBatch) : Option AttestationKey :=
  (pending.toList.foldl (fun best e => match best with
    | none => some e
    | some b => if e.2.startedAt < b.2.startedAt then some e else some b) none).map Prod.fst

/-- Makes room for one more batch. -/
def evict (maxPending : ℕ) (pending : Map AttestationKey PendingBatch) :
    Map AttestationKey PendingBatch :=
  if maxPending ≤ pending.size then
    match oldest pending with
    | some k => pending.erase k
    | none => pending
  else pending

/-- `start_collection`. -/
def startCollection (maxPending now : ℕ) (key : AttestationKey) (p : Pipeline) : Pipeline :=
  let waiting := p.early.toList.filter fun e => decide (e.1.1 = key)
  let early := waiting.foldl (fun m e => m.erase e.1) p.early
  let earlyAtts := waiting.map Prod.snd
  match p.pending[key]? with
  | some existing =>
    { pending := p.pending.insert key
        { existing with cancelled := false, attestations := earlyAtts.foldl push existing.attestations }
      early }
  | none => { pending := (evict maxPending p.pending).insert key ⟨earlyAtts, now, false⟩, early }

/-- `add_attestation`. -/
def addAttestation (maxEarly : ℕ) (att : Attestation) (p : Pipeline) : Pipeline :=
  let key := keyFromAttestation att
  match p.pending[key]? with
  | some batch =>
    { p with pending := p.pending.insert key { batch with attestations := push batch.attestations att } }
  | none =>
    let early := p.early.insert (key, att.validatorPubkey) att
    { p with early :=
        if maxEarly < early.size then
          match early.minKey? with
          | some k => early.erase k
          | none => early
        else early }

/-- `cancel_all_except`. -/
def cancelAllExcept (keep : Option Bytes32) (p : Pipeline) : Pipeline :=
  { p with pending := p.pending.map fun k batch =>
      if keep = some k.2.2.1 then batch else { batch with cancelled := true } }

/-- `remove_batch`. -/
def removeBatch (key : AttestationKey) (p : Pipeline) : Pipeline :=
  { p with pending := p.pending.erase key }

/-- `cleanup_stale`. -/
def cleanupStale (now maxAge : ℕ) (p : Pipeline) : Pipeline :=
  { p with pending := p.pending.filter fun _ batch => decide (now - batch.startedAt ≤ maxAge) }

/-- The states of a pipeline. -/
inductive Reachable : Pipeline → Prop where
  | new : Reachable Pipeline.new
  | startCollection {p : Pipeline} (maxPending now : ℕ) (key : AttestationKey) :
      Reachable p → Reachable (startCollection maxPending now key p)
  | addAttestation {p : Pipeline} (maxEarly : ℕ) (att : Attestation) :
      Reachable p → Reachable (addAttestation maxEarly att p)
  | cancelAllExcept {p : Pipeline} (keep : Option Bytes32) :
      Reachable p → Reachable (cancelAllExcept keep p)
  | removeBatch {p : Pipeline} (key : AttestationKey) : Reachable p → Reachable (removeBatch key p)
  | cleanupStale {p : Pipeline} (now maxAge : ℕ) : Reachable p → Reachable (cleanupStale now maxAge p)

/-! ## One attestation of each validator -/

/-- The attestations of one statement, at most one of each validator. -/
structure TidyList (key : AttestationKey) (atts : List Attestation) : Prop where
  nodup : (atts.map Attestation.validatorPubkey).Nodup
  key : ∀ a ∈ atts, keyFromAttestation a = key

/-- The tables of a pipeline file every attestation under its own statement and key. -/
structure Tidy (p : Pipeline) : Prop where
  pending : ∀ k b, p.pending[k]? = some b → TidyList k b.attestations
  early : ∀ (e : AttestationKey × Bytes) a, p.early[e]? = some a →
    keyFromAttestation a = e.1 ∧ a.validatorPubkey = e.2

theorem TidyList.push {key : AttestationKey} {att : Attestation}
    (h : TidyList key atts) (ha : keyFromAttestation att = key) : TidyList key (push atts att) := by
  unfold AttestationPipeline.push
  split_ifs with hmem
  · exact h
  · refine ⟨?_, ?_⟩
    · rw [List.map_append, List.map_cons, List.map_nil]
      exact List.nodup_append.mpr ⟨h.nodup, List.nodup_singleton _, fun a ha b hb hab =>
        hmem (by rwa [← List.mem_singleton.mp hb, ← hab])⟩
    · intro a hmem
      rcases List.mem_append.mp hmem with hmem | hmem
      · exact h.key a hmem
      · rw [List.mem_singleton.mp hmem, ha]

theorem TidyList.foldl_push {key : AttestationKey} {new : List Attestation}
    (hnew : ∀ a ∈ new, keyFromAttestation a = key) (h : TidyList key atts) :
    TidyList key (new.foldl AttestationPipeline.push atts) := by
  induction new generalizing atts with
  | nil => exact h
  | cons a new ih =>
    exact ih (fun b hb => hnew b (List.mem_cons_of_mem _ hb)) (h.push (hnew a List.mem_cons_self))

theorem TidyList.perm {key : AttestationKey} {atts' : List Attestation} (h : TidyList key atts)
    (hp : atts.Perm atts') : TidyList key atts' :=
  ⟨(hp.map _).nodup_iff.mp h.nodup, fun a ha => h.key a (hp.mem_iff.mpr ha)⟩

theorem TidyList.filter {key : AttestationKey} (h : TidyList key atts)
    (p : Attestation → Bool) : TidyList key (atts.filter p) :=
  ⟨h.nodup.sublist (List.Sublist.map _ List.filter_sublist),
    fun a ha => h.key a (List.mem_filter.mp ha).1⟩

theorem Tidy.waiting {p : Pipeline} (h : Tidy p) (key : AttestationKey) :
    TidyList key ((p.early.toList.filter fun e => decide (e.1.1 = key)).map Prod.snd) := by
  have hmem : ∀ e ∈ p.early.toList.filter (fun e => decide (e.1.1 = key)),
      e.1.1 = key ∧ keyFromAttestation e.2 = e.1.1 ∧ e.2.validatorPubkey = e.1.2 := by
    intro e he
    obtain ⟨he, hk⟩ := List.mem_filter.mp he
    have hget : p.early[e.1]? = some e.2 := Std.ExtTreeMap.mem_toList_iff_getElem?_eq_some.mp he
    exact ⟨by simpa using hk, h.early _ _ hget⟩
  refine ⟨?_, ?_⟩
  · -- two entries of one validator would have one key in the table
    have hpair : p.early.toList.Pairwise fun a b => ¬ compare a.1 b.1 = .eq :=
      Std.ExtTreeMap.distinct_keys_toList
    rw [List.map_map, List.Nodup, List.pairwise_map]
    refine (hpair.filter _).imp_of_mem fun {a b} ha hb hab he => hab ?_
    obtain ⟨hka, -, hpa⟩ := hmem a ha
    obtain ⟨hkb, -, hpb⟩ := hmem b hb
    have hkey : a.1 = b.1 := by
      refine Prod.ext (hka.trans hkb.symm) ?_
      rw [← hpa, ← hpb]
      exact he
    rw [hkey]
    exact Std.ReflOrd.compare_self
  · intro a ha
    obtain ⟨e, he, rfl⟩ := List.mem_map.mp ha
    obtain ⟨hk, hkey, -⟩ := hmem e he
    rw [hkey, hk]

/-! Tables that only lose entries stay tidy; so does a table that gets a tidy entry. -/

section Tables
variable {p : Pipeline}

theorem Tidy.of_sub {q : Pipeline} (h : Tidy p)
    (hpending : ∀ (k : AttestationKey) (b : PendingBatch), q.pending[k]? = some b →
      ∃ b' : PendingBatch, p.pending[k]? = some b' ∧ b'.attestations = b.attestations)
    (hearly : ∀ (e : AttestationKey × Bytes) a, q.early[e]? = some a → p.early[e]? = some a) :
    Tidy q := by
  refine ⟨?_, fun e a ha => h.early e a (hearly e a ha)⟩
  intro k b hb
  obtain ⟨b', hb', he⟩ := hpending k b hb
  rw [← he]
  exact h.pending k b' hb'

theorem Tidy.insert (h : Tidy p) {k : AttestationKey} {b : PendingBatch}
    (hb : TidyList k b.attestations) : Tidy { p with pending := p.pending.insert k b } := by
  refine ⟨?_, h.early⟩
  intro k' b' hb'
  rw [Std.ExtTreeMap.getElem?_insert] at hb'
  split_ifs at hb' with hk
  · obtain rfl := Option.some.inj hb'
    obtain rfl := Std.LawfulEqOrd.eq_of_compare hk
    exact hb
  · exact h.pending k' b' hb'

theorem Tidy.insertEarly (h : Tidy p) (att : Attestation) :
    Tidy { p with early := p.early.insert (keyFromAttestation att, att.validatorPubkey) att } := by
  refine ⟨h.pending, ?_⟩
  intro e a ha
  rw [Std.ExtTreeMap.getElem?_insert] at ha
  split_ifs at ha with he
  · obtain rfl := Option.some.inj ha
    obtain rfl := Std.LawfulEqOrd.eq_of_compare he
    exact ⟨rfl, rfl⟩
  · exact h.early e a ha

end Tables

theorem getElem?_of_erase {K V : Type} [Ord K] [Std.TransOrd K] {m : Std.ExtTreeMap K V} {k a : K}
    {x : V} (h : (m.erase k)[a]? = some x) : m[a]? = some x := by
  rw [Std.ExtTreeMap.getElem?_erase] at h
  split_ifs at h
  exact h

theorem getElem?_of_foldl_erase {K V : Type} [Ord K] [Std.TransOrd K] {l : List (K × V)}
    {m : Std.ExtTreeMap K V} {a : K} {x : V}
    (h : (l.foldl (fun m e => m.erase e.1) m)[a]? = some x) : m[a]? = some x := by
  induction l generalizing m with
  | nil => exact h
  | cons e l ih => exact getElem?_of_erase (ih h)

theorem getElem?_of_evict {maxPending : ℕ} {pending : Map AttestationKey PendingBatch}
    {k : AttestationKey} {b : PendingBatch} (h : (evict maxPending pending)[k]? = some b) :
    pending[k]? = some b := by
  unfold evict at h
  split at h
  · split at h
    · exact getElem?_of_erase h
    · exact h
  · exact h

theorem Tidy.startCollection {p : Pipeline} (h : Tidy p) (maxPending now : ℕ) (key : AttestationKey) :
    Tidy (startCollection maxPending now key p) := by
  unfold AttestationPipeline.startCollection
  dsimp only
  split
  · rename_i existing hex
    refine (Tidy.insert h (b := { existing with cancelled := false, attestations := _ })
      (TidyList.foldl_push (h.waiting key).key (h.pending _ _ hex))).of_sub ?_ ?_
    · exact fun k b hb => ⟨b, hb, rfl⟩
    · exact fun e a ha => getElem?_of_foldl_erase ha
  · have hev : Tidy { p with pending := evict maxPending p.pending } :=
      h.of_sub (fun k b hb => ⟨b, getElem?_of_evict hb, rfl⟩) fun e a ha => ha
    refine (hev.insert (b := ⟨_, now, false⟩) (h.waiting key)).of_sub ?_ ?_
    · exact fun k b hb => ⟨b, hb, rfl⟩
    · exact fun e a ha => getElem?_of_foldl_erase ha

theorem Tidy.addAttestation {p : Pipeline} (h : Tidy p) (maxEarly : ℕ) (att : Attestation) :
    Tidy (addAttestation maxEarly att p) := by
  unfold AttestationPipeline.addAttestation
  dsimp only
  split
  · rename_i batch hb
    exact h.insert (b := { batch with attestations := _ }) ((h.pending _ _ hb).push rfl)
  · refine (h.insertEarly att).of_sub (fun k b hb => ⟨b, hb, rfl⟩) ?_
    intro e a ha
    dsimp only at ha
    split at ha
    · split at ha
      · exact getElem?_of_erase ha
      · exact ha
    · exact ha

/-- **In every state of a pipeline** a batch holds at most one attestation of each validator, all of
them for its statement. -/
theorem Reachable.tidy {p : Pipeline} (h : Reachable p) : Tidy p := by
  induction h with
  | new =>
    refine ⟨?_, ?_⟩
    · intro k b hb
      simp [Pipeline.new] at hb
    · intro e a ha
      simp [Pipeline.new] at ha
  | startCollection maxPending now key _ ih => exact ih.startCollection maxPending now key
  | addAttestation maxEarly att _ ih => exact ih.addAttestation maxEarly att
  | cancelAllExcept keep _ ih =>
    refine ih.of_sub ?_ fun e a ha => ha
    intro k b hb
    unfold AttestationPipeline.cancelAllExcept at hb
    rw [Std.ExtTreeMap.getElem?_map, Option.map_eq_some_iff] at hb
    obtain ⟨b', hb', rfl⟩ := hb
    refine ⟨b', hb', ?_⟩
    split_ifs <;> rfl
  | removeBatch key _ ih =>
    exact ih.of_sub (fun k b hb => ⟨b, getElem?_of_erase hb, rfl⟩) fun e a ha => ha
  | cleanupStale now maxAge _ ih =>
    refine ih.of_sub ?_ fun e a ha => ha
    intro k b hb
    unfold AttestationPipeline.cleanupStale at hb
    rw [Std.ExtTreeMap.getElem?_filter'] at hb
    exact ⟨b, (Option.filter_eq_some_iff.mp hb).1, rfl⟩

/-! ## Waiting for a quorum -/

/-- The attestations collected for a statement. -/
def collected (p : Pipeline) (key : AttestationKey) : List Attestation :=
  (p.pending[key]?.map PendingBatch.attestations).getD []

theorem collected_tidy {p : Pipeline} (h : Reachable p) (key : AttestationKey) :
    TidyList key (collected p key) := by
  unfold collected
  cases hb : p.pending[key]? with
  | none => exact ⟨List.nodup_nil, fun a ha => absurd ha (List.not_mem_nil)⟩
  | some b => exact h.tidy.pending key b hb

/-- `live_validators.map_or(true, |live| live.contains(pk))`. -/
def isLive (live : Option (List Bytes)) (pk : Bytes) : Bool :=
  match live with
  | none => true
  | some pks => decide (pk ∈ pks)

/-- The stake that counts towards the quorum of a batch. -/
def attestedStake (stakeMap : StakeMap) (leader : Bytes) (live : Option (List Bytes))
    (stateRoot : Bytes32) (atts : List Attestation) : ℕ :=
  atts.foldl (fun total att =>
    if att.stateRoot ≠ stateRoot then total
    else if att.validatorPubkey = leader then total
    else if isLive live att.validatorPubkey = false then total
    else match stakeMap[att.validatorPubkey]? with
      | some stake => satAdd64 total stake
      | none => total) 0

/-- The validators other than the leader that are live, with their stakes. -/
def liveNonLeaders (stakeMap : StakeMap) (leader : Bytes) (live : Option (List Bytes)) :
    List (Bytes × ℕ) :=
  (stakeMap.toList.filter fun e => e.1 ≠ leader).filter fun e => isLive live e.1

/-- The threshold of `wait_for_quorum`. -/
def effectiveRequired (stakeMap : StakeMap) (leader : Bytes) (live : Option (List Bytes))
    (requiredStake : ℕ) : ℕ :=
  let others := liveNonLeaders stakeMap leader live
  let total := (others.map Prod.snd).foldl satAdd64 0
  if 0 < total then effectiveNonLeaderQuorumRequired total others.length else requiredStake

/-- `wait_for_quorum`: `polls` are the tables that the turns of the loop see until the time is over,
`reread` is the table when it is read again after the quorum was seen. -/
def waitForQuorum (reread : Pipeline) (key : AttestationKey) (requiredStake : ℕ) (stakeMap : StakeMap)
    (leader : Bytes) (live : Option (List Bytes)) : List Pipeline → Option (List Attestation)
  | [] => none
  | p :: polls =>
    match p.pending[key]? with
    | none => none
    | some batch =>
      if batch.cancelled then none
      else if effectiveRequired stakeMap leader live requiredStake ≤
          attestedStake stakeMap leader live key.2.2.2 batch.attestations then
        (reread.pending[key]?).map fun batch =>
          batch.attestations.filter fun a => a.validatorPubkey ≠ leader
      else waitForQuorum reread key requiredStake stakeMap leader live polls

theorem waitForQuorum_eq_some {reread : Pipeline} {key : AttestationKey} {requiredStake : ℕ}
    {stakeMap : StakeMap} {leader : Bytes} {polls : List Pipeline}
    (h : waitForQuorum reread key requiredStake stakeMap leader live polls = some atts) :
    atts = (collected reread key).filter fun a => a.validatorPubkey ≠ leader := by
  induction polls with
  | nil => cases h
  | cons p polls ih =>
    rw [waitForQuorum] at h
    split at h
    · cases h
    · split_ifs at h with hc hq
      · obtain ⟨b, hb, rfl⟩ := Option.map_eq_some_iff.mp h
        rw [collected, hb]
        rfl
      · exact ih h

/-! ## Thresholds as weights -/

section Thresholds
variable (stakeMap : StakeMap) (attesters : List Bytes) (leader : Bytes)

/-- The attesters other than the leader. -/
def others : Finset Bytes := (attesters.filter fun pk => pk ≠ leader).toFinset

/-- How many of them the stake table lists. -/
def nonLeaderCount : ℕ :=
  ((attesters.filter fun pk => pk ≠ leader).filter fun pk => stakeMap.contains pk).length

theorem nonLeaderStake_eq : nonLeaderStake stakeMap attesters leader =
    min ((attesters.filter fun pk => pk ≠ leader).map (stakeAt stakeMap)).sum (u64 - 1) := by
  have hskip := sum_map_skip (fun pk => decide (pk = leader)) (stakeAt stakeMap) attesters
  simp only [decide_eq_true_eq, ← decide_not] at hskip
  rw [nonLeaderStake, ← hskip, ← Nat.zero_add (List.sum _)]
  refine foldl_capped ?_ (Nat.zero_le _)
  intro t ht pk _
  by_cases hpk : pk = leader
  · rw [if_pos hpk, if_pos hpk]
    omega
  · rw [if_neg hpk, if_neg hpk, stakeAt]
    cases stakeMap[pk]? with
    | some stake => rfl
    | none => exact (min_eq_left ht).symm

theorem nonLeaderStake_eq_weight {attesters : List Bytes} (h : attesters.Nodup) :
    nonLeaderStake stakeMap attesters leader =
      min (weight (stakeAt stakeMap) (others attesters leader)) (u64 - 1) := by
  rw [nonLeaderStake_eq, sum_map_eq_weight _ (h.filter _), others]

theorem effective_le {total n : ℕ} (h : total ≤ u64 - 1) :
    effectiveNonLeaderQuorumRequired total n ≤ u64 - 1 := by
  unfold effectiveNonLeaderQuorumRequired satMul64
  split_ifs <;> omega

theorem required_eq : requiredNonLeaderStakeForAttesters stakeMap attesters leader =
    effectiveNonLeaderQuorumRequired (nonLeaderStake stakeMap attesters leader)
      (nonLeaderCount stakeMap attesters leader) := by
  unfold requiredNonLeaderStakeForAttesters
  by_cases h : nonLeaderStake stakeMap attesters leader = 0
  · simp [h, effectiveNonLeaderQuorumRequired]
  · simp only [if_neg h, nonLeaderCount]

theorem required_le : requiredNonLeaderStakeForAttesters stakeMap attesters leader ≤ u64 - 1 := by
  rw [required_eq]
  refine effective_le ?_
  rw [nonLeaderStake_eq]
  exact min_le_right _ _

/-- The validators other than the leader among the attestations. -/
def signersOf (live : Option (List Bytes)) (atts : List Attestation) : List Bytes :=
  (atts.map Attestation.validatorPubkey).filter fun pk => pk ≠ leader ∧ isLive live pk = true

theorem attestedStake_eq {key : AttestationKey} (h : TidyList key atts) :
    attestedStake stakeMap leader live key.2.2.2 atts =
      min (weight (stakeAt stakeMap) (signersOf leader live atts).toFinset) (u64 - 1) := by
  have hskip := sum_map_skip (fun pk => decide (pk = leader ∨ isLive live pk = false))
    (stakeAt stakeMap) (atts.map Attestation.validatorPubkey)
  have hsigners : ((atts.map Attestation.validatorPubkey).filter fun pk =>
      !decide (pk = leader ∨ isLive live pk = false)) = signersOf leader live atts := by
    refine List.filter_congr fun pk _ => ?_
    by_cases hpk : pk = leader <;> cases hl : isLive live pk <;> simp [hpk]
  have hnd : (signersOf leader live atts).Nodup := h.nodup.filter _
  rw [hsigners, sum_map_eq_weight _ hnd, List.map_map] at hskip
  rw [attestedStake, ← hskip, ← Nat.zero_add (List.sum _)]
  have hroot : ∀ a ∈ atts, a.stateRoot = key.2.2.2 := by
    intro a ha
    rw [← h.key a ha, keyFromAttestation]
  refine foldl_capped ?_ (Nat.zero_le _)
  intro t ht a ha
  -- all the attestations carry the state root, so the first test never skips one
  rw [if_neg (not_not.mpr (hroot a ha))]
  simp only [Function.comp_apply, decide_eq_true_eq]
  by_cases h1 : a.validatorPubkey = leader
  · rw [if_pos h1, if_pos (Or.inl h1)]
    omega
  · by_cases h2 : isLive live a.validatorPubkey = false
    · rw [if_neg h1, if_pos h2, if_pos (Or.inr h2)]
      omega
    · rw [if_neg h1, if_neg h2, if_neg (by tauto), stakeAt]
      cases stakeMap[a.validatorPubkey]? with
      | some stake => rfl
      | none => exact (min_eq_left ht).symm

end Thresholds

/-! ## Quorum intersection -/

section Intersection
variable (stakeMap : StakeMap) {attesters : List Bytes} (leader : Bytes)

theorem meets_of_many (h : attesters.Nodup) (hn : 4 < nonLeaderCount stakeMap attesters leader)
    (hlow : 5 ≤ weight (stakeAt stakeMap) (others attesters leader))
    (hhigh : weight (stakeAt stakeMap) (others attesters leader) < 2 * ((u64 - 1) / 3)) :
    Meets (stakeAt stakeMap) (others attesters leader)
      (requiredNonLeaderStakeForAttesters stakeMap attesters leader) := by
  refine meets_of_lt _ ?_
  rw [required_eq, nonLeaderStake_eq_weight _ _ h]
  generalize weight (stakeAt stakeMap) (others attesters leader) = W at *
  unfold effectiveNonLeaderQuorumRequired satMul64
  rw [if_neg (by omega), if_neg (by omega)]
  omega

theorem required_few (h : attesters.Nodup) (hn : nonLeaderCount stakeMap attesters leader ≤ 4)
    (hlow : 2 ≤ weight (stakeAt stakeMap) (others attesters leader))
    (hhigh : weight (stakeAt stakeMap) (others attesters leader) < u64) :
    requiredNonLeaderStakeForAttesters stakeMap attesters leader =
      weight (stakeAt stakeMap) (others attesters leader) / 2 := by
  rw [required_eq, nonLeaderStake_eq_weight _ _ h]
  unfold effectiveNonLeaderQuorumRequired
  rw [if_neg (by omega), if_pos hn]
  omega

theorem signersOf_subset (atts : List Attestation) :
    (signersOf leader (some attesters) atts).toFinset ⊆ others attesters leader := by
  intro pk hpk
  simp only [signersOf, isLive, List.mem_toFinset, List.mem_filter, decide_eq_true_eq] at hpk
  simp only [others, List.mem_toFinset, List.mem_filter, decide_eq_true_eq]
  exact ⟨hpk.2.2, hpk.2.1⟩

theorem exists_of_mem_signersOf {pk : Bytes} (h : pk ∈ (signersOf leader live atts).toFinset) :
    pk ≠ leader ∧ ∃ a ∈ atts, a.validatorPubkey = pk := by
  simp only [signersOf, List.mem_toFinset, List.mem_filter, decide_eq_true_eq] at h
  exact ⟨h.2.1, List.mem_map.mp h.1⟩

/-- **Quorum intersection.** With more than four other attesters and a stake in range, any two sets that
reach the threshold share a validator with stake; with at most four they do iff no set has exactly half
of the stake, rounded down; in general iff no set reaches the threshold together with its complement.
Where they do, two statements that both reached it have an attester in common. -/
theorem quorums_meet (stakeMap : StakeMap) (leader : Bytes) {attesters : List Bytes} (h : attesters.Nodup) :
    let w := stakeAt stakeMap
    let U := others attesters leader
    let q := requiredNonLeaderStakeForAttesters stakeMap attesters leader
    (4 < nonLeaderCount stakeMap attesters leader → 5 ≤ weight w U → weight w U < 2 * ((u64 - 1) / 3) →
      Meets w U q) ∧
    (nonLeaderCount stakeMap attesters leader ≤ 4 → 2 ≤ weight w U → weight w U < u64 →
      (Meets w U q ↔ ∀ S ⊆ U, weight w S ≠ weight w U / 2)) ∧
    (Meets w U q ↔ ¬ ∃ S ⊆ U, q ≤ weight w S ∧ q ≤ weight w (U \ S)) ∧
    (Meets w U q → ∀ (p p' : Pipeline) (key key' : AttestationKey), Reachable p → Reachable p' →
      q ≤ attestedStake stakeMap leader (some attesters) key.2.2.2 (collected p key) →
      q ≤ attestedStake stakeMap leader (some attesters) key'.2.2.2 (collected p' key') →
      ∃ a ∈ collected p key, ∃ a' ∈ collected p' key', a.validatorPubkey = a'.validatorPubkey ∧
        a.validatorPubkey ≠ leader ∧ 0 < w a.validatorPubkey) := by
  intro w U q
  refine ⟨meets_of_many stakeMap leader h, ?_, meets_iff_no_split w, ?_⟩
  · intro hn hlow hhigh
    have hq : q = weight w U / 2 := required_few stakeMap leader h hn hlow hhigh
    rw [hq]
    exact meets_half_iff w
  · intro hmeets p p' key key' hp hp' hquorum hquorum'
    rw [attestedStake_eq _ _ (collected_tidy hp key)] at hquorum
    rw [attestedStake_eq _ _ (collected_tidy hp' key')] at hquorum'
    obtain ⟨pk, hpk, hpk', hpos⟩ := hmeets _ (signersOf_subset leader _) _ (signersOf_subset leader _)
      (hquorum.trans (min_le_left _ _)) (hquorum'.trans (min_le_left _ _))
    obtain ⟨hne, a, ha, rfl⟩ := exists_of_mem_signersOf leader hpk
    obtain ⟨-, a', ha', he⟩ := exists_of_mem_signersOf leader hpk'
    exact ⟨a, ha, a', ha', he.symm, hne, hpos⟩

/-- Six validators of the least stake, the first of them the leader. -/
def sixKeys : List Bytes := [[1], [2], [3], [4], [5], [6]]

def equalStakes (keys : List Bytes) : StakeMap :=
  keys.foldl (fun m pk => m.insert pk 10000000000) ∅

theorem sixKeys_quorums_meet :
    Meets (stakeAt (equalStakes sixKeys)) (others sixKeys [1])
      (requiredNonLeaderStakeForAttesters (equalStakes sixKeys) sixKeys [1]) :=
  (quorums_meet (equalStakes sixKeys) [1] (by decide)).1 (by decide +kernel) (by decide +kernel)
    (by decide +kernel)

/-- **Half of the stake is a quorum** where at most four validators attest beside the leader: of two
such validators, each is one. -/
theorem two_disjoint_quorums :
    ¬ ∀ (stakeMap : StakeMap) (attesters : List Bytes) (leader : Bytes), attesters.Nodup →
      Meets (stakeAt stakeMap) (others attesters leader)
        (requiredNonLeaderStakeForAttesters stakeMap attesters leader) := by
  intro h
  have hfew := h (equalStakes [[1], [2], [3]]) [[1], [2], [3]] [1] (by decide)
  obtain ⟨pk, h2, h3, -⟩ := hfew {[2]} (by decide +kernel) {[3]} (by decide +kernel)
    (by decide +kernel) (by decide +kernel)
  rw [Finset.mem_singleton] at h2 h3
  rw [h2] at h3
  exact absurd h3 (by decide)

end Intersection

end TruthLinked.Consensus.AttestationPipeline
