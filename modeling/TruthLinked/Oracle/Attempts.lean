import TruthLinked.Lib.MapSum
import TruthLinked.Oracle.Tally
import TruthLinked.Staking.Specs

/-! # Attempts to finalize a tally

`try_finalize_with_format` walks two hash maps, the reveals and the stake behind each body, and a hash map may
be walked in any order. `Attempt` collects what it may return. For the formats other than prices this is read
off the matching reveals and the groups of equal body hash (`attempt_some`, `attempt_of_reveal`,
`attempt_none`).

The status returned is that of the reveal walked first, and stake is counted for a body hash, of validators
that are active or not. So an answer is backed by a quorum of the active stake iff every reveal of a group
that reaches the quorum is so backed by itself (`answers_backed_iff`). -/

namespace TruthLinked.Oracle.Attempts

open Core.Types Governance.Types Staking.State Oracle.Tally Lib.MapSum

/-! ### Walks in any order -/

/-- The reveal has a commit and matches it. -/
def Matches (env : TallyEnv) (t : OracleTally) (r : Bytes × Bytes × ℕ) : Prop :=
  t.commits[r.1]? = some (computeCommitHash env r.1 t.requestId r.2.1 r.2.2)

instance (env : TallyEnv) (t : OracleTally) (r : Bytes × Bytes × ℕ) : Decidable (Matches env t r) := by
  unfold Matches; infer_instance

/-- `OracleTally.matching` along a walk of the reveals. -/
def matchingIn (env : TallyEnv) (t : OracleTally) (staking : StakingState) (reveals : List (Bytes × Bytes × ℕ)) :
    List (Bytes × ℕ × ℕ) :=
  (reveals.filter fun r => decide (Matches env t r)).map fun r => (r.2.1, r.2.2, staking.stakeAt r.1)

/-- The second loop of `try_finalize_with_format`, along a walk of the tally. -/
def bodyIn (staking : StakingState) (quorumPercent : ℕ) (groups : List (Bytes32 × Bytes × ℕ × ℕ)) :
    Option (Bytes × ℕ × ℕ × ℕ) :=
  let totalStake := staking.activeTotal
  if totalStake = 0 then none
  else
    (groups.find? fun g => decide (quorumPercent ≤ g.2.2.2 * 100 % u64 / totalStake)).map
      fun g => (g.2.1, g.2.2.1, g.2.2.2, totalStake)

/-- What an attempt may return. -/
inductive Attempt (env : TallyEnv) (t : OracleTally) (staking : StakingState) (format : UrlResponseFormat)
    (quorumPercent : ℕ) : Option (Bytes × ℕ × ℕ × ℕ) → Prop
  | price {reveals : List (Bytes × Bytes × ℕ)} (hf : format = .priceUsd) (hr : reveals.Perm t.reveals.toList) :
    Attempt env t staking format quorumPercent (priceIn env t staking quorumPercent reveals)
  | body {reveals : List (Bytes × Bytes × ℕ)} {groups : List (Bytes32 × Bytes × ℕ × ℕ)}
    (hf : format ≠ .priceUsd) (hr : reveals.Perm t.reveals.toList)
    (hg : groups.Perm (tallyBodies env (matchingIn env t staking reveals)).toList) :
    Attempt env t staking format quorumPercent (bodyIn staking quorumPercent groups)

theorem attempt_tryFinalizeWithFormat (env : TallyEnv) (t : OracleTally) (staking : StakingState)
    (format : UrlResponseFormat) (quorumPercent : ℕ) :
    Attempt env t staking format quorumPercent (t.tryFinalizeWithFormat env staking format quorumPercent) := by
  unfold OracleTally.tryFinalizeWithFormat
  by_cases hf : format = .priceUsd
  · rw [if_pos hf]
    exact .price hf (List.Perm.refl _)
  · rw [if_neg hf]
    exact .body hf (List.Perm.refl _) (List.Perm.refl _)

/-! ### The groups -/

/-- Stakes added up by the first loop: the first as it is, every further one modulo `u64`. -/
def added : List ℕ → ℕ
  | [] => 0
  | n :: rest => rest.foldl (fun a b => (a + b) % u64) n

theorem added_concat {ns : List ℕ} (h : ns ≠ []) (n : ℕ) : added (ns ++ [n]) = (added ns + n) % u64 := by
  cases ns with
  | nil => exact absurd rfl h
  | cons a ns =>
    show (ns ++ [n]).foldl (fun a b => (a + b) % u64) a = _
    rw [List.foldl_append]
    rfl

theorem added_eq (ns : List ℕ) : added ns = if ns.length ≤ 1 then ns.sum else ns.sum % u64 := by
  induction ns using List.reverseRecOn with
  | nil => rfl
  | append_singleton ns n ih =>
    by_cases hns : ns = []
    · subst hns
      simp [added]
    · have hlen : 0 < ns.length := List.length_pos_iff.mpr hns
      have hlong : ¬ (ns ++ [n]).length ≤ 1 := by
        rw [List.length_append, List.length_singleton]
        omega
      rw [added_concat hns, ih, if_neg hlong, List.sum_append, List.sum_singleton]
      split_ifs
      · rfl
      · rw [Nat.mod_add_mod]

theorem added_perm {ns ns' : List ℕ} (h : ns.Perm ns') : added ns = added ns' := by
  rw [added_eq, added_eq, h.length_eq, h.sum_eq]

/-- The entry of a body hash: body and status of its first reveal, and the stakes added up. -/
theorem tallyBodies_concat (env : TallyEnv) (l : List (Bytes × ℕ × ℕ)) (body : Bytes) (status stake : ℕ) :
    tallyBodies env (l ++ [(body, status, stake)]) =
      (tallyBodies env l).alter (env.blake3 body) fun
        | some (b, s, n) => some (b, s, (n + stake) % u64)
        | none => some (body, status, stake) := by
  unfold tallyBodies
  rw [List.foldl_append]
  rfl

theorem getElem?_tallyBodies (env : TallyEnv) (l : List (Bytes × ℕ × ℕ)) (h : Bytes32) :
    (tallyBodies env l)[h]? = (l.filter fun x => decide (env.blake3 x.1 = h)).head?.map fun x =>
      (x.1, x.2.1, added ((l.filter fun x => decide (env.blake3 x.1 = h)).map fun x => x.2.2)) := by
  induction l using List.reverseRecOn with
  | nil =>
    unfold tallyBodies
    rw [List.foldl_nil, Std.ExtTreeMap.getElem?_empty]
    rfl
  | append_singleton l x ih =>
    obtain ⟨body, status, stake⟩ := x
    rw [tallyBodies_concat, Std.ExtTreeMap.getElem?_alter, List.filter_append]
    by_cases hh : env.blake3 body = h
    · subst hh
      rw [if_pos Std.ReflCmp.compare_self, ih]
      have hone : [(body, status, stake)].filter (fun x => decide (env.blake3 x.1 = env.blake3 body)) =
          [(body, status, stake)] := by simp
      rw [hone]
      cases hl : l.filter fun x => decide (env.blake3 x.1 = env.blake3 body) with
      | nil => rfl
      | cons y rest =>
        have hne : ((y :: rest).map fun x => x.2.2) ≠ [] := by simp
        rw [List.map_append, List.map_singleton, added_concat hne]
        rfl
    · have hnone : [(body, status, stake)].filter (fun x => decide (env.blake3 x.1 = h)) = [] := by simp [hh]
      rw [if_neg (fun hc => hh (Std.LawfulEqOrd.eq_of_compare hc)), ih, hnone, List.append_nil]

/-- The stake that the matching reveals of a body hash are counted for. -/
def groupStake (env : TallyEnv) (t : OracleTally) (staking : StakingState) (h : Bytes32) : ℕ :=
  added (((t.matching env staking).filter fun x => decide (env.blake3 x.1 = h)).map fun x => x.2.2)

/-- The group of a body hash reaches the quorum, in the arithmetic of the code. -/
def Reaches (env : TallyEnv) (t : OracleTally) (staking : StakingState) (quorumPercent : ℕ)
    (h : Bytes32) : Prop :=
  quorumPercent ≤ groupStake env t staking h * 100 % u64 / staking.activeTotal

section Groups
variable {env : TallyEnv} {t : OracleTally} {staking : StakingState} {format : UrlResponseFormat} {q : ℕ}
  {reveals : List (Bytes × Bytes × ℕ)}

theorem matchingIn_perm (hr : reveals.Perm t.reveals.toList) :
    (matchingIn env t staking reveals).Perm (t.matching env staking) :=
  (hr.filter _).map _

theorem getElem?_groups (hr : reveals.Perm t.reveals.toList) {h : Bytes32} {g : Bytes × ℕ × ℕ}
    (hg : (tallyBodies env (matchingIn env t staking reveals))[h]? = some g) :
    ∃ pk, t.reveals[pk]? = some (g.1, g.2.1) ∧ Matches env t (pk, g.1, g.2.1) ∧ env.blake3 g.1 = h ∧
      g.2.2 = groupStake env t staking h := by
  rw [getElem?_tallyBodies] at hg
  obtain ⟨x, hx, rfl⟩ := Option.map_eq_some_iff.mp hg
  obtain ⟨hmem, hhash⟩ := List.mem_filter.mp (List.mem_of_head? hx)
  obtain ⟨⟨pk, body, status⟩, hrev, rfl⟩ := List.mem_map.mp hmem
  obtain ⟨hin, hmatch⟩ := List.mem_filter.mp hrev
  refine ⟨pk, Std.ExtTreeMap.mem_toList_iff_getElem?_eq_some.mp (hr.mem_iff.mp hin), of_decide_eq_true hmatch,
    of_decide_eq_true hhash, ?_⟩
  exact added_perm (((matchingIn_perm hr).filter _).map _)

theorem exists_group (staking : StakingState) (hr : reveals.Perm t.reveals.toList) {pk body : Bytes} {status : ℕ}
    (hrev : t.reveals[pk]? = some (body, status)) (hmatch : Matches env t (pk, body, status)) :
    ∃ g : Bytes × ℕ × ℕ, (tallyBodies env (matchingIn env t staking reveals))[env.blake3 body]? = some g := by
  rw [getElem?_tallyBodies]
  have hin : (pk, body, status) ∈ reveals :=
    hr.mem_iff.mpr (Std.ExtTreeMap.mem_toList_iff_getElem?_eq_some.mpr hrev)
  have hmem : (body, status, staking.stakeAt pk) ∈ (matchingIn env t staking reveals).filter
      fun x => decide (env.blake3 x.1 = env.blake3 body) := by
    refine List.mem_filter.mpr ⟨List.mem_map.mpr ⟨_, List.mem_filter.mpr ⟨hin, decide_eq_true hmatch⟩, rfl⟩, ?_⟩
    exact decide_eq_true rfl
  obtain ⟨x, hx⟩ := Option.isSome_iff_exists.mp (List.isSome_head?.mpr (List.ne_nil_of_mem hmem))
  exact ⟨_, by rw [hx]; rfl⟩

/-- **What is returned** is the body and the status of a matching reveal whose group reaches the quorum. -/
theorem attempt_some (hf : format ≠ .priceUsd) {body : Bytes} {status n d : ℕ}
    (h : Attempt env t staking format q (some (body, status, n, d))) :
    staking.activeTotal ≠ 0 ∧ d = staking.activeTotal ∧ n = groupStake env t staking (env.blake3 body) ∧
      Reaches env t staking q (env.blake3 body) ∧
      ∃ pk, t.reveals[pk]? = some (body, status) ∧ Matches env t (pk, body, status) := by
  generalize hres : some (body, status, n, d) = res at h
  cases h with
  | price hf' _ => exact absurd hf' hf
  | @body reveals groups _ hr hg =>
    unfold bodyIn at hres
    dsimp only at hres
    split_ifs at hres with hzero
    obtain ⟨⟨k, g⟩, hfind, heq⟩ := Option.map_eq_some_iff.mp hres.symm
    have hmem := hg.mem_iff.mp (List.mem_of_find?_eq_some hfind)
    rw [Std.ExtTreeMap.mem_toList_iff_getElem?_eq_some] at hmem
    have hreach : q ≤ g.2.2 * 100 % u64 / staking.activeTotal := by
      have := List.find?_some hfind
      exact of_decide_eq_true this
    obtain ⟨pk, hrev, hmatch, hhash, hstake⟩ := getElem?_groups hr hmem
    simp only [Prod.mk.injEq] at heq
    obtain ⟨rfl, rfl, rfl, rfl⟩ := heq
    subst hhash
    refine ⟨hzero, rfl, hstake, ?_, pk, hrev, hmatch⟩
    unfold Reaches
    rw [← hstake]
    exact hreach

/-- **Nothing is returned** only if no group reaches the quorum. -/
theorem attempt_none (hf : format ≠ .priceUsd) (hzero : staking.activeTotal ≠ 0)
    (h : Attempt env t staking format q none) {pk body : Bytes} {status : ℕ}
    (hrev : t.reveals[pk]? = some (body, status)) (hmatch : Matches env t (pk, body, status)) :
    ¬ Reaches env t staking q (env.blake3 body) := by
  intro hreach
  generalize hres : none = res at h
  cases h with
  | price hf' _ => exact absurd hf' hf
  | @body reveals groups _ hr hg =>
    unfold bodyIn at hres
    dsimp only at hres
    rw [if_neg hzero] at hres
    obtain ⟨g, hgroup⟩ := exists_group staking hr hrev hmatch
    obtain ⟨-, -, -, -, hstake⟩ := getElem?_groups hr hgroup
    have hmem : (env.blake3 body, g) ∈ groups :=
      hg.mem_iff.mpr (Std.ExtTreeMap.mem_toList_iff_getElem?_eq_some.mpr hgroup)
    have hno := List.find?_eq_none.mp (Option.map_eq_none_iff.mp hres.symm) _ hmem
    unfold Reaches at hreach
    rw [← hstake] at hreach
    exact hno (decide_eq_true hreach)

/-- **Every matching reveal whose group reaches the quorum may be returned**: if it is walked first, and its
group is. -/
theorem attempt_of_reveal (hf : format ≠ .priceUsd) (hzero : staking.activeTotal ≠ 0)
    {pk body : Bytes} {status : ℕ}
    (hrev : t.reveals[pk]? = some (body, status)) (hmatch : Matches env t (pk, body, status))
    (hreach : Reaches env t staking q (env.blake3 body)) :
    Attempt env t staking format q
      (some (body, status, groupStake env t staking (env.blake3 body), staking.activeTotal)) := by
  set first : Bytes × Bytes × ℕ := (pk, body, status) with hfirst
  have hin : first ∈ t.reveals.toList := Std.ExtTreeMap.mem_toList_iff_getElem?_eq_some.mpr hrev
  have hr : (first :: t.reveals.toList.erase first).Perm t.reveals.toList := (List.perm_cons_erase hin).symm
  set m := tallyBodies env (matchingIn env t staking (first :: t.reveals.toList.erase first)) with hm
  have hentry : m[env.blake3 body]? = some (body, status, groupStake env t staking (env.blake3 body)) := by
    obtain ⟨g, hg⟩ := exists_group staking hr hrev hmatch
    have hstake := (getElem?_groups hr hg).choose_spec.2.2.2
    rw [hm, hg]
    rw [getElem?_tallyBodies] at hg
    have hhead : ((matchingIn env t staking (first :: t.reveals.toList.erase first)).filter
        fun x => decide (env.blake3 x.1 = env.blake3 body)).head? = some (body, status, staking.stakeAt pk) := by
      have hcount : (first :: t.reveals.toList.erase first).filter (fun r => decide (Matches env t r)) =
          first :: (t.reveals.toList.erase first).filter fun r => decide (Matches env t r) :=
        List.filter_cons_of_pos (decide_eq_true hmatch)
      unfold matchingIn
      rw [hcount, List.map_cons, List.filter_cons, if_pos (decide_eq_true rfl)]
      rfl
    rw [hhead, Option.map_some, Option.some.injEq] at hg
    subst hg
    rw [← hstake]
  set group : Bytes32 × Bytes × ℕ × ℕ :=
    (env.blake3 body, body, status, groupStake env t staking (env.blake3 body)) with hgroup
  have hgin : group ∈ m.toList := Std.ExtTreeMap.mem_toList_iff_getElem?_eq_some.mpr hentry
  have hres : bodyIn staking q (group :: m.toList.erase group) =
      some (body, status, groupStake env t staking (env.blake3 body), staking.activeTotal) := by
    have hfind : (group :: m.toList.erase group).find? (fun g =>
        decide (q ≤ g.2.2.2 * 100 % u64 / staking.activeTotal)) = some group := by
      rw [List.find?_cons, show decide (q ≤ group.2.2.2 * 100 % u64 / staking.activeTotal) = true from
        decide_eq_true hreach]
    unfold bodyIn
    dsimp only
    rw [if_neg hzero, hfind]
    rfl
  rw [← hres]
  exact .body hf hr (List.perm_cons_erase hgin).symm

end Groups

/-! ### What stands behind an answer -/

/-- The stake of a validator that is active. -/
def activeAt (staking : StakingState) (_pk : Bytes) (v : ValidatorStake) : ℕ :=
  if v.isActive staking.currentHeight then v.activeStake else 0

/-- The stake of the active validators. -/
def activeStake (staking : StakingState) : ℕ := mapSum (activeAt staking) staking.validators

/-- The stake of the active validators that revealed exactly this body and this status, and match their
commits. -/
def backing (env : TallyEnv) (t : OracleTally) (staking : StakingState) (body : Bytes) (status : ℕ) : ℕ :=
  mapSum (fun pk r => if r = (body, status) ∧ Matches env t (pk, body, status)
    then valueAt (activeAt staking) staking.validators pk else 0) t.reveals

/-- These make up the quorum of the active stake. -/
def Backed (env : TallyEnv) (t : OracleTally) (staking : StakingState) (quorumPercent : ℕ) (body : Bytes)
    (status : ℕ) : Prop :=
  quorumPercent * activeStake staking ≤ backing env t staking body status * 100

instance (env : TallyEnv) (t : OracleTally) (staking : StakingState) (q : ℕ) (body : Bytes) (status : ℕ) :
    Decidable (Backed env t staking q body status) := by
  unfold Backed; infer_instance

section Backing
variable {env : TallyEnv} {t : OracleTally} {staking : StakingState} {q : ℕ} {body body' : Bytes} {status status' : ℕ}

theorem backing_add_le (env : TallyEnv) (t : OracleTally) (staking : StakingState)
    (h : (body, status) ≠ (body', status')) :
    backing env t staking body status + backing env t staking body' status' ≤ activeStake staking := by
  set S : Finset Bytes := t.reveals.keys.toFinset ∪ staking.validators.keys.toFinset with hS
  have hr : ∀ k, k ∈ t.reveals → k ∈ S := fun k hk => by simp [hS, hk]
  have hv : ∀ k, k ∈ staking.validators → k ∈ S := fun k hk => by simp [hS, hk]
  unfold backing activeStake
  rw [mapSum_eq_sum hr, mapSum_eq_sum hr, mapSum_eq_sum hv, ← Finset.sum_add_distrib]
  refine Finset.sum_le_sum fun pk _ => ?_
  cases hrev : t.reveals[pk]? with
  | none =>
    rw [valueAt_of_none hrev, valueAt_of_none hrev]
    exact Nat.zero_le _
  | some r =>
    rw [valueAt_of_some hrev, valueAt_of_some hrev]
    by_cases hone : r = (body, status)
    · have hother : ¬ (r = (body', status') ∧ Matches env t (pk, body', status')) :=
        fun hc => h (hone.symm.trans hc.1)
      rw [if_neg hother]
      split_ifs <;> omega
    · rw [if_neg fun hc => hone hc.1]
      split_ifs <;> omega

/-- **One answer at most** is backed by more than half of the active stake, if there is any. -/
theorem eq_of_backed (hq : 50 < q) (hpos : activeStake staking ≠ 0) (h : Backed env t staking q body status)
    (h' : Backed env t staking q body' status') : (body, status) = (body', status') := by
  by_contra hne
  have hsum := backing_add_le env t staking hne
  unfold Backed at h h'
  have hmul : 51 * activeStake staking ≤ q * activeStake staking := Nat.mul_le_mul_right _ hq
  omega

/-- **When answers are backed by a quorum.** For every format but prices, whatever an attempt may return is
backed iff every matching reveal is whose group, of reveals with an equal body hash, reaches the quorum. Above
50 percent of some active stake at most one body and status is backed. -/
theorem answers_backed_iff (env : TallyEnv) (t : OracleTally) (staking : StakingState) (q : ℕ)
    (format : UrlResponseFormat) (hf : format ≠ .priceUsd) :
    ((∀ body status n d, Attempt env t staking format q (some (body, status, n, d)) →
        Backed env t staking q body status) ↔
      (staking.activeTotal ≠ 0 → ∀ pk body status, t.reveals[pk]? = some (body, status) →
        Matches env t (pk, body, status) → Reaches env t staking q (env.blake3 body) →
          Backed env t staking q body status)) ∧
    (50 < q → activeStake staking ≠ 0 → ∀ body status body' status', Backed env t staking q body status →
      Backed env t staking q body' status' → (body, status) = (body', status')) := by
  refine ⟨⟨?_, ?_⟩, fun hq hpos body status body' status' h h' => eq_of_backed hq hpos h h'⟩
  · intro h hzero pk body status hrev hmatch hreach
    exact h body status _ _ (attempt_of_reveal hf hzero hrev hmatch hreach)
  · intro h body status n d hsome
    obtain ⟨hzero, -, -, hreach, pk, hrev, hmatch⟩ := attempt_some hf hsome
    exact h hzero pk body status hrev hmatch hreach

end Backing

/-! ### One body, two statuses -/

def sampleTallyEnv : TallyEnv where
  blake3 bs :=
    if bs = "{}".toUTF8.toList then 0x6e46dd10defc9b56c29a6ec56b508c21f54c08192194e4df25bf36f0c9c3c279
    else if bs = "oracle:commit:".toUTF8.toList ++ [1] ++ ofBytes32 7 ++ "{}".toUTF8.toList ++ leBytes 2 200 then
      0x745031cede2a0829eeeac39e65f135c1bdcab3a5dc54927db65a169fbabf8ee8
    else 0x4dcb1ce8de2c6ae0a2f700c30cd4e78ff50150b09b45084e7fc186386def6d80
  parsePriceUsdMicros _ := none
  priceUsdBody _ _ := []

def twoStatuses : OracleTally where
  requestId := 7
  commits := ((∅ : Map Bytes Bytes32).insert [1]
    0x745031cede2a0829eeeac39e65f135c1bdcab3a5dc54927db65a169fbabf8ee8).insert
    [2] 0x4dcb1ce8de2c6ae0a2f700c30cd4e78ff50150b09b45084e7fc186386def6d80
  reveals := ((∅ : Map Bytes (Bytes × ℕ)).insert [1] ("{}".toUTF8.toList, 200)).insert
    [2] ("{}".toUTF8.toList, 503)
  committedStake := 2 * minValidatorStake
  totalStake := 2 * minValidatorStake
  commitPhaseClosed := true

def twoEqual : StakingState :=
  ⟨((∅ : Map Bytes ValidatorStake).insert [1] ⟨minValidatorStake, [], none⟩).insert
    [2] ⟨minValidatorStake, [], none⟩, 1, none⟩

/-- At 50 percent each of the two is backed. -/
theorem answers_backed_iff_sample :
    Backed sampleTallyEnv twoStatuses twoEqual 50 "{}".toUTF8.toList 200 := by
  have hattempt := attempt_tryFinalizeWithFormat sampleTallyEnv twoStatuses twoEqual .raw 50
  have heval : twoStatuses.tryFinalizeWithFormat sampleTallyEnv twoEqual .raw 50 =
      some ("{}".toUTF8.toList, 200, 2 * minValidatorStake, 2 * minValidatorStake) := by decide +kernel
  rw [heval] at hattempt
  refine (answers_backed_iff sampleTallyEnv twoStatuses twoEqual 50 .raw (by decide)).1.mpr ?_ _ _ _ _ hattempt
  intro _ pk body status hrev _ _
  have hall : ∀ r ∈ twoStatuses.reveals.toList,
      Backed sampleTallyEnv twoStatuses twoEqual 50 r.2.1 r.2.2 := by decide +kernel
  exact hall (pk, body, status) (Std.ExtTreeMap.mem_toList_iff_getElem?_eq_some.mpr hrev)

/-- At 67 percent the body is returned with the status of one of them, which half of the stake revealed. -/
theorem status_without_quorum :
    Attempt sampleTallyEnv twoStatuses twoEqual .raw 67
      (some ("{}".toUTF8.toList, 200, 2 * minValidatorStake, 2 * minValidatorStake)) ∧
    ¬ Backed sampleTallyEnv twoStatuses twoEqual 67 "{}".toUTF8.toList 200 := by
  refine ⟨?_, by decide +kernel⟩
  have h := attempt_tryFinalizeWithFormat sampleTallyEnv twoStatuses twoEqual .raw 67
  have heval : twoStatuses.tryFinalizeWithFormat sampleTallyEnv twoEqual .raw 67 =
      some ("{}".toUTF8.toList, 200, 2 * minValidatorStake, 2 * minValidatorStake) := by decide +kernel
  rw [heval] at h
  exact h

end TruthLinked.Oracle.Attempts
