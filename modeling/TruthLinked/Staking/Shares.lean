import TruthLinked.Staking.Bounds

/-! # The shares of a slash

What `compute_redistribution` hands out adds up to the amount and is proportional to within one token, as long
as the stake of the recipients together is below `2 ^ 64`: the sum the proportions are taken of wraps
(`fair_iff`). `compute_slash_outcome` also multiplies before it divides (`exactSlash_iff`). -/

namespace TruthLinked.Staking.Shares

open Core.Types Staking.State Staking.Specs Staking.Slash Staking.Bounds Lib.Table

variable {st : StakingState} {pk : Bytes} {total : ℕ}

/-- What the recipients of a slash have at stake together. -/
def othersStake (st : StakingState) (pk : Bytes) : ℕ := ((eligible st pk).map Prod.snd).sum

/-- **A fair redistribution**: the shares add up to the amount, and each goes to an active validator other
than the slashed one, less than one token below and at most one above its proportion. -/
structure Fair (st : StakingState) (slashed : Bytes) (total : ℕ) : Prop where
  exact : ((computeRedistribution st slashed total).map Prod.snd).sum = total
  share : ∀ e ∈ computeRedistribution st slashed total, e.1 ≠ slashed ∧
    ∃ v, st.validators[e.1]? = some v ∧ v.isActive st.currentHeight = true ∧
      total * v.activeStake < (e.2 + 1) * othersStake st slashed ∧
      e.2 * othersStake st slashed ≤ total * v.activeStake + othersStake st slashed

/-- Every stake is a `u64`. -/
def Wide (st : StakingState) : Prop :=
  ∀ (k : Bytes) (v : ValidatorStake), st.validators[k]? = some v → v.activeStake < u64

theorem eligible_active {e : Bytes × ℕ} (h : e ∈ eligible st pk) :
    e.1 ≠ pk ∧ ∃ v, st.validators[e.1]? = some v ∧ v.isActive st.currentHeight = true ∧ v.activeStake = e.2 := by
  obtain ⟨⟨key, v⟩, hmem, rfl⟩ := List.mem_map.mp h
  obtain ⟨hin, hp⟩ := List.mem_filter.mp hmem
  obtain ⟨hne, hactive⟩ := of_decide_eq_true hp
  exact ⟨hne, v, Std.ExtTreeMap.mem_toList_iff_getElem?_eq_some.mp hin, hactive, rfl⟩

/-! ## Where the sum does not wrap -/

/-- **A redistribution** to validators whose stake together is a `u64` is fair. -/
theorem fair_of_fits (hne : eligible st pk ≠ []) (hfit : othersStake st pk < u64) (htotal : total < u64) :
    Fair st pk total := by
  have hpos : 0 < othersStake st pk := sum_eligible_pos hne
  refine ⟨(sum_redistribution hne hfit htotal).1, fun e he => ?_⟩
  obtain ⟨e₀, he₀, hkey, hlow, hhigh⟩ := share_bounds hne hfit htotal he
  obtain ⟨hother, v, hv, hactive, hstake⟩ := eligible_active he₀
  rw [hkey]
  refine ⟨hother, v, hv, hactive, ?_, ?_⟩
  · rw [hstake]
    calc total * e₀.2 < (total * e₀.2 / othersStake st pk + 1) * othersStake st pk := by
          rw [Nat.add_one_mul]
          exact Nat.lt_div_mul_add hpos
      _ ≤ (e.2 + 1) * othersStake st pk := Nat.mul_le_mul_right _ (Nat.succ_le_succ hlow)
  · rw [hstake]
    calc e.2 * othersStake st pk ≤ (total * e₀.2 / othersStake st pk + 1) * othersStake st pk :=
          Nat.mul_le_mul_right _ hhigh
      _ = total * e₀.2 / othersStake st pk * othersStake st pk + othersStake st pk := Nat.add_one_mul _ _
      _ ≤ total * e₀.2 + othersStake st pk := Nat.add_le_add_right (Nat.div_mul_le_self _ _) _

/-! ## Where it wraps -/

/-- If the stake of the recipients wraps to zero, nothing is handed out. -/
theorem redistribution_of_zero (hne : eligible st pk ≠ []) (hzero : othersStake st pk % u64 = 0) :
    computeRedistribution st pk total = [] := by
  have hsum : sum64 ((eligible st pk).map Prod.snd) = othersStake st pk % u64 := sum64_eq_mod _
  unfold computeRedistribution
  rw [if_neg hne]
  dsimp only
  rw [hsum, if_pos hzero]

/-- If it wraps to anything else, a slash of just that amount hands every recipient as much as it has at
stake. -/
theorem redistribution_of_wrapped (hwide : Wide st) (hne : eligible st pk ≠ [])
    (hpos : 0 < othersStake st pk % u64) :
    computeRedistribution st pk (othersStake st pk % u64) = eligible st pk := by
  have hshares : ((eligible st pk).map fun (e : Bytes × ℕ) =>
      (e.1, othersStake st pk % u64 * e.2 / (othersStake st pk % u64) % u64)) = eligible st pk := by
    conv_rhs => rw [← List.map_id (eligible st pk)]
    refine List.map_congr_left fun e he => ?_
    obtain ⟨-, v, hv, -, hstake⟩ := eligible_active he
    have hlt := hwide e.1 v hv
    rw [Nat.mul_div_cancel_left _ hpos, Nat.mod_eq_of_lt (by omega)]
    rfl
  have hsum : sum64 ((eligible st pk).map Prod.snd) = othersStake st pk % u64 := sum64_eq_mod _
  unfold computeRedistribution
  rw [if_neg hne]
  dsimp only
  rw [hsum, if_neg (by omega), hshares, hsum, Nat.sub_self]
  rfl

/-- **When every redistribution is fair.** -/
theorem fair_iff (hwide : Wide st) :
    (∀ total < u64, eligible st pk ≠ [] → Fair st pk total) ↔ eligible st pk = [] ∨ othersStake st pk < u64 := by
  constructor
  · intro h
    by_contra hnot
    obtain ⟨hne, hlarge⟩ := not_or.mp hnot
    rcases Nat.eq_zero_or_pos (othersStake st pk % u64) with hzero | hpos
    · have hexact := (h 1 (by decide) hne).exact
      rw [redistribution_of_zero hne hzero] at hexact
      cases hexact
    · have hlt : othersStake st pk % u64 < u64 := Nat.mod_lt _ (by decide)
      have hexact := (h _ hlt hne).exact
      rw [redistribution_of_wrapped hwide hne hpos] at hexact
      change othersStake st pk = othersStake st pk % u64 at hexact
      omega
  · rintro (hnone | hfit) total htotal hne
    · exact absurd hnone hne
    · exact fair_of_fits hne hfit htotal

def crowd (n : ℕ) : StakingState where
  validators :=
    (List.range n).foldl (fun m k => m.insert [UInt8.ofNat k] (ValidatorStake.new maxValidatorStake)) ∅
  currentHeight := 0
  treasuryAccountId := none

theorem stake_crowd {n : ℕ} {k : Bytes} {v : ValidatorStake} (hv : (crowd n).validators[k]? = some v) :
    v.activeStake = maxValidatorStake := by
  rw [crowd] at hv
  dsimp only at hv
  rw [getElem?_foldl_insert] at hv
  cases hlast : lastOf (fun i => [UInt8.ofNat i]) k (List.range n) with
  | none => simp [hlast] at hv
  | some i =>
    rw [hlast] at hv
    cases hv
    rfl

theorem wide_crowd (n : ℕ) : Wide (crowd n) := by
  intro k v hv
  rw [stake_crowd hv]
  decide

theorem fair_sample : Fair (crowd 3) [0] 1001 :=
  (@fair_iff _ [0] (wide_crowd 3)).mpr (.inr (by decide +kernel)) 1001 (by decide) (by decide +kernel)

/-- With nineteen other validators at the maximum stake the sum wraps, and a slash hands out more than it
took. -/
theorem crowd_unfair : ¬ Fair (crowd 20) [0] 553255926290448384 := by
  intro h
  have hexact := h.exact
  revert hexact
  decide +kernel

/-! ## Slash amounts without overflow

The functions of `compute_slash_outcome` with `none` where an operation on `u64` overflows. -/

/-- A sum of `u64`s that must not wrap. -/
def sumChecked (xs : List ℕ) : Option ℕ := xs.foldlM (fun a b => if a + b < u64 then some (a + b) else none) 0

/-- `compute_redistribution`, with its two sums checked. -/
def computeRedistributionChecked (st : StakingState) (slashed : Bytes) (total : ℕ) : Option (List (Bytes × ℕ)) :=
  let active := eligible st slashed
  if active = [] then
    match st.treasuryAccountId with
    | some treasury => some [(ofBytes32 treasury, total)]
    | none => some []
  else do
    let totalActive ← sumChecked (active.map Prod.snd)
    if totalActive = 0 then some []
    else
      let shares := active.map fun (pk, s) => (pk, total * s / totalActive % u64)
      let allocated ← sumChecked (shares.map Prod.snd)
      let dust := total - allocated
      let order := (List.range shares.length).mergeSort fun a b =>
        decide ((active.getD b default).2 ≤ (active.getD a default).2)
      some (spreadDust order dust 0 shares)

/-- `StakingState::compute_slash_outcome` behind the check of the evidence, with the product and the sums
checked. -/
def computeSlashOutcomeChecked (st : StakingState) (pk : Bytes) (percentage : ℕ) :
    Option (Except String SlashOutcome) :=
  match st.validators[pk]? with
  | none => some (.error "Validator not found")
  | some v =>
    if v.activeStake = 0 then some (.error "No stake to slash")
    else if u64 ≤ v.activeStake * percentage then none
    else
      let raw := v.activeStake * percentage / 100
      let amount := min (if raw = 0 then 1 else raw) v.activeStake
      (computeRedistributionChecked st pk amount).map fun redistribution => .ok ⟨amount, redistribution⟩

/-- `StakingState::compute_slash_outcome`, checked. -/
def computeSlashChecked {Ev : Type} (check : Ev → Except String Unit) (percentage : SlashReason → ℕ)
    (st : StakingState)
    (pk : Bytes) (reason : SlashReason) (evidence : Option Ev) : Option (Except String SlashOutcome) :=
  match checkEvidence check reason evidence with
  | .error e => some (.error e)
  | .ok () => computeSlashOutcomeChecked st pk (percentage reason)

theorem foldlM_checked {xs : List ℕ} {a : ℕ} (ha : a < u64) :
    xs.foldlM (fun a b => if a + b < u64 then some (a + b) else none) a =
      if a + xs.sum < u64 then some (a + xs.sum) else none := by
  induction xs generalizing a with
  | nil => simp [ha]
  | cons x xs ih =>
    rw [List.foldlM_cons, List.sum_cons, ← Nat.add_assoc]
    by_cases hx : a + x < u64
    · rw [if_pos hx]
      exact ih hx
    · rw [if_neg hx, if_neg (by omega)]
      rfl

theorem sumChecked_eq (xs : List ℕ) : sumChecked xs = if xs.sum < u64 then some xs.sum else none := by
  have h := @foldlM_checked xs 0 (by decide)
  rw [Nat.zero_add] at h
  exact h

/-- The redistribution goes through without overflow where the stake of the recipients fits, and is the one of
the code. -/
theorem computeRedistributionChecked_eq (htotal : total < u64) : computeRedistributionChecked st pk total =
    if eligible st pk = [] ∨ othersStake st pk < u64 then some (computeRedistribution st pk total) else none := by
  unfold computeRedistributionChecked computeRedistribution
  by_cases hne : eligible st pk = []
  · simp only [hne, true_or, if_true]
    cases st.treasuryAccountId <;> rfl
  · simp only [if_neg hne]
    by_cases hfit : othersStake st pk < u64
    · have hpos : othersStake st pk ≠ 0 := (sum_eligible_pos hne).ne'
      have hle : ((floors st pk total).map Prod.snd).sum < u64 := sum_floors_le.trans_lt htotal
      have hsum : sumChecked ((eligible st pk).map Prod.snd) = some (sum64 ((eligible st pk).map Prod.snd)) := by
        rw [sumChecked_eq, sum64_eq hfit]
        exact if_pos hfit
      have hall : sumChecked ((floors st pk total).map Prod.snd) =
          some (sum64 ((floors st pk total).map Prod.snd)) := by
        rw [sumChecked_eq, sum64_eq hle, if_pos hle]
      have hfloors := shares_eq_floors st pk htotal
      rw [hsum, if_pos (.inr hfit), sum64_eq hfit]
      simp only [Option.bind_eq_bind, Option.bind_some, hfloors, hall]
      exact (if_neg hpos).trans (congrArg some (if_neg hpos).symm)
    · have hsum : sumChecked ((eligible st pk).map Prod.snd) = none := (sumChecked_eq _).trans (if_neg hfit)
      rw [hsum, if_neg (not_or.mpr ⟨hne, hfit⟩)]
      rfl

/-- Where nothing overflows, the wrapping code computes the same. -/
theorem computeSlash_of_checked {Ev : Type} {check : Ev → Except String Unit} {percentage : SlashReason → ℕ}
    {reason : SlashReason} {evidence : Option Ev} {r : Except String SlashOutcome}
    (h : computeSlashChecked check percentage st pk reason evidence = some r) :
    computeSlash check percentage st pk reason evidence = r := by
  unfold computeSlashChecked at h
  unfold computeSlash
  cases hcheck : checkEvidence check reason evidence with
  | error e =>
    rw [hcheck] at h
    exact Option.some.inj h
  | ok _ =>
    rw [hcheck] at h
    change computeSlashOutcome st pk (percentage reason) = r
    dsimp only at h
    unfold computeSlashOutcomeChecked at h
    unfold computeSlashOutcome
    cases hv : st.validators[pk]? with
    | none =>
      rw [hv] at h
      exact Option.some.inj h
    | some v =>
      rw [hv] at h
      dsimp only at h ⊢
      by_cases hzero : v.activeStake = 0
      · rw [if_pos hzero] at h ⊢
        exact Option.some.inj h
      · rw [if_neg hzero] at h ⊢
        by_cases hbig : u64 ≤ v.activeStake * percentage reason
        · rw [if_pos hbig] at h
          cases h
        rw [if_neg hbig] at h
        rw [Nat.mod_eq_of_lt (Nat.lt_of_not_le hbig)]
        have hamount : min (if v.activeStake * percentage reason / 100 = 0 then 1
            else v.activeStake * percentage reason / 100) v.activeStake < u64 := by
          unfold u64 at hbig ⊢
          split_ifs <;> omega
        rw [computeRedistributionChecked_eq hamount] at h
        by_cases hfit : eligible st pk = [] ∨ othersStake st pk < u64
        · rw [if_pos hfit] at h
          exact Option.some.inj h
        · rw [if_neg hfit] at h
          cases h

/-- **When a slash amount is computed without overflow.** -/
theorem exactSlash_iff {Ev : Type} (check : Ev → Except String Unit) (percentage : SlashReason → ℕ)
    {v : ValidatorStake}
    {reason : SlashReason} {evidence : Option Ev} (hcheck : checkEvidence check reason evidence = .ok ())
    (hmax : ∀ (k : Bytes) (w : ValidatorStake), st.validators[k]? = some w → w.activeStake ≤ maxValidatorStake)
    (hpercent : percentage reason ≤ 100) (hv : st.validators[pk]? = some v) (hpos : v.activeStake ≠ 0) :
    (∃ o, computeSlashChecked check percentage st pk reason evidence = some (.ok o) ∧ 1 ≤ o.amount ∧
      o.amount ≤ v.activeStake ∧ o.amount = max 1 (v.activeStake * percentage reason / 100)) ↔
    v.activeStake * percentage reason < u64 ∧ (eligible st pk = [] ∨ othersStake st pk < u64) := by
  have hstake := hmax pk v hv
  have hle : v.activeStake * percentage reason / 100 ≤ v.activeStake :=
    Nat.div_le_of_le_mul (by rw [Nat.mul_comm 100]; exact Nat.mul_le_mul_left _ hpercent)
  have hamount : min
      (if v.activeStake * percentage reason / 100 = 0 then 1 else v.activeStake * percentage reason / 100)
      v.activeStake = max 1 (v.activeStake * percentage reason / 100) := by
    split_ifs <;> omega
  have hwide : max 1 (v.activeStake * percentage reason / 100) < u64 := by
    unfold maxValidatorStake at hstake
    unfold u64
    omega
  have hcode : computeSlashChecked check percentage st pk reason evidence =
      if u64 ≤ v.activeStake * percentage reason then none
      else if eligible st pk = [] ∨ othersStake st pk < u64 then
        some (.ok ⟨max 1 (v.activeStake * percentage reason / 100),
          computeRedistribution st pk (max 1 (v.activeStake * percentage reason / 100))⟩)
      else none := by
    unfold computeSlashChecked
    rw [hcheck]
    dsimp only
    unfold computeSlashOutcomeChecked
    rw [hv]
    dsimp only
    rw [if_neg hpos, hamount, computeRedistributionChecked_eq hwide]
    split_ifs <;> rfl
  rw [hcode]
  constructor
  · rintro ⟨o, ho, -⟩
    split_ifs at ho with hbig hfit
    exact ⟨by omega, hfit⟩
  · rintro ⟨hsmall, hfit⟩
    refine ⟨_, by rw [if_neg (by omega), if_pos hfit], ?_, ?_, rfl⟩
    · exact Nat.le_max_left _ _
    · dsimp only
      omega

theorem exactSlash_sample :
    ∃ o, computeSlashChecked (fun _ : Unit => .ok ()) (fun _ => 5) (crowd 3) [0] .downtime none =
    some (.ok o) ∧ 1 ≤ o.amount ∧ o.amount ≤ maxValidatorStake ∧
      o.amount = max 1 (maxValidatorStake * 5 / 100) := by
  have hmax : ∀ (k : Bytes) (w : ValidatorStake), (crowd 3).validators[k]? = some w →
      w.activeStake ≤ maxValidatorStake := by
    intro k w hw
    rw [stake_crowd hw]
  exact (exactSlash_iff (fun _ : Unit => .ok ()) (fun _ => 5) (v := ValidatorStake.new maxValidatorStake) rfl hmax
    (by decide) (by decide +kernel) (by decide)).mpr ⟨by decide, .inr (by decide +kernel)⟩

/-- The oracle lie percentage, `30`, of the maximum stake overflows: where it wraps, less than twelve per cent
are taken. -/
theorem slash_overflows :
    computeSlashChecked (fun _ : Unit => .ok ()) (fun _ => 30) (crowd 3) [0] .oracleLie none = none ∧
      (computeSlash (fun _ : Unit => .ok ()) (fun _ => 30) (crowd 3) [0] .oracleLie none).toOption.map
        SlashOutcome.amount = some (maxValidatorStake * 30 % u64 / 100) := by
  decide +kernel

end TruthLinked.Staking.Shares
