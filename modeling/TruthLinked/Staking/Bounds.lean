import TruthLinked.Staking.Conservation

/-! # Bounds of validator records

The cap on a validator's stake is checked by `stake` alone: the shares of a slash may go over it, and `stake`,
`unstake` and `withdraw` write before their last check. Where neither happens (`Measured`), every state
reached from the empty one keeps to the bounds and every call that fails changes no record
(`bounded_of_measured`). -/

namespace TruthLinked.Staking.Bounds

open Core.Types Staking.State Staking.Specs Staking.Slash Staking.Conservation Lib.MapSum Lib.Run Lib.Table
open Lib.Wp

variable {a : Bytes} {shares : List (Bytes × ℕ)} {e : Bytes × ℕ}

/-! ## Calls and their answers -/

section Code
variable {Ev : Type} (check : Ev → Except String Unit) (percentage : SlashReason → ℕ)

/-- The state after a slash. -/
def slashStep (reason : SlashReason) (evidence : Option Ev) (st : StakingState) (pk : Bytes) : StakingState :=
  (outcome (slashValidator check percentage pk reason evidence) st).2

/-- A call: its answer, and the state after it. -/
def call (st : StakingState) : Action Ev → Except String Unit × StakingState
  | .stake pk amount => outcome (stake pk amount) st
  | .unstake pk amount => outcome (unstake pk amount) st
  | .withdraw pk => outcome (withdraw pk >>= fun _ => pure ()) st
  | .slash pk reason evidence =>
    outcome (slashValidator check percentage pk reason evidence >>= fun _ => pure ()) st
  | .slashSilent requestId committed revealed =>
    (.ok (), (silent committed revealed).foldl (slashStep check percentage (.oracleSilence requestId) none) st)
  | .unjail pk => outcome (unjail pk) st
  | .advanceHeight => (.ok (), { st with currentHeight := (st.currentHeight + 1) % u64 })

/-- The state after a call. -/
def after (st : StakingState) (a : Action Ev) : StakingState := (call check percentage st a).2

/-! ## What should hold -/

/-- Every stake is within the cap and every queue within its length. -/
def Bounded (st : StakingState) : Prop :=
  ∀ (pk : Bytes) (v : ValidatorStake), st.validators[pk]? = some v →
    v.activeStake ≤ maxValidatorStake ∧ v.unbonding.length ≤ maxUnbondingEntries

/-- A call that fails changes no record. -/
def Atomic (st : StakingState) (a : Action Ev) : Prop :=
  ∀ e, (call check percentage st a).1 = .error e → (after check percentage st a).validators = st.validators

/-! ## What a call has to satisfy -/

/-- The amount that a slash takes. -/
def slashAmount (p : ℕ) (v : ValidatorStake) : ℕ :=
  min (if v.activeStake * p % u64 / 100 = 0 then 1 else v.activeStake * p % u64 / 100) v.activeStake

/-- The recipients have room: each eligible validator for its share rounded up, and the validator in the
treasury's name, if there is one, for everything. -/
def Roomy (p : ℕ) (st : StakingState) (pk : Bytes) : Prop :=
  ∀ v, st.validators[pk]? = some v →
    let total := ((eligible st pk).map Prod.snd).sum
    total + slashAmount p v < u64 ∧
    (∀ e ∈ eligible st pk, e.2 + slashAmount p v * e.2 / total + 1 ≤ maxValidatorStake) ∧
    (eligible st pk = [] → ∀ treasury w, st.treasuryAccountId = some treasury → ofBytes32 treasury ≠ pk →
      st.validators[ofBytes32 treasury]? = some w → w.activeStake + slashAmount p v ≤ maxValidatorStake)

/-- **A measured call**: a new validator stakes no more than the cap, a full queue with a mature entry is
unstaked from only in an amount that is accepted, the mature entries of a withdrawal do not add up to zero
modulo `2 ^ 64`, and the recipients of a slash have room. -/
def Measured (st : StakingState) : Action Ev → Prop
  | .stake pk amount => pk ∈ st.validators ∨ amount < minValidatorStake ∨ amount ≤ maxValidatorStake
  | .unstake pk amount => ∀ v, st.validators[pk]? = some v → maxUnbondingEntries ≤ v.unbonding.length →
      (∃ e ∈ v.unbonding, e.completionTick ≤ st.currentHeight) →
        amount ≤ v.activeStake ∧ (amount = v.activeStake ∨ minValidatorStake ≤ v.activeStake - amount)
  | .withdraw pk => ∀ v, st.validators[pk]? = some v →
      (∃ e ∈ v.unbonding, e.completionTick ≤ st.currentHeight) →
        queued (v.unbonding.filter fun e => decide (e.completionTick ≤ st.currentHeight)) % u64 ≠ 0
  | .slash pk reason evidence => checkEvidence check reason evidence = .ok () → Roomy (percentage reason) st pk
  | .slashSilent requestId committed revealed =>
    Along (slashStep check percentage (.oracleSilence requestId) none)
      (Roomy (percentage (.oracleSilence requestId))) st (silent committed revealed)
  | _ => True

end Code

/-! ## Shares -/

theorem spreadDust_le {order : List ℕ} (hnodup : order.Nodup) {dust idx : ℕ} (hround : idx + dust ≤ order.length)
    {i : ℕ} (h : (spreadDust order dust idx shares)[i]? = some e) :
    ∃ e₀, shares[i]? = some e₀ ∧ e.1 = e₀.1 ∧ e.2 ≤ e₀.2 + if i ∈ order.drop idx then 1 else 0 := by
  induction dust generalizing idx shares with
  | zero => exact ⟨e, h, rfl, Nat.le_add_right _ _⟩
  | succ dust ih =>
    have hlt : idx < order.length := by omega
    rw [spreadDust, Nat.mod_eq_of_lt hlt, List.getD_eq_getElem?_getD, List.getElem?_eq_getElem hlt,
      Option.getD_some] at h
    obtain ⟨e₁, he₁, hfst, hle⟩ := ih (by omega) h
    rw [List.getElem?_modify] at he₁
    rw [List.drop_eq_getElem_cons hlt]
    have hout : order[idx] ∉ order.drop (idx + 1) := by
      have hdrop := hnodup.sublist (List.drop_sublist idx order)
      rw [List.drop_eq_getElem_cons hlt] at hdrop
      exact (List.nodup_cons.mp hdrop).1
    cases hi : shares[i]? with
    | none => simp [hi] at he₁
    | some e₀ =>
      refine ⟨e₀, rfl, ?_⟩
      rw [hi, Option.map_eq_map, Option.map_some] at he₁
      by_cases hslot : order[idx] = i
      · rw [if_pos hslot, Option.some.injEq] at he₁
        rw [← hslot, if_neg hout] at hle
        rw [← hslot, if_pos List.mem_cons_self]
        subst he₁
        have hsat : satAdd64 e₀.2 1 ≤ e₀.2 + 1 := min_le_left _ _
        exact ⟨hfst, by simp only at hle; omega⟩
      · rw [if_neg hslot, Option.some.injEq] at he₁
        subst he₁
        have hiff : i ∈ order[idx] :: order.drop (idx + 1) ↔ i ∈ order.drop (idx + 1) :=
          List.mem_cons.trans (or_iff_right (Ne.symm hslot))
        rw [if_congr hiff rfl rfl]
        exact ⟨hfst, hle⟩

theorem le_spreadDust {order : List ℕ} {dust idx : ℕ} {shares : List (Bytes × ℕ)} (hfit : ∀ e ∈ shares, e.2 < u64)
    {i : ℕ} {e : Bytes × ℕ} (h : (spreadDust order dust idx shares)[i]? = some e) :
    ∃ e₀, shares[i]? = some e₀ ∧ e₀.2 ≤ e.2 := by
  induction dust generalizing idx shares with
  | zero => exact ⟨e, h, le_rfl⟩
  | succ dust ih =>
    rw [spreadDust_succ] at h
    set slot := order.getD (idx % order.length) 0
    set addOne : Bytes × ℕ → Bytes × ℕ := fun e => (e.1, satAdd64 e.2 1) with haddOne
    have hone : ∀ e : Bytes × ℕ, e.2 < u64 → e.2 ≤ (addOne e).2 ∧ (addOne e).2 < u64 := by
      intro e he
      change e.2 ≤ min (e.2 + 1) (u64 - 1) ∧ min (e.2 + 1) (u64 - 1) < u64
      omega
    have hfit' : ∀ e ∈ shares.modify slot addOne, e.2 < u64 := by
      intro e he
      obtain ⟨j, hj⟩ := List.mem_iff_getElem?.mp he
      rw [List.getElem?_modify] at hj
      obtain ⟨e₁, he₁, rfl⟩ := Option.map_eq_some_iff.mp hj
      have hlt := hfit e₁ (List.mem_of_getElem? he₁)
      split_ifs
      · exact (hone e₁ hlt).2
      · exact hlt
    obtain ⟨e₁, he₁, hle⟩ := ih hfit' h
    rw [List.getElem?_modify] at he₁
    obtain ⟨e₀, he₀, rfl⟩ := Option.map_eq_some_iff.mp he₁
    refine ⟨e₀, he₀, le_trans ?_ hle⟩
    split_ifs
    · exact (hone e₀ (hfit e₀ (List.mem_of_getElem? he₀))).1
    · exact le_rfl

section Shares
variable {st : StakingState} {pk : Bytes} {total : ℕ}

/-- **A share** is the floor of the proportion or one more. -/
theorem share_bounds (hne : eligible st pk ≠ []) (hfit : ((eligible st pk).map Prod.snd).sum < u64)
    (htotal : total < u64) (h : e ∈ computeRedistribution st pk total) :
    ∃ e₀ ∈ eligible st pk, e.1 = e₀.1 ∧ total * e₀.2 / ((eligible st pk).map Prod.snd).sum ≤ e.2 ∧
      e.2 ≤ total * e₀.2 / ((eligible st pk).map Prod.snd).sum + 1 := by
  obtain ⟨order, hperm, hcompute⟩ := computeRedistribution_eq hne hfit htotal
  rw [hcompute] at h
  obtain ⟨i, hi⟩ := List.mem_iff_getElem?.mp h
  have hdust := Lib.ProRata.lt_sum_floor_add (c := total) (sum_eligible_pos hne)
  rw [← map_snd_floors, List.length_map] at hdust
  have hlen : order.length = (eligible st pk).length := by rw [hperm.length_eq, List.length_range]
  obtain ⟨e₁, he₁, hfst, hhigh⟩ := spreadDust_le (hperm.nodup_iff.mpr List.nodup_range) (by omega) hi
  have hsmall : ∀ e ∈ floors st pk total, e.2 < u64 := by
    intro e he
    have hle : e.2 ≤ ((floors st pk total).map Prod.snd).sum := List.le_sum_of_mem (List.mem_map_of_mem he)
    exact (hle.trans sum_floors_le).trans_lt htotal
  obtain ⟨e₂, he₂, hlow⟩ := le_spreadDust hsmall hi
  obtain rfl : e₂ = e₁ := Option.some.inj (he₂.symm.trans he₁)
  rw [floors, List.getElem?_map] at he₁
  obtain ⟨e₀, he₀, rfl⟩ := Option.map_eq_some_iff.mp he₁
  refine ⟨e₀, List.mem_of_getElem? he₀, hfst, hlow, hhigh.trans ?_⟩
  dsimp only
  split_ifs <;> omega

end Shares

/-- What a validator has after its share. -/
def given (share : ℕ) (v : ValidatorStake) : ValidatorStake :=
  if share = 0 then v else { v with activeStake := satAdd64 v.activeStake share }

theorem given_le (share : ℕ) (v : ValidatorStake) :
    (given share v).activeStake ≤ v.activeStake + share ∧ (given share v).unbonding = v.unbonding := by
  unfold given
  split_ifs
  · exact ⟨Nat.le_add_right _ _, rfl⟩
  · exact ⟨min_le_left _ _, rfl⟩

theorem applyRedistribution_cons (k : Bytes) (share : ℕ) (shares : List (Bytes × ℕ))
    (m : Map Bytes ValidatorStake) (a : Bytes) :
    ∃ m', applyRedistribution ((k, share) :: shares) m = applyRedistribution shares m' ∧
      m'[a]? = if a = k then m[k]?.map (given share) else m[a]? := by
  by_cases hzero : share = 0
  · refine ⟨m, ?_, ?_⟩
    · simp only [applyRedistribution, List.foldl_cons, if_pos hzero]
    · split_ifs with ha
      · rw [ha]
        cases m[k]? with
        | none => rfl
        | some v => rw [Option.map_some, given, if_pos hzero]
      · rfl
  · refine ⟨m.modify k (given share), ?_, getElem?_modify_ite m k (given share) a⟩
    simp only [applyRedistribution, List.foldl_cons, if_neg hzero]
    congr 2
    funext v
    rw [given, if_neg hzero]

theorem applyRedistribution_of_notMem (h : a ∉ shares.map Prod.fst)
    (m : Map Bytes ValidatorStake) : (applyRedistribution shares m)[a]? = m[a]? := by
  induction shares generalizing m with
  | nil => rfl
  | cons e shares ih =>
    obtain ⟨k, share⟩ := e
    rw [List.map_cons, List.mem_cons, not_or] at h
    obtain ⟨m', hm', hlook⟩ := applyRedistribution_cons k share shares m a
    rw [hm', ih h.2, hlook, if_neg h.1]

theorem applyRedistribution_of_mem (hnodup : (shares.map Prod.fst).Nodup)
    {share : ℕ} (h : (a, share) ∈ shares) (m : Map Bytes ValidatorStake) :
    (applyRedistribution shares m)[a]? = m[a]?.map (given share) := by
  induction shares generalizing m with
  | nil => cases h
  | cons e shares ih =>
    obtain ⟨k, share'⟩ := e
    rw [List.map_cons, List.nodup_cons] at hnodup
    obtain ⟨m', hm', hlook⟩ := applyRedistribution_cons k share' shares m a
    rw [hm']
    rcases List.mem_cons.mp h with heq | hrest
    · cases heq
      rw [applyRedistribution_of_notMem hnodup.1, hlook, if_pos rfl]
    · have hne : a ≠ k := by
        rintro rfl
        exact hnodup.1 (List.mem_map.mpr ⟨_, hrest, rfl⟩)
      rw [ih hnodup.2 hrest, hlook, if_neg hne]

/-! ## Slashes -/

section Slashes
variable {st : StakingState} {pk : Bytes} {p : ℕ} {o : SlashOutcome} {v : ValidatorStake}

theorem amount_eq (hv : st.validators[pk]? = some v) (h : computeSlashOutcome st pk p = .ok o) :
    o.amount = slashAmount p v := by
  unfold computeSlashOutcome at h
  simp only [hv] at h
  split_ifs at h with hzero hraw
  · cases h
    rw [slashAmount, if_pos hraw]
  · cases h
    rw [slashAmount, if_neg hraw]

theorem eligible_nodup (st : StakingState) (pk : Bytes) : ((eligible st pk).map Prod.fst).Nodup := by
  have hkeys : (st.validators.toList.map Prod.fst).Nodup := by
    rw [Std.ExtTreeMap.map_fst_toList_eq_keys]
    exact st.validators.nodup_keys
  have hmap : (eligible st pk).map Prod.fst = (st.validators.toList.filter fun e =>
      decide (e.1 ≠ pk ∧ e.2.isActive st.currentHeight)).map Prod.fst := by
    rw [eligible, List.map_map]
    rfl
  rw [hmap]
  exact hkeys.sublist (List.filter_sublist.map Prod.fst)

theorem eligible_spec (h : e ∈ eligible st pk) :
    e.1 ≠ pk ∧ ∃ w, st.validators[e.1]? = some w ∧ w.activeStake = e.2 := by
  obtain ⟨⟨key, w⟩, hmem, rfl⟩ := List.mem_map.mp h
  obtain ⟨hin, hp⟩ := List.mem_filter.mp hmem
  exact ⟨(of_decide_eq_true hp).1, w, Std.ExtTreeMap.mem_toList_iff_getElem?_eq_some.mp hin, rfl⟩

theorem debited_getElem? (a : Bytes) : (debited pk o st).validators[a]? =
    if a = pk then some (penalised st.currentHeight o (validatorAt st pk)) else st.validators[a]? :=
  getElem?_insert_ite st.validators pk a _

/-- Before the shares every record is within the bounds, and the slashed one leaves room for what was
taken. -/
theorem debited_spec (hb : Bounded st) (hv : st.validators[pk]? = some v) (hle : o.amount ≤ v.activeStake)
    {w : ValidatorStake} (hw : (debited pk o st).validators[a]? = some w) :
    (w.activeStake ≤ maxValidatorStake ∧ w.unbonding.length ≤ maxUnbondingEntries) ∧
      (a = pk → w.activeStake + o.amount ≤ maxValidatorStake) ∧ (a ≠ pk → st.validators[a]? = some w) := by
  have hpk := hb pk v hv
  rw [debited_getElem?] at hw
  by_cases ha : a = pk
  · rw [if_pos ha, validatorAt_of_some hv] at hw
    cases hw
    have hstake : (penalised st.currentHeight o v).activeStake = v.activeStake - o.amount := rfl
    refine ⟨⟨by omega, hpk.2⟩, fun _ => by omega, fun hne => absurd ha hne⟩
  · rw [if_neg ha] at hw
    exact ⟨hb a w hw, fun heq => absurd heq ha, fun _ => hw⟩

theorem Bounded.forfeit (hb : Bounded st) (hv : st.validators[pk]? = some v) (hle : o.amount ≤ v.activeStake)
    {treasury : AccountId} (hroom : ∀ w, ofBytes32 treasury ≠ pk →
      st.validators[ofBytes32 treasury]? = some w → w.activeStake + o.amount ≤ maxValidatorStake)
    {w : ValidatorStake}
    (hw : (applyRedistribution [(ofBytes32 treasury, o.amount)] (debited pk o st).validators)[a]? = some w) :
    w.activeStake ≤ maxValidatorStake ∧ w.unbonding.length ≤ maxUnbondingEntries := by
  by_cases ha : a = ofBytes32 treasury
  · have hnodup : ([(ofBytes32 treasury, o.amount)].map Prod.fst).Nodup := List.nodup_singleton _
    rw [ha, applyRedistribution_of_mem hnodup List.mem_cons_self] at hw
    obtain ⟨w₀, hw₀, rfl⟩ := Option.map_eq_some_iff.mp hw
    obtain ⟨⟨-, hlen⟩, hself, hother⟩ := debited_spec hb hv hle hw₀
    obtain ⟨hgiven, hqueue⟩ := given_le o.amount w₀
    refine ⟨hgiven.trans ?_, by rwa [hqueue]⟩
    by_cases hpk : ofBytes32 treasury = pk
    · exact hself hpk
    · exact hroom w₀ hpk (hother hpk)
  · rw [applyRedistribution_of_notMem (by simpa using ha)] at hw
    exact (debited_spec hb hv hle hw).1

/-- **A slash** whose recipients have room keeps to the bounds. -/
theorem Bounded.slashed (hb : Bounded st) (hroomy : Roomy p st pk) (h : computeSlashOutcome st pk p = .ok o) :
    Bounded (Specs.slashed pk o st) := by
  obtain ⟨v, hv, -, hle, hred⟩ := computeSlashOutcome_eq_ok h
  obtain ⟨hfit, hshare, htreasury⟩ := hroomy v hv
  rw [← amount_eq hv h] at hfit hshare htreasury
  intro a w hw
  rw [slashed_eq] at hw
  by_cases hnone : eligible st pk = []
  · rw [hred, computeRedistribution] at hw
    simp only [hnone, if_true] at hw
    cases ht : st.treasuryAccountId with
    | none =>
      rw [ht] at hw
      exact (debited_spec hb hv hle hw).1
    | some treasury =>
      rw [ht] at hw
      exact hb.forfeit hv hle (fun w => htreasury hnone treasury w ht) hw
  · obtain ⟨-, hfst⟩ := @sum_redistribution st pk o.amount hnone (by omega) (by omega)
    rw [← hred] at hfst
    have hnodup : (o.redistribution.map Prod.fst).Nodup := by
      rw [hfst]
      exact eligible_nodup st pk
    by_cases hin : a ∈ o.redistribution.map Prod.fst
    · obtain ⟨⟨a', share⟩, hmem, rfl⟩ := List.mem_map.mp hin
      rw [applyRedistribution_of_mem hnodup hmem] at hw
      obtain ⟨w₀, hw₀, rfl⟩ := Option.map_eq_some_iff.mp hw
      obtain ⟨⟨-, hlen⟩, -, hother⟩ := debited_spec hb hv hle hw₀
      obtain ⟨hgiven, hqueue⟩ := given_le share w₀
      rw [hred] at hmem
      obtain ⟨e₀, he₀, hkey, -, hsmall⟩ := share_bounds hnone (by omega) (by omega) hmem
      obtain ⟨hne, w₁, hw₁, hstake⟩ := eligible_spec he₀
      dsimp only at hkey hother hsmall
      rw [hkey] at hother
      have hw₀' := hother hne
      rw [hw₁] at hw₀'
      cases hw₀'
      have hroom := hshare e₀ he₀
      exact ⟨by omega, by rwa [hqueue]⟩
    · rw [applyRedistribution_of_notMem hin] at hw
      exact (debited_spec hb hv hle hw).1

end Slashes

/-! ## Calls -/

section Calls
variable {st st' : StakingState} {pk : Bytes} {amount : ℕ} {v : ValidatorStake}

theorem put_getElem? (a : Bytes) :
    (StakingState.put pk v st).validators[a]? = if a = pk then some v else st.validators[a]? :=
  getElem?_insert_ite st.validators pk a v

theorem Bounded.put (hb : Bounded st)
    (hv : v.activeStake ≤ maxValidatorStake ∧ v.unbonding.length ≤ maxUnbondingEntries) :
    Bounded (StakingState.put pk v st) := by
  intro a w hw
  rw [put_getElem?] at hw
  split_ifs at hw
  · cases hw
    exact hv
  · exact hb a w hw

theorem put_self (h : st.validators[pk]? = some v) : (StakingState.put pk v st).validators = st.validators := by
  refine Std.ExtTreeMap.ext_getElem? fun {a} => ?_
  rw [put_getElem?]
  split_ifs with ha
  · rw [ha, h]
  · rfl

theorem Bounded.at (hb : Bounded st) (pk : Bytes) : (validatorAt st pk).activeStake ≤ maxValidatorStake ∧
    (validatorAt st pk).unbonding.length ≤ maxUnbondingEntries := by
  cases hv : st.validators[pk]? with
  | none =>
    rw [validatorAt, hv]
    decide
  | some v =>
    rw [validatorAt_of_some hv]
    exact hb pk v hv

theorem Bounded.stake_ok (hb : Bounded st) (h : outcome (stake pk amount) st = (.ok (), st')) : Bounded st' := by
  obtain ⟨⟨-, hle⟩, rfl⟩ := (spec_stake pk amount).of_ok h
  exact hb.put ⟨hle, (hb.at pk).2⟩

theorem stake_error_same {e : String}
    (hm : pk ∈ st.validators ∨ amount < minValidatorStake ∨ amount ≤ maxValidatorStake)
    (h : outcome (stake pk amount) st = (.error e, st')) : st'.validators = st.validators := by
  rcases stake_error h with rfl | ⟨hover, rfl⟩
  · rfl
  cases hv : st.validators[pk]? with
  | some v =>
    rw [validatorAt_of_some hv]
    exact put_self hv
  | none =>
    -- a new validator within the cap fails at the first check only
    exfalso
    have hnot : pk ∉ st.validators := by
      rw [Std.ExtTreeMap.mem_iff_isSome_getElem?, hv]
      exact Bool.false_ne_true
    have hzero : (validatorAt st pk).activeStake = 0 := by
      rw [validatorAt, hv]
      rfl
    rw [hzero] at hover
    rcases hm with hin | hmin | hle
    · exact hnot hin
    · have : minValidatorStake ≤ maxValidatorStake := by decide
      omega
    · omega

theorem immature_eq_self {height : ℕ} {entries : List UnbondingEntry}
    (h : ¬ ∃ e ∈ entries, e.completionTick ≤ height) : immature height entries = entries := by
  refine List.filter_eq_self.mpr fun e he => ?_
  refine decide_eq_true ?_
  by_contra hle
  exact h ⟨e, he, not_lt.mp hle⟩

theorem immature_length_lt {height : ℕ} {entries : List UnbondingEntry}
    (h : ∃ e ∈ entries, e.completionTick ≤ height) : (immature height entries).length < entries.length := by
  obtain ⟨e, he, hle⟩ := h
  refine List.length_filter_lt_length_iff_exists.mpr ⟨e, he, ?_⟩
  simp only [decide_eq_true_eq, not_lt]
  exact hle

theorem Bounded.unstake_ok (hb : Bounded st) (h : outcome (unstake pk amount) st = (.ok (), st')) :
    Bounded st' := by
  obtain ⟨⟨-, hroom, -, -⟩, rfl⟩ := (spec_unstake pk amount).of_ok h
  refine hb.put ⟨?_, ?_⟩
  · have hle := (hb.at pk).1
    rw [← roomMade_activeStake st.currentHeight] at hle
    dsimp only
    omega
  · rw [List.length_append, List.length_singleton]
    exact hroom

theorem unstake_error_same {e : String} (hb : Bounded st)
    (hm : ∀ v, st.validators[pk]? = some v → maxUnbondingEntries ≤ v.unbonding.length →
      (∃ e ∈ v.unbonding, e.completionTick ≤ st.currentHeight) →
        amount ≤ v.activeStake ∧ (amount = v.activeStake ∨ minValidatorStake ≤ v.activeStake - amount))
    (h : outcome (unstake pk amount) st = (.error e, st')) : st'.validators = st.validators := by
  rcases unstake_error h with rfl | ⟨hmem, rfl⟩
  · rfl
  obtain ⟨v, hv⟩ := Option.isSome_iff_exists.mp (Std.ExtTreeMap.mem_iff_isSome_getElem?.mp hmem)
  have hlen := (hb pk v hv).2
  rw [validatorAt_of_some hv]
  by_cases hfull : maxUnbondingEntries ≤ v.unbonding.length
  · by_cases hmature : ∃ e ∈ v.unbonding, e.completionTick ≤ st.currentHeight
    · -- the queue gets room and the amount is accepted, so the call does not fail
      exfalso
      obtain ⟨hle, hrest⟩ := hm v hv hfull hmature
      have hroom := immature_length_lt hmature
      have hfits : UnstakeFits pk amount st := by
        refine ⟨hmem, ?_, ?_, ?_⟩ <;> rw [validatorAt_of_some hv]
        · rw [roomMade, if_pos hfull]
          dsimp only
          omega
        · exact hle
        · exact hrest
      rw [(spec_unstake pk amount).ok st hfits] at h
      cases h
    · rw [roomMade, if_pos hfull, immature_eq_self hmature]
      exact put_self hv
  · rw [roomMade, if_neg hfull]
    exact put_self hv

theorem Bounded.withdraw_ok {n : ℕ} (hb : Bounded st) (h : outcome (withdraw pk) st = (.ok n, st')) :
    Bounded st' := by
  by_cases hw : WithdrawFits pk st
  · rw [outcome_withdraw hw] at h
    cases h
    unfold withdrawn
    dsimp only
    split_ifs
    · intro a w hw
      have hlook := getElem?_erase_ite st.validators pk a
      rw [hlook] at hw
      split_ifs at hw
      exact hb a w hw
    · exact hb.put ⟨(hb.at pk).1, (List.length_filter_le _ _).trans (hb.at pk).2⟩
  · obtain ⟨e, st'', herr⟩ := outcome_withdraw_err hw
    rw [herr] at h
    cases h

theorem withdraw_error_same {e : String}
    (hm : ∀ v, st.validators[pk]? = some v → (∃ e ∈ v.unbonding, e.completionTick ≤ st.currentHeight) →
      queued (v.unbonding.filter fun e => decide (e.completionTick ≤ st.currentHeight)) % u64 ≠ 0)
    (h : outcome (withdraw pk) st = (.error e, st')) : st'.validators = st.validators := by
  rcases withdraw_error h with rfl | ⟨hmem, hzero, rfl⟩
  · rfl
  obtain ⟨v, hv⟩ := Option.isSome_iff_exists.mp (Std.ExtTreeMap.mem_iff_isSome_getElem?.mp hmem)
  rw [payout, validatorAt_of_some hv, matured, sum64_eq_mod] at hzero
  by_cases hmature : ∃ e ∈ v.unbonding, e.completionTick ≤ st.currentHeight
  · exact absurd hzero (hm v hv hmature)
  · rw [validatorAt_of_some hv, drained, immature_eq_self hmature]
    exact put_self hv

theorem Bounded.unjail (hb : Bounded st) : Bounded (outcome (State.unjail pk) st).2 := by
  cases ho : outcome (State.unjail pk) st with
  | mk r st' =>
    cases r with
    | error e => rwa [unjail_error ho]
    | ok u =>
      obtain ⟨-, rfl⟩ := (spec_unjail pk).of_ok ho
      exact hb.put (hb.at pk)

end Calls

section Runs
variable {Ev : Type} {check : Ev → Except String Unit} {percentage : SlashReason → ℕ} {st : StakingState}

theorem Bounded.slashStep {reason : SlashReason} {evidence : Option Ev} {pk : Bytes} (hb : Bounded st)
    (hroomy : checkEvidence check reason evidence = .ok () → Roomy (percentage reason) st pk) :
    Bounded (Bounds.slashStep check percentage reason evidence st pk) := by
  unfold Bounds.slashStep
  cases ho : computeSlash check percentage st pk reason evidence with
  | error e =>
    rw [outcome_slashValidator_error ho]
    exact hb
  | ok o =>
    obtain ⟨hcheck, hcompute⟩ := computeSlash_eq_ok ho
    rw [outcome_slashValidator_ok ho]
    exact hb.slashed (hroomy hcheck) hcompute

theorem outcome_void {α : Type} (m : StakingM α) (st : StakingState) :
    outcome (m >>= fun _ => pure ()) st = ((outcome m st).1.map fun _ => (), (outcome m st).2) := by
  rw [outcome_bind]
  rcases outcome m st with ⟨_ | _, st'⟩ <;> rfl

/-- **A measured call keeps to the bounds.** -/
theorem Bounded.after (hb : Bounded st) {a : Action Ev} (ha : Measured check percentage st a) :
    Bounded (Bounds.after check percentage st a) := by
  cases a with
  | stake pk amount =>
    rw [Bounds.after, call]
    cases ho : outcome (stake pk amount) st with
    | mk r st' =>
      cases r with
      | error e =>
        have hsame := stake_error_same ha ho
        intro k v hv
        exact hb k v (by rwa [← hsame])
      | ok u => exact hb.stake_ok ho
  | unstake pk amount =>
    rw [Bounds.after, call]
    cases ho : outcome (unstake pk amount) st with
    | mk r st' =>
      cases r with
      | error e =>
        have hsame := unstake_error_same hb ha ho
        intro k v hv
        exact hb k v (by rwa [← hsame])
      | ok u => exact hb.unstake_ok ho
  | withdraw pk =>
    rw [Bounds.after, call, outcome_void]
    cases ho : outcome (withdraw pk) st with
    | mk r st' =>
      cases r with
      | error e =>
        have hsame := withdraw_error_same ha ho
        intro k v hv
        exact hb k v (by rwa [← hsame])
      | ok n => exact hb.withdraw_ok ho
  | slash pk reason evidence =>
    rw [Bounds.after, call, outcome_void]
    exact hb.slashStep ha
  | slashSilent requestId committed revealed =>
    exact Along.invariant (fun _ _ hb hroomy => Bounded.slashStep hb fun _ => hroomy) ha hb
  | unjail pk => exact hb.unjail
  | advanceHeight => exact hb

/-- **A measured call that fails changes no record.** -/
theorem Bounded.atomic (hb : Bounded st) {a : Action Ev} (ha : Measured check percentage st a) :
    Atomic check percentage st a := by
  intro e he
  cases a with
  | stake pk amount => exact stake_error_same ha (Prod.ext he rfl)
  | unstake pk amount => exact unstake_error_same hb ha (Prod.ext he rfl)
  | withdraw pk =>
    rw [call, outcome_void] at he
    rw [Bounds.after, call, outcome_void]
    cases ho : outcome (withdraw pk) st with
    | mk r st' =>
      cases r with
      | error e' => exact withdraw_error_same ha ho
      | ok n =>
        rw [ho] at he
        cases he
  | slash pk reason evidence =>
    rw [call, outcome_void] at he
    rw [Bounds.after, call, outcome_void]
    cases ho : computeSlash check percentage st pk reason evidence with
    | error e' => rw [outcome_slashValidator_error ho]
    | ok o =>
      rw [outcome_slashValidator_ok ho] at he
      cases he
  | slashSilent requestId committed revealed => cases he
  | unjail pk =>
    have hsame : Bounds.after check percentage st (.unjail pk) = st := unjail_error (Prod.ext he rfl)
    rw [hsame]
  | advanceHeight => cases he

end Runs

/-- **Bounds and atomicity.** In every run of measured calls from the empty state, every state reached keeps
to the bounds and every call that fails leaves the records as they are. -/
theorem bounded_of_measured {Ev : Type} (check : Ev → Except String Unit) (percentage : SlashReason → ℕ)
    (actions : List (Action Ev))
    (h : Along (after check percentage) (Measured check percentage) noStake actions) :
    Along (after check percentage) (fun st a => Bounded st ∧ Atomic check percentage st a) noStake actions ∧
      Bounded (run (after check percentage) noStake actions) := by
  have hstart : Bounded noStake := by
    intro pk v hv
    simp [noStake] at hv
  have hstep : ∀ st a, Bounded st → Measured check percentage st a → Bounded (after check percentage st a) :=
    fun _ _ hb ha => hb.after ha
  exact ⟨h.imp_of_invariant hstep (fun _ _ hb ha => ⟨hb, hb.atomic ha⟩) hstart, h.invariant hstep hstart⟩

/-! ### Sample runs -/

/-- Two validators stake, and the second is slashed for downtime. -/
def stakeAndSlash : List (Action Unit) :=
  [.stake (sampleKey 1) minValidatorStake, .stake (sampleKey 2) minValidatorStake,
    .slash (sampleKey 2) .downtime none]

def bothStaked : StakingState := run (after (fun _ : Unit => .ok ()) fun _ => 1) noStake (stakeAndSlash.take 2)

theorem roomy_bothStaked : Roomy 1 bothStaked (sampleKey 2) := by
  intro v hv
  have hrecord : bothStaked.validators[sampleKey 2]? = some ⟨minValidatorStake, [], none⟩ := by decide +kernel
  rw [hrecord] at hv
  cases hv
  have helig : eligible bothStaked (sampleKey 2) = [(sampleKey 1, minValidatorStake)] := by decide +kernel
  rw [helig]
  refine ⟨by decide +kernel, ?_, fun hnone => by cases hnone⟩
  intro e he
  rw [List.mem_singleton.mp he]
  decide +kernel

theorem bounded_sample :
    Along (after (fun _ : Unit => .ok ()) fun _ => 1)
        (fun st a => Bounded st ∧ Atomic (fun _ : Unit => .ok ()) (fun _ => 1) st a) noStake stakeAndSlash ∧
      Bounded (run (after (fun _ : Unit => .ok ()) fun _ => 1) noStake stakeAndSlash) :=
  bounded_of_measured _ _ stakeAndSlash
    ⟨.inr (.inr (by decide)), .inr (.inr (by decide)), fun _ => roomy_bothStaked, trivial⟩

/-- A new validator stakes more than the cap: the call fails and leaves an empty record. -/
theorem refused_stake_leaves_record :
    ¬ ∀ (check : Unit → Except String Unit) percentage actions,
      Along (after check percentage) (fun st a => Bounded st ∧ Atomic check percentage st a) noStake actions ∧
        Bounded (run (after check percentage) noStake actions) := by
  intro h
  obtain ⟨⟨⟨-, hatomic⟩, -⟩, -⟩ := h (fun _ => .ok ()) (fun _ => 1) [.stake (sampleKey 1) (maxValidatorStake + 1)]
  have hsame := hatomic "Exceeds maximum validator stake" (by decide +kernel)
  have hlook := congrArg (fun m : Map Bytes ValidatorStake => (m[sampleKey 1]?).isSome) hsame
  exact absurd hlook (by decide +kernel)

end TruthLinked.Staking.Bounds
