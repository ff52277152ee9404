import TruthLinked.Core.Bytes
import TruthLinked.Ledger.MergeSpec

/-! # `apply_diff` against `merge_diff_inplace`

The two functions are compared field by field. They write the same state when the diff collects no fee
and mints nothing, no hash is pruned, no parameter changes, no name vote counts, and the account records
of the diff say what the accounts already say (`Agree`). For the diffs of transactions (`Separate`) this is
also necessary. -/

namespace TruthLinked.Ledger.Agreement

open Core.Types Core.Bytes Runtime.Types Governance.Types Ledger.Model Ledger.Phases Ledger.OracleUpdates
open Ledger.Apply Ledger.AccountSpecs Ledger.StakingSpecs Ledger.ApplySpec Ledger.MergeSpec Lib.Phase
open Lib.Keyed Lib.Wp

variable {m : Accounts} {a : AccountId} {w : World} {l : List (AccountId × ℕ)}

/-! ## The accounts, record by record -/

section Records
variable (p : Pocket) (pubkey : AccountId → Bytes)

theorem runAll_creditRec_some (l : List (AccountId × ℕ)) (r : AccountRecord) :
    runAll (fun c o => some (creditRec p pubkey c o)) l (some r) =
      some (p.set r (p.amount r + (l.map Prod.snd).sum)) := by
  induction l generalizing r with
  | nil => simp [p.set_amount]
  | cons c l ih =>
    rw [runAll_cons, creditRec, Option.getD_some, ih]
    simp only [p.amount_set, p.set_set, List.map_cons, List.sum_cons]
    congr 2
    omega

theorem runAll_debitRec (l : List (AccountId × ℕ)) (o : Option AccountRecord) :
    runAll (fun c o => Option.map (debitRec p c.2) o) l o =
      o.map fun r => p.set r (p.amount r - (l.map Prod.snd).sum) := by
  induction l generalizing o with
  | nil => cases o <;> simp [p.set_amount]
  | cons c l ih =>
    rw [runAll_cons, ih]
    cases o with
    | none => rfl
    | some r =>
      simp only [Option.map_some, debitRec, p.amount_set, p.set_set, List.map_cons, List.sum_cons]
      congr 2
      omega

theorem slot_credited_some (l : List (AccountId × ℕ)) (m : Accounts) (a : AccountId)
    {r : AccountRecord} (h : slot m a = some r) :
    slot (credited p pubkey l m) a = some (p.set r (p.amount r + moved a l)) := by
  rw [credited, (local_credit p pubkey).run, h, runAll_creditRec_some]
  rfl

theorem slot_credited_paid (h : slot m a = none) (hp : Paid a l) :
    slot (credited p pubkey l m) a = some (p.set (AccountRecord.fresh (pubkey a)) (moved a l)) := by
  rw [credited, (local_credit p pubkey).run, h, moved, total]
  have hmem : ∀ c ∈ pick Prod.fst a l, c.1 = a := fun c hc => by simpa using (List.mem_filter.mp hc).2
  have hne : pick Prod.fst a l ≠ [] := by
    obtain ⟨c, hc, hca⟩ := hp
    exact fun hnil => pick_eq_nil.mp hnil c hc hca
  revert hmem hne
  cases pick Prod.fst a l with
  | nil => exact fun _ hne => absurd rfl hne
  | cons c rest =>
    intro hmem _
    rw [runAll_cons, creditRec, Option.getD_none, hmem c List.mem_cons_self, runAll_creditRec_some]
    simp only [p.amount_set, p.set_set, p.amount_fresh, List.map_cons, List.sum_cons]
    congr 2
    omega

theorem slot_credited_unpaid (hp : ¬ Paid a l) : slot (credited p pubkey l m) a = slot m a := by
  have hnil : pick Prod.fst a l = [] := pick_eq_nil.mpr fun c hc hca => hp ⟨c, hc, hca⟩
  rw [credited, (local_credit p pubkey).run, hnil, runAll_nil]

theorem slot_debited (l : List (AccountId × ℕ)) (m : Accounts) (a : AccountId) :
    slot (debited p l m) a = (slot m a).map fun r => p.set r (p.amount r - moved a l) := by
  rw [debited, (local_debit p).run]
  exact runAll_debitRec p _ _

end Records

/-- A record after the payments of its account. -/
def paidRec (d : StateDiff) (a : AccountId) (r : AccountRecord) : AccountRecord :=
  { r with
    balance := r.balance + moved a d.nativeTransfers - moved a d.nativeDebits
    computeEscrowTlkd :=
      r.computeEscrowTlkd + moved a d.computeEscrowCredits - moved a d.computeEscrowDebits }

theorem moved_unpaid (h : ¬ Paid a l) : moved a l = 0 :=
  total_eq_zero fun c hc hca => h ⟨c, hc, hca⟩

theorem slot_paidAccounts_some (pubkey : AccountId → Bytes) (d : StateDiff)
    {r : AccountRecord} (h : slot m a = some r) :
    slot (paidAccounts pubkey d m) a = some (paidRec d a r) := by
  rw [paidAccounts, slot_debited, slot_credited_some _ _ _ _ _ (r := balancePocket.set r
    (r.balance + moved a d.nativeTransfers - moved a d.nativeDebits))]
  · rfl
  · rw [slot_debited, slot_credited_some _ _ _ _ _ h]
    rfl

theorem slot_paidAccounts_new (pubkey : AccountId → Bytes) (d : StateDiff)
    (h : slot m a = none)
    (hp : Paid a d.nativeTransfers ∨ Paid a d.computeEscrowCredits) :
    slot (paidAccounts pubkey d m) a = some (paidRec d a (AccountRecord.fresh (pubkey a))) := by
  by_cases ht : Paid a d.nativeTransfers
  · rw [paidAccounts, slot_debited, slot_credited_some _ _ _ _ _ (r := balancePocket.set
      (AccountRecord.fresh (pubkey a)) (moved a d.nativeTransfers - moved a d.nativeDebits))]
    · simp [paidRec, AccountRecord.fresh, escrowPocket, balancePocket]
    · rw [slot_debited, slot_credited_paid _ _ h ht]
      rfl
  · have he := hp.resolve_left ht
    rw [paidAccounts, slot_debited, slot_credited_paid _ _ _ he]
    · simp [paidRec, AccountRecord.fresh, escrowPocket, moved_unpaid ht]
    · rw [slot_debited, slot_credited_unpaid _ _ ht, h]
      rfl

theorem slot_paidAccounts_none (pubkey : AccountId → Bytes) (d : StateDiff)
    (h : slot m a = none) (ht : ¬ Paid a d.nativeTransfers)
    (he : ¬ Paid a d.computeEscrowCredits) : slot (paidAccounts pubkey d m) a = none := by
  rw [paidAccounts, slot_debited, slot_credited_unpaid _ _ he, slot_debited, slot_credited_unpaid _ _ ht,
    h]
  rfl

/-- A nonce raised by the updates of its account. -/
def raisedNonce (d : StateDiff) (a : AccountId) (n : ℕ) : ℕ :=
  (pick Prod.fst a d.nonceUpdates).foldl (fun n u => max n u.2) n

theorem slot_raised (d : StateDiff) (m : Accounts) (a : AccountId) :
    slot (raiseNonces d.nonceUpdates m) a =
      (slot m a).map fun r => { r with nonce := raisedNonce d a r.nonce } := by
  rw [slot_raiseNonces]
  simp only [raisedNonce]
  generalize pick Prod.fst a d.nonceUpdates = l
  generalize slot m a = o
  induction l generalizing o with
  | nil => cases o <;> rfl
  | cons u l ih =>
    rw [runAll_cons, ih]
    cases o <;> rfl

theorem slot_pays (l : List (AccountId × ℕ)) (m : Accounts) (a : AccountId) :
    slot (runAll payStep l m) a = (slot m a).map fun r => { r with balance := r.balance + moved a l } := by
  rw [local_pay.run, moved, total]
  generalize pick Prod.fst a l = l'
  generalize slot m a = o
  induction l' generalizing o with
  | nil => cases o <;> rfl
  | cons u l' ih =>
    rw [runAll_cons, ih]
    cases o with
    | none => rfl
    | some r =>
      simp only [Option.map_some, List.map_cons, List.sum_cons]
      congr 2
      omega

theorem slot_replaceAccounts (updates : Map AccountId AccountRecord) (m : Accounts) (a : AccountId) :
    slot (replaceAccounts updates m) a = (slot updates a).or (slot m a) := by
  have hlocal : Local slot Prod.fst
      (fun (u : AccountId × AccountRecord) (m : Accounts) => m.insert u.1 u.2)
      (fun u _ => some u.2) :=
    ⟨fun u m => by rw [slot_insert, if_pos rfl], fun u m b h => by rw [slot_insert, if_neg h]⟩
  have h := hlocal.run a updates.toList m
  rw [pick_toList] at h
  rw [replaceAccounts]
  refine h.trans ?_
  cases slot updates a <;> rfl

/-! ## When the accounts agree -/

/-- The records of the diff say what the accounts say, and every account the diff pays exists or has a
record. `x` is the record of the diff for account `a`, `r` the account. -/
def AccountAgrees (d : StateDiff) (a : AccountId) : Option AccountRecord → Option AccountRecord → Prop
  | none, some _ => True
  | none, none => ¬ Paid a d.nativeTransfers ∧ ¬ Paid a d.computeEscrowCredits
  | some x, some r => (r.pubkeyBytes = [] ∨ x.pubkeyBytes = r.pubkeyBytes) ∧ x.balance = r.balance ∧
    x.computeEscrowTlkd = r.computeEscrowTlkd ∧ raisedNonce d a x.nonce = raisedNonce d a r.nonce
  | some x, none => Paid a d.nativeTransfers ∨ Paid a d.computeEscrowCredits →
    x.balance = 0 ∧ x.computeEscrowTlkd = 0 ∧ raisedNonce d a x.nonce = raisedNonce d a 0

/-- `AccountAgrees` for every account. -/
def AccountsAgree (d : StateDiff) (m : Accounts) : Prop :=
  ∀ a, AccountAgrees d a (slot d.accountUpdates a) (slot m a)

/-- A record with its nonce raised and a payout added. -/
def bumpRec (d : StateDiff) (a : AccountId) (pay : ℕ) (r : AccountRecord) : AccountRecord :=
  { r with nonce := raisedNonce d a r.nonce, balance := r.balance + pay }

section Accounts
variable {env : Env} {d : StateDiff} {s : State}

theorem slot_applied (a : AccountId) :
    slot (runAll payStep (payouts env d.stakingUpdates s.staking) (appliedAccounts d s.accounts)) a =
      (match slot d.accountUpdates a with
        | some u => some (patchRec u (slot (paidAccounts (fun _ => []) d s.accounts) a))
        | none => slot (paidAccounts (fun _ => []) d s.accounts) a).map
        (bumpRec d a (moved a (payouts env d.stakingUpdates s.staking))) := by
  rw [slot_pays, appliedAccounts, slot_raised, slot_patchAccounts, Option.map_map]
  rfl

theorem slot_recorded (a : AccountId) :
    slot (recordedAccounts env d s) a =
      ((slot d.accountUpdates a).or (slot s.accounts a)).map
        (bumpRec d a (moved a (payouts env d.stakingUpdates s.staking))) := by
  rw [recordedAccounts, slot_pays, mergeRecords, slot_raised, slot_replaceAccounts, Option.map_map]
  rfl

/-- What an account pays is covered, and nothing is paid by one that does not exist. -/
theorem covered_of_fit (h : AccountsFit d m) (a : AccountId) :
    moved a d.nativeDebits ≤ balanceOf m a + moved a d.nativeTransfers ∧
    moved a d.computeEscrowDebits ≤ escrowOf m a + moved a d.computeEscrowCredits := by
  constructor
  · by_cases hp : Paid a d.nativeDebits
    · obtain ⟨c, hc, rfl⟩ := hp
      exact (h.debits c hc).2
    · rw [moved_unpaid hp]
      exact Nat.zero_le _
  · by_cases hp : Paid a d.computeEscrowDebits
    · obtain ⟨c, hc, rfl⟩ := hp
      exact (h.escrowDebits c hc).2
    · rw [moved_unpaid hp]
      exact Nat.zero_le _

theorem quiet_of_fit (h : AccountsFit d m) (hm : slot m a = none)
    (ht : ¬ Paid a d.nativeTransfers) (he : ¬ Paid a d.computeEscrowCredits) :
    moved a d.nativeDebits = 0 ∧ moved a d.computeEscrowDebits = 0 := by
  constructor
  · refine moved_unpaid ?_
    rintro ⟨c, hc, rfl⟩
    have := (h.debits c hc).1
    simp [hm, ht] at this
  · refine moved_unpaid ?_
    rintro ⟨c, hc, rfl⟩
    have := (h.escrowDebits c hc).1
    simp [hm, ht, he] at this

/-- **When the accounts agree**, for a diff that goes through both functions. -/
theorem accounts_eq_iff (hA : AccountsFit d s.accounts) (hM : AccountsFit d (recordedAccounts env d s)) :
    runAll payStep (payouts env d.stakingUpdates s.staking) (appliedAccounts d s.accounts) =
      mergedAccounts env d s ↔ AccountsAgree d s.accounts := by
  have hslots : runAll payStep (payouts env d.stakingUpdates s.staking) (appliedAccounts d s.accounts) =
      mergedAccounts env d s ↔ ∀ a, slot (runAll payStep (payouts env d.stakingUpdates s.staking)
        (appliedAccounts d s.accounts)) a = slot (mergedAccounts env d s) a :=
    ⟨fun h a => by rw [h], slot_ext⟩
  rw [hslots, AccountsAgree]
  refine forall_congr' fun a => ?_
  obtain ⟨hcov, hcovE⟩ := covered_of_fit hA a
  obtain ⟨hcov', hcovE'⟩ := covered_of_fit hM a
  have hrec := @slot_recorded env d s a
  rw [slot_applied, mergedAccounts]
  simp only [balanceOf, escrowOf, hrec] at hcov hcovE hcov' hcovE'
  cases hu : slot d.accountUpdates a with
  | none =>
    cases ho : slot s.accounts a with
    | none =>
      rw [hu, ho] at hrec
      simp only [AccountAgrees]
      by_cases hp : Paid a d.nativeTransfers ∨ Paid a d.computeEscrowCredits
      · rw [slot_paidAccounts_new _ d ho hp, slot_paidAccounts_new _ d hrec hp]
        have hne := ofBytes32_ne_nil a
        simp only [Option.map_some, Option.some.injEq, bumpRec, paidRec, AccountRecord.fresh,
          AccountRecord.mk.injEq]
        constructor
        · intro h
          exact absurd h.1.symm hne
        · intro h
          exact absurd hp (not_or.mpr h)
      · rw [not_or] at hp
        rw [slot_paidAccounts_none _ d ho hp.1 hp.2, slot_paidAccounts_none _ d hrec hp.1 hp.2]
        exact ⟨fun _ => hp, fun _ => rfl⟩
    | some r =>
      rw [hu, ho] at hrec
      rw [slot_paidAccounts_some _ d ho, slot_paidAccounts_some _ d hrec]
      simp only [ho, Pocket.held, Option.elim_some, balancePocket] at hcov
      simp only [Option.map_some, bumpRec, paidRec, AccountAgrees, iff_true]
      congr 2
      omega
  | some x =>
    cases ho : slot s.accounts a with
    | none =>
      rw [hu, ho] at hrec
      rw [slot_paidAccounts_some _ d hrec]
      simp only [AccountAgrees]
      simp only [ho, hu, Pocket.held, Option.elim_none, Option.or_none, Option.map_some,
        Option.elim_some, balancePocket, escrowPocket, bumpRec] at hcov hcovE hcov' hcovE'
      by_cases hp : Paid a d.nativeTransfers ∨ Paid a d.computeEscrowCredits
      · rw [slot_paidAccounts_new _ d ho hp]
        simp only [Option.map_some, Option.some.injEq, bumpRec, patchRec, paidRec, AccountRecord.fresh,
          AccountRecord.mk.injEq, if_true, true_and, and_true, hp, true_implies]
        constructor
        · rintro ⟨hb, he, hn⟩
          exact ⟨by omega, by omega, hn.symm⟩
        · rintro ⟨hb, he, hn⟩
          exact ⟨by omega, by omega, hn.symm⟩
      · have hp' := not_or.mp hp
        obtain ⟨hd, hde⟩ := quiet_of_fit hA ho hp'.1 hp'.2
        rw [slot_paidAccounts_none _ d ho hp'.1 hp'.2]
        simp only [Option.map_some, patchRec, bumpRec, paidRec, moved_unpaid hp'.1, moved_unpaid hp'.2,
          hd, hde, Nat.add_zero, Nat.sub_zero, hp, false_implies]
    | some r =>
      rw [hu, ho] at hrec
      rw [slot_paidAccounts_some _ d ho, slot_paidAccounts_some _ d hrec]
      simp only [ho, hu, Pocket.held, Option.or_some, Option.map_some, Option.elim_some, Option.getD_some,
        balancePocket, escrowPocket, bumpRec] at hcov hcovE hcov' hcovE'
      simp only [Option.map_some, Option.some.injEq, bumpRec, patchRec, paidRec, AccountRecord.mk.injEq,
        AccountAgrees, and_true]
      constructor
      · rintro ⟨hpk, hb, he, hn⟩
        refine ⟨?_, by omega, by omega, hn.symm⟩
        by_cases hnil : r.pubkeyBytes = []
        · exact .inl hnil
        · exact .inr ((if_neg hnil).symm.trans hpk).symm
      · rintro ⟨hpk, hb, he, hn⟩
        refine ⟨?_, by omega, by omega, hn.symm⟩
        by_cases hnil : r.pubkeyBytes = []
        · exact if_pos hnil
        · exact (if_neg hnil).trans (hpk.resolve_left hnil).symm

end Accounts

/-! ## The whole state -/

/-- The fields, apart from the accounts, in which the two functions can differ. -/
structure Agree (d : StateDiff) (w : World) : Prop where
  accounts : AccountsAgree d w.state.accounts
  hashes : (recordTransaction d w.state).executedTxHashes = (recordHashes d w.state).executedTxHashes
  epoch : (recordTransaction d w.state).accumulatedEpochFees = w.state.accumulatedEpochFees
  minted : (countMinted d.mintedAmount w.state).totalMinted = w.state.totalMinted
  params : (updateParams d.paramUpdates w).state.params = w.state.params
  votes : ∀ v ∈ d.nameVotes, ∀ p, w.state.pendingNames[v.1]? = some p → v.2.1 ∈ p.votes

/-- The state of `apply_diff` before its name loops. -/
def appliedFees (env : Env) (d : StateDiff) (w : World) : State :=
  spent d (payNameFee env d.nameFee (beforeNameFee env d w).state)

/-- The state of `merge_diff_inplace` before its name loops. -/
def mergedFees (env : Env) (d : StateDiff) (w : World) : State :=
  recordHashes d (spent d (payNameFee env d.nameFee (collected d (mergedBalances env d w).state)))

/-- Up to the accounts, the hashes, the epoch fees and the parameters, the two states are the same. -/
theorem appliedFees_eq (env : Env) (d : StateDiff) (w : World) :
    appliedFees env d w =
      { mergedFees env d w with
        accounts := runAll payStep (payouts env d.stakingUpdates w.state.staking)
          (appliedAccounts d w.state.accounts)
        executedTxHashes := (recordTransaction d w.state).executedTxHashes
        accumulatedEpochFees := (recordTransaction d w.state).accumulatedEpochFees
        params := (updateParams d.paramUpdates w).state.params } := by
  by_cases hsys : d.isSystem = true
  · simp only [appliedFees, mergedFees, beforeNameFee, mergedBalances, recordTransaction, recordHashes,
      collected, hsys, if_true, World.onState, updateParams, balanced, payNameFee, spent]
    split_ifs <;> rfl
  · have hfalse : d.isSystem = false := by simpa using hsys
    simp only [appliedFees, mergedFees, beforeNameFee, mergedBalances, recordTransaction, recordHashes,
      collected, hfalse, Bool.false_eq_true, if_false, World.onState, updateParams, balanced, payNameFee,
      spent, collectFees, collectEpochFees]
    split_ifs <;> rfl

theorem mergedFees_frame (env : Env) (d : StateDiff) (w : World) :
    (mergedFees env d w).executedTxHashes = (recordHashes d w.state).executedTxHashes ∧
    (mergedFees env d w).accumulatedEpochFees = w.state.accumulatedEpochFees ∧
    (mergedFees env d w).params = w.state.params ∧
    (mergedFees env d w).accounts = mergedAccounts env d w.state ∧
    (mergedFees env d w).totalMinted = w.state.totalMinted ∧
    (mergedFees env d w).pendingNames = w.state.pendingNames := by
  simp only [mergedFees, mergedBalances, recordHashes, collected, World.onState, balanced, payNameFee,
    spent, collectFees]
  split_ifs <;> exact ⟨rfl, rfl, rfl, rfl, rfl, rfl⟩

/-! ## Name votes -/

/-- The vote is counted already, or its name is not pending. -/
def Counted (v : String × Bytes × ℕ) (pending : Map String PendingNameRegistration) : Prop :=
  ∀ p, pending[v.1]? = some p → v.2.1 ∈ p.votes

theorem nameVote_of_counted {e t total : ℕ} {n : Names} {v : String × Bytes × ℕ}
    (h : Counted v n.pending) : nameVote e t total n v = n := by
  rw [nameVote]
  cases hp : n.pending[v.1]? with
  | none => rfl
  | some p =>
    simp only
    rw [if_pos (h p hp)]

theorem counted_nameVote (e t total : ℕ) (n : Names) (v : String × Bytes × ℕ) :
    Counted v (nameVote e t total n v).pending := by
  intro p hp
  rw [nameVote] at hp
  cases hn : n.pending[v.1]? with
  | none =>
    simp only [hn] at hp
    cases hp
  | some q =>
    simp only [hn] at hp
    split_ifs at hp with hmem happ
    · rw [hn] at hp
      cases hp
      exact hmem
    · rw [Std.ExtTreeMap.getElem?_erase_self] at hp
      cases hp
    · rw [Std.ExtTreeMap.getElem?_insert_self] at hp
      cases hp
      exact Std.ExtTreeSet.mem_insert_self

theorem counted_keeps (e t total : ℕ) (n : Names) (u v : String × Bytes × ℕ)
    (h : Counted v n.pending) : Counted v (nameVote e t total n u).pending := by
  by_cases huv : u.1 = v.1
  · intro p hp
    rw [nameVote] at hp
    cases hn : n.pending[u.1]? with
    | none =>
      simp only [hn] at hp
      exact h p hp
    | some q =>
      have hq : v.2.1 ∈ q.votes := h q (by rw [← huv]; exact hn)
      simp only [hn] at hp
      split_ifs at hp with hmem happ
      · exact h p hp
      · rw [huv, Std.ExtTreeMap.getElem?_erase_self] at hp
        cases hp
      · rw [huv, Std.ExtTreeMap.getElem?_insert_self] at hp
        cases hp
        exact Std.ExtTreeSet.mem_insert.mpr (.inr hq)
  · intro p hp
    refine h p ?_
    rw [nameVote] at hp
    cases hn : n.pending[u.1]? with
    | none =>
      simp only [hn] at hp
      exact hp
    | some q =>
      simp only [hn] at hp
      split_ifs at hp with hmem happ
      · exact hp
      · rwa [Std.ExtTreeMap.getElem?_erase, if_neg (by simpa using huv)] at hp
      · rwa [Std.ExtTreeMap.getElem?_insert, if_neg (by simpa using huv)] at hp

theorem nameVotes_of_counted {e t : ℕ} {votes : List (String × Bytes × ℕ)} {s : State}
    (h : ∀ v ∈ votes, Counted v s.pendingNames) : nameVotes e t votes s = s := by
  have hfold : votes.foldl (nameVote e t s.staking.activeTotal) ⟨s.nameRegistry, s.pendingNames⟩ =
      ⟨s.nameRegistry, s.pendingNames⟩ := by
    induction votes with
    | nil => rfl
    | cons v votes ih =>
      rw [List.foldl_cons, nameVote_of_counted (h v List.mem_cons_self)]
      exact ih fun u hu => h u (List.mem_cons_of_mem v hu)
  simp only [nameVotes, hfold]

theorem nameVotes_pending_iff (e t : ℕ) (votes : List (String × Bytes × ℕ)) (s : State) :
    (nameVotes e t votes s).pendingNames = s.pendingNames ↔ ∀ v ∈ votes, Counted v s.pendingNames := by
  constructor
  · intro h v hv
    rw [← h]
    obtain ⟨l, l', rfl⟩ := List.append_of_mem hv
    simp only [nameVotes, List.foldl_append, List.foldl_cons]
    exact runAll_keeps (E := fun v n => nameVote e t s.staking.activeTotal n v)
      (P := fun n => Counted v n.pending) (fun u _ n hn => counted_keeps _ _ _ n u v hn) _
      (counted_nameVote _ _ _ _ v)
  · intro h
    rw [nameVotes_of_counted h]

/-! ## What the last loops leave alone -/

/-- The fields that neither the name loops nor the oracle updates write, apart from the two exceptions
noted with the lemmas. -/
structure Quiet where
  executedTxHashes : FSet Bytes32
  accumulatedEpochFees : ℕ
  params : Map Bytes32 Bytes32

/-- The quiet fields of a state. -/
def quiet (s : State) : Quiet := ⟨s.executedTxHashes, s.accumulatedEpochFees, s.params⟩

/-- The counters that the oracle updates do not write. -/
def counters (s : State) : ℕ × Map String PendingNameRegistration := (s.totalMinted, s.pendingNames)

theorem quiet_applyNames (env : Env) (d : StateDiff) (w : World) :
    quiet (applyNames env d w).state = quiet w.state ∧
    (applyNames env d w).state.accounts = w.state.accounts ∧
    counters (applyNames env d w).state =
      ((countMinted d.mintedAmount w.state).totalMinted, w.state.pendingNames) := by
  simp only [applyNames, World.onState_state, freezeAccounts, countMinted, settleNames, recordClaims,
    transferNames, renewNames, tokenAuthorityVotes, proposeNames, addTokenAuthorityProposals,
    registerNames, quiet, counters, and_self]

theorem quiet_mergeNames (env : Env) (d : StateDiff) (w : World) :
    quiet (mergeNames env d w).state = quiet w.state ∧
    (mergeNames env d w).state.accounts = w.state.accounts ∧
    (mergeNames env d w).state.totalMinted = w.state.totalMinted := by
  simp only [mergeNames, World.onState_state, freezeAccounts, settleNames, recordClaims, nameVotes,
    transferNames, renewNames, tokenAuthorityVotes, proposeNames, addTokenAuthorityProposals,
    registerNames, quiet, and_self]

theorem pendingNames_mergeNames (env : Env) (d : StateDiff) (w : World) :
    ∃ e t s, s.pendingNames = w.state.pendingNames ∧
      (mergeNames env d w).state.pendingNames = (nameVotes e t d.nameVotes s).pendingNames := by
  refine ⟨w.globals.getU64 env "name.expiration_blocks", w.globals.getU64 env "name.approval_threshold",
    proposeNames (w.globals.getU64 env "name.expiration_blocks") d w.state, ?_, ?_⟩
  · simp only [proposeNames, addTokenAuthorityProposals, registerNames]
  · simp only [mergeNames, World.onState_state, freezeAccounts, settleNames, recordClaims,
      transferNames, renewNames, tokenAuthorityVotes]

/-- The oracle updates that can move money: those that slash a bond. -/
def MovesMoney : OracleUpdate → Prop
  | .voteUrlProposal .. | .slashUrlProposer _ => True
  | _ => False

/-- The second state, with the accounts and what the oracle keeps taken from the first. -/
def besideOracle (s s' : State) : State :=
  { s' with
    accounts := s.accounts
    pendingOracleRequests := s.pendingOracleRequests
    oraclePending := s.oraclePending
    oracleResults := s.oracleResults
    urlProposals := s.urlProposals
    schemaProposals := s.schemaProposals
    schemaRegistry := s.schemaRegistry
    cellVisibility := s.cellVisibility }

theorem of_beside {β : Type} {v : State → β} {s s' : State} (hv : ∀ t, v (besideOracle s t) = v t)
    (h : besideOracle s s' = s) : v s' = v s := (hv s').symm.trans (congrArg v h)

theorem beside_trans {s t u : State} (h : besideOracle s t = s) (h' : besideOracle t u = t) :
    besideOracle s u = s := (of_beside (v := besideOracle s) (fun _ => rfl) h').trans h

theorem beside_slashBond (env : Env) (pattern : String) (p : UrlProposal) (w : World) :
    besideOracle w.state (slashBond env pattern p w).state = w.state := by
  simp only [slashBond, distributeUrlSlashEqually]
  split_ifs <;> rfl

/-- Oracle updates change the accounts and what the oracle keeps, nothing else. -/
theorem beside_oracleEffect (env : Env) (u : OracleUpdate) (w : World) :
    besideOracle w.state (oracleEffect env u w).state = w.state := by
  cases u with
  | slashUrlProposer pattern =>
    simp only [oracleEffect]
    split
    · exact beside_slashBond env _ _ w
    · rfl
  | voteUrlProposal pattern voter m n =>
    simp only [oracleEffect, oracleStep, voteUrlProposal]
    split
    · rfl
    · split_ifs
      · rfl
      · rfl
      · refine beside_trans ?_ (beside_slashBond env _ _ _)
        rfl
      · rfl
  | addReveal requestId reveal =>
    simp only [oracleEffect, oracleStep, finalizeOracleRequestIfReady]
    split
    · split <;> rfl
    · rfl
  | voteSchemaProposal schemaId voter m n =>
    simp only [oracleEffect, oracleStep, World.onState_state, voteSchemaProposal]
    split
    · rfl
    · split_ifs <;> rfl
  | _ => rfl

theorem quiet_slashBond (env : Env) (pattern : String) (p : UrlProposal) (w : World) :
    quiet (slashBond env pattern p w).state = quiet w.state :=
  of_beside (fun _ => rfl) (beside_slashBond env pattern p w)

theorem quiet_oracleEffect (env : Env) (u : OracleUpdate) (w : World) :
    quiet (oracleEffect env u w).state = quiet w.state ∧
    counters (oracleEffect env u w).state = counters w.state :=
  ⟨of_beside (fun _ => rfl) (beside_oracleEffect env u w), of_beside (fun _ => rfl) (beside_oracleEffect env u w)⟩

theorem accounts_oracleEffect (env : Env) {u : OracleUpdate} (h : ¬ MovesMoney u) (w : World) :
    (oracleEffect env u w).state.accounts = w.state.accounts := by
  cases u with
  | slashUrlProposer pattern => exact absurd trivial h
  | voteUrlProposal pattern voter m n => exact absurd trivial h
  | addReveal requestId reveal =>
    simp only [oracleEffect, oracleStep, finalizeOracleRequestIfReady]
    split
    · split <;> rfl
    · rfl
  | voteSchemaProposal schemaId voter m n =>
    simp only [oracleEffect, oracleStep, World.onState_state, voteSchemaProposal]
    split
    · rfl
    · split_ifs <;> rfl
  | _ => rfl

/-! ## The two functions -/

/-- What a diff of one transaction keeps apart: parameter updates come without the updates that read
parameters, and a diff whose oracle updates may slash a bond has no account record that differs. -/
structure Separate (d : StateDiff) (s : State) : Prop where
  params : d.paramUpdates ≠ [] → d.pendingNameProposals = [] ∧ d.nameRenewals = [] ∧
    d.tokenAuthorityVotes = [] ∧ d.oracleUpdates = []
  money : (∃ u ∈ d.oracleUpdates, MovesMoney u) → AccountsAgree d s.accounts

/-- Both functions are refused, or both go through with the same state. -/
def DiffsAgree (env : Env) (d : StateDiff) (w : World) : Prop :=
  match outcome (applyDiff env d) w, outcome (mergeDiffInplace env d) w with
  | (.ok (), w₁), (.ok (), w₂) => w₁.state = w₂.state
  | (.error _, _), (.error _, _) => True
  | _, _ => False

theorem applied_eq (env : Env) (d : StateDiff) (w : World) :
    applied env d w = runAll (oracleEffect env) d.oracleUpdates
      (applyNames env d ⟨appliedFees env d w, (updateParams d.paramUpdates w).globals⟩) := rfl

theorem merged_eq (env : Env) (d : StateDiff) (w : World) :
    merged env d w = runAll (oracleEffect env) d.oracleUpdates
      (mergeNames env d ⟨mergedFees env d w, w.globals⟩) := rfl

theorem countMinted_of_eq {m : ℕ} {s s' : State} (h : (countMinted m s).totalMinted = s.totalMinted)
    (hs : s'.totalMinted = s.totalMinted) : countMinted m s' = s' := by
  simp only [countMinted] at h ⊢
  rw [hs, h, ← hs]

theorem accounts_applied (env : Env) {d : StateDiff} (hstaking : d.stakingUpdates = [])
    (horacle : d.oracleUpdates = [])
    (w : World) : (applied env d w).state.accounts = appliedAccounts d w.state.accounts := by
  rw [applied_eq, horacle, runAll_nil, (quiet_applyNames env d _).2.1, appliedFees_eq, hstaking]
  rfl

theorem applyNames_eq_mergeNames (env : Env) {d : StateDiff}
    (hv : ∀ v ∈ d.nameVotes, Counted v w.state.pendingNames)
    (hm : (countMinted d.mintedAmount w.state).totalMinted = w.state.totalMinted) :
    applyNames env d w = mergeNames env d w := by
  simp only [applyNames, mergeNames, World.onState]
  have hvotes : ∀ e t, nameVotes e t d.nameVotes
      (proposeNames (w.globals.getU64 env "name.expiration_blocks") d w.state) =
        proposeNames (w.globals.getU64 env "name.expiration_blocks") d w.state := by
    intro e t
    refine nameVotes_of_counted ?_
    simp only [proposeNames, addTokenAuthorityProposals, registerNames]
    exact hv
  rw [hvotes, countMinted_of_eq hm]
  simp only [settleNames, recordClaims, transferNames, renewNames, tokenAuthorityVotes, proposeNames,
    addTokenAuthorityProposals, registerNames]

/-- Without updates that read parameters, the name loops of `apply_diff` do not depend on the cache. -/
theorem applyNames_globals (env : Env) {d : StateDiff} (s : State) (g g' : Globals)
    (hp : d.pendingNameProposals = []) (hr : d.nameRenewals = []) (ht : d.tokenAuthorityVotes = []) :
    (applyNames env d ⟨s, g⟩).state = (applyNames env d ⟨s, g'⟩).state := by
  simp only [applyNames, World.onState_state, settleNames, proposeNames, registerNames, renewNames,
    tokenAuthorityVotes, hp, hr, ht, List.foldl_nil]

theorem applied_state_of_agree {env : Env} {d : StateDiff} (hsep : Separate d w.state)
    (hA : AccountsFit d w.state.accounts) (hM : AccountsFit d (recordedAccounts env d w.state))
    (h : Agree d w) : (applied env d w).state = (merged env d w).state := by
  obtain ⟨hhashes, hepoch, hparams, haccounts, hminted, hpending⟩ := mergedFees_frame env d w
  have hfees : appliedFees env d w = mergedFees env d w := by
    rw [appliedFees_eq, (accounts_eq_iff hA hM).mpr h.accounts, h.hashes, h.epoch, h.params,
      ← haccounts, ← hhashes, ← hepoch, ← hparams]
  have hnames : ∀ g, applyNames env d ⟨mergedFees env d w, g⟩ =
      mergeNames env d ⟨mergedFees env d w, g⟩ := by
    intro g
    refine applyNames_eq_mergeNames env ?_ ?_
    · intro v hv p hp
      exact h.votes v hv p (hpending ▸ hp)
    · rw [countMinted_of_eq h.minted hminted]
  rw [applied_eq, merged_eq, hfees, ← hnames]
  by_cases hp : d.paramUpdates = []
  · rw [hp]
    rfl
  · obtain ⟨h1, h2, h3, h4⟩ := hsep.params hp
    rw [h4]
    exact applyNames_globals env _ _ _ h1 h2 h3

theorem quiet_applied (env : Env) (d : StateDiff) (w : World) :
    quiet (applied env d w).state = quiet (appliedFees env d w) ∧
    counters (applied env d w).state =
      ((countMinted d.mintedAmount (appliedFees env d w)).totalMinted,
        (appliedFees env d w).pendingNames) := by
  have hrun := runAll_frame (v := fun w : World => (quiet w.state, counters w.state))
    (fun u w => Prod.ext (quiet_oracleEffect env u w).1 (quiet_oracleEffect env u w).2) d.oracleUpdates
    (applyNames env d ⟨appliedFees env d w, (updateParams d.paramUpdates w).globals⟩)
  rw [applied_eq]
  have hnames := quiet_applyNames env d ⟨appliedFees env d w, (updateParams d.paramUpdates w).globals⟩
  exact ⟨(congrArg Prod.fst hrun).trans hnames.1, (congrArg Prod.snd hrun).trans hnames.2.2⟩

theorem quiet_merged (env : Env) (d : StateDiff) (w : World) :
    quiet (merged env d w).state = quiet (mergedFees env d w) ∧
    counters (merged env d w).state =
      ((mergedFees env d w).totalMinted,
        (mergeNames env d ⟨mergedFees env d w, w.globals⟩).state.pendingNames) := by
  have hrun := runAll_frame (v := fun w : World => (quiet w.state, counters w.state))
    (fun u w => Prod.ext (quiet_oracleEffect env u w).1 (quiet_oracleEffect env u w).2) d.oracleUpdates
    (mergeNames env d ⟨mergedFees env d w, w.globals⟩)
  rw [merged_eq]
  have hnames := quiet_mergeNames env d ⟨mergedFees env d w, w.globals⟩
  refine ⟨(congrArg Prod.fst hrun).trans hnames.1, (congrArg Prod.snd hrun).trans ?_⟩
  exact Prod.ext hnames.2.2 rfl

/-- The accounts of the two results, when no bond can be slashed. -/
theorem accounts_runAll_oracle (env : Env) {us : List OracleUpdate} (h : ¬ ∃ u ∈ us, MovesMoney u)
    (w : World) : (runAll (oracleEffect env) us w).state.accounts = w.state.accounts :=
  runAll_keeps (P := fun w' : World => w'.state.accounts = w.state.accounts)
    (fun u hu w' hw' => (accounts_oracleEffect env (fun hm => h ⟨u, hu, hm⟩) w').trans hw') w rfl

theorem agree_of_applied_state {env : Env} {d : StateDiff} (hsep : Separate d w.state)
    (hA : AccountsFit d w.state.accounts) (hM : AccountsFit d (recordedAccounts env d w.state))
    (h : (applied env d w).state = (merged env d w).state) : Agree d w := by
  obtain ⟨hhashes, hepoch, hparams, haccounts, hminted, hpending⟩ := mergedFees_frame env d w
  obtain ⟨hqa, hca⟩ := quiet_applied env d w
  obtain ⟨hqm, hcm⟩ := quiet_merged env d w
  have hq : quiet (appliedFees env d w) = quiet (mergedFees env d w) := by rw [← hqa, ← hqm, h]
  have hc := hca.symm.trans ((congrArg counters h).trans hcm)
  rw [appliedFees_eq] at hq hc
  have hpend : (mergeNames env d ⟨mergedFees env d w, w.globals⟩).state.pendingNames =
      w.state.pendingNames :=
    (congrArg Prod.snd hc).symm.trans hpending
  refine ⟨?_, ?_, ?_, ?_, ?_, ?_⟩
  · by_cases hm : ∃ u ∈ d.oracleUpdates, MovesMoney u
    · exact hsep.money hm
    · have hacc := congrArg State.accounts h
      rw [applied_eq, merged_eq, accounts_runAll_oracle env hm, accounts_runAll_oracle env hm,
        (quiet_applyNames env d _).2.1, (quiet_mergeNames env d _).2.1, appliedFees_eq,
        haccounts] at hacc
      exact (accounts_eq_iff hA hM).mp hacc
  · exact (congrArg Quiet.executedTxHashes hq).trans hhashes
  · exact (congrArg Quiet.accumulatedEpochFees hq).trans hepoch
  · have hm := (congrArg Prod.fst hc).trans hminted
    simp only [countMinted, hminted] at hm
    exact hm
  · exact (congrArg Quiet.params hq).trans hparams
  · obtain ⟨e, t, s, hs, hv⟩ := pendingNames_mergeNames env d ⟨mergedFees env d w, w.globals⟩
    have hs' : s.pendingNames = w.state.pendingNames := hs.trans hpending
    have hcount := (nameVotes_pending_iff e t d.nameVotes s).mp (by rw [← hv, hpend, hs'])
    exact fun v hv p hp => hcount v hv p (hs' ▸ hp)

/-- **When the two functions agree** on the diff of a transaction. -/
theorem diffsAgree_iff {env : Env} {d : StateDiff} (hsep : Separate d w.state) :
    DiffsAgree env d w ↔ (¬ Applicable env d w.state ∧ ¬ Mergeable env d w.state) ∨
      (Applicable env d w.state ∧ Mergeable env d w.state ∧ Agree d w) := by
  by_cases hA : Applicable env d w.state
  · have ha := (spec_applyDiff env d).ok w hA
    by_cases hM : Mergeable env d w.state
    · have hm := (spec_mergeDiffInplace env d).ok w hM
      simp only [DiffsAgree, ha, hm]
      constructor
      · intro h
        exact .inr ⟨hA, hM, agree_of_applied_state hsep hA.accounts hM.accounts h⟩
      · rintro (⟨h, -⟩ | ⟨-, -, h⟩)
        · exact absurd hA h
        · exact applied_state_of_agree hsep hA.accounts hM.accounts h
    · obtain ⟨e, w', hm⟩ := (spec_mergeDiffInplace env d).err w hM
      simp [DiffsAgree, ha, hm, hA, hM]
  · obtain ⟨e, w', ha⟩ := (spec_applyDiff env d).err w hA
    by_cases hM : Mergeable env d w.state
    · have hm := (spec_mergeDiffInplace env d).ok w hM
      simp [DiffsAgree, ha, hm, hA, hM]
    · obtain ⟨e', w'', hm⟩ := (spec_mergeDiffInplace env d).err w hM
      simp [DiffsAgree, ha, hm, hA, hM]

end TruthLinked.Ledger.Agreement
