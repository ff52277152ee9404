import TruthLinked.Ledger.Apply
import TruthLinked.Lib.Keyed

/-! # When the account phases go through

Credits fit when no account overflows, debits when the account exists and covers them; both are sums over
the list. The accounts part of `apply_diff` goes through exactly when the four lists do. -/

namespace TruthLinked.Ledger.AccountSpecs

open Core.Types Runtime.Types Ledger.Model Ledger.Phases Ledger.Apply Lib.Phase Lib.Keyed Lib.Wp

/-! ## Credits and debits -/

/-- What an account holds in a pocket; a missing account holds nothing. -/
def Pocket.held (p : Pocket) (o : Option AccountRecord) : ℕ := o.elim 0 p.amount

/-- The record after a credit. -/
def creditRec (p : Pocket) (pubkey : AccountId → Bytes) (c : AccountId × ℕ)
    (o : Option AccountRecord) : AccountRecord :=
  let r := o.getD (AccountRecord.fresh (pubkey c.1))
  p.set r (p.amount r + c.2)

/-- The accounts after a credit. -/
def creditStep (p : Pocket) (pubkey : AccountId → Bytes) (c : AccountId × ℕ) (m : Accounts) : Accounts :=
  m.insert c.1 (creditRec p pubkey c m[c.1]?)

/-- The record after a debit. -/
def debitRec (p : Pocket) (n : ℕ) (r : AccountRecord) : AccountRecord := p.set r (p.amount r - n)

/-- The accounts after a debit. -/
def debitStep (p : Pocket) (c : AccountId × ℕ) (m : Accounts) : Accounts :=
  m.modify c.1 (debitRec p c.2)

theorem held_getD (p : Pocket) (o : Option AccountRecord) (pubkey : Bytes) :
    p.amount (o.getD (AccountRecord.fresh pubkey)) = Pocket.held p o := by
  cases o with
  | none => exact p.amount_fresh pubkey
  | some r => rfl

theorem held_creditRec (p : Pocket) (pubkey : AccountId → Bytes) (c : AccountId × ℕ)
    (o : Option AccountRecord) :
    Pocket.held p (some (creditRec p pubkey c o)) = Pocket.held p o + c.2 := by
  show p.amount (p.set _ _) = _
  rw [p.amount_set, held_getD]

theorem held_debitRec (p : Pocket) (n : ℕ) (o : Option AccountRecord) :
    Pocket.held p (o.map (debitRec p n)) = Pocket.held p o - n := by
  cases o with
  | none => simp [Pocket.held]
  | some r => exact p.amount_set r _

theorem spec_credit (p : Pocket) (pubkey : AccountId → Bytes) (overflow : String) (c : AccountId × ℕ) :
    Spec (credit p pubkey overflow c) (fun m => Pocket.held p (slot m c.1) + c.2 < u128)
      (creditStep p pubkey c) where
  ok m h := by
    have hadd : checkedAdd (p.amount ((m[c.1]?).getD (AccountRecord.fresh (pubkey c.1)))) c.2 =
        some (p.amount ((m[c.1]?).getD (AccountRecord.fresh (pubkey c.1))) + c.2) := by
      rw [checkedAdd, held_getD]
      exact if_pos h
    simp only [credit, outcome_bind, outcome_get, outcome_modify, hadd]
    refine Prod.ext rfl (slot_ext fun a => ?_)
    simp only [creditStep, creditRec, slot_insert]
    split_ifs <;> rfl
  err m h := by
    have hadd : checkedAdd (p.amount ((m[c.1]?).getD (AccountRecord.fresh (pubkey c.1)))) c.2 =
        none := by
      rw [checkedAdd, held_getD]
      exact if_neg h
    simp only [credit, outcome_bind, outcome_get, outcome_modify, hadd]
    exact ⟨_, _, rfl⟩

theorem local_credit (p : Pocket) (pubkey : AccountId → Bytes) :
    Local slot Prod.fst (creditStep p pubkey) (fun c o => some (creditRec p pubkey c o)) where
  at_key c m := by rw [creditStep, slot_insert, if_pos rfl]; rfl
  off_key c m a h := by rw [creditStep, slot_insert, if_neg h]

theorem spec_debit (p : Pocket) (underflow : String) (c : AccountId × ℕ) :
    Spec (debit p underflow c)
      (fun m => (slot m c.1).isSome ∧ c.2 ≤ Pocket.held p (slot m c.1)) (debitStep p c) where
  ok m h := by
    obtain ⟨r, hr⟩ := Option.isSome_iff_exists.mp h.1
    have hr' : m[c.1]? = some r := hr
    have hle : c.2 ≤ p.amount r := by simpa [hr, Pocket.held] using h.2
    simp only [debit, outcome_bind, outcome_get, hr', checkedSub, if_pos hle, outcome_modify]
    refine Prod.ext rfl (slot_ext fun a => ?_)
    rw [debitStep, slot_insert, slot_modify]
    split_ifs with ha
    · subst ha
      rw [hr]
      rfl
    · rfl
  err m h := by
    cases hr : m[c.1]? with
    | none =>
      simp only [debit, outcome_bind, outcome_get, hr]
      exact ⟨_, _, rfl⟩
    | some r =>
      have hle : ¬ c.2 ≤ p.amount r := fun hle => h (by simp [slot, hr, Pocket.held, hle])
      simp only [debit, outcome_bind, outcome_get, hr, checkedSub, if_neg hle]
      exact ⟨_, _, rfl⟩

theorem local_debit (p : Pocket) :
    Local slot Prod.fst (debitStep p) (fun c o => o.map (debitRec p c.2)) where
  at_key c m := by rw [debitStep, slot_modify, if_pos rfl]
  off_key c m a h := by rw [debitStep, slot_modify, if_neg h]

/-- What a list of payments moves for account `a`. -/
abbrev moved (a : AccountId) (l : List (AccountId × ℕ)) : ℕ := total Prod.fst Prod.snd a l

/-- The credits of one pocket. -/
def credited (p : Pocket) (pubkey : AccountId → Bytes) (l : List (AccountId × ℕ)) (m : Accounts) :
    Accounts := runAll (creditStep p pubkey) l m

/-- The debits of one pocket. -/
def debited (p : Pocket) (l : List (AccountId × ℕ)) (m : Accounts) : Accounts := runAll (debitStep p) l m

/-- No account overflows. -/
def CreditsFit (p : Pocket) (l : List (AccountId × ℕ)) (m : Accounts) : Prop :=
  ∀ c ∈ l, Pocket.held p (slot m c.1) + moved c.1 l < u128

/-- Every debited account exists and covers its debits. -/
def DebitsFit (p : Pocket) (l : List (AccountId × ℕ)) (m : Accounts) : Prop :=
  ∀ c ∈ l, (slot m c.1).isSome ∧ moved c.1 l ≤ Pocket.held p (slot m c.1)

theorem spec_credits (p : Pocket) (pubkey : AccountId → Bytes) (overflow : String)
    (l : List (AccountId × ℕ)) :
    Spec (each (credit p pubkey overflow) l) (CreditsFit p l) (credited p pubkey l) :=
  (spec_each (spec_credit p pubkey overflow) l).congr
    (fun m => by
      have h := (local_credit p pubkey).fits_add (O := fun _ => True) u128
        (fun c o _ => held_creditRec p pubkey c o) (fun _ _ _ => trivial) l m
      simp only [true_and] at h
      exact h.symm) fun _ _ => rfl

theorem spec_debits (p : Pocket) (underflow : String) (l : List (AccountId × ℕ)) :
    Spec (each (debit p underflow) l) (DebitsFit p l) (debited p l) :=
  (spec_each (spec_debit p underflow) l).congr
    (fun m => ((local_debit p).fits_sub (O := fun o : Option AccountRecord => o.isSome = true)
      (fun c o => held_debitRec p c.2 o) (fun c o h => by simpa using h) l m).symm) fun _ _ => rfl

/-! ## What credits and debits leave -/

/-- Account `a` is paid by the list. -/
def Paid (a : AccountId) (l : List (AccountId × ℕ)) : Prop := ∃ c ∈ l, c.1 = a

theorem isSome_runAll_some {ι V : Type} {g : ι → Option V → V} (l : List ι) (o : Option V) :
    (runAll (fun c o => some (g c o)) l o).isSome ↔ o.isSome ∨ l ≠ [] := by
  induction l generalizing o with
  | nil => simp
  | cons c l ih => rw [runAll_cons, ih]; simp

theorem isSome_runAll_map {ι V : Type} {g : ι → V → V} (l : List ι) (o : Option V) :
    (runAll (fun c o => Option.map (g c) o) l o).isSome ↔ o.isSome := by
  induction l generalizing o with
  | nil => rfl
  | cons c l ih => rw [runAll_cons, ih]; simp

section Effects
variable (p : Pocket) (pubkey : AccountId → Bytes) (l : List (AccountId × ℕ)) (m : Accounts)
  (a : AccountId)

theorem held_credited :
    Pocket.held p (slot (credited p pubkey l m) a) = Pocket.held p (slot m a) + moved a l := by
  rw [credited, (local_credit p pubkey).run]
  exact amt_runAll_add (O := fun _ => True) (fun c o _ => held_creditRec p pubkey c o)
    (fun _ _ _ => trivial) _ trivial

theorem held_debited :
    Pocket.held p (slot (debited p l m) a) = Pocket.held p (slot m a) - moved a l := by
  rw [debited, (local_debit p).run]
  exact amt_runAll_sub (fun c o => held_debitRec p c.2 o) _ _

theorem isSome_credited :
    (slot (credited p pubkey l m) a).isSome ↔ (slot m a).isSome ∨ Paid a l := by
  rw [credited, (local_credit p pubkey).run, isSome_runAll_some, Ne, pick_eq_nil]
  simp only [Paid, not_forall, not_not, exists_prop]

theorem isSome_debited : (slot (debited p l m) a).isSome ↔ (slot m a).isSome := by
  rw [debited, (local_debit p).run]
  exact isSome_runAll_map _ _

variable {p} {q : Pocket}

theorem held_credited_other (hq : ∀ r n, q.amount (p.set r n) = q.amount r) :
    Pocket.held q (slot (credited p pubkey l m) a) = Pocket.held q (slot m a) := by
  rw [credited, (local_credit p pubkey).run]
  refine runAll_frame (v := Pocket.held q) (fun c o => ?_) _ _
  show q.amount (p.set _ _) = _
  rw [hq, held_getD]

theorem held_debited_other (hq : ∀ r n, q.amount (p.set r n) = q.amount r) :
    Pocket.held q (slot (debited p l m) a) = Pocket.held q (slot m a) := by
  rw [debited, (local_debit p).run]
  refine runAll_frame (v := Pocket.held q) (fun c o => ?_) _ _
  cases o with
  | none => rfl
  | some r => exact hq r _

end Effects

/-! ## The accounts part of `apply_diff` -/

/-- The balance of an account; a missing account has none. -/
abbrev balanceOf (m : Accounts) (a : AccountId) : ℕ := Pocket.held balancePocket (slot m a)

/-- The compute escrow of an account. -/
abbrev escrowOf (m : Accounts) (a : AccountId) : ℕ := Pocket.held escrowPocket (slot m a)

/-- The four payment lists of a diff fit the accounts: no recipient overflows, and every sender exists,
or is created by a payment before, and covers what it pays out of what it has and receives. -/
structure AccountsFit (d : StateDiff) (m : Accounts) : Prop where
  transfers : ∀ c ∈ d.nativeTransfers, balanceOf m c.1 + moved c.1 d.nativeTransfers < u128
  debits : ∀ c ∈ d.nativeDebits, ((slot m c.1).isSome ∨ Paid c.1 d.nativeTransfers) ∧
    moved c.1 d.nativeDebits ≤ balanceOf m c.1 + moved c.1 d.nativeTransfers
  escrowCredits : ∀ c ∈ d.computeEscrowCredits,
    escrowOf m c.1 + moved c.1 d.computeEscrowCredits < u128
  escrowDebits : ∀ c ∈ d.computeEscrowDebits,
    (((slot m c.1).isSome ∨ Paid c.1 d.nativeTransfers) ∨ Paid c.1 d.computeEscrowCredits) ∧
    moved c.1 d.computeEscrowDebits ≤ escrowOf m c.1 + moved c.1 d.computeEscrowCredits

/-- The accounts after the four payment lists. -/
def paidAccounts (pubkey : AccountId → Bytes) (d : StateDiff) (m : Accounts) : Accounts :=
  debited escrowPocket d.computeEscrowDebits (credited escrowPocket pubkey d.computeEscrowCredits
    (debited balancePocket d.nativeDebits (credited balancePocket pubkey d.nativeTransfers m)))

theorem spec_payments (pubkey : AccountId → Bytes) (d : StateDiff) :
    Spec (do
      nativeTransfers pubkey d.nativeTransfers
      nativeDebits d.nativeDebits
      escrowCredits pubkey d.computeEscrowCredits
      escrowDebits d.computeEscrowDebits) (AccountsFit d) (paidAccounts pubkey d) := by
  have hbal : ∀ r n, balancePocket.amount (escrowPocket.set r n) = balancePocket.amount r :=
    fun _ _ => rfl
  have hesc : ∀ r n, escrowPocket.amount (balancePocket.set r n) = escrowPocket.amount r :=
    fun _ _ => rfl
  refine ((spec_credits balancePocket pubkey _ d.nativeTransfers).seq
    ((spec_debits balancePocket _ d.nativeDebits).seq
      ((spec_credits escrowPocket pubkey _ d.computeEscrowCredits).seq
        (spec_debits escrowPocket _ d.computeEscrowDebits)))).congr (fun m => ?_) fun m _ => rfl
  simp only [DebitsFit, CreditsFit, isSome_debited, isSome_credited, held_credited,
    held_credited_other _ _ _ _ hesc, held_debited_other _ _ _ hesc]
  constructor
  · rintro ⟨h1, h2, h3, h4⟩
    exact ⟨h1, h2, h3, h4⟩
  · rintro ⟨h1, h2, h3, h4⟩
    exact ⟨h1, h2, h3, h4⟩

/-- The accounts after the accounts part of `apply_diff`. -/
def appliedAccounts (d : StateDiff) (m : Accounts) : Accounts :=
  raiseNonces d.nonceUpdates (patchAccounts d.accountUpdates (paidAccounts (fun _ => []) d m))

theorem spec_onAccounts {m : ExceptT String (StateM Accounts) Unit} {F : Accounts → Prop}
    {E : Accounts → Accounts} (h : Spec m F E) :
    Spec (onAccounts m) (fun w => F w.state.accounts)
      (fun w => w.onState fun s => { s with accounts := E s.accounts }) :=
  h.zoom _ _

theorem spec_applyAccounts (d : StateDiff) :
    Spec (applyAccounts d) (AccountsFit d) (appliedAccounts d) := by
  have h := (spec_payments (fun _ => []) d).seq (spec_modify (ε := String) fun m =>
    raiseNonces d.nonceUpdates (patchAccounts d.accountUpdates m))
  simp only [bind_assoc] at h
  exact h.congr (fun m => (and_iff_left trivial).symm) fun m _ => rfl

/-! ## Account updates and nonces, account by account -/

/-- A record after an account update of `apply_diff`. -/
def patchRec (u : AccountRecord) : Option AccountRecord → AccountRecord
  | some r =>
    { r with pubkeyBytes := if r.pubkeyBytes = [] then u.pubkeyBytes else r.pubkeyBytes, nfts := u.nfts }
  | none => u

theorem local_patch :
    Local slot Prod.fst (fun u m => patchAccount m u)
      (fun (u : AccountId × AccountRecord) o => some (patchRec u.2 o)) where
  at_key u m := by
    rw [patchAccount]
    cases hr : m[u.1]? with
    | none =>
      simp only
      rw [slot_insert, if_pos rfl, slot, hr]
      rfl
    | some r =>
      simp only
      rw [slot_insert, if_pos rfl, slot, hr]
      rfl
  off_key u m a h := by
    rw [patchAccount]
    cases m[u.1]? with
    | none => exact (slot_insert ..).trans (if_neg h)
    | some r => exact (slot_insert ..).trans (if_neg h)

theorem slot_patchAccounts (updates : Map AccountId AccountRecord) (m : Accounts) (a : AccountId) :
    slot (patchAccounts updates m) a =
      match slot updates a with
      | some u => some (patchRec u (slot m a))
      | none => slot m a := by
  have h := local_patch.run a updates.toList m
  rw [pick_toList] at h
  cases hu : slot updates a with
  | none =>
    rw [hu] at h
    exact h
  | some u =>
    rw [hu] at h
    exact h

/-- A record with its nonce raised. -/
def raiseRec (n : ℕ) (r : AccountRecord) : AccountRecord := { r with nonce := max r.nonce n }

theorem local_raise :
    Local slot Prod.fst (fun (u : AccountId × ℕ) m => Std.ExtTreeMap.modify m u.1 (raiseRec u.2))
      (fun u o => Option.map (raiseRec u.2) o) where
  at_key u m := by rw [slot_modify, if_pos rfl]
  off_key u m a h := by rw [slot_modify, if_neg h]

theorem slot_raiseNonces (updates : List (AccountId × ℕ)) (m : Accounts) (a : AccountId) :
    slot (raiseNonces updates m) a =
      runAll (fun u o => Option.map (raiseRec u.2) o) (pick Prod.fst a updates) (slot m a) :=
  local_raise.run a updates m

/-- The account exists once the payments and the account updates are made. -/
def Settled (d : StateDiff) (m : Accounts) (a : AccountId) : Prop :=
  (((slot m a).isSome ∨ Paid a d.nativeTransfers) ∨ Paid a d.computeEscrowCredits) ∨
    (slot d.accountUpdates a).isSome

open Classical in
/-- The balance of an account once the payments and the account updates are made: a record of the diff
counts only where there was no account and no payment made one. -/
noncomputable def settledBalance (d : StateDiff) (m : Accounts) (a : AccountId) : ℕ :=
  if ((slot m a).isSome ∨ Paid a d.nativeTransfers) ∨ Paid a d.computeEscrowCredits then
    balanceOf m a + moved a d.nativeTransfers - moved a d.nativeDebits
  else balanceOf d.accountUpdates a

theorem isSome_paidAccounts (pubkey : AccountId → Bytes) (d : StateDiff) (m : Accounts) (a : AccountId) :
    (slot (paidAccounts pubkey d m) a).isSome ↔
      ((slot m a).isSome ∨ Paid a d.nativeTransfers) ∨ Paid a d.computeEscrowCredits := by
  simp only [paidAccounts, isSome_debited, isSome_credited]

theorem balanceOf_paidAccounts (pubkey : AccountId → Bytes) (d : StateDiff) (m : Accounts)
    (a : AccountId) :
    balanceOf (paidAccounts pubkey d m) a =
      balanceOf m a + moved a d.nativeTransfers - moved a d.nativeDebits := by
  have hbal : ∀ r n, balancePocket.amount (escrowPocket.set r n) = balancePocket.amount r :=
    fun _ _ => rfl
  simp only [balanceOf, paidAccounts, held_debited_other _ _ _ hbal, held_credited_other _ _ _ _ hbal,
    held_debited, held_credited]

theorem isSome_appliedAccounts (d : StateDiff) (m : Accounts) (a : AccountId) :
    (slot (appliedAccounts d m) a).isSome ↔ Settled d m a := by
  rw [appliedAccounts, slot_raiseNonces, isSome_runAll_map, slot_patchAccounts, Settled,
    ← isSome_paidAccounts (fun _ => [])]
  cases slot d.accountUpdates a <;> simp

theorem balanceOf_appliedAccounts (d : StateDiff) (m : Accounts) (a : AccountId) :
    balanceOf (appliedAccounts d m) a = settledBalance d m a := by
  have hnonce : ∀ (u : AccountId × ℕ) o, Pocket.held balancePocket (Option.map (raiseRec u.2) o) =
      Pocket.held balancePocket o := by
    intro u o
    cases o <;> rfl
  rw [balanceOf, appliedAccounts, slot_raiseNonces, runAll_frame hnonce, slot_patchAccounts,
    settledBalance]
  by_cases h : ((slot m a).isSome ∨ Paid a d.nativeTransfers) ∨ Paid a d.computeEscrowCredits
  · rw [if_pos h, ← balanceOf_paidAccounts (fun _ => [])]
    rw [← isSome_paidAccounts (fun _ => [])] at h
    obtain ⟨r, hr⟩ := Option.isSome_iff_exists.mp h
    rw [balanceOf, hr]
    cases slot d.accountUpdates a <;> rfl
  · rw [if_neg h]
    rw [← isSome_paidAccounts (fun _ => []), Option.not_isSome_iff_eq_none] at h
    rw [h, balanceOf]
    cases slot d.accountUpdates a <;> rfl

end TruthLinked.Ledger.AccountSpecs
