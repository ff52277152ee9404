import TruthLinked.Ledger.Records
import TruthLinked.Ledger.Runs

/-! # Each transaction once

Batches run by `execute_sequential`, one after the other, each under whatever settings the process has then. A
transaction is known by its sender and its nonce. As long as a diff that is computed can be applied and no
nonce has reached its last value, a transaction takes effect at most once and the nonces count the applied
transactions (`once_of_careful`). A diff that is refused after it was computed has an effect and leaves the
nonce, so that another transaction with the same nonce takes effect too. -/

namespace TruthLinked.Ledger.Nonces

open Core.Types Staking.State Ledger.Model Ledger.ComputeCells Ledger.ComputeSpec Ledger.Executor
open Ledger.MergeAgreement Ledger.Coverage Ledger.Records Ledger.Runs Ledger.AccountSpecs Lib.Run

/-- The nonce of an account in a world. -/
def nonceAt (w : World) (a : AccountId) : ℕ := nonceOf w.state.accounts a

/-- The transaction changes the ledger, applied or not. -/
def TakesEffect (env : Env) (w : World) (tx : Transaction) : Prop := (runTransaction env tx w).2.state ≠ w.state

/-- The event is a transaction of `a` that is applied. -/
def AppliedFor (env : Env) (a : AccountId) (w : World) : Event → Prop
  | .settings _ => False
  | .transaction tx => tx.sender = a ∧ (runTransaction env tx w).1.isOk = true

instance (env : Env) (a : AccountId) (w : World) : DecidablePred (AppliedFor env a w)
  | .settings _ => inferInstanceAs (Decidable False)
  | .transaction _ => inferInstanceAs (Decidable (_ ∧ _))

/-- The number of applied transactions of `a`. -/
def appliedBy (env : Env) (a : AccountId) : World → List Event → ℕ
  | _, [] => 0
  | w, e :: es => (if AppliedFor env a w e then 1 else 0) + appliedBy env a (step env w e) es

/-- **Each transaction takes effect at most once**, nonces do not fall, and they count the applied
transactions. -/
structure Once (env : Env) (w : World) (es : List Event) : Prop where
  once : ∀ i j tx tx', i < j → es[i]? = some (.transaction tx) → es[j]? = some (.transaction tx') →
    TakesEffect env (worldAt env w es i) tx → TakesEffect env (worldAt env w es j) tx' →
    ¬ (tx.sender = tx'.sender ∧ tx.nonce = tx'.nonce)
  grows : ∀ i a, nonceAt (worldAt env w es i) a ≤ nonceAt (worldAt env w es (i + 1)) a
  counts : ∀ i a, nonceAt (worldAt env w es i) a = nonceAt w a + appliedBy env a w (es.take i)

/-- What a transaction asks of the world besides the checks of `compute_transaction_diff_skip_sig`: if these
pass, its diff can be applied, and the nonce of the sender is not the last one. -/
def Careful (env : Env) (w : World) : Event → Prop
  | .settings _ => True
  | .transaction tx => ((computeTransactionDiffSkipSig env w tx).isOk = true → Covers env w tx) ∧
      nonceAt w tx.sender + 1 < u64

section Step
variable {env : Env} {w : World} {tx : Transaction}

/-- **One careful transaction**: it is refused and changes nothing, or it is applied and raises the nonce of
its sender by one. -/
theorem careful_cases (h : Careful env w (.transaction tx)) :
    ((runTransaction env tx w).1.isOk = false ∧ (runTransaction env tx w).2 = w) ∨
    ((runTransaction env tx w).1.isOk = true ∧ tx.nonce = nonceAt w tx.sender + 1 ∧
      ∀ a, nonceAt (runTransaction env tx w).2 a = nonceAt w a + if tx.sender = a then 1 else 0) := by
  obtain ⟨hcovers, hlast⟩ := h
  cases hd : computeTransactionDiffSkipSig env w tx with
  | error e =>
    rw [runTransaction, hd]
    exact .inl ⟨rfl, rfl⟩
  | ok d =>
    rw [hd] at hcovers
    obtain ⟨account, d₁, f, hcheck, -⟩ := compute_eq_ok hd
    obtain ⟨-, hacc, hnonce⟩ := checkTransaction_eq_ok hcheck
    have hsender : nonceAt w tx.sender = account.nonce := nonceOf_some hacc
    have hnext : tx.nonce = nonceAt w tx.sender + 1 := by
      rw [hnonce, hsender, satAdd64]
      omega
    rw [runTransaction_applied hd (hcovers rfl)]
    refine .inr ⟨rfl, hnext, fun a => ?_⟩
    have hafter := nonceOf_applied hd a
    unfold nonceAt at hnext ⊢
    rw [hafter]
    split_ifs with ha
    · rw [ha] at hnext
      omega
    · rfl

theorem nonceAt_step {e : Event} (h : Careful env w e) (a : AccountId) :
    nonceAt (step env w e) a = nonceAt w a + if AppliedFor env a w e then 1 else 0 := by
  cases e with
  | settings globals => rfl
  | transaction tx =>
    rcases careful_cases h with ⟨hfail, hsame⟩ | ⟨hok, -, hnonces⟩
    · have hnot : ¬ AppliedFor env a w (.transaction tx) := by
        rintro ⟨-, hok⟩
        rw [hfail] at hok
        cases hok
      rw [if_neg hnot, step, hsame]
      rfl
    · rw [step, hnonces]
      refine congrArg _ (if_congr ?_ rfl rfl)
      exact ⟨fun ha => ⟨ha, hok⟩, fun ha => ha.1⟩

theorem nonceAt_of_takesEffect (h : Careful env w (.transaction tx)) (heffect : TakesEffect env w tx) :
    tx.nonce = nonceAt w tx.sender + 1 ∧ nonceAt (step env w (.transaction tx)) tx.sender = tx.nonce := by
  rcases careful_cases h with ⟨-, hsame⟩ | ⟨-, hnext, hnonces⟩
  · exact absurd (congrArg World.state hsame) heffect
  · refine ⟨hnext, ?_⟩
    rw [step, hnonces, if_pos rfl, hnext]

end Step

section Runs
variable {env : Env} {w : World} {es : List Event}

theorem grows_of_careful (h : Along (step env) (Careful env) w es) (i : ℕ) (a : AccountId) :
    nonceAt (worldAt env w es i) a ≤ nonceAt (worldAt env w es (i + 1)) a := by
  cases he : es[i]? with
  | none => rw [worldAt_of_none he]
  | some e =>
    have hgrow := nonceAt_step (h.at_index he) a
    rw [worldAt_succ he, worldAt, hgrow]
    exact Nat.le_add_right _ _

theorem grows_le (h : Along (step env) (Careful env) w es) {i j : ℕ} (hij : i ≤ j) (a : AccountId) :
    nonceAt (worldAt env w es i) a ≤ nonceAt (worldAt env w es j) a :=
  monotone_nat_of_le_succ (f := fun i => nonceAt (worldAt env w es i) a) (fun i => grows_of_careful h i a) hij

theorem counts_of_careful (h : Along (step env) (Careful env) w es) (a : AccountId) :
    nonceAt (run (step env) w es) a = nonceAt w a + appliedBy env a w es := by
  induction es generalizing w with
  | nil => rfl
  | cons e es ih =>
    rw [run_cons, ih h.2, nonceAt_step h.1, appliedBy]
    omega

end Runs

/-- **Each transaction once.** In every run of batches whose transactions are careful, each transaction takes
effect at most once, no nonce falls, and the nonce of an account grows by one with each of its transactions
that is applied, in the middle of a batch as well as after the last. -/
theorem once_of_careful (env : Env) (w : World) (rounds : List Round)
    (h : Along (step env) (Careful env) w (events rounds)) :
    Once env w (events rounds) ∧ ∀ a, nonceAt (rounds.foldl (executeRound env) w) a =
      nonceAt w a + appliedBy env a w (events rounds) := by
  refine ⟨⟨?_, grows_of_careful h, ?_⟩, fun a => ?_⟩
  · intro i j tx tx' hij hi hj heffect heffect' ⟨hsender, hnonce⟩
    obtain ⟨-, hset⟩ := nonceAt_of_takesEffect (h.at_index hi) heffect
    obtain ⟨hnext, -⟩ := nonceAt_of_takesEffect (h.at_index hj) heffect'
    have hgrow := grows_le h (show i + 1 ≤ j from hij) tx.sender
    have hafter : nonceAt (worldAt env w (events rounds) (i + 1)) tx.sender = tx.nonce := by
      rw [worldAt_succ hi]
      exact hset
    have hbefore : tx'.nonce = nonceAt (worldAt env w (events rounds) j) tx'.sender + 1 := hnext
    rw [← hsender] at hbefore
    omega
  · intro i a
    have hsplit : Along (step env) (Careful env) w ((events rounds).take i ++ (events rounds).drop i) := by
      rwa [List.take_append_drop]
    exact counts_of_careful hsplit.of_append.1 a
  · rw [executeRounds_eq]
    exact counts_of_careful h a

/-- The sample transfer as a batch of its own. -/
theorem once_sample :
    Once sampleEnv sampleWorld (events [⟨sampleWorld.globals, [sampleTransfer]⟩]) ∧
      ∀ a, nonceAt ([⟨sampleWorld.globals, [sampleTransfer]⟩].foldl (executeRound sampleEnv) sampleWorld) a =
        nonceAt sampleWorld a +
          appliedBy sampleEnv a sampleWorld (events [⟨sampleWorld.globals, [sampleTransfer]⟩]) := by
  refine once_of_careful sampleEnv sampleWorld _ ⟨trivial, ⟨fun _ => ?_, ?_⟩, trivial⟩
  · have hlt : balanceOf sampleState.accounts 2 + 5 < u128 := by decide +kernel
    exact (receives_single _ _ _).mpr hlt
  · decide +kernel

/-! ### A nonce used twice -/

def sampleProposal : Transaction :=
  ⟨1, .proposeUrl "https://prices.example/aaaaaaaaaaaaaaaaaaaaaaaaaaaaaaaaaaaaaaaaaaaaaaaaaaaaaaaaaaaa" 850 100,
    [], 1, 0, 7, 10⟩

def proposalBytes (tx : Transaction) : Bytes :=
  match tx.intent with
  | .proposeUrl pattern bond period =>
    ofBytes32 tx.sender ++ [40] ++ varint 10 pattern.toUTF8.toList.length ++ pattern.toUTF8.toList ++
      varint 19 bond ++ varint 10 period ++ varint 10 tx.signature.length ++ tx.signature ++
      varint 10 tx.nonce ++ varint 10 tx.timestamp ++ ofBytes32 tx.genesisFingerprint ++
      varint 10 tx.expirationHeight
  | _ => txBytes tx

/-- The third-party code, on the inputs that occur here. -/
def proposalEnv : Env where
  blake3 bs := if bs = proposalBytes sampleProposal then
      0x6517f1156fc4693312728f30f93be80f56e1dd8001224a0c48bbf477e6738944
    else sampleEnv.blake3 bs
  parsePriceUsdMicros _ := none
  priceUsdBody _ _ := []
  sha256 := paramDigest
  serialize := proposalBytes
  isPublicKey _ := false
  verifyCtProof _ _ := .error "no proof"

/-- The proposal fails for want of the gas fee, with its bond debited, and leaves the nonce; the transfer with
the same nonce is then applied. -/
theorem nonce_used_twice :
    ¬ ∀ env w rounds, Once env w (events rounds) ∧ ∀ a, nonceAt (rounds.foldl (executeRound env) w) a =
      nonceAt w a + appliedBy env a w (events rounds) := by
  intro h
  have honce := (h proposalEnv sampleWorld [⟨sampleWorld.globals, [sampleProposal, sampleTransfer]⟩]).1.once 1 2
    sampleProposal sampleTransfer (by decide) rfl rfl
  have hfees : ((runTransaction proposalEnv sampleProposal sampleWorld).2.state.accumulatedEpochFees,
      (runTransaction proposalEnv sampleTransfer
        (runTransaction proposalEnv sampleProposal sampleWorld).2).2.state.accumulatedEpochFees) =
          (166, 279) := by
    decide +kernel
  have hfirst := congrArg Prod.fst hfees
  have hsecond := congrArg Prod.snd hfees
  refine honce ?_ ?_ ⟨rfl, rfl⟩
  · intro hsame
    exact absurd (hfirst.symm.trans (congrArg State.accumulatedEpochFees hsame)) (by decide)
  · intro hsame
    exact absurd (hsecond.symm.trans ((congrArg State.accumulatedEpochFees hsame).trans hfirst)) (by decide)

end TruthLinked.Ledger.Nonces
