import TruthLinked.Consensus.ExecutionOrder
import TruthLinked.Consensus.Mempool
import TruthLinked.Ledger.Nonces
import TruthLinked.Lib.Lane

/-! # The nonces of a batch

`batch_timer_task` takes from the mempool, of every sender, the transactions whose nonces follow the committed
one without a gap. `compute_execution_order` then sorts the batch by a hash that does not look at nonces, and
the executor runs it in that order when it is short or a sender occurs twice. So the transactions of a sender
are a lane: one of them passes its nonce check exactly when those with lower nonces stand before it and have
been taken (`nonce_order_iff`). -/

namespace TruthLinked.Consensus.NonceLanes

open Core.Types Staking.State Ledger.Model Ledger.Apply Ledger.AccountSpecs Ledger.ApplySpec Ledger.ComputeCells
open Ledger.ComputeSpec Ledger.Executor Ledger.MergeAgreement Ledger.Records Ledger.Nonces Consensus.Mempool
open Consensus.Validation Lib.Lane Lib.SortKey Lib.Wp
open Ledger.Coverage (apply_succeeds_iff)
open Ledger.Runs (runTransaction_world runTransaction_isOk covers_of_isOk)
open Ledger.Rollback (worldAt worldAt_eq worldAt_succ)
open Consensus.Types (Primitives)

variable {n j : ℕ} {b : Transaction}

/-! ## The batch of a tick -/

/-- What the gate does with a transaction that comes before its nonce is expected: it waits if every nonce
between is in flight. -/
def answerGap (env : Env) (waits : Transaction → ℕ → Bool) (g : Gate) (tx : Transaction)
    (expected : ℕ) : Gate :=
  if waits tx expected then g.defer tx expected
  else g.reject env tx expected s!"nonce gap: expected {expected}, got {tx.nonce}"

/-- The nonce gate of `batch_timer_task`. `waits` answers for the tables that `sender_nonce_is_waitable` looks
at; each answer takes one transaction, so `fuel` is their number. -/
def nonceGate (env : Env) (waits : Transaction → ℕ → Bool) (w : World) :
    ℕ → List Transaction → Gate → Gate
  | 0, _, g => g
  | fuel + 1, todo, g =>
    match gateUntilGap env w todo g with
    | (g, none) => g
    | (g, some (tx, expected)) => nonceGate env waits w fuel g.todo (answerGap env waits g tx expected)

/-- The transactions that the gate lets through. -/
def executable (env : Env) (waits : Transaction → ℕ → Bool) (w : World) (mempool : List Transaction) :
    List Transaction :=
  (nonceGate env waits w (mempool.length + 1) (gateOrder env mempool) { todo := [] }).executable

/-- The batch that `batch_timer_task` selects from the mempool, after a batch that took `lastMs`. -/
def selectBatch (env : Env) (waits : Transaction → ℕ → Bool) (w : World) (lastMs : ℕ)
    (mempool : List Transaction) : List Transaction :=
  (splitExcess env w lastMs (executable env waits w mempool)).1

/-! ## The lane of a sender -/

/-- The nonce that the ledger expects of a sender. -/
def expectedNonce (w : World) (a : AccountId) : ℕ := satAdd64 (nonceAt w a) 1

/-- The checks of a transaction pass and its payments can be made, so that its nonce is taken. -/
def Accepted (env : Env) (w : World) (tx : Transaction) : Prop :=
  ∃ d, computeTransactionDiffSkipSig env w tx = .ok d ∧ AccountsFit d w.state.accounts

/-- The checks that come before the nonce check pass. -/
def Reaches (env : Env) (w : World) (tx : Transaction) : Prop :=
  txHashOf env tx ∉ w.state.executedTxHashes ∧ tx.genesisFingerprint = w.globals.genesisHash ∧
    w.globals.currentHeight < tx.expirationHeight ∧ tx.sender ∈ w.state.accounts

/-- The nonce check refuses the transaction. -/
def FailsOnNonce (env : Env) (w : World) (tx : Transaction) : Prop :=
  Reaches env w tx ∧ tx.nonce ≠ expectedNonce w tx.sender

instance (env : Env) (w : World) (tx : Transaction) : Decidable (FailsOnNonce env w tx) :=
  inferInstanceAs (Decidable ((_ ∧ _ ∧ _ ∧ _) ∧ _))

/-- One transaction of a sequential run. -/
def runStep (env : Env) (w : World) (tx : Transaction) : World := (runTransaction env tx w).2

section Ledger
variable {env : Env} {w : World} {tx : Transaction}

theorem Accepted.on_turn (h : Accepted env w tx) : tx.nonce = expectedNonce w tx.sender := by
  obtain ⟨d, hd, -⟩ := h
  obtain ⟨account, d₁, f, hcheck, -⟩ := compute_eq_ok hd
  obtain ⟨-, hacc, hnonce⟩ := checkTransaction_eq_ok hcheck
  rw [hnonce, expectedNonce, nonceAt, nonceOf_some hacc]

/-- **What an accepted transaction does to the nonces**, though it may be refused later. -/
theorem nonceAt_of_accepted (h : Accepted env w tx) (a : AccountId) :
    nonceAt (runStep env w tx) a = if tx.sender = a then max (nonceAt w a) tx.nonce else nonceAt w a := by
  obtain ⟨d, hd, hfit⟩ := h
  have hmarks := congrArg Prod.fst (congrFun (@marks_of_accountsFit env d w hfit) a)
  have happlied := nonceOf_applied hd a
  rw [(sameMarks_applied env d w).nonceOf] at happlied
  rw [runStep, runTransaction_world hd]
  exact hmarks.trans happlied

theorem Accepted.next (h : Accepted env w tx) :
    expectedNonce (runStep env w tx) tx.sender = min (expectedNonce w tx.sender + 1) (u64 - 1) := by
  have hturn := h.on_turn
  have hnonce := nonceAt_of_accepted h tx.sender
  rw [if_pos rfl, hturn] at hnonce
  unfold expectedNonce at hnonce ⊢
  rw [hnonce]
  unfold satAdd64
  generalize u64 - 1 = last
  omega

theorem nonceAt_of_not_accepted (h : ¬ Accepted env w tx) (a : AccountId) :
    nonceAt (runStep env w tx) a = nonceAt w a := by
  cases hd : computeTransactionDiffSkipSig env w tx with
  | error e => rw [runStep, runTransaction, hd]
  | ok d =>
    have hunpaid : ¬ AccountsFit d w.state.accounts := fun hfit => h ⟨d, hd, hfit⟩
    rw [runStep, runTransaction_world hd]
    exact congrArg Prod.fst (congrFun (@marks_of_not_accountsFit env d w hunpaid) a)

theorem accepted_of_isOk (h : (runTransaction env tx w).1.isOk = true) : Accepted env w tx := by
  obtain ⟨d, hd, -⟩ := runTransaction_isOk h
  refine ⟨d, hd, ?_⟩
  have hok := (apply_succeeds_iff hd).mpr (covers_of_isOk hd h)
  exact ((spec_applyDiff env d).of_ok (Prod.ext hok rfl)).1.accounts

end Ledger

/-- **The transactions of a sender are a lane.** -/
def senderLane (env : Env) (a : AccountId) :
    Counter (runStep env) (fun tx => tx.sender = a) Transaction.nonce (u64 - 1) where
  expected w := expectedNonce w a
  Takes := Accepted env
  le_last _ := Nat.min_le_right _ _
  of_takes w tx hsender h := by
    cases hsender
    exact ⟨h.on_turn, h.next⟩
  of_not w tx h := by
    by_cases haccepted : Accepted env w tx
    · have hsender : ¬ tx.sender = a := fun ha => h ⟨ha, haccepted⟩
      rw [expectedNonce, nonceAt_of_accepted haccepted, if_neg hsender, expectedNonce]
    · rw [expectedNonce, nonceAt_of_not_accepted haccepted, expectedNonce]

/-! ## What the gate lets through -/

/-- The transactions of every sender are numbered from the committed nonce on. -/
def Lanes (w : World) (l : List Transaction) : Prop :=
  ∀ a, Numbered (fun tx => tx.sender = a) Transaction.nonce (u64 - 1) (expectedNonce w a) l

/-- The gate expects `n` of the sender `a`: the nonces below have gone through, and no other. -/
structure Expects (w : World) (l : List Transaction) (a : AccountId) (n : ℕ) : Prop where
  start_le : expectedNonce w a ≤ n
  le_last : n ≤ u64 - 1
  gone : ∀ m, expectedNonce w a ≤ m → m < n → ∃ y ∈ l, y.sender = a ∧ y.nonce = m
  below : ∀ y ∈ l, y.sender = a → y.nonce < n ∨ y.nonce = u64 - 1

/-- The gate before the transactions `todo`, which are sorted by sender. -/
structure Gated (w : World) (g : Gate) (todo : List Transaction) : Prop where
  lanes : ∀ l, l <+: g.executable → Lanes w l
  sorted : todo.Pairwise fun a b => (compare a.sender b.sender).isLE = true
  behind : ∀ y ∈ g.executable, ∀ t ∈ todo, (compare y.sender t.sender).isLE = true
  expects : ∀ t ∈ todo, Expects w g.executable t.sender (g.expected w t.sender)

section Gate
variable {env : Env} {waits : Transaction → ℕ → Bool} {w : World} {g g' : Gate} {tx : Transaction}
variable {txs todo l : List Transaction}

theorem expectedNonce_le (w : World) (a : AccountId) : expectedNonce w a ≤ u64 - 1 := Nat.min_le_right _ _

theorem nonceAt_eq (w : World) (a : AccountId) :
    (w.state.accounts[a]?.map (·.nonce)).getD 0 = nonceAt w a := by
  unfold nonceAt nonceOf Lib.Keyed.slot
  cases w.state.accounts[a]? with
  | none => rfl
  | some r => rfl

theorem expected_of_current {s : AccountId} (h : g.current = some (s, n)) (a : AccountId) :
    g.expected w a = if s = a then n else expectedNonce w a := by
  rw [Gate.expected, h, expectedNonce, ← nonceAt_eq]

theorem Expects.start {a : AccountId} (h : ∀ y ∈ l, y.sender ≠ a) : Expects w l a (expectedNonce w a) where
  start_le := Nat.le_refl _
  le_last := expectedNonce_le w a
  gone _ hle hlt := absurd hlt (Nat.not_lt.mpr hle)
  below y hy ha := absurd ha (h y hy)

theorem Expects.concat (h : Expects w l tx.sender n) (hnonce : tx.nonce = n) :
    Expects w (l ++ [tx]) tx.sender (satAdd64 n 1) := by
  obtain ⟨hstart, hlast, hgone, hbelow⟩ := h
  have hnext : satAdd64 n 1 = min (n + 1) (u64 - 1) := rfl
  obtain ⟨last, hmax⟩ : ∃ last, u64 - 1 = last := ⟨_, rfl⟩
  rw [hmax] at hlast hnext
  rw [hnext]
  refine ⟨by omega, by omega, ?_, ?_⟩
  · intro m hm hlt
    rcases Nat.lt_or_ge m n with hmn | hmn
    · obtain ⟨y, hy, hrest⟩ := hgone m hm hmn
      exact ⟨y, List.mem_append_left _ hy, hrest⟩
    · exact ⟨tx, List.mem_append_right _ (List.mem_singleton_self tx), rfl, by omega⟩
  · intro y hy ha
    rcases List.mem_append.mp hy with hy | hy
    · have := hbelow y hy ha
      rw [hmax] at this ⊢
      omega
    · cases List.mem_singleton.mp hy
      rw [hmax]
      omega

theorem Lanes.concat (hlanes : Lanes w l) (h : Expects w l tx.sender n) (hnonce : tx.nonce = n) :
    Lanes w (l ++ [tx]) := by
  intro a
  refine (hlanes a).concat ?_ ?_ ?_
  · rintro rfl
    rw [hnonce]
    exact ⟨h.start_le, h.le_last⟩
  · rintro rfl m hm hlt
    rw [hnonce] at hlt
    exact h.gone m hm hlt
  · rintro rfl y hy hsender heq
    rcases h.below y hy hsender with hlt | hlast
    · omega
    · exact hlast

/-- **One transaction of the gate**: what comes after it is gated too, if the gate now expects `n` of its
sender. -/
theorem Gated.next (h : Gated w g (tx :: txs)) (hcurrent : g'.current = some (tx.sender, n))
    (hlanes : ∀ l, l <+: g'.executable → Lanes w l) (hmem : ∀ y ∈ g'.executable, y ∈ g.executable ∨ y = tx)
    (hexpects : Expects w g'.executable tx.sender n) : Gated w g' txs := by
  obtain ⟨hfirst, hsorted⟩ := List.pairwise_cons.mp h.sorted
  have hbehind : ∀ y ∈ g'.executable, (compare y.sender tx.sender).isLE = true := by
    intro y hy
    rcases hmem y hy with hy | rfl
    · exact h.behind y hy tx List.mem_cons_self
    · have hrefl : compare y.sender y.sender = .eq := Std.ReflCmp.compare_self
      rw [hrefl]
      rfl
  refine ⟨hlanes, hsorted, ?_, ?_⟩
  · intro y hy t ht
    exact Std.TransCmp.isLE_trans (hbehind y hy) (hfirst t ht)
  · intro t ht
    rw [expected_of_current hcurrent]
    by_cases ha : tx.sender = t.sender
    · rw [if_pos ha, ← ha]
      exact hexpects
    · rw [if_neg ha]
      refine Expects.start fun y hy hya => ha ?_
      -- the sender would come before the one that is being looked at and after it
      have hle := hbehind y hy
      rw [hya] at hle
      exact Std.LawfulEqOrd.eq_of_compare (Std.OrientedCmp.isLE_antisymm (hfirst t ht) hle)

theorem Gated.pass (h : Gated w g (tx :: txs)) (hnonce : tx.nonce = g.expected w tx.sender) :
    Gated w (g.pass tx (g.expected w tx.sender)) txs := by
  have hexpects := h.expects tx List.mem_cons_self
  refine h.next rfl ?_ ?_ (hexpects.concat hnonce)
  · intro l hl
    rcases List.prefix_concat_iff.mp hl with rfl | hl
    · exact (h.lanes _ (List.prefix_refl _)).concat hexpects hnonce
    · exact h.lanes l hl
  · intro y hy
    rcases List.mem_append.mp hy with hy | hy
    · exact .inl hy
    · exact .inr (List.mem_singleton.mp hy)

theorem Gated.skip (h : Gated w g (tx :: txs)) (hexec : g'.executable = g.executable)
    (hcurrent : g'.current = some (tx.sender, g.expected w tx.sender)) : Gated w g' txs := by
  refine h.next hcurrent ?_ ?_ ?_
  · rw [hexec]
    exact h.lanes
  · rw [hexec]
    exact fun y hy => .inl hy
  · rw [hexec]
    exact h.expects tx List.mem_cons_self

theorem gated_untilGap (h : Gated w g todo) :
    match gateUntilGap env w todo g with
    | (g', none) => Gated w g' []
    | (g', some (tx, expected)) => Gated w g' (tx :: g'.todo) ∧ expected = g'.expected w tx.sender := by
  induction todo generalizing g with
  | nil => exact ⟨h.lanes, h.sorted, h.behind, h.expects⟩
  | cons tx txs ih =>
    rw [gateUntilGap]
    split_ifs with hturn hgap
    · exact ih (h.pass hturn)
    · exact ⟨⟨h.lanes, h.sorted, h.behind, h.expects⟩, rfl⟩
    · exact ih (h.skip rfl rfl)

theorem gated_answerGap (h : Gated w g (tx :: txs)) :
    Gated w (answerGap env waits g tx (g.expected w tx.sender)) txs := by
  unfold answerGap
  split_ifs
  · exact h.skip rfl rfl
  · exact h.skip rfl rfl

theorem lanes_nonceGate {fuel : ℕ} (h : Gated w g todo) :
    ∀ l, l <+: (nonceGate env waits w fuel todo g).executable → Lanes w l := by
  induction fuel generalizing todo g with
  | zero => exact h.lanes
  | succ fuel ih =>
    have hgap := @gated_untilGap env w g todo h
    rw [nonceGate]
    generalize gateUntilGap env w todo g = r at hgap ⊢
    obtain ⟨g', _ | ⟨tx, expected⟩⟩ := r
    · exact hgap.lanes
    · obtain ⟨hgated, rfl⟩ := hgap
      exact ih (gated_answerGap hgated)

/-- **The selected batch**: the transactions of every sender are numbered from the committed nonce on. -/
theorem lanes_selectBatch (env : Env) (waits : Transaction → ℕ → Bool) (w : World) (lastMs : ℕ)
    (mempool : List Transaction) : Lanes w (selectBatch env waits w lastMs mempool) := by
  have hstart : Gated w { todo := [] } (gateOrder env mempool) := by
    refine ⟨?_, ?_, fun y hy => absurd hy List.not_mem_nil, fun t _ => ?_⟩
    · intro l hl a
      rw [List.prefix_nil.mp hl]
      exact ⟨fun x hx => absurd hx List.not_mem_nil, fun x hx => absurd hx List.not_mem_nil, List.Pairwise.nil⟩
    · refine (sortByKey_pairwise _ mempool).imp fun {a b} hle => ?_
      have hlex : ((compare a.sender b.sender).then
          (compare (a.nonce, computeTxHash env a) (b.nonce, computeTxHash env b))).isLE = true := hle
      cases hcmp : compare a.sender b.sender with
      | lt => rfl
      | eq => rfl
      | gt =>
        rw [hcmp] at hlex
        cases hlex
    · have hexpected : ({ todo := [] } : Gate).expected w t.sender = expectedNonce w t.sender := by
        rw [expectedNonce, ← nonceAt_eq]
        rfl
      rw [hexpected]
      exact Expects.start fun y hy => absurd hy List.not_mem_nil
  have hprefix : selectBatch env waits w lastMs mempool <+: executable env waits w mempool := by
    unfold selectBatch splitExcess
    split_ifs
    · exact List.take_prefix _ _
    · exact List.prefix_refl _
  exact lanes_nonceGate hstart _ hprefix

end Gate

/-! ## The executor -/

section Executor
variable (env : Env) (split : List PartResult → Split PartResult) (w : World) (batch : List Transaction)

/-- The executor runs the batch as a sequence: it is short, or a sender occurs twice, or two diffs write one
record. -/
def RunsInSequence : Prop :=
  batch.length < 8 ∨ ¬ (batch.map Transaction.sender).Nodup ∨
    (composeSplit (split (computeParts env w batch))).errors.any (fun e => e.2 == fallback.2) = true

instance : Decidable (RunsInSequence env split w batch) := inferInstanceAs (Decidable (_ ∨ _ ∨ _))

/-- The world on which the transaction at position `i` is evaluated: the one that its predecessors leave, or
the one before the batch. -/
def evaluatedOn (i : ℕ) : World := if RunsInSequence env split w batch then worldAt env w batch i else w

/-- No transaction of the batch fails because of its nonce, and those of a sender take effect in nonce
order. -/
structure NonceOrdered : Prop where
  no_failure : ∀ i tx, batch[i]? = some tx → ¬ FailsOnNonce env (evaluatedOn env split w batch i) tx
  in_order : ∀ i j a b, i < j → batch[i]? = some a → batch[j]? = some b → a.sender = b.sender →
    (runTransaction env a (evaluatedOn env split w batch i)).1.isOk = true →
    (runTransaction env b (evaluatedOn env split w batch j)).1.isOk = true → a.nonce ≤ b.nonce

/-- Whenever a transaction gets as far as its nonce check, those of its sender with lower nonces stand before
it and have been accepted. -/
def LowerFirst : Prop :=
  ∀ j b, batch[j]? = some b → Reaches env (evaluatedOn env split w batch j) b → ∀ a ∈ batch,
    a.sender = b.sender → a.nonce < b.nonce →
    ∃ i < j, batch[i]? = some a ∧ Accepted env (evaluatedOn env split w batch i) a

end Executor

section Batch
variable {env : Env} {split : List PartResult → Split PartResult} {w : World} {batch : List Transaction}

theorem evaluatedOn_sequence (h : RunsInSequence env split w batch) (i : ℕ) :
    evaluatedOn env split w batch i = before (runStep env) w batch i := by
  rw [evaluatedOn, if_pos h, worldAt_eq]
  rfl

theorem turn_iff_sequence (h : RunsInSequence env split w batch) (hlanes : Lanes w batch)
    (hb : batch[j]? = some b) :
    b.nonce = expectedNonce (evaluatedOn env split w batch j) b.sender ↔
      ∀ a ∈ batch, a.sender = b.sender → a.nonce < b.nonce →
        ∃ i < j, batch[i]? = some a ∧ Accepted env (evaluatedOn env split w batch i) a := by
  have hturn := turn_iff (senderLane env b.sender) (s := w) (hlanes b.sender) hb rfl
  simp only [evaluatedOn_sequence h]
  exact hturn

theorem turn_iff_whole (h : ¬ RunsInSequence env split w batch) (hlanes : Lanes w batch)
    (hb : batch[j]? = some b) :
    b.nonce = expectedNonce (evaluatedOn env split w batch j) b.sender ∧
      ∀ a ∈ batch, a.sender = b.sender → a = b := by
  have hnodup : (batch.map Transaction.sender).Nodup := by
    by_contra hdup
    exact h (.inr (.inl hdup))
  have hmem := List.mem_of_getElem? hb
  have hone : ∀ a ∈ batch, a.sender = b.sender → a = b := fun a ha hsender =>
    List.inj_on_of_nodup_map hnodup ha hmem hsender
  refine ⟨?_, hone⟩
  obtain ⟨hstart, -⟩ := (hlanes b.sender).bounds b hmem rfl
  rw [evaluatedOn, if_neg h]
  rcases Nat.eq_or_lt_of_le hstart with heq | hlt
  · exact heq.symm
  · obtain ⟨a, ha, hsender, hnonce⟩ := (hlanes b.sender).no_gap b hmem rfl _ (Nat.le_refl _) hlt
    rw [← hnonce, hone a ha hsender]

/-- **A transaction passes its nonce check** iff those of its sender with lower nonces come first. -/
theorem nonce_eq_iff (hlanes : Lanes w batch) (hb : batch[j]? = some b) :
    b.nonce = expectedNonce (evaluatedOn env split w batch j) b.sender ↔
      ∀ a ∈ batch, a.sender = b.sender → a.nonce < b.nonce →
        ∃ i < j, batch[i]? = some a ∧ Accepted env (evaluatedOn env split w batch i) a := by
  by_cases h : RunsInSequence env split w batch
  · exact turn_iff_sequence h hlanes hb
  · obtain ⟨hturn, hone⟩ := turn_iff_whole h hlanes hb
    refine iff_of_true hturn fun a ha hsender hlt => ?_
    rw [hone a ha hsender] at hlt
    exact absurd hlt (Nat.lt_irrefl _)

theorem applied_in_order (hlanes : Lanes w batch) {i : ℕ} {a : Transaction} (hij : i < j)
    (ha : batch[i]? = some a) (hb : batch[j]? = some b) (hsender : a.sender = b.sender)
    (hoka : (runTransaction env a (evaluatedOn env split w batch i)).1.isOk = true)
    (hokb : (runTransaction env b (evaluatedOn env split w batch j)).1.isOk = true) : a.nonce ≤ b.nonce := by
  by_cases h : RunsInSequence env split w batch
  · rw [evaluatedOn_sequence h] at hoka hokb
    obtain ⟨hturna, hnext⟩ := (senderLane env b.sender).of_takes _ a hsender (accepted_of_isOk hoka)
    obtain ⟨hturnb, -⟩ := (senderLane env b.sender).of_takes _ b rfl (accepted_of_isOk hokb)
    have hmono := expected_mono (senderLane env b.sender) (s := w) (l := batch) (Nat.le_of_lt hij)
    omega
  · rw [(turn_iff_whole h hlanes hb).2 a (List.mem_of_getElem? ha) hsender]

theorem nonceOrdered_iff (hlanes : Lanes w batch) :
    NonceOrdered env split w batch ↔ LowerFirst env split w batch := by
  constructor
  · intro h j b hb hreaches
    refine (nonce_eq_iff hlanes hb).mp ?_
    by_contra hne
    exact h.no_failure j b hb ⟨hreaches, hne⟩
  · intro h
    refine ⟨?_, fun i j a b => applied_in_order hlanes⟩
    rintro j b hb ⟨hreaches, hne⟩
    exact hne ((nonce_eq_iff hlanes hb).mpr (h j b hb hreaches))

end Batch

/-- **The nonces of a selected batch.** Whatever is in the mempool, no transaction of the batch that
`batch_timer_task` selects fails because of its nonce when it is executed in the committed order, iff in that
order every transaction that gets as far as its nonce check stands behind those of its sender with lower
nonces, and these have been accepted. -/
theorem nonce_order_iff (prim : Primitives) (env : Env) (split : List PartResult → Split PartResult)
    (waits : Transaction → ℕ → Bool) (w : World) (lastMs : ℕ) (mempool : List Transaction)
    (commitment : Bytes32) :
    NonceOrdered env split w
        (executionOrder prim env.serialize (selectBatch env waits w lastMs mempool) commitment) ↔
      LowerFirst env split w
        (executionOrder prim env.serialize (selectBatch env waits w lastMs mempool) commitment) := by
  refine nonceOrdered_iff fun a => ?_
  exact ((lanes_selectBatch env waits w lastMs mempool) a).perm (sortByKey_perm _ _).symm

/-! ### Two transfers of one sender

Account 1 of the sample node sends 5 to account 2 and then 10, with nonces 1 and 2. The hash functions are
those of the node on the inputs that occur here. -/

def secondTransfer : Transaction := { sampleTransfer with intent := .transfer 2 none 10, nonce := 2 }

/-- The commitment to the two transfers, in the block after genesis. -/
def transfersCommitment : Bytes32 := 0x9642984c951d771dff174a58d791b2018ac13822200919c136491f87c6fed574

/-- The third-party code of the consensus layer, on the inputs that occur here. -/
def lanePrim : Primitives where
  blake3 bs :=
    if bs = txBytes sampleTransfer then
      0x380f09fea3b0dd0fc4d713d9d82c9170e4b74660500acf6bff03e2932b3aaec2
    else if bs = txBytes secondTransfer then
      0xca311c2963ee9b29b36e8bbe0e98940cbcb4774c8f9e2da9a41fe59d77b9c16c
    else if bs = ofBytes32 0 ++ leBytes 8 1 then
      0x5469679938a702cfd12d8b4873945d1173b3ab1ba86258ecadc86cf3ea067583
    else if bs = txBytes sampleTransfer ++ ofBytes32 transfersCommitment then
      0x41bfc5322c44089f6551a59141b3e0176d5ed90eed0da6774a757ecb1a97b508
    else if bs = txBytes secondTransfer ++ ofBytes32 transfersCommitment then
      0x3cf13322f6e98974dd2e5c82cebd9d1834b64201d4616e22128b61b0e9105565
    else 0
  sha256 bs :=
    if bs = [1] ++ ofBytes32 0x380f09fea3b0dd0fc4d713d9d82c9170e4b74660500acf6bff03e2932b3aaec2 ++
        ofBytes32 0xca311c2963ee9b29b36e8bbe0e98940cbcb4774c8f9e2da9a41fe59d77b9c16c then
      0x86f99d86999966e535505da7580436e246408f149c32d3638538606140aef4d0
    else if bs = [1] ++ ofBytes32 0x5469679938a702cfd12d8b4873945d1173b3ab1ba86258ecadc86cf3ea067583 ++
        ofBytes32 0x5469679938a702cfd12d8b4873945d1173b3ab1ba86258ecadc86cf3ea067583 then
      0xcfbab6bdf393566c3e4bc41aca8618d63b4ba59acdff297ec349f99474357472
    else if bs = [1] ++ ofBytes32 0x86f99d86999966e535505da7580436e246408f149c32d3638538606140aef4d0 ++
        ofBytes32 0xcfbab6bdf393566c3e4bc41aca8618d63b4ba59acdff297ec349f99474357472 then
      transfersCommitment
    else 0
  verify _ _ _ _ := true

def laneEnv : Env := { sampleEnv with blake3 := lanePrim.blake3 }

def twoTransfers : List Transaction := [sampleTransfer, secondTransfer]

/-- **The committed order puts the second transfer first**, where it fails because of its nonce: 1 is
expected. -/
theorem second_transfer_first :
    computeBatchCommitment lanePrim txBytes twoTransfers 0 1 = transfersCommitment ∧
      (executionOrder lanePrim txBytes (selectBatch laneEnv (fun _ _ => false) sampleWorld 0 twoTransfers)
        transfersCommitment).map Transaction.nonce = [2, 1] ∧
      ¬ ∀ prim env split waits w lastMs mempool commitment, NonceOrdered env split w
        (executionOrder prim env.serialize (selectBatch env waits w lastMs mempool) commitment) := by
  have hfacts : computeBatchCommitment lanePrim txBytes twoTransfers 0 1 = transfersCommitment ∧
      (executionOrder lanePrim txBytes (selectBatch laneEnv (fun _ _ => false) sampleWorld 0 twoTransfers)
        transfersCommitment).map Transaction.nonce = [2, 1] ∧
      ((executionOrder lanePrim txBytes (selectBatch laneEnv (fun _ _ => false) sampleWorld 0 twoTransfers)
        transfersCommitment)[0]?).any (fun tx => decide (FailsOnNonce laneEnv sampleWorld tx)) = true := by
    decide +kernel
  obtain ⟨hcommitment, hnonces, hfirst⟩ := hfacts
  refine ⟨hcommitment, hnonces, fun h => ?_⟩
  obtain ⟨tx, htx, hany⟩ := (Option.any_eq_true _ _).mp hfirst
  have hfails : FailsOnNonce laneEnv sampleWorld tx := of_decide_eq_true hany
  have hordered := h lanePrim laneEnv .bucket (fun _ _ => false) sampleWorld 0 twoTransfers transfersCommitment
  refine hordered.no_failure 0 tx htx ?_
  -- the first transaction is evaluated on the world before the batch in any case
  unfold evaluatedOn
  split_ifs
  · exact hfails
  · exact hfails

end TruthLinked.Consensus.NonceLanes
