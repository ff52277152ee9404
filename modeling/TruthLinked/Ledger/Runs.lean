import TruthLinked.Ledger.Coverage
import TruthLinked.Ledger.Rollback
import TruthLinked.Lib.Run

/-! # Runs of batches

Batches run by `execute_sequential` one after the other, as a run of single transactions. Between two batches
the settings of the process may change in any way; the ledger does not. -/

namespace TruthLinked.Ledger.Runs

open Core.Types Runtime.Types Ledger.Model Ledger.Apply Ledger.ApplySpec Ledger.ComputeCells Ledger.Coverage
open Ledger.Executor Lib.Run Lib.Wp

variable {tx : Transaction} {d : StateDiff}

/-- A batch, and the settings of the process when it is executed. -/
structure Round where
  globals : Globals
  batch : List Transaction

/-- One batch. -/
def executeRound (env : Env) (w : World) (r : Round) : World :=
  (executeSequential env { w with globals := r.globals } r.batch).world

/-- What happens to the world, in order. -/
inductive Event where
  | settings (globals : Globals)
  | transaction (tx : Transaction)

/-- One event. -/
def step (env : Env) (w : World) : Event → World
  | .settings globals => { w with globals := globals }
  | .transaction tx => (runTransaction env tx w).2

/-- The events of some batches. -/
def events (rounds : List Round) : List Event :=
  rounds.flatMap fun r => .settings r.globals :: r.batch.map .transaction

theorem executeRounds_eq (env : Env) (w : World) (rounds : List Round) :
    rounds.foldl (executeRound env) w = run (step env) w (events rounds) := by
  induction rounds generalizing w with
  | nil => rfl
  | cons r rounds ih =>
    have hbatch : ∀ w, run (step env) w (r.batch.map .transaction) =
        r.batch.foldl (fun w tx => (runTransaction env tx w).2) w := by
      intro w
      rw [run, List.foldl_map]
      rfl
    have hsplit : events (r :: rounds) = .settings r.globals :: (r.batch.map .transaction ++ events rounds) := rfl
    rw [List.foldl_cons, ih, hsplit, run_cons, run_append, hbatch, executeRound, executeSequential,
      Rollback.sequentialLoop_world]
    rfl

/-- The world before event number `i`. -/
def worldAt (env : Env) (w : World) (es : List Event) (i : ℕ) : World := run (step env) w (es.take i)

section Worlds
variable {env : Env} {w : World} {es : List Event}

theorem worldAt_succ {i : ℕ} {e : Event} (h : es[i]? = some e) :
    worldAt env w es (i + 1) = step env (worldAt env w es i) e := by
  rw [worldAt, List.take_add_one, h, Option.toList_some, run_append]
  rfl

theorem worldAt_of_none {i : ℕ} (h : es[i]? = none) : worldAt env w es (i + 1) = worldAt env w es i := by
  rw [worldAt, List.take_add_one, h, Option.toList_none, List.append_nil]
  rfl

theorem runTransaction_world (hd : computeTransactionDiffSkipSig env w tx = .ok d) :
    (runTransaction env tx w).2 = (outcome (applyDiff env d) w).2 := by
  rw [runTransaction, hd]
  simp only
  generalize outcome (applyDiff env d) w = r
  obtain ⟨_ | ⟨⟩, w'⟩ := r
  · rfl
  · rfl

theorem runTransaction_applied
    (hd : computeTransactionDiffSkipSig env w tx = .ok d) (hcovers : Covers env w tx) :
    runTransaction env tx w = (.ok (diffTotalFees d), applied env d w) := by
  have hok := (apply_succeeds_iff hd).mpr hcovers
  have happ : outcome (applyDiff env d) w = (.ok (), applied env d w) := by
    rw [(((spec_applyDiff env d).of_ok (Prod.ext hok rfl)).2).symm, ← hok]
  rw [runTransaction, hd]
  simp only [happ]

theorem runTransaction_isOk (h : (runTransaction env tx w).1.isOk = true) :
    ∃ d, computeTransactionDiffSkipSig env w tx = .ok d ∧ (runTransaction env tx w).2 = applied env d w := by
  cases hd : computeTransactionDiffSkipSig env w tx with
  | error e =>
    rw [runTransaction, hd] at h
    cases h
  | ok d =>
    refine ⟨d, rfl, ?_⟩
    rw [runTransaction, hd] at h
    rw [runTransaction_world hd]
    dsimp only at h
    obtain ⟨r, hr⟩ : ∃ r, outcome (applyDiff env d) w = r := ⟨_, rfl⟩
    rw [hr] at h ⊢
    obtain ⟨e | ⟨⟩, w'⟩ := r
    · cases h
    · exact ((spec_applyDiff env d).of_ok hr).2

theorem covers_of_isOk (hd : computeTransactionDiffSkipSig env w tx = .ok d)
    (h : (runTransaction env tx w).1.isOk = true) : Covers env w tx := by
  rw [← apply_succeeds_iff hd]
  rw [runTransaction, hd] at h
  dsimp only at h
  obtain ⟨r, hr⟩ : ∃ r, outcome (applyDiff env d) w = r := ⟨_, rfl⟩
  rw [hr] at h ⊢
  obtain ⟨e | ⟨⟩, w'⟩ := r
  · cases h
  · rfl

end Worlds

end TruthLinked.Ledger.Runs
