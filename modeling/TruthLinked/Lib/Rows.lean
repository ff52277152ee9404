import Mathlib.Tactic.Common

/-! # Rows linked by steps

A table whose rows follow each other by given functions is determined by its first row. When the functions are
onto, any last row is reached from some first row. -/

namespace TruthLinked.Lib.Rows

variable {S : Type} (f : ℕ → S → S)

/-- The row after `n` steps from `x`. -/
def iter : ℕ → S → S
  | 0, x => x
  | n + 1, x => f n (iter n x)

variable {f}

theorem eq_iter {rows : ℕ → S} {n : ℕ} (h : ∀ k < n, rows (k + 1) = f k (rows k)) :
    rows n = iter f n (rows 0) := by
  induction n with
  | zero => rfl
  | succ n ih =>
    have hprev := ih fun k hk => h k (by omega)
    rw [h n (by omega), hprev]
    rfl

theorem iter_surjective (hf : ∀ k, Function.Surjective (f k)) (n : ℕ) :
    Function.Surjective (iter f n) := by
  induction n with
  | zero => exact fun y => ⟨y, rfl⟩
  | succ n ih => exact (hf n).comp ih

end TruthLinked.Lib.Rows
