import Mathlib.Algebra.BigOperators.Group.List.Basic
import Mathlib.Algebra.GroupWithZero.Nat
import Mathlib.Algebra.Order.Group.Nat

/-! # Shares in proportion to weights

An amount `c` is handed out over a list by weight, every share `q x` being at most its proportion `c * w x /
t`. When the weights add up to `t`, the shares together are at most `c` (`sum_le`), and are all of it when
each is its proportion exactly (`sum_eq_iff`). Rounded down they fall short by less than one each
(`lt_sum_floor_add`). What is left over may be added to one of them (`sum_map_modify`). -/

namespace TruthLinked.Lib.ProRata

section Shares
variable {ι : Type} {q w : ι → ℕ} {c t : ℕ} {xs : List ι}

theorem sum_mul_le (h : ∀ x ∈ xs, q x * t ≤ c * w x) : (xs.map q).sum * t ≤ c * (xs.map w).sum := by
  induction xs with
  | nil => simp
  | cons x xs ih =>
    have hx := h x List.mem_cons_self
    have hxs := ih fun y hy => h y (List.mem_cons_of_mem x hy)
    simp only [List.map_cons, List.sum_cons, Nat.add_mul, Nat.mul_add]
    omega

/-- **The shares are at most the amount.** -/
theorem sum_le (hpos : 0 < t) (h : ∀ x ∈ xs, q x * t ≤ c * w x) (hsum : (xs.map w).sum ≤ t) :
    (xs.map q).sum ≤ c := by
  refine Nat.le_of_mul_le_mul_right ((sum_mul_le h).trans ?_) hpos
  exact Nat.mul_le_mul_left c hsum

/-- **The shares are the amount** when none is rounded. -/
theorem sum_eq_iff (hpos : 0 < t) (h : ∀ x ∈ xs, q x * t ≤ c * w x) (hsum : (xs.map w).sum = t) :
    (xs.map q).sum = c ↔ ∀ x ∈ xs, q x * t = c * w x := by
  have hall : ∀ ys : List ι, (∀ x ∈ ys, q x * t ≤ c * w x) →
      ((ys.map q).sum * t = c * (ys.map w).sum ↔ ∀ x ∈ ys, q x * t = c * w x) := by
    intro ys hys
    induction ys with
    | nil => simp
    | cons y ys ih =>
      have hy := hys y List.mem_cons_self
      have htail : ∀ x ∈ ys, q x * t ≤ c * w x := fun x hx => hys x (List.mem_cons_of_mem y hx)
      have hle := sum_mul_le htail
      rw [List.forall_mem_cons, ← ih htail]
      simp only [List.map_cons, List.sum_cons, Nat.add_mul, Nat.mul_add]
      omega
  rw [← hall xs h, hsum]
  exact ⟨fun heq => by rw [heq], fun heq => Nat.eq_of_mul_eq_mul_right hpos heq⟩

end Shares

/-! ## Shares rounded down -/

theorem sum_floor_le (c total : ℕ) (xs : List ℕ) (h : xs.sum ≤ total) :
    (xs.map fun x => c * x / total).sum ≤ c := by
  rcases Nat.eq_zero_or_pos total with rfl | hpos
  · have hzero : (xs.map fun x => c * x / 0).sum = 0 := by simp
    omega
  · refine sum_le (w := id) hpos (fun x _ => Nat.div_mul_le_self (c * x) total) ?_
    rwa [List.map_id]

/-- Floors of shares of `c` fall short of `c` by less than one each. -/
theorem lt_sum_floor_add {c : ℕ} {xs : List ℕ} (hpos : 0 < xs.sum) :
    c < (xs.map fun x => c * x / xs.sum).sum + xs.length := by
  have hmul : ∀ ys : List ℕ, ys ≠ [] →
      c * ys.sum < ((ys.map fun x => c * x / xs.sum).sum + ys.length) * xs.sum := by
    intro ys hys
    induction ys with
    | nil => exact absurd rfl hys
    | cons y ys ih =>
      have hy := Nat.lt_div_mul_add (a := c * y) hpos
      simp only [List.map_cons, List.sum_cons, List.length_cons, Nat.add_mul, Nat.mul_add]
      rcases ys with _ | ⟨z, zs⟩
      · simp
        omega
      · have := ih (List.cons_ne_nil _ _)
        simp only [List.map_cons, List.sum_cons, List.length_cons, Nat.add_mul, Nat.mul_add] at this ⊢
        omega
  have hne : xs ≠ [] := by
    rintro rfl
    simp at hpos
  exact Nat.lt_of_mul_lt_mul_right (hmul xs hne)

/-! ## What is left over -/

theorem sum_map_modify {α : Type} (g : α → ℕ) (f : α → α) {l : List α} {i : ℕ} (hi : i < l.length) :
    ((l.modify i f).map g).sum + g (l[i]) = (l.map g).sum + g (f l[i]) := by
  have hl : (l.map g).sum = ((l.take i).map g).sum + (g l[i] + ((l.drop (i + 1)).map g).sum) := by
    conv_lhs => rw [← List.take_append_drop i l, List.drop_eq_getElem_cons hi, List.map_append, List.map_cons,
      List.sum_append, List.sum_cons]
  rw [List.modify_eq_take_cons_drop hi, hl, List.map_append, List.map_cons, List.sum_append, List.sum_cons]
  omega

end TruthLinked.Lib.ProRata
