import Mathlib.Data.List.Infix
import Mathlib.Order.Compare

/-! # Keys with a common prefix

Lists compared lexicographically: the keys with a given prefix stand together (`compare_of_prefix`), and among
them the rest decides (`compare_append`). -/

namespace TruthLinked.Lib.Prefix

variable {α : Type*} [Ord α] [Std.LawfulEqOrd α]

omit [Std.LawfulEqOrd α] in
theorem compare_cons (a b : α) (l m : List α) :
    compare (a :: l) (b :: m) = (compare a b).then (compare l m) := List.compareLex_cons_cons

theorem compare_append (p l m : List α) : compare (p ++ l) (p ++ m) = compare l m := by
  induction p with
  | nil => rfl
  | cons a p ih =>
    rw [List.cons_append, List.cons_append, compare_cons, Std.ReflOrd.compare_self, ih]
    rfl

/-- A key without the prefix is on the same side of all keys with it. -/
theorem compare_of_prefix {p k l m : List α} (hk : ¬ p <+: k) : compare k (p ++ l) = compare k (p ++ m) := by
  induction p generalizing k with
  | nil => exact absurd (List.nil_prefix) hk
  | cons a p ih =>
    cases k with
    | nil => rfl
    | cons b k =>
      rw [List.cons_append, List.cons_append, compare_cons, compare_cons]
      cases hab : compare b a with
      | eq =>
        have heq := Std.LawfulEqOrd.eq_of_compare hab
        have hrest : ¬ p <+: k := fun h => hk (by rw [heq]; exact (List.prefix_cons_inj a).mpr h)
        rw [ih hrest]
      | lt => rfl
      | gt => rfl

end TruthLinked.Lib.Prefix
