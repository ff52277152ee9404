import Mathlib.Data.Nat.Notation
import Mathlib.Tactic.Common

/-! # Merkle roots

The root of a list of digests over any way to join two of them: neighbours are joined layer by layer, the
odd last one of a layer with itself. -/

namespace TruthLinked.Lib.Merkle

variable {D : Type*}

/-- One layer up. -/
def layer (node : D → D → D) : List D → List D
  | a :: b :: rest => node a b :: layer node rest
  | [a] => [node a a]
  | [] => []

theorem length_layer (node : D → D → D) (l : List D) : (layer node l).length = (l.length + 1) / 2 := by
  fun_induction layer node l with
  | case1 a b rest ih =>
    rw [List.length_cons, ih, List.length_cons, List.length_cons]
    omega
  | case2 a => simp
  | case3 => simp

/-- Layer after layer, until one digest is left; at most `n` layers. -/
def climb (node : D → D → D) (empty : D) : ℕ → List D → D
  | _, [] => empty
  | _, [a] => a
  | 0, a :: _ :: _ => a
  | n + 1, a :: b :: rest => climb node empty n (layer node (a :: b :: rest))

/-- The root. A list has no more layers than digests. -/
def root (node : D → D → D) (empty : D) (l : List D) : D := climb node empty l.length l

section
variable (node : D → D → D) (empty : D)

theorem climb_eq_root {n : ℕ} {l : List D} (h : l.length ≤ n) : climb node empty n l = root node empty l := by
  induction n using Nat.strongRecOn generalizing l with
  | _ n ih =>
    match n, l with
    | n, [] => simp [root, climb]
    | n, [a] => simp [root, climb]
    | 0, a :: b :: rest => simp at h
    | n + 1, a :: b :: rest =>
      have hlen : (layer node (a :: b :: rest)).length ≤ rest.length + 1 := by
        rw [length_layer, List.length_cons, List.length_cons]
        omega
      simp only [List.length_cons] at h
      have hn : rest.length + 1 < n + 1 := by omega
      rw [root, List.length_cons, List.length_cons, climb, climb, ih n (by omega) (by omega)]
      exact (ih (rest.length + 1) hn hlen).symm

/-- **The root is the root of the next layer.** -/
theorem root_cons_cons (a b : D) (rest : List D) :
    root node empty (a :: b :: rest) = root node empty (layer node (a :: b :: rest)) := by
  have hlen : (layer node (a :: b :: rest)).length ≤ rest.length + 1 := by
    rw [length_layer, List.length_cons, List.length_cons]
    omega
  rw [root, List.length_cons, List.length_cons, climb, climb_eq_root node empty hlen]

end

end TruthLinked.Lib.Merkle
