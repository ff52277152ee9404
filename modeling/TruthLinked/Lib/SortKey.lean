import Mathlib.Data.List.Sort
import Mathlib.Tactic.Common

/-! # Sorting by a key

A stable sort by a key, and when its result does not depend on the order of the input: no two different
items may have the same key. -/

namespace TruthLinked.Lib.SortKey

variable {α K : Type*} [Ord K] {key : α → K} {l l' : List α}

/-- `key a ≤ key b`. -/
def keyLe (key : α → K) (a b : α) : Bool := (compare (key a) (key b)).isLE

/-- The items in the order of their keys; items of one key stay in the order they had. -/
def sortByKey (key : α → K) (l : List α) : List α := l.insertionSort fun a b => keyLe key a b = true

/-- No two different items have the same key. -/
def KeysTellApart (key : α → K) (l : List α) : Prop :=
  ∀ a ∈ l, ∀ b ∈ l, compare (key a) (key b) = .eq → a = b

theorem sortByKey_perm (key : α → K) (l : List α) : (sortByKey key l).Perm l :=
  List.perm_insertionSort _ _

@[simp] theorem length_sortByKey (key : α → K) (l : List α) : (sortByKey key l).length = l.length :=
  (sortByKey_perm key l).length_eq

@[simp] theorem mem_sortByKey {a : α} : a ∈ sortByKey key l ↔ a ∈ l := (sortByKey_perm key l).mem_iff

variable [Std.TransOrd K]

theorem keyLe_trans {a b c : α} (hab : keyLe key a b = true) (hbc : keyLe key b c = true) :
    keyLe key a c = true := Std.TransCmp.isLE_trans hab hbc

theorem keyLe_total (a b : α) : keyLe key a b = true ∨ keyLe key b a = true := by
  have hswap : compare (key a) (key b) = (compare (key b) (key a)).swap := Std.OrientedCmp.eq_swap
  rw [keyLe, keyLe, hswap]
  cases compare (key b) (key a) <;> simp

theorem sortByKey_pairwise (key : α → K) (l : List α) :
    (sortByKey key l).Pairwise fun a b => keyLe key a b = true := by
  have : IsTrans α fun a b => keyLe key a b = true := ⟨fun _ _ _ => keyLe_trans⟩
  have : Std.Total fun a b : α => keyLe key a b = true := ⟨keyLe_total⟩
  exact List.pairwise_insertionSort _ l

/-- **The sort leaves a list alone** iff it is sorted. -/
theorem sortByKey_eq_self_iff :
    sortByKey key l = l ↔ l.Pairwise fun a b => keyLe key a b = true := by
  constructor
  · intro h
    have := sortByKey_pairwise key l
    rwa [h] at this
  · exact List.Pairwise.insertionSort_eq

/-- **The result does not depend on the order of the input** if the keys tell the items apart. -/
theorem sortByKey_eq_of_perm (hperm : l.Perm l') (hkey : KeysTellApart key l) :
    sortByKey key l = sortByKey key l' := by
  have hsorted : (sortByKey key l).Perm (sortByKey key l') :=
    ((sortByKey_perm key l).trans hperm).trans (sortByKey_perm key l').symm
  refine hsorted.eq_of_pairwise ?_ (sortByKey_pairwise key l) (sortByKey_pairwise key l')
  intro a b ha hb hab hba
  rw [mem_sortByKey] at ha hb
  refine hkey a ha b (hperm.mem_iff.mpr hb) ?_
  exact Std.OrientedCmp.isLE_antisymm hab hba

end TruthLinked.Lib.SortKey
