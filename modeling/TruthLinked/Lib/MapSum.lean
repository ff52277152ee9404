import TruthLinked.Lib.Table
import Mathlib.Algebra.GroupWithZero.Nat
import Mathlib.Algebra.Order.BigOperators.Group.Finset

/-! # Sums over the entries of a map

The sum of a measure over the entries of a map. Two maps that agree away from one key have sums that differ
by what they hold there (`mapSum_exchange`); no key holds more than the sum (`valueAt_le`). -/

namespace TruthLinked.Lib.MapSum

open Lib.Table

variable {K V : Type} [Ord K] [Std.TransOrd K] [Std.LawfulEqOrd K] [DecidableEq K] (f : K → V → ℕ)

/-- What the entries of a map measure together. -/
def mapSum (m : Std.ExtTreeMap K V) : ℕ := (m.toList.map fun e => f e.1 e.2).sum

/-- What the entry of a key measures, 0 if there is none. -/
def valueAt (m : Std.ExtTreeMap K V) (k : K) : ℕ := m[k]?.elim 0 (f k)

variable {f} {m m' : Std.ExtTreeMap K V} {a b : K}

theorem mapSum_eq_sum {S : Finset K} (hS : ∀ k, k ∈ m → k ∈ S) : mapSum f m = ∑ k ∈ S, valueAt f m k :=
  sum_toList m (fun e => f e.1 e.2) hS

omit [Std.LawfulEqOrd K] [DecidableEq K] in
theorem valueAt_of_some {v : V} (h : m[a]? = some v) : valueAt f m a = f a v := by
  rw [valueAt, h, Option.elim_some]

omit [Std.LawfulEqOrd K] [DecidableEq K] in
theorem valueAt_of_none (h : m[a]? = none) : valueAt f m a = 0 := by
  rw [valueAt, h, Option.elim_none]

theorem mapSum_congr {g : K → V → ℕ} (h : ∀ k, valueAt g m' k = valueAt f m k) : mapSum g m' = mapSum f m := by
  set S : Finset K := m.keys.toFinset ∪ m'.keys.toFinset with hS
  have hm : ∀ k, k ∈ m → k ∈ S := fun k hk => by simp [hS, hk]
  have hm' : ∀ k, k ∈ m' → k ∈ S := fun k hk => by simp [hS, hk]
  rw [mapSum_eq_sum hm, mapSum_eq_sum hm']
  exact Finset.sum_congr rfl fun k _ => h k

/-- **Two maps that agree away from a key.** -/
theorem mapSum_exchange (h : ∀ k, k ≠ a → m'[k]? = m[k]?) :
    mapSum f m' + valueAt f m a = mapSum f m + valueAt f m' a := by
  set S : Finset K := insert a (m.keys.toFinset ∪ m'.keys.toFinset) with hS
  have hm : ∀ k, k ∈ m → k ∈ S := by
    intro k hk
    simp [hS, hk]
  have hm' : ∀ k, k ∈ m' → k ∈ S := by
    intro k hk
    simp [hS, hk]
  have ha : a ∈ S := by simp [hS]
  have hrest : ∑ k ∈ S.erase a, valueAt f m' k = ∑ k ∈ S.erase a, valueAt f m k := by
    refine Finset.sum_congr rfl fun k hk => ?_
    rw [valueAt, valueAt, h k (Finset.ne_of_mem_erase hk)]
  have hsum := Finset.add_sum_erase S (valueAt f m) ha
  have hsum' := Finset.add_sum_erase S (valueAt f m') ha
  rw [mapSum_eq_sum hm, mapSum_eq_sum hm']
  omega

theorem mapSum_erase (m : Std.ExtTreeMap K V) (a : K) : mapSum f (m.erase a) + valueAt f m a = mapSum f m := by
  have hoff : ∀ k, k ≠ a → (m.erase a)[k]? = m[k]? := fun k hk => by rw [getElem?_erase_ite, if_neg hk]
  have hnone : valueAt f (m.erase a) a = 0 := valueAt_of_none (by rw [getElem?_erase_ite, if_pos rfl])
  rw [mapSum_exchange hoff, hnone, add_zero]

theorem valueAt_le (m : Std.ExtTreeMap K V) (a : K) : valueAt f m a ≤ mapSum f m := by
  rw [← mapSum_erase m a]
  exact Nat.le_add_left _ _

theorem mapSum_insert (m : Std.ExtTreeMap K V) (a : K) (v : V) :
    mapSum f (m.insert a v) + valueAt f m a = mapSum f m + f a v := by
  have hoff : ∀ k, k ≠ a → (m.insert a v)[k]? = m[k]? := fun k hk => by rw [getElem?_insert_ite, if_neg hk]
  have hself : valueAt f (m.insert a v) a = f a v := valueAt_of_some (by rw [getElem?_insert_ite, if_pos rfl])
  rw [mapSum_exchange hoff, hself]

theorem getElem?_modify_ite (m : Std.ExtTreeMap K V) (k : K) (g : V → V) (a : K) :
    (m.modify k g)[a]? = if a = k then m[k]?.map g else m[a]? := by
  by_cases h : a = k
  · subst h
    simp
  · rw [if_neg h, Std.ExtTreeMap.getElem?_modify, if_neg]
    rw [Std.LawfulEqOrd.compare_eq_iff_eq]
    exact Ne.symm h

theorem mapSum_modify {v : V} (h : m[a]? = some v) (g : V → V) :
    mapSum f (m.modify a g) + f a v = mapSum f m + f a (g v) := by
  have hoff : ∀ k, k ≠ a → (m.modify a g)[k]? = m[k]? := fun k hk => by rw [getElem?_modify_ite, if_neg hk]
  have hself : (m.modify a g)[a]? = some (g v) := by rw [getElem?_modify_ite, if_pos rfl, h, Option.map_some]
  rw [← valueAt_of_some (f := f) h, mapSum_exchange hoff, valueAt_of_some hself]

omit [DecidableEq K] in
/-- What the chosen entries and an entry that is not chosen measure. -/
theorem sum_filter_add_le {p : K × V → Bool} (hp : ∀ e, p e = true → e.1 ≠ a) (m : Std.ExtTreeMap K V) :
    ((m.toList.filter p).map fun e => f e.1 e.2).sum + valueAt f m a ≤ mapSum f m := by
  have hperm : (m.toList.filter p ++ m.toList.filter fun e => !p e).Perm m.toList := List.filter_append_perm p _
  have hsum : mapSum f m = ((m.toList.filter p).map fun e => f e.1 e.2).sum +
      ((m.toList.filter fun e => !p e).map fun e => f e.1 e.2).sum := by
    rw [mapSum, ← (hperm.map _).sum_eq, List.map_append, List.sum_append]
  have hle : valueAt f m a ≤ ((m.toList.filter fun e => !p e).map fun e => f e.1 e.2).sum := by
    cases ha : m[a]? with
    | none => rw [valueAt_of_none ha]; exact Nat.zero_le _
    | some v =>
      have hmem : (a, v) ∈ m.toList.filter fun e => !p e := by
        refine List.mem_filter.mpr ⟨Std.ExtTreeMap.mem_toList_iff_getElem?_eq_some.mpr ha, ?_⟩
        cases hpa : p (a, v) with
        | false => rfl
        | true => exact absurd rfl (hp _ hpa)
      rw [valueAt_of_some ha]
      exact List.le_sum_of_mem (List.mem_map_of_mem (f := fun e : K × V => f e.1 e.2) hmem)
  omega

end TruthLinked.Lib.MapSum
