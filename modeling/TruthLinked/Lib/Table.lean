import Mathlib.Algebra.BigOperators.Group.Finset.Basic
import Mathlib.Tactic.Common

/-! # Reading a changed table

What the entries of a finite map are after one of its operations, with equality of keys in place of the
outcome of a comparison; after a run of insertions the last item of a key decides (`lastOf`). -/

namespace TruthLinked.Lib.Table

section Last
variable {α K : Type*} [DecidableEq K] {key : α → K} {a : K} {l l' : List α} {x : α}

/-- The last item of the key `a`. -/
def lastOf (key : α → K) (a : K) (l : List α) : Option α := (l.filter fun x => key x = a).getLast?

@[simp] theorem lastOf_nil (key : α → K) (a : K) : lastOf key a [] = none := rfl

theorem lastOf_append : lastOf key a (l ++ l') = (lastOf key a l').or (lastOf key a l) := by
  unfold lastOf
  rw [List.filter_append, List.getLast?_append]

theorem lastOf_singleton : lastOf key a [x] = if key x = a then some x else none := by
  unfold lastOf
  by_cases h : key x = a <;> simp [h]

theorem lastOf_concat : lastOf key a (l ++ [x]) = if key x = a then some x else lastOf key a l := by
  rw [lastOf_append, lastOf_singleton]
  by_cases h : key x = a
  · rw [if_pos h, if_pos h, Option.some_or]
  · rw [if_neg h, if_neg h, Option.none_or]

theorem lastOf_eq_none : lastOf key a l = none ↔ ∀ x ∈ l, key x ≠ a := by
  unfold lastOf
  rw [List.getLast?_eq_none_iff, List.filter_eq_nil_iff]
  simp only [decide_eq_true_eq]

theorem lastOf_mem (h : lastOf key a l = some x) : x ∈ l ∧ key x = a := by
  have := List.mem_of_getLast? h
  rw [List.mem_filter, decide_eq_true_eq] at this
  exact this

theorem lastOf_map {β : Type*} (key : α → K) (a : K) (f : β → α) (l : List β) :
    lastOf key a (l.map f) = (lastOf (fun y => key (f y)) a l).map f := by
  unfold lastOf
  rw [List.filter_map, List.getLast?_map]
  rfl

theorem foldl_lastOf {β : Type*} (key : α → K) (a : K) (f : α → β) (l : List α) (b : Option β) :
    l.foldl (fun best x => if key x = a then some (f x) else best) b = ((lastOf key a l).map f).or b := by
  induction l using List.reverseRecOn with
  | nil => rfl
  | append_singleton l x ih =>
    rw [List.foldl_append, List.foldl_cons, List.foldl_nil, ih, lastOf_concat]
    split <;> rfl

theorem lastOf_filter {p : α → Bool} (h : lastOf key a l = some x) (hx : p x = true) :
    lastOf key a (l.filter p) = some x := by
  induction l using List.reverseRecOn with
  | nil => cases h
  | append_singleton l y ih =>
    rw [lastOf_concat] at h
    rw [List.filter_append]
    split at h
    case isTrue hy =>
      obtain rfl := Option.some.inj h
      rw [List.filter_singleton, hx, cond_true, lastOf_concat, if_pos hy]
    case isFalse hy =>
      cases hp : p y with
      | true => rw [List.filter_singleton, hp, cond_true, lastOf_concat, if_neg hy, ih h]
      | false => rw [List.filter_singleton, hp, cond_false, List.append_nil, ih h]

end Last

variable {K V : Type} [Ord K] [Std.TransOrd K] [Std.LawfulEqOrd K] [DecidableEq K]
  (m : Std.ExtTreeMap K V) (k a : K) (v : V)

omit [Std.TransOrd K] [DecidableEq K] in
theorem compare_eq_iff : compare k a = .eq ↔ a = k := by
  constructor
  · exact fun h => (Std.LawfulEqOrd.eq_of_compare h).symm
  · rintro rfl
    exact Std.ReflOrd.compare_self

theorem getElem?_insert_ite : (m.insert k v)[a]? = if a = k then some v else m[a]? := by
  rw [Std.ExtTreeMap.getElem?_insert]
  exact if_congr (compare_eq_iff k a) rfl rfl

theorem getElem?_erase_ite : (m.erase k)[a]? = if a = k then none else m[a]? := by
  rw [Std.ExtTreeMap.getElem?_erase]
  exact if_congr (compare_eq_iff k a) rfl rfl

theorem getElem?_insertIfNew_ite :
    (m.insertIfNew k v)[a]? = if a = k then some (m[k]?.getD v) else m[a]? := by
  rw [Std.ExtTreeMap.getElem?_insertIfNew]
  by_cases ha : a = k
  · subst ha
    by_cases hin : a ∈ m
    · rw [if_neg fun h => h.2 hin, if_pos rfl, Std.ExtTreeMap.getElem?_eq_some_getElem hin]
      rfl
    · rw [if_pos ⟨Std.ReflOrd.compare_self, hin⟩, if_pos rfl, Std.ExtTreeMap.getElem?_eq_none hin]
      rfl
  · rw [if_neg ha, if_neg fun h => ha ((compare_eq_iff k a).mp h.1)]

/-- **A run of insertions**: the last one of a key counts. -/
theorem getElem?_foldl_insert {α : Type*} (key : α → K) (val : α → V) (l : List α) :
    (l.foldl (fun m x => m.insert (key x) (val x)) m)[a]? =
      ((lastOf key a l).map val).or m[a]? := by
  induction l generalizing m with
  | nil => simp
  | cons x l ih =>
    rw [List.foldl_cons, ih, getElem?_insert_ite, ← List.singleton_append (l := l), lastOf_append,
      lastOf_singleton]
    by_cases h : key x = a
    · rw [if_pos h, if_pos h.symm]
      cases lastOf key a l <;> rfl
    · rw [if_neg h, if_neg (Ne.symm h)]
      cases lastOf key a l <;> rfl

section Sum
variable {M : Type*} [AddCommMonoid M] (f : K × V → M)

theorem sum_toList {S : Finset K} (hS : ∀ k : K, k ∈ m → k ∈ S) :
    (m.toList.map f).sum = ∑ k ∈ S, m[k]?.elim 0 fun v => f (k, v) := by
  have hmap : m.toList.map f = m.keys.map fun k => m[k]?.elim 0 fun v => f (k, v) := by
    rw [← Std.ExtTreeMap.map_fst_toList_eq_keys, List.map_map]
    refine List.map_congr_left fun p hp => ?_
    rw [Function.comp_apply, Std.ExtTreeMap.mem_toList_iff_getElem?_eq_some.mp hp, Option.elim_some]
  have hnodup : m.keys.Nodup := m.nodup_keys
  rw [hmap, ← List.sum_toFinset _ hnodup]
  refine Finset.sum_subset ?_ ?_
  · intro k hk
    exact hS k (Std.ExtTreeMap.mem_keys.mp (List.mem_toFinset.mp hk))
  · intro k _ hk
    have : k ∉ m := fun h => hk (List.mem_toFinset.mpr (Std.ExtTreeMap.mem_keys.mpr h))
    rw [Std.ExtTreeMap.getElem?_eq_none this, Option.elim_none]

end Sum

end TruthLinked.Lib.Table
