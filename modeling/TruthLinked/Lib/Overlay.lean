import Mathlib.Data.List.Sort
import Mathlib.Tactic.Common

/-! # Entries laid over others

A table as a list with one entry for each key. Newer entries take the place of older ones of their key,
or only remove them (`mem_foldl_lay`); what is sorted by its keys is strictly sorted (`strict_sort`). -/

namespace TruthLinked.Lib.Overlay

variable {K V : Type*}

/-- No key has two entries. -/
def UniqueKeys (rs : List (K × V)) : Prop := (rs.map Prod.fst).Nodup

theorem UniqueKeys.filter {rs : List (K × V)} (h : UniqueKeys rs) (f : K × V → Bool) : UniqueKeys (rs.filter f) :=
  List.Nodup.sublist (List.filter_sublist.map Prod.fst) h

theorem UniqueKeys.perm {rs rs' : List (K × V)} (h : UniqueKeys rs) (hperm : rs.Perm rs') : UniqueKeys rs' :=
  (hperm.map Prod.fst).nodup_iff.mp h

section Lay
variable [DecidableEq K] (p : K → Bool) (gone : V → Bool)

/-- An entry whose key meets `p` takes the place of the one of its key, unless its value means that the
key is gone. -/
def lay (rs : List (K × V)) (q : K × V) : List (K × V) :=
  if p q.1 then (rs.filter fun r => r.1 ≠ q.1) ++ (if gone q.2 then [] else [q]) else rs

variable {p gone} {rs qs : List (K × V)} {q x : K × V}

theorem mem_lay : x ∈ lay p gone rs q ↔
    (x ∈ rs ∧ ¬ (p x.1 = true ∧ x.1 = q.1)) ∨ (x = q ∧ p x.1 = true ∧ gone x.2 = false) := by
  unfold lay
  by_cases hp : p q.1 = true
  · rw [if_pos hp, List.mem_append, List.mem_filter]
    refine or_congr (and_congr_right fun _ => ?_) ?_
    · rw [decide_eq_true_eq, ne_eq, not_iff_not]
      exact ⟨fun hkey => ⟨hkey ▸ hp, hkey⟩, And.right⟩
    · cases hg : gone q.2 with
      | true =>
        refine ⟨fun h => (nomatch h), ?_⟩
        rintro ⟨rfl, -, hnot⟩
        rw [hg] at hnot
        cases hnot
      | false =>
        rw [if_neg (by simp), List.mem_singleton]
        refine ⟨?_, And.left⟩
        rintro rfl
        exact ⟨rfl, hp, hg⟩
  · rw [if_neg hp]
    refine ⟨fun hx => .inl ⟨hx, fun h => hp (h.2 ▸ h.1)⟩, ?_⟩
    rintro (⟨hx, -⟩ | ⟨rfl, hpx, -⟩)
    · exact hx
    · exact absurd hpx hp

theorem unique_lay (h : UniqueKeys rs) : UniqueKeys (lay p gone rs q) := by
  unfold lay
  split
  · have hfilter := h.filter fun r => decide (r.1 ≠ q.1)
    split
    · rw [List.append_nil]
      exact hfilter
    · unfold UniqueKeys at hfilter ⊢
      rw [List.map_append, List.map_singleton, List.nodup_append]
      refine ⟨hfilter, List.nodup_singleton _, ?_⟩
      intro a ha b hb
      obtain ⟨r, hr, rfl⟩ := List.mem_map.mp ha
      rw [List.mem_singleton.mp hb]
      simpa using (List.mem_filter.mp hr).2
  · exact h

/-- **What is left after all have been laid over**: an old entry whose key has no newer one, or a newer
one that does not mean that its key is gone. -/
theorem mem_foldl_lay (hqs : UniqueKeys qs) : x ∈ qs.foldl (lay p gone) rs ↔
    (x ∈ rs ∧ ¬ (p x.1 = true ∧ x.1 ∈ qs.map Prod.fst)) ∨ (x ∈ qs ∧ p x.1 = true ∧ gone x.2 = false) := by
  induction qs generalizing rs with
  | nil => simp
  | cons q qs ih =>
    obtain ⟨hq, hqs⟩ := List.nodup_cons.mp hqs
    rw [List.foldl_cons, ih hqs, mem_lay, List.map_cons, List.mem_cons, List.mem_cons]
    by_cases hxq : x = q
    · subst hxq
      have hnot : x ∉ qs := fun h => hq (List.mem_map_of_mem h)
      simp [hq, hnot]
    · by_cases hkey : x.1 = q.1
      · have hnot : x ∉ qs := fun h => hq (hkey ▸ List.mem_map_of_mem h)
        simp [hkey, hq, hnot, hxq]
      · simp [hkey, hxq]

theorem unique_foldl_lay (h : UniqueKeys rs) : UniqueKeys (qs.foldl (lay p gone) rs) := by
  induction qs generalizing rs with
  | nil => exact h
  | cons q qs ih => exact ih (unique_lay h)

end Lay

/-- **Entries sorted by their keys are strictly sorted.** -/
theorem strict_sort (le : K → K → Prop) [DecidableRel le] [IsTrans K le] [Std.Total le] {rs : List (K × V)}
    (h : UniqueKeys rs) :
    (rs.insertionSort fun a b => le a.1 b.1).Pairwise fun a b => le a.1 b.1 ∧ a.1 ≠ b.1 := by
  have : IsTrans (K × V) fun a b => le a.1 b.1 := ⟨fun _ _ _ hab hbc => trans_of le hab hbc⟩
  have : Std.Total fun a b : K × V => le a.1 b.1 := ⟨fun a b => total_of le a.1 b.1⟩
  have hsorted := List.pairwise_insertionSort (fun a b : K × V => le a.1 b.1) rs
  have hunique := List.pairwise_map.mp (h.perm (List.perm_insertionSort (fun a b : K × V => le a.1 b.1) rs).symm)
  exact hsorted.and hunique

end TruthLinked.Lib.Overlay
