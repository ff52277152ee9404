import Mathlib.Order.Monotone.Basic
import TruthLinked.Lib.Run

/-! # Lanes

Items that carry a number are run one after the other. A lane expects one number at a time: an item of the
lane is taken only when it has that number, and the next number is expected then, up to a last one. Of the
items of a lane that are numbered without a gap, an item comes at its turn exactly when the items below it
have been taken before it (`turn_iff`). -/

namespace TruthLinked.Lib.Lane

open Lib.Run

/-- What makes the items in `mine` a lane of the run: the number it expects, and when an item is taken. -/
structure Counter {S α : Type*} (step : S → α → S) (mine : α → Prop) (num : α → ℕ) (last : ℕ) where
  expected : S → ℕ
  Takes : S → α → Prop
  le_last : ∀ s, expected s ≤ last
  of_takes : ∀ s x, mine x → Takes s x → num x = expected s ∧ expected (step s x) = min (expected s + 1) last
  of_not : ∀ s x, ¬ (mine x ∧ Takes s x) → expected (step s x) = expected s

/-- The items of a lane are numbered from `start` on, without a gap, and each number below the last occurs
once. -/
structure Numbered {α : Type*} (mine : α → Prop) (num : α → ℕ) (last start : ℕ) (l : List α) : Prop where
  bounds : ∀ x ∈ l, mine x → start ≤ num x ∧ num x ≤ last
  no_gap : ∀ x ∈ l, mine x → ∀ m, start ≤ m → m < num x → ∃ y ∈ l, mine y ∧ num y = m
  once : l.Pairwise fun x y => mine x → mine y → num x = num y → num x = last

section Numbered
variable {α : Type*} {mine : α → Prop} {num : α → ℕ} {last start : ℕ} {l l' : List α}

theorem Numbered.perm (h : Numbered mine num last start l) (hperm : l.Perm l') :
    Numbered mine num last start l' where
  bounds x hx := h.bounds x (hperm.mem_iff.mpr hx)
  no_gap x hx hmine m hm hlt := by
    obtain ⟨y, hy, hrest⟩ := h.no_gap x (hperm.mem_iff.mpr hx) hmine m hm hlt
    exact ⟨y, hperm.mem_iff.mp hy, hrest⟩
  once := by
    refine (hperm.pairwise_iff ?_).mp h.once
    intro x y hxy hy hx heq
    rw [heq]
    exact hxy hx hy heq.symm

theorem Numbered.position_eq (h : Numbered mine num last start l) {i j : ℕ} {x y : α} (hi : l[i]? = some x)
    (hj : l[j]? = some y) (hx : mine x) (hy : mine y) (heq : num x = num y) (hlt : num x < last) : i = j := by
  have hpair := List.pairwise_iff_getElem.mp h.once
  obtain ⟨hi', rfl⟩ := List.getElem?_eq_some_iff.mp hi
  obtain ⟨hj', rfl⟩ := List.getElem?_eq_some_iff.mp hj
  rcases Nat.lt_trichotomy i j with hij | hij | hij
  · have := hpair i j hi' hj' hij hx hy heq
    omega
  · exact hij
  · have := hpair j i hj' hi' hij hy hx heq.symm
    omega

theorem Numbered.concat (h : Numbered mine num last start l) {x : α}
    (hx : mine x → start ≤ num x ∧ num x ≤ last)
    (hgap : mine x → ∀ m, start ≤ m → m < num x → ∃ y ∈ l, mine y ∧ num y = m)
    (hnew : mine x → ∀ y ∈ l, mine y → num y = num x → num y = last) :
    Numbered mine num last start (l ++ [x]) where
  bounds y hy hmine := by
    rcases List.mem_append.mp hy with hy | hy
    · exact h.bounds y hy hmine
    · cases List.mem_singleton.mp hy
      exact hx hmine
  no_gap y hy hmine m hm hlt := by
    obtain ⟨z, hz, hrest⟩ : ∃ z ∈ l, mine z ∧ num z = m := by
      rcases List.mem_append.mp hy with hy | hy
      · exact h.no_gap y hy hmine m hm hlt
      · cases List.mem_singleton.mp hy
        exact hgap hmine m hm hlt
    exact ⟨z, List.mem_append_left _ hz, hrest⟩
  once := by
    refine List.pairwise_append.mpr ⟨h.once, List.pairwise_singleton _ _, ?_⟩
    intro y hy z hz hy' hz' heq
    cases List.mem_singleton.mp hz
    exact hnew hz' y hy hy' heq

end Numbered

section Turns
variable {S α : Type*} {step : S → α → S} {mine : α → Prop} {num : α → ℕ} {last : ℕ}
variable (lane : Counter step mine num last) {s : S} {l : List α}

/-- The state before the item at position `i`. -/
def before (step : S → α → S) (s : S) (l : List α) (i : ℕ) : S := run step s (l.take i)

theorem before_succ {i : ℕ} {x : α} (h : l[i]? = some x) :
    before step s l (i + 1) = step (before step s l i) x := by
  rw [before, List.take_add_one, h, Option.toList_some, run_append]
  rfl

theorem before_of_none {i : ℕ} (h : l[i]? = none) : before step s l (i + 1) = before step s l i := by
  rw [before, List.take_add_one, h, Option.toList_none, List.append_nil]
  rfl

theorem expected_le_step (x : α) : lane.expected s ≤ lane.expected (step s x) := by
  have hlast := lane.le_last s
  by_cases h : mine x ∧ lane.Takes s x
  · rw [(lane.of_takes s x h.1 h.2).2]
    omega
  · rw [lane.of_not s x h]

theorem taken_of_lt {m i : ℕ} (hm : lane.expected s ≤ m) (hlt : m < lane.expected (before step s l i)) :
    ∃ k < i, ∃ x, l[k]? = some x ∧ mine x ∧ lane.Takes (before step s l k) x ∧ num x = m := by
  induction i with
  | zero => exact absurd hlt (Nat.not_lt.mpr hm)
  | succ i ih =>
    -- the number was expected at some step before, or is the one that the last item had
    have hearlier : m < lane.expected (before step s l i) →
        ∃ k < i + 1, ∃ x, l[k]? = some x ∧ mine x ∧ lane.Takes (before step s l k) x ∧ num x = m := by
      intro h
      obtain ⟨k, hk, hrest⟩ := ih h
      exact ⟨k, by omega, hrest⟩
    cases hx : l[i]? with
    | none =>
      rw [before_of_none hx] at hlt
      exact hearlier hlt
    | some x =>
      rw [before_succ hx] at hlt
      by_cases htakes : mine x ∧ lane.Takes (before step s l i) x
      · obtain ⟨hturn, hnext⟩ := lane.of_takes _ x htakes.1 htakes.2
        rcases Nat.lt_or_ge m (lane.expected (before step s l i)) with h | h
        · exact hearlier h
        · refine ⟨i, by omega, x, hx, htakes.1, htakes.2, ?_⟩
          omega
      · rw [lane.of_not _ x htakes] at hlt
        exact hearlier hlt

theorem expected_mono {i j : ℕ} (hij : i ≤ j) :
    lane.expected (before step s l i) ≤ lane.expected (before step s l j) := by
  have hsucc : ∀ i, lane.expected (before step s l i) ≤ lane.expected (before step s l (i + 1)) := by
    intro i
    cases hx : l[i]? with
    | none => rw [before_of_none hx]
    | some x =>
      rw [before_succ hx]
      exact expected_le_step lane x
  exact monotone_nat_of_le_succ hsucc hij

/-- **An item comes at its turn** iff those below it have been taken before. -/
theorem turn_iff (h : Numbered mine num last (lane.expected s) l) {j : ℕ} {x : α} (hj : l[j]? = some x)
    (hx : mine x) :
    num x = lane.expected (before step s l j) ↔
      ∀ y ∈ l, mine y → num y < num x → ∃ i < j, l[i]? = some y ∧ lane.Takes (before step s l i) y := by
  obtain ⟨hstart, hlast⟩ := h.bounds x (List.mem_of_getElem? hj) hx
  constructor
  · intro hturn y hy hmine hlt
    obtain ⟨k, hk, z, hz, hz', htakes, hnum⟩ :=
      taken_of_lt lane (h.bounds y hy hmine).1 (hturn ▸ hlt)
    obtain ⟨i, hi⟩ := List.mem_iff_getElem?.mp hy
    have hpos : i = k := h.position_eq hi hz hmine hz' hnum.symm (by omega)
    subst hpos
    cases hi.symm.trans hz
    exact ⟨i, hk, hi, htakes⟩
  · intro hbelow
    rcases Nat.lt_trichotomy (num x) (lane.expected (before step s l j)) with hlt | heq | hgt
    · -- another item with the same number would have been taken
      obtain ⟨k, hk, z, hz, hz', -, hnum⟩ := taken_of_lt lane hstart hlt
      have hle := lane.le_last (before step s l j)
      have := h.position_eq hz hj hz' hx hnum (by omega)
      omega
    · exact heq
    · have hge : lane.expected s ≤ lane.expected (before step s l j) := expected_mono lane (Nat.zero_le j)
      obtain ⟨y, hy, hmine, hnum⟩ := h.no_gap x (List.mem_of_getElem? hj) hx _ hge hgt
      obtain ⟨i, hij, hi, htakes⟩ := hbelow y hy hmine (by omega)
      obtain ⟨hturn, hnext⟩ := lane.of_takes _ y hmine htakes
      have hafter := expected_mono lane (s := s) (l := l) (show i + 1 ≤ j from hij)
      rw [before_succ hi, hnext] at hafter
      omega

end Turns

end TruthLinked.Lib.Lane
