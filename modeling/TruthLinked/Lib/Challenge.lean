import Mathlib.Data.List.Induction
import Mathlib.Data.List.Perm.Basic
import Mathlib.Tactic.Common

/-! # A champion and its challengers

Challengers come one after the other, and each takes the place of the champion iff it beats the champion
of that moment. The relation need not be transitive. The last champion does not depend on the order of the
challengers iff no challenger beats the first champion, or one that beats the first champion is beaten by
no challenger (`champion_perm_iff`). -/

namespace TruthLinked.Lib.Challenge

variable {α : Type*} (beats : α → α → Bool)

/-- The champion after one challenge. -/
def challenge (t x : α) : α := if beats x t then x else t

/-- The champion after the challengers `xs`. -/
def champion (t : α) (xs : List α) : α := xs.foldl (challenge beats) t

variable {beats} {t m : α} {xs : List α}

theorem champion_append (t : α) (xs ys : List α) :
    champion beats t (xs ++ ys) = champion beats (champion beats t xs) ys := List.foldl_append

theorem champion_concat (t x : α) (xs : List α) :
    champion beats t (xs ++ [x]) = challenge beats (champion beats t xs) x := champion_append t xs [x]

theorem champion_mem (t : α) (xs : List α) : champion beats t xs = t ∨ champion beats t xs ∈ xs := by
  induction xs using List.reverseRecOn with
  | nil => exact Or.inl rfl
  | append_singleton xs x ih =>
    rw [champion_concat]
    unfold challenge
    split_ifs
    · exact Or.inr (by simp)
    · rcases ih with h | h
      · exact Or.inl h
      · exact Or.inr (List.mem_append_left _ h)

theorem champion_eq_self (h : ∀ x ∈ xs, beats x t = false) : champion beats t xs = t := by
  induction xs with
  | nil => rfl
  | cons x xs ih =>
    have hx : challenge beats t x = t := by
      unfold challenge
      rw [h x List.mem_cons_self]
      rfl
    show champion beats (challenge beats t x) xs = t
    rw [hx]
    exact ih fun y hy => h y (List.mem_cons_of_mem _ hy)

theorem champion_eq_leader (hm : m ∈ xs) (ht : beats m t = true)
    (hwin : ∀ x ∈ xs, x ≠ m → beats m x = true) (hmax : ∀ x ∈ xs, beats x m = false) :
    champion beats t xs = m := by
  obtain ⟨before, after, rfl⟩ := List.append_of_mem hm
  have hseat : challenge beats (champion beats t before) m = m := by
    unfold challenge
    split_ifs with hb
    · rfl
    · rcases @champion_mem _ beats t before with he | hin
      · rw [he] at hb
        exact absurd ht hb
      · by_contra hne
        exact hb (hwin _ (List.mem_append_left _ hin) hne)
  rw [champion_append]
  show champion beats (challenge beats (champion beats t before) m) after = m
  rw [hseat]
  exact champion_eq_self fun x hx => hmax x (by simp [hx])

/-- If every order ends with the challenger `w`, it beats the first champion: it could have come first. -/
theorem beats_of_perm [DecidableEq α] {w : α} (hne : w ≠ t)
    (h : ∀ ys, ys.Perm xs → champion beats t ys = w) : beats w t = true := by
  by_contra hb
  have hfirst := h _ (List.filter_append_perm (fun x => decide (x = w)) xs)
  have hstay : champion beats t (xs.filter fun x => decide (x = w)) = t := by
    refine champion_eq_self fun x hx => ?_
    rw [of_decide_eq_true (List.mem_filter.mp hx).2]
    exact Bool.eq_false_iff.mpr hb
  rw [champion_append, hstay] at hfirst
  rcases @champion_mem _ beats t (xs.filter fun x => !decide (x = w)) with he | hin
  · exact hne (hfirst.symm.trans he)
  · rw [hfirst] at hin
    simpa using (List.mem_filter.mp hin).2

section Order
variable (hirr : ∀ x, beats x x = false)
include hirr

/-- If every order ends with `w`, no challenger beats `w`: it could have come last. -/
theorem not_beats_of_perm {w : α} (h : ∀ ys, ys.Perm xs → champion beats t ys = w) :
    ∀ x ∈ xs, beats x w = false := by
  intro y hy
  obtain ⟨before, after, rfl⟩ := List.append_of_mem hy
  have hperm : ((before ++ after) ++ [y]).Perm (before ++ y :: after) :=
    (List.perm_append_singleton y _).trans List.perm_middle.symm
  have hlast := h _ hperm
  rw [champion_concat] at hlast
  unfold challenge at hlast
  split_ifs at hlast with hb
  · rw [← hlast]
    exact hirr y
  · rw [← hlast]
    exact Bool.eq_false_iff.mpr hb

/-- **When the order of the challengers does not matter**, the relation being irreflexive and total among
them. -/
theorem champion_perm_iff [DecidableEq α]
    (htotal : ∀ x ∈ xs, ∀ y ∈ xs, x ≠ y → beats x y = true ∨ beats y x = true) :
    (∀ ys, ys.Perm xs → champion beats t ys = champion beats t xs) ↔
      (∀ x ∈ xs, beats x t = false) ∨
        ∃ m ∈ xs, beats m t = true ∧ ∀ x ∈ xs, beats x m = false := by
  constructor
  · intro h
    by_cases hself : champion beats t xs = t
    · rw [hself] at h
      exact Or.inl (not_beats_of_perm hirr h)
    · have hin : champion beats t xs ∈ xs := (champion_mem t xs).resolve_left hself
      exact Or.inr ⟨_, hin, beats_of_perm hself h, not_beats_of_perm hirr h⟩
  · rintro (h | ⟨m, hm, ht, hmax⟩) ys hperm
    · rw [champion_eq_self h, champion_eq_self fun x hx => h x (hperm.mem_iff.mp hx)]
    · have hwin : ∀ x ∈ xs, x ≠ m → beats m x = true := by
        intro x hx hne
        refine (htotal m hm x hx (Ne.symm hne)).resolve_right ?_
        rw [hmax x hx]
        exact Bool.false_ne_true
      rw [champion_eq_leader hm ht hwin hmax]
      refine champion_eq_leader (hperm.mem_iff.mpr hm) ht ?_ ?_
      · exact fun x hx => hwin x (hperm.mem_iff.mp hx)
      · exact fun x hx => hmax x (hperm.mem_iff.mp hx)

end Order

end TruthLinked.Lib.Challenge
