import Mathlib.Logic.Relation
import Mathlib.Tactic.Common

/-! # Ancestry in a graded forest

A table of links gives some keys a height and, unless they are roots, a parent; parents are one lower.
Two ancestors of one key are on one line, the lower one under the higher (`Descends.of_le`), and new
links leave ancestry as it was (`Descends.mono`). -/

namespace TruthLinked.Lib.Ancestry

open Relation

variable {K : Type*}

/-- The place of a key in the forest. -/
structure Link (K : Type*) where
  parent : Option K
  height : ℕ

/-- The link of `t` leads to `p`. -/
def Parent (links : K → Option (Link K)) (t p : K) : Prop :=
  ∃ l, links t = some l ∧ l.parent = some p

/-- `b` is `t` or one of its ancestors. -/
def Descends (links : K → Option (Link K)) (t b : K) : Prop := ReflTransGen (Parent links) t b

/-- The parent of a key is known, and is one lower. -/
def Graded (links : K → Option (Link K)) : Prop :=
  ∀ t l p, links t = some l → l.parent = some p → ∃ m, links p = some m ∧ l.height = m.height + 1

variable {links links' : K → Option (Link K)}

theorem Descends.refl (t : K) : Descends links t t := ReflTransGen.refl

theorem Descends.trans {t c b : K} (h : Descends links t c) (h' : Descends links c b) :
    Descends links t b := ReflTransGen.trans h h'

theorem Descends.mono (hsub : ∀ t p, Parent links t p → Parent links' t p) {t b : K}
    (h : Descends links t b) : Descends links' t b := by
  induction h with
  | refl => exact Descends.refl t
  | tail _ hstep ih => exact ReflTransGen.tail ih (hsub _ _ hstep)

/-- An ancestor of a known key is known, and is lower unless it is the key itself. -/
theorem Descends.height (hg : Graded links) {t b : K} (h : Descends links t b) {l : Link K}
    (hl : links t = some l) : ∃ m, links b = some m ∧ (b = t ∨ m.height < l.height) := by
  induction h with
  | refl => exact ⟨l, hl, Or.inl rfl⟩
  | tail _ hstep ih =>
    obtain ⟨m, hm, hle⟩ := ih
    obtain ⟨m', hm', hp⟩ := hstep
    obtain rfl : m = m' := Option.some.inj (hm.symm.trans hm')
    obtain ⟨k, hk, hgr⟩ := hg _ _ _ hm hp
    refine ⟨k, hk, Or.inr ?_⟩
    rcases hle with rfl | hlt
    · rw [hl] at hm
      cases hm
      omega
    · omega

/-- **Of two ancestors of one key**, the higher one descends from the lower one. -/
theorem Descends.of_le (hg : Graded links) {t b c : K} (hb : Descends links t b)
    (hc : Descends links t c) {lb lc : Link K} (hlb : links b = some lb) (hlc : links c = some lc)
    (hle : lb.height ≤ lc.height) : Descends links c b := by
  have huniq : Relator.RightUnique (Parent links) := by
    rintro x y z ⟨l, hl, hy⟩ ⟨l', hl', hz⟩
    obtain rfl : l = l' := Option.some.inj (hl.symm.trans hl')
    exact Option.some.inj (hy.symm.trans hz)
  rcases ReflTransGen.total_of_right_unique huniq hb hc with h | h
  · obtain ⟨m, hm, heq | hlt⟩ := Descends.height hg h hlb
    · exact heq ▸ Descends.refl c
    · rw [hlc] at hm
      cases hm
      omega
  · exact h

end TruthLinked.Lib.Ancestry
