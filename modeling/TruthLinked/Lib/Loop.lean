import Mathlib.Data.Fintype.Card
import Mathlib.Logic.Relation
import Mathlib.Tactic.Common

/-! # Loops without a guard

A loop runs its body until the body returns, and may run forever; `loop` gives it so many turns. A loop
whose turns follow a relation without cycles on a finite type ends (`halts_of_acyclic`), and a loop that
never leaves a set of states on which its body goes on does not (`not_halts`). One more edge keeps a
relation without cycles iff its source is not reached from its target (`acyclic_insert`). -/

namespace TruthLinked.Lib.Loop

open Relation

variable {S R : Type*} (body : S → S ⊕ R)

/-- At most `n` turns of the loop. -/
def loop : ℕ → S → Option R
  | 0, _ => none
  | n + 1, s =>
    match body s with
    | .inl s' => loop n s'
    | .inr r => some r

/-- The loop ends. -/
def Halts (s : S) : Prop := ∃ n, (loop body n s).isSome

variable {body} {s s' : S}

theorem loop_succ_inl (h : body s = .inl s') (n : ℕ) : loop body (n + 1) s = loop body n s' := by
  simp only [loop, h]

theorem loop_mono {n m : ℕ} (hle : n ≤ m) {r : R} (h : loop body n s = some r) :
    loop body m s = some r := by
  induction n generalizing s m with
  | zero => cases h
  | succ n ih =>
    obtain ⟨m, rfl⟩ : ∃ k, m = k + 1 := ⟨m - 1, by omega⟩
    cases hb : body s with
    | inl s' =>
      rw [loop_succ_inl hb] at h ⊢
      exact ih (by omega) h
    | inr r' =>
      simp only [loop, hb] at h ⊢
      exact h

/-- A loop returns from a state that an invariant of its turns reaches. -/
theorem exists_inr_of_loop {I : S → Prop} (hstep : ∀ s s', I s → body s = .inl s' → I s') {n : ℕ} {r : R}
    (hI : I s) (h : loop body n s = some r) : ∃ s', I s' ∧ body s' = .inr r := by
  induction n generalizing s with
  | zero => cases h
  | succ n ih =>
    cases hb : body s with
    | inl s' =>
      rw [loop_succ_inl hb] at h
      exact ih (hstep s s' hI hb) h
    | inr r' =>
      simp only [loop, hb] at h
      cases h
      exact ⟨s, hI, hb⟩

theorem halts_of_inr {r : R} (h : body s = .inr r) : Halts body s := ⟨1, by simp only [loop, h]; rfl⟩

theorem halts_of_inl (h : body s = .inl s') (hs : Halts body s') : Halts body s := by
  obtain ⟨n, hn⟩ := hs
  exact ⟨n + 1, by rw [loop_succ_inl h]; exact hn⟩

theorem halts_of_wellFounded {α : Type*} {r : α → α → Prop} (hwf : WellFounded r) (key : S → α)
    (hdown : ∀ s s', body s = .inl s' → r (key s') (key s)) (s : S) : Halts body s := by
  induction hk : key s using hwf.induction generalizing s with
  | _ k ih =>
    cases hb : body s with
    | inl s' => exact halts_of_inl hb (ih _ (hk ▸ hdown s s' hb) s' rfl)
    | inr r => exact halts_of_inr hb

/-- A loop that goes on from every state of `I` to a state of `I` does not end. -/
theorem not_halts {I : S → Prop} (hgo : ∀ s, I s → ∃ s', body s = .inl s' ∧ I s') (hs : I s) :
    ¬ Halts body s := by
  rintro ⟨n, hn⟩
  induction n generalizing s with
  | zero => cases hn
  | succ n ih =>
    obtain ⟨s', hb, hI⟩ := hgo s hs
    rw [loop_succ_inl hb] at hn
    exact ih hI hn

/-! ## Relations without cycles -/

section Acyclic
variable {α : Type*} {r r' : α → α → Prop}

/-- No path leads from an element back to it. -/
def Acyclic (r : α → α → Prop) : Prop := ∀ a, ¬ TransGen r a a

theorem Acyclic.mono (h : Acyclic r) (hsub : ∀ a b, r' a b → r a b) : Acyclic r' :=
  fun a ha => h a (TransGen.mono hsub a a ha)

theorem Acyclic.wellFounded [Finite α] (h : Acyclic r) : WellFounded (Function.swap r) := by
  have : Std.Irrefl (Function.swap (TransGen r)) := ⟨h⟩
  have : IsTrans α (Function.swap (TransGen r)) := ⟨fun _ _ _ hab hbc => TransGen.trans hbc hab⟩
  have hwf : WellFounded (Function.swap (TransGen r)) := Finite.wellFounded_of_trans_of_irrefl _
  have hsub : Subrelation (Function.swap r) (Function.swap (TransGen r)) := fun hba => TransGen.single hba
  exact hsub.wf hwf

theorem halts_of_acyclic [Finite α] (h : Acyclic r) (key : S → α)
    (hstep : ∀ s s', body s = .inl s' → r (key s) (key s')) (s : S) : Halts body s :=
  halts_of_wellFounded h.wellFounded key hstep s

section Insert
variable {a b : α} (hedge : ∀ x y, r' x y → r x y ∨ (x = a ∧ y = b))
include hedge

/-- A path with one more edge is an old path, or goes over the edge. -/
theorem transGen_insert {x y : α} (h : TransGen r' x y) :
    TransGen r x y ∨ (ReflTransGen r x a ∧ ReflTransGen r b y) := by
  induction h with
  | single hxy =>
    rcases hedge _ _ hxy with hold | ⟨rfl, rfl⟩
    · exact Or.inl (TransGen.single hold)
    · exact Or.inr ⟨ReflTransGen.refl, ReflTransGen.refl⟩
  | tail _ hyz ih =>
    rcases hedge _ _ hyz with hold | ⟨rfl, rfl⟩
    · rcases ih with hpath | ⟨hto, hfrom⟩
      · exact Or.inl (hpath.tail hold)
      · exact Or.inr ⟨hto, hfrom.tail hold⟩
    · rcases ih with hpath | ⟨hto, -⟩
      · exact Or.inr ⟨hpath.to_reflTransGen, ReflTransGen.refl⟩
      · exact Or.inr ⟨hto, ReflTransGen.refl⟩

/-- **One more edge closes no cycle** if its source is not reached from its target. -/
theorem acyclic_insert (h : Acyclic r) (hout : ¬ ReflTransGen r b a) : Acyclic r' := by
  intro x hx
  rcases transGen_insert hedge hx with hold | ⟨hto, hfrom⟩
  · exact h x hold
  · exact hout (hfrom.trans hto)

end Insert

end Acyclic

end TruthLinked.Lib.Loop
