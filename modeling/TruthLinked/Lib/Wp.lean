import Mathlib.Tactic.Common

/-! # Weakest preconditions for a state with an error

Computations `ExceptT ε (StateM S)` keep the state when they fail. `wp m Q E s` says that from `s` the
computation `m` ends well in `Q` or fails in `E`. The equations below compute it over the monad
operations; a program built from them is reasoned about by rewriting. -/

namespace TruthLinked.Lib.Wp

variable {ε S α β : Type}

/-- The outcome of a computation and the state it leaves. -/
def outcome (m : ExceptT ε (StateM S) α) (s : S) : Except ε α × S := m.run s

/-- The two-sided weakest precondition. -/
def wp (m : ExceptT ε (StateM S) α) (Q : α → S → Prop) (E : ε → S → Prop) (s : S) : Prop :=
  match outcome m s with
  | (.ok a, s') => Q a s'
  | (.error e, s') => E e s'

theorem outcome_bind (m : ExceptT ε (StateM S) α) (f : α → ExceptT ε (StateM S) β) (s : S) :
    outcome (m >>= f) s = match outcome m s with
      | (.ok a, s') => outcome (f a) s'
      | (.error e, s') => (.error e, s') := by
  show ExceptT.bindCont f (outcome m s).1 (outcome m s).2 = _
  rcases outcome m s with ⟨_ | _, s'⟩ <;> rfl

@[simp] theorem outcome_pure (a : α) (s : S) :
    outcome (pure a : ExceptT ε (StateM S) α) s = (.ok a, s) := rfl

@[simp] theorem outcome_throw (e : ε) (s : S) :
    outcome (throw e : ExceptT ε (StateM S) α) s = (.error e, s) := rfl

@[simp] theorem outcome_get (s : S) : outcome (get : ExceptT ε (StateM S) S) s = (.ok s, s) := rfl

@[simp] theorem outcome_set (t s : S) :
    outcome (set t : ExceptT ε (StateM S) PUnit) s = (.ok ⟨⟩, t) := rfl

@[simp] theorem outcome_modify (f : S → S) (s : S) :
    outcome (modify f : ExceptT ε (StateM S) PUnit) s = (.ok ⟨⟩, f s) := rfl

section Rules
variable {Q : β → S → Prop} {E : ε → S → Prop} {s : S}

@[simp] theorem wp_pure (b : β) : wp (pure b : ExceptT ε (StateM S) β) Q E s ↔ Q b s := Iff.rfl

@[simp] theorem wp_throw (e : ε) : wp (throw e : ExceptT ε (StateM S) β) Q E s ↔ E e s := Iff.rfl

@[simp] theorem wp_bind (m : ExceptT ε (StateM S) α) (f : α → ExceptT ε (StateM S) β) :
    wp (m >>= f) Q E s ↔ wp m (fun a s' => wp (f a) Q E s') E s := by
  unfold wp
  rw [outcome_bind]
  rcases outcome m s with ⟨_ | _, s'⟩ <;> rfl

@[simp] theorem wp_get {Q : S → S → Prop} :
    wp (get : ExceptT ε (StateM S) S) Q E s ↔ Q s s := Iff.rfl

@[simp] theorem wp_set {Q : PUnit → S → Prop} (s' : S) :
    wp (set s' : ExceptT ε (StateM S) PUnit) Q E s ↔ Q ⟨⟩ s' := Iff.rfl

@[simp] theorem wp_modify {Q : PUnit → S → Prop} (f : S → S) :
    wp (modify f : ExceptT ε (StateM S) PUnit) Q E s ↔ Q ⟨⟩ (f s) := Iff.rfl

@[simp] theorem wp_ite (c : Prop) [Decidable c] (m n : ExceptT ε (StateM S) β) :
    wp (if c then m else n) Q E s ↔ (c → wp m Q E s) ∧ (¬ c → wp n Q E s) := by
  by_cases h : c <;> simp [h]

theorem wp_mono {m : ExceptT ε (StateM S) β} {Q' : β → S → Prop} {E' : ε → S → Prop}
    (h : wp m Q E s) (hQ : ∀ b s', Q b s' → Q' b s') (hE : ∀ e s', E e s' → E' e s') :
    wp m Q' E' s := by
  unfold wp at h ⊢
  revert h
  rcases outcome m s with ⟨e | b, s'⟩
  · exact hE e s'
  · exact hQ b s'

end Rules

-- the rules above are the interface; unfolding a goal `wp m Q E s` would run `m` symbolically
attribute [irreducible] wp

end TruthLinked.Lib.Wp
