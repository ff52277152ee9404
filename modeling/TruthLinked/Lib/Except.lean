import Mathlib.Tactic.Common

/-! # Computations that may fail

How a sequence of fallible steps succeeds (`bind_eq_ok` and the lemmas after it), and what every
successful run leaves (`Ensures`). The rules of `Ensures` are equivalences, so that rewriting with them
turns a statement about a computation into one about its checks and its result. -/

namespace TruthLinked.Lib.Except

variable {ε α β : Type}

@[simp] theorem ok_bind (a : α) (f : α → Except ε β) : (Except.ok a >>= f) = f a := rfl

@[simp] theorem error_bind (e : ε) (f : α → Except ε β) : (Except.error e >>= f) = Except.error e := rfl

theorem bind_eq_ok {x : Except ε α} {f : α → Except ε β} {b : β} :
    (x >>= f) = .ok b ↔ ∃ a, x = .ok a ∧ f a = .ok b := by
  cases x with
  | error e => simp
  | ok a => simp

/-- `if c { return Err(e) }`. -/
def failIf (c : Prop) [Decidable c] (e : ε) : Except ε Unit := if c then .error e else .ok ()

/-- `Option::ok_or`. -/
def okOr : Option α → ε → Except ε α
  | some a, _ => .ok a
  | none, e => .error e

@[simp] theorem failIf_eq_ok {c : Prop} [Decidable c] {e : ε} : failIf c e = .ok () ↔ ¬ c := by
  by_cases h : c <;> simp [failIf, h]

@[simp] theorem failIf_bind_ok {c : Prop} [Decidable c] {e : ε} {f : Unit → Except ε β} {b : β} :
    (failIf c e >>= f) = .ok b ↔ ¬ c ∧ f () = .ok b := by
  by_cases h : c <;> simp [failIf, h]

@[simp] theorem okOr_eq_ok {o : Option α} {e : ε} {a : α} : okOr o e = .ok a ↔ o = some a := by
  cases o <;> simp [okOr]

@[simp] theorem okOr_bind_ok {o : Option α} {e : ε} {f : α → Except ε β} {b : β} :
    (okOr o e >>= f) = .ok b ↔ ∃ a, o = some a ∧ f a = .ok b := by
  cases o <;> simp [okOr]

theorem pure_eq_ok {a b : α} : (pure a : Except ε α) = .ok b ↔ a = b :=
  ⟨fun h => Except.ok.inj h, fun h => congrArg _ h⟩

theorem throw_eq_ok {e : ε} {b : α} : (throw e : Except ε α) = .ok b ↔ False := by
  constructor
  · intro h
    cases h
  · exact False.elim

/-! ## Postconditions -/

/-- Every value that `x` returns satisfies `P`. -/
def Ensures (x : Except ε α) (P : α → Prop) : Prop := ∀ a, x = .ok a → P a

section Ensures
variable {P Q : α → Prop} {R : β → Prop}

theorem Ensures.mono {x : Except ε α} (h : Ensures x P) (hPQ : ∀ a, P a → Q a) : Ensures x Q :=
  fun a ha => hPQ a (h a ha)

theorem Ensures.and {x : Except ε α} (hP : Ensures x P) (hQ : Ensures x Q) :
    Ensures x fun a => P a ∧ Q a := fun a ha => ⟨hP a ha, hQ a ha⟩

theorem ensures_true {x : Except ε α} : Ensures x fun _ => True := fun _ _ => trivial

@[simp] theorem ensures_pure {a : α} : Ensures (pure a : Except ε α) P ↔ P a :=
  ⟨fun h => h a rfl, fun h _ hb => pure_eq_ok.mp hb ▸ h⟩

@[simp] theorem ensures_ok {a : α} : Ensures (.ok a : Except ε α) P ↔ P a := ensures_pure

@[simp] theorem ensures_throw {e : ε} : Ensures (throw e : Except ε α) P ↔ True :=
  ⟨fun _ => trivial, fun _ _ h => (throw_eq_ok.mp h).elim⟩

@[simp] theorem ensures_error {e : ε} : Ensures (.error e : Except ε α) P ↔ True := ensures_throw

theorem ensures_bind {x : Except ε α} {f : α → Except ε β} :
    Ensures (x >>= f) R ↔ Ensures x fun a => Ensures (f a) R := by
  constructor
  · intro h a ha b hb
    exact h b (bind_eq_ok.mpr ⟨a, ha, hb⟩)
  · intro h b hb
    obtain ⟨a, ha, hab⟩ := bind_eq_ok.mp hb
    exact h a ha b hab

/-- A run whose first part keeps `P` only needs a second part that works from `P`. -/
theorem Ensures.bind {x : Except ε α} {f : α → Except ε β} (hx : Ensures x P)
    (hf : ∀ a, P a → Ensures (f a) R) : Ensures (x >>= f) R :=
  ensures_bind.mpr (hx.mono hf)

@[simp] theorem ensures_failIf {c : Prop} [Decidable c] {e : ε} {P : Unit → Prop} :
    Ensures (failIf c e) P ↔ (¬ c → P ()) := by
  by_cases h : c <;> simp [failIf, h]

@[simp] theorem ensures_okOr {o : Option α} {e : ε} :
    Ensures (okOr o e) P ↔ ∀ a, o = some a → P a := by
  cases o <;> simp [okOr]

theorem ensures_ite {c : Prop} [Decidable c] {x y : Except ε α} :
    Ensures (if c then x else y) P ↔ (c → Ensures x P) ∧ (¬ c → Ensures y P) := by
  by_cases h : c <;> simp [h]

end Ensures

end TruthLinked.Lib.Except
