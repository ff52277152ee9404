import Mathlib.Tactic.Common

/-! # Runs of a step function

A run is a list of actions folded over a state. `Along P` says that every action of a run meets `P` at
the state where it is taken; an invariant kept by such actions holds at the end (`Along.invariant`), and
hence, the prefix of a run being a run, all the way. -/

namespace TruthLinked.Lib.Run

variable {S A : Type*} (step : S → A → S)

/-- The state after the actions `as`. -/
def run (s : S) (as : List A) : S := as.foldl step s

/-- Every action of the run meets `P`. -/
def Along (P : S → A → Prop) : S → List A → Prop
  | _, [] => True
  | s, a :: as => P s a ∧ Along P (step s a) as

@[simp] theorem run_nil (s : S) : run step s [] = s := rfl

@[simp] theorem run_cons (s : S) (a : A) (as : List A) :
    run step s (a :: as) = run step (step s a) as := rfl

theorem run_append (s : S) (as bs : List A) :
    run step s (as ++ bs) = run step (run step s as) bs := List.foldl_append

variable {step} {P Q : S → A → Prop}

theorem along_true (s : S) (as : List A) : Along step (fun _ _ => True) s as := by
  induction as generalizing s with
  | nil => trivial
  | cons a as ih => exact ⟨trivial, ih _⟩

theorem Along.and {s : S} {as : List A} (hP : Along step P s as) (hQ : Along step Q s as) :
    Along step (fun s a => P s a ∧ Q s a) s as := by
  induction as generalizing s with
  | nil => trivial
  | cons a as ih => exact ⟨⟨hP.1, hQ.1⟩, ih hP.2 hQ.2⟩

theorem Along.of_append {s : S} {as bs : List A} (h : Along step P s (as ++ bs)) :
    Along step P s as ∧ Along step P (run step s as) bs := by
  induction as generalizing s with
  | nil => exact ⟨trivial, h⟩
  | cons a as ih =>
    obtain ⟨h1, h2⟩ := ih h.2
    exact ⟨⟨h.1, h1⟩, h2⟩

/-- The action at position `i` meets `P` at the state after the first `i` actions. -/
theorem Along.at_index {s : S} {as : List A} (h : Along step P s as) {i : ℕ} {a : A} (ha : as[i]? = some a) :
    P (run step s (as.take i)) a := by
  induction as generalizing s i with
  | nil => cases ha
  | cons b as ih =>
    cases i with
    | zero =>
      cases ha
      exact h.1
    | succ i => exact ih h.2 ha

/-- **An invariant kept by the actions that meet `P`** holds after every run of such actions. -/
theorem Along.invariant {I : S → Prop} (hstep : ∀ s a, I s → P s a → I (step s a)) {s : S} {as : List A}
    (h : Along step P s as) (hI : I s) : I (run step s as) := by
  induction as generalizing s with
  | nil => exact hI
  | cons a as ih => exact ih h.2 (hstep s a hI h.1)

/-- What an invariant gives of the actions that meet `P` holds of every action of the run. -/
theorem Along.imp_of_invariant {I : S → Prop} (hstep : ∀ s a, I s → P s a → I (step s a))
    (hQ : ∀ s a, I s → P s a → Q s a) {s : S} {as : List A} (h : Along step P s as) (hI : I s) :
    Along step Q s as := by
  induction as generalizing s with
  | nil => trivial
  | cons a as ih => exact ⟨hQ s a hI h.1, ih h.2 (hstep s a hI h.1)⟩

end TruthLinked.Lib.Run
