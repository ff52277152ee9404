import Mathlib.Data.List.Basic
import Mathlib.Tactic.SplitIfs

/-! # Computations that ask a test

A computation that uses a test only through its answers has the questions it asks listed beside its result
(`Asking`): two tests that agree on the questions give one result. A search through a list asks up to the
first yes (`Asking.find`), a fold asks at every step (`Asking.fold`). -/

namespace TruthLinked.Lib.Question

/-- A result that depends on a test, and the questions it is asked. -/
structure Asking (Q R : Type*) where
  result : (Q → Bool) → R
  asked : (Q → Bool) → List Q
  depends : ∀ {test test' : Q → Bool}, (∀ q ∈ asked test, test' q = test q) → result test' = result test

section Search
variable {Q α : Type*}

/-- The questions of a search, up to the first yes. -/
def askedUntil (ask : α → Q) (test : Q → Bool) : List α → List Q
  | [] => []
  | x :: l => ask x :: if test (ask x) then [] else askedUntil ask test l

theorem mem_askedUntil {ask : α → Q} {test : Q → Bool} {l : List α} {q : Q} (h : q ∈ askedUntil ask test l) :
    ∃ x ∈ l, ask x = q := by
  induction l with
  | nil => cases h
  | cons x l ih =>
    rcases List.mem_cons.mp h with rfl | hrest
    · exact ⟨x, List.mem_cons_self, rfl⟩
    · split_ifs at hrest
      · cases hrest
      · obtain ⟨y, hy, hq⟩ := ih hrest
        exact ⟨y, List.mem_cons_of_mem _ hy, hq⟩

/-- The search for the first entry with a yes. -/
def Asking.find (ask : α → Q) (l : List α) : Asking Q (Option α) where
  result test := l.find? fun x => test (ask x)
  asked test := askedUntil ask test l
  depends := by
    intro test test' h
    induction l with
    | nil => rfl
    | cons x l ih =>
      unfold askedUntil at h
      have hx := h (ask x) List.mem_cons_self
      cases hyes : test (ask x) with
      | true =>
        rw [hyes] at hx
        rw [List.find?_cons, List.find?_cons, hx, hyes]
      | false =>
        rw [hyes] at hx h
        rw [List.find?_cons, List.find?_cons, hx, hyes]
        exact ih fun q hq => h q (List.mem_cons_of_mem _ hq)

end Search

section Fold
variable {Q S V : Type*} {step : (Q → Bool) → S → V → S} {ask : S → V → Option Q}

/-- The questions of a fold. -/
def askedBy (step : (Q → Bool) → S → V → S) (ask : S → V → Option Q) (test : Q → Bool) : S → List V → List Q
  | _, [] => []
  | s, v :: l => (ask s v).toList ++ askedBy step ask test (step test s v) l

theorem mem_askedBy {test : Q → Bool} {s : S} {l : List V} {q : Q} (h : q ∈ askedBy step ask test s l) :
    ∃ s v, ask s v = some q := by
  induction l generalizing s with
  | nil => cases h
  | cons v l ih =>
    rcases List.mem_append.mp h with hone | hrest
    · exact ⟨s, v, Option.mem_toList.mp hone⟩
    · exact ih hrest

/-- A fold whose steps ask at most one question each. -/
def Asking.fold (step : (Q → Bool) → S → V → S) (ask : S → V → Option Q)
    (hstep : ∀ test test' s v, (∀ q, ask s v = some q → test' q = test q) → step test' s v = step test s v)
    (s : S) (l : List V) : Asking Q S where
  result test := l.foldl (step test) s
  asked test := askedBy step ask test s l
  depends := by
    intro test test' h
    induction l generalizing s with
    | nil => rfl
    | cons v l ih =>
      unfold askedBy at h
      have hv : step test' s v = step test s v :=
        hstep test test' s v fun q hq =>
          h q (List.mem_append_left _ (by rw [hq]; exact List.mem_singleton_self q))
      rw [List.foldl_cons, List.foldl_cons, hv]
      exact ih _ fun q hq => h q (List.mem_append_right _ hq)

end Fold

/-- What is done with the result. -/
def Asking.map {Q R R' : Type*} (p : Asking Q R) (f : R → R') : Asking Q R' where
  result test := f (p.result test)
  asked := p.asked
  depends h := by rw [p.depends h]

/-- A computation that asks nothing. -/
def Asking.pure {Q R : Type*} (r : R) : Asking Q R where
  result _ := r
  asked _ := []
  depends _ := rfl

/-- A computation that asks one question. -/
def Asking.one {Q R : Type*} (q : Q) (f : Bool → R) : Asking Q R where
  result test := f (test q)
  asked _ := [q]
  depends h := by rw [h q (List.mem_singleton_self q)]

end TruthLinked.Lib.Question
