import Mathlib.Data.List.DropRight
import Mathlib.Tactic.Ring

/-! # Decimal numerals and trimming

The value of a row of decimal digits, over core's `Nat.ofDigitChars` and `Nat.toDigits`, and what is left of a
text when the characters of a kind are taken off both ends. -/

namespace TruthLinked.Lib.Text

/-! ### Digits -/

/-- All characters are decimal digits. -/
def Digits (ds : List Char) : Prop := ∀ c ∈ ds, c.isDigit = true

/-- The number a row of digits stands for. -/
abbrev value (ds : List Char) : ℕ := Nat.ofDigitChars 10 ds 0

theorem value_append (ds es : List Char) : value (ds ++ es) = value ds * 10 ^ es.length + value es := by
  rw [value, Nat.ofDigitChars_append, Nat.ofDigitChars_eq_ofDigitChars_zero, Nat.mul_comm]

theorem digit_lt {c : Char} (h : c.isDigit = true) : c.toNat - '0'.toNat < 10 := by
  simp only [Char.isDigit, Bool.and_eq_true, decide_eq_true_eq, UInt32.le_iff_toNat_le] at h
  have hle : c.toNat ≤ 57 := h.2
  change c.toNat - 48 < 10
  omega

theorem value_lt {ds : List Char} (h : Digits ds) : value ds < 10 ^ ds.length := by
  induction ds using List.reverseRecOn with
  | nil => decide
  | append_singleton ds c ih =>
    have hd := digit_lt (h c (by simp))
    have hds := ih fun d hd => h d (by simp [hd])
    have hc : value [c] = c.toNat - '0'.toNat := by simp [value, Nat.ofDigitChars]
    rw [value_append, hc, List.length_append, List.length_singleton, pow_succ]
    omega

theorem digits_toDigits (n : ℕ) : Digits (Nat.toDigits 10 n) := fun _ hc =>
  Nat.isDigit_of_mem_toDigits (by decide) (by decide) hc

theorem digits_append {ds es : List Char} : Digits (ds ++ es) ↔ Digits ds ∧ Digits es := by
  unfold Digits
  simp only [List.mem_append, or_imp, forall_and]

theorem value_zeros (n : ℕ) : value (List.replicate n '0') = 0 := by
  rw [value, Nat.ofDigitChars_replicate_zero, Nat.mul_zero]

theorem digits_zeros (n : ℕ) : Digits (List.replicate n '0') := by
  intro c hc
  rw [List.eq_of_mem_replicate hc]
  rfl

/-! ### Trimming -/

section Strip
variable {α : Type*} {p : α → Bool}

/-- The text without the characters of a kind at its two ends. -/
def strip (p : α → Bool) (l : List α) : List α := (l.dropWhile p).rdropWhile p

theorem rdropWhile_spec (p : α → Bool) (l : List α) :
    ∃ post, (∀ a ∈ post, p a = true) ∧ l = l.rdropWhile p ++ post := by
  refine ⟨(l.reverse.takeWhile p).reverse, fun a ha => List.mem_takeWhile_imp (List.mem_reverse.mp ha), ?_⟩
  rw [List.rdropWhile, ← List.reverse_append, List.takeWhile_append_dropWhile, List.reverse_reverse]

theorem strip_spec (p : α → Bool) (l : List α) :
    ∃ pre post, (∀ a ∈ pre, p a = true) ∧ (∀ a ∈ post, p a = true) ∧ l = pre ++ strip p l ++ post := by
  obtain ⟨post, hpost, hsplit⟩ := rdropWhile_spec p (l.dropWhile p)
  refine ⟨l.takeWhile p, post, fun a => List.mem_takeWhile_imp, hpost, ?_⟩
  rw [strip, List.append_assoc, ← hsplit, List.takeWhile_append_dropWhile]

theorem strip_of_ends {pre core post : List α} (hpre : ∀ a ∈ pre, p a = true) (hpost : ∀ a ∈ post, p a = true)
    (hhead : ∀ a ∈ core.head?, p a = false) (hlast : ∀ a ∈ core.getLast?, p a = false) :
    strip p (pre ++ core ++ post) = core := by
  have hright : (core ++ post).rdropWhile p = core := by
    rw [List.rdropWhile, List.reverse_append, List.dropWhile_append_of_pos fun a ha =>
      hpost a (List.mem_reverse.mp ha)]
    cases hcore : core.reverse with
    | nil =>
      rw [List.reverse_eq_nil_iff] at hcore
      rw [hcore]
      rfl
    | cons a rest =>
      have hlasts : a ∈ core.getLast? := by
        rw [← List.head?_reverse, hcore]
        rfl
      rw [List.dropWhile_cons_of_neg (by rw [hlast a hlasts]; exact Bool.false_ne_true),
        ← hcore, List.reverse_reverse]
  rw [strip, List.append_assoc, List.dropWhile_append_of_pos hpre]
  cases core with
  | nil =>
    rw [List.nil_append, List.rdropWhile, List.reverse_eq_nil_iff, List.dropWhile_eq_nil_iff]
    intro a ha
    have hmem : a ∈ post := (List.dropWhile_sublist p).mem (List.mem_reverse.mp ha)
    exact hpost a hmem
  | cons a rest =>
    rw [List.cons_append, List.dropWhile_cons_of_neg (by rw [hhead a rfl]; exact Bool.false_ne_true)]
    exact hright

end Strip

end TruthLinked.Lib.Text
