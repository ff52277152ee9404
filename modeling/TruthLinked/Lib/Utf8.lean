import Mathlib.Data.List.Basic
import Mathlib.Tactic.SplitIfs

/-! # Texts and separators

A byte string is a text if it is the UTF-8 of a string. A text is cut by an ASCII byte into texts
(`Text.split`), since that byte is a character of its own. Where fields are joined by a separator, the field
before it is known if it does not contain the separator (`split_first`), and so is the field after it
(`split_last`); otherwise the separator of the one reading lies inside a field of the other. -/

namespace TruthLinked.Lib.Utf8

/-! ## Separators -/

section Separators
variable {α : Type*} {sep : α} {a a' b b' : List α}

/-- Two readings of a joined list: the same one, or the second field starts inside the first one of the
other. -/
theorem split_cases (h : a ++ sep :: b = a' ++ sep :: b') :
    (a = a' ∧ b = b') ∨ (∃ t, a' = a ++ sep :: t ∧ b = t ++ sep :: b') ∨ ∃ t, a = a' ++ sep :: t ∧
      b' = t ++ sep :: b := by
  rcases List.append_eq_append_iff.mp h with ⟨t, ha, hb⟩ | ⟨t, ha, hb⟩
  · cases t with
    | nil =>
      rw [List.append_nil] at ha
      rw [List.nil_append, List.cons.injEq] at hb
      exact .inl ⟨ha.symm, hb.2⟩
    | cons x t =>
      rw [List.cons_append, List.cons.injEq] at hb
      obtain ⟨rfl, hb⟩ := hb
      exact .inr (.inl ⟨t, ha, hb⟩)
  · cases t with
    | nil =>
      rw [List.append_nil] at ha
      rw [List.nil_append, List.cons.injEq] at hb
      exact .inl ⟨ha, hb.2.symm⟩
    | cons x t =>
      rw [List.cons_append, List.cons.injEq] at hb
      obtain ⟨rfl, hb⟩ := hb
      exact .inr (.inr ⟨t, ha, hb⟩)

theorem split_first (ha : sep ∉ a) (h : a ++ sep :: b = a' ++ sep :: b') :
    (a = a' ∧ b = b') ∨ ∃ t, a' = a ++ sep :: t ∧ b = t ++ sep :: b' := by
  rcases split_cases h with heq | hlonger | ⟨t, rfl, -⟩
  · exact .inl heq
  · exact .inr hlonger
  · exact absurd (List.mem_append_right _ List.mem_cons_self) ha

theorem split_last (hb : sep ∉ b) (h : a ++ sep :: b = a' ++ sep :: b') :
    (a = a' ∧ b = b') ∨ ∃ t, a = a' ++ sep :: t ∧ b' = t ++ sep :: b := by
  rcases split_cases h with heq | ⟨t, -, rfl⟩ | hlonger
  · exact .inl heq
  · exact absurd (List.mem_append_right _ List.mem_cons_self) hb
  · exact .inr hlonger

end Separators

/-! ## Texts -/

/-- The UTF-8 of some characters. -/
def encode (cs : List Char) : List UInt8 := cs.flatMap String.utf8EncodeChar

/-- The bytes are the UTF-8 of a string. -/
def Text (bs : List UInt8) : Prop := ∃ cs, encode cs = bs

theorem not_ascii {b : UInt8} {n : ℕ} (hb : b < 128) (hlow : 128 ≤ n) (hhigh : n < 256) : b ≠ UInt8.ofNat n := by
  rintro rfl
  have hlt : (UInt8.ofNat n).toNat < 128 := UInt8.lt_iff_toNat_lt.mp hb
  rw [UInt8.toNat_ofNat', Nat.mod_eq_of_lt hhigh] at hlt
  omega

theorem utf8EncodeChar_of_mem {c : Char} {b : UInt8} (hb : b < 128) (h : b ∈ String.utf8EncodeChar c) :
    String.utf8EncodeChar c = [b] := by
  have hne : ∀ n, 128 ≤ n → n < 256 → ¬ b = UInt8.ofNat n := fun n => not_ascii hb
  unfold String.utf8EncodeChar at h ⊢
  dsimp only at h ⊢
  split_ifs at h ⊢ with h1 h2 h3
  · rw [List.mem_singleton.mp h]
  all_goals
    simp only [List.mem_cons, List.not_mem_nil, or_false] at h
    grind

/-- **A text is cut by an ASCII byte into texts.** -/
theorem Text.split {a c : List UInt8} {b : UInt8} (hb : b < 128) (h : Text (a ++ b :: c)) : Text a ∧ Text c := by
  obtain ⟨cs, hcs⟩ := h
  induction cs generalizing a with
  | nil => exact absurd hcs.symm (by simp [encode])
  | cons x cs ih =>
    have hcons : ∀ l, encode (x :: l) = String.utf8EncodeChar x ++ encode l := fun l => List.flatMap_cons
    rw [hcons] at hcs
    by_cases hx : b ∈ String.utf8EncodeChar x
    · -- the character is the byte, and nothing comes before it
      have hone := utf8EncodeChar_of_mem hb hx
      rw [hone] at hcs
      cases a with
      | nil => exact ⟨⟨[], rfl⟩, ⟨cs, (List.cons.inj hcs).2⟩⟩
      | cons y a =>
        obtain ⟨rfl, hrest⟩ := List.cons.inj hcs
        obtain ⟨⟨l, hl⟩, hc⟩ := ih hrest
        exact ⟨⟨x :: l, by rw [hcons, hone, hl]; rfl⟩, hc⟩
    · rcases List.append_eq_append_iff.mp hcs with ⟨t, ha, ht⟩ | ⟨t, ht, ht'⟩
      · obtain ⟨⟨l, hl⟩, hc⟩ := ih ht
        exact ⟨⟨x :: l, by rw [hcons, hl, ha]⟩, hc⟩
      · cases t with
        | nil =>
          rw [List.append_nil] at ht
          rw [List.nil_append] at ht'
          exact ⟨⟨[x], by rw [hcons, ht]; exact List.append_nil _⟩, (@ih [] ht'.symm).2⟩
        | cons y t =>
          obtain ⟨rfl, -⟩ := List.cons.inj ht'
          exact absurd (ht ▸ List.mem_append_right a List.mem_cons_self) hx

theorem Text.append {a b : List UInt8} (ha : Text a) (hb : Text b) : Text (a ++ b) := by
  obtain ⟨cs, rfl⟩ := ha
  obtain ⟨ds, rfl⟩ := hb
  exact ⟨cs ++ ds, List.flatMap_append⟩

end TruthLinked.Lib.Utf8
