import Mathlib.Data.List.Basic
import Mathlib.Tactic.Common

/-! # Encodings that delimit themselves

An encoder is `Delimited` if a stream that starts with an encoding decides the encoded value, as far as a
view of it shows, and the rest of the stream. Concatenation, counted lists, options and lists with a closing
mark keep this, so that the encoder of a record is read off its fields. -/

namespace TruthLinked.Lib.Codec

variable {α α' β γ δ : Type*}

/-- For values in `P`, the stream decides the view of the value and the rest. -/
def Delimited (P : α → Prop) (enc : α → List β) (view : α → γ) : Prop :=
  ∀ ⦃a b⦄, P a → P b → ∀ r s, enc a ++ r = enc b ++ s ↔ view a = view b ∧ r = s

section
variable {P : α → Prop} {enc : α → List β} {view : α → γ}

theorem Delimited.eq_iff (h : Delimited P enc view) {a b : α} (ha : P a) (hb : P b) :
    enc a = enc b ↔ view a = view b := by
  have := h ha hb [] []
  simpa using this

theorem Delimited.of_length {n : ℕ} (hlen : ∀ a, P a → (enc a).length = n)
    (heq : ∀ a b, P a → P b → (enc a = enc b ↔ view a = view b)) : Delimited P enc view := by
  intro a b ha hb r s
  constructor
  · intro h
    have hl : (enc a).length = (enc b).length := by rw [hlen a ha, hlen b hb]
    obtain ⟨he, hr⟩ := List.append_inj h hl
    exact ⟨(heq a b ha hb).mp he, hr⟩
  · rintro ⟨hv, rfl⟩
    rw [(heq a b ha hb).mpr hv]

theorem Delimited.const (tag : List β) : Delimited (fun _ : α => True) (fun _ => tag) fun _ => () := by
  intro a b _ _ r s
  simp

theorem Delimited.on (h : Delimited P enc view) (f : α' → α) :
    Delimited (fun a => P (f a)) (fun a => enc (f a)) fun a => view (f a) :=
  fun _ _ ha hb r s => h ha hb r s

theorem Delimited.to (h : Delimited P enc view) {Q : α → Prop} {view' : α → δ} (hQ : ∀ a, Q a → P a)
    (hview : ∀ a b, view a = view b ↔ view' a = view' b) : Delimited Q enc view' := by
  intro a b ha hb r s
  rw [h (hQ a ha) (hQ b hb), hview]

theorem Delimited.append (h : Delimited P enc view) {Q : α → Prop} {enc' : α → List β} {view' : α → δ}
    (h' : Delimited Q enc' view') :
    Delimited (fun a => P a ∧ Q a) (fun a => enc a ++ enc' a) fun a => (view a, view' a) := by
  intro a b ha hb r s
  rw [List.append_assoc, List.append_assoc, h ha.1 hb.1, h' ha.2 hb.2, Prod.mk.injEq, and_assoc]

/-- One encoding after another, where the second has two parts. -/
theorem Delimited.append_append (h : Delimited P enc view) {Q : α → Prop} {enc₁ enc₂ : α → List β}
    {view' : α → δ} (h' : Delimited Q (fun a => enc₁ a ++ enc₂ a) view') :
    Delimited (fun a => P a ∧ Q a) (fun a => enc a ++ enc₁ a ++ enc₂ a) fun a => (view a, view' a) := by
  have hboth := h.append h'
  simpa only [← List.append_assoc] using hboth

theorem Delimited.option (h : Delimited P enc view) {yes no : β} (hne : yes ≠ no) :
    Delimited (fun o : Option α => ∀ a ∈ o, P a)
      (fun o => match o with
        | some a => [yes] ++ enc a
        | none => [no]) (Option.map view) := by
  intro o o' ho ho' r s
  cases o with
  | none =>
    cases o' with
    | none => simp
    | some a' => simp [hne.symm]
  | some a =>
    cases o' with
    | none => simp [hne]
    | some a' =>
      have := h (ho a rfl) (ho' a' rfl) r s
      simpa using this

theorem Delimited.flatMap (h : Delimited P enc view) {l l' : List α} (hl : ∀ a ∈ l, P a)
    (hl' : ∀ a ∈ l', P a) (hlen : l.length = l'.length) (r s : List β) :
    l.flatMap enc ++ r = l'.flatMap enc ++ s ↔ l.map view = l'.map view ∧ r = s := by
  induction l generalizing l' with
  | nil =>
    cases l' with
    | nil => simp
    | cons a' l' => simp at hlen
  | cons a l ih =>
    cases l' with
    | nil => simp at hlen
    | cons a' l' =>
      rw [List.forall_mem_cons] at hl hl'
      rw [List.flatMap_cons, List.flatMap_cons, List.append_assoc, List.append_assoc, h hl.1 hl'.1,
        ih hl.2 hl'.2 (Nat.succ.inj hlen), List.map_cons, List.map_cons, List.cons.injEq, and_assoc]

theorem Delimited.counted (h : Delimited P enc view) {bound : ℕ} {count : ℕ → List β}
    (hcount : Delimited (fun n => n < bound) count id) :
    Delimited (fun l : List α => l.length < bound ∧ ∀ a ∈ l, P a)
      (fun l => count l.length ++ l.flatMap enc) (List.map view) := by
  intro l l' hl hl' r s
  rw [List.append_assoc, List.append_assoc, hcount hl.1 hl'.1]
  constructor
  · rintro ⟨hlen, he⟩
    exact (h.flatMap hl.2 hl'.2 hlen r s).mp he
  · rintro ⟨hmap, hr⟩
    have hlen : l.length = l'.length := by
      have := congrArg List.length hmap
      simpa using this
    exact ⟨hlen, (h.flatMap hl.2 hl'.2 hlen r s).mpr ⟨hmap, hr⟩⟩

theorem Delimited.closed (h : Delimited P enc view) {start : β} {stop : List β}
    (hstart : ∀ a, (enc a).head? = some start) (hstop : ∀ r, (stop ++ r).head? ≠ some start) :
    Delimited (fun l : List α => ∀ a ∈ l, P a) (fun l => l.flatMap enc ++ stop) (List.map view) := by
  -- an item and the closing string differ in their first symbol
  have hne : ∀ a (r s : List β), stop ++ r ≠ enc a ++ s := by
    intro a r s he
    have hhead := congrArg List.head? he
    have hitem : (enc a ++ s).head? = some start := by simp [hstart]
    exact hstop r (hhead.trans hitem)
  intro l
  induction l with
  | nil =>
    intro l' _ _ r s
    cases l' with
    | nil => simp
    | cons a' l' => simp [hne]
  | cons a l ih =>
    intro l' hl hl' r s
    cases l' with
    | nil => simp [(hne _ _ _).symm]
    | cons a' l' =>
      rw [List.forall_mem_cons] at hl hl'
      have hrest := ih hl.2 hl'.2 r s
      rw [List.append_assoc, List.append_assoc] at hrest
      simp only [List.flatMap_cons, List.append_assoc, List.map_cons, List.cons.injEq]
      rw [h hl.1 hl'.1, hrest, and_assoc]

end

end TruthLinked.Lib.Codec
