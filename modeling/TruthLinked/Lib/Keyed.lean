import TruthLinked.Lib.Phase
import Mathlib.Algebra.BigOperators.Group.List.Basic
import Mathlib.Algebra.GroupWithZero.Nat

/-! # Steps that act at one key

A state is looked at through slots `v : S → K → V`. A step is local when it changes the slot of its own
key only. What a list of local steps does to a slot, and whether it goes through, then depends on the
steps of that key alone (`Local.run`, `Local.fits`); for steps that add to or subtract from an amount
the answer is a sum. -/

namespace TruthLinked.Lib.Keyed

open Lib.Phase

variable {S K V ι : Type} [DecidableEq K]

/-- The items of a list with key `a`. -/
def pick (key : ι → K) (a : K) (l : List ι) : List ι := l.filter fun c => decide (key c = a)

/-- What the items of key `a` add up to. -/
def total (key : ι → K) (n : ι → ℕ) (a : K) (l : List ι) : ℕ := ((pick key a l).map n).sum

@[simp] theorem pick_nil (key : ι → K) (a : K) : pick key a [] = [] := rfl

theorem pick_cons_self (key : ι → K) (c : ι) (l : List ι) :
    pick key (key c) (c :: l) = c :: pick key (key c) l := by
  simp [pick]

theorem pick_cons_ne {key : ι → K} {c : ι} {a : K} (h : key c ≠ a) (l : List ι) :
    pick key a (c :: l) = pick key a l := by
  simp [pick, h]

theorem pick_eq_nil {key : ι → K} {a : K} {l : List ι} : pick key a l = [] ↔ ∀ c ∈ l, key c ≠ a := by
  simp [pick]

theorem total_eq_zero {key : ι → K} {n : ι → ℕ} {a : K} {l : List ι} (h : ∀ c ∈ l, key c ≠ a) :
    total key n a l = 0 := by
  rw [total, pick_eq_nil.mpr h]
  rfl

theorem total_cons (key : ι → K) (n : ι → ℕ) (a : K) (c : ι) (l : List ι) :
    total key n a (c :: l) = (if key c = a then n c else 0) + total key n a l := by
  by_cases h : key c = a
  · subst h
    rw [total, pick_cons_self, if_pos rfl]
    simp [total]
  · rw [total, pick_cons_ne h, if_neg h, total]
    omega

/-- The step `E` changes the slot of its key as `g` does, and no other slot. -/
structure Local (v : S → K → V) (key : ι → K) (E : ι → S → S) (g : ι → V → V) : Prop where
  at_key : ∀ c s, v (E c s) (key c) = g c (v s (key c))
  off_key : ∀ c s a, key c ≠ a → v (E c s) a = v s a

section Local
variable {v : S → K → V} {key : ι → K} {E : ι → S → S} {g : ι → V → V}

theorem Local.run (h : Local v key E g) (a : K) (l : List ι) (s : S) :
    v (runAll E l s) a = runAll g (pick key a l) (v s a) := by
  induction l generalizing s with
  | nil => rfl
  | cons c l ih =>
    rw [runAll_cons, ih]
    by_cases hc : key c = a
    · subst hc
      rw [pick_cons_self, runAll_cons, h.at_key]
    · rw [pick_cons_ne hc, h.off_key c s a hc]

theorem Local.fits (h : Local v key E g) {P : ι → V → Prop} (l : List ι) (s : S) :
    FitsAll (fun c s => P c (v s (key c))) E l s ↔ ∀ a, FitsAll P g (pick key a l) (v s a) := by
  induction l generalizing s with
  | nil => exact ⟨fun _ _ => trivial, fun _ => trivial⟩
  | cons c l ih =>
    simp only [FitsAll]
    rw [ih]
    constructor
    · rintro ⟨hc, hl⟩ a
      by_cases ha : key c = a
      · subst ha
        rw [pick_cons_self]
        have hself := hl (key c)
        rw [h.at_key] at hself
        exact ⟨hc, hself⟩
      · rw [pick_cons_ne ha]
        have hoff := hl a
        rwa [h.off_key c s a ha] at hoff
    · intro hall
      have hself := hall (key c)
      rw [pick_cons_self] at hself
      refine ⟨hself.1, fun a => ?_⟩
      by_cases ha : key c = a
      · subst ha
        rw [h.at_key]
        exact hself.2
      · have hoff := hall a
        rw [pick_cons_ne ha] at hoff
        rwa [h.off_key c s a ha]

end Local

/-! ## Amounts -/

section Amounts
variable {g : ι → V → V} {n : ι → ℕ} {w : V → ℕ}

theorem fitsAll_add {O : V → Prop} (cap : ℕ) (h : ∀ c o, O o → w (g c o) = w o + n c)
    (hO : ∀ c o, O o → O (g c o)) (l : List ι) (o : V) :
    FitsAll (fun c o => O o ∧ w o + n c < cap) g l o ↔
      l = [] ∨ (O o ∧ w o + (l.map n).sum < cap) := by
  induction l generalizing o with
  | nil => simp [FitsAll]
  | cons c l ih =>
    simp only [FitsAll]
    rw [ih]
    simp only [List.map_cons, List.sum_cons, reduceCtorEq, false_or]
    constructor
    · rintro ⟨⟨ho, hc⟩, rfl | ⟨-, hl⟩⟩
      · exact ⟨ho, by simpa using hc⟩
      · rw [h c o ho] at hl
        exact ⟨ho, by omega⟩
    · rintro ⟨ho, hs⟩
      refine ⟨⟨ho, by omega⟩, .inr ⟨hO c o ho, ?_⟩⟩
      rw [h c o ho]
      omega

theorem fitsAll_sub {O : V → Prop} (h : ∀ c o, w (g c o) = w o - n c)
    (hO : ∀ c o, O o → O (g c o)) (l : List ι) (o : V) :
    FitsAll (fun c o => O o ∧ n c ≤ w o) g l o ↔ l = [] ∨ (O o ∧ (l.map n).sum ≤ w o) := by
  induction l generalizing o with
  | nil => simp [FitsAll]
  | cons c l ih =>
    simp only [FitsAll]
    rw [ih, h]
    simp only [List.map_cons, List.sum_cons, reduceCtorEq, false_or]
    constructor
    · rintro ⟨⟨hok, hc⟩, rfl | ⟨-, hl⟩⟩
      · exact ⟨hok, by simpa using hc⟩
      · exact ⟨hok, by omega⟩
    · rintro ⟨hok, hs⟩
      exact ⟨⟨hok, by omega⟩, .inr ⟨hO c o hok, by omega⟩⟩

theorem fitsAll_imp {O : V → Prop} {P : ι → V → Prop} (hO : ∀ c o, O (g c o) ↔ O o) (l : List ι)
    (o : V) : FitsAll (fun c o => O o → P c o) g l o ↔ (O o → FitsAll P g l o) := by
  induction l generalizing o with
  | nil => exact ⟨fun _ _ => trivial, fun _ => trivial⟩
  | cons c l ih =>
    simp only [FitsAll]
    rw [ih, hO]
    tauto

theorem amt_runAll_add {O : V → Prop} (h : ∀ c o, O o → w (g c o) = w o + n c)
    (hO : ∀ c o, O o → O (g c o)) (l : List ι) {o : V} (ho : O o) :
    w (runAll g l o) = w o + (l.map n).sum := by
  induction l generalizing o with
  | nil => simp
  | cons c l ih =>
    rw [runAll_cons, ih (hO c o ho), h c o ho, List.map_cons, List.sum_cons]
    omega

theorem amt_runAll_sub (h : ∀ c o, w (g c o) = w o - n c) (l : List ι) (o : V) :
    w (runAll g l o) = w o - (l.map n).sum := by
  induction l generalizing o with
  | nil => simp
  | cons c l ih =>
    rw [runAll_cons, ih, h, List.map_cons, List.sum_cons]
    omega

end Amounts

theorem Local.fits_add {v : S → K → V} {key : ι → K} {E : ι → S → S} {g : ι → V → V} {n : ι → ℕ}
    {w : V → ℕ} {O : V → Prop} (h : Local v key E g) (cap : ℕ)
    (hg : ∀ c o, O o → w (g c o) = w o + n c) (hO : ∀ c o, O o → O (g c o)) (l : List ι) (s : S) :
    FitsAll (fun c s => O (v s (key c)) ∧ w (v s (key c)) + n c < cap) E l s ↔
      ∀ c ∈ l, O (v s (key c)) ∧ w (v s (key c)) + total key n (key c) l < cap := by
  rw [h.fits (P := fun c o => O o ∧ w o + n c < cap)]
  simp only [fitsAll_add cap hg hO, pick_eq_nil]
  constructor
  · intro hall c hc
    exact (hall (key c)).resolve_left fun hn => hn c hc rfl
  · intro hall a
    by_cases ha : ∀ c ∈ l, key c ≠ a
    · exact .inl ha
    · push Not at ha
      obtain ⟨c, hc, rfl⟩ := ha
      exact .inr (hall c hc)

theorem Local.fits_add_imp {v : S → K → V} {key : ι → K} {E : ι → S → S} {g : ι → V → V} {n : ι → ℕ}
    {w : V → ℕ} {O : V → Prop} (h : Local v key E g) (cap : ℕ)
    (hg : ∀ c o, O o → w (g c o) = w o + n c) (hO : ∀ c o, O (g c o) ↔ O o) (l : List ι) (s : S) :
    FitsAll (fun c s => O (v s (key c)) → w (v s (key c)) + n c < cap) E l s ↔
      ∀ c ∈ l, O (v s (key c)) → w (v s (key c)) + total key n (key c) l < cap := by
  have hstep : (fun c s => O (v s (key c)) → w (v s (key c)) + n c < cap) =
      fun c s => O (v s (key c)) → O (v s (key c)) ∧ w (v s (key c)) + n c < cap := by
    funext c s
    exact propext ⟨fun hs ho => ⟨ho, hs ho⟩, fun hs ho => (hs ho).2⟩
  rw [hstep, h.fits (P := fun c o => O o → O o ∧ w o + n c < cap)]
  simp only [fitsAll_imp hO, fitsAll_add cap hg (fun c o => (hO c o).mpr), pick_eq_nil]
  constructor
  · intro hall c hc ho
    exact ((hall (key c) ho).resolve_left fun hn => hn c hc rfl).2
  · intro hall a ho
    by_cases ha : ∀ c ∈ l, key c ≠ a
    · exact .inl ha
    · push Not at ha
      obtain ⟨c, hc, rfl⟩ := ha
      exact .inr ⟨ho, hall c hc ho⟩

theorem Local.fits_sub {v : S → K → V} {key : ι → K} {E : ι → S → S} {g : ι → V → V} {n : ι → ℕ}
    {w : V → ℕ} {O : V → Prop} (h : Local v key E g) (hg : ∀ c o, w (g c o) = w o - n c)
    (hO : ∀ c o, O o → O (g c o)) (l : List ι) (s : S) :
    FitsAll (fun c s => O (v s (key c)) ∧ n c ≤ w (v s (key c))) E l s ↔
      ∀ c ∈ l, O (v s (key c)) ∧ total key n (key c) l ≤ w (v s (key c)) := by
  rw [h.fits (P := fun c o => O o ∧ n c ≤ w o)]
  simp only [fitsAll_sub hg hO, pick_eq_nil]
  constructor
  · intro hall c hc
    exact (hall (key c)).resolve_left fun hn => hn c hc rfl
  · intro hall a
    by_cases ha : ∀ c ∈ l, key c ≠ a
    · exact .inl ha
    · push Not at ha
      obtain ⟨c, hc, rfl⟩ := ha
      exact .inr (hall c hc)

/-! ## Maps, slot by slot -/

theorem pick_of_mem {l : List (K × V)} (hl : l.Pairwise fun x y => x.1 ≠ y.1) {a : K} {x : V}
    (h : (a, x) ∈ l) : pick Prod.fst a l = [(a, x)] := by
  induction l with
  | nil => exact absurd h List.not_mem_nil
  | cons c l ih =>
    rw [List.pairwise_cons] at hl
    rcases List.mem_cons.mp h with rfl | hmem
    · have hrest : pick Prod.fst a l = [] := pick_eq_nil.mpr fun y hy hya => hl.1 y hy hya.symm
      exact (pick_cons_self Prod.fst (a, x) l).trans (congrArg _ hrest)
    · rw [pick_cons_ne (hl.1 (a, x) hmem), ih hl.2 hmem]

section Slot
variable {K V : Type} [Ord K] [Std.TransOrd K]

/-- The slot of a map. -/
def slot (m : Std.ExtTreeMap K V) (a : K) : Option V := m[a]?

theorem mem_iff_slot {m : Std.ExtTreeMap K V} {a : K} : a ∈ m ↔ (slot m a).isSome :=
  Std.ExtTreeMap.mem_iff_isSome_getElem?

variable [Std.LawfulEqOrd K]

theorem slot_ext {m m' : Std.ExtTreeMap K V} (h : ∀ a, slot m a = slot m' a) : m = m' :=
  Std.ExtTreeMap.ext_getElem? fun {a} => h a

variable [DecidableEq K]

theorem slot_insert (m : Std.ExtTreeMap K V) (k a : K) (x : V) :
    slot (m.insert k x) a = if k = a then some x else slot m a := by
  simp only [slot, Std.ExtTreeMap.getElem?_insert, Std.LawfulEqOrd.compare_eq_iff_eq]

theorem slot_erase (m : Std.ExtTreeMap K V) (k a : K) :
    slot (m.erase k) a = if k = a then none else slot m a := by
  simp only [slot, Std.ExtTreeMap.getElem?_erase, Std.LawfulEqOrd.compare_eq_iff_eq]

theorem slot_modify (m : Std.ExtTreeMap K V) (k a : K) (f : V → V) :
    slot (m.modify k f) a = if k = a then (slot m a).map f else slot m a := by
  by_cases h : k = a
  · subst h
    simp [slot]
  · simp [slot, Std.ExtTreeMap.getElem?_modify, h]

theorem pick_toList (m : Std.ExtTreeMap K V) (a : K) :
    pick Prod.fst a m.toList = ((slot m a).map fun x => (a, x)).toList := by
  have hdist : m.toList.Pairwise fun x y => x.1 ≠ y.1 := by
    refine m.distinct_keys_toList.imp fun h => ?_
    rwa [Ne, ← Std.LawfulEqOrd.compare_eq_iff_eq]
  cases hx : slot m a with
  | none =>
    refine pick_eq_nil.mpr fun c hc hca => ?_
    obtain ⟨k, v⟩ := c
    subst hca
    rw [Std.ExtTreeMap.mem_toList_iff_getElem?_eq_some] at hc
    rw [slot, hc] at hx
    cases hx
  | some x =>
    exact pick_of_mem hdist (Std.ExtTreeMap.mem_toList_iff_getElem?_eq_some.mpr hx)

end Slot

end TruthLinked.Lib.Keyed
