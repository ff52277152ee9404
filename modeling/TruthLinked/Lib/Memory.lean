import Mathlib.Data.List.Basic
import Mathlib.Tactic.Common

/-! # Addressed memory

A memory gives a cell to every address. A list is stored from an address on (`write`) and a stretch of
cells is read as a list (`read`); a read sees a write exactly where the two stretches meet. -/

namespace TruthLinked.Lib.Memory

variable {β : Type*}

/-- The `n` cells from `a` on. -/
def read (m : ℕ → β) : ℕ → ℕ → List β
  | _, 0 => []
  | a, n + 1 => m a :: read m (a + 1) n

/-- The list `bs` stored from `a` on. -/
def write (m : ℕ → β) (a : ℕ) (bs : List β) : ℕ → β := fun i =>
  if a ≤ i then bs[i - a]?.getD (m i) else m i

/-- The two memories agree on the addresses from `a` up to `b`. -/
def Agree (m m' : ℕ → β) (a b : ℕ) : Prop := ∀ i, a ≤ i → i < b → m i = m' i

variable {m m' m'' : ℕ → β} {a b c d n : ℕ} {l : List β}

theorem Agree.symm (h : Agree m m' a b) : Agree m' m a b := fun i hi hi' => (h i hi hi').symm

theorem Agree.trans (h : Agree m m' a b) (h' : Agree m' m'' a b) : Agree m m'' a b :=
  fun i hi hi' => (h i hi hi').trans (h' i hi hi')

theorem Agree.mono (h : Agree m m' a b) (hac : a ≤ c) (hdb : d ≤ b) : Agree m m' c d :=
  fun i hi hi' => h i (by omega) (by omega)

theorem Agree.refl (m : ℕ → β) (a b : ℕ) : Agree m m a b := fun _ _ _ => rfl

@[simp] theorem length_read (m : ℕ → β) (a n : ℕ) : (read m a n).length = n := by
  induction n generalizing a with
  | zero => rfl
  | succ n ih => rw [read, List.length_cons, ih]

theorem read_congr (h : Agree m m' a (a + n)) : read m a n = read m' a n := by
  induction n generalizing a with
  | zero => rfl
  | succ n ih =>
    rw [read, read, h a (Nat.le_refl a) (by omega), ih (h.mono (by omega) (by omega))]

theorem write_of_lt (h : n < a) : write m a l n = m n := if_neg (by omega)

theorem write_of_le (h : a + l.length ≤ n) : write m a l n = m n := by
  unfold write
  rw [if_pos (by omega), List.getElem?_eq_none (by omega), Option.getD_none]

theorem agree_write_below (hb : b ≤ c) : Agree (write m c l) m a b :=
  fun _ _ hi => write_of_lt (by omega)

theorem agree_write_above (ha : c + l.length ≤ a) : Agree (write m c l) m a b :=
  fun _ hi _ => write_of_le (by omega)

theorem write_comm {l' : List β} (h : a + l.length ≤ b) :
    write (write m a l) b l' = write (write m b l') a l := by
  funext i
  rcases Nat.lt_or_ge i b with hi | hi
  · rw [write_of_lt hi]
    unfold write
    rw [if_neg (show ¬ b ≤ i by omega)]
  · rw [write_of_le (m := write m b l') (by omega)]
    unfold write
    rw [if_pos hi, if_pos hi, if_pos (show a ≤ i by omega),
      List.getElem?_eq_none (show l.length ≤ i - a by omega), Option.getD_none]

/-- A stretch inside the stored one reads the corresponding part of the list. -/
theorem read_write (pre mid post : List β) :
    read (write m a (pre ++ mid ++ post)) (a + pre.length) mid.length = mid := by
  induction mid generalizing pre with
  | nil => rfl
  | cons x mid ih =>
    rw [List.length_cons, read]
    have hx : write m a (pre ++ x :: mid ++ post) (a + pre.length) = x := by
      unfold write
      rw [if_pos (by omega)]
      simp
    have hrest := ih (pre ++ [x])
    rw [hx]
    simp only [List.append_assoc, List.length_append, List.length_singleton, List.cons_append,
      List.nil_append, ← Nat.add_assoc] at hrest ⊢
    rw [hrest]

end TruthLinked.Lib.Memory
