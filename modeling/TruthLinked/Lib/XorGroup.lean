import Mathlib.Algebra.BigOperators.Group.Finset.Basic
import Mathlib.Algebra.Ring.Parity

/-! # Accumulating by exclusive or

Words of one width form a commutative group under exclusive or, in which every word is its own inverse:
adding a contribution a second time takes it out. -/

namespace TruthLinked.Lib.XorGroup

/-- The words of width `n`, added by exclusive or. -/
def Xor (n : ℕ) : Type := BitVec n

variable {n : ℕ}

/-- A word as a summand. -/
def Xor.of (x : BitVec n) : Xor n := x

instance : DecidableEq (Xor n) := inferInstanceAs (DecidableEq (BitVec n))

instance : Zero (Xor n) := ⟨Xor.of 0⟩

instance : Add (Xor n) := ⟨BitVec.xor⟩

instance : Neg (Xor n) := ⟨id⟩

theorem of_xor (x y : BitVec n) : Xor.of (x ^^^ y) = Xor.of x + Xor.of y := rfl

theorem of_zero : Xor.of (0 : BitVec n) = 0 := rfl

theorem add_self (x : Xor n) : x + x = 0 := BitVec.xor_self (x := x)

instance : AddCommGroup (Xor n) where
  add_assoc := BitVec.xor_assoc
  zero_add x := BitVec.zero_xor (x := x)
  add_zero x := BitVec.xor_zero (x := x)
  add_comm := BitVec.xor_comm
  neg_add_cancel := add_self
  nsmul := nsmulRec
  zsmul := zsmulRec

theorem nsmul_of_even {k : ℕ} (h : Even k) (x : Xor n) : k • x = 0 := by
  obtain ⟨j, rfl⟩ := h
  rw [add_nsmul, add_self]

theorem nsmul_of_odd {k : ℕ} (h : Odd k) (x : Xor n) : k • x = x := by
  obtain ⟨j, rfl⟩ := h
  rw [add_nsmul, nsmul_of_even (even_two_mul j), one_nsmul, zero_add]

end TruthLinked.Lib.XorGroup
