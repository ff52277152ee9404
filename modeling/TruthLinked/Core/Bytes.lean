import TruthLinked.Core.Types

/-! # Numbers and identifiers as bytes

What the fixed-width encodings of `Core.Types` give back when they are read again. -/

namespace TruthLinked.Core.Bytes

open Core.Types

@[simp] theorem length_leBytes (k n : ℕ) : (leBytes k n).length = k := by
  induction k generalizing n with
  | zero => rfl
  | succ k ih => rw [leBytes, List.length_cons, ih]

theorem leNat_lt (bs : Bytes) : leNat bs < 256 ^ bs.length := by
  induction bs with
  | nil => decide
  | cons b bs ih =>
    have hb : b.toNat < 256 := b.toNat_lt
    rw [leNat, List.length_cons, Nat.pow_succ]
    omega

theorem leNat_leBytes_mod (k n : ℕ) : leNat (leBytes k n) = n % 256 ^ k := by
  induction k generalizing n with
  | zero => rw [Nat.pow_zero, Nat.mod_one, leBytes, leNat]
  | succ k ih =>
    rw [leBytes, leNat, ih, UInt8.toNat_ofNat', Nat.pow_succ' (n := k), Nat.mod_mul]

theorem leNat_leBytes {k n : ℕ} (h : n < 256 ^ k) : leNat (leBytes k n) = n := by
  rw [leNat_leBytes_mod, Nat.mod_eq_of_lt h]

theorem leBytes_inj {k m n : ℕ} (hm : m < 256 ^ k) (hn : n < 256 ^ k) :
    leBytes k m = leBytes k n ↔ m = n := by
  constructor
  · intro h
    rw [← leNat_leBytes hm, h, leNat_leBytes hn]
  · rintro rfl
    rfl

theorem leBytes_leNat (bs : Bytes) : leBytes bs.length (leNat bs) = bs := by
  induction bs with
  | nil => rfl
  | cons b bs ih =>
    have hb : b.toNat < 256 := b.toNat_lt
    have hhead : UInt8.ofNat (b.toNat + 256 * leNat bs) = b := by
      rw [← UInt8.toNat_inj, UInt8.toNat_ofNat']
      omega
    have htail : (b.toNat + 256 * leNat bs) / 256 = leNat bs := by omega
    rw [leNat, List.length_cons, leBytes, hhead, htail, ih]

theorem beNat_concat (bs : Bytes) (b : UInt8) : beNat (bs ++ [b]) = beNat bs * 256 + b.toNat := by
  rw [beNat, List.foldl_append]
  rfl

theorem beNat_reverse (bs : Bytes) : beNat bs.reverse = leNat bs := by
  induction bs with
  | nil => rfl
  | cons b bs ih =>
    rw [List.reverse_cons, beNat_concat, ih, leNat]
    omega

@[simp] theorem length_ofBytes32 (w : Bytes32) : (ofBytes32 w).length = 32 := by
  unfold ofBytes32 beBytes
  rw [List.length_reverse, length_leBytes]

theorem ofBytes32_ne_nil (w : Bytes32) : ofBytes32 w ≠ [] := by
  intro h
  have hlen := length_ofBytes32 w
  rw [h] at hlen
  cases hlen

@[simp] theorem toBytes32_ofBytes32 (w : Bytes32) : toBytes32 (ofBytes32 w) = w := by
  have hw : w.toNat < 256 ^ 32 := w.isLt
  unfold toBytes32 ofBytes32 beBytes
  rw [beNat_reverse, leNat_leBytes hw, BitVec.ofNat_toNat, BitVec.setWidth_eq]

theorem ofBytes32_toBytes32 {bs : Bytes} (h : bs.length = 32) : ofBytes32 (toBytes32 bs) = bs := by
  have hrev : bs.reverse.length = 32 := by rw [List.length_reverse, h]
  have hlt : leNat bs.reverse < 2 ^ 256 := by
    have hle := leNat_lt bs.reverse
    rw [hrev] at hle
    exact hle
  have hbe : beNat bs = leNat bs.reverse := by rw [← beNat_reverse, List.reverse_reverse]
  unfold ofBytes32 toBytes32 beBytes
  rw [BitVec.toNat_ofNat, hbe, Nat.mod_eq_of_lt hlt, ← hrev, leBytes_leNat, List.reverse_reverse]

theorem ofBytes32_inj {a b : Bytes32} : ofBytes32 a = ofBytes32 b ↔ a = b :=
  ⟨fun h => by rw [← toBytes32_ofBytes32 a, h, toBytes32_ofBytes32], congrArg _⟩

/-! ## Strings -/

theorem toList_loop (bs : ByteArray) (i : ℕ) (r : List UInt8) :
    ByteArray.toList.loop bs i r = r.reverse ++ bs.data.toList.drop i := by
  fun_induction ByteArray.toList.loop bs i r with
  | case1 i r h ih =>
    have hi : i < bs.data.toList.length := h
    have hget : bs.get! i = bs.data.toList[i] := by
      rw [ByteArray.get!, getElem!_pos bs.data i h, Array.getElem_toList]
    rw [ih, List.reverse_cons, List.append_assoc, List.drop_eq_getElem_cons hi, hget]
    rfl
  | case2 i r h =>
    have hi : bs.data.toList.length ≤ i := Nat.le_of_not_lt h
    rw [List.drop_eq_nil_of_le hi, List.append_nil]

theorem toUTF8_toList_inj {s t : String} : s.toUTF8.toList = t.toUTF8.toList ↔ s = t := by
  have hdata : ∀ bs : ByteArray, bs.toList = bs.data.toList := by
    intro bs
    rw [ByteArray.toList, toList_loop]
    rfl
  rw [hdata, hdata, Array.toList_inj, ← ByteArray.ext_iff, String.toUTF8_eq_toByteArray,
    String.toUTF8_eq_toByteArray, String.toByteArray_inj]

end TruthLinked.Core.Bytes
