import TruthLinked.Core.Types

/-! # The 256-bit arithmetic of the Axiom VM

A register is a 32-byte array; the VM reads it little-endian as four 64-bit limbs, limb `0` the least
significant (`u256`, `to32`). The functions below are the ones of `vm.rs`, fast paths included. -/

namespace TruthLinked.Axiom.Word

open Core.Types

/-- `[u64; 4]`, least significant limb first. -/
abbrev Limbs := Vector (BitVec 64) 4

/-- The limbs `[l0, l1, l2, l3]`. -/
def limbs (l0 l1 l2 l3 : BitVec 64) : Limbs := #v[l0, l1, l2, l3]

/-- `Vm::u256`. -/
def u256 (w : Bytes32) : Limbs :=
  let b := ofBytes32 w
  limbs (BitVec.ofNat 64 (leNat (slice b 0 8))) (BitVec.ofNat 64 (leNat (slice b 8 16)))
    (BitVec.ofNat 64 (leNat (slice b 16 24))) (BitVec.ofNat 64 (leNat (slice b 24 32)))

/-- `Vm::to32`. -/
def to32 (l : Limbs) : Bytes32 :=
  toBytes32 (leBytes 8 l[0].toNat ++ leBytes 8 l[1].toNat ++ leBytes 8 l[2].toNat ++
    leBytes 8 l[3].toNat)

/-- A byte string of at most 32 bytes, zero-padded on the right (`v[..e.len()].copy_from_slice(e)`
into a zero array). -/
def padRight (bs : Bytes) : Bytes32 := toBytes32 (bs ++ List.replicate (32 - bs.length) 0)

/-- `Vm::bval`. -/
def bval (v : Bool) : Bytes32 := padRight [if v then 1 else 0]

/-- `Vm::is_zero`. -/
def isZero (w : Bytes32) : Bool := w == 0

/-- The first `n` bytes, read little-endian (`from_le_bytes(r[..n])`). -/
def lowBytes (n : ℕ) (w : Bytes32) : ℕ := leNat ((ofBytes32 w).take n)

/-- `overflowing_add`. -/
def overflowingAdd (a b : BitVec 64) : BitVec 64 × Bool := (a + b, BitVec.uaddOverflow a b)

/-- `overflowing_sub`. -/
def overflowingSub (a b : BitVec 64) : BitVec 64 × Bool := (a - b, BitVec.usubOverflow a b)

/-- `b as u64`. -/
def bit (b : Bool) : BitVec 64 := if b then 1 else 0

/-- The test of the 64-bit fast paths. -/
def bothSmall (a b : Limbs) : Bool :=
  a[1] == 0 && a[2] == 0 && a[3] == 0 && b[1] == 0 && b[2] == 0 && b[3] == 0

/-- `Vm::add`. -/
def add (a b : Limbs) : Option Limbs :=
  if bothSmall a b then
    let (r, ov) := overflowingAdd a[0] b[0]
    if ov then none else some (limbs r 0 0 0)
  else
    let (r0, c0) := overflowingAdd a[0] b[0]
    let (r1, c1) := overflowingAdd a[1] b[1]
    let (r1, c1b) := overflowingAdd r1 (bit c0)
    let (r2, c2) := overflowingAdd a[2] b[2]
    let (r2, c2b) := overflowingAdd r2 (bit (c1 || c1b))
    let (r3, c3) := overflowingAdd a[3] b[3]
    let (r3, c3b) := overflowingAdd r3 (bit (c2 || c2b))
    if c3 || c3b then none else some (limbs r0 r1 r2 r3)

/-- `Vm::add_sat`. -/
def addSat (a b : Limbs) : Limbs :=
  (add a b).getD (limbs (.allOnes 64) (.allOnes 64) (.allOnes 64) (.allOnes 64))

/-- `Vm::sub`. -/
def sub (a b : Limbs) : Option Limbs :=
  if bothSmall a b then
    let (r, ov) := overflowingSub a[0] b[0]
    if ov then none else some (limbs r 0 0 0)
  else
    let (r0, c0) := overflowingSub a[0] b[0]
    let (r1, c1) := overflowingSub a[1] b[1]
    let (r1, c1b) := overflowingSub r1 (bit c0)
    let (r2, c2) := overflowingSub a[2] b[2]
    let (r2, c2b) := overflowingSub r2 (bit (c1 || c1b))
    let (r3, c3) := overflowingSub a[3] b[3]
    let (r3, c3b) := overflowingSub r3 (bit (c2 || c2b))
    if c3 || c3b then none else some (limbs r0 r1 r2 r3)

/-- `Vm::sub_sat`. -/
def subSat (a b : Limbs) : Limbs := (sub a b).getD (limbs 0 0 0 0)

/-- `(a[0] as u128) | ((a[1] as u128) << 64)`. -/
def low128 (a : Limbs) : BitVec 128 := a[1] ++ a[0]

/-- A `u128` as limbs. -/
def ofU128 (v : BitVec 128) : Limbs := limbs (v.extractLsb' 0 64) (v.extractLsb' 64 64) 0 0

/-- `Vm::mul`. -/
def mul (a b : Limbs) : Option Limbs :=
  if bothSmall a b then
    if BitVec.umulOverflow a[0] b[0] then none else some (limbs (a[0] * b[0]) 0 0 0)
  else
    let aHi := a[2] != 0 || a[3] != 0
    let bHi := b[2] != 0 || b[3] != 0
    let aNz := a[0] != 0 || a[1] != 0 || aHi
    let bNz := b[0] != 0 || b[1] != 0 || bHi
    if (aHi && bNz) || (bHi && aNz) then none
    else if BitVec.umulOverflow (low128 a) (low128 b) then none
    else some (ofU128 (low128 a * low128 b))

/-- `Vm::cmp`: the limbs from the most significant down. -/
def cmp (a b : Limbs) : Ordering :=
  (compare a[3] b[3]).then <| (compare a[2] b[2]).then <| (compare a[1] b[1]).then <|
    compare a[0] b[0]

/-- Limb `i`, zero out of range. -/
def limb (a : Limbs) (i : ℕ) : BitVec 64 := a.toList.getD i 0

/-- `Vm::shl`. -/
def shl (a : Limbs) (s : UInt8) : Limbs :=
  if s == 0 then a else
    let ws := s.toNat / 64
    let bs := s.toNat % 64
    .ofFn fun i =>
      if i.val < ws then 0
      else if bs > 0 ∧ i.val > ws then
        limb a (i - ws) <<< bs ||| limb a (i - ws - 1) >>> (64 - bs)
      else limb a (i - ws) <<< bs

/-- `Vm::shr`. -/
def shr (a : Limbs) (s : UInt8) : Limbs :=
  if s == 0 then a else
    let ws := s.toNat / 64
    let bs := s.toNat % 64
    .ofFn fun i =>
      if i.val ≥ 4 - ws then 0
      else if bs > 0 ∧ i.val + ws + 1 < 4 then
        limb a (i + ws) >>> bs ||| limb a (i + ws + 1) <<< (64 - bs)
      else limb a (i + ws) >>> bs

/-- `u64::leading_zeros` of a non-zero word. -/
def leadingZeros (x : BitVec 64) : ℕ := 63 - Nat.log2 x.toNat

/-- `Vm::lz`. -/
def lz (a : Limbs) : ℕ :=
  if a[3] != 0 then leadingZeros a[3]
  else if a[2] != 0 then 64 + leadingZeros a[2]
  else if a[1] != 0 then 128 + leadingZeros a[1]
  else if a[0] != 0 then 192 + leadingZeros a[0]
  else 256

/-- One turn of the shift-subtract loop of `Vm::divmod`, on the pair (`quot`, `rem`). -/
def divStep (b : Limbs) (shift : ℕ) (qr : Limbs × Limbs) : Limbs × Limbs :=
  let sb := shl b (UInt8.ofNat shift)
  if cmp qr.2 sb != .lt then
    (.ofFn fun i => if i.val = shift / 64 then limb qr.1 i ||| (1 : BitVec 64) <<< (shift % 64)
      else limb qr.1 i, subSat qr.2 sb)
  else qr

/-- The loop, from `shift` down to `0`. -/
def divLoop (b : Limbs) : ℕ → Limbs × Limbs → Limbs × Limbs
  | 0, qr => divStep b 0 qr
  | k + 1, qr => divLoop b k (divStep b (k + 1) qr)

/-- `Vm::divmod`. -/
def divmod (a b : Limbs) : Limbs × Limbs :=
  if bothSmall a b then (limbs (a[0] / b[0]) 0 0 0, limbs (a[0] % b[0]) 0 0 0)
  else if a[2] == 0 && a[3] == 0 && b[2] == 0 && b[3] == 0 then
    (ofU128 (low128 a / low128 b), ofU128 (low128 a % low128 b))
  else
    let bBits := 256 - lz b
    let aBits := 256 - lz a
    if aBits < bBits then (limbs 0 0 0 0, a)
    else divLoop b (aBits - bBits) (limbs 0 0 0 0, a)

/-- `Vm::and`. -/
def and (a b : Limbs) : Limbs := a.zipWith (· &&& ·) b

/-- `Vm::or`. -/
def or (a b : Limbs) : Limbs := a.zipWith (· ||| ·) b

/-- `Vm::xor`. -/
def xor (a b : Limbs) : Limbs := a.zipWith (· ^^^ ·) b

/-- `Vm::not`. -/
def not (a : Limbs) : Limbs := a.map (~~~ ·)

end TruthLinked.Axiom.Word
