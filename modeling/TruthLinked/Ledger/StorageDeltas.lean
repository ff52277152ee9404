import TruthLinked.Core.Bytes
import TruthLinked.Ledger.Phases
import TruthLinked.Lib.Keyed

/-! # Composing storage deltas

Two deltas of a storage are composed key by key and then applied. That is the same as applying the first and
then the second when the two operations of a key have one kind and, for additions, when no limit of `i128` is
met on one way only (`AddSound`, `applies_iff`). Maxima, flags and appended bytes always compose; operations
of different kinds never do, and the second is dropped (`keepsAll_iff`). -/

namespace TruthLinked.Ledger.StorageDeltas

open Core.Types Core.Bytes Runtime.Types Ledger.Phases Lib.Keyed Lib.Phase

/-! ## One slot -/

/-- The number is an `i128`. -/
def FitsI128 (z : ℤ) : Prop := -2 ^ 127 ≤ z ∧ z < 2 ^ 127

/-- The operation as the source's types allow it. -/
def InRange : DeltaOp → Prop
  | .add delta => FitsI128 delta
  | .max value => value < 2 ^ 128
  | .or _ => True
  | .append _ => True

/-- `saturating_add`, on the exact sum. -/
def clamp (z : ℤ) : ℤ := min (max z (-2 ^ 127)) (2 ^ 127 - 1)

/-- The number at the start of a slot. -/
def low (w : Bytes32) : ℕ := leNat ((ofBytes32 w).take 16)

/-- A slot that starts with a number and ends with zeros. -/
def slotOf (n : ℕ) : Bytes32 := toBytes32 (leBytes 16 n ++ List.replicate 16 0)

/-- Adding `x` to `c` and then `y` is adding the sum: the sum of the two fits, and the first addition fits or
the two do not pull in opposite directions. (Three times the least number is met on both ways.) -/
def AddSound (c x y : ℤ) : Prop :=
  (FitsI128 (x + y) ∧ (FitsI128 (c + x) ∨ (0 ≤ x ∧ 0 ≤ y) ∨ (x ≤ 0 ∧ y ≤ 0))) ∨
    (c = -2 ^ 127 ∧ x = -2 ^ 127 ∧ y = -2 ^ 127)

/-- Two operations compose to one with their effect on the slot `base`. -/
def Sound (base : Bytes32) : DeltaOp → DeltaOp → Prop
  | .add x, .add y => AddSound (toI128 (low base)) x y
  | .max _, .max _ => True
  | .or _, .or _ => True
  | .append _, .append _ => True
  | _, _ => False

/-- The operations have one kind. -/
def SameKind : DeltaOp → DeltaOp → Prop
  | .add _, .add _ => True
  | .max _, .max _ => True
  | .or _, .or _ => True
  | .append _, .append _ => True
  | _, _ => False

theorem fits_toI128 {n : ℕ} (h : n < 2 ^ 128) : FitsI128 (toI128 n) := by
  unfold FitsI128 toI128
  split_ifs <;> omega

theorem toI128_toNat {z : ℤ} (h : FitsI128 z) : toI128 (z % 2 ^ 128).toNat = z := by
  unfold FitsI128 at h
  unfold toI128
  split_ifs <;> omega

theorem fits_clamp (z : ℤ) : FitsI128 (clamp z) := by
  unfold FitsI128 clamp
  omega

theorem wrapI128_add {x y : ℤ} (hx : FitsI128 x) (hy : FitsI128 y) : wrapI128 (x + y) =
    if x + y < -2 ^ 127 then x + y + 2 ^ 128 else if x + y < 2 ^ 127 then x + y else x + y - 2 ^ 128 := by
  unfold FitsI128 at hx hy
  unfold wrapI128 toI128
  split_ifs <;> omega

/-- **When a wrapped sum is added like its parts**. -/
theorem clamp_add_iff {c x y : ℤ} (hc : FitsI128 c) (hx : FitsI128 x) (hy : FitsI128 y) :
    clamp (c + wrapI128 (x + y)) = clamp (clamp (c + x) + y) ↔ AddSound c x y := by
  rw [wrapI128_add hx hy]
  unfold FitsI128 at hc hx hy
  unfold AddSound FitsI128 clamp
  split_ifs with hbelow hfits
  · omega
  · omega
  · omega

theorem low_lt (w : Bytes32) : low w < 2 ^ 128 := by
  have hlt := leNat_lt ((ofBytes32 w).take 16)
  have hlen : ((ofBytes32 w).take 16).length = 16 := by
    rw [List.length_take, length_ofBytes32]
    rfl
  rw [hlen] at hlt
  exact hlt

theorem ofBytes32_slotOf (n : ℕ) : ofBytes32 (slotOf n) = leBytes 16 n ++ List.replicate 16 0 := by
  refine ofBytes32_toBytes32 ?_
  rw [List.length_append, length_leBytes, List.length_replicate]

theorem low_slotOf {n : ℕ} (h : n < 2 ^ 128) : low (slotOf n) = n := by
  unfold low
  rw [ofBytes32_slotOf, List.take_left' (length_leBytes 16 n)]
  exact leNat_leBytes h

theorem slotOf_inj {m n : ℕ} (hm : m < 2 ^ 128) (hn : n < 2 ^ 128) : slotOf m = slotOf n ↔ m = n := by
  constructor
  · intro h
    rw [← low_slotOf hm, h, low_slotOf hn]
  · rintro rfl
    rfl

theorem apply_add (x : ℤ) (base : Bytes32) :
    (DeltaOp.add x).apply base = slotOf (clamp (toI128 (low base) + x) % 2 ^ 128).toNat := by
  unfold DeltaOp.apply slotOf clamp low
  dsimp only
  rw [length_leBytes, List.take_of_length_le (by rw [length_leBytes]; decide)]

theorem apply_max (v : ℕ) (base : Bytes32) : (DeltaOp.max v).apply base = slotOf (max (low base) v) := by
  unfold DeltaOp.apply slotOf low
  dsimp only
  rw [length_leBytes, List.take_of_length_le (by rw [length_leBytes]; decide)]

theorem apply_append (data : Bytes) (base : Bytes32) : (DeltaOp.append data).apply base = base := by
  unfold DeltaOp.apply
  dsimp only
  have hlong : 32 - (ofBytes32 base ++ data).length = 0 := by
    rw [List.length_append, length_ofBytes32]
    omega
  rw [hlong, List.replicate_zero, List.append_nil, List.take_left' (length_ofBytes32 base), toBytes32_ofBytes32]

/-- A flag is set by the first byte of the slot or by the operation. -/
theorem apply_or (v : Bool) (base : Bytes32) : (DeltaOp.or v).apply base =
    toBytes32 ((if (ofBytes32 base).headD 0 ≠ 0 ∨ v then 1 else 0) :: List.replicate 31 0) := by
  unfold DeltaOp.apply
  rfl

theorem head_apply_or (v : Bool) (base : Bytes32) :
    (ofBytes32 ((DeltaOp.or v).apply base)).headD 0 ≠ 0 ↔ (ofBytes32 base).headD 0 ≠ 0 ∨ v = true := by
  rw [apply_or, ofBytes32_toBytes32 (by simp), List.headD_cons]
  split_ifs with h
  · exact iff_of_true (by decide) h
  · exact iff_of_false (fun hne => hne rfl) h

/-- **Composing, then applying**, on one slot. -/
theorem apply_compose_iff {a b c : DeltaOp} (ha : InRange a) (hb : InRange b) (base : Bytes32)
    (hc : a.compose b = some c) : c.apply base = b.apply (a.apply base) ↔ Sound base a b := by
  cases a with
  | add x =>
    cases b with
    | add y =>
      obtain rfl := Option.some.inj hc
      have hmod : ∀ z : ℤ, (z % 2 ^ 128).toNat < 2 ^ 128 := fun z => by omega
      have hcancel : ∀ z w : ℤ, (clamp z % 2 ^ 128).toNat = (clamp w % 2 ^ 128).toNat ↔ clamp z = clamp w := by
        intro z w
        constructor
        · intro h
          rw [← toI128_toNat (fits_clamp z), h, toI128_toNat (fits_clamp w)]
        · intro h
          rw [h]
      rw [apply_add, apply_add, apply_add, slotOf_inj (hmod _) (hmod _), low_slotOf (hmod _),
        toI128_toNat (fits_clamp _), hcancel]
      exact clamp_add_iff (fits_toI128 (low_lt base)) ha hb
    | max v | or v | append data => cases hc
  | max v =>
    cases b with
    | max w =>
      obtain rfl := Option.some.inj hc
      have hlow : max (low base) v < 2 ^ 128 := max_lt (low_lt base) ha
      rw [apply_max, apply_max, apply_max, low_slotOf hlow]
      exact iff_of_true (by rw [max_assoc]) trivial
    | add x | or v | append data => cases hc
  | or v =>
    cases b with
    | or w =>
      obtain rfl := Option.some.inj hc
      refine iff_of_true ?_ trivial
      rw [apply_or w, apply_or]
      simp only [head_apply_or, Bool.or_eq_true, or_assoc]
    | add x | max v | append data => cases hc
  | append data =>
    cases b with
    | append data' =>
      obtain rfl := Option.some.inj hc
      exact iff_of_true (by rw [apply_append, apply_append, apply_append]) trivial
    | add x | max v | or v => cases hc

theorem compose_eq_none_iff (a b : DeltaOp) : a.compose b = none ↔ ¬ SameKind a b := by
  cases a <;> cases b <;> simp [DeltaOp.compose, SameKind]

theorem Sound.sameKind {base : Bytes32} {a b : DeltaOp} (h : Sound base a b) : SameKind a b := by
  cases a <;> cases b <;> first | exact h.elim | trivial

/-! ## A whole storage -/

/-- What one key holds after the second delta. -/
def composeAt (b : DeltaOp) : Option DeltaOp → Option DeltaOp
  | some a => (a.compose b).or (some a)
  | none => some b

/-- The turn of `composeDelta`. -/
def composeTurn (e : Bytes32 × DeltaOp) (d : StorageDelta) : StorageDelta :=
  match d[e.1]? with
  | some existing =>
    match existing.compose e.2 with
    | some composed => d.insert e.1 composed
    | none => d
  | none => d.insert e.1 e.2

theorem local_composeTurn : Local slot Prod.fst composeTurn fun e => composeAt e.2 := by
  refine ⟨fun e d => ?_, fun e d k hk => ?_⟩
  · unfold composeTurn composeAt slot
    cases hget : d[e.1]? with
    | none => simp
    | some a =>
      cases hcomp : a.compose e.2 with
      | none => simp [hcomp, hget]
      | some c => simp [hcomp]
  · unfold composeTurn
    cases d[e.1]? with
    | none => exact (slot_insert d e.1 k e.2).trans (if_neg hk)
    | some a =>
      dsimp only
      cases a.compose e.2 with
      | none => rfl
      | some c => exact (slot_insert d e.1 k c).trans (if_neg hk)

/-- **A key of two composed deltas**. -/
theorem slot_composeDelta (d other : StorageDelta) (k : Bytes32) :
    slot (composeDelta d other) k = (slot other k).elim (slot d k) fun b => composeAt b (slot d k) := by
  have hfold : composeDelta d other = runAll composeTurn other.toList d := rfl
  rw [hfold, local_composeTurn.run, pick_toList]
  cases slot other k <;> rfl

theorem slot_applyDelta (storage : Map Bytes32 Bytes32) (d : StorageDelta) (k : Bytes32) :
    slot (applyDelta storage d) k =
      (slot d k).elim (slot storage k) fun op => some (op.apply ((slot storage k).getD 0)) := by
  have hlocal : Local slot Prod.fst (fun (e : Bytes32 × DeltaOp) (m : Map Bytes32 Bytes32) =>
      m.insert e.1 (e.2.apply ((m[e.1]?).getD 0))) fun e o => some (e.2.apply (o.getD 0)) :=
    ⟨fun e m => (slot_insert _ _ _ _).trans (if_pos rfl), fun e m a ha => (slot_insert _ _ _ _).trans (if_neg ha)⟩
  have hfold : applyDelta storage d = runAll (fun (e : Bytes32 × DeltaOp) (m : Map Bytes32 Bytes32) =>
      m.insert e.1 (e.2.apply ((m[e.1]?).getD 0))) d.toList storage := rfl
  rw [hfold, hlocal.run, pick_toList]
  cases slot d k <;> rfl

/-- No operation is dropped: a key of both deltas holds the two operations composed. -/
def KeepsAll (d other : StorageDelta) : Prop :=
  ∀ k b, slot other k = some b → ∃ c, slot (composeDelta d other) k = some c ∧
    ∀ a, slot d k = some a → a.compose b = some c

/-- Composing the deltas and applying the result is applying one after the other. -/
def Composes (storage : Map Bytes32 Bytes32) (d other : StorageDelta) : Prop :=
  applyDelta storage (composeDelta d other) = applyDelta (applyDelta storage d) other

/-- A property of the two operations of every common key. -/
def Common (d other : StorageDelta) (P : Bytes32 → DeltaOp → DeltaOp → Prop) : Prop :=
  ∀ k a b, slot d k = some a → slot other k = some b → P k a b

/-- **When no operation is dropped**. -/
theorem keepsAll_iff (d other : StorageDelta) : KeepsAll d other ↔ Common d other fun _ => SameKind := by
  constructor
  · intro h k a b ha hb
    obtain ⟨c, -, hc⟩ := h k b hb
    by_contra hkind
    have hnone := hc a ha
    rw [(compose_eq_none_iff a b).mpr hkind] at hnone
    cases hnone
  · intro h k b hb
    rw [slot_composeDelta, hb, Option.elim_some]
    cases ha : slot d k with
    | none => exact ⟨b, rfl, fun a hnone => by cases hnone⟩
    | some a =>
      obtain ⟨c, hc⟩ := Option.ne_none_iff_exists'.mp fun hnone =>
        (compose_eq_none_iff a b).mp hnone (h k a b ha hb)
      refine ⟨c, ?_, fun a' ha' => ?_⟩
      · rw [composeAt, hc, Option.some_or]
      · obtain rfl := Option.some.inj ha'
        exact hc

/-- **Composing, then applying**, on a whole storage. -/
theorem composes_iff {storage : Map Bytes32 Bytes32} {d other : StorageDelta}
    (hd : ∀ k a, slot d k = some a → InRange a) (hother : ∀ k b, slot other k = some b → InRange b)
    (hkinds : Common d other fun _ => SameKind) :
    Composes storage d other ↔ Common d other fun k => Sound ((slot storage k).getD 0) := by
  have hslot : ∀ k, slot (applyDelta storage (composeDelta d other)) k =
      slot (applyDelta (applyDelta storage d) other) k ↔
        ∀ a b, slot d k = some a → slot other k = some b → Sound ((slot storage k).getD 0) a b := by
    intro k
    rw [slot_applyDelta, slot_applyDelta, slot_applyDelta, slot_composeDelta]
    cases hb : slot other k with
    | none =>
      rw [Option.elim_none, Option.elim_none]
      exact iff_of_true rfl fun a b _ hnone => by cases hnone
    | some b =>
      cases ha : slot d k with
      | none =>
        rw [Option.elim_some, Option.elim_some, Option.elim_none, composeAt, Option.elim_some]
        exact iff_of_true rfl fun a b hnone => by cases hnone
      | some a =>
        obtain ⟨c, hc⟩ := Option.ne_none_iff_exists'.mp fun hnone =>
          (compose_eq_none_iff a b).mp hnone (hkinds k a b ha hb)
        have hone := apply_compose_iff (hd k a ha) (hother k b hb) ((slot storage k).getD 0) hc
        rw [Option.elim_some, composeAt, hc, Option.some_or, Option.elim_some, Option.elim_some, Option.elim_some,
          Option.getD_some, Option.some.injEq, hone]
        constructor
        · intro h a' b' ha' hb'
          obtain rfl := Option.some.inj ha'
          obtain rfl := Option.some.inj hb'
          exact h
        · intro h
          exact h a b rfl rfl
  constructor
  · intro h k a b ha hb
    exact (hslot k).mp (by rw [h]) a b ha hb
  · intro h
    exact slot_ext fun k => (hslot k).mpr fun a b ha hb => h k a b ha hb

/-- **Composing storage deltas**: for operations of one kind, when the composed one has the effect of both;
when no operation is dropped; and when the composed deltas change a storage as one after the other. -/
theorem applies_iff (d other : StorageDelta) :
    (∀ a b base, InRange a → InRange b → SameKind a b →
      ((∃ c, a.compose b = some c ∧ c.apply base = b.apply (a.apply base)) ↔ Sound base a b)) ∧
    (KeepsAll d other ↔ Common d other fun _ => SameKind) ∧
    ∀ storage, (∀ k a, slot d k = some a → InRange a) → (∀ k b, slot other k = some b → InRange b) →
      (KeepsAll d other ∧ Composes storage d other ↔
        Common d other fun k => Sound ((slot storage k).getD 0)) := by
  refine ⟨fun a b base ha hb hkind => ?_, keepsAll_iff d other, fun storage hd hother => ?_⟩
  · obtain ⟨c, hc⟩ := Option.ne_none_iff_exists'.mp fun hnone => (compose_eq_none_iff a b).mp hnone hkind
    rw [← apply_compose_iff ha hb base hc]
    constructor
    · rintro ⟨c', hc', happly⟩
      rw [hc] at hc'
      obtain rfl := Option.some.inj hc'
      exact happly
    · intro h
      exact ⟨c, hc, h⟩
  · rw [keepsAll_iff]
    constructor
    · rintro ⟨hkinds, h⟩
      exact (composes_iff hd hother hkinds).mp h
    · intro h
      have hkinds : Common d other fun _ => SameKind := fun k a b ha hb => (h k a b ha hb).sameKind
      exact ⟨hkinds, (composes_iff hd hother hkinds).mpr h⟩

/-- Two additions to one slot, as one. -/
theorem applies_sample :
    KeepsAll ((∅ : StorageDelta).insert 0 (.add 5)) ((∅ : StorageDelta).insert 0 (.add (-7))) ∧
      Composes ∅ ((∅ : StorageDelta).insert 0 (.add 5)) ((∅ : StorageDelta).insert 0 (.add (-7))) := by
  have hone : ∀ (op : DeltaOp) k a, slot ((∅ : StorageDelta).insert 0 op) k = some a → k = 0 ∧ a = op := by
    intro op k a h
    rw [slot_insert] at h
    split_ifs at h with hk
    · exact ⟨hk.symm, (Option.some.inj h).symm⟩
    · cases h
  refine ((applies_iff _ _).2.2 _ (fun k a h => ?_) fun k b h => ?_).mpr fun k a b ha hb => ?_
  · rw [(hone _ k a h).2]
    unfold InRange FitsI128
    omega
  · rw [(hone _ k b h).2]
    unfold InRange FitsI128
    omega
  · obtain ⟨rfl, rfl⟩ := hone _ k a ha
    obtain ⟨-, rfl⟩ := hone _ 0 b hb
    have hlow : toI128 (low ((slot (∅ : Map Bytes32 Bytes32) 0).getD 0)) = 0 := by decide +kernel
    unfold Sound AddSound FitsI128
    rw [hlow]
    omega

/-- Up by the greatest `i128` and down by one, from one: the composed delta takes the full step. And a flag
added to a number is dropped. -/
theorem delta_lost :
    (¬ ∀ a b base, InRange a → InRange b → SameKind a b →
      ∃ c, a.compose b = some c ∧ c.apply base = b.apply (a.apply base)) ∧
    ¬ ∀ d other, KeepsAll d other := by
  constructor
  · intro h
    obtain ⟨c, hc, happly⟩ := h (.add (2 ^ 127 - 1)) (.add (-1)) (slotOf 1) (by unfold InRange FitsI128; omega)
      (by unfold InRange FitsI128; omega) trivial
    obtain rfl := Option.some.inj hc
    exact absurd happly (by decide +kernel)
  · intro h
    obtain ⟨c, -, hc⟩ :=
      h ((∅ : StorageDelta).insert 0 (.add 1)) ((∅ : StorageDelta).insert 0 (.or true)) 0 (.or true)
      (by rw [slot_insert, if_pos rfl])
    cases hc (.add 1) (by rw [slot_insert, if_pos rfl])

end TruthLinked.Ledger.StorageDeltas
