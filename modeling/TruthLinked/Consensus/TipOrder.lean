import TruthLinked.Consensus.ForkChoice
import TruthLinked.Lib.Challenge

/-! # The fork choice and the order of its headers

Headers of one tree are presented to `set_canonical_tip` one after the other, each with the total stake
assigned to it. The current tip is a champion and the presented headers challenge it: a header wins with
more signers than the tip, or with a higher rank, which compares height, total stake, signed stake, leader
round and hash in this order. The two ways to win are alternatives, so the relation has cycles
(`tip_depends_on_order`), and the last tip is independent of the order iff one header leads in both ways
(`tip_order_independent_iff`). -/

namespace TruthLinked.Consensus.TipOrder

open Core.Types Consensus.Types Consensus.ForkChoice Lib.Challenge

/-- The headers `tips` presented one after the other, with the stakes `σ`. -/
def present (σ : Bytes32 → ℕ) (c : BlockChain) (tips : List Bytes32) : BlockChain :=
  tips.foldl (fun c tip => (c.setCanonicalTip tip (σ tip)).2) c

/-- The header of `k` has a higher rank than that of `k'`: height, total stake, signed stake, then the
lower leader round and the smaller hash. -/
def Outranks (σ : Bytes32 → ℕ) (k : Bytes32) (h : BatchHeader) (k' : Bytes32) (h' : BatchHeader) : Prop :=
  h'.height < h.height ∨ (h.height = h'.height ∧
    (σ k' < σ k ∨ (σ k = σ k' ∧
      (h'.finalityCertificate.signedStake < h.finalityCertificate.signedStake ∨
        (h.finalityCertificate.signedStake = h'.finalityCertificate.signedStake ∧
          (h.leaderRound < h'.leaderRound ∨ (h.leaderRound = h'.leaderRound ∧ k < k')))))))

instance (σ : Bytes32 → ℕ) (k : Bytes32) (h : BatchHeader) (k' : Bytes32) (h' : BatchHeader) :
    Decidable (Outranks σ k h k' h') := inferInstanceAs (Decidable (_ ∨ _))

/-- The header of `x` wins against the header of `t`: it has more signers or a higher rank. -/
def exceeds (c : BlockChain) (σ : Bytes32 → ℕ) (x t : Bytes32) : Bool :=
  match c.headers[x]?, c.headers[t]? with
  | some new, some cur =>
    decide (cur.finalityCertificate.signerCount < new.finalityCertificate.signerCount ∨
      Outranks σ x new t cur)
  | _, _ => false

/-- The header is stored and not below the finalised height. -/
def eligible (c : BlockChain) (k : Bytes32) : Bool :=
  match c.headers[k]? with
  | some h => decide (c.lastFinalizedHeight ≤ h.height)
  | none => false

/-- **One header leads**: no presented header exceeds the tip, or one that exceeds the tip is exceeded by
no presented header. Headers that are not stored or lie below the finalised height do not count. -/
def OneLeads (c : BlockChain) (σ : Bytes32 → ℕ) (tips : List Bytes32) : Prop :=
  (∀ x ∈ tips.filter (eligible c), exceeds c σ x c.canonicalTip = false) ∨
    ∃ m ∈ tips.filter (eligible c), exceeds c σ m c.canonicalTip = true ∧
      ∀ x ∈ tips.filter (eligible c), exceeds c σ x m = false

/-- The tip is stored at the current height, with its assigned stake. -/
structure Weighed (σ : Bytes32 → ℕ) (c : BlockChain) : Prop where
  tip : ∃ h, c.headers[c.canonicalTip]? = some h ∧ h.height = c.currentHeight
  stake : c.stakeWeight[c.canonicalTip]?.getD 0 = σ c.canonicalTip

section Choice
variable {σ : Bytes32 → ℕ} {c : BlockChain}

theorem not_outranks_self (k : Bytes32) (h : BatchHeader) : ¬ Outranks σ k h k h := by
  simp [Outranks]

theorem outranks_total {k k' : Bytes32} (hne : k ≠ k') (h h' : BatchHeader) :
    Outranks σ k h k' h' ∨ Outranks σ k' h' k h := by
  have hhash : k.toNat ≠ k'.toNat := fun he => hne (BitVec.eq_of_toNat_eq he)
  simp only [Outranks, BitVec.lt_def]
  omega

theorem exceeds_self (x : Bytes32) : exceeds c σ x x = false := by
  unfold exceeds
  cases hx : c.headers[x]? with
  | none => rfl
  | some h => simp [not_outranks_self]

theorem exceeds_total {x y : Bytes32} (hx : eligible c x = true) (hy : eligible c y = true) (hne : x ≠ y) :
    exceeds c σ x y = true ∨ exceeds c σ y x = true := by
  unfold eligible at hx hy
  unfold exceeds
  cases hhx : c.headers[x]? with
  | none => simp [hhx] at hx
  | some h =>
    cases hhy : c.headers[y]? with
    | none => simp [hhy] at hy
    | some h' =>
      simp only [decide_eq_true_eq]
      rcases outranks_total (σ := σ) hne h h' with ho | ho
      · exact Or.inl (Or.inr ho)
      · exact Or.inr (Or.inr ho)

theorem prefers_eq {tip : Bytes32} {new cur : BatchHeader} (hcur : cur.height = c.currentHeight) :
    c.prefers tip new cur (σ tip) (σ c.canonicalTip) =
      decide (cur.finalityCertificate.signerCount < new.finalityCertificate.signerCount ∨
        Outranks σ tip new c.canonicalTip cur) := by
  rw [Bool.eq_iff_iff]
  simp only [BlockChain.prefers, Bool.or_eq_true, Bool.and_eq_true, decide_eq_true_eq, ← hcur]
  unfold Outranks
  tauto

theorem setCanonicalTip_weighed (hw : Weighed σ c) (tip : Bytes32) :
    let c' := (c.setCanonicalTip tip (σ tip)).2
    c'.headers = c.headers ∧ c'.lastFinalizedHeight = c.lastFinalizedHeight ∧ Weighed σ c' ∧
      c'.canonicalTip =
        if eligible c tip then challenge (exceeds c σ) c.canonicalTip tip else c.canonicalTip := by
  obtain ⟨cur, hcur, hheight⟩ := hw.tip
  unfold BlockChain.setCanonicalTip eligible challenge exceeds
  cases hh : c.headers[tip]? with
  | none => exact ⟨rfl, rfl, hw, rfl⟩
  | some header =>
    have hstake : (c.stakeWeight.insert tip (σ tip))[c.canonicalTip]?.getD 0 = σ c.canonicalTip := by
      rw [Std.ExtTreeMap.getElem?_insert]
      split_ifs with he
      · rw [Std.LawfulEqOrd.eq_of_compare he]
        rfl
      · exact hw.stake
    dsimp only
    by_cases hlow : header.height < c.lastFinalizedHeight
    · simp [hlow, hw]
    · rw [if_neg hlow, hcur]
      dsimp only
      rw [hstake, prefers_eq hheight, if_pos (decide_eq_true (not_lt.mp hlow))]
      by_cases hpref : decide (cur.finalityCertificate.signerCount <
          header.finalityCertificate.signerCount ∨ Outranks σ tip header c.canonicalTip cur) = true
      · rw [if_pos hpref, if_pos hpref]
        refine ⟨rfl, rfl, ⟨⟨header, hh, rfl⟩, ?_⟩, rfl⟩
        dsimp only
        rw [Std.ExtTreeMap.getElem?_insert_self]
        rfl
      · rw [if_neg hpref, if_neg hpref]
        exact ⟨rfl, rfl, ⟨⟨cur, hcur, hheight⟩, hstake⟩, rfl⟩

theorem canonicalTip_present (hw : Weighed σ c) (tips : List Bytes32) :
    (present σ c tips).canonicalTip =
      champion (exceeds c σ) c.canonicalTip (tips.filter (eligible c)) := by
  suffices hrun : ∀ d : BlockChain, d.headers = c.headers →
      d.lastFinalizedHeight = c.lastFinalizedHeight → Weighed σ d →
      (present σ d tips).canonicalTip =
        champion (exceeds c σ) d.canonicalTip (tips.filter (eligible c)) from hrun c rfl rfl hw
  induction tips with
  | nil => exact fun _ _ _ _ => rfl
  | cons tip tips ih =>
    intro d hheaders hlast hd
    obtain ⟨hheaders', hlast', hd', htip⟩ := setCanonicalTip_weighed hd tip
    have hel : eligible d = eligible c := by
      funext k
      unfold eligible
      rw [hheaders, hlast]
    have hex : exceeds d σ = exceeds c σ := by
      funext x y
      unfold exceeds
      rw [hheaders]
    show (present σ (d.setCanonicalTip tip (σ tip)).2 tips).canonicalTip = _
    rw [ih _ (hheaders'.trans hheaders) (hlast'.trans hlast) hd', htip, hel, hex, List.filter_cons]
    by_cases he : eligible c tip = true
    · rw [if_pos he, if_pos he]
      rfl
    · rw [if_neg he, if_neg he]

/-- **When the order of the headers does not matter.** -/
theorem tip_order_independent_iff (hw : Weighed σ c) (tips : List Bytes32) :
    (∀ tips' : List Bytes32, tips'.Perm tips →
      (present σ c tips').canonicalTip = (present σ c tips).canonicalTip) ↔ OneLeads c σ tips := by
  unfold OneLeads
  rw [← champion_perm_iff (t := c.canonicalTip) exceeds_self fun x hx y hy =>
    exceeds_total (List.mem_filter.mp hx).2 (List.mem_filter.mp hy).2]
  constructor
  · -- the headers that do not count may come last
    intro h ys hperm
    have hall : ∀ x ∈ ys, eligible c x = true := fun x hx =>
      (List.mem_filter.mp (hperm.mem_iff.mp hx)).2
    have hsplit : (ys ++ tips.filter fun x => !eligible c x).Perm tips :=
      (hperm.append_right _).trans (List.filter_append_perm (eligible c) tips)
    have heq := h _ hsplit
    rw [canonicalTip_present hw, canonicalTip_present hw, List.filter_append,
      List.filter_eq_self.mpr hall, List.filter_filter] at heq
    simpa using heq
  · intro h tips' hperm
    rw [canonicalTip_present hw, canonicalTip_present hw]
    exact h _ (hperm.filter _)

end Choice

/-! ## Two headers that exceed each other -/

/-- A first block with the given hash, and a second block on it, with the given bitmaps. -/
def twoBlocks (first second : Bytes) : BlockChain :=
  let child := { firstBlock 2 second with height := 2, parentHash := 1 }
  (((BlockChain.new idlePrim).addHeader (firstBlock 1 first)).2.addHeader child).2

example : ((twoBlocks [1] [1]).headers[(2 : Bytes32)]?).isSome = true := by decide +kernel

theorem weighed_of_height {σ : Bytes32 → ℕ} {c : BlockChain}
    (htip : c.headers[c.canonicalTip]?.map BatchHeader.height = some c.currentHeight)
    (hstake : c.stakeWeight[c.canonicalTip]?.getD 0 = σ c.canonicalTip) : Weighed σ c :=
  ⟨Option.map_eq_some_iff.mp htip, hstake⟩

theorem second_block_leads :
    (present (fun _ => 0) (twoBlocks [1] [1]) [2, 1]).canonicalTip =
      (present (fun _ => 0) (twoBlocks [1] [1]) [1, 2]).canonicalTip := by
  have hw : Weighed (fun _ => 0) (twoBlocks [1] [1]) :=
    weighed_of_height (by decide +kernel) (by decide +kernel)
  have hin : (2 : Bytes32) ∈ ([1, 2] : List Bytes32).filter (eligible (twoBlocks [1] [1])) := by
    decide +kernel
  have hwins : exceeds (twoBlocks [1] [1]) (fun _ => 0) 2 (twoBlocks [1] [1]).canonicalTip = true := by
    decide +kernel
  have hmax : ∀ x ∈ ([1, 2] : List Bytes32).filter (eligible (twoBlocks [1] [1])),
      exceeds (twoBlocks [1] [1]) (fun _ => 0) x 2 = false := by
    intro x hx
    have hx' := (List.mem_filter.mp hx).1
    rw [List.mem_cons, List.mem_singleton] at hx'
    rcases hx' with rfl | rfl
    · decide +kernel
    · decide +kernel
  exact (tip_order_independent_iff hw [1, 2]).mpr (Or.inr ⟨2, hin, hwins, hmax⟩) _ (List.Perm.swap 1 2 [])

/-- **The tip depends on the order**: the first block has the signer, the second block has the height, and
the one that comes last is taken. -/
theorem tip_depends_on_order :
    ¬ ∀ (c : BlockChain) (σ : Bytes32 → ℕ), Weighed σ c → ∀ tips tips' : List Bytes32, tips'.Perm tips →
      (present σ c tips').canonicalTip = (present σ c tips).canonicalTip := by
  intro h
  have heq := h (twoBlocks [1] []) (fun _ => 0)
    (weighed_of_height (by decide +kernel) (by decide +kernel)) [1, 2] [2, 1] (List.Perm.swap 1 2 [])
  revert heq
  decide +kernel

end TruthLinked.Consensus.TipOrder
