import TruthLinked.Lib.Weight
import TruthLinked.Oracle.Attempts
import Mathlib.Algebra.Order.BigOperators.Group.List

/-! # Prices, and when two nodes finalize the same result

`try_finalize_price_usd` sorts the samples by their price, takes the heaviest window and the weighted median
of it. Which window and which median that is can be said without an order (`Heaviest`, `Median`), and the code
computes both whatever the walk (`priceIn_eq`); only the status, that of the first sample at the median,
depends on the walk. With the groups of `Attempts` this gives when the result does not depend on the order in
which the hash maps are walked (`deterministic_iff`). -/

namespace TruthLinked.Oracle.Prices

open Core.Types Governance.Types Staking.State Oracle.Tally Oracle.Attempts

/-- A price, the stake behind it, and the status of the reveal. -/
abbrev Sample := ℕ × ℕ × ℕ

/-! ### Window and median without an order -/

/-- The stake of the samples whose price passes `p`, as a saturating sum. -/
def stakeWhere (l : List Sample) (p : ℕ → Bool) : ℕ :=
  min ((l.filter fun x => p x.1).map fun x => x.2.1).sum (u64 - 1)

/-- The tolerance of the window that starts at the price `a`. -/
def tolerance (a : ℕ) : ℕ := max a 1 * priceToleranceBps / 10000 % u64

/-- The window that starts at the price `a`. -/
def within (a price : ℕ) : Bool := decide (a ≤ price) && decide (price - max a 1 ≤ tolerance a)

/-- What the window at `a` weighs. -/
def windowStake (l : List Sample) (a : ℕ) : ℕ := stakeWhere l (within a)

/-- The number of samples in the window at `a`. -/
def windowCount (l : List Sample) (a : ℕ) : ℕ := (l.filter fun x => within a x.1).length

/-- The window at `a` is the heaviest one that starts at a sample, and the first of equals. -/
structure Heaviest (l : List Sample) (a : ℕ) : Prop where
  mem : ∃ x ∈ l, x.1 = a
  le : ∀ x ∈ l, windowStake l x.1 ≤ windowStake l a
  lt : ∀ x ∈ l, x.1 < a → windowStake l x.1 < windowStake l a

/-- Half of the window at `a`. -/
def target (l : List Sample) (a : ℕ) : ℕ := satAdd64 (windowStake l a) 1 / 2

/-- `p` is the least price at which the window at `a` has reached half of its stake. -/
structure Median (l : List Sample) (a p : ℕ) : Prop where
  mem : ∃ x ∈ l, x.1 = p
  within : within a p = true
  reached : target l a ≤ stakeWhere l fun price => Prices.within a price && decide (price ≤ p)
  least : ∀ x ∈ l, Prices.within a x.1 = true → x.1 < p →
    (stakeWhere l fun price => Prices.within a price && decide (price ≤ x.1)) < target l a

section Order
variable {l l' : List Sample} {a a' p p' : ℕ}

theorem stakeWhere_perm (h : l.Perm l') (f : ℕ → Bool) : stakeWhere l f = stakeWhere l' f := by
  unfold stakeWhere
  rw [((h.filter _).map _).sum_eq]

theorem stakeWhere_le (h : l.Sublist l') {f g : ℕ → Bool} (hfg : ∀ x ∈ l, f x.1 = true → g x.1 = true) :
    stakeWhere l f ≤ stakeWhere l' g := by
  have hsub : (l.filter fun x => f x.1).Sublist (l'.filter fun x => g x.1) := by
    have hfilter : (l.filter fun x => f x.1) = (l.filter fun x => g x.1).filter fun x => f x.1 := by
      rw [List.filter_filter]
      refine List.filter_congr fun x hx => ?_
      cases hf : f x.1 with
      | false => rfl
      | true => rw [hfg x hx hf]; rfl
    rw [hfilter]
    exact List.filter_sublist.trans (h.filter _)
  have hsum := (hsub.map fun x => x.2.1).sum_le_sum (fun _ _ => Nat.zero_le _)
  unfold stakeWhere
  omega

theorem Heaviest.perm (h : l.Perm l') (ha : Heaviest l a) : Heaviest l' a := by
  have hstake : ∀ b, windowStake l' b = windowStake l b := fun b => (stakeWhere_perm h _).symm
  obtain ⟨x, hx, rfl⟩ := ha.mem
  refine ⟨⟨x, h.mem_iff.mp hx, rfl⟩, fun y hy => ?_, fun y hy hlt => ?_⟩
  · rw [hstake, hstake]
    exact ha.le y (h.mem_iff.mpr hy)
  · rw [hstake, hstake]
    exact ha.lt y (h.mem_iff.mpr hy) hlt

theorem Heaviest.unique (h : Heaviest l a) (h' : Heaviest l a') : a = a' := by
  obtain ⟨x, hx, rfl⟩ := h.mem
  obtain ⟨y, hy, rfl⟩ := h'.mem
  rcases Nat.lt_trichotomy x.1 y.1 with hlt | heq | hlt
  · have h1 := h'.lt x hx hlt
    have h2 := h.le y hy
    omega
  · exact heq
  · have h1 := h.lt y hy hlt
    have h2 := h'.le x hx
    omega

theorem target_perm (h : l.Perm l') (a : ℕ) : target l a = target l' a := by
  unfold target windowStake
  rw [stakeWhere_perm h]

theorem Median.perm (h : l.Perm l') (hp : Median l a p) : Median l' a p := by
  obtain ⟨x, hx, rfl⟩ := hp.mem
  refine ⟨⟨x, h.mem_iff.mp hx, rfl⟩, hp.within, ?_, fun y hy hw hlt => ?_⟩
  · rw [← target_perm h, ← stakeWhere_perm h]
    exact hp.reached
  · rw [← target_perm h, ← stakeWhere_perm h]
    exact hp.least y (h.mem_iff.mpr hy) hw hlt

theorem Median.unique (h : Median l a p) (h' : Median l a p') : p = p' := by
  obtain ⟨x, hx, rfl⟩ := h.mem
  obtain ⟨y, hy, rfl⟩ := h'.mem
  rcases Nat.lt_trichotomy x.1 y.1 with hlt | heq | hlt
  · have h1 := h'.least x hx h.within hlt
    have h2 := h.reached
    omega
  · exact heq
  · have h1 := h.least y hy h'.within hlt
    have h2 := h'.reached
    omega

end Order

/-! ### What the loops compute on sorted samples -/

/-- The samples are sorted by their price. -/
def Sorted (l : List Sample) : Prop := l.Pairwise fun x y => x.1 ≤ y.1

section Loops
variable {l pre suf : List Sample} {a : ℕ}

/-- A property that only the cheaper samples have holds of the first ones. -/
theorem take_filter_of_antitone (h : Sorted l) {f : ℕ → Bool} (hf : ∀ b c, b ≤ c → f c = true → f b = true) :
    l.take (l.filter fun x => f x.1).length = l.filter fun x => f x.1 := by
  induction l with
  | nil => rfl
  | cons x l ih =>
    obtain ⟨hx, hl⟩ := List.pairwise_cons.mp h
    cases hfx : f x.1 with
    | true =>
      rw [List.filter_cons, hfx, if_pos rfl, List.length_cons, List.take_succ_cons, ih hl]
    | false =>
      have hnil : (x :: l).filter (fun x => f x.1) = [] := by
        refine List.filter_eq_nil_iff.mpr fun y hy hfy => ?_
        have hle : x.1 ≤ y.1 := by
          rcases List.mem_cons.mp hy with rfl | hy
          · exact le_refl _
          · exact hx y hy
        rw [hf _ _ hle hfy] at hfx
        cases hfx
      rw [hnil, List.length_nil, List.take_zero]

/-- The inner loop runs over the samples within the tolerance. -/
theorem window_eq (h : Sorted l) (anchor tol : ℕ) {stake : ℕ} (hstake : stake ≤ u64 - 1) :
    window anchor tol l stake = ((l.filter fun x => decide (x.1 - anchor ≤ tol)).length,
      min (stake + ((l.filter fun x => decide (x.1 - anchor ≤ tol)).map fun x => x.2.1).sum) (u64 - 1)) := by
  induction l generalizing stake with
  | nil =>
    rw [window, List.filter_nil, List.map_nil, List.sum_nil, Nat.add_zero, min_eq_left hstake]
    rfl
  | cons x l ih =>
    obtain ⟨hx, hl⟩ := List.pairwise_cons.mp h
    obtain ⟨price, s, status⟩ := x
    unfold window
    by_cases hle : price - anchor ≤ tol
    · have hsat : satAdd64 stake s ≤ u64 - 1 := min_le_right _ _
      rw [if_pos hle, ih hl hsat, List.filter_cons, if_pos (decide_eq_true hle), List.map_cons, List.sum_cons,
        List.length_cons]
      unfold satAdd64
      dsimp only
      congr 1
      omega
    · have hnil : l.filter (fun x => decide (x.1 - anchor ≤ tol)) = [] := by
        refine List.filter_eq_nil_iff.mpr fun y hy hfy => ?_
        have := hx y hy
        have := of_decide_eq_true hfy
        dsimp only at *
        omega
      rw [if_neg hle, List.filter_cons, if_neg (fun hc => hle (of_decide_eq_true hc)), hnil, List.map_nil,
        List.sum_nil, Nat.add_zero, min_eq_left hstake]
      rfl

/-- What the outer loop knows after the samples `pre`. -/
def BestOf (l pre : List Sample) : Option (ℕ × ℕ × ℕ) → Prop
  | none => pre = []
  | some (start, n, stake) => ∃ a, (∃ x ∈ pre, x.1 = a) ∧ (∀ x ∈ pre, windowStake l x.1 ≤ windowStake l a) ∧
      (∀ x ∈ pre, x.1 < a → windowStake l x.1 < windowStake l a) ∧
      (l.drop start).take n = (l.filter fun x => within a x.1) ∧ n = windowCount l a ∧ stake = windowStake l a

theorem drop_eq_filter (h : Sorted (pre ++ suf)) {x : Sample} {rest : List Sample} (hsuf : suf = x :: rest)
    (hnew : ∀ y ∈ pre, y.1 ≠ x.1) : suf = (pre ++ suf).filter fun y => decide (x.1 ≤ y.1) := by
  subst hsuf
  obtain ⟨-, hsorted, hcross⟩ := List.pairwise_append.mp h
  have hpre : pre.filter (fun y => decide (x.1 ≤ y.1)) = [] := by
    refine List.filter_eq_nil_iff.mpr fun y hy hle => ?_
    have h1 := hcross y hy x List.mem_cons_self
    have h2 := of_decide_eq_true hle
    exact hnew y hy (le_antisymm h1 h2)
  rw [List.filter_append, hpre, List.nil_append]
  refine (List.filter_eq_self.mpr fun y hy => ?_).symm
  rcases List.mem_cons.mp hy with rfl | hy
  · exact decide_eq_true (le_refl _)
  · exact decide_eq_true ((List.pairwise_cons.mp hsorted).1 y hy)

theorem bestOf_step {x : Sample} {rest : List Sample} (h : Sorted (pre ++ x :: rest))
    {best : Option (ℕ × ℕ × ℕ)} (hbest : BestOf (pre ++ x :: rest) pre best) :
    let anchor := max x.1 1
    let w := window anchor (anchor * priceToleranceBps / 10000 % u64) (x :: rest) 0
    BestOf (pre ++ x :: rest) (pre ++ [x])
      (if (match best with
        | some (_, _, bestStake) => decide (bestStake < w.2)
        | none => true) then some (pre.length, w.1, w.2) else best) := by
  intro anchor w
  set l := pre ++ x :: rest with hl
  have hsorted : Sorted (x :: rest) := (List.pairwise_append.mp h).2.1
  have hw : w = (((x :: rest).filter fun y => decide (y.1 - max x.1 1 ≤ tolerance x.1)).length,
      min (0 + (((x :: rest).filter fun y => decide (y.1 - max x.1 1 ≤ tolerance x.1)).map fun y => y.2.1).sum)
        (u64 - 1)) := window_eq hsorted _ _ (Nat.zero_le _)
  -- within the suffix the window at `x` only asks for the tolerance
  have hfrom : ∀ y ∈ x :: rest, within x.1 y.1 = decide (y.1 - max x.1 1 ≤ tolerance x.1) := by
    intro y hy
    have hle : x.1 ≤ y.1 := by
      rcases List.mem_cons.mp hy with rfl | hy
      · exact le_refl _
      · exact (List.pairwise_cons.mp hsorted).1 y hy
    unfold within
    rw [decide_eq_true hle, Bool.true_and]
  rw [← List.filter_congr hfrom, Nat.zero_add] at hw
  have hdrop : l.drop pre.length = x :: rest := List.drop_left
  by_cases hseen : ∃ y ∈ pre, y.1 = x.1
  · -- a sample of this price was tried before, and its window holds this one
    have hle : w.2 ≤ windowStake l x.1 := by
      rw [hw]
      exact stakeWhere_le (List.sublist_append_right _ _) fun y _ hy => hy
    cases best with
    | none =>
      obtain ⟨y, hy, -⟩ := hseen
      rw [show pre = [] from hbest] at hy
      cases hy
    | some b =>
      obtain ⟨start, n, stake⟩ := b
      obtain ⟨a, hmem, hmax, hlt, htake, hn, hstake⟩ := hbest
      obtain ⟨y, hy, hyx⟩ := hseen
      have hno : ¬ decide (stake < w.2) = true := by
        have := hmax y hy
        rw [hyx] at this
        rw [decide_eq_true_eq]
        omega
      dsimp only
      rw [if_neg hno]
      obtain ⟨z, hz, rfl⟩ := hmem
      refine ⟨z.1, ⟨z, List.mem_append_left _ hz, rfl⟩, fun u hu => ?_, fun u hu hlt' => ?_, htake, hn, hstake⟩
      · rcases List.mem_append.mp hu with hu | hu
        · exact hmax u hu
        · rw [List.mem_singleton.mp hu, ← hyx]
          exact hmax y hy
      · rcases List.mem_append.mp hu with hu | hu
        · exact hlt u hu hlt'
        · rw [List.mem_singleton.mp hu, ← hyx] at hlt' ⊢
          exact hlt y hy hlt'
  · -- the first sample of its price: its window is the one of the price
    push Not at hseen
    have hfilter := drop_eq_filter h rfl hseen
    have hwin : (x :: rest).filter (fun y => within x.1 y.1) = l.filter fun y => within x.1 y.1 := by
      have hboth : ∀ y : Sample, (within x.1 y.1 && decide (x.1 ≤ y.1)) = within x.1 y.1 := by
        intro y
        unfold within
        cases decide (x.1 ≤ y.1) <;> simp
      conv_lhs => rw [hfilter]
      rw [List.filter_filter]
      exact List.filter_congr fun y _ => hboth y
    rw [hwin] at hw
    have hstake : w.2 = windowStake l x.1 := by rw [hw]; rfl
    have hcount : w.1 = windowCount l x.1 := by rw [hw]; rfl
    have htake : (l.drop pre.length).take w.1 = l.filter fun y => within x.1 y.1 := by
      have hanti : ∀ b c, b ≤ c → decide (c - max x.1 1 ≤ tolerance x.1) = true →
          decide (b - max x.1 1 ≤ tolerance x.1) = true := by
        intro b c hbc hc
        have := of_decide_eq_true hc
        exact decide_eq_true (by omega)
      have := take_filter_of_antitone hsorted hanti
      rw [← List.filter_congr hfrom, hwin] at this
      rw [hdrop, hcount]
      exact this
    have hself : ∃ y ∈ pre ++ [x], y.1 = x.1 :=
      ⟨x, List.mem_append_right _ (List.mem_singleton.mpr rfl), rfl⟩
    cases best with
    | none =>
      have hnil : pre = [] := hbest
      dsimp only
      rw [if_pos rfl]
      refine ⟨x.1, hself, fun u hu => ?_, fun u hu hlt => ?_, htake, hcount, hstake⟩
      · rw [hnil, List.nil_append, List.mem_singleton] at hu
        rw [hu]
      · rw [hnil, List.nil_append, List.mem_singleton] at hu
        rw [hu] at hlt
        exact absurd hlt (lt_irrefl _)
    | some b =>
      obtain ⟨start, n, stake⟩ := b
      obtain ⟨a, hmem, hmax, hlt, htake', hn, hstake'⟩ := hbest
      have hless : ∀ y ∈ pre, y.1 < x.1 := fun y hy =>
        lt_of_le_of_ne ((List.pairwise_append.mp h).2.2 y hy x List.mem_cons_self) (hseen y hy)
      dsimp only
      by_cases hbetter : stake < w.2
      · rw [if_pos (decide_eq_true hbetter)]
        refine ⟨x.1, hself, fun u hu => ?_, fun u hu hlt' => ?_, htake, hcount, hstake⟩
        · rcases List.mem_append.mp hu with hu | hu
          · have := hmax u hu
            omega
          · rw [List.mem_singleton.mp hu]
        · rcases List.mem_append.mp hu with hu | hu
          · have := hmax u hu
            omega
          · rw [List.mem_singleton.mp hu] at hlt'
            exact absurd hlt' (lt_irrefl _)
      · rw [if_neg (fun hc => hbetter (of_decide_eq_true hc))]
        obtain ⟨z, hz, rfl⟩ := hmem
        refine ⟨z.1, ⟨z, List.mem_append_left _ hz, rfl⟩, fun u hu => ?_, fun u hu hlt' => ?_,
          htake', hn, hstake'⟩
        · rcases List.mem_append.mp hu with hu | hu
          · exact hmax u hu
          · rw [List.mem_singleton.mp hu]
            omega
        · rcases List.mem_append.mp hu with hu | hu
          · exact hlt u hu hlt'
          · rw [List.mem_singleton.mp hu] at hlt'
            have := hless z hz
            omega

theorem bestOf_bestWindow (h : Sorted (pre ++ suf)) {best : Option (ℕ × ℕ × ℕ)}
    (hbest : BestOf (pre ++ suf) pre best) :
    BestOf (pre ++ suf) (pre ++ suf) (bestWindow suf pre.length best) := by
  induction suf generalizing pre best with
  | nil =>
    rw [List.append_nil] at hbest ⊢
    exact hbest
  | cons x rest ih =>
    have hstep := bestOf_step h hbest
    have hassoc : pre ++ x :: rest = (pre ++ [x]) ++ rest := by rw [List.append_assoc]; rfl
    have hlen : (pre ++ [x]).length = pre.length + 1 := by rw [List.length_append, List.length_singleton]
    rw [hassoc] at h hstep ⊢
    have hrest := ih h hstep
    rw [hlen] at hrest
    unfold bestWindow
    exact hrest

/-- **The heaviest window** is what the loops find. -/
theorem bestWindow_spec (h : Sorted l) :
    (bestWindow l 0 none = none ∧ l = []) ∨ ∃ start a, Heaviest l a ∧
      bestWindow l 0 none = some (start, windowCount l a, windowStake l a) ∧
      (l.drop start).take (windowCount l a) = l.filter fun x => within a x.1 := by
  have hbest : BestOf l l (bestWindow l 0 none) := @bestOf_bestWindow [] l h none rfl
  cases hres : bestWindow l 0 none with
  | none =>
    rw [hres] at hbest
    exact .inl ⟨rfl, hbest⟩
  | some b =>
    obtain ⟨start, n, stake⟩ := b
    rw [hres] at hbest
    obtain ⟨a, hmem, hmax, hlt, htake, rfl, rfl⟩ := hbest
    exact .inr ⟨start, a, ⟨hmem, hmax, hlt⟩, rfl, htake⟩

theorem weightedMedian_step (h : Sorted (pre ++ suf)) {goal cumulative median : ℕ}
    (hcum : cumulative = min (pre.map fun x => x.2.1).sum (u64 - 1)) (hpre : pre = [] ∨ cumulative < goal)
    (hgoal : goal ≤ min ((pre ++ suf).map fun x => x.2.1).sum (u64 - 1)) (hne : pre ++ suf ≠ []) :
    (∃ x ∈ pre ++ suf, x.1 = weightedMedian goal suf cumulative median) ∧
    goal ≤ stakeWhere (pre ++ suf) (fun price => decide (price ≤ weightedMedian goal suf cumulative median)) ∧
    ∀ x ∈ pre ++ suf, x.1 < weightedMedian goal suf cumulative median →
      stakeWhere (pre ++ suf) (fun price => decide (price ≤ x.1)) < goal := by
  induction suf generalizing pre cumulative with
  | nil =>
    rw [List.append_nil] at hgoal hne
    rcases hpre with hnil | hlt
    · exact absurd hnil hne
    · omega
  | cons x rest ih =>
    obtain ⟨price, stake, status⟩ := x
    have hnext : satAdd64 cumulative stake =
        min ((pre ++ [(price, stake, status)]).map fun x => x.2.1).sum (u64 - 1) := by
      rw [List.map_append, List.sum_append, List.map_singleton, List.sum_singleton, hcum]
      unfold satAdd64
      dsimp only
      omega
    have hassoc : pre ++ (price, stake, status) :: rest = (pre ++ [(price, stake, status)]) ++ rest := by
      rw [List.append_assoc]
      rfl
    unfold weightedMedian
    dsimp only
    by_cases hreach : goal ≤ satAdd64 cumulative stake
    · rw [if_pos hreach]
      obtain ⟨-, hsuf, hcross⟩ := List.pairwise_append.mp h
      refine ⟨⟨_, List.mem_append_right _ List.mem_cons_self, rfl⟩, ?_, fun y hy hlt => ?_⟩
      · have hall : ∀ y ∈ pre ++ [(price, stake, status)], decide (y.1 ≤ price) = true := by
          intro y hy
          rcases List.mem_append.mp hy with hy | hy
          · exact decide_eq_true (hcross y hy _ List.mem_cons_self)
          · rw [List.mem_singleton.mp hy]
            exact decide_eq_true (le_refl _)
        have hsub : (pre ++ [(price, stake, status)]).Sublist (pre ++ (price, stake, status) :: rest) := by
          rw [hassoc]
          exact List.sublist_append_left _ _
        have hle : stakeWhere (pre ++ [(price, stake, status)]) (fun _ => true) ≤
            stakeWhere (pre ++ (price, stake, status) :: rest) fun z => decide (z ≤ price) :=
          stakeWhere_le hsub fun y hy _ => hall y hy
        have hself : stakeWhere (pre ++ [(price, stake, status)]) (fun _ => true) =
            satAdd64 cumulative stake := by
          unfold stakeWhere
          rw [List.filter_true, hnext]
        omega
      · -- the cheaper samples are all in `pre`
        have hfilter : (pre ++ (price, stake, status) :: rest).filter (fun z => decide (z.1 ≤ y.1)) =
            pre.filter fun z => decide (z.1 ≤ y.1) := by
          have hnil : ((price, stake, status) :: rest).filter (fun z => decide (z.1 ≤ y.1)) = [] := by
            refine List.filter_eq_nil_iff.mpr fun z hz hle => ?_
            have h1 : price ≤ z.1 := by
              rcases List.mem_cons.mp hz with rfl | hz
              · exact le_refl _
              · exact (List.pairwise_cons.mp hsuf).1 z hz
            have h2 := of_decide_eq_true hle
            omega
          rw [List.filter_append, hnil, List.append_nil]
        rcases hpre with rfl | hcumlt
        · have h1 : price ≤ y.1 := by
            rcases List.mem_cons.mp hy with rfl | hy
            · exact le_refl _
            · exact (List.pairwise_cons.mp hsuf).1 y hy
          omega
        · have hle := stakeWhere_le (List.Sublist.refl pre) (f := fun z => decide (z ≤ y.1)) (g := fun _ => true)
            fun _ _ _ => rfl
          have hwhole : stakeWhere pre (fun _ => true) = cumulative := by
            unfold stakeWhere
            rw [List.filter_true, hcum]
          have hpart : stakeWhere (pre ++ (price, stake, status) :: rest) (fun z => decide (z ≤ y.1)) =
              stakeWhere pre fun z => decide (z ≤ y.1) := by
            unfold stakeWhere
            rw [hfilter]
          omega
    · rw [if_neg hreach]
      rw [hassoc] at h hgoal hne ⊢
      exact ih h hnext (.inr (not_le.mp hreach)) hgoal hne

/-- **The weighted median** of a window is what the loop finds. -/
theorem weightedMedian_spec (h : Sorted l) (ha : Heaviest l a) (m : ℕ) :
    Median l a (weightedMedian (target l a) (l.filter fun x => within a x.1) 0 m) := by
  set span := l.filter fun x => within a x.1 with hspan
  have hself : within a a = true := by
    unfold within
    rw [Bool.and_eq_true, decide_eq_true_eq, decide_eq_true_eq]
    exact ⟨le_refl _, by omega⟩
  have hne : [] ++ span ≠ [] := by
    obtain ⟨x, hx, rfl⟩ := ha.mem
    exact List.ne_nil_of_mem (List.mem_filter.mpr ⟨hx, hself⟩)
  have hgoal : target l a ≤ min (([] ++ span).map fun x : Sample => x.2.1).sum (u64 - 1) := by
    have hw : windowStake l a = min (span.map fun x => x.2.1).sum (u64 - 1) := rfl
    unfold target satAdd64
    rw [List.nil_append, ← hw]
    omega
  have hin : ∀ f : ℕ → Bool, stakeWhere span f = stakeWhere l fun price => within a price && f price := by
    intro f
    unfold stakeWhere
    rw [hspan, List.filter_filter]
    simp only [Bool.and_comm]
  have hsorted : Sorted ([] ++ span) := List.Pairwise.filter _ h
  have hstart : 0 = min (([] : List Sample).map fun x : Sample => x.2.1).sum (u64 - 1) := rfl
  have hstep := @weightedMedian_step [] span hsorted (target l a) 0 m hstart (.inl rfl) hgoal hne
  obtain ⟨hmem, hreached, hleast⟩ := hstep
  rw [List.nil_append] at hmem hreached hleast
  set p := weightedMedian (target l a) span 0 m with hp
  obtain ⟨x, hx, hxp⟩ := hmem
  obtain ⟨hxl, hxw⟩ := List.mem_filter.mp hx
  refine ⟨⟨x, hxl, hxp⟩, by rw [← hxp]; exact hxw, by rw [← hin]; exact hreached, fun y hy hw hlt => ?_⟩
  rw [← hin]
  exact hleast y (List.mem_filter.mpr ⟨hy, hw⟩) hlt

end Loops

/-! ### The attempt as a whole -/

/-- The sample of a reveal: it matches its commit, has stake and a price. -/
def sampleOf (env : TallyEnv) (t : OracleTally) (staking : StakingState) (r : Bytes × Bytes × ℕ) :
    Option Sample :=
  if ¬ Matches env t r ∨ staking.stakeAt r.1 = 0 then none
  else (env.parsePriceUsdMicros r.2.1).map fun price => (price, staking.stakeAt r.1, r.2.2)

section Attempts
variable {env : TallyEnv} {t : OracleTally} {staking : StakingState} {format : UrlResponseFormat} {q : ℕ}

/-- A reveal without a commit ends the attempt, the others give their samples. -/
theorem priceSamples_eq (l : List (Bytes × Bytes × ℕ)) : priceSamples env t staking l =
    if ∀ r ∈ l, t.commits[r.1]? ≠ none then some (l.filterMap (sampleOf env t staking)) else none := by
  induction l with
  | nil => simp [priceSamples]
  | cons r l ih =>
    obtain ⟨pk, body, status⟩ := r
    unfold priceSamples
    cases hc : t.commits[pk]? with
    | none =>
      rw [if_neg fun h => h _ List.mem_cons_self hc]
    | some commitHash =>
      have hall : (∀ r ∈ (pk, body, status) :: l, t.commits[r.1]? ≠ none) ↔ ∀ r ∈ l, t.commits[r.1]? ≠ none := by
        rw [List.forall_mem_cons, and_iff_right]
        rw [hc]
        exact Option.some_ne_none _
      have hmatch : Matches env t (pk, body, status) ↔
          computeCommitHash env pk t.requestId body status = commitHash := by
        unfold Matches
        rw [hc, Option.some.injEq, eq_comm]
      have hsample : sampleOf env t staking (pk, body, status) =
          if computeCommitHash env pk t.requestId body status ≠ commitHash ∨ staking.stakeAt pk = 0 then none
          else (env.parsePriceUsdMicros body).map fun price => (price, staking.stakeAt pk, status) := by
        unfold sampleOf
        simp only [hmatch, ne_eq]
      simp only [hall]
      rw [ih, List.filterMap_cons, hsample]
      by_cases hskip : computeCommitHash env pk t.requestId body status ≠ commitHash ∨ staking.stakeAt pk = 0
      · rw [if_pos hskip, if_pos hskip]
      · rw [if_neg hskip, if_neg hskip]
        by_cases hrest : ∀ r ∈ l, t.commits[r.1]? ≠ none
        · rw [if_pos hrest, if_pos hrest]
          cases env.parsePriceUsdMicros body <;> rfl
        · rw [if_neg hrest, if_neg hrest]
          cases env.parsePriceUsdMicros body <;> rfl

/-- What the attempt returns for the samples `u`, the window at `a` and the median `p`. -/
def priceResult (env : TallyEnv) (staking : StakingState) (q : ℕ) (u : List Sample) (a p : ℕ) :
    Option (Bytes × ℕ × ℕ × ℕ) :=
  if windowStake u a * 100 % u64 / staking.activeTotal < q then none
  else some (env.priceUsdBody p (windowCount u a),
    ((u.find? fun x => decide (x.1 = p)).map fun x => x.2.2).getD 200, windowStake u a, staking.activeTotal)

theorem price_trans (a b c : Sample) (hab : decide (a.1 ≤ b.1) = true) (hbc : decide (b.1 ≤ c.1) = true) :
    decide (a.1 ≤ c.1) = true :=
  decide_eq_true ((of_decide_eq_true hab).trans (of_decide_eq_true hbc))

theorem price_total (a b : Sample) : (decide (a.1 ≤ b.1) || decide (b.1 ≤ a.1)) = true := by
  rw [Bool.or_eq_true, decide_eq_true_eq, decide_eq_true_eq]
  exact le_total _ _

theorem sorted_mergeSort (u : List Sample) : Sorted (u.mergeSort fun a b => decide (a.1 ≤ b.1)) :=
  (List.pairwise_mergeSort price_trans price_total u).imp fun h => of_decide_eq_true h

/-- The sort is stable: the samples of one price keep their order. -/
theorem filter_mergeSort (u : List Sample) (p : ℕ) :
    ((u.mergeSort fun a b => decide (a.1 ≤ b.1)).filter fun x => decide (x.1 = p)) =
      u.filter fun x => decide (x.1 = p) := by
  have hpair : (u.filter fun x => decide (x.1 = p)).Pairwise fun a b => decide (a.1 ≤ b.1) = true := by
    refine List.Pairwise.imp_of_mem (R := fun _ _ => True) (fun {x y} hx hy _ => ?_)
      (List.pairwise_of_forall fun _ _ => trivial)
    have h1 := of_decide_eq_true (List.mem_filter.mp hx).2
    have h2 := of_decide_eq_true (List.mem_filter.mp hy).2
    exact decide_eq_true (by rw [h1, h2])
  have hsub := List.sublist_mergeSort price_trans price_total hpair List.filter_sublist
  have hfilter := hsub.filter fun x => decide (x.1 = p)
  rw [List.filter_filter] at hfilter
  simp only [Bool.and_self] at hfilter
  have hlen := ((List.mergeSort_perm u fun a b => decide (a.1 ≤ b.1)).filter fun x => decide (x.1 = p)).length_eq
  exact (hfilter.eq_of_length hlen.symm).symm

/-- **What an attempt for prices returns**, along any walk. -/
theorem priceIn_eq {reveals : List (Bytes × Bytes × ℕ)} {u : List Sample} (hzero : staking.activeTotal ≠ 0)
    (hu : priceSamples env t staking reveals = some u) :
    (u = [] ∧ priceIn env t staking q reveals = none) ∨
      ∃ a p, Heaviest u a ∧ Median u a p ∧ priceIn env t staking q reveals = priceResult env staking q u a p := by
  set l := u.mergeSort fun a b => decide (a.1 ≤ b.1) with hl
  have hperm : l.Perm u := List.mergeSort_perm u _
  have hsorted : Sorted l := sorted_mergeSort u
  unfold priceIn
  dsimp only
  rw [if_neg hzero, hu]
  dsimp only
  rw [← hl]
  rcases bestWindow_spec hsorted with ⟨hnone, hnil⟩ | ⟨start, a, ha, hbest, htake⟩
  · refine .inl ⟨?_, by rw [hnone]⟩
    rw [hnil] at hperm
    exact hperm.symm.eq_nil
  · refine .inr ⟨a, _, ha.perm hperm, (weightedMedian_spec hsorted ha
      (((l.filter fun x => within a x.1).map Prod.fst).headD 0)).perm hperm, ?_⟩
    set p := weightedMedian (target l a) (l.filter fun x => within a x.1) 0
      (((l.filter fun x => within a x.1).map Prod.fst).headD 0) with hp
    have hmedian : Median l a p := weightedMedian_spec hsorted ha _
    have hstake : windowStake l a = windowStake u a := stakeWhere_perm hperm _
    have hcount : windowCount l a = windowCount u a := (hperm.filter _).length_eq
    -- the first sample at the median is that of the walk
    have hfind : ((l.filter fun x => within a x.1).find? fun x => decide (x.1 = p)) =
        u.find? fun x => decide (x.1 = p) := by
      rw [← List.head?_filter, ← List.head?_filter, ← filter_mergeSort u p, ← hl, List.filter_filter]
      refine congrArg List.head? (List.filter_congr fun x _ => ?_)
      by_cases hx : x.1 = p
      · rw [hx, hmedian.within, Bool.and_true]
      · rw [decide_eq_false hx, Bool.false_and]
    have hgoal : weightedMedian (satAdd64 (windowStake l a) 1 / 2) (l.filter fun x => within a x.1) 0
        (((l.filter fun x => within a x.1).map Prod.fst).headD 0) = p := rfl
    rw [hbest]
    dsimp only
    rw [htake, hgoal, hfind, hstake, hcount]
    rfl

theorem priceSamples_perm (env : TallyEnv) (t : OracleTally) (staking : StakingState)
    {reveals reveals' : List (Bytes × Bytes × ℕ)} (h : reveals.Perm reveals') :
    (priceSamples env t staking reveals = none ∧ priceSamples env t staking reveals' = none) ∨
      ∃ u u', priceSamples env t staking reveals = some u ∧ priceSamples env t staking reveals' = some u' ∧
        u.Perm u' := by
  have hall : (∀ r ∈ reveals, t.commits[r.1]? ≠ none) ↔ ∀ r ∈ reveals', t.commits[r.1]? ≠ none :=
    ⟨fun hr r hm => hr r (h.mem_iff.mpr hm), fun hr r hm => hr r (h.mem_iff.mp hm)⟩
  rw [priceSamples_eq, priceSamples_eq]
  by_cases hc : ∀ r ∈ reveals', t.commits[r.1]? ≠ none
  · rw [if_pos (hall.mpr hc), if_pos hc]
    exact .inr ⟨_, _, rfl, rfl, h.filterMap _⟩
  · rw [if_neg (fun hr => hc (hall.mp hr)), if_neg hc]
    exact .inl ⟨rfl, rfl⟩

theorem exists_walk {u : List Sample} (hu : priceSamples env t staking t.reveals.toList = some u) {x : Sample}
    (hx : x ∈ u) : ∃ reveals rest, reveals.Perm t.reveals.toList ∧
      priceSamples env t staking reveals = some (x :: rest) ∧ (x :: rest).Perm u := by
  have heq := hu
  rw [priceSamples_eq] at heq
  split_ifs at heq with hc
  obtain rfl := Option.some.inj heq
  obtain ⟨r, hr, hrx⟩ := List.mem_filterMap.mp hx
  have hperm : (r :: t.reveals.toList.erase r).Perm t.reveals.toList := (List.perm_cons_erase hr).symm
  rcases priceSamples_perm env t staking hperm with ⟨-, hnone⟩ | ⟨w, w', hw, hw', hww⟩
  · rw [hu] at hnone
    cases hnone
  · rw [hu] at hw'
    obtain rfl := Option.some.inj hw'
    have hcons : w = x :: (t.reveals.toList.erase r).filterMap (sampleOf env t staking) := by
      rw [priceSamples_eq] at hw
      split_ifs at hw
      obtain rfl := Option.some.inj hw
      rw [List.filterMap_cons_some hrx]
    subst hcons
    exact ⟨_, _, hperm, hw, hww⟩

end Attempts

/-! ### Determinism -/

/-- The reveals leave nothing to the order: for the formats but prices, matching reveals whose groups reach
the quorum agree on body and status; for prices, the samples at the median of the heaviest window agree on the
status, if that window reaches the quorum. -/
structure Agreed (env : TallyEnv) (t : OracleTally) (staking : StakingState) (format : UrlResponseFormat)
    (q : ℕ) :
    Prop where
  bodies : format ≠ .priceUsd → ∀ pk body status pk' body' status', t.reveals[pk]? = some (body, status) →
    t.reveals[pk']? = some (body', status') → Matches env t (pk, body, status) →
      Matches env t (pk', body', status') →
    Reaches env t staking q (env.blake3 body) → Reaches env t staking q (env.blake3 body') →
    (body, status) = (body', status')
  prices : format = .priceUsd → ∀ u a p, priceSamples env t staking t.reveals.toList = some u → Heaviest u a →
    q ≤ windowStake u a * 100 % u64 / staking.activeTotal → Median u a p →
    ∀ x ∈ u, ∀ y ∈ u, x.1 = p → y.1 = p → x.2.2 = y.2.2

section Determinism
variable {env : TallyEnv} {t : OracleTally} {staking : StakingState} {format : UrlResponseFormat} {q : ℕ}

theorem attempt_of_zero (hzero : staking.activeTotal = 0) {r : Option (Bytes × ℕ × ℕ × ℕ)}
    (h : Attempt env t staking format q r) : r = none := by
  cases h with
  | price _ _ =>
    unfold priceIn
    exact if_pos hzero
  | body _ _ _ =>
    unfold bodyIn
    exact if_pos hzero

theorem bodies_deterministic (hf : format ≠ .priceUsd) (hzero : staking.activeTotal ≠ 0)
    (h : Agreed env t staking format q) {r r' : Option (Bytes × ℕ × ℕ × ℕ)}
    (hr : Attempt env t staking format q r)
    (hr' : Attempt env t staking format q r') : r = r' := by
  cases r with
  | none =>
    cases r' with
    | none => rfl
    | some b =>
      obtain ⟨body, status, n, d⟩ := b
      obtain ⟨-, -, -, hreach, pk, hrev, hmatch⟩ := attempt_some hf hr'
      exact absurd hreach (attempt_none hf hzero hr hrev hmatch)
  | some b =>
    obtain ⟨body, status, n, d⟩ := b
    obtain ⟨-, rfl, rfl, hreach, pk, hrev, hmatch⟩ := attempt_some hf hr
    cases r' with
    | none => exact absurd hreach (attempt_none hf hzero hr' hrev hmatch)
    | some b' =>
      obtain ⟨body', status', n', d'⟩ := b'
      obtain ⟨-, rfl, rfl, hreach', pk', hrev', hmatch'⟩ := attempt_some hf hr'
      have heq := h.bodies hf pk body status pk' body' status' hrev hrev' hmatch hmatch' hreach hreach'
      obtain ⟨rfl, rfl⟩ := Prod.mk.injEq .. ▸ heq
      rfl

/-- Two walks of the samples `u` give one result if the samples at the median agree. -/
theorem priceResult_perm {u u' : List Sample} {a p : ℕ} (hperm : u'.Perm u) (hp : Median u a p)
    (hagree : q ≤ windowStake u a * 100 % u64 / staking.activeTotal →
      ∀ x ∈ u, ∀ y ∈ u, x.1 = p → y.1 = p → x.2.2 = y.2.2) :
    priceResult env staking q u' a p = priceResult env staking q u a p := by
  have hstake : windowStake u' a = windowStake u a := stakeWhere_perm hperm _
  have hcount : windowCount u' a = windowCount u a := (hperm.filter _).length_eq
  unfold priceResult
  rw [hstake, hcount]
  by_cases hq : windowStake u a * 100 % u64 / staking.activeTotal < q
  · rw [if_pos hq, if_pos hq]
  · rw [if_neg hq, if_neg hq]
    have hsome : ∀ w : List Sample, w.Perm u → ∃ x ∈ u, x.1 = p ∧
        w.find? (fun x => decide (x.1 = p)) = some x := by
      intro w hw
      obtain ⟨x, hx, hxp⟩ := hp.mem
      have his : (w.find? fun x => decide (x.1 = p)).isSome = true := by
        rw [List.find?_isSome]
        exact ⟨x, hw.mem_iff.mpr hx, decide_eq_true hxp⟩
      obtain ⟨y, hy⟩ := Option.isSome_iff_exists.mp his
      have hyp : y.1 = p := by
        have := List.find?_some hy
        exact of_decide_eq_true this
      exact ⟨y, hw.mem_iff.mp (List.mem_of_find?_eq_some hy), hyp, hy⟩
    obtain ⟨x, hx, hxp, hfx⟩ := hsome u' hperm
    obtain ⟨y, hy, hyp, hfy⟩ := hsome u (List.Perm.refl u)
    rw [hfx, hfy]
    simp only [Option.map_some, Option.getD_some]
    rw [hagree (not_lt.mp hq) x hx y hy hxp hyp]

theorem prices_deterministic (hf : format = .priceUsd) (hzero : staking.activeTotal ≠ 0)
    (h : Agreed env t staking format q) {r : Option (Bytes × ℕ × ℕ × ℕ)} (hr : Attempt env t staking format q r) :
    r = priceIn env t staking q t.reveals.toList := by
  cases hr with
  | body hf' _ _ => exact absurd hf hf'
  | @price reveals _ hperm =>
    rcases priceSamples_perm env t staking hperm with ⟨hn, hn'⟩ | ⟨u, u', hu, hu', hw⟩
    · unfold priceIn
      rw [hn, hn']
    · rcases priceIn_eq (q := q) hzero hu' with ⟨rfl, hnone⟩ | ⟨a, p, ha, hp, hres⟩
      · rcases priceIn_eq (q := q) hzero hu with ⟨-, hnone'⟩ | ⟨a, -, ha, -, -⟩
        · rw [hnone, hnone']
        · obtain ⟨x, hx, -⟩ := ha.mem
          rw [hw.eq_nil] at hx
          cases hx
      · rcases priceIn_eq (q := q) hzero hu with ⟨rfl, -⟩ | ⟨a', p', ha', hp', hres'⟩
        · obtain ⟨x, hx, -⟩ := ha.mem
          rw [hw.symm.eq_nil] at hx
          cases hx
        · obtain rfl := (ha'.perm hw).unique ha
          obtain rfl := (hp'.perm hw).unique hp
          rw [hres, hres']
          exact priceResult_perm hw hp fun hq => h.prices hf u' a' p' hu' ha hq hp

end Determinism

/-- **When the result does not depend on the walk**: if there is no active stake, or the reveals agree where
it matters. -/
theorem deterministic_iff (env : TallyEnv) (t : OracleTally) (staking : StakingState) (format : UrlResponseFormat)
    (q : ℕ) :
    (∀ r r', Attempt env t staking format q r → Attempt env t staking format q r' → r = r') ↔
      (staking.activeTotal ≠ 0 → Agreed env t staking format q) := by
  constructor
  · intro h hzero
    refine ⟨?_, ?_⟩
    · intro hf pk body status pk' body' status' hrev hrev' hmatch hmatch' hreach hreach'
      have heq := h _ _ (attempt_of_reveal hf hzero hrev hmatch hreach)
        (attempt_of_reveal hf hzero hrev' hmatch' hreach')
      simp only [Option.some.injEq, Prod.mk.injEq] at heq
      rw [heq.1, heq.2.1]
    · intro hf u a p hu ha hq hp x hx y hy hxp hyp
      -- the walk that starts with a sample at the median returns its status
      have hfirst : ∀ z ∈ u, z.1 = p → Attempt env t staking format q
          (some (env.priceUsdBody p (windowCount u a), z.2.2, windowStake u a, staking.activeTotal)) := by
        intro z hz hzp
        obtain ⟨reveals, rest, hperm, hsamples, hw⟩ := exists_walk hu hz
        have hin : Attempt env t staking format q (priceIn env t staking q reveals) := .price hf hperm
        rcases priceIn_eq (q := q) hzero hsamples with ⟨hnil, -⟩ | ⟨a', p', ha', hp', hres⟩
        · cases hnil
        · obtain rfl := (ha'.perm hw).unique ha
          obtain rfl := (hp'.perm hw).unique hp
          have hstake : windowStake (z :: rest) a' = windowStake u a' := stakeWhere_perm hw _
          have hcount : windowCount (z :: rest) a' = windowCount u a' := (hw.filter _).length_eq
          have hfind : (z :: rest).find? (fun x => decide (x.1 = p')) = some z :=
            List.find?_cons_of_pos (decide_eq_true hzp)
          unfold priceResult at hres
          rw [hstake, hcount, hfind, if_neg (not_lt.mpr hq)] at hres
          rw [hres] at hin
          exact hin
      have heq := h _ _ (hfirst x hx hxp) (hfirst y hy hyp)
      simp only [Option.some.injEq, Prod.mk.injEq] at heq
      exact heq.2.1
  · intro h r r' hr hr'
    by_cases hzero : staking.activeTotal = 0
    · rw [attempt_of_zero hzero hr, attempt_of_zero hzero hr']
    · by_cases hf : format = .priceUsd
      · rw [prices_deterministic hf hzero (h hzero) hr, prices_deterministic hf hzero (h hzero) hr']
      · exact bodies_deterministic hf hzero (h hzero) hr hr'

/-- One body with two statuses is finalized with either. -/
theorem result_depends_on_walk :
    ¬ ∀ r r', Attempt sampleTallyEnv twoStatuses twoEqual .raw 67 r →
      Attempt sampleTallyEnv twoStatuses twoEqual .raw 67 r' → r = r' := by
  intro h
  have hreach : Reaches sampleTallyEnv twoStatuses twoEqual 67 (sampleTallyEnv.blake3 "{}".toUTF8.toList) := by
    unfold Reaches
    decide +kernel
  have hzero : twoEqual.activeTotal ≠ 0 := by decide +kernel
  have hraw : UrlResponseFormat.raw ≠ .priceUsd := by decide
  have hfirst : twoStatuses.reveals[([1] : Bytes)]? = some ("{}".toUTF8.toList, 200) := by decide +kernel
  have hsecond : twoStatuses.reveals[([2] : Bytes)]? = some ("{}".toUTF8.toList, 503) := by decide +kernel
  have hone := attempt_of_reveal hraw hzero hfirst (by decide +kernel) hreach
  have htwo := attempt_of_reveal hraw hzero hsecond (by decide +kernel) hreach
  have heq := h _ _ hone htwo
  simp only [Option.some.injEq, Prod.mk.injEq] at heq
  exact absurd heq.2.1 (by decide)

end TruthLinked.Oracle.Prices
