import TruthLinked.Compiler.OwnershipCheck

/-! # The rules behind the ownership checker

What the checker accepts, said of the text alone: `Balanced` is about its branches and loops, `namedBlock`
lists the owned parameters that it names, `peakBlock` bounds its counts. Where they cannot wrap, a body is
accepted if it is balanced and names every owned parameter once (`checkOwnership_eq_ok`). -/

namespace TruthLinked.Compiler.OwnershipRules

open Compiler.Ast Compiler.OwnershipCheck Lib.Except Lib.Table

variable {p x : String} {ss : List Stmt}

/-- The owned parameters that an expression names where the checker looks. -/
def names (owned : List String) (a : Aliases) (expr : Expr) : List String :=
  (followed expr).filterMap (believed owned a)

mutual

/-- The owned parameters that a statement names outside its loops, in the first branch of every `if`. -/
def namedStmt (owned : List String) : Stmt → Aliases → List String
  | .ifElse cond thenBody _, a => names owned a cond ++ namedBlock owned thenBody a
  | .while cond _, a => names owned a cond
  | .loop _, _ => []
  | .forRange _ start stop _, a => names owned a start ++ names owned a stop
  | s, a => (followedStmt s).filterMap (believed owned (aliasAfter owned a s))

def namedBlock (owned : List String) : List Stmt → Aliases → List String
  | [], _ => []
  | s :: ss, a => namedStmt owned s a ++ namedBlock owned ss (aliasAfter owned a s)

end

mutual

/-- No `if` comes after the name of an owned parameter, its branches name every owned parameter equally often,
and nothing inside a loop names one. -/
def Balanced (owned : List String) (inLoop : Bool) : Stmt → List String → Aliases → Prop
  | .ifElse cond thenBody elseBody, before, a =>
    before ++ names owned a cond = [] ∧ BalancedBlock owned inLoop thenBody [] a ∧
      BalancedBlock owned inLoop elseBody [] a ∧
      ∀ p, (namedBlock owned thenBody a).count p = (namedBlock owned elseBody a).count p
  | .while cond body, before, a =>
    (inLoop = true → names owned a cond = []) ∧ BalancedBlock owned true body (before ++ names owned a cond) a
  | .loop body, before, a => BalancedBlock owned true body before a
  | .forRange _ start stop body, before, a =>
    (inLoop = true → names owned a start ++ names owned a stop = []) ∧
      BalancedBlock owned true body (before ++ (names owned a start ++ names owned a stop)) a
  | s, _, a => inLoop = true → namedStmt owned s a = []

def BalancedBlock (owned : List String) (inLoop : Bool) : List Stmt → List String → Aliases → Prop
  | [], _, _ => True
  | s :: ss, before, a =>
    Balanced owned inLoop s before a ∧
      BalancedBlock owned inLoop ss (before ++ namedStmt owned s a) (aliasAfter owned a s)

end

mutual

/-- A bound on the counts in a statement, taken without wrap-around, where they start at most at `n`. A branch
point adds the counts of its branches to the ones before it, or 2 where they differ. -/
def peakStmt (owned : List String) : Stmt → Aliases → ℕ → ℕ
  | .ifElse cond thenBody elseBody, a, n =>
    let m := n + (names owned a cond).length
    let k := max (peakBlock owned thenBody a m) (peakBlock owned elseBody a m)
    m + if k = 0 then 0 else max 2 k
  | .while cond body, a, n => peakBlock owned body a (n + (names owned a cond).length)
  | .loop body, a, n => peakBlock owned body a n
  | .forRange _ start stop body, a, n =>
    peakBlock owned body a (n + (names owned a start ++ names owned a stop).length)
  | s, a, n => n + (namedStmt owned s a).length

def peakBlock (owned : List String) : List Stmt → Aliases → ℕ → ℕ
  | [], _, n => n
  | s :: ss, a, n => peakBlock owned ss (aliasAfter owned a s) (peakStmt owned s a n)

end

section Rules
variable {owned : List String} {inLoop : Bool} {a a' : Aliases} {s : Stmt} {before : List String}
variable {c c' c'' : Counts} {ps qs : List String}

theorem namedStmt_simple (hs : simple s = true) (a : Aliases) :
    namedStmt owned s a = (followedStmt s).filterMap (believed owned (aliasAfter owned a s)) := by
  cases s <;> first | rfl | cases hs

theorem balanced_simple (hs : simple s = true) :
    Balanced owned inLoop s before a ↔ (inLoop = true → namedStmt owned s a = []) := by
  cases s <;> first | rfl | cases hs

mutual

/-- **Inside a loop** a balanced statement names no owned parameter. -/
theorem named_of_inLoop : (s : Stmt) → ∀ {before : List String} {a : Aliases}, Balanced owned true s before a →
    namedStmt owned s a = []
  | .ifElse cond thenBody elseBody, before, a, h => by
    rw [OwnershipRules.Balanced] at h
    obtain ⟨hcond, hthen, -, -⟩ := h
    rw [namedStmt, (List.append_eq_nil_iff.mp hcond).2, namedBlock_of_inLoop thenBody hthen, List.nil_append]
  | .while cond body, before, a, h => by
    rw [OwnershipRules.Balanced] at h
    exact h.1 rfl
  | .loop body, before, a, h => rfl
  | .forRange var start stop body, before, a, h => by
    rw [OwnershipRules.Balanced] at h
    exact h.1 rfl
  | .letIn _ _ _, _, _, h | .assign _ _, _, _, h | .assignAdd _ _, _, _, h | .assignSub _ _, _, _, h
  | .assignMul _ _, _, _, h | .assignDiv _ _, _, _, h | .ret _, _, _, h | .emit _ _, _, _, h | .require _, _, _, h
  | .expr _, _, _, h | .revert _, _, _, h | .break, _, _, h | .continue, _, _, h =>
    (balanced_simple rfl).mp h rfl

theorem namedBlock_of_inLoop : (ss : List Stmt) → ∀ {before : List String} {a : Aliases},
    BalancedBlock owned true ss before a → namedBlock owned ss a = []
  | [], _, _, _ => rfl
  | s :: ss, before, a, h => by
    rw [BalancedBlock] at h
    rw [namedBlock, named_of_inLoop s h.1, namedBlock_of_inLoop ss h.2, List.nil_append]

end

theorem believed_mem (h : believed owned a x = some p) : p ∈ owned := by
  unfold believed at h
  split_ifs at h with hx
  · cases h
    exact hx
  · exact of_decide_eq_true (Option.filter_eq_some_iff.mp h).2

theorem filterMap_believed_subset {xs : List String} (h : p ∈ xs.filterMap (believed owned a)) :
    p ∈ owned := by
  obtain ⟨x, -, hx⟩ := List.mem_filterMap.mp h
  exact believed_mem hx

mutual

theorem mem_owned_of_namedStmt : (s : Stmt) → ∀ {a : Aliases}, p ∈ namedStmt owned s a → p ∈ owned
  | .ifElse cond thenBody elseBody, a, h => by
    rw [namedStmt, List.mem_append] at h
    exact h.elim filterMap_believed_subset mem_owned_of_named
  | .while cond body, a, h => filterMap_believed_subset h
  | .loop body, a, h => nomatch h
  | .forRange var start stop body, a, h => by
    rw [namedStmt, List.mem_append] at h
    exact h.elim filterMap_believed_subset filterMap_believed_subset
  | .letIn _ _ _, _, h | .assign _ _, _, h | .assignAdd _ _, _, h | .assignSub _ _, _, h | .assignMul _ _, _, h
  | .assignDiv _ _, _, h | .ret _, _, h | .emit _ _, _, h | .require _, _, h | .expr _, _, h | .revert _, _, h
  | .break, _, h | .continue, _, h => by
    rw [namedStmt_simple rfl] at h
    exact filterMap_believed_subset h

theorem mem_owned_of_named : {ss : List Stmt} → ∀ {a : Aliases}, p ∈ namedBlock owned ss a → p ∈ owned
  | [], _, h => nomatch h
  | s :: ss, a, h => by
    rw [namedBlock, List.mem_append] at h
    exact h.elim (mem_owned_of_namedStmt s) mem_owned_of_named

end

/-! ## The counts along a body -/

/-- The counts are those of the parameters that were named. -/
structure Tallied (owned : List String) (c : Counts) (before : List String) : Prop where
  keys : Keys owned c
  counts : ∀ p, countOf c p = before.count p

/-- No count is above `n`. -/
def UpTo (c : Counts) (n : ℕ) : Prop := ∀ p, countOf c p ≤ n

theorem UpTo.lt {n : ℕ} (h : UpTo c n) (hroom : n + ps.length < 2 ^ 64) (p : String) :
    countOf c p + ps.count p < 2 ^ 64 :=
  Nat.lt_of_le_of_lt (Nat.add_le_add (h p) List.count_le_length) hroom

/-- Counting some names raises the bound by their number. -/
theorem UpTo.counted {n : ℕ} (h : UpTo c n) (hc : Counted owned inLoop c c' ps) (hroom : n + ps.length < 2 ^ 64) :
    UpTo c' (n + ps.length) := by
  intro p
  rw [hc.counts p (h.lt hroom p)]
  exact Nat.add_le_add (h p) List.count_le_length

theorem Tallied.add (h : Tallied owned c before) (hc : Counted owned inLoop c c' ps)
    (hlt : ∀ p, countOf c p + ps.count p < 2 ^ 64) : Tallied owned c' (before ++ ps) := by
  refine ⟨hc.keys, fun p => ?_⟩
  rw [hc.counts p (hlt p), h.counts, List.count_append]

theorem Tallied.outside (h : Tallied owned c before) (hp : p ∉ owned) : countOf c p = 0 :=
  countOf_of_notMem (mt (h.keys p).mp hp)

theorem countOf_mono_of_counted (h : Counted owned inLoop c c' ps) (hlt : ∀ p, countOf c p + ps.count p < 2 ^ 64)
    (p : String) : countOf c p ≤ countOf c' p := by
  rw [h.counts p (hlt p)]
  exact Nat.le_add_right _ _

theorem counted_named (hs : simple s = true) (hkeys : Keys owned c) (h : countStmt inLoop s c a = .ok (c', a')) :
    a' = aliasAfter owned a s ∧ Counted owned inLoop c c' (namedStmt owned s a) := by
  obtain ⟨rfl, hcounted⟩ := counted_simple hs hkeys h
  rw [namedStmt_simple hs]
  exact ⟨rfl, hcounted⟩

theorem peakStmt_simple (hs : simple s = true) (a : Aliases) (n : ℕ) :
    peakStmt owned s a n = n + (namedStmt owned s a).length := by
  cases s <;> first | rfl | cases hs

mutual

theorem le_peakStmt : (s : Stmt) → ∀ (a : Aliases) (n : ℕ), n ≤ peakStmt owned s a n
  | .ifElse cond thenBody elseBody, a, n => by
    rw [peakStmt]
    exact Nat.le_add_right_of_le (Nat.le_add_right _ _)
  | .while cond body, a, n => (Nat.le_add_right _ _).trans (le_peakBlock body a _)
  | .loop body, a, n => le_peakBlock body a n
  | .forRange var start stop body, a, n => (Nat.le_add_right _ _).trans (le_peakBlock body a _)
  | .letIn _ _ _, a, n | .assign _ _, a, n | .assignAdd _ _, a, n | .assignSub _ _, a, n | .assignMul _ _, a, n
  | .assignDiv _ _, a, n | .ret _, a, n | .emit _ _, a, n | .require _, a, n | .expr _, a, n | .revert _, a, n
  | .break, a, n | .continue, a, n => by
    rw [peakStmt_simple rfl]
    exact Nat.le_add_right _ _

theorem le_peakBlock : (ss : List Stmt) → ∀ (a : Aliases) (n : ℕ), n ≤ peakBlock owned ss a n
  | [], _, _ => Nat.le_refl _
  | s :: ss, a, n => (le_peakStmt s a n).trans (le_peakBlock ss _ _)

end

/-- What the peak of an `if` leaves room for: its condition, its branches and their joining. -/
theorem peak_ifElse {cond : Expr} {thenBody elseBody : List Stmt} {n m : ℕ}
    (hpeak : peakStmt owned (.ifElse cond thenBody elseBody) a n < 2 ^ 64)
    (hm : m = n + (names owned a cond).length) :
    m < 2 ^ 64 ∧ peakBlock owned thenBody a m < 2 ^ 64 ∧ peakBlock owned elseBody a m < 2 ^ 64 := by
  subst hm
  rw [peakStmt] at hpeak
  split_ifs at hpeak <;> omega

/-- **The joined count** of two branches is within the peak of the `if`. -/
theorem add_joined_le {cond : Expr} {thenBody elseBody : List Stmt} {n m : ℕ} {tc ec : Counts}
    (hm : m = n + (names owned a cond).length) (hc : UpTo c m) (ht : UpTo tc (peakBlock owned thenBody a m))
    (he : UpTo ec (peakBlock owned elseBody a m)) (p : String) :
    countOf c p + joined tc ec p ≤ peakStmt owned (.ifElse cond thenBody elseBody) a n := by
  subst hm
  have hcp := hc p
  have htp := ht p
  have hep := he p
  rw [peakStmt]
  unfold joined
  split_ifs <;> omega

mutual

/-- **The aliases** after a statement are those of the text; the counts are kept for the same parameters and,
below `2 ^ 64`, never fall. -/
theorem grows_stmt : (s : Stmt) → ∀ {inLoop : Bool} {c c' : Counts} {a a' : Aliases}, Keys owned c →
    countStmt inLoop s c a = .ok (c', a') →
    a' = aliasAfter owned a s ∧ Keys owned c' ∧ ∀ n, UpTo c n → peakStmt owned s a n < 2 ^ 64 →
      UpTo c' (peakStmt owned s a n) ∧ ∀ p, countOf c p ≤ countOf c' p
  | .ifElse cond thenBody elseBody, inLoop, c, c', a, a', hkeys, h => by
    rw [countStmt] at h
    obtain ⟨c₁, hcond, h⟩ := bind_eq_ok.mp h
    obtain ⟨⟨tc, ta⟩, hthen, h⟩ := bind_eq_ok.mp h
    obtain ⟨⟨ec, ea⟩, helse, heq⟩ := bind_eq_ok.mp h
    obtain ⟨rfl, rfl⟩ := Prod.mk.inj (pure_eq_ok.mp heq)
    have hfirst : Counted owned inLoop c c₁ (names owned a cond) := counted_expr cond hkeys hcond
    obtain ⟨hm, hcounts⟩ := countOf_mergeBranches hfirst.keys tc ec
    refine ⟨rfl, hm, fun n hn hpeak => ?_⟩
    obtain ⟨hroom, hthenPeak, helsePeak⟩ := peak_ifElse hpeak rfl
    have hmid := hn.counted hfirst hroom
    have hjoin := add_joined_le rfl hmid ((grows_block thenBody hfirst.keys hthen).2 _ hmid hthenPeak).1
      ((grows_block elseBody hfirst.keys helse).2 _ hmid helsePeak).1
    have hmerged : ∀ p, countOf c₁ p ≤ countOf (mergeBranches c₁ tc ec) p ∧
        countOf (mergeBranches c₁ tc ec) p ≤ peakStmt owned (.ifElse cond thenBody elseBody) a n := by
      intro p
      by_cases hp : p ∈ owned
      · rw [hcounts p hp ((hjoin p).trans_lt hpeak)]
        exact ⟨Nat.le_add_right _ _, hjoin p⟩
      · rw [countOf_of_notMem (mt (hm p).mp hp), countOf_of_notMem (mt (hfirst.keys p).mp hp)]
        exact ⟨Nat.le_refl _, Nat.zero_le _⟩
    exact ⟨fun p => (hmerged p).2,
      fun p => (countOf_mono_of_counted hfirst (hn.lt hroom) p).trans (hmerged p).1⟩
  | .while cond body, inLoop, c, c', a, a', hkeys, h => by
    rw [countStmt] at h
    obtain ⟨c₁, hcond, h⟩ := bind_eq_ok.mp h
    obtain ⟨⟨lc, la⟩, hbody, h⟩ := bind_eq_ok.mp h
    obtain ⟨-, hcheck, heq⟩ := bind_eq_ok.mp h
    obtain ⟨rfl, rfl⟩ := Prod.mk.inj (pure_eq_ok.mp heq)
    have hfirst : Counted owned inLoop c c₁ (names owned a cond) := counted_expr cond hkeys hcond
    refine ⟨rfl, hfirst.keys, fun n hn hpeak => ?_⟩
    have hle : n + (names owned a cond).length ≤ peakBlock owned body a (n + (names owned a cond).length) :=
      le_peakBlock body a _
    have hroom := Nat.lt_of_le_of_lt hle hpeak
    exact ⟨fun p => (hn.counted hfirst hroom p).trans hle, countOf_mono_of_counted hfirst (hn.lt hroom)⟩
  | .loop body, inLoop, c, c', a, a', hkeys, h => by
    rw [countStmt] at h
    obtain ⟨⟨lc, la⟩, hbody, h⟩ := bind_eq_ok.mp h
    obtain ⟨-, hcheck, heq⟩ := bind_eq_ok.mp h
    obtain ⟨rfl, rfl⟩ := Prod.mk.inj (pure_eq_ok.mp heq)
    exact ⟨rfl, hkeys, fun n hn _ => ⟨fun p => (hn p).trans (le_peakBlock body a n), fun _ => Nat.le_refl _⟩⟩
  | .forRange var start stop body, inLoop, c, c', a, a', hkeys, h => by
    rw [countStmt] at h
    obtain ⟨c₁, hstart, h⟩ := bind_eq_ok.mp h
    obtain ⟨c₂, hstop, h⟩ := bind_eq_ok.mp h
    obtain ⟨⟨lc, la⟩, hbody, h⟩ := bind_eq_ok.mp h
    obtain ⟨-, hcheck, heq⟩ := bind_eq_ok.mp h
    obtain ⟨rfl, rfl⟩ := Prod.mk.inj (pure_eq_ok.mp heq)
    have hfirst : Counted owned inLoop c c₁ (names owned a start) := counted_expr start hkeys hstart
    have hsecond := hfirst.trans (counted_expr stop hfirst.keys hstop)
    refine ⟨rfl, hsecond.keys, fun n hn hpeak => ?_⟩
    have hle : n + (names owned a start ++ names owned a stop).length ≤
        peakBlock owned body a (n + (names owned a start ++ names owned a stop).length) := le_peakBlock body a _
    have hroom := Nat.lt_of_le_of_lt hle hpeak
    exact ⟨fun p => (hn.counted hsecond hroom p).trans hle, countOf_mono_of_counted hsecond (hn.lt hroom)⟩
  | .letIn _ _ _, _, _, _, _, _, hkeys, h | .assign _ _, _, _, _, _, _, hkeys, h
  | .assignAdd _ _, _, _, _, _, _, hkeys, h | .assignSub _ _, _, _, _, _, _, hkeys, h
  | .assignMul _ _, _, _, _, _, _, hkeys, h | .assignDiv _ _, _, _, _, _, _, hkeys, h
  | .ret _, _, _, _, _, _, hkeys, h | .emit _ _, _, _, _, _, _, hkeys, h | .require _, _, _, _, _, _, hkeys, h
  | .expr _, _, _, _, _, _, hkeys, h | .revert _, _, _, _, _, _, hkeys, h | .break, _, _, _, _, _, hkeys, h
  | .continue, _, _, _, _, _, hkeys, h => by
    obtain ⟨rfl, hcounted⟩ := counted_named rfl hkeys h
    refine ⟨rfl, hcounted.keys, fun n hn hroom => ?_⟩
    rw [peakStmt_simple rfl] at hroom ⊢
    exact ⟨hn.counted hcounted hroom, countOf_mono_of_counted hcounted (hn.lt hroom)⟩

theorem grows_block : (ss : List Stmt) → ∀ {inLoop : Bool} {c c' : Counts} {a a' : Aliases}, Keys owned c →
    countConsumptions inLoop ss c a = .ok (c', a') →
    Keys owned c' ∧ ∀ n, UpTo c n → peakBlock owned ss a n < 2 ^ 64 →
      UpTo c' (peakBlock owned ss a n) ∧ ∀ p, countOf c p ≤ countOf c' p
  | [], _, _, _, _, _, hkeys, h => by
    obtain ⟨rfl, rfl⟩ := Prod.mk.inj (pure_eq_ok.mp h)
    exact ⟨hkeys, fun n hn _ => ⟨hn, fun _ => Nat.le_refl _⟩⟩
  | s :: ss, inLoop, c, c', a, a', hkeys, h => by
    rw [countConsumptions] at h
    obtain ⟨⟨c₁, a₁⟩, hs, h⟩ := bind_eq_ok.mp h
    obtain ⟨rfl, hmid, hfirst⟩ := grows_stmt s hkeys hs
    obtain ⟨hend, hrest⟩ := grows_block ss hmid h
    refine ⟨hend, fun n hn hpeak => ?_⟩
    obtain ⟨hup, hle⟩ := hfirst n hn ((le_peakBlock ss _ _).trans_lt hpeak)
    obtain ⟨hup', hle'⟩ := hrest _ hup hpeak
    exact ⟨hup', fun p => (hle p).trans (hle' p)⟩

end

/-- A branch point that leaves every count at 1 or less: nothing was counted before it, and its branches
agree. -/
theorem joined_le_one {tc ec : Counts} (hle : countOf c p + joined tc ec p ≤ 1)
    (hmono : countOf c p ≤ countOf tc p) :
    countOf c p = 0 ∧ countOf tc p = countOf ec p ∧ joined tc ec p = countOf tc p := by
  unfold joined at hle ⊢
  by_cases heq : countOf tc p = countOf ec p
  · rw [if_neg (by simpa using heq)] at hle ⊢
    exact ⟨by omega, heq, rfl⟩
  · rw [if_pos heq] at hle
    omega

theorem eq_nil_of_counts (h : Tallied owned c before) (hzero : ∀ p ∈ owned, countOf c p = 0) : before = [] := by
  refine List.eq_nil_iff_forall_not_mem.mpr fun p hp => ?_
  have hcount : before.count p = 0 := by
    rw [← h.counts p]
    by_cases hmem : p ∈ owned
    · exact hzero p hmem
    · exact h.outside hmem
  exact List.count_eq_zero.mp hcount hp

theorem loop_le_one {what : String} {lc : Counts} {la : Aliases} (ht : Tallied owned c before)
    (hbody : countConsumptions true ss c a = .ok (lc, la)) (hcheck : checkLoop what c lc = .ok ())
    (hle : UpTo c 1) : UpTo lc 1 := by
  intro p
  by_cases hp : p ∈ owned
  · exact (checkLoop_eq_ok.mp hcheck p ((ht.keys p).mpr hp)).trans (hle p)
  · rw [countOf_of_notMem (mt ((grows_block ss ht.keys hbody).1 p).mp hp)]
    exact Nat.zero_le _

mutual

/-- **What is counted** up to 1, without wrap-around, is balanced, and is counted for what it names. -/
theorem balanced_of_ok : (s : Stmt) → ∀ {inLoop : Bool} {before : List String} {c c' : Counts} {a a' : Aliases}
    {n : ℕ}, Tallied owned c before → UpTo c n → peakStmt owned s a n < 2 ^ 64 →
    countStmt inLoop s c a = .ok (c', a') → UpTo c' 1 →
    Balanced owned inLoop s before a ∧ Tallied owned c' (before ++ namedStmt owned s a)
  | .ifElse cond thenBody elseBody, inLoop, before, c, c', a, a', n, ht, hn, hpeak, h, hle => by
    rw [countStmt] at h
    obtain ⟨c₁, hcond, h⟩ := bind_eq_ok.mp h
    obtain ⟨⟨tc, ta⟩, hthen, h⟩ := bind_eq_ok.mp h
    obtain ⟨⟨ec, ea⟩, helse, heq⟩ := bind_eq_ok.mp h
    obtain ⟨rfl, rfl⟩ := Prod.mk.inj (pure_eq_ok.mp heq)
    have hcounted : Counted owned inLoop c c₁ (names owned a cond) := counted_expr cond ht.keys hcond
    obtain ⟨hroom, hthenPeak, helsePeak⟩ := peak_ifElse hpeak rfl
    have hmid := hn.counted hcounted hroom
    have hfirst := ht.add hcounted (hn.lt hroom)
    obtain ⟨htkeys, htgrows⟩ := grows_block thenBody hfirst.keys hthen
    obtain ⟨hekeys, hegrows⟩ := grows_block elseBody hfirst.keys helse
    obtain ⟨htup, htmono⟩ := htgrows _ hmid hthenPeak
    obtain ⟨heup, -⟩ := hegrows _ hmid helsePeak
    obtain ⟨hm, hmerged⟩ := countOf_mergeBranches hfirst.keys tc ec
    have hcounts : ∀ p ∈ owned, countOf (mergeBranches c₁ tc ec) p = countOf c₁ p + joined tc ec p :=
      fun p hp => hmerged p hp ((add_joined_le rfl hmid htup heup p).trans_lt hpeak)
    have hjoin : ∀ p ∈ owned, countOf c₁ p = 0 ∧ countOf tc p = countOf ec p ∧ joined tc ec p = countOf tc p :=
      fun p hp => joined_le_one (by rw [← hcounts p hp]; exact hle p) (htmono p)
    have hbefore := eq_nil_of_counts hfirst fun p hp => (hjoin p hp).1
    rw [hbefore] at hfirst
    have htle : UpTo tc 1 := by
      intro p
      by_cases hp : p ∈ owned
      · have hend := hle p
        rw [hcounts p hp, (hjoin p hp).1, (hjoin p hp).2.2, Nat.zero_add] at hend
        exact hend
      · rw [countOf_of_notMem (mt (htkeys p).mp hp)]
        exact Nat.zero_le _
    have hsame : ∀ p, countOf tc p = countOf ec p := by
      intro p
      by_cases hp : p ∈ owned
      · exact (hjoin p hp).2.1
      · rw [countOf_of_notMem (mt (htkeys p).mp hp), countOf_of_notMem (mt (hekeys p).mp hp)]
    obtain ⟨hthenBal, hthenTal⟩ := balancedBlock_of_ok thenBody hfirst hmid hthenPeak hthen htle
    obtain ⟨helseBal, helseTal⟩ := balancedBlock_of_ok elseBody hfirst hmid helsePeak helse
      fun p => (hsame p).symm ▸ htle p
    rw [List.nil_append] at hthenTal helseTal
    refine ⟨?_, hm, fun p => ?_⟩
    · rw [OwnershipRules.Balanced]
      exact ⟨hbefore, hthenBal, helseBal, fun p => by rw [← hthenTal.counts, ← helseTal.counts, hsame p]⟩
    · rw [namedStmt, ← List.append_assoc, hbefore, List.nil_append, ← hthenTal.counts]
      by_cases hp : p ∈ owned
      · rw [hcounts p hp, (hjoin p hp).1, (hjoin p hp).2.2, Nat.zero_add]
      · rw [countOf_of_notMem (mt (hm p).mp hp), countOf_of_notMem (mt (htkeys p).mp hp)]
  | .while cond body, inLoop, before, c, c', a, a', n, ht, hn, hpeak, h, hle => by
    rw [countStmt] at h
    obtain ⟨c₁, hcond, h⟩ := bind_eq_ok.mp h
    obtain ⟨⟨lc, la⟩, hbody, h⟩ := bind_eq_ok.mp h
    obtain ⟨_, hcheck, heq⟩ := bind_eq_ok.mp h
    obtain ⟨rfl, rfl⟩ := Prod.mk.inj (pure_eq_ok.mp heq)
    have hcounted : Counted owned inLoop c c₁ (names owned a cond) := counted_expr cond ht.keys hcond
    have hroom := (le_peakBlock body a _).trans_lt hpeak
    have hfirst := ht.add hcounted (hn.lt hroom)
    obtain ⟨hbodyBal, -⟩ := balancedBlock_of_ok body hfirst (hn.counted hcounted hroom) hpeak hbody
      (loop_le_one hfirst hbody hcheck hle)
    refine ⟨?_, hfirst⟩
    rw [OwnershipRules.Balanced]
    exact ⟨hcounted.outside, hbodyBal⟩
  | .loop body, inLoop, before, c, c', a, a', n, ht, hn, hpeak, h, hle => by
    rw [countStmt] at h
    obtain ⟨⟨lc, la⟩, hbody, h⟩ := bind_eq_ok.mp h
    obtain ⟨_, hcheck, heq⟩ := bind_eq_ok.mp h
    obtain ⟨rfl, rfl⟩ := Prod.mk.inj (pure_eq_ok.mp heq)
    obtain ⟨hbodyBal, -⟩ := balancedBlock_of_ok body ht hn hpeak hbody (loop_le_one ht hbody hcheck hle)
    refine ⟨?_, ?_⟩
    · rw [OwnershipRules.Balanced]
      exact hbodyBal
    · rw [namedStmt, List.append_nil]
      exact ht
  | .forRange var start stop body, inLoop, before, c, c', a, a', n, ht, hn, hpeak, h, hle => by
    rw [countStmt] at h
    obtain ⟨c₁, hstart, h⟩ := bind_eq_ok.mp h
    obtain ⟨c₂, hstop, h⟩ := bind_eq_ok.mp h
    obtain ⟨⟨lc, la⟩, hbody, h⟩ := bind_eq_ok.mp h
    obtain ⟨_, hcheck, heq⟩ := bind_eq_ok.mp h
    obtain ⟨rfl, rfl⟩ := Prod.mk.inj (pure_eq_ok.mp heq)
    have hfirst : Counted owned inLoop c c₁ (names owned a start) := counted_expr start ht.keys hstart
    have hcounted := hfirst.trans (counted_expr stop hfirst.keys hstop)
    have hroom := (le_peakBlock body a _).trans_lt hpeak
    have hsecond := ht.add hcounted (hn.lt hroom)
    obtain ⟨hbodyBal, -⟩ := balancedBlock_of_ok body hsecond (hn.counted hcounted hroom) hpeak hbody
      (loop_le_one hsecond hbody hcheck hle)
    refine ⟨?_, hsecond⟩
    rw [OwnershipRules.Balanced]
    exact ⟨hcounted.outside, hbodyBal⟩
  | .letIn _ _ _, _, _, _, _, _, _, _, ht, hn, hpeak, h, _ | .assign _ _, _, _, _, _, _, _, _, ht, hn, hpeak, h, _
  | .assignAdd _ _, _, _, _, _, _, _, _, ht, hn, hpeak, h, _
  | .assignSub _ _, _, _, _, _, _, _, _, ht, hn, hpeak, h, _
  | .assignMul _ _, _, _, _, _, _, _, _, ht, hn, hpeak, h, _
  | .assignDiv _ _, _, _, _, _, _, _, _, ht, hn, hpeak, h, _ | .ret _, _, _, _, _, _, _, _, ht, hn, hpeak, h, _
  | .emit _ _, _, _, _, _, _, _, _, ht, hn, hpeak, h, _ | .require _, _, _, _, _, _, _, _, ht, hn, hpeak, h, _
  | .expr _, _, _, _, _, _, _, _, ht, hn, hpeak, h, _ | .revert _, _, _, _, _, _, _, _, ht, hn, hpeak, h, _
  | .break, _, _, _, _, _, _, _, ht, hn, hpeak, h, _ | .continue, _, _, _, _, _, _, _, ht, hn, hpeak, h, _ => by
    obtain ⟨rfl, hcounted⟩ := counted_named rfl ht.keys h
    rw [peakStmt_simple rfl] at hpeak
    exact ⟨(balanced_simple rfl).mpr hcounted.outside, ht.add hcounted (hn.lt hpeak)⟩

theorem balancedBlock_of_ok : (ss : List Stmt) → ∀ {inLoop : Bool} {before : List String} {c c' : Counts}
    {a a' : Aliases} {n : ℕ}, Tallied owned c before → UpTo c n → peakBlock owned ss a n < 2 ^ 64 →
    countConsumptions inLoop ss c a = .ok (c', a') → UpTo c' 1 →
    BalancedBlock owned inLoop ss before a ∧ Tallied owned c' (before ++ namedBlock owned ss a)
  | [], inLoop, before, c, c', a, a', n, ht, _, _, h, _ => by
    obtain ⟨rfl, rfl⟩ := Prod.mk.inj (pure_eq_ok.mp h)
    rw [namedBlock, List.append_nil, BalancedBlock]
    exact ⟨trivial, ht⟩
  | s :: ss, inLoop, before, c, c', a, a', n, ht, hn, hpeak, h, hle => by
    rw [countConsumptions] at h
    obtain ⟨⟨c₁, a₁⟩, hs, h⟩ := bind_eq_ok.mp h
    have hroom := (le_peakBlock ss _ _).trans_lt hpeak
    obtain ⟨rfl, hmid, hgrown⟩ := grows_stmt s ht.keys hs
    obtain ⟨hup, -⟩ := hgrown n hn hroom
    obtain ⟨-, hgrows⟩ := (grows_block ss hmid h).2 _ hup hpeak
    obtain ⟨hbal, htal⟩ := balanced_of_ok s ht hn hroom hs fun p => (hgrows p).trans (hle p)
    obtain ⟨hrest, hend⟩ := balancedBlock_of_ok ss htal hup hpeak h hle
    rw [BalancedBlock, namedBlock, ← List.append_assoc]
    exact ⟨⟨hbal, hrest⟩, hend⟩

end

/-! ## What does not fail -/

/-- No count goes over 1. -/
def Room (c : Counts) (ps : List String) : Prop := ∀ p, countOf c p + ps.count p ≤ 1

/-- A piece of the count that fails only in a loop, where no count goes over 1. -/
def Succeeds (owned : List String) (inLoop : Bool) (f : Counts → Except String Counts)
    (ps : List String) : Prop :=
  ∀ c, Keys owned c → Room c ps → (inLoop = true → ps = []) → ∃ c', f c = .ok c' ∧ Counted owned inLoop c c' ps

theorem Room.lt (h : Room c ps) (p : String) : countOf c p + ps.count p < 2 ^ 64 := (h p).trans_lt (by decide)

theorem Room.left (h : Room c (ps ++ qs)) : Room c ps := by
  intro p
  have hp := h p
  rw [List.count_append] at hp
  omega

theorem Room.right (h : Room c (ps ++ qs)) (hc : Counted owned inLoop c c' ps) : Room c' qs := by
  intro p
  have hp := h p
  rw [List.count_append] at hp
  rw [hc.counts p (h.left.lt p)]
  omega

theorem Succeeds.pure : Succeeds owned inLoop (fun c => pure c) [] := fun c hkeys _ _ => ⟨c, rfl, .refl hkeys⟩

theorem Succeeds.bind {f g : Counts → Except String Counts} (hf : Succeeds owned inLoop f ps)
    (hg : Succeeds owned inLoop g qs) : Succeeds owned inLoop (fun c => f c >>= g) (ps ++ qs) := by
  intro c hkeys hroom hloop
  obtain ⟨c₁, h₁, hfirst⟩ := hf c hkeys hroom.left fun h => (List.append_eq_nil_iff.mp (hloop h)).1
  obtain ⟨c₂, h₂, hsecond⟩ := hg c₁ hfirst.keys (hroom.right hfirst) fun h =>
    (List.append_eq_nil_iff.mp (hloop h)).2
  exact ⟨c₂, bind_eq_ok.mpr ⟨c₁, h₁, h₂⟩, hfirst.trans hsecond⟩

theorem Succeeds.foldlM {α : Type} {f : Counts → α → Except String Counts} {names : α → List String} {xs : List α}
    (hf : ∀ x ∈ xs, Succeeds owned inLoop (fun c => f c x) ((names x).filterMap (believed owned a))) :
    Succeeds owned inLoop (xs.foldlM f ·) ((xs.flatMap names).filterMap (believed owned a)) := by
  induction xs with
  | nil => exact .pure
  | cons x xs ih =>
    rw [List.flatMap_cons, List.filterMap_append]
    exact (hf x List.mem_cons_self).bind (ih fun y hy => hf y (List.mem_cons_of_mem _ hy))

theorem markIfOwned_ok (e : Expr) :
    Succeeds owned inLoop (fun c => markIfOwned a inLoop c e) ((bare e).filterMap (believed owned a)) := by
  intro c hkeys hroom hloop
  suffices hok : ∃ c', markIfOwned a inLoop c e = .ok c' by
    obtain ⟨c', h⟩ := hok
    exact ⟨c', h, counted_markIfOwned hkeys h⟩
  cases e with
  | var name =>
    rw [filterMap_bare] at hroom hloop
    unfold markIfOwned
    dsimp only
    cases hname : (c)[name]? with
    | some count =>
      dsimp only
      have hbel := believed_of_mem (a := a) ((hkeys name).mp (mem_of_getElem? hname))
      rw [hbel] at hroom hloop
      cases inLoop with
      | true => cases hloop rfl
      | false => exact ⟨_, rfl⟩
    | none =>
      dsimp only
      cases hsrc : a[name]? with
      | none => exact ⟨c, rfl⟩
      | some src =>
        dsimp only
        cases hcount : (c)[src]? with
        | none => exact ⟨c, rfl⟩
        | some count =>
          dsimp only
          have hout : name ∉ owned := by
            rw [← hkeys name, Std.ExtTreeMap.mem_iff_isSome_getElem?, hname]
            simp
          have hin : src ∈ owned := (hkeys src).mp (mem_of_getElem? hcount)
          rw [believed_of_alias hout hsrc hin] at hroom hloop
          cases inLoop with
          | true => cases hloop rfl
          | false => exact ⟨_, rfl⟩
  | _ => exact ⟨c, rfl⟩

/-- **An expression** is counted without failure. -/
theorem countExpr_ok : (e : Expr) → Succeeds owned inLoop (countExprConsumptions a inLoop e) (names owned a e)
  | .tokenTransfer token src dst amount => by
    unfold names
    simp only [followed, List.filterMap_append]
    exact (markIfOwned_ok amount).bind ((countExpr_ok token).bind ((countExpr_ok src).bind (countExpr_ok dst)))
  | .tokenMint token dst amount => by
    unfold names
    simp only [followed, List.filterMap_append]
    exact (markIfOwned_ok amount).bind ((countExpr_ok token).bind (countExpr_ok dst))
  | .tokenBurn token holder amount => by
    unfold names
    simp only [followed, List.filterMap_append]
    exact (markIfOwned_ok amount).bind ((countExpr_ok token).bind (countExpr_ok holder))
  | .callCell _ _ args _ => .foldlM fun arg _ => markIfOwned_ok arg
  | .call _ args => .foldlM fun arg _ => markIfOwned_ok arg
  | .bin _ lhs rhs => by
    unfold names
    simp only [followed, List.filterMap_append]
    exact (countExpr_ok lhs).bind (countExpr_ok rhs)
  | .not inner => countExpr_ok inner
  | .hash inner => countExpr_ok inner
  | .index base key => by
    unfold names
    simp only [followed, List.filterMap_append]
    exact (countExpr_ok base).bind (countExpr_ok key)
  | .int _ | .bytes _ | .var _ | .caller | .owner | .height | .timestamp | .value | .selfAddr | .field _ _
  | .tokenBalance _ _ | .accordRequest _ _ _ | .accordRead _ => .pure

theorem countSimple_ok (hs : simple s = true) (hkeys : Keys owned c) (hroom : Room c (namedStmt owned s a))
    (hloop : inLoop = true → namedStmt owned s a = []) :
    ∃ c', countStmt inLoop s c a = .ok (c', aliasAfter owned a s) ∧
      Counted owned inLoop c c' (namedStmt owned s a) := by
  have hof : ∀ {f : Counts → Except String Counts} {a' : Aliases}, Succeeds owned inLoop f (namedStmt owned s a) →
      ∃ c', (do pure (← f c, a')) = Except.ok (c', a') ∧ Counted owned inLoop c c' (namedStmt owned s a) := by
    intro f a' hf
    obtain ⟨c', hc, hcounted⟩ := hf c hkeys hroom hloop
    exact ⟨c', by rw [hc]; rfl, hcounted⟩
  cases s with
  | ifElse cond thenBody elseBody => cases hs
  | «while» cond body => cases hs
  | loop body => cases hs
  | forRange var start stop body => cases hs
  | letIn name ty expr =>
    rw [countStmt, withAlias_eq hkeys a name ty expr]
    exact hof (countExpr_ok expr)
  | assign target expr => exact hof (countExpr_ok expr)
  | assignAdd target expr => exact hof (countExpr_ok expr)
  | assignSub target expr => exact hof (countExpr_ok expr)
  | assignMul target expr => exact hof (countExpr_ok expr)
  | assignDiv target expr => exact hof (countExpr_ok expr)
  | require expr => exact hof (countExpr_ok expr)
  | expr expr => exact hof (countExpr_ok expr)
  | ret exprs =>
    rw [countStmt]
    refine hof (.foldlM fun x _ => ?_)
    rw [List.filterMap_append]
    exact (markIfOwned_ok x).bind (countExpr_ok x)
  | emit event fields =>
    rw [countStmt]
    exact hof (.foldlM fun f _ => countExpr_ok f.2)
  | revert error => exact hof (f := pure) .pure
  | «break» => exact hof (f := pure) .pure
  | «continue» => exact hof (f := pure) .pure

theorem Tallied.room (h : Tallied owned c before) (hle : ∀ p, (before ++ ps).count p ≤ 1) : Room c ps := by
  intro p
  have hp := hle p
  rw [List.count_append, ← h.counts] at hp
  exact hp

theorem count_left_le (h : (ps ++ qs).count p ≤ 1) : ps.count p ≤ 1 := by
  rw [List.count_append] at h
  omega

theorem checkLoop_ok {what : String} {lc : Counts} (ht : Tallied owned c before)
    (hl : Tallied owned lc (before ++ namedBlock owned ss a)) (hbal : BalancedBlock owned true ss before a) :
    checkLoop what c lc = .ok () := by
  refine checkLoop_eq_ok.mpr fun p _ => Nat.le_of_eq ?_
  rw [hl.counts, ht.counts, namedBlock_of_inLoop ss hbal, List.append_nil]

mutual

/-- **What is balanced** and names no parameter twice is counted without failure. -/
theorem ok_of_balanced : (s : Stmt) → ∀ {inLoop : Bool} {before : List String} {c : Counts} {a : Aliases},
    Tallied owned c before → Balanced owned inLoop s before a →
    (∀ p, (before ++ namedStmt owned s a).count p ≤ 1) →
    ∃ c', countStmt inLoop s c a = .ok (c', aliasAfter owned a s) ∧
      Tallied owned c' (before ++ namedStmt owned s a)
  | .ifElse cond thenBody elseBody, inLoop, before, c, a, ht, h, hle => by
    rw [OwnershipRules.Balanced] at h
    obtain ⟨hbefore, hthen, helse, hsame⟩ := h
    rw [namedStmt, ← List.append_assoc, hbefore, List.nil_append] at hle ⊢
    have hnone := (List.append_eq_nil_iff.mp hbefore).2
    have hroom : Room c (names owned a cond) := ht.room fun p => by
      rw [hbefore, List.count_nil]
      exact Nat.zero_le _
    obtain ⟨c₁, hcond, hcounted⟩ := countExpr_ok cond c ht.keys hroom fun _ => hnone
    have hfirst := ht.add hcounted hroom.lt
    rw [hbefore] at hfirst
    obtain ⟨tc, ta, hthenOk, htc⟩ := okBlock_of_balanced thenBody hfirst hthen fun p => by
      rw [List.nil_append]
      exact hle p
    obtain ⟨ec, ea, helseOk, hec⟩ := okBlock_of_balanced elseBody hfirst helse fun p => by
      rw [List.nil_append, ← hsame p]
      exact hle p
    rw [List.nil_append] at htc hec
    have hjoined : ∀ p, joined tc ec p = (namedBlock owned thenBody a).count p := by
      intro p
      unfold joined
      rw [htc.counts, hec.counts, hsame p, if_neg (by simp)]
    have hsum : ∀ p, countOf c₁ p + joined tc ec p = (namedBlock owned thenBody a).count p := by
      intro p
      rw [hfirst.counts, hjoined p, List.count_nil, Nat.zero_add]
    obtain ⟨hkeys, hcounts⟩ := countOf_mergeBranches hfirst.keys tc ec
    refine ⟨mergeBranches c₁ tc ec, ?_, hkeys, fun p => ?_⟩
    · rw [countStmt, hcond, ok_bind, hthenOk, ok_bind]
      dsimp only
      rw [helseOk]
      rfl
    · by_cases hp : p ∈ owned
      · rw [hcounts p hp (by rw [hsum p]; exact (hle p).trans_lt (by decide)), hsum p]
      · rw [countOf_of_notMem (mt (hkeys p).mp hp), ← htc.counts, htc.outside hp]
  | .while cond body, inLoop, before, c, a, ht, h, hle => by
    rw [OwnershipRules.Balanced] at h
    obtain ⟨hloop, hbody⟩ := h
    rw [namedStmt] at hle ⊢
    obtain ⟨c₁, hcond, hcounted⟩ := countExpr_ok cond c ht.keys (ht.room hle) hloop
    have hfirst := ht.add hcounted (ht.room hle).lt
    obtain ⟨lc, la, hbodyOk, hlc⟩ := okBlock_of_balanced body hfirst hbody fun p => by
      rw [namedBlock_of_inLoop body hbody, List.append_nil]
      exact hle p
    refine ⟨c₁, ?_, hfirst⟩
    rw [countStmt, hcond, ok_bind, hbodyOk, ok_bind]
    dsimp only
    rw [checkLoop_ok hfirst hlc hbody]
    rfl
  | .loop body, inLoop, before, c, a, ht, h, hle => by
    rw [OwnershipRules.Balanced] at h
    rw [namedStmt, List.append_nil] at hle ⊢
    obtain ⟨lc, la, hbodyOk, hlc⟩ := okBlock_of_balanced body ht h fun p => by
      rw [namedBlock_of_inLoop body h, List.append_nil]
      exact hle p
    refine ⟨c, ?_, ht⟩
    rw [countStmt, hbodyOk, ok_bind]
    dsimp only
    rw [checkLoop_ok ht hlc h]
    rfl
  | .forRange var start stop body, inLoop, before, c, a, ht, h, hle => by
    rw [OwnershipRules.Balanced] at h
    obtain ⟨hloop, hbody⟩ := h
    rw [namedStmt] at hle ⊢
    obtain ⟨c₂, hrange, hcounted⟩ := (countExpr_ok start).bind (countExpr_ok stop) c ht.keys (ht.room hle) hloop
    have hsecond := ht.add hcounted (ht.room hle).lt
    obtain ⟨lc, la, hbodyOk, hlc⟩ := okBlock_of_balanced body hsecond hbody fun p => by
      rw [namedBlock_of_inLoop body hbody, List.append_nil]
      exact hle p
    refine ⟨c₂, ?_, hsecond⟩
    obtain ⟨c₁, hstart, hstop⟩ := bind_eq_ok.mp hrange
    rw [countStmt, hstart, ok_bind, hstop, ok_bind, hbodyOk, ok_bind]
    dsimp only
    rw [checkLoop_ok hsecond hlc hbody]
    rfl
  | .letIn _ _ _, _, _, _, _, ht, h, hle | .assign _ _, _, _, _, _, ht, h, hle
  | .assignAdd _ _, _, _, _, _, ht, h, hle | .assignSub _ _, _, _, _, _, ht, h, hle
  | .assignMul _ _, _, _, _, _, ht, h, hle | .assignDiv _ _, _, _, _, _, ht, h, hle
  | .ret _, _, _, _, _, ht, h, hle | .emit _ _, _, _, _, _, ht, h, hle | .require _, _, _, _, _, ht, h, hle
  | .expr _, _, _, _, _, ht, h, hle | .revert _, _, _, _, _, ht, h, hle | .break, _, _, _, _, ht, h, hle
  | .continue, _, _, _, _, ht, h, hle => by
    obtain ⟨c', hc, hcounted⟩ := countSimple_ok rfl ht.keys (ht.room hle) ((balanced_simple rfl).mp h)
    exact ⟨c', hc, ht.add hcounted (ht.room hle).lt⟩

theorem okBlock_of_balanced :
    (ss : List Stmt) → ∀ {inLoop : Bool} {before : List String} {c : Counts} {a : Aliases},
    Tallied owned c before → BalancedBlock owned inLoop ss before a →
    (∀ p, (before ++ namedBlock owned ss a).count p ≤ 1) →
    ∃ c' a', countConsumptions inLoop ss c a = .ok (c', a') ∧ Tallied owned c' (before ++ namedBlock owned ss a)
  | [], _, _, c, a, ht, _, _ => by
    rw [namedBlock, List.append_nil]
    exact ⟨c, a, rfl, ht⟩
  | s :: ss, inLoop, before, c, a, ht, h, hle => by
    rw [BalancedBlock] at h
    rw [namedBlock, ← List.append_assoc] at hle ⊢
    obtain ⟨c₁, hs, hfirst⟩ := ok_of_balanced s ht h.1 fun p => count_left_le (hle p)
    obtain ⟨c', a', hss, hend⟩ := okBlock_of_balanced ss hfirst h.2 hle
    exact ⟨c', a', by rw [countConsumptions, hs, ok_bind]; exact hss, hend⟩

end

/-! ## The checker -/

theorem mem_aliasAfter (h : x ∈ aliasAfter owned a s) : x ∈ a ∨ x ∈ aliasesIn owned s := by
  unfold aliasAfter at h
  split at h
  · split_ifs at h with hsrc
    · rw [Std.ExtTreeMap.mem_insert] at h
      rcases h with heq | h
      · obtain rfl := Std.LawfulEqOrd.eq_of_compare heq
        right
        rw [aliasesIn, if_pos hsrc]
        exact List.mem_singleton_self _
      · exact .inl h
    · exact .inl h
  · exact .inl h

theorem mem_of_countConsumptions (hkeys : Keys owned c)
    (h : countConsumptions inLoop ss c a = .ok (c', a')) (hx : x ∈ a') : x ∈ a ∨ x ∈ aliasesOf owned ss := by
  induction ss generalizing c a with
  | nil =>
    obtain ⟨rfl, rfl⟩ := Prod.mk.inj (pure_eq_ok.mp h)
    exact .inl hx
  | cons s ss ih =>
    rw [countConsumptions] at h
    obtain ⟨⟨c₁, a₁⟩, hs, h⟩ := bind_eq_ok.mp h
    obtain ⟨rfl, hmid, -⟩ := grows_stmt s hkeys hs
    rw [aliasesOf, List.mem_append]
    rcases ih hmid h with ha | hss
    · rcases mem_aliasAfter ha with ha | hin
      · exact .inl ha
      · exact .inr (.inl hin)
    · exact .inr (.inr hss)

/-- No `let` gives the value of an owned parameter the name of one. -/
def Unshadowed (owned : List String) (body : List Stmt) : Prop := ∀ x ∈ aliasesOf owned body, x ∉ owned

theorem forM_eq_ok {α : Type} {f : α → Except String Unit} {xs : List α} :
    xs.forM f = .ok () ↔ ∀ x ∈ xs, f x = .ok () := by
  induction xs with
  | nil => exact iff_of_true rfl fun x hx => nomatch hx
  | cons x xs ih =>
    rw [List.forall_mem_cons, ← ih]
    constructor
    · intro h
      obtain ⟨_, hx, hxs⟩ := bind_eq_ok.mp h
      exact ⟨hx, hxs⟩
    · rintro ⟨hx, hxs⟩
      exact bind_eq_ok.mpr ⟨(), hx, hxs⟩

/-- **At the end** a parameter is accepted where it was counted once, unless an alias has its name. -/
theorem checkCount_eq_ok (hkeys : Keys owned c) (haliases : ∀ x ∈ a, x ∉ owned) :
    checkCount c a p = .ok () ↔ countOf c p = 1 := by
  have hany : ¬ (a.toList.any fun e => e.2 = p ∧ 0 < (c)[e.1]?.getD 0) = true := by
    rw [List.any_eq_true]
    rintro ⟨⟨x, src⟩, hx, hcond⟩
    have hmem : x ∈ a := mem_of_getElem? (Std.ExtTreeMap.mem_toList_iff_getElem?_eq_some.mp hx)
    have hzero := countOf_of_notMem (mt (hkeys x).mp (haliases x hmem))
    unfold countOf at hzero
    simp only [decide_eq_true_eq, hzero] at hcond
    exact absurd hcond.2 (Nat.lt_irrefl 0)
  unfold checkCount
  change (if countOf c p = 0 then _ else _) = _ ↔ _
  split_ifs with hzero htwo
  · rw [failIf_eq_ok]
    exact iff_of_false (fun h => h hany) (by omega)
  · exact iff_of_false (fun h => nomatch h) (by change countOf c p = 2 at htwo; omega)
  · change failIf (1 < countOf c p) _ = _ ↔ _
    change ¬ countOf c p = 2 at htwo
    rw [failIf_eq_ok]
    omega

theorem tallied_start (owned : List String) :
    Tallied owned (owned.foldl (fun m n => m.insert n 0) ∅) [] := by
  have hmem : ∀ (names : List String) (m : Counts) (p : String),
      p ∈ names.foldl (fun m n => m.insert n 0) m ↔ p ∈ names ∨ p ∈ m := by
    intro names
    induction names with
    | nil => exact fun m p => (or_iff_right (List.not_mem_nil)).symm
    | cons n names ih =>
      intro m p
      rw [List.foldl_cons, ih, Std.ExtTreeMap.mem_insert, List.mem_cons,
        Std.LawfulEqOrd.compare_eq_iff_eq, @eq_comm _ n]
      tauto
  have hzero : ∀ (names : List String) (m : Counts), (∀ p, countOf m p = 0) → ∀ p,
      countOf (names.foldl (fun m n => m.insert n 0) m) p = 0 := by
    intro names
    induction names with
    | nil => exact fun m hm => hm
    | cons n names ih =>
      intro m hm
      refine ih _ fun p => ?_
      unfold countOf
      rw [getElem?_insert_ite]
      split_ifs
      · rfl
      · exact hm p
  refine ⟨fun p => ?_, hzero owned ∅ fun p => ?_⟩
  · rw [hmem, or_iff_left Std.ExtTreeMap.not_mem_empty]
  · unfold countOf
    rw [Std.ExtTreeMap.getElem?_empty]
    rfl

theorem notMem_of_unshadowed {body : List Stmt} (hnames : Unshadowed owned body) (hkeys : Keys owned c)
    (h : countConsumptions inLoop body c ∅ = .ok (c', a')) : ∀ x ∈ a', x ∉ owned := by
  intro x hx
  rcases mem_of_countConsumptions hkeys h hx with hempty | hin
  · exact absurd hempty Std.ExtTreeMap.not_mem_empty
  · exact hnames x hin

/-- **What the checker accepts**, where its counts cannot wrap: balanced bodies that name every owned
parameter once. -/
theorem checkOwnership_eq_ok {body : List Stmt} {params : List Param} (hsome : ownedNames params ≠ [])
    (hnames : Unshadowed (ownedNames params) body) (hpeak : peakBlock (ownedNames params) body ∅ 0 < 2 ^ 64) :
    checkOwnership body params = .ok () ↔ BalancedBlock (ownedNames params) false body [] ∅ ∧
      ∀ p ∈ ownedNames params, (namedBlock (ownedNames params) body ∅).count p = 1 := by
  have hstart := tallied_start (ownedNames params)
  unfold checkOwnership
  dsimp only
  rw [if_neg (by simpa using hsome)]
  constructor
  · intro h
    obtain ⟨⟨c, a⟩, hcount, h⟩ := bind_eq_ok.mp h
    have hkeys := (grows_block body hstart.keys hcount).1
    have hone : ∀ p ∈ ownedNames params, countOf c p = 1 := fun p hp =>
      (checkCount_eq_ok hkeys (notMem_of_unshadowed hnames hstart.keys hcount)).mp (forM_eq_ok.mp h p hp)
    have hzero : UpTo ((ownedNames params).foldl (fun m n => m.insert n 0) ∅) 0 := fun p => by
      rw [hstart.counts, List.count_nil]
    obtain ⟨hbal, htal⟩ := balancedBlock_of_ok body hstart hzero hpeak hcount fun p => by
      by_cases hp : p ∈ ownedNames params
      · exact Nat.le_of_eq (hone p hp)
      · rw [countOf_of_notMem (mt (hkeys p).mp hp)]
        exact Nat.zero_le _
    exact ⟨hbal, fun p hp => by rw [← hone p hp, htal.counts, List.nil_append]⟩
  · rintro ⟨hbal, hone⟩
    obtain ⟨c, a, hcount, ht⟩ := okBlock_of_balanced body hstart hbal fun p => by
      rw [List.nil_append]
      by_cases hp : p ∈ ownedNames params
      · exact Nat.le_of_eq (hone p hp)
      · rw [List.count_eq_zero.mpr fun hin => hp (mem_owned_of_named hin)]
        exact Nat.zero_le _
    rw [List.nil_append] at ht
    rw [hcount, ok_bind]
    refine forM_eq_ok.mpr fun p hp => ?_
    exact (checkCount_eq_ok ht.keys (notMem_of_unshadowed hnames hstart.keys hcount)).mpr
      ((ht.counts p).trans (hone p hp))

end Rules

end TruthLinked.Compiler.OwnershipRules
