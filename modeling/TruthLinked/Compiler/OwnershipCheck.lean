import TruthLinked.Compiler.Ast
import TruthLinked.Lib.Except
import TruthLinked.Lib.Table

/-! # The ownership checker

`check_ownership` of `typeck.rs`. It counts, over the text of a body, the places where an owned parameter or
an alias of one is consumed, and looks at some places of an expression only: `followed` lists the names that
it sees there, `skipped` those that it does not (`count_passed`). The counts wrap at `2 ^ 64`. -/

namespace TruthLinked.Compiler.OwnershipCheck

open Core.Types Compiler.Ast Lib.Except Lib.Table

/-! ## The code -/

/-- `consumed`. -/
abbrev Counts := Map String ℕ

/-- `aliases`. -/
abbrev Aliases := Map String String

/-- An addition of `usize`, which wraps in a release build. -/
def addUsize (a b : ℕ) : ℕ := (a + b) % 2 ^ 64

/-- `*count += 1`. -/
def countOnce (consumed : Counts) (name : String) (count : ℕ) : Counts := consumed.insert name (addUsize count 1)

/-- `mark_if_owned`. -/
def markIfOwned (aliases : Aliases) (inLoop : Bool) (consumed : Counts) : Expr → Except String Counts
  | .var name =>
    match consumed[name]? with
    | some count =>
      if inLoop then
        throw s!"owned parameter '{name}' consumed inside a loop - would be consumed multiple times"
      else pure (countOnce consumed name count)
    | none =>
      match aliases[name]? with
      | none => pure consumed
      | some src =>
        match consumed[src]? with
        | none => pure consumed
        | some count =>
          if inLoop then throw s!"owned parameter '{src}' (via alias '{name}') consumed inside a loop"
          else pure (countOnce consumed src count)
  | _ => pure consumed

/-- `count_expr_consumptions`. -/
def countExprConsumptions (aliases : Aliases) (inLoop : Bool) : Expr → Counts → Except String Counts
  | .tokenTransfer token src dst amount, consumed => do
    let consumed ← markIfOwned aliases inLoop consumed amount
    let consumed ← countExprConsumptions aliases inLoop token consumed
    let consumed ← countExprConsumptions aliases inLoop src consumed
    countExprConsumptions aliases inLoop dst consumed
  | .tokenMint token dst amount, consumed => do
    let consumed ← markIfOwned aliases inLoop consumed amount
    let consumed ← countExprConsumptions aliases inLoop token consumed
    countExprConsumptions aliases inLoop dst consumed
  | .tokenBurn token holder amount, consumed => do
    let consumed ← markIfOwned aliases inLoop consumed amount
    let consumed ← countExprConsumptions aliases inLoop token consumed
    countExprConsumptions aliases inLoop holder consumed
  | .callCell _ _ args _, consumed => args.foldlM (markIfOwned aliases inLoop) consumed
  | .call _ args, consumed => args.foldlM (markIfOwned aliases inLoop) consumed
  | .bin _ lhs rhs, consumed => do
    let consumed ← countExprConsumptions aliases inLoop lhs consumed
    countExprConsumptions aliases inLoop rhs consumed
  | .not inner, consumed => countExprConsumptions aliases inLoop inner consumed
  | .hash inner, consumed => countExprConsumptions aliases inLoop inner consumed
  | .index base key, consumed => do
    let consumed ← countExprConsumptions aliases inLoop base consumed
    countExprConsumptions aliases inLoop key consumed
  | _, consumed => pure consumed

/-- The counts after an `if`: 2 is added where the branches differ. -/
def mergeBranches (consumed thenC elseC : Counts) : Counts :=
  consumed.map fun k v => addUsize v (if thenC[k]?.getD 0 ≠ elseC[k]?.getD 0 then 2 else thenC[k]?.getD 0)

/-- The check behind the body of a loop. -/
def checkLoop (what : String) (consumed loopC : Counts) : Except String Unit :=
  match consumed.toList.find? fun e => e.2 < loopC[e.1]?.getD 0 with
  | some (k, _) => throw s!"owned parameter '{k}' consumed inside a {what} - would be consumed multiple times"
  | none => pure ()

/-- `let x = owned_param` propagates ownership to `x`. -/
def withAlias (consumed : Counts) (aliases : Aliases) (name : String) : Expr → Aliases
  | .var src => if consumed.contains src then aliases.insert name src else aliases
  | _ => aliases

mutual

/-- A statement of `count_consumptions`. -/
def countStmt (inLoop : Bool) : Stmt → Counts → Aliases → Except String (Counts × Aliases)
  | .letIn name _ expr, consumed, aliases => do
    let aliases := withAlias consumed aliases name expr
    pure (← countExprConsumptions aliases inLoop expr consumed, aliases)
  | .assign _ expr, consumed, aliases => do pure (← countExprConsumptions aliases inLoop expr consumed, aliases)
  | .assignAdd _ expr, consumed, aliases =>
    do pure (← countExprConsumptions aliases inLoop expr consumed, aliases)
  | .assignSub _ expr, consumed, aliases =>
    do pure (← countExprConsumptions aliases inLoop expr consumed, aliases)
  | .assignMul _ expr, consumed, aliases =>
    do pure (← countExprConsumptions aliases inLoop expr consumed, aliases)
  | .assignDiv _ expr, consumed, aliases =>
    do pure (← countExprConsumptions aliases inLoop expr consumed, aliases)
  | .ret exprs, consumed, aliases => do
    let consumed ← exprs.foldlM (fun consumed ex => do
      countExprConsumptions aliases inLoop ex (← markIfOwned aliases inLoop consumed ex)) consumed
    pure (consumed, aliases)
  | .ifElse cond thenBody elseBody, consumed, aliases => do
    let consumed ← countExprConsumptions aliases inLoop cond consumed
    let (thenC, _) ← countConsumptions inLoop thenBody consumed aliases
    let (elseC, _) ← countConsumptions inLoop elseBody consumed aliases
    pure (mergeBranches consumed thenC elseC, aliases)
  | .while cond body, consumed, aliases => do
    let consumed ← countExprConsumptions aliases inLoop cond consumed
    let (loopC, _) ← countConsumptions true body consumed aliases
    checkLoop "loop" consumed loopC
    pure (consumed, aliases)
  | .loop body, consumed, aliases => do
    let (loopC, _) ← countConsumptions true body consumed aliases
    checkLoop "loop" consumed loopC
    pure (consumed, aliases)
  | .forRange _ start stop body, consumed, aliases => do
    let consumed ← countExprConsumptions aliases inLoop start consumed
    let consumed ← countExprConsumptions aliases inLoop stop consumed
    let (loopC, _) ← countConsumptions true body consumed aliases
    checkLoop "for loop" consumed loopC
    pure (consumed, aliases)
  | .emit _ fields, consumed, aliases => do
    let consumed ← fields.foldlM (fun consumed f => countExprConsumptions aliases inLoop f.2 consumed) consumed
    pure (consumed, aliases)
  | .require expr, consumed, aliases => do pure (← countExprConsumptions aliases inLoop expr consumed, aliases)
  | .expr expr, consumed, aliases => do pure (← countExprConsumptions aliases inLoop expr consumed, aliases)
  | .revert _, consumed, aliases => pure (consumed, aliases)
  | .break, consumed, aliases => pure (consumed, aliases)
  | .continue, consumed, aliases => pure (consumed, aliases)

/-- `count_consumptions`. -/
def countConsumptions (inLoop : Bool) : List Stmt → Counts → Aliases → Except String (Counts × Aliases)
  | [], consumed, aliases => pure (consumed, aliases)
  | stmt :: stmts, consumed, aliases => do
    let (consumed, aliases) ← countStmt inLoop stmt consumed aliases
    countConsumptions inLoop stmts consumed aliases

end

/-- The names of the owned parameters. -/
def ownedNames (params : List Param) : List String := (params.filter Param.owned).map Param.name

/-- The check of one owned parameter at the end. -/
def checkCount (consumed : Counts) (aliases : Aliases) (name : String) : Except String Unit :=
  let count := consumed[name]?.getD 0
  if count = 0 then
    failIf (¬ aliases.toList.any fun e => e.2 = name ∧ 0 < consumed[e.1]?.getD 0)
      s!"owned parameter '{name}' is never consumed - must be passed to a token op, call, or returned"
  else if count = 2 then
    throw (s!"owned parameter '{name}' is consumed in only one branch of an if - must be consumed in both " ++
      "branches or neither")
  else failIf (1 < count) s!"owned parameter '{name}' is consumed {count} times - double-spend detected"

/-- `check_ownership`. -/
def checkOwnership (stmts : List Stmt) (params : List Param) : Except String Unit :=
  let owned := ownedNames params
  if owned.isEmpty then pure ()
  else do
    let (consumed, aliases) ← countConsumptions false stmts (owned.foldl (fun m n => m.insert n 0) ∅) ∅
    owned.forM (checkCount consumed aliases)

/-! ## The names that are passed on -/

/-- The name of a variable that stands alone. -/
def bare : Expr → List String
  | .var name => [name]
  | _ => []

/-- The names that stand alone where `count_expr_consumptions` looks. -/
def followed : Expr → List String
  | .tokenTransfer token src dst amount => bare amount ++ (followed token ++ (followed src ++ followed dst))
  | .tokenMint token dst amount => bare amount ++ (followed token ++ followed dst)
  | .tokenBurn token holder amount => bare amount ++ (followed token ++ followed holder)
  | .callCell _ _ args _ => args.flatMap bare
  | .call _ args => args.flatMap bare
  | .bin _ lhs rhs => followed lhs ++ followed rhs
  | .not inner => followed inner
  | .hash inner => followed inner
  | .index base key => followed base ++ followed key
  | _ => []

mutual

/-- The names that an evaluation passes to the amount of a token operation or to a call. -/
def passed : Expr → List String
  | .tokenTransfer token src dst amount => passed token ++ passed src ++ passed dst ++
    passed amount ++ bare amount
  | .tokenMint token dst amount => passed token ++ passed dst ++ passed amount ++ bare amount
  | .tokenBurn token holder amount => passed token ++ passed holder ++ passed amount ++ bare amount
  | .callCell cell _ args _ => passed cell ++ passedArgs args
  | .call _ args => passedArgs args
  | .bin _ lhs rhs => passed lhs ++ passed rhs
  | .not inner => passed inner
  | .hash inner => passed inner
  | .index base key => passed base ++ passed key
  | .field base _ => passed base
  | .tokenBalance token account => passed token ++ passed account
  | .accordRequest url method body => passed url ++ passed method ++ passed body
  | .accordRead requestId => passed requestId
  | _ => []

/-- The names that the arguments of a call pass on, and the arguments themselves. -/
def passedArgs : List Expr → List String
  | [] => []
  | arg :: args => passed arg ++ bare arg ++ passedArgs args

end

mutual

/-- The names that are passed on where the checker does not look. -/
def skipped : Expr → List String
  | .tokenTransfer token src dst amount => skipped token ++ skipped src ++ skipped dst ++ passed amount
  | .tokenMint token dst amount => skipped token ++ skipped dst ++ passed amount
  | .tokenBurn token holder amount => skipped token ++ skipped holder ++ passed amount
  | .callCell cell _ args _ => passed cell ++ skippedArgs args
  | .call _ args => skippedArgs args
  | .bin _ lhs rhs => skipped lhs ++ skipped rhs
  | .not inner => skipped inner
  | .hash inner => skipped inner
  | .index base key => skipped base ++ skipped key
  | .field base _ => passed base
  | .tokenBalance token account => passed token ++ passed account
  | .accordRequest url method body => passed url ++ passed method ++ passed body
  | .accordRead requestId => passed requestId
  | _ => []

/-- What stands inside the arguments of a call. -/
def skippedArgs : List Expr → List String
  | [] => []
  | arg :: args => passed arg ++ skippedArgs args

end

theorem count_passedArgs (x : String) (args : List Expr) :
    (passedArgs args).count x = (args.flatMap bare).count x + (skippedArgs args).count x := by
  induction args with
  | nil => rfl
  | cons arg args ih =>
    simp only [passedArgs, skippedArgs, List.flatMap_cons, List.count_append, ih]
    omega

/-- **Every name that is passed on** stands where the checker looks or where it does not. -/
theorem count_passed (x : String) : (e : Expr) →
    (passed e).count x = (followed e).count x + (skipped e).count x
  | .tokenTransfer token src dst amount => by
    have htoken := count_passed x token
    have hsrc := count_passed x src
    have hdst := count_passed x dst
    simp only [passed, followed, skipped, List.count_append, htoken, hsrc, hdst]
    omega
  | .tokenMint token dst amount => by
    have htoken := count_passed x token
    have hdst := count_passed x dst
    simp only [passed, followed, skipped, List.count_append, htoken, hdst]
    omega
  | .tokenBurn token holder amount => by
    have htoken := count_passed x token
    have hholder := count_passed x holder
    simp only [passed, followed, skipped, List.count_append, htoken, hholder]
    omega
  | .callCell cell _ args _ => by
    simp only [passed, followed, skipped, List.count_append, count_passedArgs x args]
    omega
  | .call _ args => by
    rw [passed, followed, skipped, count_passedArgs x args]
  | .bin _ lhs rhs => by
    have hlhs := count_passed x lhs
    have hrhs := count_passed x rhs
    simp only [passed, followed, skipped, List.count_append, hlhs, hrhs]
    omega
  | .not inner => by
    rw [passed, followed, skipped, count_passed x inner]
  | .hash inner => by
    rw [passed, followed, skipped, count_passed x inner]
  | .index base key => by
    have hbase := count_passed x base
    have hkey := count_passed x key
    simp only [passed, followed, skipped, List.count_append, hbase, hkey]
    omega
  | .field base _ => by simp [passed, followed, skipped]
  | .tokenBalance token account => by simp [passed, followed, skipped]
  | .accordRequest url method body => by simp [passed, followed, skipped]
  | .accordRead requestId => by simp [passed, followed, skipped]
  | .int _ | .bytes _ | .var _ | .caller | .owner | .height | .timestamp | .value | .selfAddr => by
    simp [passed, followed, skipped]

/-- What a value list passes on where the skipped places pass on nothing. -/
theorem filterMap_passed {e : Expr} {get : String → Option String} (h : ∀ x ∈ skipped e, get x = none) :
    ((passed e).filterMap get).Perm ((followed e).filterMap get) := by
  have hperm : (passed e).Perm (followed e ++ skipped e) := by
    refine List.perm_iff_count.mpr fun x => ?_
    rw [List.count_append, count_passed]
  have hnone : (skipped e).filterMap get = [] := List.filterMap_eq_nil_iff.mpr h
  have hmap := hperm.filterMap get
  rwa [List.filterMap_append, hnone, List.append_nil] at hmap

/-! ## What is counted -/

/-- The owned parameter that the checker takes a name for. -/
def believed (owned : List String) (aliases : Aliases) (name : String) : Option String :=
  if name ∈ owned then some name else (aliases[name]?).filter fun src => src ∈ owned

/-- How often a parameter is counted. -/
def countOf (consumed : Counts) (p : String) : ℕ := consumed[p]?.getD 0

/-- The counts are those of the owned parameters. -/
def Keys (owned : List String) (consumed : Counts) : Prop := ∀ p, p ∈ consumed ↔ p ∈ owned

/-- The parameters that are counted from one state of the counts to another; none inside a loop. -/
structure Counted (owned : List String) (inLoop : Bool) (c c' : Counts) (params : List String) : Prop where
  keys : Keys owned c'
  counts : ∀ p, countOf c p + params.count p < 2 ^ 64 → countOf c' p = countOf c p + params.count p
  outside : inLoop = true → params = []

section Counting
variable {owned : List String} {a : Aliases} {inLoop : Bool} {c c' c'' : Counts} {e : Expr}

theorem Counted.refl (h : Keys owned c) : Counted owned inLoop c c [] := ⟨h, fun _ _ => rfl, fun _ => rfl⟩

theorem Counted.trans {ps qs : List String} (h : Counted owned inLoop c c' ps)
    (h' : Counted owned inLoop c' c'' qs) :
    Counted owned inLoop c c'' (ps ++ qs) := by
  refine ⟨h'.keys, fun p hlt => ?_, fun hloop => ?_⟩
  · rw [List.count_append, ← Nat.add_assoc] at hlt ⊢
    have hfirst := h.counts p (Nat.lt_of_le_of_lt (Nat.le_add_right _ _) hlt)
    rw [h'.counts p (by rw [hfirst]; exact hlt), hfirst]
  · rw [h.outside hloop, h'.outside hloop, List.nil_append]

theorem addUsize_of_lt {m n : ℕ} (h : m + n < 2 ^ 64) : addUsize m n = m + n := Nat.mod_eq_of_lt h

theorem believed_of_mem {name : String} (h : name ∈ owned) : believed owned a name = some name := if_pos h

theorem believed_of_notMem {name : String} (h : name ∉ owned) :
    believed owned a name = (a[name]?).filter fun src => src ∈ owned := if_neg h

theorem believed_of_alias {name src : String} (h : name ∉ owned) (hsrc : a[name]? = some src)
    (hin : src ∈ owned) :
    believed owned a name = some src := by
  rw [believed_of_notMem h, hsrc]
  simp [hin]

theorem filterMap_bare (get : String → Option String) (name : String) :
    (bare (.var name)).filterMap get = (get name).toList := by
  unfold bare
  cases h : get name with
  | none => rw [List.filterMap_cons_none h, List.filterMap_nil, Option.toList_none]
  | some p => rw [List.filterMap_cons_some h, List.filterMap_nil, Option.toList_some]

theorem mem_of_getElem? {V : Type} {m : Map String V} {k : String} {v : V} (h : m[k]? = some v) : k ∈ m := by
  rw [Std.ExtTreeMap.mem_iff_isSome_getElem?, h]
  rfl

theorem counted_countOnce {p : String} {count : ℕ} (hkeys : Keys owned c) (hp : (c)[p]? = some count)
    (hloop : inLoop = false) : Counted owned inLoop c (countOnce c p count) [p] := by
  unfold countOnce
  refine ⟨fun q => ?_, fun q hlt => ?_, fun h => ?_⟩
  · rw [Std.ExtTreeMap.mem_insert, ← hkeys q]
    constructor
    · rintro (heq | hq)
      · obtain rfl := Std.LawfulEqOrd.eq_of_compare heq
        exact mem_of_getElem? hp
      · exact hq
    · exact .inr
  · unfold countOf at hlt ⊢
    rw [getElem?_insert_ite]
    by_cases hq : q = p
    · subst hq
      rw [hp, List.count_singleton_self] at hlt ⊢
      rw [if_pos rfl]
      exact addUsize_of_lt hlt
    · rw [if_neg hq, List.count_singleton, if_neg (by simpa using Ne.symm hq), Nat.add_zero]
  · rw [hloop] at h
    cases h

/-- **A place that consumes** is counted for the parameter that the checker takes its name for. -/
theorem counted_markIfOwned (hkeys : Keys owned c) (h : markIfOwned a inLoop c e = .ok c') :
    Counted owned inLoop c c' ((bare e).filterMap (believed owned a)) := by
  have hsame : markIfOwned a inLoop c e = .ok c → (bare e).filterMap (believed owned a) = [] →
      Counted owned inLoop c c' ((bare e).filterMap (believed owned a)) := by
    intro hc hnone
    rw [hc] at h
    cases h
    rw [hnone]
    exact .refl hkeys
  cases e with
  | var name =>
    unfold markIfOwned at h
    dsimp only at h
    cases hname : (c)[name]? with
    | some count =>
      rw [hname] at h
      dsimp only at h
      have hmem : name ∈ owned := (hkeys name).mp (mem_of_getElem? hname)
      rw [filterMap_bare, believed_of_mem hmem]
      cases inLoop with
      | true => cases h
      | false =>
        cases pure_eq_ok.mp h
        exact counted_countOnce hkeys hname rfl
    | none =>
      rw [hname] at h
      dsimp only at h
      have hmem : name ∉ owned := by
        rw [← hkeys name, Std.ExtTreeMap.mem_iff_isSome_getElem?, hname]
        simp
      cases hsrc : a[name]? with
      | none =>
        refine hsame ?_ ?_
        · simp only [markIfOwned, hname, hsrc]
          rfl
        · rw [filterMap_bare, believed_of_notMem hmem, hsrc]
          rfl
      | some src =>
        rw [hsrc] at h
        dsimp only at h
        cases hcount : (c)[src]? with
        | none =>
          have hout : src ∉ owned := by
            rw [← hkeys src, Std.ExtTreeMap.mem_iff_isSome_getElem?, hcount]
            simp
          refine hsame ?_ ?_
          · simp only [markIfOwned, hname, hsrc, hcount]
            rfl
          · rw [filterMap_bare, believed_of_notMem hmem, hsrc]
            simp [hout]
        | some count =>
          rw [hcount] at h
          dsimp only at h
          have hin : src ∈ owned := (hkeys src).mp (mem_of_getElem? hcount)
          rw [filterMap_bare, believed_of_alias hmem hsrc hin]
          cases inLoop with
          | true => cases h
          | false =>
            cases pure_eq_ok.mp h
            exact counted_countOnce hkeys hcount rfl
  | _ => exact hsame rfl rfl

theorem counted_foldlM {α : Type} {f : Counts → α → Except String Counts} {names : α → List String}
    (hf : ∀ c c' x, Keys owned c → f c x = .ok c' →
      Counted owned inLoop c c' ((names x).filterMap (believed owned a)))
    {xs : List α} (hkeys : Keys owned c) (h : xs.foldlM f c = .ok c') :
    Counted owned inLoop c c' ((xs.flatMap names).filterMap (believed owned a)) := by
  induction xs generalizing c with
  | nil =>
    cases pure_eq_ok.mp h
    exact .refl hkeys
  | cons x xs ih =>
    obtain ⟨c₁, hx, hxs⟩ := bind_eq_ok.mp h
    have hfirst := hf c c₁ x hkeys hx
    rw [List.flatMap_cons, List.filterMap_append]
    exact hfirst.trans (ih hfirst.keys hxs)

/-- **An expression** is counted for the names where the checker looks. -/
theorem counted_expr (e : Expr) : ∀ {c c' : Counts}, Keys owned c →
    countExprConsumptions a inLoop e c = .ok c' →
    Counted owned inLoop c c' ((followed e).filterMap (believed owned a)) := by
  intro c
  fun_induction countExprConsumptions a inLoop e c with
  | case1 token src dst amount c ihtoken ihsrc ihdst =>
    intro c' hkeys h
    obtain ⟨c₁, hamount, h⟩ := bind_eq_ok.mp h
    obtain ⟨c₂, htoken, h⟩ := bind_eq_ok.mp h
    obtain ⟨c₃, hsrc, h⟩ := bind_eq_ok.mp h
    have h₁ := counted_markIfOwned hkeys hamount
    have h₂ := ihtoken _ h₁.keys htoken
    have h₃ := ihsrc _ h₂.keys hsrc
    simp only [followed, List.filterMap_append]
    exact h₁.trans (h₂.trans (h₃.trans (ihdst _ h₃.keys h)))
  | case2 token dst amount c ihtoken ihdst =>
    intro c' hkeys h
    obtain ⟨c₁, hamount, h⟩ := bind_eq_ok.mp h
    obtain ⟨c₂, htoken, h⟩ := bind_eq_ok.mp h
    have h₁ := counted_markIfOwned hkeys hamount
    have h₂ := ihtoken _ h₁.keys htoken
    simp only [followed, List.filterMap_append]
    exact h₁.trans (h₂.trans (ihdst _ h₂.keys h))
  | case3 token holder amount c ihtoken ihholder =>
    intro c' hkeys h
    obtain ⟨c₁, hamount, h⟩ := bind_eq_ok.mp h
    obtain ⟨c₂, htoken, h⟩ := bind_eq_ok.mp h
    have h₁ := counted_markIfOwned hkeys hamount
    have h₂ := ihtoken _ h₁.keys htoken
    simp only [followed, List.filterMap_append]
    exact h₁.trans (h₂.trans (ihholder _ h₂.keys h))
  | case4 cell method args ret c =>
    intro c' hkeys h
    exact counted_foldlM (f := markIfOwned a inLoop) (fun _ _ _ => counted_markIfOwned) hkeys h
  | case5 name args c =>
    intro c' hkeys h
    exact counted_foldlM (f := markIfOwned a inLoop) (fun _ _ _ => counted_markIfOwned) hkeys h
  | case6 op lhs rhs c ihlhs ihrhs =>
    intro c' hkeys h
    obtain ⟨c₁, hlhs, h⟩ := bind_eq_ok.mp h
    have h₁ := ihlhs hkeys hlhs
    simp only [followed, List.filterMap_append]
    exact h₁.trans (ihrhs _ h₁.keys h)
  | case7 inner c ih => exact ih
  | case8 inner c ih => exact ih
  | case9 base key c ihbase ihkey =>
    intro c' hkeys h
    obtain ⟨c₁, hbase, h⟩ := bind_eq_ok.mp h
    have h₁ := ihbase hkeys hbase
    simp only [followed, List.filterMap_append]
    exact h₁.trans (ihkey _ h₁.keys h)
  | case10 e c htransfer hmint hburn hcallCell hcall hbin hnot hhash hindex =>
    intro c' hkeys h
    cases pure_eq_ok.mp h
    have hnone : followed e = [] := by
      cases e with
      | tokenTransfer token src dst amount => exact (htransfer _ _ _ _ rfl).elim
      | tokenMint token dst amount => exact (hmint _ _ _ rfl).elim
      | tokenBurn token holder amount => exact (hburn _ _ _ rfl).elim
      | callCell cell method args ret => exact (hcallCell _ _ _ _ rfl).elim
      | call name args => exact (hcall _ _ rfl).elim
      | bin op lhs rhs => exact (hbin _ _ _ rfl).elim
      | not inner => exact (hnot _ rfl).elim
      | hash inner => exact (hhash _ rfl).elim
      | index base key => exact (hindex _ _ rfl).elim
      | _ => rfl
    rw [hnone]
    exact .refl hkeys

end Counting

/-! ## Statements -/

mutual

/-- The names where `count_consumptions` looks. -/
def followedStmt : Stmt → List String
  | .letIn _ _ expr => followed expr
  | .assign _ expr => followed expr
  | .assignAdd _ expr => followed expr
  | .assignSub _ expr => followed expr
  | .assignMul _ expr => followed expr
  | .assignDiv _ expr => followed expr
  | .ret exprs => exprs.flatMap fun expr => bare expr ++ followed expr
  | .ifElse cond thenBody elseBody => followed cond ++ followedBlock thenBody ++ followedBlock elseBody
  | .while cond body => followed cond ++ followedBlock body
  | .loop body => followedBlock body
  | .forRange _ start stop body => followed start ++ followed stop ++ followedBlock body
  | .emit _ fields => fields.flatMap fun f => followed f.2
  | .require expr => followed expr
  | .expr expr => followed expr
  | .revert _ => []
  | .break => []
  | .continue => []

def followedBlock : List Stmt → List String
  | [] => []
  | stmt :: stmts => followedStmt stmt ++ followedBlock stmts

end

mutual

/-- The names that a `let` binds to an owned parameter. -/
def aliasesIn (owned : List String) : Stmt → List String
  | .letIn name _ (.var src) => if src ∈ owned then [name] else []
  | .ifElse _ thenBody elseBody => aliasesOf owned thenBody ++ aliasesOf owned elseBody
  | .while _ body => aliasesOf owned body
  | .loop body => aliasesOf owned body
  | .forRange _ _ _ body => aliasesOf owned body
  | _ => []

def aliasesOf (owned : List String) : List Stmt → List String
  | [] => []
  | stmt :: stmts => aliasesIn owned stmt ++ aliasesOf owned stmts

end

/-- A statement without a body. -/
def simple : Stmt → Bool
  | .ifElse _ _ _ => false
  | .while _ _ => false
  | .loop _ => false
  | .forRange _ _ _ _ => false
  | _ => true

/-- The aliases after a statement. -/
def aliasAfter (owned : List String) (aliases : Aliases) : Stmt → Aliases
  | .letIn name _ (.var src) => if src ∈ owned then aliases.insert name src else aliases
  | _ => aliases

section Statements
variable {owned : List String} {a a' : Aliases} {inLoop : Bool} {c c' tc ec lc : Counts} {s : Stmt}

theorem withAlias_eq (hkeys : Keys owned c) (a : Aliases) (name : String) (ty : Option Ty) (expr : Expr) :
    withAlias c a name expr = aliasAfter owned a (.letIn name ty expr) := by
  cases expr with
  | var src =>
    have hiff : c.contains src = true ↔ src ∈ owned := hkeys src
    simp only [withAlias, aliasAfter, hiff]
  | _ => rfl

/-- **A statement without a body** is counted for the names where the checker looks. -/
theorem counted_simple (hs : simple s = true) (hkeys : Keys owned c) (h : countStmt inLoop s c a = .ok (c', a')) :
    a' = aliasAfter owned a s ∧
      Counted owned inLoop c c' ((followedStmt s).filterMap (believed owned a')) := by
  have hexpr : ∀ {e : Expr}, (do pure (← countExprConsumptions a inLoop e c, a)) = Except.ok (c', a') →
      a' = a ∧ Counted owned inLoop c c' ((followed e).filterMap (believed owned a')) := by
    intro e he
    obtain ⟨c₁, hc, heq⟩ := bind_eq_ok.mp he
    obtain ⟨rfl, rfl⟩ := Prod.mk.inj (pure_eq_ok.mp heq)
    exact ⟨rfl, counted_expr e hkeys hc⟩
  cases s with
  | ifElse cond thenBody elseBody => cases hs
  | «while» cond body => cases hs
  | loop body => cases hs
  | forRange var start stop body => cases hs
  | letIn name ty expr =>
    rw [countStmt] at h
    obtain ⟨c₁, hc, heq⟩ := bind_eq_ok.mp h
    obtain ⟨rfl, rfl⟩ := Prod.mk.inj (pure_eq_ok.mp heq)
    exact ⟨withAlias_eq hkeys a name ty expr, counted_expr expr hkeys hc⟩
  | assign target expr => exact hexpr h
  | assignAdd target expr => exact hexpr h
  | assignSub target expr => exact hexpr h
  | assignMul target expr => exact hexpr h
  | assignDiv target expr => exact hexpr h
  | require expr => exact hexpr h
  | expr expr => exact hexpr h
  | ret exprs =>
    rw [countStmt] at h
    obtain ⟨c₁, hc, heq⟩ := bind_eq_ok.mp h
    obtain ⟨rfl, rfl⟩ := Prod.mk.inj (pure_eq_ok.mp heq)
    refine ⟨rfl, counted_foldlM (fun c c' x hk hx => ?_) hkeys hc⟩
    obtain ⟨c₂, hmark, hx⟩ := bind_eq_ok.mp hx
    have hfirst := counted_markIfOwned hk hmark
    rw [List.filterMap_append]
    exact hfirst.trans (counted_expr x hfirst.keys hx)
  | emit event fields =>
    rw [countStmt] at h
    obtain ⟨c₁, hc, heq⟩ := bind_eq_ok.mp h
    obtain ⟨rfl, rfl⟩ := Prod.mk.inj (pure_eq_ok.mp heq)
    exact ⟨rfl, counted_foldlM (fun c c' x hk hx => counted_expr x.2 hk hx) hkeys hc⟩
  | revert error =>
    obtain ⟨rfl, rfl⟩ := Prod.mk.inj (pure_eq_ok.mp h)
    exact ⟨rfl, .refl hkeys⟩
  | «break» =>
    obtain ⟨rfl, rfl⟩ := Prod.mk.inj (pure_eq_ok.mp h)
    exact ⟨rfl, .refl hkeys⟩
  | «continue» =>
    obtain ⟨rfl, rfl⟩ := Prod.mk.inj (pure_eq_ok.mp h)
    exact ⟨rfl, .refl hkeys⟩

/-- What a branch point adds to a count. -/
def joined (tc ec : Counts) (p : String) : ℕ := if countOf tc p ≠ countOf ec p then 2 else countOf tc p

theorem countOf_of_notMem {p : String} (h : p ∉ c) : countOf c p = 0 := by
  unfold countOf
  rw [Std.ExtTreeMap.getElem?_eq_none h]
  rfl

/-- **A branch point** adds to every count what its branches agree on. -/
theorem countOf_mergeBranches (hkeys : Keys owned c) (tc ec : Counts) :
    Keys owned (mergeBranches c tc ec) ∧ ∀ p ∈ owned, countOf c p + joined tc ec p < 2 ^ 64 →
      countOf (mergeBranches c tc ec) p = countOf c p + joined tc ec p := by
  unfold mergeBranches
  refine ⟨fun p => ?_, fun p hp hlt => ?_⟩
  · rw [Std.ExtTreeMap.mem_map, hkeys p]
  · obtain ⟨v, hv⟩ := Option.isSome_iff_exists.mp (Std.ExtTreeMap.mem_iff_isSome_getElem?.mp ((hkeys p).mpr hp))
    unfold countOf at hlt ⊢
    rw [hv] at hlt ⊢
    rw [Std.ExtTreeMap.getElem?_map, hv]
    exact addUsize_of_lt hlt

theorem checkLoop_eq_ok {what : String} :
    checkLoop what c lc = .ok () ↔ ∀ p ∈ c, countOf lc p ≤ countOf c p := by
  have hfind : (c.toList.find? fun e => e.2 < lc[e.1]?.getD 0) = none ↔
      ∀ p ∈ c, countOf lc p ≤ countOf c p := by
    rw [List.find?_eq_none]
    constructor
    · intro h p hp
      obtain ⟨v, hv⟩ := Option.isSome_iff_exists.mp (Std.ExtTreeMap.mem_iff_isSome_getElem?.mp hp)
      have hin := h (p, v) (Std.ExtTreeMap.mem_toList_iff_getElem?_eq_some.mpr hv)
      unfold countOf
      rw [hv]
      simpa using hin
    · rintro h ⟨p, v⟩ hv
      have hget := Std.ExtTreeMap.mem_toList_iff_getElem?_eq_some.mp hv
      have hle := h p (mem_of_getElem? hget)
      unfold countOf at hle
      rw [hget] at hle
      simpa using hle
  rw [← hfind]
  unfold checkLoop
  cases c.toList.find? fun e => e.2 < lc[e.1]?.getD 0 with
  | none => exact iff_of_true rfl rfl
  | some e => exact iff_of_false (fun h => nomatch h) fun h => nomatch h

end Statements

end TruthLinked.Compiler.OwnershipCheck
