import TruthLinked.Compiler.OwnershipRules

/-! # What the ownership checker guarantees

The paths through a body, with the owned parameters that each passes on: any branch, any number of turns of a
loop, early returns; a path that traps is none. The checker's count is that of every path whose steps keep to
what the checker sees (`Runs` with `strict`). -/

namespace TruthLinked.Compiler.Ownership

open Compiler.Ast Compiler.OwnershipCheck Compiler.OwnershipRules

variable {named xs : List String} {exprs : List Expr} {s : Stmt} {strict : Bool}

/-! ## Paths -/

/-- The local variables, the innermost first, each with the owned parameter whose value it has. -/
abbrev Env := List (String × Option String)

namespace Env

/-- The owned parameter whose value a name has. -/
def get (env : Env) (name : String) : Option String := (env.lookup name).join

/-- The parameter whose value an expression is. -/
def origin (env : Env) : Expr → Option String
  | .var name => env.get name
  | _ => none

/-- A local variable gets another value. -/
def set (name : String) (value : Option String) : Env → Env
  | [] => []
  | (x, v) :: env => if x = name then (x, value) :: env else (x, v) :: set name value env

/-- An assignment. A slot of storage is assigned before a local variable of its name, and owns nothing. -/
def assign (slots : List String) (target : LValue) (value : Option String) (env : Env) : Env :=
  match target with
  | .var name => if name ∈ slots then env else env.set name value
  | _ => env

/-- The end of a scope that began with some environment. -/
def leave (inner outer : Env) : Env := inner.drop (inner.length - outer.length)

end Env

/-- The start of a function: every owned parameter has its own value. -/
def entry (params : List Param) : Env :=
  (params.map fun p => (p.name, if p.owned then some p.name else none)).reverse

/-- One passing on of the value of an owned parameter. -/
structure Pass where
  param : String
  name : String
  inLoop : Bool
  deriving DecidableEq

/-- What some names pass on. -/
def passes (env : Env) (inLoop : Bool) (names : List String) : List Pass :=
  names.filterMap fun x => (env.get x).map fun p => ⟨p, x, inLoop⟩

/-- How a piece of code ends. -/
inductive Exit where
  | next
  | break
  | continue
  | return
  deriving DecidableEq

/-- What decides whether a loop goes on. -/
inductive Guard where
  | endless
  | cond (expr : Expr)
  | range

/-- The names that a guard passes on in each turn. -/
def Guard.passed : Guard → List String
  | .cond expr => OwnershipCheck.passed expr
  | _ => []

/-- The pieces of code that a path goes through. -/
inductive Code where
  | block (stmts : List Stmt)
  | one (stmt : Stmt)
  | turns (guard : Guard) (body : List Stmt)

/-- The expressions of a statement that only evaluates them. -/
def evaluated : Stmt → Option (List Expr)
  | .require expr => some [expr]
  | .expr expr => some [expr]
  | .emit _ fields => some (fields.map Prod.snd)
  | _ => none

/-- The target and the operand of a compound assignment. -/
def compound : Stmt → Option (LValue × Expr)
  | .assignAdd target expr => some (target, expr)
  | .assignSub target expr => some (target, expr)
  | .assignMul target expr => some (target, expr)
  | .assignDiv target expr => some (target, expr)
  | _ => none

/-- The names that the evaluation of a target passes on. -/
def passedBy : LValue → List String
  | .index _ key => passed key
  | _ => []

/-! ## What the checker sees -/

/-- An expression passes on nothing where the checker does not look. -/
def Sees (env : Env) (expr : Expr) : Prop := ∀ x ∈ skipped expr, env.get x = none

/-- A `let` binds the value of an owned parameter by the name of the parameter, and takes no name that has
one. -/
structure KeepsTrack (env : Env) (name : String) (expr : Expr) : Prop where
  direct : ∀ p, env.origin expr = some p → expr = .var p
  fresh : env.origin expr = none → env.get name = none

/-- An assignment to a local variable moves no value of an owned parameter. -/
def Unmoved (slots : List String) (env : Env) (target : LValue) (value : Option String) : Prop :=
  match target with
  | .var name => name ∉ slots → env.get name = none ∧ value = none
  | _ => True

/-- Code that passes on no owned parameter, under any of its names. -/
def Idle (tracked : List String) (stmts : List Stmt) : Prop := ∀ x ∈ followedBlock stmts, x ∉ tracked

/-- The paths through a piece of code from an environment: what they pass on, how they end and in which
environment. The `strict` ones keep to what the checker sees. -/
inductive Runs (slots tracked : List String) (strict : Bool) : Bool → Code → Env → List Pass → Exit → Env → Prop
  | nil {inLoop : Bool} {env : Env} : Runs slots tracked strict inLoop (.block []) env [] .next env
  | cons {inLoop : Bool} {stmt : Stmt} {stmts : List Stmt} {env env₁ env₂ : Env} {u v : List Pass} {exit : Exit}
      (first : Runs slots tracked strict inLoop (.one stmt) env u .next env₁)
      (rest : Runs slots tracked strict inLoop (.block stmts) env₁ v exit env₂) :
      Runs slots tracked strict inLoop (.block (stmt :: stmts)) env (u ++ v) exit env₂
  -- the statements after an early return are left out
  | stop {inLoop : Bool} {stmt : Stmt} {stmts : List Stmt} {env env₁ : Env} {u : List Pass} {exit : Exit}
      (first : Runs slots tracked strict inLoop (.one stmt) env u exit env₁) (leaves : exit ≠ .next)
      (idle : strict = true → exit = .return → Idle tracked stmts) :
      Runs slots tracked strict inLoop (.block (stmt :: stmts)) env u exit env₁
  | letIn {inLoop : Bool} {name : String} {ty : Option Ty} {expr : Expr} {env : Env}
      (sees : strict = true → Sees env expr) (track : strict = true → KeepsTrack env name expr) :
      Runs slots tracked strict inLoop (.one (.letIn name ty expr)) env (passes env inLoop (passed expr)) .next
        ((name, env.origin expr) :: env)
  | assign {inLoop : Bool} {target : LValue} {expr : Expr} {env : Env} (sees : strict = true → Sees env expr)
      (key : strict = true → ∀ x ∈ passedBy target, env.get x = none)
      (unmoved : strict = true → Unmoved slots env target (env.origin expr)) :
      Runs slots tracked strict inLoop (.one (.assign target expr)) env
        (passes env inLoop (passed expr ++ passedBy target)) .next (env.assign slots target (env.origin expr))
  -- the key of a compound assignment is evaluated to load and to store
  | compound {inLoop : Bool} {stmt : Stmt} {target : LValue} {expr : Expr} {env : Env}
      (form : compound stmt = some (target, expr)) (sees : strict = true → Sees env expr)
      (key : strict = true → ∀ x ∈ passedBy target, env.get x = none)
      (unmoved : strict = true → Unmoved slots env target none) :
      Runs slots tracked strict inLoop (.one stmt) env
        (passes env inLoop (passed expr ++ (passedBy target ++ passedBy target)))
          .next (env.assign slots target none)
  | evaluate {inLoop : Bool} {stmt : Stmt} {exprs : List Expr} {env : Env} (form : evaluated stmt = some exprs)
      (sees : strict = true → ∀ expr ∈ exprs, Sees env expr) :
      Runs slots tracked strict inLoop (.one stmt) env (passes env inLoop (exprs.flatMap passed)) .next env
  | ret {inLoop : Bool} {exprs : List Expr} {env : Env} (sees : strict = true → ∀ expr ∈ exprs, Sees env expr) :
      Runs slots tracked strict inLoop (.one (.ret exprs)) env (passes env inLoop (passedArgs exprs)) .return env
  | ifThen {inLoop : Bool} {cond : Expr} {thenBody elseBody : List Stmt} {env env₁ : Env} {u : List Pass}
      {exit : Exit} (sees : strict = true → Sees env cond)
      (body : Runs slots tracked strict inLoop (.block thenBody) env u exit env₁) :
      Runs slots tracked strict inLoop (.one (.ifElse cond thenBody elseBody)) env
        (passes env inLoop (passed cond) ++ u) exit (env₁.leave env)
  | ifElse {inLoop : Bool} {cond : Expr} {thenBody elseBody : List Stmt} {env env₁ : Env} {u : List Pass}
      {exit : Exit} (sees : strict = true → Sees env cond)
      (body : Runs slots tracked strict inLoop (.block elseBody) env u exit env₁) :
      Runs slots tracked strict inLoop (.one (.ifElse cond thenBody elseBody)) env
        (passes env inLoop (passed cond) ++ u) exit (env₁.leave env)
  | while {inLoop : Bool} {cond : Expr} {body : List Stmt} {env env₁ : Env} {u : List Pass} {exit : Exit}
      (quiet : strict = true → ∀ x ∈ passed cond, env.get x = none)
      (turns : Runs slots tracked strict true (.turns (.cond cond) body) env u exit env₁) :
      Runs slots tracked strict inLoop (.one (.while cond body)) env u exit env₁
  | loop {inLoop : Bool} {body : List Stmt} {env env₁ : Env} {u : List Pass} {exit : Exit}
      (turns : Runs slots tracked strict true (.turns .endless body) env u exit env₁) :
      Runs slots tracked strict inLoop (.one (.loop body)) env u exit env₁
  | forRange {inLoop : Bool} {var : String} {start stop : Expr} {body : List Stmt}
    {env env₁ : Env} {u : List Pass}
      {exit : Exit} (sees : strict = true → Sees env start ∧ Sees env stop)
      (fresh : strict = true → env.get var = none)
      (turns : Runs slots tracked strict true (.turns .range body) ((var, none) :: env) u exit env₁) :
      Runs slots tracked strict inLoop (.one (.forRange var start stop body)) env
        (passes env inLoop (passed start ++ passed stop) ++ u) exit (env₁.leave env)
  | break {inLoop : Bool} {env : Env} : Runs slots tracked strict inLoop (.one .break) env [] .break env
  | continue {inLoop : Bool} {env : Env} : Runs slots tracked strict inLoop (.one .continue) env [] .continue env
  -- the guard of a loop says no
  | done {inLoop : Bool} {guard : Guard} {body : List Stmt} {env : Env} (ends : guard ≠ .endless) :
      Runs slots tracked strict inLoop (.turns guard body) env (passes env inLoop guard.passed) .next env
  | again {inLoop : Bool} {guard : Guard} {body : List Stmt} {env env₁ env₂ : Env} {u v : List Pass}
      {exit exit' : Exit} (turn : Runs slots tracked strict inLoop (.block body) env u exit env₁)
      (goesOn : exit = .next ∨ exit = .continue)
      (rest : Runs slots tracked strict inLoop (.turns guard body) (env₁.leave env) v exit' env₂) :
      Runs slots tracked strict inLoop (.turns guard body) env (passes env inLoop guard.passed ++ u ++ v)
        exit' env₂
  | broken {inLoop : Bool} {guard : Guard} {body : List Stmt} {env env₁ : Env} {u : List Pass}
      (turn : Runs slots tracked strict inLoop (.block body) env u .break env₁) :
      Runs slots tracked strict inLoop (.turns guard body) env (passes env inLoop guard.passed ++ u) .next
        (env₁.leave env)
  | returned {inLoop : Bool} {guard : Guard} {body : List Stmt} {env env₁ : Env} {u : List Pass}
      (turn : Runs slots tracked strict inLoop (.block body) env u .return env₁) :
      Runs slots tracked strict inLoop (.turns guard body) env (passes env inLoop guard.passed ++ u) .return
        (env₁.leave env)

/-! ## The environment along a strict path -/

section Environment
variable {env env' pre : Env} {name x : String} {value : Option String}

theorem get_cons (name : String) (value : Option String) (env : Env) (x : String) :
    Env.get ((name, value) :: env) x = if x = name then value else env.get x := by
  unfold Env.get
  by_cases h : x = name
  · subst h
    simp
  · have hne : (x == name) = false := by simpa using h
    rw [List.lookup_cons, hne, if_neg h]

theorem set_of_get_eq_none : (env : Env) → env.get name = none → env.set name none = env
  | [], _ => rfl
  | (y, v) :: env, h => by
    rw [get_cons] at h
    rw [Env.set]
    by_cases hy : y = name
    · subst hy
      rw [if_pos rfl] at h
      rw [if_pos rfl, h]
    · rw [if_neg (Ne.symm hy)] at h
      rw [if_neg hy, set_of_get_eq_none env h]

theorem assign_of_unmoved {slots : List String} {target : LValue} (h : Unmoved slots env target value) :
    env.assign slots target value = env := by
  cases target with
  | var name =>
    unfold Env.assign
    dsimp only
    split_ifs with hslot
    · rfl
    · obtain ⟨hget, rfl⟩ := h hslot
      exact set_of_get_eq_none env hget
  | index base key => rfl
  | field base field => rfl

theorem leave_append (pre env : Env) : Env.leave (pre ++ env) env = env := by
  unfold Env.leave
  rw [List.length_append, Nat.add_sub_cancel, List.drop_left]

end Environment

/-! ## The checker along a strict path -/

section Strict
variable {owned tracked : List String} {c c' : Counts} {a a' : Aliases} {env env' : Env} {inLoop : Bool}
variable {expr : Expr}

/-- The parameters that are passed on. -/
def params (u : List Pass) : List String := u.map Pass.param

theorem params_append (u v : List Pass) : params (u ++ v) = params u ++ params v := List.map_append

theorem params_passes (env : Env) (inLoop : Bool) (names : List String) :
    params (passes env inLoop names) = names.filterMap env.get := by
  unfold params passes
  rw [List.map_filterMap]
  refine List.filterMap_congr fun x _ => ?_
  cases env.get x <;> rfl

theorem passes_append (env : Env) (inLoop : Bool) (xs ys : List String) :
    passes env inLoop (xs ++ ys) = passes env inLoop xs ++ passes env inLoop ys := List.filterMap_append

theorem params_eq_nil {names : List String} (h : ∀ x ∈ names, env.get x = none) :
    params (passes env inLoop names) = [] := by
  rw [params_passes]
  exact List.filterMap_eq_nil_iff.mpr h

theorem perm_names (hget : env.get = believed owned a) (sees : Sees env expr) :
    (params (passes env inLoop (passed expr))).Perm (names owned a expr) := by
  rw [params_passes]
  unfold names
  rw [← hget]
  exact filterMap_passed sees

theorem perm_exprs (hget : env.get = believed owned a) (sees : ∀ expr ∈ exprs, Sees env expr) :
    (params (passes env inLoop (exprs.flatMap passed))).Perm
      ((exprs.flatMap followed).filterMap (believed owned a)) := by
  rw [params_passes]
  induction exprs with
  | nil => exact .refl _
  | cons expr exprs ih =>
    obtain ⟨hexpr, hexprs⟩ := List.forall_mem_cons.mp sees
    simp only [List.flatMap_cons, List.filterMap_append]
    refine List.Perm.append ?_ (ih hexprs)
    rw [← hget]
    exact filterMap_passed hexpr

theorem perm_returned (hget : env.get = believed owned a) (sees : ∀ expr ∈ exprs, Sees env expr) :
    (params (passes env inLoop (passedArgs exprs))).Perm
      ((exprs.flatMap fun expr => bare expr ++ followed expr).filterMap (believed owned a)) := by
  rw [params_passes]
  induction exprs with
  | nil => exact .refl _
  | cons expr exprs ih =>
    obtain ⟨hexpr, hexprs⟩ := List.forall_mem_cons.mp sees
    simp only [passedArgs, List.flatMap_cons, List.filterMap_append]
    refine List.Perm.append ?_ (ih hexprs)
    rw [← hget]
    exact List.perm_append_comm.trans (List.Perm.append_left _ (filterMap_passed hexpr))

/-- The names that have the value of an owned parameter are those that the checker takes for one. -/
structure Ready (owned tracked : List String) (a : Aliases) (env : Env) : Prop where
  get : env.get = believed owned a
  aliases : ∀ x ∈ a, x ∈ tracked

/-- The aliases of a piece of code are tracked, and none has the name of an owned parameter. -/
def Tracks (owned tracked : List String) (names : List String) : Prop := ∀ x ∈ names, x ∈ tracked ∧ x ∉ owned

/-- A path passes on what its code names, and nothing inside a loop. -/
structure Follows (inLoop : Bool) (env : Env) (u : List Pass) (exit : Exit) (env' : Env) (named : List String) :
    Prop where
  scope : ∃ pre, env' = pre ++ env
  quiet : inLoop = true → params u = []
  passed : exit = .next ∨ exit = .return → (params u).Perm named

/-- What holds of a path through each kind of code. -/
def Meets (owned tracked : List String) (inLoop : Bool) (env : Env) (u : List Pass) (exit : Exit) (env' : Env) :
    Code → Prop
  | .block ss => ∀ before a, Ready owned tracked a env → Tracks owned tracked (aliasesOf owned ss) →
    BalancedBlock owned inLoop ss before a → Follows inLoop env u exit env' (namedBlock owned ss a)
  | .one s => ∀ before a, Ready owned tracked a env → Tracks owned tracked (aliasesIn owned s) →
    Balanced owned inLoop s before a →
      Follows inLoop env u exit env' (namedStmt owned s a) ∧
        (exit = .next → Ready owned tracked (aliasAfter owned a s) env')
  | .turns guard body => ∀ before a, inLoop = true → Ready owned tracked a env →
    Tracks owned tracked (aliasesOf owned body) → BalancedBlock owned true body before a →
    (∀ x ∈ guard.passed, env.get x = none) → params u = [] ∧ env' = env

theorem Tracks.left {ys : List String} (h : Tracks owned tracked (xs ++ ys)) : Tracks owned tracked xs :=
  fun x hx => h x (List.mem_append_left _ hx)

theorem Tracks.right {ys : List String} (h : Tracks owned tracked (xs ++ ys)) : Tracks owned tracked ys :=
  fun x hx => h x (List.mem_append_right _ hx)

/-- A statement that passes on what it names, and keeps the environment. -/
theorem follows_simple {u : List Pass} {before : List String} {exit : Exit} (hs : simple s = true)
    (hbal : Balanced owned inLoop s before a) (hperm : (params u).Perm (namedStmt owned s a)) :
    Follows inLoop env u exit env (namedStmt owned s a) := by
  refine ⟨⟨[], rfl⟩, fun h => ?_, fun _ => hperm⟩
  rw [(balanced_simple hs).mp hbal h] at hperm
  exact hperm.eq_nil

theorem compound_spec {target : LValue} (h : compound s = some (target, expr)) :
    simple s = true ∧ followedStmt s = followed expr ∧ aliasAfter owned a s = a := by
  cases s <;> simp only [compound, Option.some.injEq, Prod.mk.injEq, reduceCtorEq] at h <;>
    exact ⟨rfl, by rw [followedStmt, h.2], rfl⟩

theorem evaluated_spec (h : evaluated s = some exprs) :
    simple s = true ∧ followedStmt s = exprs.flatMap followed ∧ aliasAfter owned a s = a := by
  cases s with
  | require expr =>
    obtain rfl := Option.some.inj h
    exact ⟨rfl, (List.flatMap_singleton followed expr).symm, rfl⟩
  | expr expr =>
    obtain rfl := Option.some.inj h
    exact ⟨rfl, (List.flatMap_singleton followed expr).symm, rfl⟩
  | emit event fields =>
    obtain rfl := Option.some.inj h
    exact ⟨rfl, (List.flatMap_map ..).symm, rfl⟩
  | _ => cases h

theorem ready_letIn {name : String} {ty : Option Ty} (h : Ready owned tracked a env)
    (htr : Tracks owned tracked (aliasesIn owned (.letIn name ty expr))) (htrack : KeepsTrack env name expr) :
    Ready owned tracked (aliasAfter owned a (.letIn name ty expr)) ((name, env.origin expr) :: env) := by
  have hnone : env.origin expr = none → Ready owned tracked a ((name, env.origin expr) :: env) := by
    intro horigin
    refine ⟨funext fun x => ?_, h.aliases⟩
    rw [get_cons, horigin, ← h.get]
    split_ifs with hx
    · rw [hx, htrack.fresh horigin]
    · rfl
  cases expr with
  | var src =>
    by_cases hsrc : src ∈ owned
    · have horigin : env.origin (.var src) = some src := by
        change env.get src = some src
        rw [h.get, believed_of_mem hsrc]
      have hname := htr name (by rw [aliasesIn, if_pos hsrc]; exact List.mem_singleton_self _)
      rw [horigin]
      unfold aliasAfter
      dsimp only
      rw [if_pos hsrc]
      refine ⟨funext fun x => ?_, fun x hx => ?_⟩
      · rw [get_cons]
        by_cases hx : x = name
        · subst hx
          rw [if_pos rfl, believed_of_alias hname.2 Std.ExtTreeMap.getElem?_insert_self hsrc]
        · rw [if_neg hx, h.get]
          unfold believed
          rw [TruthLinked.Lib.Table.getElem?_insert_ite, if_neg hx]
      · rw [Std.ExtTreeMap.mem_insert] at hx
        rcases hx with heq | hx
        · obtain rfl := Std.LawfulEqOrd.eq_of_compare heq
          exact hname.1
        · exact h.aliases x hx
    · have horigin : env.origin (.var src) = none := by
        cases hget : env.origin (.var src) with
        | none => rfl
        | some p =>
          obtain hp : src = p := by
            have hvar := htrack.direct p hget
            injection hvar
          subst hp
          change env.get src = some src at hget
          rw [h.get] at hget
          exact absurd (believed_mem hget) hsrc
      unfold aliasAfter
      dsimp only
      rw [if_neg hsrc]
      exact hnone horigin
  | _ => exact hnone rfl

/-! ## Code after an early return -/

theorem names_of_idle (ha : ∀ x ∈ a, x ∈ tracked) (ho : ∀ x ∈ owned, x ∈ tracked)
    (h : ∀ x ∈ xs, x ∉ tracked) : xs.filterMap (believed owned a) = [] := by
  refine List.filterMap_eq_nil_iff.mpr fun x hx => ?_
  rw [believed_of_notMem (mt (ho x) (h x hx)), Std.ExtTreeMap.getElem?_eq_none (mt (ha x) (h x hx))]
  rfl

mutual

theorem namedStmt_of_idle : (s : Stmt) → ∀ {a : Aliases}, (∀ x ∈ a, x ∈ tracked) → (∀ x ∈ owned, x ∈ tracked) →
    (∀ x ∈ aliasesIn owned s, x ∈ tracked) → (∀ x ∈ followedStmt s, x ∉ tracked) → namedStmt owned s a = []
  | .ifElse cond thenBody elseBody, a, ha, ho, hin, h => by
    rw [aliasesIn] at hin
    rw [followedStmt] at h
    have hcond := names_of_idle ha ho fun x hx => h x (List.mem_append_left _ (List.mem_append_left _ hx))
    rw [namedStmt, names, hcond, List.nil_append]
    exact named_of_idle thenBody ha ho (fun x hx => hin x (List.mem_append_left _ hx))
      fun x hx => h x (List.mem_append_left _ (List.mem_append_right _ hx))
  | .while cond body, a, ha, ho, hin, h => by
    rw [followedStmt] at h
    exact names_of_idle ha ho fun x hx => h x (List.mem_append_left _ hx)
  | .loop body, a, ha, ho, hin, h => rfl
  | .forRange var start stop body, a, ha, ho, hin, h => by
    rw [followedStmt] at h
    rw [namedStmt, names, names,
      names_of_idle ha ho fun x hx => h x (List.mem_append_left _ (List.mem_append_left _ hx)),
      names_of_idle ha ho fun x hx => h x (List.mem_append_left _ (List.mem_append_right _ hx)), List.nil_append]
  | .letIn _ _ _, _, ha, ho, hin, h | .assign _ _, _, ha, ho, hin, h | .assignAdd _ _, _, ha, ho, hin, h
  | .assignSub _ _, _, ha, ho, hin, h | .assignMul _ _, _, ha, ho, hin, h | .assignDiv _ _, _, ha, ho, hin, h
  | .ret _, _, ha, ho, hin, h | .emit _ _, _, ha, ho, hin, h | .require _, _, ha, ho, hin, h
  | .expr _, _, ha, ho, hin, h | .revert _, _, ha, ho, hin, h | .break, _, ha, ho, hin, h
  | .continue, _, ha, ho, hin, h => by
    rw [namedStmt_simple rfl]
    exact names_of_idle (fun x hx => (mem_aliasAfter hx).elim (ha x) (hin x)) ho h

/-- **Idle code** names no owned parameter. -/
theorem named_of_idle : (ss : List Stmt) → ∀ {a : Aliases}, (∀ x ∈ a, x ∈ tracked) → (∀ x ∈ owned, x ∈ tracked) →
    (∀ x ∈ aliasesOf owned ss, x ∈ tracked) → Idle tracked ss → namedBlock owned ss a = []
  | [], _, _, _, _, _ => rfl
  | s :: ss, a, ha, ho, hin, h => by
    rw [aliasesOf] at hin
    unfold Idle at h
    rw [followedBlock] at h
    have hs : ∀ x ∈ aliasesIn owned s, x ∈ tracked := fun x hx => hin x (List.mem_append_left _ hx)
    rw [namedBlock, namedStmt_of_idle s ha ho hs fun x hx => h x (List.mem_append_left _ hx), List.nil_append]
    exact named_of_idle ss (fun x hx => (mem_aliasAfter hx).elim (ha x) (hs x)) ho
      (fun x hx => hin x (List.mem_append_right _ hx)) fun x hx => h x (List.mem_append_right _ hx)

end

/-! ## A path follows the text -/

/-- The value of a name after the bindings of a scope have gone. -/
theorem Follows.leave {u : List Pass} {exit : Exit}
    (h : Follows inLoop env u exit env' named) : env'.leave env = env := by
  obtain ⟨pre, rfl⟩ := h.scope
  exact leave_append pre env

theorem Follows.block_nil : Follows inLoop env [] .next env [] := ⟨⟨[], rfl⟩, fun _ => rfl, fun _ => .refl _⟩

theorem mem_passed_of_followed {x : String} (h : x ∈ followed expr) : x ∈ OwnershipCheck.passed expr := by
  rw [← List.count_pos_iff] at h ⊢
  rw [count_passed]
  omega

theorem Follows.cons {named' : List String} {u v : List Pass} {exit : Exit} {env₁ env₂ : Env}
    (h : Follows inLoop env u .next env₁ named) (h' : Follows inLoop env₁ v exit env₂ named') :
    Follows inLoop env (u ++ v) exit env₂ (named ++ named') := by
  obtain ⟨pre, rfl⟩ := h.scope
  obtain ⟨pre', rfl⟩ := h'.scope
  refine ⟨⟨pre' ++ pre, (List.append_assoc ..).symm⟩, fun hloop => ?_, fun hexit => ?_⟩
  · rw [params_append, h.quiet hloop, h'.quiet hloop, List.nil_append]
  · rw [params_append]
    exact (h.passed (.inl rfl)).append (h'.passed hexit)

theorem Follows.branch {named' : List String} {u v : List Pass} {exit : Exit}
    (hcond : (params u).Perm named) (hnone : named = []) (h : Follows inLoop env v exit env' named') :
    Follows inLoop env (u ++ v) exit (env'.leave env) (named ++ named') := by
  rw [hnone] at hcond
  have hu := hcond.eq_nil
  refine ⟨⟨[], h.leave⟩, fun hloop => ?_, fun hexit => ?_⟩
  · rw [params_append, hu, h.quiet hloop, List.nil_append]
  · rw [params_append, hu, hnone]
    exact h.passed hexit

theorem follows_loop {u v : List Pass} {exit : Exit} (hfirst : (params u).Perm named)
    (hloop : inLoop = true → named = []) (hturns : params v = []) :
    Follows inLoop env (u ++ v) exit env named := by
  refine ⟨⟨[], rfl⟩, fun h => ?_, fun _ => ?_⟩
  · rw [hloop h] at hfirst
    rw [params_append, hfirst.eq_nil, hturns, List.nil_append]
  · rw [params_append, hturns, List.append_nil]
    exact hfirst

/-- **Along a strict path** what is passed on is what the code names, by induction on the path. -/
theorem meets {slots : List String} {code : Code} {u : List Pass} {exit : Exit} (ho : ∀ x ∈ owned, x ∈ tracked)
    (h : Runs slots tracked true inLoop code env u exit env') :
    Meets owned tracked inLoop env u exit env' code := by
  induction h with
  | nil =>
    intro before a hready htr hbal
    exact .block_nil
  | cons first rest ihfirst ihrest =>
    intro before a hready htr hbal
    rw [aliasesOf] at htr
    rw [BalancedBlock] at hbal
    obtain ⟨hhead, hnext⟩ := ihfirst before a hready htr.left hbal.1
    rw [namedBlock]
    exact hhead.cons (ihrest _ _ (hnext rfl) htr.right hbal.2)
  | @stop inLoop stmt stmts env env₁ u exit first leaves idle ih =>
    intro before a hready htr hbal
    rw [aliasesOf] at htr
    rw [BalancedBlock] at hbal
    obtain ⟨hhead, -⟩ := ih before a hready htr.left hbal.1
    refine ⟨hhead.scope, hhead.quiet, fun hexit => ?_⟩
    rw [namedBlock]
    rcases hexit with hnext | hret
    · exact absurd hnext leaves
    · have hrest : namedBlock owned stmts (aliasAfter owned a stmt) = [] :=
        named_of_idle stmts
          (fun x hx => (mem_aliasAfter hx).elim (hready.aliases x) fun hin => (htr.left x hin).1) ho
          (fun x hx => (htr.right x hx).1) (idle rfl hret)
      rw [hrest, List.append_nil]
      exact hhead.passed (.inr hret)
  | @letIn inLoop name ty expr env sees track =>
    intro before a hready htr hbal
    have hnext := ready_letIn hready htr (track rfl)
    refine ⟨?_, fun _ => hnext⟩
    have hperm : (params (passes env inLoop (passed expr))).Perm (namedStmt owned (.letIn name ty expr) a) := by
      rw [namedStmt_simple rfl]
      cases expr with
      | var src => exact .refl _
      | _ => exact perm_names hready.get (sees rfl)
    have hkeep : Follows inLoop env _ .next env _ := follows_simple rfl hbal hperm
    exact ⟨⟨[(name, env.origin expr)], rfl⟩, hkeep.quiet, fun _ => hperm⟩
  | @assign inLoop target expr env sees key unmoved =>
    intro before a hready htr hbal
    rw [assign_of_unmoved (unmoved rfl)]
    refine ⟨follows_simple rfl hbal ?_, fun _ => hready⟩
    rw [namedStmt_simple rfl, passes_append, params_append, params_eq_nil (key rfl), List.append_nil]
    exact perm_names hready.get (sees rfl)
  | @compound inLoop stmt target expr env form sees key unmoved =>
    intro before a hready htr hbal
    obtain ⟨hsimple, hfollowed, halias⟩ := compound_spec (a := a) form
    rw [assign_of_unmoved (unmoved rfl), halias]
    refine ⟨follows_simple hsimple hbal ?_, fun _ => hready⟩
    rw [namedStmt_simple hsimple, halias, hfollowed, passes_append, passes_append, params_append, params_append,
      params_eq_nil (key rfl), List.append_nil, List.append_nil]
    exact perm_names hready.get (sees rfl)
  | @evaluate inLoop stmt exprs env form sees =>
    intro before a hready htr hbal
    obtain ⟨hsimple, hfollowed, halias⟩ := evaluated_spec (a := a) form
    rw [halias]
    refine ⟨follows_simple hsimple hbal ?_, fun _ => hready⟩
    rw [namedStmt_simple hsimple, halias, hfollowed]
    exact perm_exprs hready.get (sees rfl)
  | ret sees =>
    intro before a hready htr hbal
    exact ⟨follows_simple rfl hbal (perm_returned hready.get (sees rfl)), fun h => nomatch h⟩
  | @ifThen inLoop cond thenBody elseBody env env₁ u exit sees body ih =>
    intro before a hready htr hbal
    rw [aliasesIn] at htr
    rw [OwnershipRules.Balanced] at hbal
    obtain ⟨hbefore, hthen, -, -⟩ := hbal
    have hbody := ih [] a hready htr.left hthen
    rw [namedStmt]
    refine ⟨hbody.branch (perm_names hready.get (sees rfl)) (List.append_eq_nil_iff.mp hbefore).2, fun _ => ?_⟩
    rw [hbody.leave]
    exact hready
  | @ifElse inLoop cond thenBody elseBody env env₁ u exit sees body ih =>
    intro before a hready htr hbal
    rw [aliasesIn] at htr
    rw [OwnershipRules.Balanced] at hbal
    obtain ⟨hbefore, -, helse, hsame⟩ := hbal
    have hbody := ih [] a hready htr.right helse
    have hcond : (params (passes env inLoop (passed cond))).Perm (names owned a cond) :=
      perm_names hready.get (sees rfl)
    have hbranch := hbody.branch hcond (List.append_eq_nil_iff.mp hbefore).2
    rw [namedStmt]
    refine ⟨⟨hbranch.scope, hbranch.quiet, fun hexit => ?_⟩, fun _ => ?_⟩
    · exact (hbranch.passed hexit).trans (List.Perm.append_left _ (List.perm_iff_count.mpr hsame).symm)
    · rw [hbody.leave]
      exact hready
  | @«while» inLoop cond body env env₁ u exit quiet turns ih =>
    intro before a hready htr hbal
    rw [aliasesIn] at htr
    rw [OwnershipRules.Balanced] at hbal
    obtain ⟨hloop, hbody⟩ := hbal
    obtain ⟨hnone, rfl⟩ := ih _ a rfl hready htr hbody (quiet rfl)
    have hnames : names owned a cond = [] := by
      refine List.filterMap_eq_nil_iff.mpr fun x hx => ?_
      rw [← hready.get]
      exact quiet rfl x (mem_passed_of_followed hx)
    rw [namedStmt, hnames]
    exact ⟨follows_loop (u := []) (.refl _) (fun _ => rfl) hnone, fun _ => hready⟩
  | loop turns ih =>
    intro before a hready htr hbal
    rw [aliasesIn] at htr
    rw [OwnershipRules.Balanced] at hbal
    obtain ⟨hnone, rfl⟩ := ih _ a rfl hready htr hbal fun x hx => nomatch hx
    exact ⟨follows_loop (u := []) (.refl _) (fun _ => rfl) hnone, fun _ => hready⟩
  | @forRange inLoop var start stop body env env₁ u exit sees fresh turns ih =>
    intro before a hready htr hbal
    rw [aliasesIn] at htr
    rw [OwnershipRules.Balanced] at hbal
    obtain ⟨hloop, hbody⟩ := hbal
    have hinner : Ready owned tracked a ((var, none) :: env) := by
      refine ⟨funext fun x => ?_, hready.aliases⟩
      rw [get_cons, ← hready.get]
      split_ifs with hx
      · rw [hx, fresh rfl]
      · rfl
    obtain ⟨hnone, rfl⟩ := ih _ a rfl hinner htr hbody fun x hx => nomatch hx
    have hleave : Env.leave ((var, none) :: env) env = env := leave_append [(var, none)] env
    have hfirst : (params (passes env inLoop (passed start ++ passed stop))).Perm
        (names owned a start ++ names owned a stop) := by
      rw [passes_append, params_append]
      exact (perm_names hready.get (sees rfl).1).append (perm_names hready.get (sees rfl).2)
    rw [namedStmt, hleave]
    exact ⟨follows_loop hfirst hloop hnone, fun _ => hready⟩
  | «break» =>
    intro before a hready htr hbal
    exact ⟨follows_simple rfl hbal (.refl _), fun h => nomatch h⟩
  | «continue» =>
    intro before a hready htr hbal
    exact ⟨follows_simple rfl hbal (.refl _), fun h => nomatch h⟩
  | done ends =>
    intro before a hloop hready htr hbal hguard
    exact ⟨params_eq_nil hguard, rfl⟩
  | again turn goesOn rest ihturn ihrest =>
    intro before a hloop hready htr hbal hguard
    subst hloop
    have hturn := ihturn before a hready htr hbal
    rw [hturn.leave] at ihrest
    obtain ⟨hnone, henv⟩ := ihrest before a rfl hready htr hbal hguard
    rw [params_append, params_append, params_eq_nil hguard, hturn.quiet rfl, hnone]
    exact ⟨rfl, henv⟩
  | broken turn ih =>
    intro before a hloop hready htr hbal hguard
    subst hloop
    have hturn := ih before a hready htr hbal
    rw [hturn.leave, params_append, params_eq_nil hguard, hturn.quiet rfl]
    exact ⟨rfl, rfl⟩
  | returned turn ih =>
    intro before a hloop hready htr hbal hguard
    subst hloop
    have hturn := ih before a hready htr hbal
    rw [hturn.leave, params_append, params_eq_nil hguard, hturn.quiet rfl]
    exact ⟨rfl, rfl⟩

end Strict

/-! ## Whole functions -/

section Functions
variable {slots : List String} {ps : List Param} {body : List Stmt} {tracked : List String} {u : List Pass}

/-- The names under which a body may hold the value of an owned parameter. -/
def trackedNames (ps : List Param) (body : List Stmt) : List String :=
  ownedNames ps ++ aliasesOf (ownedNames ps) body

/-- A path through a function: to its end or to a `return`. -/
def Path (slots : List String) (strict : Bool) (body : List Stmt) (ps : List Param) (u : List Pass) : Prop :=
  ∃ exit env, (exit = .next ∨ exit = .return) ∧
    Runs slots (trackedNames ps body) strict false (.block body) (entry ps) u exit env

theorem Runs.weaken {inLoop : Bool} {code : Code} {env env' : Env} {exit : Exit}
    (h : Runs slots tracked true inLoop code env u exit env') :
    Runs slots tracked false inLoop code env u exit env' := by
  induction h with
  | nil => exact .nil
  | cons first rest ihfirst ihrest => exact .cons ihfirst ihrest
  | stop first leaves idle ih => exact .stop ih leaves fun h => nomatch h
  | letIn sees track => exact .letIn (fun h => nomatch h) fun h => nomatch h
  | assign sees key unmoved => exact .assign (fun h => nomatch h) (fun h => nomatch h) fun h => nomatch h
  | compound form sees key unmoved =>
    exact .compound form (fun h => nomatch h) (fun h => nomatch h) fun h => nomatch h
  | evaluate form sees => exact .evaluate form fun h => nomatch h
  | ret sees => exact .ret fun h => nomatch h
  | ifThen sees body ih => exact .ifThen (fun h => nomatch h) ih
  | ifElse sees body ih => exact .ifElse (fun h => nomatch h) ih
  | «while» quiet turns ih => exact .while (fun h => nomatch h) ih
  | loop turns ih => exact .loop ih
  | forRange sees fresh turns ih => exact .forRange (fun h => nomatch h) (fun h => nomatch h) ih
  | «break» => exact .break
  | «continue» => exact .continue
  | done ends => exact .done ends
  | again turn goesOn rest ihturn ihrest => exact .again ihturn goesOn ihrest
  | broken turn ih => exact .broken ih
  | returned turn ih => exact .returned ih

theorem mem_ownedNames {p : String} : p ∈ ownedNames ps ↔ ∃ q ∈ ps, q.owned = true ∧ q.name = p := by
  unfold ownedNames
  rw [List.mem_map]
  simp only [List.mem_filter, and_assoc]

theorem get_eq_of_forall {env : Env} {x : String} {w : Option String} (h : ∀ v, (x, v) ∈ env → v = w)
    (hin : w = none ∨ ∃ v, (x, v) ∈ env) : env.get x = w := by
  induction env with
  | nil =>
    rcases hin with rfl | ⟨v, hv⟩
    · rfl
    · cases hv
  | cons e env ih =>
    obtain ⟨y, v⟩ := e
    rw [get_cons]
    split_ifs with hx
    · subst hx
      exact h v List.mem_cons_self
    · refine ih (fun v hv => h v (List.mem_cons_of_mem _ hv)) (hin.imp id ?_)
      rintro ⟨v', hv'⟩
      rcases List.mem_cons.mp hv' with heq | htail
      · exact absurd (Prod.mk.inj heq).1 hx
      · exact ⟨v', htail⟩

theorem mem_entry {x : String} {v : Option String} :
    (x, v) ∈ entry ps ↔ ∃ q ∈ ps, q.name = x ∧ (if q.owned then some q.name else none) = v := by
  unfold entry
  rw [List.mem_reverse, List.mem_map]
  simp only [Prod.mk.injEq]

/-- **At the entry** every owned parameter has its own value, and nothing else has one. -/
theorem get_entry (hnodup : (ps.map Param.name).Nodup) : (entry ps).get = believed (ownedNames ps) ∅ := by
  funext x
  by_cases hx : x ∈ ownedNames ps
  · obtain ⟨q, hq, howned, rfl⟩ := mem_ownedNames.mp hx
    rw [believed_of_mem hx]
    refine get_eq_of_forall (fun v hv => ?_) (.inr ⟨some q.name, mem_entry.mpr ⟨q, hq, rfl, by rw [howned]; rfl⟩⟩)
    obtain ⟨r, hr, hname, rfl⟩ := mem_entry.mp hv
    obtain rfl := List.inj_on_of_nodup_map hnodup hr hq hname
    rw [howned]
    rfl
  · rw [believed_of_notMem hx, Std.ExtTreeMap.getElem?_empty]
    refine get_eq_of_forall (fun v hv => ?_) (.inl rfl)
    obtain ⟨q, hq, rfl, rfl⟩ := mem_entry.mp hv
    rw [if_neg fun howned => hx (mem_ownedNames.mpr ⟨q, hq, howned, rfl⟩)]
    rfl

/-- **A strict path** through a balanced body passes on what the body names. -/
theorem params_of_path (hnodup : (ps.map Param.name).Nodup) (hnames : Unshadowed (ownedNames ps) body)
    (hbal : BalancedBlock (ownedNames ps) false body [] ∅) (h : Path slots true body ps u) :
    (params u).Perm (namedBlock (ownedNames ps) body ∅) := by
  obtain ⟨exit, env, hexit, hruns⟩ := h
  have hready : Ready (ownedNames ps) (trackedNames ps body) ∅ (entry ps) :=
    ⟨get_entry hnodup, fun x hx => absurd hx Std.ExtTreeMap.not_mem_empty⟩
  have htr : Tracks (ownedNames ps) (trackedNames ps body) (aliasesOf (ownedNames ps) body) :=
    fun x hx => ⟨List.mem_append_right _ hx, hnames x hx⟩
  exact (meets (fun x hx => List.mem_append_left _ hx) hruns [] ∅ hready htr hbal).passed hexit

/-- A path that passes an owned parameter on once, by its name and outside any loop. -/
def Direct (u : List Pass) (p : String) : Prop := u.filter (fun pass => pass.param = p) = [⟨p, p, false⟩]

theorem count_of_direct {p : String} (h : Direct u p) : (params u).count p = 1 := by
  unfold params
  rw [List.count, List.countP_map, List.countP_eq_length_filter]
  have hlength := congrArg List.length h
  exact hlength

/-- **What the checker guarantees**, where its counts cannot wrap. An accepted function passes on every owned
parameter once, on every path that keeps to what the checker sees. And a body that has such a path, and that
passes on every owned parameter once on every path, by its name and outside its loops, is accepted exactly if
it is balanced. -/
theorem accepted_passes_once (hnodup : (ps.map Param.name).Nodup) (hnames : Unshadowed (ownedNames ps) body)
    (hpeak : peakBlock (ownedNames ps) body ∅ 0 < 2 ^ 64) :
    (checkOwnership body ps = .ok () → ∀ u, Path slots true body ps u →
      ∀ p ∈ ownedNames ps, (params u).count p = 1) ∧
    ((∃ u, Path slots true body ps u) →
      (∀ u, Path slots false body ps u → ∀ p ∈ ownedNames ps, Direct u p) →
      (checkOwnership body ps = .ok () ↔ ownedNames ps = [] ∨
        BalancedBlock (ownedNames ps) false body [] ∅)) := by
  by_cases hnone : ownedNames ps = []
  · have hok : checkOwnership body ps = .ok () := by
      unfold checkOwnership
      dsimp only
      rw [hnone]
      rfl
    refine ⟨fun _ u _ p hp => ?_, fun _ _ => iff_of_true hok (.inl hnone)⟩
    rw [hnone] at hp
    cases hp
  · rw [checkOwnership_eq_ok hnone hnames hpeak, or_iff_right hnone]
    refine ⟨?_, ?_⟩
    · rintro ⟨hbal, hone⟩ u hu p hp
      rw [(params_of_path hnodup hnames hbal hu).count_eq p]
      exact hone p hp
    · rintro ⟨u, hu⟩ hdirect
      refine ⟨And.left, fun hbal => ⟨hbal, fun p hp => ?_⟩⟩
      have hpath : Path slots false body ps u := by
        obtain ⟨exit, env, hexit, hruns⟩ := hu
        exact ⟨exit, env, hexit, hruns.weaken⟩
      rw [← (params_of_path hnodup hnames hbal hu).count_eq p]
      exact count_of_direct (hdirect u hpath p hp)

end Functions

/-! ## A function that pays out -/

def payParams : List Param := [⟨"amount", .u128, true⟩]

def payOut : Stmt := .expr (.tokenTransfer .selfAddr .caller .owner (.var "amount"))

def returnsEarly : List Stmt := [.ifElse (.bin .eq .caller .owner) [.ret []] [], payOut]

def branchesLate : List Stmt := [payOut, .ifElse (.bin .eq .caller .owner) [] []]

theorem payOut_runs {slots tracked : List String} :
    Runs slots tracked strict false (.one payOut) (entry payParams) [⟨"amount", "amount", false⟩] .next
      (entry payParams) :=
  .evaluate (rfl : evaluated payOut = some [.tokenTransfer .selfAddr .caller .owner (.var "amount")])
    fun _ expr hexpr x hx => by
      obtain rfl := List.mem_singleton.mp hexpr
      cases hx

theorem payOut_path : Path [] true [payOut] payParams [⟨"amount", "amount", false⟩] :=
  ⟨.next, entry payParams, .inl rfl, .cons payOut_runs .nil⟩

theorem payOut_passes {slots tracked : List String} {env : Env} {u : List Pass} {exit : Exit}
    (h : Runs slots tracked strict false (.one payOut) (entry payParams) u exit env) :
    u = [⟨"amount", "amount", false⟩] ∧ exit = .next ∧ env = entry payParams := by
  cases h with
  | evaluate form sees =>
    obtain rfl := Option.some.inj form
    exact ⟨rfl, rfl, rfl⟩
  | compound form sees key unmoved => cases form

/-- What comes after the transfer starts where the function does. -/
theorem after_payOut {slots tracked : List String} {stmts : List Stmt} {u : List Pass} {exit : Exit} {env : Env}
    (h : Runs slots tracked false false (.block (payOut :: stmts)) (entry payParams) u exit env) :
    ∃ v, u = ⟨"amount", "amount", false⟩ :: v ∧
      Runs slots tracked false false (.block stmts) (entry payParams) v exit env := by
  cases h with
  | cons first rest =>
    obtain ⟨rfl, -, rfl⟩ := payOut_passes first
    exact ⟨_, rfl, rest⟩
  | stop first leaves idle => exact absurd (payOut_passes first).2.1 leaves

theorem emptyIf_passes {slots tracked : List String} {inLoop : Bool} {env env' : Env} {u : List Pass}
    {exit : Exit}
    (h : Runs slots tracked strict inLoop (.block [.ifElse (.bin .eq .caller .owner) [] []]) env u exit env') :
    u = [] := by
  have hone : ∀ {v : List Pass} {exit : Exit} {env₁ : Env},
      Runs slots tracked strict inLoop (.one (.ifElse (.bin .eq .caller .owner) [] [])) env v exit env₁ →
        v = [] := by
    intro v exit env₁ h
    cases h with
    | ifThen sees body =>
      cases body
      rfl
    | ifElse sees body =>
      cases body
      rfl
    | compound form sees key unmoved => cases form
    | evaluate form sees => cases form
  cases h with
  | cons first rest =>
    obtain rfl := hone first
    cases rest
    rfl
  | stop first leaves idle => exact hone first

theorem direct_amount : ∀ p ∈ ownedNames payParams, Direct [⟨"amount", "amount", false⟩] p := by
  intro p hp
  obtain rfl : p = "amount" := List.mem_singleton.mp hp
  rfl

theorem payOut_accepted : checkOwnership [payOut] payParams = .ok () ∧
    (params [⟨"amount", "amount", false⟩]).count "amount" = 1 := by
  obtain ⟨hsound, haccepts⟩ := @accepted_passes_once [] payParams [payOut] (by decide) (fun x hx => nomatch hx)
    (by decide +kernel)
  have hdirect : ∀ u, Path [] false [payOut] payParams u → ∀ p ∈ ownedNames payParams, Direct u p := by
    rintro u ⟨exit, env, -, hruns⟩
    obtain ⟨v, rfl, hrest⟩ := after_payOut hruns
    cases hrest
    exact direct_amount
  have hbalanced : BalancedBlock (ownedNames payParams) false [payOut] [] ∅ := ⟨(nomatch ·), trivial⟩
  have hok := (haccepts ⟨_, payOut_path⟩ hdirect).mpr (.inr hbalanced)
  exact ⟨hok, hsound hok _ payOut_path "amount" (List.mem_singleton_self _)⟩

theorem checker_misses_return :
    (checkOwnership returnsEarly payParams = .ok () ∧ "amount" ∈ ownedNames payParams ∧
      ∃ u, Path [] false returnsEarly payParams u ∧ (params u).count "amount" ≠ 1) ∧
    (∀ u, Path [] false branchesLate payParams u → ∀ p ∈ ownedNames payParams, Direct u p) ∧
      checkOwnership branchesLate payParams ≠ .ok () := by
  refine ⟨⟨by decide +kernel, List.mem_singleton_self _, [],
    ⟨.return, entry payParams, .inr rfl, ?_⟩, by decide⟩, ?_, by decide +kernel⟩
  · have hreturn : Runs [] (trackedNames payParams returnsEarly) false false (.block [.ret []])
        (entry payParams) []
        .return (entry payParams) :=
      .stop (.ret fun h => nomatch h) (fun h => nomatch h) fun h => nomatch h
    have hif : Runs [] (trackedNames payParams returnsEarly) false false
        (.one (.ifElse (.bin .eq .caller .owner) [.ret []] [])) (entry payParams) [] .return (entry payParams) :=
      @Runs.ifThen [] _ false false (.bin .eq .caller .owner) [.ret []] [] _ _ []
        .return (fun h => nomatch h) hreturn
    exact .stop hif (fun h => nomatch h) fun h => nomatch h
  · rintro u ⟨exit, env, -, hruns⟩
    obtain ⟨v, rfl, hrest⟩ := after_payOut hruns
    obtain rfl := emptyIf_passes hrest
    exact direct_amount

end TruthLinked.Compiler.Ownership
