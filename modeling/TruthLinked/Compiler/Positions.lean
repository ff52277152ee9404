import TruthLinked.Compiler.ParserFuel

/-! # Expressions in the positions they stand in

`parse_stmt` and the list after `return` read identifiers and brackets by code of their own. What `parse_expr`
accepts it accepts with the same value where more tokens follow (`keeps_parseExprN`), and between the first
operand and the rest of an expression there is an operator (`Reads`). From these: which of the expressions
that `parse_expr` accepts keep their value as a statement and after `return`. -/

namespace TruthLinked.Compiler.Positions

open Compiler.Ast Compiler.Parser Compiler.ParserFuel Lib.Parsing

variable {args : List Expr} {d : ℕ} {op : Token → Option BinOp} {F : List Tok → Prop} {operand : P Expr}
  {mid : List Tok}

variable {α β : Type}

/-! ## Brackets -/

/-- What follows a group whose `(` is taken, with `d` more of them open in it. -/
def afterGroup : ℕ → List Tok → Option (List Tok)
  | _, [] => none
  | d, t :: ts =>
    if t.token = .lParen then afterGroup (d + 1) ts
    else if t.token = .rParen then
      match d with
      | 0 => some ts
      | d + 1 => afterGroup d ts
    else afterGroup d ts

/-- The tokens take the scan from `d` open brackets to `e`. -/
def Moves (d : ℕ) (c : List Tok) (e : ℕ) : Prop := ∀ ts, afterGroup d (c ++ ts) = afterGroup e ts

theorem tracking_moves : Tracking Moves where
  nil _ _ := rfl
  append {d e f c c'} h h' ts := by rw [List.append_assoc, h, h']

/-- Neither a bracket nor the end. -/
def plain : Token → Bool
  | .lParen | .rParen | .eof => false
  | _ => true

theorem moves_plain (d : ℕ) {t : Tok} (h : plain t.token = true) : Moves d [t] d := fun ts => by
  have hl : t.token ≠ .lParen := fun hl => by rw [hl] at h; cases h
  have hr : t.token ≠ .rParen := fun hr => by rw [hr] at h; cases h
  rw [List.singleton_append, afterGroup.eq_def]
  dsimp only
  rw [if_neg hl, if_neg hr]

theorem moves_open (d : ℕ) {t : Tok} (h : t.token = .lParen) : Moves d [t] (d + 1) := fun ts => by
  rw [List.singleton_append, afterGroup.eq_def]
  dsimp only
  rw [if_pos h]

theorem moves_close (d : ℕ) {t : Tok} (h : t.token = .rParen) : Moves (d + 1) [t] d := fun ts => by
  have hl : t.token ≠ .lParen := by rw [h]; exact nofun
  rw [List.singleton_append, afterGroup, if_neg hl, if_pos h]

theorem afterGroup_close {t : Tok} {ts : List Tok} (h : t.token = .rParen) :
    afterGroup 0 (t :: ts) = some ts := by
  have hl : t.token ≠ .lParen := by rw [h]; exact nofun
  rw [afterGroup.eq_def]
  dsimp only
  rw [if_neg hl, if_pos h]

/-! ## Where more tokens follow -/

/-- `;` or the end. -/
def Ending (suf : List Tok) : Prop := headToken suf = .eof ∨ headToken suf = .semicolon

/-- What `p` accepts, `q` accepts before `;` and where `p` stops before the end; and brackets are taken in
pairs. -/
def Keeps (p q : P α) : Prop := ∀ d, Carries Moves Ending d d p q

theorem carriesAt_err {e : ℕ} (msg : Msg) (q : P α) (toks : List Tok) :
    CarriesAt Moves F d e (err msg) q toks := by
  intro r r' a rest h
  cases toks with
  | nil => exact nomatch (show some (Except.error _) = some (.ok _) from h)
  | cons tok ts => exact nomatch (show some (Except.error _) = some (.ok _) from h)

theorem accepts_peek {f : Token → P α} {r : Span} {toks rest : List Tok} {a : α} :
    Accepts (peek >>= f) r toks a rest ↔ Accepts (f (headToken toks)) r toks a rest := Iff.rfl

theorem accepts_advance {f : Unit → P α} {r : Span} {tok : Tok} {ts rest : List Tok} {a : α} :
    Accepts (advance >>= f) r (tok :: ts) a rest ↔ Accepts (f ()) r ts a rest := Iff.rfl

theorem carries_peek {e : ℕ} {f g : Token → P α}
    (hcons : ∀ tok ts, CarriesAt Moves F d e (f tok.token) (g tok.token) (tok :: ts))
    (hnil : ∀ suf, suf = [] ∨ F suf → CarriesAt Moves F d e (f .eof) (g (headToken suf)) []) :
    Carries Moves F d e (peek >>= f) (peek >>= g) := by
  intro toks
  cases toks with
  | cons tok ts => exact hcons tok ts
  | nil =>
    intro r r' a rest h
    obtain ⟨c, hc, hM, -⟩ := hnil [] (.inl rfl) r r' a rest h
    obtain ⟨rfl, rfl⟩ := List.append_eq_nil_iff.mp hc.symm
    refine ⟨[], rfl, hM, fun suf hsuf => ?_⟩
    obtain ⟨-, -, -, hg⟩ := hnil suf (.inr (hsuf rfl)) r r' a [] h
    exact hg suf hsuf

theorem carriesAt_advance {e f : ℕ} {p q : Unit → P α} {tok : Tok} {ts : List Tok}
    (htok : Moves d [tok] e) (h : Carries Moves F e f (p ()) (q ())) :
    CarriesAt Moves F d f (advance >>= p) (advance >>= q) (tok :: ts) := by
  intro r r' a rest ha
  obtain ⟨c, rfl, hc, hq⟩ := h ts r r' a rest ha
  exact ⟨tok :: c, rfl, tracking_moves.append htok hc, hq⟩

theorem carries_arms {e : ℕ} {f g : Token → P α} {msg : Msg} (hend : f .eof = err msg)
    (hcons : ∀ tok ts, CarriesAt Moves Ending d e (f tok.token) (g tok.token) (tok :: ts)) :
    Carries Moves Ending d e (peek >>= f) (peek >>= g) :=
  carries_peek hcons fun _ _ => by
    rw [hend]
    exact carriesAt_err msg _ []

theorem carries_expect {e : ℕ} {t : Token} (ht : t ≠ .eof) (hM : ∀ tok : Tok, tok.token = t → Moves d [tok] e) :
    Carries Moves Ending d e (expect t) (expect t) := by
  refine carries_arms (if_neg ht.symm) fun tok ts => ?_
  split_ifs with h
  · exact carriesAt_advance (hM tok h) (carries_pure tracking_moves ())
  · exact carriesAt_err _ _ _

theorem keeps_expect (t : Token) (ht : plain t = true) : Keeps (expect t) (expect t) :=
  fun d => carries_expect (fun h => by rw [h] at ht; cases ht) fun _ htok => moves_plain d (htok ▸ ht)

theorem carries_open (d : ℕ) : Carries Moves Ending d (d + 1) (expect .lParen) (expect .lParen) :=
  carries_expect nofun fun _ => moves_open d

theorem carries_close (d : ℕ) : Carries Moves Ending (d + 1) d (expect .rParen) (expect .rParen) :=
  carries_expect nofun fun _ => moves_close d

theorem keeps_pure (a : α) : Keeps (pure a : P α) (pure a) := fun _ => carries_pure tracking_moves a

theorem Keeps.bind {p q : P α} {f g : α → P β} (h : Keeps p q) (hf : ∀ a, Keeps (f a) (g a)) :
    Keeps (p >>= f) (q >>= g) := fun d => (h d).bind tracking_moves fun a => hf a d

theorem keeps_expectIdent : Keeps expectIdent expectIdent := fun d => by
  refine carries_arms rfl fun tok ts => ?_
  split
  next name h => exact carriesAt_advance (moves_plain d (by rw [h]; rfl)) (keeps_pure name d)
  next => exact carriesAt_err _ _ _

/-- A choice that passes over brackets and the end. -/
structure Plain (f : Token → Option β) : Prop where
  eof : f .eof = none
  semicolon : f .semicolon = none
  lParen : f .lParen = none
  rParen : f .rParen = none

theorem keeps_eatMap {f : Token → Option β} (hf : Plain f) : Keeps (eatMap f) (eatMap f) := fun d => by
  refine carries_peek (fun tok ts => ?_) fun suf hsuf => ?_
  · cases hb : f tok.token with
    | none => exact keeps_pure none d (tok :: ts)
    | some b =>
      refine carriesAt_advance (moves_plain d ?_) (keeps_pure (some b) d)
      unfold plain
      split
      next h => rw [h, hf.lParen] at hb; cases hb
      next h => rw [h, hf.rParen] at hb; cases hb
      next h => rw [h, hf.eof] at hb; cases hb
      next => rfl
  · have hend : f (headToken suf) = none := by
      obtain rfl | h | h := hsuf
      · exact hf.eof
      · rw [h, hf.eof]
      · rw [h, hf.semicolon]
    rw [hf.eof, hend]
    exact keeps_pure none d []

theorem keeps_eat {t : Token} (ht : Plain fun got => if got = t then some () else none) : Keeps (eat t) (eat t) :=
  fun d => (keeps_eatMap ht d).map tracking_moves _

theorem carries_commaList (stops : Token → Bool) {item item' : P α} (h : Keeps item item') (d : ℕ) : ∀ {n m : ℕ},
    n ≤ m → Carries Moves (fun _ => False) d d (commaList stops item n) (commaList stops item' m)
  | 0, _, _ => carries_outOfFuel _
  | n + 1, m + 1, hnm => by
    have hitems : Carries Moves (fun _ => False) d d
        (item >>= fun a => eat .comma >>= fun more =>
          if more then commaList stops item n >>= fun as => pure (a :: as) else pure [a])
        (item' >>= fun a => eat .comma >>= fun more =>
          if more then commaList stops item' m >>= fun as => pure (a :: as) else pure [a]) := by
      refine (h d).inner.bind tracking_moves fun a => ?_
      refine (keeps_eat ⟨rfl, rfl, rfl, rfl⟩ d).inner.bind tracking_moves fun more => ?_
      cases more with
      | true => exact (carries_commaList stops h d (Nat.le_of_succ_le_succ hnm)).bind tracking_moves fun as =>
          carries_pure tracking_moves _
      | false => exact carries_pure tracking_moves _
    refine carries_peek (fun tok ts => ?_) fun suf hsuf => ?_
    · split_ifs
      · exact carries_pure tracking_moves [] (tok :: ts)
      · exact hitems (tok :: ts)
    · obtain rfl : suf = [] := hsuf.resolve_right not_false
      change CarriesAt _ _ _ _ (if stops .eof then _ else _) (if stops .eof then _ else _) []
      split_ifs
      · exact carries_pure tracking_moves [] []
      · exact hitems []

theorem keeps_parseTypeN : ∀ {n m : ℕ}, n ≤ m → Keeps (parseTypeN n) (parseTypeN m)
  | 0, _, _ => fun _ => carries_outOfFuel _
  | n + 1, m + 1, hnm => fun d => by
    have ih : Keeps (parseTypeN n) (parseTypeN m) := keeps_parseTypeN (Nat.le_of_succ_le_succ hnm)
    refine carries_arms rfl fun tok ts => ?_
    split
    case h_6 h =>
      refine carriesAt_advance (moves_plain d (by rw [h]; rfl)) ?_
      refine (carries_open d).bind tracking_moves fun _ => (ih (d + 1)).bind tracking_moves fun k => ?_
      refine (keeps_expect .fatArrow rfl (d + 1)).bind tracking_moves fun _ => ?_
      refine (ih (d + 1)).bind tracking_moves fun v => (carries_close d).bind tracking_moves fun _ => ?_
      exact keeps_pure _ d
    case h_7 h =>
      refine carriesAt_advance (moves_plain d (by rw [h]; rfl)) ?_
      exact (ih.bind fun inner => (keeps_expect .rBracket rfl).bind fun _ => keeps_pure _) d
    case h_8 => exact carriesAt_err _ _ _
    all_goals next h => exact carriesAt_advance (moves_plain d (by rw [h]; rfl)) (keeps_pure _ d)

/-! ## The levels of an expression -/

section Levels
variable {expr expr' : P Expr} (hexpr : Keeps expr expr') {n m : ℕ} (hnm : n ≤ m)
include hexpr hnm

theorem keeps_parseCallArgs : Keeps (parseCallArgs expr n) (parseCallArgs expr' m) := fun d => by
  refine (carries_open d).bind tracking_moves fun _ => ?_
  refine (carries_commaList closesList hexpr (d + 1) hnm).bindInner tracking_moves ?_ fun args => ?_
  · intro args r b rest h
    obtain ⟨_, _, h, -⟩ := accepts_bind.mp h
    exact nomatch (show some (Except.error _) = some (.ok _) from h)
  · exact (carries_close d).bind tracking_moves fun _ => keeps_pure args d

omit hexpr hnm in
theorem keeps_pathExpr (ns method : String) (args : List Expr) :
    Keeps (pathExpr ns method args) (pathExpr ns method args) := by
  obtain ⟨e, he, -⟩ | ⟨msg, hmsg⟩ := settled_pathExpr ns method args
  · rw [he]
    exact keeps_pure e
  · rw [hmsg]
    exact fun d => carriesAt_err msg _

theorem keeps_parseWord (s : String) : Keeps (parseWord expr n s) (parseWord expr' m s) := by
  unfold parseWord
  cases builtin s with
  | some e => exact keeps_pure e
  | none =>
    dsimp only
    split_ifs
    · intro d
      refine (carries_open d).bind tracking_moves fun _ => (hexpr (d + 1)).bind tracking_moves fun inner => ?_
      exact (carries_close d).bind tracking_moves fun _ => keeps_pure _ d
    · refine (keeps_expect .colonColon rfl).bind fun _ => keeps_expectIdent.bind fun method => ?_
      exact (keeps_parseCallArgs hexpr hnm).bind fun args => keeps_pathExpr s method args
    · refine fun d => carries_peek (fun tok ts => ?_) fun suf hsuf => ?_
      · split_ifs
        · exact ((keeps_parseCallArgs hexpr hnm).bind fun args => keeps_pure _) d (tok :: ts)
        · exact keeps_pure _ d (tok :: ts)
      · have hcall : headToken suf ≠ .lParen := by
          obtain rfl | h | h := hsuf
          · exact nofun
          · rw [h]; exact nofun
          · rw [h]; exact nofun
        rw [if_neg nofun, if_neg hcall]
        exact keeps_pure _ d []

theorem keeps_parsePrimaryBase : Keeps (parsePrimaryBase expr n) (parsePrimaryBase expr' m) := fun d => by
  refine carries_arms rfl fun tok ts => ?_
  split
  next v h => exact carriesAt_advance (moves_plain d (by rw [h]; rfl)) (keeps_pure _ d)
  next b h => exact carriesAt_advance (moves_plain d (by rw [h]; rfl)) (keeps_pure _ d)
  next h =>
    refine carriesAt_advance (moves_open d h) ((hexpr (d + 1)).bind tracking_moves fun e => ?_)
    exact (carries_close d).bind tracking_moves fun _ => keeps_pure e d
  next h =>
    refine carriesAt_advance (moves_plain d (by rw [h]; rfl)) (Keeps.bind keeps_expectIdent (fun cell => ?_) d)
    refine (keeps_expect .dot rfl).bind fun _ => keeps_expectIdent.bind fun method => ?_
    refine (keeps_parseCallArgs hexpr hnm).bind fun args => (keeps_eat ⟨rfl, rfl, rfl, rfl⟩).bind fun typed => ?_
    cases typed with
    | true => exact (keeps_parseTypeN hnm).bind fun ty => keeps_pure _
    | false => exact keeps_pure _
  next s h =>
    exact carriesAt_advance (moves_plain d (by rw [h]; rfl)) (keeps_parseWord hexpr hnm s d)
  next => exact carriesAt_err _ _ _

omit hnm in
theorem keeps_postfixLoop : ∀ {n m : ℕ}, n ≤ m → ∀ e, Keeps (postfixLoop expr n e) (postfixLoop expr' m e)
  | 0, _, _, _ => fun _ => carries_outOfFuel _
  | n + 1, m + 1, hnm, e => by
    have ih : ∀ e, Keeps (postfixLoop expr n e) (postfixLoop expr' m e) :=
      keeps_postfixLoop (Nat.le_of_succ_le_succ hnm)
    refine (keeps_eat ⟨rfl, rfl, rfl, rfl⟩).bind fun bracket => ?_
    cases bracket with
    | true => exact hexpr.bind fun key => (keeps_expect .rBracket rfl).bind fun _ => ih _
    | false =>
      refine (keeps_eat ⟨rfl, rfl, rfl, rfl⟩).bind fun dot => ?_
      cases dot with
      | true => exact keeps_expectIdent.bind fun field => ih _
      | false => exact keeps_pure e

theorem keeps_parsePrimary : Keeps (parsePrimary expr n) (parsePrimary expr' m) :=
  (keeps_parsePrimaryBase hexpr hnm).bind fun e => keeps_postfixLoop hexpr hnm e

theorem keeps_parseUnary : Keeps (parseUnary expr n) (parseUnary expr' m) := by
  refine (keeps_eat ⟨rfl, rfl, rfl, rfl⟩).bind fun bang => ?_
  cases bang with
  | true => exact (keeps_parsePrimary hexpr hnm).bind fun e => keeps_pure _
  | false => exact keeps_parsePrimary hexpr hnm

omit hexpr hnm in
theorem keeps_leftLoop (hop : Plain op) {operand' : P Expr}
    (h : Keeps operand operand') : ∀ {n m : ℕ}, n ≤ m → ∀ lhs,
      Keeps (leftLoop op operand n lhs) (leftLoop op operand' m lhs)
  | 0, _, _, _ => fun _ => carries_outOfFuel _
  | n + 1, m + 1, hnm, lhs => by
    refine (keeps_eatMap hop).bind fun o => ?_
    cases o with
    | some o => exact h.bind fun rhs => keeps_leftLoop hop h (Nat.le_of_succ_le_succ hnm) _
    | none => exact keeps_pure lhs

omit hexpr in
theorem keeps_parseLeft (hop : Plain op) {operand' : P Expr}
    (h : Keeps operand operand') : Keeps (parseLeft op operand n) (parseLeft op operand' m) :=
  h.bind fun lhs => keeps_leftLoop hop h hnm lhs

theorem keeps_parseAdd : Keeps (parseAdd expr n) (parseAdd expr' m) :=
  keeps_parseLeft hnm ⟨rfl, rfl, rfl, rfl⟩
    (keeps_parseLeft hnm ⟨rfl, rfl, rfl, rfl⟩ (keeps_parseUnary hexpr hnm))

theorem keeps_parseCmp : Keeps (parseCmp expr n) (parseCmp expr' m) := by
  refine (keeps_parseAdd hexpr hnm).bind fun lhs => (keeps_eatMap ⟨rfl, rfl, rfl, rfl⟩).bind fun o => ?_
  cases o with
  | some o => exact (keeps_parseAdd hexpr hnm).bind fun rhs => keeps_pure _
  | none => exact keeps_pure lhs

theorem keeps_parseLogicOr : Keeps (parseLogicOr expr n) (parseLogicOr expr' m) :=
  keeps_parseLeft hnm ⟨rfl, rfl, rfl, rfl⟩ <| keeps_parseLeft hnm ⟨rfl, rfl, rfl, rfl⟩ <|
    keeps_parseLeft hnm ⟨rfl, rfl, rfl, rfl⟩ <| keeps_parseLeft hnm ⟨rfl, rfl, rfl, rfl⟩
      <| keeps_parseCmp hexpr hnm

end Levels

theorem keeps_parseExprN : ∀ {n m : ℕ}, n ≤ m → Keeps (parseExprN n) (parseExprN m)
  | 0, _, _ => fun _ => carries_outOfFuel _
  | _ + 1, _ + 1, hnm =>
    keeps_parseLogicOr (keeps_parseExprN (Nat.le_of_succ_le_succ hnm)) (Nat.le_of_succ_le_succ hnm)

/-! ## The first operand -/

/-- The tokens that carry an expression on after an operand. -/
def continues : Token → Bool
  | .star | .slash | .percent | .plus | .minus | .caret | .shl | .shr | .eq | .ne | .lt | .le | .gt | .ge
  | .amp | .pipe | .ampAmp | .pipePipe | .lBracket | .dot => true
  | _ => false

/-- What an operand becomes when the expression goes on. -/
def isCompound : Expr → Bool
  | .bin .. | .index .. | .field .. => true
  | _ => false

/-- An operand stays as it is, or the next token carries it on. -/
def GoesOn (p : Expr → P Expr) : Prop := ∀ lhs r toks e rest, Accepts (p lhs) r toks e rest →
  (e = lhs ∧ rest = toks) ∨ (isCompound e = true ∧ continues (headToken toks) = true)

/-- An expression without a leading `!` is an operand of `base`, as it is or carried on. -/
def Reads (base p : P Expr) : Prop := ∀ r toks e rest, headToken toks ≠ .bang → Accepts p r toks e rest →
  ∃ e₀ mid, Accepts base r toks e₀ mid ∧
    ((e = e₀ ∧ rest = mid) ∨ (isCompound e = true ∧ continues (headToken mid) = true))

theorem Reads.bind {base p : P Expr} {f : Expr → P Expr} (h : Reads base p) (hf : GoesOn f) :
    Reads base (p >>= f) := by
  intro r toks e rest hbang ha
  obtain ⟨e₁, mid₁, hp, hloop⟩ := accepts_bind.mp ha
  obtain ⟨e₀, mid, hbase, hcase⟩ := h r toks e₁ mid₁ hbang hp
  refine ⟨e₀, mid, hbase, ?_⟩
  obtain ⟨rfl, rfl⟩ | ⟨he, hmid₁⟩ := hf e₁ r mid₁ e rest hloop
  · exact hcase
  · obtain ⟨rfl, rfl⟩ | ⟨-, hmid⟩ := hcase
    · exact .inr ⟨he, hmid₁⟩
    · exact .inr ⟨he, hmid⟩

theorem reads_self (p : P Expr) : Reads p p := fun _ _ e rest _ h => ⟨e, rest, h, .inl ⟨rfl, rfl⟩⟩

theorem accepts_eatMap_bind {f : Token → Option β} {g : Option β → P α} {r : Span} {toks rest : List Tok} {a : α}
    (h : Accepts (eatMap f >>= g) r toks a rest) :
    (f (headToken toks) = none ∧ Accepts (g none) r toks a rest) ∨
      ∃ b, f (headToken toks) = some b ∧ Accepts (g (some b)) r toks.tail a rest := by
  obtain ⟨o, mid, ho, hg⟩ := accepts_bind.mp h
  unfold eatMap at ho
  rw [accepts_peek] at ho
  cases hf : f (headToken toks) with
  | none =>
    rw [hf] at ho
    obtain ⟨rfl, rfl⟩ := accepts_pure.mp ho
    exact .inl ⟨rfl, hg⟩
  | some b =>
    rw [hf] at ho
    obtain ⟨u, mid', hadv, ho⟩ := accepts_bind.mp ho
    obtain ⟨rfl, rfl⟩ := accepts_pure.mp ho
    have hmid : toks.tail = mid' := congrArg Prod.snd (Except.ok.inj (Option.some.inj hadv))
    rw [← hmid] at hg
    exact .inr ⟨b, rfl, hg⟩

theorem accepts_eat_bind {t : Token} {g : Bool → P α} {r : Span} {toks rest : List Tok} {a : α}
    (h : Accepts (eat t >>= g) r toks a rest) :
    (headToken toks ≠ t ∧ Accepts (g false) r toks a rest) ∨
      (headToken toks = t ∧ Accepts (g true) r toks.tail a rest) := by
  unfold eat at h
  rw [bind_assoc] at h
  obtain ⟨hnone, hg⟩ | ⟨_, hsome, hg⟩ := accepts_eatMap_bind h
  · refine .inl ⟨fun heq => ?_, hg⟩
    rw [if_pos heq] at hnone
    cases hnone
  · refine .inr ⟨of_not_not fun hne => ?_, hg⟩
    rw [if_neg hne] at hsome
    cases hsome

theorem goesOn_leftLoop (hop : ∀ t o, op t = some o → continues t = true)
    (operand : P Expr) : ∀ n, GoesOn (leftLoop op operand n)
  | 0 => fun _ _ _ _ _ h => absurd h not_accepts_outOfFuel
  | n + 1 => by
    intro lhs r toks e rest h
    obtain ⟨-, hg⟩ | ⟨o, ho, hg⟩ := accepts_eatMap_bind h
    · obtain ⟨rfl, rfl⟩ := accepts_pure.mp hg
      exact .inl ⟨rfl, rfl⟩
    · obtain ⟨rhs, mid, -, hloop⟩ := accepts_bind.mp hg
      refine .inr ⟨?_, hop _ _ ho⟩
      obtain ⟨rfl, -⟩ | ⟨he, -⟩ := goesOn_leftLoop hop operand n _ _ _ _ _ hloop
      · rfl
      · exact he

theorem goesOn_postfixLoop (expr : P Expr) : ∀ n, GoesOn (postfixLoop expr n)
  | 0 => fun _ _ _ _ _ h => absurd h not_accepts_outOfFuel
  | n + 1 => by
    have ih : GoesOn (postfixLoop expr n) := goesOn_postfixLoop expr n
    intro e₀ r toks e rest h
    obtain ⟨-, h⟩ | ⟨hbracket, h⟩ := accepts_eat_bind h
    · obtain ⟨-, h⟩ | ⟨hdot, h⟩ := accepts_eat_bind h
      · obtain ⟨rfl, rfl⟩ := accepts_pure.mp h
        exact .inl ⟨rfl, rfl⟩
      · obtain ⟨field, mid, -, hloop⟩ := accepts_bind.mp h
        refine .inr ⟨?_, by rw [hdot]; rfl⟩
        obtain ⟨rfl, -⟩ | ⟨he, -⟩ := ih _ _ _ _ _ hloop
        · rfl
        · exact he
    · obtain ⟨key, mid, -, h⟩ := accepts_bind.mp h
      obtain ⟨-, mid', -, hloop⟩ := accepts_bind.mp h
      refine .inr ⟨?_, by rw [hbracket]; rfl⟩
      obtain ⟨rfl, -⟩ | ⟨he, -⟩ := ih _ _ _ _ _ hloop
      · rfl
      · exact he

theorem reads_parseLeft {base : P Expr}
    (hop : ∀ t o, op t = some o → continues t = true) (h : Reads base operand) (n : ℕ) :
    Reads base (parseLeft op operand n) := h.bind (goesOn_leftLoop hop operand n)

theorem continues_of_single {t : Token} {o : BinOp} (ht : continues t = true) :
    ∀ got o', (if got = t then some o else none) = some o' → continues got = true := by
  intro got o' h
  split_ifs at h with heq
  rwa [heq]

theorem continues_mulOp (t : Token) (o : BinOp) (h : mulOp t = some o) : continues t = true := by
  unfold mulOp at h
  split at h
  all_goals first
    | rfl
    | cases h

theorem continues_addOp (t : Token) (o : BinOp) (h : addOp t = some o) : continues t = true := by
  unfold addOp at h
  split at h
  all_goals first
    | rfl
    | cases h

theorem continues_cmpOp (t : Token) (o : BinOp) (h : cmpOp t = some o) : continues t = true := by
  unfold cmpOp at h
  split at h
  all_goals first
    | rfl
    | cases h

theorem reads_parseExprN (n : ℕ) : Reads (parsePrimaryBase (parseExprN n) n) (parseExprN (n + 1)) := by
  have hprimary : Reads (parsePrimaryBase (parseExprN n) n) (parsePrimary (parseExprN n) n) :=
    (reads_self _).bind (goesOn_postfixLoop (parseExprN n) n)
  have hunary : Reads (parsePrimaryBase (parseExprN n) n) (parseUnary (parseExprN n) n) := by
    intro r toks e rest hbang h
    obtain ⟨-, h⟩ | ⟨hb, -⟩ := accepts_eat_bind h
    · exact hprimary r toks e rest hbang h
    · exact absurd hb hbang
  have hadd : Reads (parsePrimaryBase (parseExprN n) n) (parseAdd (parseExprN n) n) :=
    reads_parseLeft continues_addOp (reads_parseLeft continues_mulOp hunary n) n
  have hcmp : Reads (parsePrimaryBase (parseExprN n) n) (parseCmp (parseExprN n) n) := by
    refine hadd.bind fun lhs r toks e rest h => ?_
    obtain ⟨-, hg⟩ | ⟨o, ho, hg⟩ := accepts_eatMap_bind h
    · obtain ⟨rfl, rfl⟩ := accepts_pure.mp hg
      exact .inl ⟨rfl, rfl⟩
    · obtain ⟨rhs, mid, -, he⟩ := accepts_bind.mp hg
      obtain ⟨rfl, -⟩ := accepts_pure.mp he
      exact .inr ⟨rfl, continues_cmpOp _ _ ho⟩
  exact reads_parseLeft (continues_of_single rfl) (reads_parseLeft (continues_of_single rfl)
    (reads_parseLeft (continues_of_single rfl) (reads_parseLeft (continues_of_single rfl) hcmp n) n) n) n

/-! ## Steps on a known token -/

section Steps
variable {r : Span} {tok : Tok} {ts toks rest : List Tok} {a : α} {t : Token}

theorem not_accepts_err {msg : Msg} : ¬ Accepts (err msg : P α) r toks a rest := by
  intro h
  cases toks with
  | nil => exact nomatch (show some (Except.error _) = some (.ok _) from h)
  | cons tok ts => exact nomatch (show some (Except.error _) = some (.ok _) from h)

theorem accepts_expect {f : Unit → P α} (h : tok.token = t) :
    Accepts (expect t >>= f) r (tok :: ts) a rest ↔ Accepts (f ()) r ts a rest := by
  unfold expect
  rw [bind_assoc, accepts_peek, if_pos (show headToken (tok :: ts) = t from h)]
  exact accepts_advance

theorem head_of_expect {f : Unit → P α} (h : Accepts (expect t >>= f) r toks a rest) : headToken toks = t := by
  unfold expect at h
  rw [bind_assoc, accepts_peek] at h
  by_contra hne
  rw [if_neg hne] at h
  obtain ⟨_, _, h, _⟩ := accepts_bind.mp h
  exact not_accepts_err h

theorem accepts_eat_miss {f : Bool → P α} (h : headToken toks ≠ t) :
    Accepts (eat t >>= f) r toks a rest ↔ Accepts (f false) r toks a rest := by
  unfold eat eatMap
  rw [bind_assoc, bind_assoc, accepts_peek]
  dsimp only
  rw [if_neg h]
  exact Iff.rfl

theorem accepts_expectIdent {f : String → P α} {s : String} (h : tok.token = .ident s) :
    Accepts (expectIdent >>= f) r (tok :: ts) a rest ↔ Accepts (f s) r ts a rest := by
  unfold expectIdent
  rw [bind_assoc, accepts_peek]
  dsimp only [headToken]
  rw [h]
  exact Iff.rfl

theorem head_of_expectIdent {f : String → P α} (h : Accepts (expectIdent >>= f) r toks a rest) :
    ∃ s tok ts, toks = tok :: ts ∧ tok.token = .ident s := by
  unfold expectIdent at h
  rw [bind_assoc, accepts_peek] at h
  cases toks with
  | nil =>
    obtain ⟨_, _, h, _⟩ := accepts_bind.mp h
    exact absurd h not_accepts_err
  | cons tok ts =>
    split at h
    next s hs => exact ⟨s, tok, ts, rfl, hs⟩
    next =>
      obtain ⟨_, _, h, _⟩ := accepts_bind.mp h
      exact absurd h not_accepts_err

theorem accepts_ended {s s' : Stmt} (h : tok.token = .semicolon) :
    Accepts (ended s) r (tok :: ts) s' rest ↔ s = s' ∧ ts = rest := by
  unfold ended
  rw [accepts_expect h, accepts_pure]

theorem of_accepts_ended {s s' : Stmt} (h : Accepts (ended s) r toks s' rest) :
    headToken toks = .semicolon ∧ s' = s := by
  refine ⟨head_of_expect h, ?_⟩
  obtain ⟨_, _, _, hs⟩ := accepts_bind.mp h
  exact (accepts_pure.mp hs).1.symm

end Steps

/-! ## What an expression starts with -/

/-- The tokens that `parse_unary` takes. -/
def startsExpr : Token → Bool
  | .int _ | .str _ | .lParen | .call | .ident _ | .bang => true
  | _ => false

theorem startsExpr_of_base {expr : P Expr} {n : ℕ} {r : Span} {toks rest : List Tok} {e : Expr}
    (h : Accepts (parsePrimaryBase expr n) r toks e rest) : startsExpr (headToken toks) = true := by
  unfold parsePrimaryBase at h
  rw [accepts_peek] at h
  split at h
  case h_6 => exact absurd h not_accepts_err
  all_goals next ht => rw [ht]; rfl

theorem startsExpr_of_accepts {n : ℕ} {r : Span} {toks rest : List Tok} {e : Expr}
    (h : Accepts (parseExprN n) r toks e rest) : startsExpr (headToken toks) = true := by
  cases n with
  | zero => exact absurd h not_accepts_outOfFuel
  | succ n =>
    by_cases hbang : headToken toks = .bang
    · rw [hbang]
      rfl
    · obtain ⟨e₀, mid, hbase, -⟩ := reads_parseExprN n r toks e rest hbang h
      exact startsExpr_of_base hbase

theorem group_of_callArgs {expr : P Expr} (hexpr : Keeps expr expr) {n : ℕ} {r : Span} {toks rest : List Tok}
    (h : Accepts (parseCallArgs expr n) r toks args rest) :
    ∃ tok ts, toks = tok :: ts ∧ tok.token = .lParen ∧ afterGroup 0 ts = some rest := by
  have hhead : headToken toks = .lParen := head_of_expect h
  cases toks with
  | nil => cases hhead
  | cons tok ts =>
    refine ⟨tok, ts, rfl, hhead, ?_⟩
    have hlist := (accepts_expect hhead).mp h
    obtain ⟨as, mid, has, hclose⟩ := accepts_bind.mp hlist
    obtain ⟨c, rfl, hc, -⟩ := carries_commaList closesList hexpr 0 le_rfl ts r r as mid has
    have hmid : headToken mid = .rParen := head_of_expect hclose
    cases mid with
    | nil => cases hmid
    | cons close mid =>
      have hdone := (accepts_expect hmid).mp hclose
      rw [hc (close :: mid), afterGroup_close hmid, (accepts_pure.mp hdone).2]

/-! ## Positions -/

/-- One group in brackets, and nothing after it. -/
def IsGroup : List Tok → Prop
  | [] => False
  | t :: ts => t.token = .lParen ∧ afterGroup 0 ts = some []

/-- The words that `parse_primary_base` takes for something else than a variable. -/
def reserved : List String := ["caller", "owner", "height", "timestamp", "self", "true", "false"]

/-- What may follow a leading identifier: nothing, arguments, or `::`, a method and arguments. -/
def NameShaped (name : String) : List Tok → Prop
  | [] => name ∉ reserved
  | t :: ts => (IsGroup (t :: ts) ∧ name ≠ "hash") ∨ (t.token = .colonColon ∧ IsGroup ts.tail)

/-- A condition on what starts with an identifier. -/
def StatementShaped : List Tok → Prop
  | [] => True
  | t :: ts =>
    match t.token with
    | .ident name => NameShaped name ts
    | _ => True

/-- What starts with a bracket is one group. -/
def ReturnShaped (toks : List Tok) : Prop := headToken toks = .lParen → IsGroup toks

/-- Before `;` the tokens are this expression as a statement, after `return` and after `let x =`, whatever
follows. -/
structure Agrees (toks : List Tok) (e : Expr) : Prop where
  stmt : ∀ eof semi suf, semi.token = .semicolon → Accepts parseStmt eof (toks ++ semi :: suf) (.expr e) suf
  ret : ∀ eof kw semi suf, kw.token = .kwReturn → semi.token = .semicolon →
    Accepts parseStmt eof (kw :: (toks ++ semi :: suf)) (.ret [e]) suf
  letIn : ∀ eof kw name assign x semi suf, kw.token = .kwLet → name.token = .ident x → assign.token = .assign →
    semi.token = .semicolon →
      Accepts parseStmt eof (kw :: name :: assign :: (toks ++ semi :: suf)) (.letIn x none e) suf

section Statement
variable {expr : P Expr} {stmt : P Stmt} {n : ℕ} {r : Span} {tok : Tok} {ts rest : List Tok} {s : Stmt}

theorem accepts_exprStmt (hstart : startsExpr tok.token = true) (hident : ∀ name, tok.token ≠ .ident name) :
    Accepts (parseStmtWith expr stmt n) r (tok :: ts) s rest ↔
      Accepts (expr >>= fun e => ended (.expr e)) r (tok :: ts) s rest := by
  unfold parseStmtWith
  rw [accepts_peek]
  dsimp only [headToken]
  split
  case h_12 name h => exact absurd h (hident name)
  case h_13 => exact Iff.rfl
  all_goals next h => rw [h] at hstart; cases hstart

theorem accepts_identStmt {name : String} (h : tok.token = .ident name) :
    Accepts (parseStmtWith expr stmt n) r (tok :: ts) s rest ↔
      Accepts (parseAssignOrExpr expr n) r (tok :: ts) s rest := by
  unfold parseStmtWith
  rw [accepts_peek]
  dsimp only [headToken]
  rw [h]

theorem accepts_retStmt (h : tok.token = .kwReturn) (hts : headToken ts ≠ .semicolon) :
    Accepts (parseStmtWith expr stmt n) r (tok :: ts) s rest ↔
      Accepts (parseReturned expr n >>= fun exprs => ended (.ret exprs)) r ts s rest := by
  unfold parseStmtWith
  rw [accepts_peek]
  dsimp only [headToken]
  rw [h]
  exact accepts_advance.trans (accepts_eat_miss hts)

theorem accepts_letStmt {name assign : Tok} {x : String} (h : tok.token = .kwLet) (hname : name.token = .ident x)
    (hassign : assign.token = .assign) :
    Accepts (parseStmtWith expr stmt n) r (tok :: name :: assign :: ts) s rest ↔
      Accepts (expr >>= fun e => ended (.letIn x none e)) r ts s rest := by
  unfold parseStmtWith
  rw [accepts_peek]
  dsimp only [headToken]
  rw [h]
  refine accepts_advance.trans ((accepts_expectIdent hname).trans ?_)
  unfold parseAnnotation
  rw [bind_assoc, accepts_eat_miss (by rw [headToken, hassign]; exact nofun), if_neg Bool.false_ne_true,
    pure_bind]
  exact accepts_expect hassign

end Statement

/-- What `parse_assign_or_expr` makes an expression statement of. -/
def isNamed : Expr → Bool
  | .var _ | .call .. => true
  | e => isPath e

theorem isNamed_of_accepts {expr : P Expr} {n : ℕ} {r : Span} {toks rest : List Tok} {e : Expr}
    (h : Accepts (parseAssignOrExpr expr n) r toks (.expr e) rest) : isNamed e = true := by
  obtain ⟨name, mid, -, h⟩ := accepts_bind.mp h
  obtain ⟨lvalue, mid, -, h⟩ := accepts_bind.mp h
  rw [accepts_peek] at h
  have hassigned : ∀ assign : Expr → Stmt, (∀ a, .expr e ≠ assign a) →
      ¬ Accepts (advance >>= fun _ => parseAssigned expr assign) r mid (.expr e) rest := by
    intro assign hne h
    obtain ⟨_, _, _, h⟩ := accepts_bind.mp h
    obtain ⟨a, _, _, h⟩ := accepts_bind.mp h
    exact hne a (of_accepts_ended h).2
  split at h
  iterate 5 exact absurd h (hassigned _ nofun)
  · split at h
    · obtain ⟨args, _, _, h⟩ := accepts_bind.mp h
      obtain rfl := Stmt.expr.inj (of_accepts_ended h).2
      rfl
    · obtain rfl := Stmt.expr.inj (of_accepts_ended h).2
      rfl
  · obtain ⟨_, _, _, h⟩ := accepts_bind.mp h
    obtain ⟨method, _, _, h⟩ := accepts_bind.mp h
    obtain ⟨args, _, _, h⟩ := accepts_bind.mp h
    obtain ⟨e', _, hpath, h⟩ := accepts_bind.mp h
    obtain rfl := Stmt.expr.inj (of_accepts_ended h).2
    rw [pathStmt_eq] at hpath
    obtain ⟨e', he', hp⟩ | ⟨msg, hmsg⟩ := settled_pathExpr name method args
    · rw [he'] at hpath
      obtain ⟨rfl, -⟩ := accepts_pure.mp hpath
      cases e' <;> first | exact hp | rfl
    · rw [hmsg] at hpath
      exact absurd hpath not_accepts_err
  · obtain rfl := Stmt.expr.inj (of_accepts_ended h).2
    rfl

theorem isCompound_of_isNamed {e : Expr} (h : isNamed e = true) : isCompound e = false := by
  cases e <;> first | rfl | cases h

theorem builtin_of_not_mem {s : String} (h : s ∉ reserved) : builtin s = none ∨ builtin s = some (.var s) := by
  simp only [reserved, List.mem_cons, not_or] at h
  obtain ⟨h₁, h₂, h₃, h₄, h₅, h₆, h₇, -⟩ := h
  unfold builtin
  rw [if_neg h₁, if_neg h₂, if_neg h₃, if_neg h₄, if_neg h₅, if_neg h₆, if_neg h₇]
  split_ifs
  · exact .inr rfl
  · exact .inl rfl

theorem not_mem_reserved {s : String} (h : builtin s = none ∨ builtin s = some (.var s)) : s ∉ reserved := by
  intro hs
  simp only [reserved, List.mem_cons, List.not_mem_nil, or_false] at hs
  obtain rfl | rfl | rfl | rfl | rfl | rfl | rfl := hs
  all_goals exact absurd h (by unfold builtin; simp)

theorem accepts_nameStmt {expr : P Expr} {n : ℕ} {r : Span} {tok semi : Tok} {suf : List Tok} {name : String}
    (h : tok.token = .ident name) (hsemi : semi.token = .semicolon) :
    Accepts (parseAssignOrExpr expr n) r (tok :: semi :: suf) (.expr (.var name)) suf := by
  unfold parseAssignOrExpr parseLValue
  rw [accepts_expectIdent h, bind_assoc, accepts_eat_miss (by rw [headToken, hsemi]; exact nofun),
    if_neg Bool.false_ne_true, bind_assoc, accepts_eat_miss (by rw [headToken, hsemi]; exact nofun),
    if_neg Bool.false_ne_true, pure_bind, accepts_peek]
  dsimp only [headToken]
  rw [hsemi]
  exact (accepts_ended hsemi).mpr ⟨rfl, rfl⟩

theorem accepts_callStmt {expr : P Expr} {n : ℕ} {r : Span} {tok semi : Tok} {ts suf : List Tok} {name : String}
    (h : tok.token = .ident name) (hsemi : semi.token = .semicolon)
    (hts : headToken ts = .lParen) (hargs : Accepts (parseCallArgs expr n) r ts args (semi :: suf)) :
    Accepts (parseAssignOrExpr expr n) r (tok :: ts) (.expr (.call name args)) suf := by
  unfold parseAssignOrExpr parseLValue
  rw [accepts_expectIdent h, bind_assoc, accepts_eat_miss (by rw [hts]; exact nofun), if_neg Bool.false_ne_true,
    bind_assoc, accepts_eat_miss (by rw [hts]; exact nofun), if_neg Bool.false_ne_true,
    pure_bind, accepts_peek, hts]
  exact accepts_bind.mpr ⟨args, _, hargs, (accepts_ended hsemi).mpr ⟨rfl, rfl⟩⟩

theorem accepts_pathStmt {expr : P Expr} {n : ℕ} {r : Span} {tok cc m semi : Tok} {ts suf : List Tok}
    {name method : String} {e : Expr} (h : tok.token = .ident name) (hcc : cc.token = .colonColon)
    (hm : m.token = .ident method) (hsemi : semi.token = .semicolon)
    (hargs : Accepts (parseCallArgs expr n) r ts args (semi :: suf)) (he : pathExpr name method args = pure e) :
    Accepts (parseAssignOrExpr expr n) r (tok :: cc :: m :: ts) (.expr e) suf := by
  unfold parseAssignOrExpr parseLValue
  rw [accepts_expectIdent h, bind_assoc, accepts_eat_miss (by rw [headToken, hcc]; exact nofun),
    if_neg Bool.false_ne_true, bind_assoc, accepts_eat_miss (by rw [headToken, hcc]; exact nofun),
    if_neg Bool.false_ne_true, pure_bind, accepts_peek]
  dsimp only [headToken]
  rw [hcc]
  refine accepts_advance.mpr ((accepts_expectIdent hm).mpr (accepts_bind.mpr ⟨args, _, hargs, ?_⟩))
  rw [pathStmt_eq, he, pure_bind]
  exact (accepts_ended hsemi).mpr ⟨rfl, rfl⟩

section Words
variable {n : ℕ} {r : Span} {tok : Tok} {ts : List Tok} {name : String} {e : Expr}

/-- After a leading identifier, the word is the expression, or an operator carries it on. -/
theorem word_of_accepts (h : Accepts (parseExprN (n + 1)) r (tok :: ts) e []) (hname : tok.token = .ident name) :
    ∃ e₀ mid, Accepts (parseWord (parseExprN n) n name) r ts e₀ mid ∧
      ((e = e₀ ∧ mid = []) ∨ (isCompound e = true ∧ continues (headToken mid) = true)) := by
  have hbang : headToken (tok :: ts) ≠ .bang := by rw [headToken, hname]; exact nofun
  obtain ⟨e₀, mid, hbase, hcase⟩ := reads_parseExprN n r _ e [] hbang h
  unfold parsePrimaryBase at hbase
  rw [accepts_peek] at hbase
  dsimp only [headToken] at hbase
  rw [hname] at hbase
  exact ⟨e₀, mid, accepts_advance.mp hbase, hcase.imp (And.imp_right Eq.symm) id⟩

theorem accepts_pathExpr {ns method : String} {toks rest : List Tok}
    (h : Accepts (pathExpr ns method args) r toks e rest) : pathExpr ns method args = pure e ∧ rest = toks := by
  obtain ⟨e', he, -⟩ | ⟨msg, hmsg⟩ := settled_pathExpr ns method args
  · rw [he] at h
    obtain ⟨rfl, rfl⟩ := accepts_pure.mp h
    exact ⟨he, rfl⟩
  · rw [hmsg] at h
    exact absurd h not_accepts_err

/-- What a word is, by what follows it: nothing is taken, or a group, or a path with a group. -/
theorem accepts_parseWord (h : Accepts (parseWord (parseExprN n) n name) r ts e mid) :
    (mid = ts ∧ (builtin name = some e ∨ (builtin name = none ∧ e = .var name))) ∨
    (name = "hash" ∧ headToken ts = .lParen ∧ ∃ inner, e = .hash inner) ∨
    (name ≠ "hash" ∧ headToken ts = .lParen ∧ ∃ args, e = .call name args ∧
      Accepts (parseCallArgs (parseExprN n) n) r ts args mid) ∨
    ∃ cc m ts' method args, ts = cc :: m :: ts' ∧ cc.token = .colonColon ∧ m.token = .ident method ∧
      Accepts (parseCallArgs (parseExprN n) n) r ts' args mid ∧ pathExpr name method args = pure e := by
  unfold parseWord at h
  cases hb : builtin name with
  | some e' =>
    rw [hb] at h
    obtain ⟨rfl, rfl⟩ := accepts_pure.mp h
    exact .inl ⟨rfl, .inl rfl⟩
  | none =>
    rw [hb] at h
    dsimp only at h
    split_ifs at h with hhash hpath
    · have hopen : headToken ts = .lParen := head_of_expect h
      obtain ⟨_, _, _, h⟩ := accepts_bind.mp h
      obtain ⟨inner, _, _, h⟩ := accepts_bind.mp h
      obtain ⟨_, _, _, h⟩ := accepts_bind.mp h
      exact .inr (.inl ⟨hhash, hopen, inner, (accepts_pure.mp h).1.symm⟩)
    · have hcc : headToken ts = .colonColon := head_of_expect h
      cases ts with
      | nil => cases hcc
      | cons cc ts =>
        have hident := (accepts_expect hcc).mp h
        obtain ⟨method, m, ts', rfl, hm⟩ := head_of_expectIdent hident
        have hcall := (accepts_expectIdent hm).mp hident
        obtain ⟨args, mid', hargs, hpath⟩ := accepts_bind.mp hcall
        obtain ⟨he, rfl⟩ := accepts_pathExpr hpath
        exact .inr (.inr (.inr ⟨cc, m, ts', method, args, rfl, hcc, hm, hargs, he⟩))
    · rw [accepts_peek] at h
      split_ifs at h with hopen
      · obtain ⟨args, mid', hargs, he⟩ := accepts_bind.mp h
        obtain ⟨rfl, rfl⟩ := accepts_pure.mp he
        exact .inr (.inr (.inl ⟨hhash, hopen, args, rfl, hargs⟩))
      · obtain ⟨rfl, rfl⟩ := accepts_pure.mp h
        exact .inl ⟨rfl, .inr ⟨rfl, rfl⟩⟩

theorem keeps_self (n : ℕ) : Keeps (parseExprN n) (parseExprN n) := keeps_parseExprN le_rfl

theorem isGroup_of_callArgs (h : Accepts (parseCallArgs (parseExprN n) n) r ts args []) :
    IsGroup ts := by
  obtain ⟨t, ts', rfl, ht, hafter⟩ := group_of_callArgs (keeps_self n) h
  exact ⟨ht, hafter⟩

theorem nil_of_isGroup (hgroup : IsGroup ts)
    (h : Accepts (parseCallArgs (parseExprN n) n) r ts args mid) : mid = [] := by
  obtain ⟨t, ts', rfl, -, hafter⟩ := group_of_callArgs (keeps_self n) h
  exact Option.some.inj (hafter.symm.trans hgroup.2)

theorem shaped_of_stmt {expr : P Expr} {m : ℕ} {r' : Span} {semi : Tok} {rest suf : List Tok}
    (h : Accepts (parseExprN (n + 1)) r (tok :: ts) e []) (hname : tok.token = .ident name)
    (hsemi : semi.token = .semicolon)
    (hstmt : Accepts (parseAssignOrExpr expr m) r' (tok :: (ts ++ semi :: suf)) (.expr e) rest) :
    NameShaped name ts := by
  have hnamed : isNamed e = true := isNamed_of_accepts hstmt
  obtain ⟨e₀, mid, hword, ⟨rfl, rfl⟩ | ⟨hcompound, -⟩⟩ := word_of_accepts h hname
  · obtain ⟨rfl, hvar⟩ | ⟨-, -, inner, rfl⟩ | ⟨hhash, hopen, args, rfl, hargs⟩ |
      ⟨cc, m, ts', method, args, rfl, hcc, hm, hargs, hpath⟩ := accepts_parseWord hword
    · -- the statement is a variable, and so is the word
      obtain ⟨he, -⟩ := (accepts_nameStmt hname hsemi).det hstmt
      have heq : e = .var name := (Stmt.expr.inj he).symm
      exact not_mem_reserved (hvar.elim (fun hb => .inr (hb.trans (congrArg some heq))) fun hb => .inl hb.1)
    · cases hnamed
    · cases ts with
      | nil => cases hopen
      | cons t ts => exact .inl ⟨isGroup_of_callArgs hargs, hhash⟩
    · exact .inr ⟨hcc, isGroup_of_callArgs hargs⟩
  · rw [isCompound_of_isNamed hnamed] at hcompound
    cases hcompound

theorem stmt_of_shaped {m : ℕ} {r' : Span} {semi : Tok} {suf : List Tok} (hnm : n ≤ m)
    (h : Accepts (parseExprN (n + 1)) r (tok :: ts) e []) (hname : tok.token = .ident name)
    (hsemi : semi.token = .semicolon) (hshape : NameShaped name ts) :
    Accepts (parseAssignOrExpr (parseExprN m) m) r' (tok :: (ts ++ semi :: suf)) (.expr e) suf := by
  obtain ⟨e₀, mid, hword, hcase⟩ := word_of_accepts h hname
  have hcarry : ∀ {ts' args}, Accepts (parseCallArgs (parseExprN n) n) r ts' args [] →
      Accepts (parseCallArgs (parseExprN m) m) r' (ts' ++ semi :: suf) args (semi :: suf) := by
    intro ts' args hargs
    obtain ⟨-, -, -, hq⟩ := keeps_parseCallArgs (keeps_parseExprN hnm) hnm 0 ts' r r' args [] hargs
    exact hq (semi :: suf) fun _ => .inr hsemi
  have hfull : mid = [] → e = e₀ := by
    rintro rfl
    obtain ⟨rfl, -⟩ | ⟨-, hcont⟩ := hcase
    · rfl
    · cases hcont
  obtain ⟨rfl, hvar⟩ | ⟨hhash, hopen, -⟩ | ⟨-, hopen, args, rfl, hargs⟩ |
    ⟨cc, m', ts', method, args, rfl, hcc, hm', hargs, hpath⟩ := accepts_parseWord hword
  · cases mid with
    | nil =>
      rw [hfull rfl]
      have he₀ : e₀ = .var name := by
        obtain hb | ⟨-, he⟩ := hvar
        · obtain hnone | hsome := builtin_of_not_mem hshape
          · cases hnone.symm.trans hb
          · exact Option.some.inj (hb.symm.trans hsome)
        · exact he
      rw [he₀]
      exact accepts_nameStmt hname hsemi
    | cons t ts =>
      -- the word stops before a bracket or `::`, where no expression goes on
      obtain ⟨-, hnil⟩ | ⟨-, hcont⟩ := hcase
      · cases hnil
      · obtain ⟨⟨ht, -⟩, -⟩ | ⟨ht, -⟩ := hshape
        · rw [headToken, ht] at hcont
          cases hcont
        · rw [headToken, ht] at hcont
          cases hcont
  · cases ts with
    | nil => cases hopen
    | cons t ts =>
      obtain ⟨-, hne⟩ | ⟨ht, -⟩ := hshape
      · exact absurd hhash hne
      · cases ht.symm.trans hopen
  · cases ts with
    | nil => cases hopen
    | cons t ts =>
      obtain ⟨hgroup, -⟩ | ⟨ht, -⟩ := hshape
      · obtain rfl : mid = [] := nil_of_isGroup hgroup hargs
        rw [hfull rfl]
        exact accepts_callStmt hname hsemi hopen (hcarry hargs)
      · cases ht.symm.trans hopen
  · obtain ⟨⟨ht, -⟩, -⟩ | ⟨-, hgroup⟩ := hshape
    · cases ht.symm.trans hcc
    · obtain rfl : mid = [] := nil_of_isGroup hgroup hargs
      rw [hfull rfl]
      exact accepts_pathStmt hname hcc hm' hsemi (hcarry hargs) hpath

end Words

section Returns
variable {n m : ℕ} {r r' : Span} {toks suf : List Tok} {semi : Tok} {e : Expr}

theorem accepts_ended_of_accepts (hnm : n ≤ m) (h : Accepts (parseExprN n) r toks e [])
    (hsemi : semi.token = .semicolon) (f : Expr → Stmt) :
    Accepts (parseExprN m >>= fun e => ended (f e)) r' (toks ++ semi :: suf) (f e) suf := by
  obtain ⟨-, -, -, hq⟩ := keeps_parseExprN hnm 0 toks r r' e [] h
  exact accepts_bind.mpr ⟨e, semi :: suf, hq (semi :: suf) fun _ => .inr hsemi,
    (accepts_ended hsemi).mpr ⟨rfl, rfl⟩⟩

theorem headToken_append {toks suf : List Tok} (h : toks ≠ []) : headToken (toks ++ suf) = headToken toks := by
  cases toks with
  | nil => exact absurd rfl h
  | cons t ts => rfl

theorem ne_nil_of_accepts (h : Accepts (parseExprN n) r toks e []) : toks ≠ [] := by
  rintro rfl
  exact Bool.false_ne_true (startsExpr_of_accepts h)

theorem accepts_one {t close : Tok} {ts : List Tok} (hnm : n < m) (ht : t.token = .lParen)
    (hclose : close.token = .rParen) (h : Accepts (parseExprN n) r ts e (close :: mid)) (suf : List Tok) :
    Accepts (parseCallArgs (parseExprN m) m) r' (t :: (ts ++ suf)) [e] (mid ++ suf) := by
  obtain ⟨k, rfl⟩ : ∃ k, m = k + 1 := ⟨m - 1, by omega⟩
  have hstart : startsExpr (headToken ts) = true := startsExpr_of_accepts h
  have hne : ts ≠ [] := by
    rintro rfl
    cases hstart
  have hopens : closesList (headToken (ts ++ suf)) = false := by
    rw [headToken_append hne]
    refine decide_eq_false ?_
    rintro (hc | hc)
    · rw [hc] at hstart
      cases hstart
    · rw [hc] at hstart
      cases hstart
  obtain ⟨-, -, -, hq⟩ := keeps_parseExprN hnm.le 0 ts r r' e (close :: mid) h
  have hlist : Accepts (commaList closesList (parseExprN (k + 1)) (k + 1)) r' (ts ++ suf) [e]
      (close :: mid ++ suf) := by
    unfold commaList
    rw [accepts_peek, hopens, if_neg Bool.false_ne_true]
    refine accepts_bind.mpr ⟨e, close :: mid ++ suf, hq suf nofun, ?_⟩
    rw [accepts_eat_miss (by rw [List.cons_append, headToken, hclose]; exact nofun)]
    exact accepts_pure.mpr ⟨rfl, rfl⟩
  refine (accepts_expect ht).mpr (accepts_bind.mpr ⟨[e], _, hlist, ?_⟩)
  exact (accepts_expect hclose).mpr (accepts_pure.mpr ⟨rfl, rfl⟩)

theorem ret_iff (hnm : n + 1 ≤ m) (h : Accepts (parseExprN (n + 1)) r toks e [])
    (hsemi : semi.token = .semicolon) :
    Accepts (parseReturned (parseExprN m) m >>= fun exprs => ended (.ret exprs)) r' (toks ++ semi :: suf)
      (.ret [e]) suf ↔ ReturnShaped toks := by
  have hne : toks ≠ [] := ne_nil_of_accepts h
  have hhead : headToken (toks ++ semi :: suf) = headToken toks := headToken_append hne
  unfold parseReturned
  rw [bind_assoc, accepts_peek, hhead]
  by_cases hopen : headToken toks = .lParen
  · rw [if_pos hopen]
    have hbang : headToken toks ≠ .bang := by rw [hopen]; exact nofun
    obtain ⟨e₀, mid, hbase, hcase⟩ := reads_parseExprN n r toks e [] hbang h
    cases toks with
    | nil => exact absurd rfl hne
    | cons t ts =>
      unfold parsePrimaryBase at hbase
      rw [accepts_peek, hopen] at hbase
      obtain ⟨e₁, mid₁, hinner, hclose⟩ := accepts_bind.mp (accepts_advance.mp hbase)
      have hmid₁ : headToken mid₁ = .rParen := head_of_expect hclose
      cases mid₁ with
      | nil => cases hmid₁
      | cons close mid₁ =>
        have hdone := (accepts_expect hmid₁).mp hclose
        obtain ⟨rfl, rfl⟩ := accepts_pure.mp hdone
        obtain ⟨c, rfl, hc, -⟩ := keeps_self n 0 ts r r e₁ (close :: mid₁) hinner
        have hafter : afterGroup 0 (c ++ close :: mid₁) = some mid₁ := by rw [hc, afterGroup_close hmid₁]
        constructor
        · intro hret _
          obtain ⟨as, rest, has, hend⟩ := accepts_bind.mp hret
          obtain ⟨-, rfl⟩ := (accepts_one hnm hopen hmid₁ hinner (semi :: suf)).det has
          refine ⟨hopen, hafter.trans (congrArg some ?_)⟩
          obtain ⟨-, hnil⟩ | ⟨-, hcont⟩ := hcase
          · exact hnil.symm
          · by_contra hmid
            have hsemi' := (of_accepts_ended hend).1
            rw [headToken_append hmid] at hsemi'
            rw [hsemi'] at hcont
            cases hcont
        · intro hshape
          obtain rfl : mid₁ = [] := Option.some.inj (hafter.symm.trans (hshape hopen).2)
          obtain ⟨rfl, -⟩ | ⟨-, hcont⟩ := hcase
          · exact accepts_bind.mpr ⟨[e], _, accepts_one hnm hopen hmid₁ hinner _,
              (accepts_ended hsemi).mpr ⟨rfl, rfl⟩⟩
          · cases hcont
  · rw [if_neg hopen, bind_assoc]
    refine iff_of_true ?_ fun hopen' => absurd hopen' hopen
    simp only [pure_bind]
    exact accepts_ended_of_accepts hnm h hsemi fun e => .ret [e]

end Returns

/-- The tokens that start a statement which is no expression and no assignment. -/
def statementKeyword : Token → Bool
  | .kwLet | .require | .revert | .kwReturn | .emit | .kwIf | .kwWhile | .kwFor | .loop | .kwBreak
  | .kwContinue => true
  | _ => false

theorem statementKeyword_of_accepts {n : ℕ} {r : Span} {toks rest : List Tok} {e : Expr}
    (h : Accepts (parseExprN n) r toks e rest) : statementKeyword (headToken toks) = false := by
  have hstart : startsExpr (headToken toks) = true := startsExpr_of_accepts h
  unfold startsExpr at hstart
  split at hstart
  case h_7 => cases hstart
  all_goals next ht => rw [ht]; rfl

/-! ## The condition -/

theorem accepts_get {f : List Tok → P α} {r : Span} {toks rest : List Tok} {a : α} :
    Accepts ((get : P (List Tok)) >>= f) r toks a rest ↔ Accepts (f toks) r toks a rest := by
  unfold Accepts
  rw [outcome_get]

theorem accepts_parseExpr {r : Span} {toks rest : List Tok} {e : Expr} :
    Accepts parseExpr r toks e rest ↔ Accepts (parseExprN (toks.length + 1)) r toks e rest := by
  unfold parseExpr
  exact accepts_get

theorem parseStmtN_succ (n : ℕ) :
    parseStmtN (n + 1) = parseStmtWith (parseExprN (n + 1)) (parseStmtN n) (n + 1) := rfl

theorem accepts_parseStmt {r : Span} {toks rest : List Tok} {s : Stmt} :
    Accepts parseStmt r toks s rest ↔
      Accepts (parseStmtWith (parseExprN (toks.length + 1)) (parseStmtN toks.length) (toks.length + 1)) r toks s
        rest := by
  unfold parseStmt
  rw [accepts_get, parseStmtN_succ]

section Agreement
variable {n : ℕ} {r r' : Span} {toks suf : List Tok} {semi : Tok} {e : Expr}

/-- As a statement, an expression keeps its value just if what it starts with is all of it. -/
theorem stmt_iff {stmt : P Stmt} {m : ℕ} (hnm : n + 1 ≤ m) (h : Accepts (parseExprN (n + 1)) r toks e [])
    (hsemi : semi.token = .semicolon) :
    Accepts (parseStmtWith (parseExprN m) stmt m) r' (toks ++ semi :: suf) (.expr e) suf ↔
      StatementShaped toks := by
  have hstart : startsExpr (headToken toks) = true := startsExpr_of_accepts h
  cases toks with
  | nil => cases hstart
  | cons tok ts =>
    by_cases hident : ∃ name, tok.token = .ident name
    · obtain ⟨name, hname⟩ := hident
      have hshape : StatementShaped (tok :: ts) ↔ NameShaped name ts := by
        unfold StatementShaped
        dsimp only
        rw [hname]
      rw [hshape]
      refine (accepts_identStmt hname).trans ⟨fun hstmt => ?_, fun hshape => ?_⟩
      · exact shaped_of_stmt h hname hsemi hstmt
      · exact stmt_of_shaped (Nat.le_of_succ_le hnm) h hname hsemi hshape
    · have hno : ∀ name, tok.token ≠ .ident name := fun name hname => hident ⟨name, hname⟩
      refine iff_of_true ?_ ?_
      · exact (accepts_exprStmt hstart hno).mpr (accepts_ended_of_accepts hnm h hsemi .expr)
      · unfold StatementShaped
        dsimp only
        split
        next name hname => exact absurd hname (hno name)
        next => trivial

end Agreement

/-- An expression is the same in all three positions just if a leading identifier is all of it up to
arguments, and a leading bracket closes at its end. -/
theorem agrees_iff {eof : Span} {toks : List Tok} {e : Expr} (h : Accepts parseExpr eof toks e []) :
    Agrees toks e ↔ StatementShaped toks ∧ ReturnShaped toks := by
  rw [accepts_parseExpr] at h
  have hstart : startsExpr (headToken toks) = true := startsExpr_of_accepts h
  have hhead : ∀ suf, headToken (toks ++ suf) ≠ .semicolon := by
    intro suf hsemi
    rw [headToken_append (ne_nil_of_accepts h)] at hsemi
    rw [hsemi] at hstart
    cases hstart
  have hfuel : ∀ semi suf, toks.length + 1 ≤ (toks ++ semi :: suf : List Tok).length + 1 := by
    intro semi suf
    rw [List.length_append]
    omega
  constructor
  · intro hagrees
    refine ⟨?_, ?_⟩
    · have hstmt := accepts_parseStmt.mp (hagrees.stmt eof ⟨.semicolon, eof⟩ [] rfl)
      exact (stmt_iff (hfuel _ _) h rfl).mp hstmt
    · have hret := accepts_parseStmt.mp (hagrees.ret eof ⟨.kwReturn, eof⟩ ⟨.semicolon, eof⟩ [] rfl rfl)
      rw [accepts_retStmt rfl (hhead _)] at hret
      exact (ret_iff (Nat.le_succ_of_le (hfuel _ _)) h rfl).mp hret
  · rintro ⟨hstmt, hret⟩
    constructor
    · intro eof' semi suf hsemi
      exact accepts_parseStmt.mpr ((stmt_iff (hfuel _ _) h hsemi).mpr hstmt)
    · intro eof' kw semi suf hkw hsemi
      refine accepts_parseStmt.mpr ((accepts_retStmt hkw (hhead _)).mpr ?_)
      exact (ret_iff (Nat.le_succ_of_le (hfuel _ _)) h hsemi).mpr hret
    · intro eof' kw name assign x semi suf hkw hname hassign hsemi
      refine accepts_parseStmt.mpr ((accepts_letStmt hkw hname hassign).mpr ?_)
      refine accepts_ended_of_accepts ?_ h hsemi (.letIn x none)
      exact (hfuel semi suf).trans (Nat.le_add_right _ 3)

/-- `f(a)` -/
theorem agrees_call : Agrees [⟨.ident "f", ⟨1, 1⟩⟩, ⟨.lParen, ⟨1, 2⟩⟩, ⟨.ident "a", ⟨1, 3⟩⟩, ⟨.rParen, ⟨1, 4⟩⟩]
    (.call "f" [.var "a"]) := by
  refine (@agrees_iff ⟨1, 5⟩ _ _ ?_).mpr ⟨.inl ⟨⟨rfl, rfl⟩, by decide⟩, nofun⟩
  rfl

/-- `a[1]` is an index, and as a statement the variable `a`. -/
theorem index_disagrees : ¬ ∀ eof toks e, Accepts parseExpr eof toks e [] →
    statementKeyword (headToken toks) = false → Agrees toks e := by
  intro h
  have hagrees : Agrees [⟨.ident "a", ⟨1, 1⟩⟩, ⟨.lBracket, ⟨1, 2⟩⟩, ⟨.int 1, ⟨1, 3⟩⟩, ⟨.rBracket, ⟨1, 4⟩⟩]
      (.index (.var "a") (.int 1)) := h ⟨1, 5⟩ _ _ rfl rfl
  have hvar : Accepts parseStmt ⟨1, 6⟩ [⟨.ident "a", ⟨1, 1⟩⟩, ⟨.lBracket, ⟨1, 2⟩⟩, ⟨.int 1, ⟨1, 3⟩⟩,
      ⟨.rBracket, ⟨1, 4⟩⟩, ⟨.semicolon, ⟨1, 5⟩⟩] (.expr (.var "a")) [] := rfl
  exact nomatch (hagrees.stmt ⟨1, 6⟩ ⟨.semicolon, ⟨1, 5⟩⟩ [] rfl).det hvar

end TruthLinked.Compiler.Positions
