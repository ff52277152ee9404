import TruthLinked.Compiler.Parser

/-! # The parser has fuel enough

The loops and the recursion of the parser take a token every time round, so that more fuel than tokens never
runs out (`Spends`). The levels of the expressions are taken over any parser for the brackets further in. -/

namespace TruthLinked.Compiler.ParserFuel

open Compiler.Ast Compiler.Parser Lib.Parsing

variable {p : P Expr} {method : String} {args : List Expr}

variable {α β : Type}

/-! ## Steps -/

theorem spendsAt_err (k : ℕ) (msg : Msg) (toks : List Tok) : SpendsAt k (err msg : P α) toks := by
  intro r
  cases toks with
  | nil => exact ⟨nofun, fun _ _ h => nomatch (show some (Except.error _) = some (.ok _) from h)⟩
  | cons tok ts => exact ⟨nofun, fun _ _ h => nomatch (show some (Except.error _) = some (.ok _) from h)⟩

theorem spends_err (k n : ℕ) (msg : Msg) : Spends k n (err msg : P α) := fun toks _ => spendsAt_err k msg toks

theorem spends_peek {k n : ℕ} {f : Token → P α} (hnil : SpendsAt k (f .eof) [])
    (hcons : ∀ tok ts, ts.length < n → SpendsAt k (f tok.token) (tok :: ts)) : Spends k (n + 1) (peek >>= f) := by
  intro toks hlen
  cases toks with
  | nil => exact hnil
  | cons tok ts => exact hcons tok ts (Nat.lt_of_succ_lt_succ hlen)

theorem spends_look {k n : ℕ} {f : Token → P α} (h : ∀ t, Spends k n (f t)) : Spends k n (peek >>= f) :=
  fun toks hlen => h (headToken toks) toks hlen

theorem spendsAt_advance {n : ℕ} {f : Unit → P α} {tok : Tok} {ts : List Tok} (h : Spends 0 n (f ()))
    (hts : ts.length < n) : SpendsAt 1 (advance >>= f) (tok :: ts) := by
  intro r
  refine ⟨(h ts hts r).1, fun a rest ha => ?_⟩
  have hrest : rest.length ≤ ts.length := (h ts hts r).2 a rest ha
  exact Nat.succ_le_succ hrest

theorem passes_advance (n : ℕ) : Spends 0 n advance := by
  refine fun toks _ r => ⟨nofun, fun a rest h => ?_⟩
  have hrest : toks.tail = rest := congrArg Prod.snd (Except.ok.inj (Option.some.inj h))
  rw [← hrest, List.length_tail]
  exact Nat.sub_le _ _

theorem passes_expect (n : ℕ) (t : Token) : Spends 0 n (expect t) := by
  refine spends_look fun got => ?_
  split_ifs
  · exact passes_advance n
  · exact spends_err 0 n _

theorem spends_expectIdent (n : ℕ) : Spends 1 (n + 1) expectIdent := by
  refine spends_peek (spendsAt_err 1 _ _) fun tok ts hts => ?_
  split
  · exact spendsAt_advance (spends_pure _ _) hts
  · exact spendsAt_err 1 _ _

theorem passes_expectIdent (n : ℕ) : Spends 0 n expectIdent := (spends_expectIdent n).free.down

theorem passes_eatMap (n : ℕ) (f : Token → Option β) : Spends 0 n (eatMap f) := by
  refine spends_look fun t => ?_
  split
  · exact (passes_advance n).next fun _ => spends_pure n _
  · exact spends_pure n _

theorem passes_eat (n : ℕ) (t : Token) : Spends 0 n (eat t) := (passes_eatMap n _).map _

theorem passes_commaList (stops : Token → Bool) {item : P α} : ∀ {n : ℕ}, Spends 1 n item →
    Spends 0 n (commaList stops item n)
  | 0, _ => fun _ hlen => absurd hlen (Nat.not_lt_zero _)
  | n + 1, hitem => by
    refine spends_look fun t => ?_
    split_ifs
    · exact spends_pure _ _
    · refine (hitem.first fun a => (passes_eat n _).next fun more => ?_).free
      cases more with
      | true => exact (passes_commaList stops hitem.down).next fun _ => spends_pure n _
      | false => exact spends_pure n _

/-! ## Types and parameters -/

theorem spends_parseTypeN : ∀ n, Spends 1 n (parseTypeN n)
  | 0 => fun _ hlen => absurd hlen (Nat.not_lt_zero _)
  | n + 1 => by
    have ih : Spends 0 n (parseTypeN n) := (spends_parseTypeN n).free
    refine spends_peek (spendsAt_err 1 _ _) fun tok ts hts => ?_
    split
    iterate 5 exact spendsAt_advance (spends_pure n _) hts
    · refine spendsAt_advance ((passes_expect n _).next fun _ => ih.next fun _ => ?_) hts
      exact (passes_expect n _).next fun _ => ih.next fun _ => (passes_expect n _).next fun _ => spends_pure n _
    · exact spendsAt_advance (ih.next fun _ => (passes_expect n _).next fun _ => spends_pure n _) hts
    · exact spendsAt_err 1 _ _

theorem spends_parseParam (n : ℕ) : Spends 1 n (parseParam n) :=
  (passes_eat n _).next fun _ => by
    cases n with
    | zero => exact fun _ hlen => absurd hlen (Nat.not_lt_zero _)
    | succ n =>
      refine (spends_expectIdent n).first fun _ => (passes_expect n _).next fun _ => ?_
      exact (spends_parseTypeN (n + 1)).down.free.next fun _ => spends_pure n _

theorem passes_parseParams (n : ℕ) : Spends 0 n (parseParams n) :=
  (passes_expect n _).next fun _ => (passes_commaList _ (spends_parseParam n)).next fun _ =>
    (passes_expect n _).next fun _ => spends_pure n _

/-! ## Expressions -/

/-- The calls that a path names. -/
def isPath : Expr → Bool
  | .tokenBalance .. | .tokenTransfer .. | .tokenMint .. | .tokenBurn .. | .accordRequest
    .. | .accordRead .. => true
  | _ => false

/-- The parser is done without reading: it returns a call of a path, or rejects. -/
def Settled (p : P Expr) : Prop := (∃ e, p = pure e ∧ isPath e) ∨ ∃ msg, p = err msg

theorem settled_accordCall {ns : String} (h : accordCall ns method args = some p) : Settled p := by
  unfold accordCall at h
  split_ifs at h
  · obtain rfl := Option.some.inj h
    split
    · exact .inl ⟨_, rfl, rfl⟩
    · exact .inr ⟨_, rfl⟩
  · obtain rfl := Option.some.inj h
    split
    · exact .inl ⟨_, rfl, rfl⟩
    · exact .inr ⟨_, rfl⟩

theorem settled_tokenCall (h : tokenCall method args = some p) : Settled p := by
  unfold tokenCall at h
  split_ifs at h
  · obtain rfl := Option.some.inj h
    split
    · exact .inl ⟨_, rfl, rfl⟩
    · exact .inr ⟨_, rfl⟩
  · obtain rfl := Option.some.inj h
    split
    · exact .inl ⟨_, rfl, rfl⟩
    · exact .inr ⟨_, rfl⟩
  · obtain rfl := Option.some.inj h
    split
    · exact .inl ⟨_, rfl, rfl⟩
    · exact .inr ⟨_, rfl⟩
  · obtain rfl := Option.some.inj h
    split
    · exact .inl ⟨_, rfl, rfl⟩
    · exact .inr ⟨_, rfl⟩

theorem accordCall_eq_none {ns : String}
    (h : tokenCall method args = some p) : accordCall ns method args = none := by
  unfold tokenCall at h
  unfold accordCall
  split_ifs at h with h₁ h₂ h₃ h₄
  · simp [h₁]
  · simp [h₂]
  · simp [h₃]
  · simp [h₄]

theorem settled_pathExpr (ns method : String) (args : List Expr) : Settled (pathExpr ns method args) := by
  unfold pathExpr
  cases ha : accordCall ns method args with
  | some p => exact settled_accordCall ha
  | none =>
    cases ht : tokenCall method args with
    | some p => exact settled_tokenCall ht
    | none => exact .inr ⟨_, rfl⟩

theorem pathStmt_eq (ns method : String) (args : List Expr) :
    pathStmt ns method args = pathExpr ns method args := by
  unfold pathStmt pathExpr
  cases ht : tokenCall method args with
  | some p => rw [accordCall_eq_none ht]; rfl
  | none => rw [Option.none_or, Option.or_none]

theorem Settled.passes (h : Settled p) (n : ℕ) : Spends 0 n p := by
  obtain ⟨e, rfl, -⟩ | ⟨msg, rfl⟩ := h
  · exact spends_pure n e
  · exact spends_err 0 n msg

section Levels
variable {expr : P Expr} {n : ℕ} (hexpr : Spends 1 n expr)
include hexpr

theorem passes_parseCallArgs : Spends 0 n (parseCallArgs expr n) :=
  (passes_expect n _).next fun _ => (passes_commaList _ hexpr).next fun _ =>
    (passes_expect n _).next fun _ => spends_pure n _

theorem passes_parseWord (s : String) : Spends 0 n (parseWord expr n s) := by
  unfold parseWord
  cases builtin s with
  | some e => exact spends_pure n e
  | none =>
    dsimp only
    split_ifs
    · refine (passes_expect n _).next fun _ => hexpr.free.next fun _ => ?_
      exact (passes_expect n _).next fun _ => spends_pure n _
    · refine (passes_expect n _).next fun _ => (passes_expectIdent n).next fun _ => ?_
      exact (passes_parseCallArgs hexpr).next fun _ => (settled_pathExpr ..).passes n
    · refine spends_look fun t => ?_
      split_ifs
      · exact (passes_parseCallArgs hexpr).next fun _ => spends_pure n _
      · exact spends_pure n _

theorem spends_parsePrimaryBase : Spends 1 (n + 1) (parsePrimaryBase expr n) := by
  refine spends_peek (spendsAt_err 1 _ _) fun tok ts hts => ?_
  split
  · exact spendsAt_advance (spends_pure n _) hts
  · exact spendsAt_advance (spends_pure n _) hts
  · exact spendsAt_advance (hexpr.free.next fun _ => (passes_expect n _).next fun _ => spends_pure n _) hts
  · refine spendsAt_advance ((passes_expectIdent n).next fun _ => (passes_expect n _).next fun _ => ?_) hts
    refine (passes_expectIdent n).next fun _ => (passes_parseCallArgs hexpr).next fun _ => ?_
    refine (passes_eat n _).next fun typed => ?_
    cases typed with
    | true => exact (spends_parseTypeN n).free.next fun _ => spends_pure n _
    | false => exact spends_pure n _
  · exact spendsAt_advance (passes_parseWord hexpr _) hts
  · exact spendsAt_err 1 _ _

omit hexpr in
theorem passes_postfixLoop : ∀ {n : ℕ}, Spends 1 n expr → ∀ e, Spends 0 n (postfixLoop expr n e)
  | 0, _, _ => fun _ hlen => absurd hlen (Nat.not_lt_zero _)
  | n + 1, hexpr, e => by
    refine (passes_eat _ _).next fun bracket => ?_
    cases bracket with
    | true =>
      refine (hexpr.first fun _ => (passes_expect n _).next fun _ => ?_).free
      exact passes_postfixLoop hexpr.down _
    | false =>
      refine (passes_eat _ _).next fun dot => ?_
      cases dot with
      | true => exact ((spends_expectIdent n).first fun _ => passes_postfixLoop hexpr.down _).free
      | false => exact spends_pure _ e

theorem spends_parsePrimary : Spends 1 (n + 1) (parsePrimary expr n) :=
  (spends_parsePrimaryBase hexpr).first fun e => passes_postfixLoop hexpr e

theorem spends_parseUnary : Spends 1 (n + 1) (parseUnary expr n) :=
  (passes_eat _ _).next fun bang => by
    cases bang with
    | true => exact (spends_parsePrimary hexpr).first fun e => spends_pure n _
    | false => exact spends_parsePrimary hexpr

omit hexpr in
theorem passes_leftLoop (op : Token → Option BinOp) {operand : P Expr} : ∀ {n : ℕ}, Spends 1 n operand → ∀ lhs,
    Spends 0 n (leftLoop op operand n lhs)
  | 0, _, _ => fun _ hlen => absurd hlen (Nat.not_lt_zero _)
  | n + 1, hop, lhs => by
    refine (passes_eatMap _ op).next fun o => ?_
    cases o with
    | some o => exact (hop.first fun rhs => passes_leftLoop op hop.down _).free
    | none => exact spends_pure _ lhs

omit hexpr in
theorem spends_parseLeft (op : Token → Option BinOp) {operand : P Expr} {n : ℕ} (hop : Spends 1 (n + 1) operand) :
    Spends 1 (n + 1) (parseLeft op operand n) :=
  hop.first fun lhs => passes_leftLoop op hop.down lhs

theorem spends_parseAdd : Spends 1 (n + 1) (parseAdd expr n) :=
  spends_parseLeft addOp (spends_parseLeft mulOp (spends_parseUnary hexpr))

theorem spends_parseCmp : Spends 1 (n + 1) (parseCmp expr n) :=
  (spends_parseAdd hexpr).first fun lhs => (passes_eatMap n cmpOp).next fun o => by
    cases o with
    | some o => exact (spends_parseAdd hexpr).free.down.next fun rhs => spends_pure n _
    | none => exact spends_pure n lhs

theorem spends_parseLogicOr : Spends 1 (n + 1) (parseLogicOr expr n) :=
  spends_parseLeft _ (spends_parseLeft _ (spends_parseLeft _ (spends_parseLeft _ (spends_parseCmp hexpr))))

end Levels

/-- Fuel for more than the tokens is enough for an expression. -/
theorem spends_parseExprN : ∀ n, Spends 1 n (parseExprN n)
  | 0 => fun _ hlen => absurd hlen (Nat.not_lt_zero _)
  | n + 1 => spends_parseLogicOr (spends_parseExprN n)

/-! ## Statements -/

theorem passes_annotated {m n : ℕ} (h : m ≤ n) : Spends 0 m <| parseAnnotation n :=
  (passes_eat m _).next fun typed => by
    cases typed with
    | true => exact ((spends_parseTypeN n).mono (Nat.zero_le 1) h).next fun _ => spends_pure m _
    | false => exact spends_pure m _

theorem passes_ended (n : ℕ) (stmt : Stmt) : Spends 0 n (ended stmt) :=
  (passes_expect n _).next fun _ => spends_pure n stmt

section Statements
variable {expr : P Expr} {stmt : P Stmt} {n : ℕ} (hexpr : Spends 1 (n + 1) expr) (hstmt : Spends 1 n stmt)

theorem passes_blockLoop {stmt : P Stmt} : ∀ {m n : ℕ}, m ≤ n → Spends 1 m stmt → Spends 0 m (blockLoop stmt n)
  | 0, _, _, _ => fun _ hlen => absurd hlen (Nat.not_lt_zero _)
  | m + 1, n + 1, hmn, hstmt => by
    refine spends_look fun t => ?_
    split_ifs
    · exact spends_pure _ _
    · refine (hstmt.first fun s => ?_).free
      exact (passes_blockLoop (Nat.le_of_succ_le_succ hmn) hstmt.down).next fun _ => spends_pure m _

theorem passes_parseBlock {m n : ℕ} (hmn : m ≤ n) (hstmt : Spends 1 m stmt) : Spends 0 m (parseBlock stmt n) :=
  (passes_expect m _).next fun _ => (passes_blockLoop hmn hstmt).next fun _ =>
    (passes_expect m _).next fun _ => spends_pure m _

include hexpr

theorem passes_parseLValue (name : String) : Spends 0 (n + 1) (parseLValue expr name) := by
  refine (passes_eat _ _).next fun bracket => ?_
  cases bracket with
  | true => exact hexpr.free.next fun _ => (passes_expect _ _).next fun _ => spends_pure _ _
  | false =>
    refine (passes_eat _ _).next fun dot => ?_
    cases dot with
    | true => exact (passes_expectIdent _).next fun _ => spends_pure _ _
    | false => exact spends_pure _ _

theorem passes_parseAssigned (assign : Expr → Stmt) : Spends 0 (n + 1) (parseAssigned expr assign) :=
  hexpr.free.next fun _ => passes_ended _ _

theorem spends_parseAssignOrExpr : Spends 1 (n + 1) (parseAssignOrExpr expr (n + 1)) := by
  refine (spends_expectIdent n).first fun name => (passes_parseLValue hexpr name).down.next fun lvalue => ?_
  have hassigned : ∀ assign : Expr → Stmt, Spends 0 n (advance >>= fun _ => parseAssigned expr assign) :=
    fun assign => (passes_advance n).next fun _ => (passes_parseAssigned hexpr assign).down
  have hargs : Spends 0 n (parseCallArgs expr (n + 1)) := (passes_parseCallArgs hexpr).down
  refine spends_look fun t => ?_
  split
  iterate 5 exact hassigned _
  · split
    · exact hargs.next fun _ => passes_ended n _
    · exact passes_ended n _
  · refine (passes_advance n).next fun _ => (passes_expectIdent n).next fun method => hargs.next fun args => ?_
    rw [pathStmt_eq]
    exact ((settled_pathExpr ..).passes n).next fun e => passes_ended n _
  · exact passes_ended n _

theorem spends_parseEmitField : Spends 1 (n + 1) (parseEmitField expr) :=
  (spends_expectIdent n).first fun _ => (passes_eat n _).next fun colon => by
    cases colon with
    | true => exact hexpr.free.down.next fun e => spends_pure n _
    | false => exact spends_pure n _

theorem passes_parseReturned : Spends 0 (n + 1) (parseReturned expr (n + 1)) := by
  refine spends_look fun t => ?_
  split_ifs
  · exact passes_parseCallArgs hexpr
  · exact hexpr.free.next fun e => spends_pure _ _

include hstmt

theorem spends_parseStmtWith : Spends 1 (n + 1) (parseStmtWith expr stmt (n + 1)) := by
  have he : Spends 0 n expr := hexpr.free.down
  have hblock : Spends 0 n (parseBlock stmt (n + 1)) := passes_parseBlock n.le_succ hstmt
  refine spends_peek ?_ fun tok ts hts => ?_
  · exact hexpr.first (fun e => passes_ended n _) [] (Nat.succ_pos n)
  split
  · refine spendsAt_advance ((passes_expectIdent n).next fun _ => ?_) hts
    refine (passes_annotated n.le_succ).next fun _ => (passes_expect n _).next fun _ => ?_
    exact he.next fun e => passes_ended n _
  · exact spendsAt_advance (he.next fun e => passes_ended n _) hts
  · exact spendsAt_advance ((passes_expectIdent n).next fun _ => passes_ended n _) hts
  · refine spendsAt_advance ((passes_eat n _).next fun semicolon => ?_) hts
    cases semicolon with
    | true => exact spends_pure n _
    | false => exact (passes_parseReturned hexpr).down.next fun _ => passes_ended n _
  · refine spendsAt_advance ((passes_expectIdent n).next fun _ => (passes_expect n _).next fun _ => ?_) hts
    refine (passes_commaList _ (spends_parseEmitField hexpr)).down.next fun _ => ?_
    exact (passes_expect n _).next fun _ => passes_ended n _
  · refine spendsAt_advance (he.next fun _ => hblock.next fun _ => ?_) hts
    refine (passes_eat n _).next fun otherwise => ?_
    cases otherwise with
    | true => exact hblock.next fun _ => spends_pure n _
    | false => exact spends_pure n _
  · exact spendsAt_advance (he.next fun _ => hblock.next fun _ => spends_pure n _) hts
  · refine spendsAt_advance ((passes_expectIdent n).next fun _ => (passes_expect n _).next fun _ => ?_) hts
    refine he.next fun _ => (passes_expect n _).next fun _ => he.next fun _ => ?_
    exact hblock.next fun _ => spends_pure n _
  · exact spendsAt_advance (hblock.next fun _ => spends_pure n _) hts
  · exact spendsAt_advance (passes_ended n _) hts
  · exact spendsAt_advance (passes_ended n _) hts
  · exact spends_parseAssignOrExpr hexpr (tok :: ts) (Nat.succ_lt_succ hts)
  · exact hexpr.first (fun e => passes_ended n _) (tok :: ts) (Nat.succ_lt_succ hts)

end Statements

/-- Fuel for more than the tokens is enough for a statement. -/
theorem spends_parseStmtN : ∀ n, Spends 1 n (parseStmtN n)
  | 0 => fun _ hlen => absurd hlen (Nat.not_lt_zero _)
  | n + 1 => spends_parseStmtWith (spends_parseExprN (n + 1)) (spends_parseStmtN n)

theorem outcome_get (f : List Tok → P α) (eof : Span) (toks : List Tok) :
    outcome ((get : P (List Tok)) >>= f) eof toks = outcome (f toks) eof toks := rfl

theorem parseStmt_ne_none (toks : List Tok) (eof : Span) : outcome parseStmt eof toks ≠ none := by
  unfold parseStmt
  rw [outcome_get]
  exact (spends_parseStmtN _ toks toks.length.lt_succ_self eof).1

/-! ## Cells -/

theorem passes_body (n : ℕ) : Spends 0 n (parseBlock (parseStmtN n) n) :=
  passes_parseBlock le_rfl (spends_parseStmtN n)

theorem passes_parseInit (n : ℕ) : Spends 0 n (parseInit n) :=
  (passes_parseParams n).next fun _ => (passes_body n).next fun _ => spends_pure n _

theorem passes_parseRet (n : ℕ) : Spends 0 n (parseRet n) := by
  refine (passes_eat n _).next fun arrow => ?_
  cases arrow with
  | true =>
    refine (passes_eat n _).next fun tuple => ?_
    cases tuple with
    | true =>
      refine (passes_commaList _ (spends_parseTypeN n)).next fun _ => ?_
      exact (passes_expect n _).next fun _ => spends_pure n _
    | false => exact (spends_parseTypeN n).free.next fun _ => spends_pure n _
  | false => exact spends_pure n _

theorem passes_parseFn (n : ℕ) (isPublic : Bool) : Spends 0 n (parseFn n isPublic) :=
  (passes_expectIdent n).next fun _ => (passes_parseParams n).next fun _ => (passes_parseRet n).next fun _ =>
    (passes_body n).next fun _ => spends_pure n _

theorem passes_parseErrorDecl (n : ℕ) : Spends 0 n parseErrorDecl :=
  (passes_expectIdent n).next fun name => (passes_expect n _).next fun _ => spends_pure n name

theorem passes_parseStorageDecl (n : ℕ) : Spends 0 n (parseStorageDecl n) :=
  (passes_expectIdent n).next fun _ => (passes_expect n _).next fun _ => (spends_parseTypeN n).free.next fun _ =>
    (passes_eat n _).next fun _ => (passes_expect n _).next fun _ => spends_pure n _

theorem passes_itemLoop {fuel : ℕ} : ∀ {n : ℕ}, n ≤ fuel → ∀ c, Spends 0 n (itemLoop fuel n c)
  | 0, _, _ => fun _ hlen => absurd hlen (Nat.not_lt_zero _)
  | n + 1, hn, c => by
    have hfuel : n ≤ fuel := Nat.le_of_succ_le hn
    have ih : ∀ c, Spends 0 n (itemLoop fuel n c) := passes_itemLoop hfuel
    refine spends_peek (spendsAt_pure c []) fun tok ts hts => ?_
    split
    · exact spendsAt_pure c _
    · exact spendsAt_pure c _
    · exact SpendsAt.free (spendsAt_advance ((passes_parseErrorDecl n).next fun _ => ih _) hts)
    · refine SpendsAt.free (spendsAt_advance (Spends.next ?_ fun _ => ih _) hts)
      exact (passes_parseStorageDecl fuel).mono le_rfl hfuel
    · refine SpendsAt.free (spendsAt_advance (Spends.next ?_ fun _ => ih _) hts)
      exact (passes_parseInit fuel).mono le_rfl hfuel
    · refine SpendsAt.free (spendsAt_advance ((passes_expect n _).next fun _ => Spends.next ?_ fun _ => ih _) hts)
      exact (passes_parseFn fuel true).mono le_rfl hfuel
    · refine SpendsAt.free (spendsAt_advance (Spends.next ?_ fun _ => ih _) hts)
      exact (passes_parseFn fuel false).mono le_rfl hfuel
    · exact spendsAt_err 0 _ _

theorem passes_parseCell (n : ℕ) : Spends 0 n (parseCell n) :=
  (passes_expect n _).next fun _ => (passes_expectIdent n).next fun _ => (passes_expect n _).next fun _ =>
    (passes_itemLoop le_rfl _).next fun c => (passes_expect n _).next fun _ => spends_pure n c

/-- The parser of a cell never runs out of fuel. -/
theorem parse_ne_none (toks : List Tok) (eof : Span) : parse toks eof ≠ none := by
  have h : outcome (parseCell (toks.length + 1)) eof toks ≠ none :=
    (passes_parseCell _ toks toks.length.lt_succ_self eof).1
  unfold parse
  split
  · contradiction
  · nofun
  · nofun

end TruthLinked.Compiler.ParserFuel
