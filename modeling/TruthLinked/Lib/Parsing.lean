import Mathlib.Tactic.Common
import Mathlib.Order.Nat

/-! # Parsers over a list of tokens

A recursive-descent parser with fuel: it consumes tokens from the front of a list and accepts with a value,
rejects with an error, or runs out of fuel. `Accepts` says how a sequence of parsers accepts, `Spends` that
there is fuel enough and how many tokens go, and `Carries` that what a parser accepts it also accepts, with
the same value, where more tokens follow. -/

namespace TruthLinked.Lib.Parsing

/-- A parser: it reads `σ`, its state is the tokens that are left, and `none` is the end of the fuel. -/
abbrev Parser (σ τ ε α : Type) := ReaderT σ (StateT (List τ) (ExceptT ε Option)) α

variable {σ τ ε α β : Type}

/-- The end of the fuel. -/
def outOfFuel : Parser σ τ ε α := fun _ _ => (none : Option (Except ε (α × List τ)))

/-- What the parser does with these tokens. -/
def outcome (p : Parser σ τ ε α) (r : σ) (toks : List τ) : Option (Except ε (α × List τ)) := p r toks

/-! ## Accepting -/

/-- The parser takes the tokens before `rest`, and returns `a`. -/
def Accepts (p : Parser σ τ ε α) (r : σ) (toks : List τ) (a : α) (rest : List τ) : Prop :=
  outcome p r toks = some (.ok (a, rest))

theorem Accepts.det {p : Parser σ τ ε α} {r : σ} {toks rest rest' : List τ} {a a' : α}
    (h : Accepts p r toks a rest) (h' : Accepts p r toks a' rest') : a = a' ∧ rest = rest' :=
  Prod.mk.inj (Except.ok.inj (Option.some.inj (h.symm.trans h')))

theorem outcome_bind (p : Parser σ τ ε α) (f : α → Parser σ τ ε β) (r : σ) (toks : List τ) :
    outcome (p >>= f) r toks = match outcome p r toks with
      | none => none
      | some (.error e) => some (.error e)
      | some (.ok (a, rest)) => outcome (f a) r rest := by
  change Option.bind (outcome p r toks) _ = _
  rcases outcome p r toks with _ | _ | ⟨a, rest⟩
  · rfl
  · rfl
  · rfl

theorem accepts_bind {p : Parser σ τ ε α} {f : α → Parser σ τ ε β} {r : σ} {toks rest : List τ} {b : β} :
    Accepts (p >>= f) r toks b rest ↔ ∃ a mid, Accepts p r toks a mid ∧ Accepts (f a) r mid b rest := by
  unfold Accepts
  rw [outcome_bind]
  rcases outcome p r toks with _ | _ | ⟨a, mid⟩
  · simp
  · simp
  · simp [eq_comm]

theorem accepts_pure {a b : α} {r : σ} {toks rest : List τ} :
    Accepts (pure a : Parser σ τ ε α) r toks b rest ↔ a = b ∧ toks = rest := by
  change some (Except.ok (a, toks)) = some (.ok (b, rest)) ↔ _
  simp

theorem not_accepts_outOfFuel {r : σ} {toks rest : List τ} {a : α} :
    ¬ Accepts (outOfFuel : Parser σ τ ε α) r toks a rest := fun h => nomatch (show none = some _ from h)

/-! ## Fuel -/

/-- At these tokens the parser does not run out of fuel, and it takes `k` of them at least if it accepts. -/
def SpendsAt (k : ℕ) (p : Parser σ τ ε α) (toks : List τ) : Prop :=
  ∀ r, outcome p r toks ≠ none ∧ ∀ a rest, Accepts p r toks a rest → rest.length + k ≤ toks.length

/-- `SpendsAt` for fewer than `n` tokens. -/
def Spends (k n : ℕ) (p : Parser σ τ ε α) : Prop := ∀ toks : List τ, toks.length < n → SpendsAt k p toks

theorem Spends.mono {k k' n n' : ℕ} {p : Parser σ τ ε α} (h : Spends k n p) (hk : k' ≤ k) (hn : n' ≤ n) :
    Spends k' n' p := fun toks hlen r =>
  ⟨(h toks (Nat.lt_of_lt_of_le hlen hn) r).1, fun a rest ha =>
    Nat.le_trans (Nat.add_le_add_left hk _) ((h toks (Nat.lt_of_lt_of_le hlen hn) r).2 a rest ha)⟩

theorem SpendsAt.free {p : Parser σ τ ε α} {toks : List τ} (h : SpendsAt 1 p toks) : SpendsAt 0 p toks := fun r =>
  ⟨(h r).1, fun a rest ha => Nat.le_of_succ_le ((h r).2 a rest ha)⟩

theorem Spends.free {n : ℕ} {p : Parser σ τ ε α} (h : Spends 1 n p) :
    Spends 0 n p := h.mono (Nat.zero_le 1) le_rfl

theorem Spends.down {k n : ℕ} {p : Parser σ τ ε α} (h : Spends k (n + 1) p) : Spends k n p :=
  h.mono le_rfl n.le_succ

theorem spendsAt_pure (a : α) (toks : List τ) : SpendsAt 0 (pure a : Parser σ τ ε α) toks := fun _ =>
  ⟨nofun, fun _ _ h => (congrArg List.length (accepts_pure.mp h).2).symm.le⟩

theorem spends_pure (n : ℕ) (a : α) : Spends 0 n (pure a : Parser σ τ ε α) := fun toks _ => spendsAt_pure a toks

theorem SpendsAt.bind {k j : ℕ} {p : Parser σ τ ε α} {f : α → Parser σ τ ε β} {toks : List τ}
    (hp : SpendsAt k p toks) (hf : ∀ a mid, mid.length + k ≤ toks.length → SpendsAt j (f a) mid) :
    SpendsAt (k + j) (p >>= f) toks := by
  intro r
  obtain ⟨hsome, hspent⟩ := hp r
  constructor
  · rw [outcome_bind]
    cases hout : outcome p r toks with
    | none => exact absurd hout hsome
    | some res =>
      cases res with
      | error e => nofun
      | ok am => exact (hf am.1 am.2 (hspent am.1 am.2 hout) r).1
  · intro b rest hb
    obtain ⟨a, mid, ha, hfb⟩ := accepts_bind.mp hb
    have hmid : mid.length + k ≤ toks.length := hspent a mid ha
    have hrest : rest.length + j ≤ mid.length := (hf a mid hmid r).2 b rest hfb
    omega

theorem Spends.first {n : ℕ} {p : Parser σ τ ε α} {f : α → Parser σ τ ε β} (hp : Spends 1 (n + 1) p)
    (hf : ∀ a, Spends 0 n (f a)) : Spends 1 (n + 1) (p >>= f) := fun toks hlen =>
  (hp toks hlen).bind fun a mid hmid => hf a mid (by omega)

theorem Spends.next {k n : ℕ} {p : Parser σ τ ε α} {f : α → Parser σ τ ε β} (hp : Spends 0 n p)
    (hf : ∀ a, Spends k n (f a)) : Spends k n (p >>= f) := fun toks hlen => by
  have h := (hp toks hlen).bind fun a mid (hmid : mid.length + 0 ≤ toks.length) => hf a mid (by omega)
  rwa [Nat.zero_add] at h

theorem Spends.map {k n : ℕ} {p : Parser σ τ ε α} (hp : Spends k n p) (f : α → β) : Spends k n (f <$> p) := by
  rw [← bind_pure_comp]
  exact fun toks hlen => (hp toks hlen).bind fun a mid _ => spendsAt_pure (f a) mid

/-! ## More tokens -/

/-- A relation along lists of tokens that composes. -/
structure Tracking {δ : Type} (M : δ → List τ → δ → Prop) : Prop where
  nil : ∀ d, M d [] d
  append : ∀ {d e f c c'}, M d c e → M e c' f → M d (c ++ c') f

section Carries
variable {δ : Type} (M : δ → List τ → δ → Prop) (F : List τ → Prop)

/-- What `p` accepts at `toks`, taking tokens along which `M` goes from `d` to `e`, `q` accepts with the same
value where more tokens follow. If `p` takes all the tokens, the ones that follow are an end (`F`). -/
def CarriesAt (d e : δ) (p q : Parser σ τ ε α) (toks : List τ) : Prop :=
  ∀ r r' a rest, Accepts p r toks a rest → ∃ c, toks = c ++ rest ∧ M d c e ∧
    ∀ suf, (rest = [] → F suf) → Accepts q r' (toks ++ suf) a (rest ++ suf)

/-- `CarriesAt` for all tokens. -/
def Carries (d e : δ) (p q : Parser σ τ ε α) : Prop := ∀ toks, CarriesAt M F d e p q toks

variable {M F} {d e f : δ}

theorem CarriesAt.bind (hM : Tracking M) {p q : Parser σ τ ε α} {g h : α → Parser σ τ ε β} {toks : List τ}
    (hp : CarriesAt M F d e p q toks) (hg : ∀ a, Carries M F e f (g a) (h a)) :
    CarriesAt M F d f (p >>= g) (q >>= h) toks := by
  intro r r' b rest hb
  obtain ⟨a, mid, ha, hga⟩ := accepts_bind.mp hb
  obtain ⟨c, rfl, hc, hq⟩ := hp r r' a mid ha
  obtain ⟨c', rfl, hc', hh⟩ := hg a mid r r' b rest hga
  refine ⟨c ++ c', (List.append_assoc ..).symm, hM.append hc hc', fun suf hsuf => ?_⟩
  have hmid : c' ++ rest = [] → F suf := fun hnil => hsuf (List.append_eq_nil_iff.mp hnil).2
  exact accepts_bind.mpr ⟨a, _, hq suf hmid, hh suf hsuf⟩

theorem Carries.bind (hM : Tracking M) {p q : Parser σ τ ε α} {g h : α → Parser σ τ ε β}
    (hp : Carries M F d e p q) (hg : ∀ a, Carries M F e f (g a) (h a)) : Carries M F d f (p >>= g) (q >>= h) :=
  fun toks => (hp toks).bind hM hg

/-- The first parser is carried only where tokens are left: the second one accepts none of the empty list. -/
theorem Carries.bindInner (hM : Tracking M) {p q : Parser σ τ ε α} {g h : α → Parser σ τ ε β}
    (hp : Carries M (fun _ => False) d e p q) (hne : ∀ a r b rest, ¬ Accepts (g a) r [] b rest)
    (hg : ∀ a, Carries M F e f (g a) (h a)) : Carries M F d f (p >>= g) (q >>= h) := by
  intro toks r r' b rest hb
  obtain ⟨a, mid, ha, hga⟩ := accepts_bind.mp hb
  obtain ⟨c, rfl, hc, hq⟩ := hp toks r r' a mid ha
  have hmid : mid ≠ [] := by
    rintro rfl
    exact hne a r b rest hga
  obtain ⟨c', rfl, hc', hh⟩ := hg a mid r r' b rest hga
  refine ⟨c ++ c', (List.append_assoc ..).symm, hM.append hc hc', fun suf hsuf => ?_⟩
  exact accepts_bind.mpr ⟨a, _, hq suf fun hnil => hmid hnil, hh suf hsuf⟩

theorem Carries.inner {p q : Parser σ τ ε α} (hp : Carries M F d e p q) : Carries M (fun _ => False) d e p q := by
  intro toks r r' a rest ha
  obtain ⟨c, hc, hM, hq⟩ := hp toks r r' a rest ha
  exact ⟨c, hc, hM, fun suf hsuf => hq suf fun hnil => (hsuf hnil).elim⟩

theorem carries_pure (hM : Tracking M) (a : α) :
    Carries M F d d (pure a : Parser σ τ ε α) (pure a : Parser σ τ ε α) := by
  intro toks r r' b rest h
  obtain ⟨rfl, rfl⟩ := accepts_pure.mp h
  exact ⟨[], rfl, hM.nil d, fun suf _ => accepts_pure.mpr ⟨rfl, rfl⟩⟩

theorem Carries.map (hM : Tracking M) {p q : Parser σ τ ε α} (hp : Carries M F d e p q) (g : α → β) :
    Carries M F d e (g <$> p) (g <$> q) := by
  rw [← bind_pure_comp, ← bind_pure_comp]
  exact hp.bind hM fun a => carries_pure hM _

theorem carries_outOfFuel (q : Parser σ τ ε α) : Carries M F d e outOfFuel q :=
  fun _ _ _ _ _ h => absurd h not_accepts_outOfFuel

end Carries

end TruthLinked.Lib.Parsing
