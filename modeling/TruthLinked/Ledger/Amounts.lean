import TruthLinked.Ledger.ComputeCells
import TruthLinked.Lib.Text

/-! # Amounts as text

`format_amount`, `format_links` and `parse_amount`, on texts as lists of characters. What a text denotes is
said by a grammar (`TokenText`, `SubunitText`). The formats are read back, and a text is read as it denotes
unless its whole part fits 128 bits and the amount does not: the product with `ONE_TLKD` is not checked
(`amounts_exact_iff`). -/

namespace TruthLinked.Ledger.Amounts

open Ledger.Model Ledger.Compute Ledger.ComputeCells Lib.Except Lib.Text

/-- A text, as its characters. -/
abbrev Text := List Char

/-- `TOKEN_SYMBOL`. -/
def tokenSymbol : Text := ['T', 'L', 'K', 'D']

/-- `TOKEN_SUBUNIT`. -/
def tokenSubunit : Text := ['x', 'i', 'o', 'm']

/-- `TOKEN_DECIMALS`. -/
def tokenDecimals : ℕ := 9

/-! ### The code -/

/-- `format_amount`. -/
def formatAmount (amount : ℕ) : Text :=
  let whole := Nat.toDigits 10 (amount / oneTlkd)
  let fractional := amount % oneTlkd
  if fractional = 0 then whole ++ ' ' :: tokenSymbol
  else
    let fracStr := ((Nat.toDigits 10 fractional).leftpad 9 '0').rdropWhile (· == '0')
    whole ++ '.' :: fracStr ++ ' ' :: tokenSymbol

/-- `format_links`. -/
def formatLinks (amount : ℕ) : Text := Nat.toDigits 10 amount ++ ' ' :: tokenSubunit

/-- `str::parse::<u128>`: a plus sign may stand before the digits. -/
def parseU128 (t : Text) : Option ℕ :=
  let digits := if t.head? = some '+' then t.tail else t
  if digits = [] ∨ digits.all Char.isDigit = false ∨ u128 ≤ value digits then none else some (value digits)

/-- `str::trim`. -/
def trimmed (t : Text) : Text := (trim (String.ofList t)).toList

/-- `str::strip_suffix`. -/
def stripSuffix (suffix t : Text) : Option Text :=
  if suffix <:+ t then some (t.take (t.length - suffix.length)) else none

/-- `trim_end_matches` of the symbol, on the characters from the last to the first. -/
def dropSymbols : Text → Text
  | 'D' :: 'K' :: 'L' :: 'T' :: rest => dropSymbols rest
  | t => t

/-- `s.trim_end_matches(TOKEN_SYMBOL)`. -/
def trimEndSymbols (t : Text) : Text := (dropSymbols t.reverse).reverse

/-- `str::split_once`. -/
def splitOnce (c : Char) (t : Text) : Option (Text × Text) :=
  match t.dropWhile (· != c) with
  | [] => none
  | _ :: rest => some (t.takeWhile (· != c), rest)

/-- `parse_amount` of a text without its unit. Products and sums wrap. -/
def parseTokens (s : Text) : Except String ℕ :=
  match splitOnce '.' s with
  | some (whole, frac) => do
    let whole ← okOr (parseU128 whole) "Invalid amount"
    failIf (frac = []) "Missing fractional amount"
    failIf (tokenDecimals < (frac.map Char.utf8Size).sum)
      ("TLKD amounts support at most " ++ toString tokenDecimals ++ " decimal places")
    failIf (frac.all Char.isDigit = false) "Invalid fractional amount"
    let frac ← okOr (parseU128 (frac.rightpad 9 '0')) "Invalid fractional amount"
    pure ((whole * oneTlkd % u128 + frac) % u128)
  | none => do
    let whole ← okOr (parseU128 s) "Invalid amount"
    pure (whole * oneTlkd % u128)

/-- `parse_amount`. -/
def parseAmount (s : Text) : Except String ℕ :=
  let s := trimmed s
  match stripSuffix tokenSubunit s with
  | some raw => okOr (parseU128 (trimmed raw)) "Invalid amount"
  | none => parseTokens (trimmed (trimEndSymbols s))

/-! ### What a text denotes -/

/-- White space only. -/
def Blank (t : Text) : Prop := ∀ c ∈ t, isWhitespace c = true

/-- `t` stands in `s` between blanks. -/
def Between (t s : Text) : Prop := ∃ pre post, Blank pre ∧ Blank post ∧ s = pre ++ t ++ post

/-- A whole number: digits, with or without a plus sign before them. -/
def Numeral (t : Text) (n : ℕ) : Prop :=
  ∃ ds, (t = ds ∨ t = '+' :: ds) ∧ ds ≠ [] ∧ Digits ds ∧ n = value ds

/-- A decimal number with at most nine places: its whole part, and the rest in billionths. -/
def Decimal (t : Text) (whole rest : ℕ) : Prop :=
  (Numeral t whole ∧ rest = 0) ∨
    ∃ w f, t = w ++ '.' :: f ∧ Numeral w whole ∧ f ≠ [] ∧ Digits f ∧ f.length ≤ tokenDecimals ∧
      rest = value f * 10 ^ (tokenDecimals - f.length)

/-- A whole number with the smaller unit. -/
def SubunitText (s : Text) (n : ℕ) : Prop :=
  ∃ t gap, Numeral t n ∧ Blank gap ∧ Between (t ++ gap ++ tokenSubunit) s

/-- A decimal number with the unit, which may be missing or repeated. -/
def TokenText (s : Text) (whole rest : ℕ) : Prop :=
  ∃ t gap k, Decimal t whole rest ∧ Blank gap ∧ Between (t ++ gap ++ (List.replicate k tokenSymbol).flatten) s

/-- The amount, in the smaller unit, that a text denotes. -/
def Denotes (s : Text) (amount : ℕ) : Prop :=
  SubunitText s amount ∨ ∃ whole rest, TokenText s whole rest ∧ amount = whole * oneTlkd + rest

/-- The whole part of the text fits 128 bits, and the amount does not. -/
def Overflows (s : Text) : Prop :=
  ∃ whole rest, TokenText s whole rest ∧ whole < u128 ∧ u128 ≤ whole * oneTlkd + rest

/-! ### Numerals -/

section Numerals
variable {t : Text} {m n : ℕ}

theorem digit_ne_plus {c : Char} (h : c.isDigit = true) : c ≠ '+' := by
  rintro rfl
  cases h

theorem digit_ne_point {c : Char} (h : c.isDigit = true) : c ≠ '.' := by
  rintro rfl
  cases h

theorem not_blank_of_digit {c : Char} (h : c.isDigit = true) : isWhitespace c = false := by
  simp only [Char.isDigit, Bool.and_eq_true, decide_eq_true_eq, UInt32.le_iff_toNat_le] at h
  have hlow : 48 ≤ c.toNat := h.1
  have hhigh : c.toNat ≤ 57 := h.2
  unfold isWhitespace
  simp only [List.mem_cons, List.not_mem_nil, or_false, Bool.or_eq_false_iff, Bool.and_eq_false_iff,
    decide_eq_false_iff_not]
  omega

theorem numeral_iff : Numeral t n ↔ ∃ ds, ds = (if t.head? = some '+' then t.tail else t) ∧ ds ≠ [] ∧ Digits ds ∧
    n = value ds := by
  constructor
  · rintro ⟨ds, ht, hne, hds, hn⟩
    refine ⟨ds, ?_, hne, hds, hn⟩
    rcases ht with rfl | rfl
    · rw [if_neg]
      intro hplus
      exact digit_ne_plus (hds '+' (List.mem_of_mem_head? hplus)) rfl
    · rfl
  · rintro ⟨ds, hds, hne, hdigits, hn⟩
    refine ⟨ds, ?_, hne, hdigits, hn⟩
    cases t with
    | nil => exact absurd hds hne
    | cons c rest =>
      by_cases hc : c = '+'
      · rw [hc] at hds ⊢
        exact Or.inr (by rw [hds]; rfl)
      · rw [if_neg (by simpa using hc)] at hds
        exact Or.inl hds.symm

theorem Numeral.unique (hm : Numeral t m) (hn : Numeral t n) : m = n := by
  obtain ⟨ds, hds, -, -, rfl⟩ := numeral_iff.mp hm
  obtain ⟨es, hes, -, -, rfl⟩ := numeral_iff.mp hn
  rw [hds, hes]

theorem parseU128_eq_some : parseU128 t = some n ↔ Numeral t n ∧ n < u128 := by
  have hall : ∀ ds : Text, ds.all Char.isDigit = false ↔ ¬ Digits ds := fun ds => by
    rw [← Bool.not_eq_true, List.all_eq_true]
    rfl
  rw [numeral_iff]
  unfold parseU128
  dsimp only
  generalize (if t.head? = some '+' then t.tail else t) = ds
  constructor
  · intro h
    split_ifs at h with hbad
    rw [hall, not_or, not_or, not_not, Nat.not_le] at hbad
    obtain ⟨hne, hdigits, hlt⟩ := hbad
    cases h
    exact ⟨⟨ds, rfl, hne, hdigits, rfl⟩, hlt⟩
  · rintro ⟨⟨_, rfl, hne, hdigits, rfl⟩, hlt⟩
    rw [if_neg]
    rw [hall, not_or, not_or, not_not, Nat.not_le]
    exact ⟨hne, hdigits, hlt⟩

theorem Numeral.ends (h : Numeral t n) : t ≠ [] ∧ (∀ c ∈ t.head?, isWhitespace c = false) ∧
    (∀ c ∈ t.getLast?, c.isDigit = true) ∧ ∀ c ∈ t, c ≠ '.' := by
  obtain ⟨ds, ht, hne, hdigits, -⟩ := h
  have hlast : ∀ c ∈ ds.getLast?, c.isDigit = true := fun c hc => hdigits c (List.mem_of_getLast? hc)
  rcases ht with rfl | rfl
  · refine ⟨hne, fun c hc => ?_, hlast, fun c hc => digit_ne_point (hdigits c hc)⟩
    exact not_blank_of_digit (hdigits c (List.mem_of_mem_head? hc))
  · refine ⟨List.cons_ne_nil _ _, ?_, ?_, ?_⟩
    · rintro c hc
      cases hc
      decide
    · intro c hc
      rw [List.getLast?_cons_of_ne_nil hne] at hc
      exact hlast c hc
    · intro c hc
      rcases List.mem_cons.mp hc with rfl | hc
      · decide
      · exact digit_ne_point (hdigits c hc)

end Numerals

/-! ### Decimal numbers -/

section Decimals
variable {s t : Text} {whole rest m n : ℕ}

theorem splitOnce_eq_some {c : Char} {w f : Text} :
    splitOnce c t = some (w, f) ↔ t = w ++ c :: f ∧ ∀ d ∈ w, d ≠ c := by
  unfold splitOnce
  constructor
  · intro h
    have hjoin := List.takeWhile_append_dropWhile (p := (· != c)) (l := t)
    split at h
    · cases h
    · rename_i d rest hdrop
      cases h
      have hd : d = c := by
        have hhead := List.head_dropWhile_not (p := (· != c)) (l := t) (by rw [hdrop]; exact List.cons_ne_nil _ _)
        simpa [hdrop] using hhead
      refine ⟨?_, fun e he => ?_⟩
      · rw [hdrop, hd] at hjoin
        exact hjoin.symm
      · simpa using List.mem_takeWhile_imp he
  · rintro ⟨rfl, hw⟩
    have hall : ∀ d ∈ w, (d != c) = true := fun d hd => by simpa using hw d hd
    rw [List.dropWhile_append_of_pos hall, List.dropWhile_cons_of_neg (by simp),
      List.takeWhile_append_of_pos hall, List.takeWhile_cons_of_neg (by simp)]
    simp

theorem splitOnce_eq_none {c : Char} : splitOnce c t = none ↔ ∀ d ∈ t, d ≠ c := by
  unfold splitOnce
  constructor
  · intro h
    split at h
    · rename_i hdrop
      rw [List.dropWhile_eq_nil_iff] at hdrop
      intro d hd
      simpa using hdrop d hd
    · cases h
  · intro h
    rw [List.dropWhile_eq_nil_iff.mpr fun d hd => by simpa using h d hd]

theorem decimal_iff : Decimal t whole rest ↔
    (splitOnce '.' t = none ∧ Numeral t whole ∧ rest = 0) ∨
      ∃ w f, splitOnce '.' t = some (w, f) ∧ Numeral w whole ∧ f ≠ [] ∧ Digits f ∧ f.length ≤ tokenDecimals ∧
        rest = value f * 10 ^ (tokenDecimals - f.length) := by
  constructor
  · rintro (⟨ht, hrest⟩ | ⟨w, f, rfl, hw, hf⟩)
    · exact Or.inl ⟨splitOnce_eq_none.mpr ht.ends.2.2.2, ht, hrest⟩
    · exact Or.inr ⟨w, f, splitOnce_eq_some.mpr ⟨rfl, hw.ends.2.2.2⟩, hw, hf⟩
  · rintro (⟨-, ht, hrest⟩ | ⟨w, f, hsplit, hw, hf⟩)
    · exact Or.inl ⟨ht, hrest⟩
    · exact Or.inr ⟨w, f, (splitOnce_eq_some.mp hsplit).1, hw, hf⟩

theorem Decimal.unique {whole' rest' : ℕ} (h : Decimal t whole rest) (h' : Decimal t whole' rest') :
    whole = whole' ∧ rest = rest' := by
  rw [decimal_iff] at h h'
  rcases h with ⟨hs, hw, hr⟩ | ⟨w, f, hs, hw, -, -, -, hr⟩
  · rcases h' with ⟨hs', hw', hr'⟩ | ⟨w', f', hs', -⟩
    · exact ⟨hw.unique hw', hr.trans hr'.symm⟩
    · rw [hs] at hs'
      cases hs'
  · rcases h' with ⟨hs', -⟩ | ⟨w', f', hs', hw', -, -, -, hr'⟩
    · rw [hs] at hs'
      cases hs'
    · rw [hs] at hs'
      cases hs'
      exact ⟨hw.unique hw', hr.trans hr'.symm⟩

theorem Decimal.ends (h : Decimal t whole rest) : t ≠ [] ∧ (∀ c ∈ t.head?, isWhitespace c = false) ∧
    ∀ c ∈ t.getLast?, c.isDigit = true := by
  rcases h with ⟨ht, -⟩ | ⟨w, f, rfl, hw, hne, hf, -⟩
  · exact ⟨ht.ends.1, ht.ends.2.1, ht.ends.2.2.1⟩
  · obtain ⟨hwne, hhead, -, -⟩ := hw.ends
    refine ⟨by simp, fun c hc => ?_, fun c hc => ?_⟩
    · rw [List.head?_append_of_ne_nil _ hwne] at hc
      exact hhead c hc
    · rw [List.getLast?_append_of_ne_nil _ (List.cons_ne_nil _ _), List.getLast?_cons_of_ne_nil hne] at hc
      exact hf c (List.mem_of_getLast? hc)

theorem Decimal.rest_lt (h : Decimal t whole rest) : rest < oneTlkd := by
  rcases h with ⟨-, rfl⟩ | ⟨w, f, -, -, -, hf, hlen, rfl⟩
  · decide
  · have hpow : 10 ^ f.length * 10 ^ (tokenDecimals - f.length) = oneTlkd := by
      rw [← Nat.pow_add, Nat.add_sub_cancel' hlen]
      rfl
    rw [← hpow]
    exact Nat.mul_lt_mul_of_pos_right (value_lt hf) (Nat.pow_pos (by decide))

/-- The fraction as the code reads it, with zeros up to nine places. -/
theorem parseU128_padded {f : Text} (hne : f ≠ []) (hf : Digits f) (hlen : f.length ≤ tokenDecimals) :
    parseU128 (f.rightpad 9 '0') = some (value f * 10 ^ (tokenDecimals - f.length)) := by
  have hdigits : Digits (f.rightpad 9 '0') := digits_append.mpr ⟨hf, digits_zeros _⟩
  have hvalue : value (f.rightpad 9 '0') = value f * 10 ^ (tokenDecimals - f.length) := by
    rw [List.rightpad, value_append, value_zeros, List.length_replicate, Nat.add_zero]
    rfl
  refine parseU128_eq_some.mpr ⟨⟨f.rightpad 9 '0', Or.inl rfl, ?_, hdigits, hvalue.symm⟩, ?_⟩
  · exact List.append_ne_nil_of_left_ne_nil hne _
  · have hdecimal : Decimal ('0' :: '.' :: f) 0 (value f * 10 ^ (tokenDecimals - f.length)) :=
      Or.inr ⟨['0'], f, rfl, ⟨['0'], Or.inl rfl, by decide, digits_zeros 1, rfl⟩, hne, hf, hlen, rfl⟩
    exact hdecimal.rest_lt.trans (by decide)

theorem utf8_digits {f : Text} (hf : Digits f) : (f.map Char.utf8Size).sum = f.length := by
  induction f with
  | nil => rfl
  | cons c f ih =>
    have hc : c.utf8Size = 1 := by
      have hdigit := hf c List.mem_cons_self
      simp only [Char.isDigit, Bool.and_eq_true, decide_eq_true_eq, UInt32.le_iff_toNat_le] at hdigit
      rw [Char.utf8Size_eq_one_iff]
      exact UInt32.le_iff_toNat_le.mpr (hdigit.2.trans (by decide))
    rw [List.map_cons, List.sum_cons, hc, ih fun d hd => hf d (List.mem_cons_of_mem _ hd),
      List.length_cons, Nat.add_comm]

/-- **What `parse_amount` makes of a decimal number**: the amount modulo 2¹²⁸, when the whole part fits. -/
theorem parseTokens_eq_ok : parseTokens t = .ok n ↔
    ∃ whole rest, Decimal t whole rest ∧ whole < u128 ∧ n = (whole * oneTlkd + rest) % u128 := by
  have hall : ∀ ds : Text, ¬ ds.all Char.isDigit = false ↔ Digits ds := fun ds => by
    rw [Bool.not_eq_false, List.all_eq_true]
    rfl
  simp only [decimal_iff]
  unfold parseTokens
  cases hsplit : splitOnce '.' t with
  | none =>
    simp only [okOr_bind_ok, parseU128_eq_some, pure_eq_ok, true_and, reduceCtorEq,
      false_and, exists_false, or_false]
    constructor
    · rintro ⟨whole, ⟨hw, hlt⟩, rfl⟩
      exact ⟨whole, 0, ⟨hw, rfl⟩, hlt, by rw [Nat.add_zero]⟩
    · rintro ⟨whole, rest, ⟨hw, rfl⟩, hlt, rfl⟩
      exact ⟨whole, ⟨hw, hlt⟩, by rw [Nat.add_zero]⟩
  | some p =>
    obtain ⟨w, f⟩ := p
    simp only [okOr_bind_ok, failIf_bind_ok, parseU128_eq_some, pure_eq_ok, reduceCtorEq,
      false_and, false_or, hall, Nat.not_lt, Option.some.injEq, Prod.mk.injEq]
    have hpadded : ∀ m, f ≠ [] → Digits f → f.length ≤ tokenDecimals →
        (Numeral (f.rightpad 9 '0') m ∧ m < u128 ↔ value f * 10 ^ (tokenDecimals - f.length) = m) := by
      intro m hne hf hlen
      rw [← parseU128_eq_some, parseU128_padded hne hf hlen, Option.some.injEq]
    constructor
    · rintro ⟨whole, ⟨hw, hlt⟩, hne, hbytes, hf, frac, hfrac, rfl⟩
      rw [utf8_digits hf] at hbytes
      refine ⟨whole, frac,
        ⟨w, f, ⟨rfl, rfl⟩, hw, hne, hf, hbytes, ((hpadded _ hne hf hbytes).mp hfrac).symm⟩, hlt, ?_⟩
      rw [Nat.mod_add_mod]
    · rintro ⟨whole, rest, ⟨_, _, ⟨rfl, rfl⟩, hw, hne, hf, hlen, rfl⟩, hlt, rfl⟩
      refine ⟨whole, ⟨hw, hlt⟩, hne, ?_, hf, _, (hpadded _ hne hf hlen).mpr rfl, ?_⟩
      · rw [utf8_digits hf]
        exact hlen
      · rw [Nat.mod_add_mod]

end Decimals

/-! ### Units and blanks -/

section Units
variable {s t : Text} {whole rest m n : ℕ}

theorem trimmed_eq (t : Text) : trimmed t = strip isWhitespace t := by
  simp [trimmed, trim, strip, List.rdropWhile]

theorem dropSymbols_spec (t : Text) :
    ∃ k, t = (List.replicate k tokenSymbol.reverse).flatten ++ dropSymbols t := by
  induction t using dropSymbols.induct with
  | case1 rest ih =>
    obtain ⟨k, hk⟩ := ih
    refine ⟨k + 1, ?_⟩
    rw [List.replicate_succ, List.flatten_cons, List.append_assoc, dropSymbols, ← hk]
    rfl
  | case2 t h => exact ⟨0, by rw [dropSymbols]; rfl; exact h⟩

theorem trimEndSymbols_spec (t : Text) : ∃ k, t = trimEndSymbols t ++ (List.replicate k tokenSymbol).flatten := by
  obtain ⟨k, hk⟩ := dropSymbols_spec t.reverse
  refine ⟨k, ?_⟩
  have hrev := congrArg List.reverse hk
  rw [List.reverse_reverse, List.reverse_append, List.reverse_flatten] at hrev
  simpa [trimEndSymbols] using hrev

theorem dropSymbols_append (t : Text) (k : ℕ) (h : ∀ c ∈ t.head?, c ≠ 'D') :
    dropSymbols ((List.replicate k tokenSymbol.reverse).flatten ++ t) = t := by
  induction k with
  | zero =>
    cases t with
    | nil => rfl
    | cons c rest =>
      refine dropSymbols.eq_2 _ fun rest' hrest => ?_
      cases hrest
      exact h 'D' rfl rfl
  | succ k ih =>
    rw [List.replicate_succ, List.flatten_cons, List.append_assoc]
    exact ih

theorem trimEndSymbols_append (t : Text) (k : ℕ) (h : ∀ c ∈ t.getLast?, c ≠ 'D') :
    trimEndSymbols (t ++ (List.replicate k tokenSymbol).flatten) = t := by
  have hrev : (t ++ (List.replicate k tokenSymbol).flatten).reverse =
      (List.replicate k tokenSymbol.reverse).flatten ++ t.reverse := by
    simp [List.reverse_flatten]
  rw [trimEndSymbols, hrev, dropSymbols_append, List.reverse_reverse]
  rwa [List.head?_reverse]

theorem stripSuffix_eq_some {suffix raw : Text} : stripSuffix suffix t = some raw ↔ t = raw ++ suffix := by
  unfold stripSuffix
  constructor
  · intro h
    split_ifs at h with hsuffix
    obtain ⟨front, rfl⟩ := hsuffix
    cases h
    rw [List.length_append, Nat.add_sub_cancel, List.take_left]
  · rintro rfl
    rw [if_pos (List.suffix_append _ _), List.length_append, Nat.add_sub_cancel, List.take_left]

theorem trimmed_between (h : Between t s) (hhead : ∀ c ∈ t.head?, isWhitespace c = false)
    (hlast : ∀ c ∈ t.getLast?, isWhitespace c = false) : trimmed s = t := by
  obtain ⟨pre, post, hpre, hpost, rfl⟩ := h
  rw [trimmed_eq, strip_of_ends hpre hpost hhead hlast]

theorem between_trimmed (s : Text) : Between (trimmed s) s := by
  obtain ⟨pre, post, hpre, hpost, hs⟩ := strip_spec isWhitespace s
  exact ⟨pre, post, hpre, hpost, by rw [trimmed_eq]; exact hs⟩

theorem blank_append {u : Text} : Blank (t ++ u) ↔ Blank t ∧ Blank u := by
  unfold Blank
  simp only [List.mem_append, or_imp, forall_and]

theorem trimmed_number {gap : Text} (hhead : ∀ c ∈ t.head?, isWhitespace c = false)
    (hlast : ∀ c ∈ t.getLast?, c.isDigit = true) (hgap : Blank gap) : trimmed (t ++ gap) = t :=
  trimmed_between ⟨[], gap, fun _ h => absurd h List.not_mem_nil, hgap, rfl⟩ hhead fun c hc =>
    not_blank_of_digit (hlast c hc)

/-- **How a text with the smaller unit is taken apart.** -/
theorem subunitText_iff : SubunitText s n ↔
    ∃ raw, stripSuffix tokenSubunit (trimmed s) = some raw ∧ Numeral (trimmed raw) n := by
  constructor
  · rintro ⟨t, gap, ht, hgap, hs⟩
    obtain ⟨hne, hhead, hlast, -⟩ := ht.ends
    have htrim : trimmed s = t ++ gap ++ tokenSubunit := by
      refine trimmed_between hs ?_ ?_
      · rw [List.append_assoc, List.head?_append_of_ne_nil _ hne]
        exact hhead
      · rw [List.getLast?_append_of_ne_nil _ (by decide)]
        intro c hc
        obtain rfl : c = 'm' := (Option.some.inj hc).symm
        rfl
    refine ⟨t ++ gap, stripSuffix_eq_some.mpr htrim, ?_⟩
    rw [trimmed_number hhead hlast hgap]
    exact ht
  · rintro ⟨raw, hraw, hn⟩
    rw [stripSuffix_eq_some] at hraw
    obtain ⟨pre, post, hpre, hpost, hs⟩ := between_trimmed s
    obtain ⟨pre', gap, hpre', hgap, hr⟩ := between_trimmed raw
    refine ⟨trimmed raw, gap, hn, hgap, pre ++ pre', post, blank_append.mpr ⟨hpre, hpre'⟩, hpost, ?_⟩
    rw [hs, hraw]
    nth_rewrite 1 [hr]
    simp only [List.append_assoc]

theorem stripSuffix_eq_none (h : ∀ c ∈ t.getLast?, c ≠ 'm') : stripSuffix tokenSubunit t = none := by
  cases hstrip : stripSuffix tokenSubunit t with
  | none => rfl
  | some raw =>
    rw [stripSuffix_eq_some] at hstrip
    refine absurd rfl (h 'm' ?_)
    rw [hstrip, List.getLast?_append_of_ne_nil _ (by decide)]
    rfl

/-- **How a text with the unit is taken apart.** -/
theorem tokenText_iff : TokenText s whole rest ↔
    stripSuffix tokenSubunit (trimmed s) = none ∧ Decimal (trimmed (trimEndSymbols (trimmed s))) whole rest := by
  constructor
  · rintro ⟨t, gap, k, ht, hgap, hs⟩
    obtain ⟨hne, hhead, hlast⟩ := ht.ends
    -- with no symbol the gap belongs to the blanks after the number
    have hdigit : ∀ c ∈ t.getLast?, ∀ d : Char, d.isDigit = false → c ≠ d := by
      rintro c hc d hd rfl
      exact Bool.false_ne_true (hd.symm.trans (hlast c hc))
    have hstripped : stripSuffix tokenSubunit (trimmed s) = none ∧ trimmed (trimEndSymbols (trimmed s)) = t := by
      cases k with
      | zero =>
        obtain ⟨pre, post, hpre, hpost, hs⟩ := hs
        have htrim : trimmed s = t := by
          refine trimmed_between ⟨pre, gap ++ post, hpre, blank_append.mpr ⟨hgap, hpost⟩, ?_⟩ hhead fun c hc =>
            not_blank_of_digit (hlast c hc)
          simpa using hs
        have hsame := @trimEndSymbols_append t 0 fun c hc => hdigit c hc 'D' rfl
        rw [List.replicate_zero, List.flatten_nil, List.append_nil] at hsame
        have hblank : Blank [] := fun _ h => absurd h List.not_mem_nil
        have hagain := trimmed_number hhead hlast hblank
        rw [List.append_nil] at hagain
        rw [htrim, hsame]
        exact ⟨stripSuffix_eq_none fun c hc => hdigit c hc 'm' rfl, hagain⟩
      | succ k =>
        have hend : (t ++ gap ++ (List.replicate (k + 1) tokenSymbol).flatten).getLast? = some 'D' := by
          rw [List.replicate_succ', List.flatten_append, ← List.append_assoc,
            List.getLast?_append_of_ne_nil _ (by decide)]
          rfl
        have htrim : trimmed s = t ++ gap ++ (List.replicate (k + 1) tokenSymbol).flatten := by
          refine trimmed_between hs ?_ ?_
          · rw [List.append_assoc, List.head?_append_of_ne_nil _ hne]
            exact hhead
          · rw [hend]
            rintro c hc
            cases hc
            decide
        have hgapEnd : ∀ c ∈ (t ++ gap).getLast?, c ≠ 'D' := by
          intro c hc
          rw [List.getLast?_append] at hc
          cases hlastGap : gap.getLast? with
          | none =>
            rw [hlastGap, Option.none_or] at hc
            exact hdigit c hc 'D' rfl
          | some d =>
            rw [hlastGap, Option.some_or] at hc
            cases hc
            rintro rfl
            exact absurd (hgap 'D' (List.mem_of_getLast? hlastGap)) (by decide)
        rw [htrim, trimEndSymbols_append _ _ hgapEnd, trimmed_number hhead hlast hgap]
        refine ⟨stripSuffix_eq_none ?_, rfl⟩
        rw [hend]
        rintro c hc
        cases hc
        decide
    refine ⟨hstripped.1, ?_⟩
    rw [hstripped.2]
    exact ht
  · rintro ⟨-, ht⟩
    obtain ⟨pre, post, hpre, hpost, hs⟩ := between_trimmed s
    obtain ⟨k, hk⟩ := trimEndSymbols_spec (trimmed s)
    generalize trimEndSymbols (trimmed s) = u at ht hk
    obtain ⟨pre', gap, hpre', hgap, hu⟩ := between_trimmed u
    refine ⟨trimmed u, gap, k, ht, hgap, pre ++ pre', post, blank_append.mpr ⟨hpre, hpre'⟩, hpost, ?_⟩
    rw [hs, hk]
    nth_rewrite 1 [hu]
    simp only [List.append_assoc]

/-- **What `parse_amount` returns.** -/
theorem parseAmount_eq_ok : parseAmount s = .ok n ↔ (SubunitText s n ∧ n < u128) ∨
    ∃ whole rest, TokenText s whole rest ∧ whole < u128 ∧ n = (whole * oneTlkd + rest) % u128 := by
  simp only [subunitText_iff, tokenText_iff]
  unfold parseAmount
  dsimp only
  cases hstrip : stripSuffix tokenSubunit (trimmed s) with
  | none =>
    simp only [parseTokens_eq_ok, reduceCtorEq, false_and, exists_false, false_or, true_and]
  | some raw =>
    simp only [okOr_eq_ok, parseU128_eq_some, Option.some.injEq, exists_eq_left',
      reduceCtorEq, false_and, exists_false, or_false]

theorem TokenText.unique {whole' rest' : ℕ} (h : TokenText s whole rest) (h' : TokenText s whole' rest') :
    whole = whole' ∧ rest = rest' :=
  (tokenText_iff.mp h).2.unique (tokenText_iff.mp h').2

theorem not_subunitText (h : TokenText s whole rest) : ¬ SubunitText s n := by
  intro hs
  obtain ⟨raw, hraw, -⟩ := subunitText_iff.mp hs
  rw [(tokenText_iff.mp h).1] at hraw
  cases hraw

end Units

/-! ### Formats -/

section Formats
variable {amount : ℕ}

theorem numeral_toDigits (n : ℕ) : Numeral (Nat.toDigits 10 n) n :=
  ⟨Nat.toDigits 10 n, Or.inl rfl, Nat.toDigits_ne_nil, digits_toDigits n, Nat.ofDigitChars_ten_toDigits.symm⟩

theorem blank_space : Blank [' '] := by
  intro c hc
  rw [List.mem_singleton.mp hc]
  decide

theorem between_self (t : Text) : Between t t :=
  ⟨[], [], fun _ h => absurd h List.not_mem_nil, fun _ h => absurd h List.not_mem_nil, by simp⟩

theorem formatLinks_denotes (amount : ℕ) : SubunitText (formatLinks amount) amount := by
  refine ⟨Nat.toDigits 10 amount, [' '], numeral_toDigits amount, blank_space, ?_⟩
  have hself := between_self (formatLinks amount)
  simpa [formatLinks] using hself

/-- The nine places of a fraction, without the zeros at their end. -/
theorem fraction_spec {fractional : ℕ} (hpos : fractional ≠ 0) (hlt : fractional < oneTlkd) :
    let f := ((Nat.toDigits 10 fractional).leftpad 9 '0').rdropWhile (· == '0')
    f ≠ [] ∧ Digits f ∧ f.length ≤ tokenDecimals ∧ fractional = value f * 10 ^ (tokenDecimals - f.length) := by
  intro f
  have hlen : (Nat.toDigits 10 fractional).length ≤ 9 :=
    (Nat.length_toDigits_le_iff (by decide) (by decide)).mpr hlt
  have hpadded : (Nat.toDigits 10 fractional).leftpad 9 '0' =
      List.replicate (9 - (Nat.toDigits 10 fractional).length) '0' ++ Nat.toDigits 10 fractional := rfl
  have hvalue : value ((Nat.toDigits 10 fractional).leftpad 9 '0') = fractional := by
    rw [hpadded, value_append, value_zeros, Nat.zero_mul, Nat.zero_add]
    exact Nat.ofDigitChars_ten_toDigits
  have hdigits : Digits ((Nat.toDigits 10 fractional).leftpad 9 '0') := by
    rw [hpadded]
    exact digits_append.mpr ⟨digits_zeros _, digits_toDigits _⟩
  have hnine : ((Nat.toDigits 10 fractional).leftpad 9 '0').length = 9 := by
    rw [List.length_leftpad]
    exact max_eq_left hlen
  obtain ⟨zeros, hzeros, hsplit⟩ := rdropWhile_spec (· == '0') ((Nat.toDigits 10 fractional).leftpad 9 '0')
  have hreplicate : zeros = List.replicate zeros.length '0' :=
    List.eq_replicate_iff.mpr ⟨rfl, fun c hc => by simpa using hzeros c hc⟩
  change _ = f ++ zeros at hsplit
  rw [hsplit, List.length_append] at hnine
  rw [hsplit, digits_append] at hdigits
  rw [hsplit, value_append, hreplicate, value_zeros, Nat.add_zero, List.length_replicate] at hvalue
  have hplaces : tokenDecimals = f.length + zeros.length := hnine.symm
  have hzeroCount : tokenDecimals - f.length = zeros.length := by
    rw [hplaces, Nat.add_sub_cancel_left]
  refine ⟨?_, hdigits.1, (Nat.le_add_right _ _).trans hnine.le, ?_⟩
  · intro hnil
    rw [hnil] at hvalue
    exact hpos (by simpa using hvalue.symm)
  · rw [hzeroCount]
    exact hvalue.symm

theorem formatAmount_denotes (amount : ℕ) :
    TokenText (formatAmount amount) (amount / oneTlkd) (amount % oneTlkd) := by
  have hself := between_self (formatAmount amount)
  unfold formatAmount at hself ⊢
  dsimp only at hself ⊢
  split_ifs at hself ⊢ with hzero
  · refine ⟨Nat.toDigits 10 (amount / oneTlkd), [' '], 1, Or.inl ⟨numeral_toDigits _, hzero⟩, blank_space, ?_⟩
    simpa using hself
  · obtain ⟨hne, hdigits, hlen, hvalue⟩ := fraction_spec hzero (Nat.mod_lt _ (by decide))
    refine ⟨_, [' '], 1, Or.inr ⟨_, _, rfl, numeral_toDigits _, hne, hdigits, hlen, hvalue⟩, blank_space, ?_⟩
    simpa using hself

/-- **The formats are read back.** -/
theorem parse_format (h : amount < u128) :
    parseAmount (formatAmount amount) = .ok amount ∧ parseAmount (formatLinks amount) = .ok amount := by
  constructor
  · refine parseAmount_eq_ok.mpr
      (Or.inr ⟨_, _, formatAmount_denotes amount, (Nat.div_le_self _ _).trans_lt h, ?_⟩)
    rw [Nat.div_add_mod', Nat.mod_eq_of_lt h]
  · exact parseAmount_eq_ok.mpr (Or.inl ⟨formatLinks_denotes amount, h⟩)

end Formats

/-! ### Exactness -/

section Exactness
variable {s : Text}

theorem wrapped {whole rest : ℕ} (ht : TokenText s whole rest) (hlt : whole < u128)
    (hover : u128 ≤ whole * oneTlkd + rest) :
    parseAmount s = .ok ((whole * oneTlkd + rest) % u128) ∧ ¬ Denotes s ((whole * oneTlkd + rest) % u128) := by
  refine ⟨parseAmount_eq_ok.mpr (Or.inr ⟨whole, rest, ht, hlt, rfl⟩), ?_⟩
  rintro (hsub | ⟨whole', rest', ht', hsame⟩)
  · exact not_subunitText ht hsub
  · obtain ⟨rfl, rfl⟩ := ht.unique ht'
    have hmod := Nat.mod_lt (whole * oneTlkd + rest) (show 0 < u128 by decide)
    omega

end Exactness

/-- **Amounts as text.** The formats of every amount are read back; and what is read from a text is what it
denotes iff the text does not overflow. -/
theorem amounts_exact_iff (s : Text) :
    (∀ amount < u128, parseAmount (formatAmount amount) = .ok amount ∧
      parseAmount (formatLinks amount) = .ok amount) ∧
    ((∀ amount, parseAmount s = .ok amount → Denotes s amount) ↔ ¬ Overflows s) := by
  refine ⟨fun amount h => parse_format h, ?_⟩
  constructor
  · rintro h ⟨whole, rest, ht, hlt, hover⟩
    obtain ⟨hok, hnot⟩ := wrapped ht hlt hover
    exact hnot (h _ hok)
  · intro h amount hok
    rcases parseAmount_eq_ok.mp hok with ⟨hsub, -⟩ | ⟨whole, rest, ht, hlt, hamount⟩
    · exact Or.inl hsub
    · refine Or.inr ⟨whole, rest, ht, ?_⟩
      rw [hamount]
      refine Nat.mod_eq_of_lt ?_
      by_contra hover
      exact h ⟨whole, rest, ht, hlt, Nat.le_of_not_lt hover⟩

/-- `340282366920938463463374607432 TLKD` is read as 0.231788544 TLKD. -/
theorem large_amount_wraps : ¬ ∀ (s : Text) (amount : ℕ), parseAmount s = .ok amount → Denotes s amount := by
  intro h
  have ht : TokenText (Nat.toDigits 10 340282366920938463463374607432 ++ ' ' :: tokenSymbol)
      340282366920938463463374607432 0 := by
    refine ⟨_, [' '], 1, Or.inl ⟨numeral_toDigits _, rfl⟩, blank_space, ?_⟩
    have hself := between_self (Nat.toDigits 10 340282366920938463463374607432 ++ ' ' :: tokenSymbol)
    simpa using hself
  obtain ⟨hok, hnot⟩ := wrapped ht (by decide) (by decide)
  exact hnot (h _ _ hok)

/-- The texts of the tests. -/
example : parseAmount "1.5".toList = .ok 1500000000 ∧ parseAmount "123456789 xiom".toList = .ok 123456789 ∧
    parseAmount "1.".toList = .error "Missing fractional amount" := by decide +kernel

end TruthLinked.Ledger.Amounts
