import TruthLinked.Core.Bytes
import TruthLinked.Ledger.Execution
import TruthLinked.Lib.Table

/-! # Which URLs an approved pattern admits

`check_url_permitted` tests a URL against `base/*` by a prefix test on the base. What the pattern means is
that the URL is the base or lies under it (`Admits`), which keeps the host of the base (`Admits.host`). The
prefix test also takes a URL that goes on after the base with anything else (`Overreaches`), such as a longer
host name; a URL is permitted as the patterns mean it iff no approved pattern overreaches, or another one
admits it (`keeps_iff`). -/

namespace TruthLinked.Ledger.UrlPatterns

open Core.Types Core.Bytes Governance.Types Ledger.Execution Lib.Table

/-! ### What a pattern means -/

/-- The pattern is the URL, or it is `base/*` and the URL is the base or begins with the base and a slash. -/
def Admits (pattern url : Bytes) : Prop :=
  pattern = url ∨ ∃ base, pattern = base ++ [47, 42] ∧ (url = base ∨ base ++ [47] <+: url)

/-- The pattern is `base/*`, and the URL goes on after the base with something other than a slash. -/
def Overreaches (pattern url : Bytes) : Prop :=
  ∃ base b rest, pattern = base ++ [47, 42] ∧ url = base ++ b :: rest ∧ b ≠ 47

/-- What follows the first `://`. -/
def afterScheme : Bytes → Option Bytes
  | [] => none
  | b :: rest => if b = 58 ∧ [47, 47] <+: rest then some (rest.drop 2) else afterScheme rest

/-- The host of a URL, with what it names beside the host: up to the first `/`, `?` or `#`. -/
def hostOf (url : Bytes) : Option Bytes :=
  (afterScheme url).map fun rest => rest.takeWhile fun b => decide (b ∉ [47, 63, 35])

section Patterns
variable {base pattern url : Bytes}

theorem length_of_afterScheme {r : Bytes} (h : afterScheme base = some r) : 2 ≤ base.length := by
  induction base with
  | nil => cases h
  | cons b base ih =>
    rw [afterScheme] at h
    split_ifs at h with hb
    · have hlen : 2 ≤ base.length := hb.2.length_le
      rw [List.length_cons]
      omega
    · have hlen := ih h
      rw [List.length_cons]
      omega

theorem afterScheme_append {r : Bytes} (h : afterScheme base = some r) (s : Bytes) :
    afterScheme (base ++ s) = some (r ++ s) := by
  induction base with
  | nil => cases h
  | cons b base ih =>
    rw [afterScheme] at h
    rw [List.cons_append, afterScheme]
    split_ifs at h with hb
    · obtain ⟨hcolon, t, rfl⟩ := hb
      obtain rfl := Option.some.inj h
      rw [if_pos ⟨hcolon, ⟨t ++ s, by rw [List.append_assoc]⟩⟩]
      rfl
    · have hlater : ¬ (b = 58 ∧ [47, 47] <+: base ++ s) := by
        rintro ⟨hcolon, hslashes⟩
        exact hb ⟨hcolon, List.prefix_of_prefix_length_le hslashes (List.prefix_append _ _)
          (length_of_afterScheme h)⟩
      rw [if_neg hlater]
      exact ih h

theorem hostOf_append {h : Bytes} (hbase : hostOf base = some h) {s : Bytes} (hs : s = [] ∨ ∃ t, s = 47 :: t) :
    hostOf (base ++ s) = some h := by
  unfold hostOf at hbase ⊢
  obtain ⟨r, hr, rfl⟩ := Option.map_eq_some_iff.mp hbase
  rw [afterScheme_append hr, Option.map_some, Option.some.injEq]
  rcases hs with rfl | ⟨t, rfl⟩
  · rw [List.append_nil]
  · rw [List.takeWhile_append]
    split_ifs with hall
    · have hstop : (47 :: t).takeWhile (fun b => decide (b ∉ ([47, 63, 35] : Bytes))) = [] := rfl
      rw [hstop, List.append_nil]
      exact ((List.takeWhile_prefix _).eq_of_length hall).symm
    · rfl

/-- **A pattern with a host admits only that host.** -/
theorem Admits.host (h : Admits (base ++ [47, 42]) url) {host : Bytes} (hbase : hostOf base = some host) :
    hostOf url = some host := by
  rcases h with rfl | ⟨base', hpattern, hurl⟩
  · exact hostOf_append hbase (.inr ⟨_, rfl⟩)
  · obtain rfl := List.append_cancel_right hpattern
    rcases hurl with rfl | ⟨t, rfl⟩
    · exact hbase
    · rw [List.append_assoc]
      exact hostOf_append hbase (.inr ⟨t, rfl⟩)

/-- A URL that begins with the base goes on with nothing, a slash, or something else. -/
theorem prefix_iff :
    base <+: url ↔ (url = base ∨ base ++ [47] <+: url) ∨ ∃ b rest, url = base ++ b :: rest ∧ b ≠ 47 := by
  constructor
  · rintro ⟨s, rfl⟩
    cases s with
    | nil => exact .inl (.inl (List.append_nil _))
    | cons b rest =>
      by_cases hb : b = 47
      · subst hb
        exact .inl (.inr ⟨rest, by rw [List.append_assoc]; rfl⟩)
      · exact .inr ⟨b, rest, rfl, hb⟩
  · rintro ((rfl | hslash) | ⟨b, rest, rfl, -⟩)
    · exact List.prefix_refl _
    · exact (List.prefix_append _ _).trans hslash
    · exact List.prefix_append _ _

end Patterns

/-! ### What the code tests -/

section Check
variable {url pattern : String} {proposals : Map String UrlProposal}

/-- **What the test accepts**: what the pattern admits, and where it overreaches. -/
theorem urlMatchesPattern_iff : urlMatchesPattern url pattern = true ↔
    Admits pattern.toUTF8.toList url.toUTF8.toList ∨ Overreaches pattern.toUTF8.toList url.toUTF8.toList := by
  have hwild : "/*".toUTF8.toList = ([47, 42] : Bytes) := by decide +kernel
  unfold urlMatchesPattern
  dsimp only
  rw [hwild]
  by_cases h : [47, 42] <:+ pattern.toUTF8.toList
  · obtain ⟨base, hbase⟩ := h
    rw [if_pos ⟨base, hbase⟩, decide_eq_true_eq, ← hbase]
    have htake : (base ++ [47, 42]).take ((base ++ [47, 42] : Bytes).length - 2) = base := by
      rw [List.length_append]
      exact List.take_left' rfl
    rw [htake, prefix_iff]
    constructor
    · rintro (hurl | ⟨b, rest, hurl, hb⟩)
      · exact .inl (.inr ⟨base, rfl, hurl⟩)
      · exact .inr ⟨base, b, rest, rfl, hurl, hb⟩
    · rintro ((hurl | ⟨base', hpattern, hurl⟩) | ⟨base', b, rest, hpattern, hurl, hb⟩)
      · exact .inl (.inr ⟨[42], by rw [List.append_assoc, ← hurl]; rfl⟩)
      · obtain rfl := List.append_cancel_right hpattern
        exact .inl hurl
      · obtain rfl := List.append_cancel_right hpattern
        exact .inr ⟨b, rest, hurl, hb⟩
  · rw [if_neg h, beq_iff_eq]
    constructor
    · rintro rfl
      exact .inl (.inl rfl)
    · rintro ((hurl | ⟨base, hpattern, -⟩) | ⟨base, b, rest, hpattern, -⟩)
      · exact (toUTF8_toList_inj.mp hurl).symm
      · exact absurd ⟨base, hpattern.symm⟩ h
      · exact absurd ⟨base, hpattern.symm⟩ h

/-- Some approved pattern admits the URL. -/
def Permitted (proposals : Map String UrlProposal) (url : String) : Prop :=
  ∃ (key : String) (p : UrlProposal), proposals[key]? = some p ∧ p.approved = true ∧
    Admits p.urlPattern.toUTF8.toList url.toUTF8.toList

/-- Some approved pattern overreaches. -/
def Overreached (proposals : Map String UrlProposal) (url : String) : Prop :=
  ∃ (key : String) (p : UrlProposal), proposals[key]? = some p ∧ p.approved = true ∧
    Overreaches p.urlPattern.toUTF8.toList url.toUTF8.toList

theorem checkUrlPermitted_iff : checkUrlPermitted url .public proposals = true ↔
    Permitted proposals url ∨ Overreached proposals url := by
  unfold checkUrlPermitted approvedProposal
  dsimp only
  rw [List.find?_isSome]
  constructor
  · rintro ⟨p, hp, htest⟩
    obtain ⟨e, he, rfl⟩ := List.mem_map.mp hp
    have hget : proposals[e.1]? = some e.2 := Std.ExtTreeMap.mem_toList_iff_getElem?_eq_some.mp he
    rw [Bool.and_eq_true, urlMatchesPattern_iff] at htest
    rcases htest with ⟨happroved, hadmits | hover⟩
    · exact .inl ⟨e.1, e.2, hget, happroved, hadmits⟩
    · exact .inr ⟨e.1, e.2, hget, happroved, hover⟩
  · have hmem : ∀ {key p}, proposals[key]? = some p → p ∈ proposals.toList.map Prod.snd := fun {key p} hget =>
      List.mem_map.mpr ⟨(key, p), Std.ExtTreeMap.mem_toList_iff_getElem?_eq_some.mpr hget, rfl⟩
    rintro (⟨key, p, hget, happroved, hadmits⟩ | ⟨key, p, hget, happroved, hover⟩)
    · exact ⟨p, hmem hget, by rw [happroved, Bool.true_and]; exact urlMatchesPattern_iff.mpr (.inl hadmits)⟩
    · exact ⟨p, hmem hget, by rw [happroved, Bool.true_and]; exact urlMatchesPattern_iff.mpr (.inr hover)⟩

end Check

/-- What the check promises of a URL: some approved pattern admits it if it is permitted. -/
def Keeps (proposals : Map String UrlProposal) (url : String) : Prop :=
  checkUrlPermitted url .public proposals = true → Permitted proposals url

/-- **When the check keeps to the patterns**: no approved pattern overreaches, or another one admits the URL;
and a pattern that names a host admits no other host. -/
theorem keeps_iff (proposals : Map String UrlProposal) (url : String) :
    (Keeps proposals url ↔ ¬ Overreached proposals url ∨ Permitted proposals url) ∧
    ∀ base url host : Bytes, Admits (base ++ [47, 42]) url → hostOf base = some host →
      hostOf url = some host := by
  refine ⟨?_, fun base url host h => h.host⟩
  unfold Keeps
  rw [checkUrlPermitted_iff]
  constructor
  · intro h
    by_cases hover : Overreached proposals url
    · exact .inr (h (.inr hover))
    · exact .inl hover
  · rintro (hnot | hok) (hpermitted | hover)
    · exact hpermitted
    · exact absurd hover hnot
    · exact hok
    · exact hok

def apiPattern : UrlProposal :=
  { urlPattern := "https://api.example/*", proposer := 0, bondAmount := 0, voters := ∅, votesForStake := 0,
    votesAgainstStake := 0, createdAt := 0, votingEndsAt := 0, approved := true,
    rejected := false, slashed := false, responseFormat := .raw, schemaId := none }

/-- A URL under the approved base. -/
theorem keeps_sample :
    Keeps ((∅ : Map String UrlProposal).insert apiPattern.urlPattern apiPattern) "https://api.example/x" ∧
      hostOf "https://api.example/x".toUTF8.toList = some "api.example".toUTF8.toList := by
  have hadmits : Admits ("https://api.example".toUTF8.toList ++ [47, 42]) "https://api.example/x".toUTF8.toList :=
    .inr ⟨_, rfl, .inr (by decide +kernel)⟩
  refine ⟨(keeps_iff _ _).1.mpr (.inr ⟨_, apiPattern, (getElem?_insert_ite ..).trans (if_pos rfl), rfl, ?_⟩), ?_⟩
  · have hbytes : apiPattern.urlPattern.toUTF8.toList = "https://api.example".toUTF8.toList ++ [47, 42] := by
      decide +kernel
    rw [hbytes]
    exact hadmits
  · exact (keeps_iff ∅ "").2 _ _ _ hadmits (by decide +kernel)

/-- A host whose name goes on after the approved one. -/
theorem check_overreaches : ¬ ∀ proposals url, Keeps proposals url := by
  intro h
  have hcheck : checkUrlPermitted "https://api.example.evil.net/x" .public
      ((∅ : Map String UrlProposal).insert apiPattern.urlPattern apiPattern) = true := by decide +kernel
  obtain ⟨key, p, hget, -, hadmits⟩ := h _ _ hcheck
  rw [getElem?_insert_ite] at hget
  split_ifs at hget with hkey
  · obtain rfl := Option.some.inj hget
    have hbytes : apiPattern.urlPattern.toUTF8.toList = "https://api.example".toUTF8.toList ++ [47, 42] := by
      decide +kernel
    rw [hbytes] at hadmits
    rcases hadmits with hsame | ⟨base, hpattern, hurl⟩
    · exact absurd hsame (by decide +kernel)
    · obtain rfl := List.append_cancel_right hpattern
      exact absurd hurl (by decide +kernel)
  · cases hget

end TruthLinked.Ledger.UrlPatterns
