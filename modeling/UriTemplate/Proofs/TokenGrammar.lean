import Mathlib.Data.List.Forall2
import UriTemplate.Proofs.ExpressionReading

/-!
# The grammar of expressions

The grammar says which texts are expressions, without saying how they are read:

    expression = "{" [ operator ] varspec *( "," varspec ) "}"
    varspec    = name [ "*" / ":" limit ]
    limit      = "0" / nonzero-digit *digit

`Token.Derives` is this grammar, with a token for each derivation.  The readers take
names off the front of a text or split it at its commas, so it has to be shown that
they find the derivation if there is one (`Token.parse?_eq_some_iff_derives`).

A derived token can still have a limit out of range.  Limits are put in range
from left to right, and `RawVarSpec.resolve_row` and
`RawVarSpec.resolve_row_error` follow the row up to the first one that is not.
`Expression.parse_by_grammar` puts both together: every text is read, or refused
for its leftmost limit out of range, or refused as no expression at all.
-/

namespace UriTemplate

/-! ## Derivations -/

/-- `0`, or digits without a leading zero. -/
inductive LimitDigits : Text → Prop where
  | zero : LimitDigits ['0']
  | digits {c : Char} {rest : Text} (hc : c.isDigit = true) (hzero : c ≠ '0')
    (hrest : ∀ d ∈ rest, d.isDigit = true) : LimitDigits (c :: rest)

inductive RawModifier.Derives : RawModifier → Text → Prop where
  | none : Derives .none []
  | explode : Derives .explode ['*']
  | limit {digits : Text} (h : LimitDigits digits) : Derives (.limit digits) (':' :: digits)

inductive RawVarSpec.Derives : RawVarSpec → Text → Prop where
  | spec {name : Name} {modifier : RawModifier} {suffix : Text} (h : modifier.Derives suffix) :
    Derives ⟨name, modifier⟩ (name.text ++ suffix)

/-- One specification, and more of them after commas. -/
inductive RawVarSpec.DeriveRow : RawVarSpec → List RawVarSpec → Text → Prop where
  | one {raw : RawVarSpec} {t : Text} (h : raw.Derives t) : DeriveRow raw [] t
  | more {raw next : RawVarSpec} {rest : List RawVarSpec} {t row : Text} (h : raw.Derives t)
    (hrow : DeriveRow next rest row) : DeriveRow raw (next :: rest) (t ++ ',' :: row)

inductive Token.Derives : Token → Text → Prop where
  | braces {op : Operator} {first : RawVarSpec} {rest : List RawVarSpec} {row : Text}
    (h : RawVarSpec.DeriveRow first rest row) :
    Derives ⟨op, first, rest⟩ ('{' :: (op.symbol ++ row) ++ ['}'])

/-! ## The reader and the grammar -/

theorem limitDigits_iff {digits : Text} : LimitDigits digits ↔ isLimitText digits = true := by
  constructor
  · intro h
    cases h with
    | zero => rfl
    | digits hc hzero hrest =>
      have hall : (_ :: _ : Text).all Char.isDigit = true :=
        List.all_eq_true.2 (List.forall_mem_cons.2 ⟨hc, hrest⟩)
      unfold isLimitText
      rw [hall, Bool.true_and]
      split
      · contradiction
      · rfl
      · rename_i heq
        rw [(List.cons.inj heq).1] at hzero
        simpa using hzero
  · intro h
    simp only [isLimitText, Bool.and_eq_true, List.all_eq_true] at h
    obtain ⟨hdigit, hlead⟩ := h
    cases digits with
    | nil => simp at hlead
    | cons c rest =>
      by_cases hzero : c = '0'
      · -- After a zero nothing may follow.
        subst hzero
        cases rest with
        | nil => exact .zero
        | cons d rest => simp at hlead
      · exact .digits (hdigit c List.mem_cons_self) hzero
          fun d hd => hdigit d (List.mem_cons_of_mem _ hd)

theorem RawModifier.derives_iff {m : RawModifier} {t : Text} :
    m.Derives t ↔ m.Valid ∧ t = m.text := by
  constructor
  · intro h
    cases h with
    | none => exact ⟨trivial, rfl⟩
    | explode => exact ⟨trivial, rfl⟩
    | limit hdigits => exact ⟨limitDigits_iff.1 hdigits, rfl⟩
  · rintro ⟨hvalid, rfl⟩
    cases m with
    | none => exact .none
    | explode => exact .explode
    | limit digits => exact .limit (limitDigits_iff.2 hvalid)

namespace RawVarSpec

theorem derives_iff {raw : RawVarSpec} {t : Text} : raw.Derives t ↔ raw.Valid ∧ t = raw.text := by
  constructor
  · intro h
    cases h with
    | spec hmodifier =>
      obtain ⟨hvalid, rfl⟩ := RawModifier.derives_iff.1 hmodifier
      exact ⟨hvalid, rfl⟩
  · rintro ⟨hvalid, rfl⟩
    exact .spec (RawModifier.derives_iff.2 ⟨hvalid, rfl⟩)

theorem deriveRow_iff {first : RawVarSpec} {rest : List RawVarSpec} {row : Text} :
    DeriveRow first rest row ↔
      (∀ raw ∈ first :: rest, raw.Valid) ∧
        row = List.intercalate [','] ((first :: rest).map text) := by
  induction rest generalizing first row with
  | nil =>
    constructor
    · intro h
      cases h with
      | one hfirst =>
        obtain ⟨hvalid, rfl⟩ := derives_iff.1 hfirst
        simpa using hvalid
    · rintro ⟨hvalid, rfl⟩
      have hfirst : first.Derives first.text :=
        derives_iff.2 ⟨hvalid first List.mem_cons_self, rfl⟩
      simpa using DeriveRow.one hfirst
  | cons next rest ih =>
    have hjoin : List.intercalate [','] ((first :: next :: rest).map text) =
        first.text ++ ',' :: List.intercalate [','] ((next :: rest).map text) := by
      rw [List.map_cons, List.map_cons, List.intercalate_cons_cons]
      simp
    rw [hjoin, List.forall_mem_cons]
    constructor
    · intro h
      cases h with
      | more hfirst hrow =>
        obtain ⟨hvalid, rfl⟩ := derives_iff.1 hfirst
        obtain ⟨hvalids, rfl⟩ := ih.1 hrow
        exact ⟨⟨hvalid, hvalids⟩, rfl⟩
    · rintro ⟨⟨hvalid, hvalids⟩, rfl⟩
      exact .more (derives_iff.2 ⟨hvalid, rfl⟩) (ih.2 ⟨hvalids, rfl⟩)

end RawVarSpec

namespace Token

theorem derives_iff {token : Token} {t : Text} :
    token.Derives t ↔ token.Valid ∧ t = token.text := by
  constructor
  · intro h
    cases h with
    | braces hrow =>
      obtain ⟨hvalid, rfl⟩ := RawVarSpec.deriveRow_iff.1 hrow
      exact ⟨hvalid, rfl⟩
  · rintro ⟨hvalid, rfl⟩
    exact .braces (RawVarSpec.deriveRow_iff.2 ⟨hvalid, rfl⟩)

/-- The reader finds the derivation of a text, and there is no other one. -/
theorem parse?_eq_some_iff_derives {token : Token} {t : Text} :
    parse? t = some token ↔ token.Derives t := by
  rw [parse?_eq_some, derives_iff]

theorem parse?_eq_none_iff_not_derives {t : Text} :
    parse? t = none ↔ ¬∃ token : Token, token.Derives t := by
  simp [Option.eq_none_iff_forall_ne_some, parse?_eq_some_iff_derives]

end Token

/-! ## Limits -/

/-- A number of characters that a modifier can keep. -/
def LimitInRange (n : Nat) : Prop :=
  1 ≤ n ∧ n ≤ 9999

/-- The number that is reported for a limit: numbers from 2⁶³ on are not told
apart. -/
def reportedLimit (n : Nat) : Int :=
  if n ≤ 9223372036854775807 then n else 9223372036854775807

/-- The number that the digits of a limit spell. -/
def RawModifier.limit? : RawModifier → Option Nat
  | .limit digits => some (Text.toNat digits)
  | .none | .explode => Option.none

/-- The limits in a row of specifications, from left to right. -/
def RawVarSpec.limits (raws : List RawVarSpec) : List Nat :=
  raws.filterMap fun raw => raw.modifier.limit?

/-- The limits from left to right. -/
def Token.limits (token : Token) : List Nat :=
  RawVarSpec.limits token.specs

/-! ## What is written -/

/-- A modifier as written, and the modifier that is meant. -/
inductive RawModifier.Denotes : RawModifier → Modifier → Prop where
  | none : Denotes .none .none
  | explode : Denotes .explode .explode
  | limit {digits : Text} {limit : Limit} (h : Text.toNat digits = limit.val) :
    Denotes (.limit digits) (.upTo limit)

structure RawVarSpec.Denotes (raw : RawVarSpec) (spec : VarSpec) : Prop where
  name : raw.name = spec.name
  modifier : raw.modifier.Denotes spec.modifier

/-- One specification stands for a member and several for a composite, with the
operator in each of its members. -/
inductive Token.Denotes : Token → Expression → Prop where
  | member {m : Member} {raw : RawVarSpec} (h : raw.Denotes m.spec) :
    Denotes ⟨m.op, raw, []⟩ (.member m)
  | composite {e : Composite} {first next : RawVarSpec} {rest : List RawVarSpec}
    (h : List.Forall₂ (fun raw (m : Member) => m.op = e.op ∧ raw.Denotes m.spec)
      (first :: next :: rest) e.members) :
    Denotes ⟨e.op, first, next :: rest⟩ (.composite e)

/-! ## Putting limits in range -/

theorem Limit.ofInt_min_of_inRange {n : Nat} (h : LimitInRange n) :
    ∃ limit, Limit.ofInt (min n largestReported) = .ok limit ∧ n = limit.val := by
  obtain ⟨hone, hmax⟩ := h
  have hlarge : 9999 ≤ largestReported := by decide
  refine ⟨⟨n, hone, hmax⟩, Limit.ofInt_eq_ok.2 ?_, rfl⟩
  show (min (n : Int) largestReported).toNat = n
  omega

theorem Limit.ofInt_min_of_not_inRange {n : Nat} (h : ¬LimitInRange n) :
    Limit.ofInt (min n largestReported) = .error (.invalidLimit (reportedLimit n)) := by
  have hlarge : largestReported = 9223372036854775807 := by decide
  have hmax : maxLimit = 9999 := rfl
  have hreported : min (n : Int) largestReported = reportedLimit n := by
    unfold reportedLimit
    split <;> omega
  rw [Limit.ofInt, hreported, dif_neg]
  unfold LimitInRange at h
  unfold reportedLimit
  split <;> omega

namespace RawModifier

theorem resolve_of_inRange {raw : RawModifier} (h : ∀ n, raw.limit? = some n → LimitInRange n) :
    ∃ m, raw.resolve = .ok m ∧ raw.Denotes m := by
  cases raw with
  | none => exact ⟨_, rfl, .none⟩
  | explode => exact ⟨_, rfl, .explode⟩
  | limit digits =>
    obtain ⟨limit, hlimit, hval⟩ := Limit.ofInt_min_of_inRange (h _ rfl)
    refine ⟨.upTo limit, ?_, .limit hval⟩
    rw [resolve, hlimit]
    rfl

theorem resolve_of_not_inRange {raw : RawModifier} {n : Nat} (hlimit : raw.limit? = some n)
    (h : ¬LimitInRange n) : raw.resolve = .error (.invalidLimit (reportedLimit n)) := by
  cases raw with
  | none => cases hlimit
  | explode => cases hlimit
  | limit digits =>
    cases hlimit
    rw [resolve, Limit.ofInt_min_of_not_inRange h]
    rfl

end RawModifier

namespace RawVarSpec

theorem resolve_of_inRange (raw : RawVarSpec)
    (h : ∀ n, raw.modifier.limit? = some n → LimitInRange n) :
    ∃ spec, raw.resolve = .ok spec ∧ raw.Denotes spec := by
  obtain ⟨m, hm, hdenotes⟩ := RawModifier.resolve_of_inRange h
  have hresolve : raw.resolve = .ok ⟨raw.name, m⟩ := by
    rw [resolve, hm]
    rfl
  exact ⟨⟨raw.name, m⟩, hresolve, rfl, hdenotes⟩

theorem resolve_of_not_inRange {raw : RawVarSpec} {n : Nat}
    (hlimit : raw.modifier.limit? = some n) (h : ¬LimitInRange n) :
    raw.resolve = .error (.invalidLimit (reportedLimit n)) := by
  rw [resolve, RawModifier.resolve_of_not_inRange hlimit h]
  rfl

theorem limits_cons (raw : RawVarSpec) (raws : List RawVarSpec) :
    limits (raw :: raws) = raw.modifier.limit?.toList ++ limits raws := by
  unfold limits
  cases hlimit : raw.modifier.limit? with
  | none =>
    rw [List.filterMap_cons_none (f := fun raw : RawVarSpec => raw.modifier.limit?) hlimit]
    rfl
  | some n =>
    rw [List.filterMap_cons_some (f := fun raw : RawVarSpec => raw.modifier.limit?) hlimit]
    rfl

/-- A row is resolved when its limits are in range, each to what it denotes. -/
theorem resolve_row {raws : List RawVarSpec} (h : ∀ n ∈ limits raws, LimitInRange n) :
    ∃ specs, raws.mapM resolve = .ok specs ∧ List.Forall₂ Denotes raws specs := by
  induction raws with
  | nil => exact ⟨[], rfl, .nil⟩
  | cons raw raws ih =>
    rw [limits_cons, List.forall_mem_append] at h
    obtain ⟨hhead, htail⟩ := h
    have hraw : ∀ n, raw.modifier.limit? = some n → LimitInRange n := by
      intro n hn
      apply hhead
      rw [hn]
      exact List.mem_cons_self
    obtain ⟨spec, hspec, hdenotes⟩ := resolve_of_inRange raw hraw
    obtain ⟨specs, hspecs, hrow⟩ := ih htail
    refine ⟨spec :: specs, ?_, .cons hdenotes hrow⟩
    rw [List.mapM_cons, hspec, hspecs]
    rfl

/-- A row is refused for its leftmost limit out of range. -/
theorem resolve_row_error {raws : List RawVarSpec} {front back : List Nat} {n : Nat}
    (hlimits : limits raws = front ++ n :: back) (hfront : ∀ m ∈ front, LimitInRange m)
    (hn : ¬LimitInRange n) :
    raws.mapM resolve = .error (.invalidLimit (reportedLimit n)) := by
  induction raws generalizing front with
  | nil =>
    have hnil : limits [] = [] := rfl
    rw [hnil] at hlimits
    simp at hlimits
  | cons raw raws ih =>
    rw [List.mapM_cons]
    rw [limits_cons] at hlimits
    cases hlimit : raw.modifier.limit? with
    | none =>
      -- A specification without a limit is resolved.
      rw [hlimit] at hlimits
      have htail : limits raws = front ++ n :: back := hlimits
      have hraw : ∀ m, raw.modifier.limit? = some m → LimitInRange m := by simp [hlimit]
      obtain ⟨spec, hspec, -⟩ := resolve_of_inRange raw hraw
      have hrow := ih htail hfront
      rw [hspec, hrow]
      rfl
    | some m =>
      rw [hlimit] at hlimits
      change m :: limits raws = front ++ n :: back at hlimits
      cases front with
      | nil =>
        obtain ⟨rfl, -⟩ := List.cons.inj hlimits
        rw [resolve_of_not_inRange hlimit hn]
        rfl
      | cons m' front =>
        obtain ⟨rfl, htail⟩ := List.cons.inj hlimits
        obtain ⟨hm, hfront⟩ := List.forall_mem_cons.1 hfront
        have hraw : ∀ k, raw.modifier.limit? = some k → LimitInRange k := by simp [hlimit, hm]
        obtain ⟨spec, hspec, -⟩ := resolve_of_inRange raw hraw
        have hrow := ih htail hfront
        rw [hspec, hrow]
        rfl

end RawVarSpec

namespace Token

theorem resolve_of_row {token : Token} {spec : VarSpec} {specs : List VarSpec}
    (h : token.specs.mapM RawVarSpec.resolve = .ok (spec :: specs)) :
    token.resolve = .ok (.ofSpecs token.op spec specs) := by
  rw [Token.specs, List.mapM_cons] at h
  simp only [bind_eq_ok_iff, pure_eq_ok_iff, List.cons.injEq] at h
  obtain ⟨first, hfirst, rest, hrest, rfl, rfl⟩ := h
  rw [resolve, hfirst, hrest]
  cases rest <;> rfl

theorem resolve_of_row_error {token : Token} {err : Error}
    (h : token.specs.mapM RawVarSpec.resolve = .error err) : token.resolve = .error err := by
  rw [Token.specs, List.mapM_cons] at h
  rw [resolve]
  rcases bind_eq_error_iff.1 h with hfirst | ⟨first, hfirst, hrow⟩
  · exact bind_eq_error_iff.2 (.inl hfirst)
  · rcases bind_eq_error_iff.1 hrow with hrest | ⟨rest, -, hpure⟩
    · exact bind_eq_error_iff.2 (.inr ⟨first, hfirst, bind_eq_error_iff.2 (.inl hrest)⟩)
    · exact absurd hpure pure_ne_error

/-- The limits are all in range, or there is a leftmost one that is not. -/
theorem limits_cases (limits : List Nat) :
    (∀ n ∈ limits, LimitInRange n) ∨
      ∃ front n back, limits = front ++ n :: back ∧ (∀ m ∈ front, LimitInRange m) ∧
        ¬LimitInRange n := by
  induction limits with
  | nil => exact .inl (by simp)
  | cons n limits ih =>
    by_cases hn : LimitInRange n
    · rcases ih with hall | ⟨front, m, back, rfl, hfront, hm⟩
      · exact .inl (List.forall_mem_cons.2 ⟨hn, hall⟩)
      · exact .inr ⟨n :: front, m, back, rfl, List.forall_mem_cons.2 ⟨hn, hfront⟩, hm⟩
    · exact .inr ⟨[], n, limits, rfl, by simp, hn⟩

/-- A row that denotes its specifications denotes the expression of them. -/
theorem denotes_ofSpecs {op : Operator} {first : RawVarSpec} {rest : List RawVarSpec}
    {spec : VarSpec} {specs : List VarSpec} (hfirst : first.Denotes spec)
    (hrest : List.Forall₂ RawVarSpec.Denotes rest specs) :
    Denotes ⟨op, first, rest⟩ (.ofSpecs op spec specs) := by
  cases hrest with
  | nil => exact Denotes.member (m := ⟨op, spec⟩) hfirst
  | @cons next spec' rest specs hnext hrest =>
    refine Denotes.composite (e := ⟨op, spec, spec' :: specs⟩) ?_
    have hrow : List.Forall₂ RawVarSpec.Denotes (first :: next :: rest) (spec :: spec' :: specs) :=
      .cons hfirst (.cons hnext hrest)
    unfold Composite.members
    rw [List.forall₂_map_right_iff]
    exact hrow.imp fun _ _ h => ⟨rfl, h⟩

theorem resolve_of_inRange {token : Token} (h : ∀ n ∈ token.limits, LimitInRange n) :
    ∃ e, token.resolve = .ok e ∧ token.Denotes e := by
  obtain ⟨specs, hspecs, hrow⟩ := RawVarSpec.resolve_row h
  obtain ⟨spec, rest, hfirst, hrest, rfl⟩ := List.forall₂_cons_left_iff.1 hrow
  exact ⟨_, resolve_of_row hspecs, denotes_ofSpecs hfirst hrest⟩

theorem resolve_of_not_inRange {token : Token} {front back : List Nat} {n : Nat}
    (hlimits : token.limits = front ++ n :: back) (hfront : ∀ m ∈ front, LimitInRange m)
    (hn : ¬LimitInRange n) : token.resolve = .error (.invalidLimit (reportedLimit n)) :=
  resolve_of_row_error (RawVarSpec.resolve_row_error hlimits hfront hn)

end Token

/-! ## Reading every text -/

namespace Expression

/-- Every text is read by the grammar.  If it derives a token, the token is what is
read, unless a limit is out of range; then the leftmost such limit is reported.
Every other text is refused as a whole. -/
theorem parse_by_grammar (t : Text) :
    (∀ token : Token, token.Derives t →
      ((∀ n ∈ token.limits, LimitInRange n) → ∃ e, parse t = .ok e ∧ token.Denotes e) ∧
      (∀ front n back, token.limits = front ++ n :: back → (∀ m ∈ front, LimitInRange m) →
        ¬LimitInRange n → parse t = .error (.invalidLimit (reportedLimit n)))) ∧
    ((¬∃ token : Token, token.Derives t) → parse t = .error (.unrecognizedExpression t)) ∧
    ∀ raw, parse t ≠ .error (.invalidName raw) := by
  have hderived (token : Token) (h : token.Derives t) : parse t = token.resolve := by
    rw [parse_eq, Token.parse?_eq_some_iff_derives.2 h]
  have hother (h : ¬∃ token : Token, token.Derives t) :
      parse t = .error (.unrecognizedExpression t) := by
    rw [parse_eq, Token.parse?_eq_none_iff_not_derives.2 h]
  refine ⟨fun token h => ⟨fun hrange => ?_, fun front n back hlimits hfront hn => ?_⟩, hother, ?_⟩
  · rw [hderived token h]
    exact Token.resolve_of_inRange hrange
  · rw [hderived token h]
    exact Token.resolve_of_not_inRange hlimits hfront hn
  · intro raw hname
    by_cases h : ∃ token : Token, token.Derives t
    · obtain ⟨token, h⟩ := h
      rw [hderived token h] at hname
      rcases Token.limits_cases token.limits with hrange | ⟨front, n, back, hlimits, hfront, hn⟩
      · obtain ⟨e, he, -⟩ := Token.resolve_of_inRange hrange
        rw [he] at hname
        cases hname
      · rw [Token.resolve_of_not_inRange hlimits hfront hn] at hname
        cases hname
    · rw [hother h] at hname
      cases hname

theorem parse_by_grammar_second_limit :
    ∃ token : Token, token.Derives "\x7b?a:3,b:99999999999999999999,c:0\x7d".toList ∧
      token.limits = [3] ++ 99999999999999999999 :: [0] ∧ (∀ m ∈ [3], LimitInRange m) ∧
      ¬LimitInRange 99999999999999999999 ∧
      parse "\x7b?a:3,b:99999999999999999999,c:0\x7d".toList =
        .error (.invalidLimit 9223372036854775807) := by
  let token : Token := ⟨.query, ⟨⟨['a'], rfl⟩, .limit ['3']⟩,
    [⟨⟨['b'], rfl⟩, .limit "99999999999999999999".toList⟩, ⟨⟨['c'], rfl⟩, .limit ['0']⟩]⟩
  have hderives : token.Derives "\x7b?a:3,b:99999999999999999999,c:0\x7d".toList :=
    Token.parse?_eq_some_iff_derives.1 rfl
  have hlimits : token.limits = [3] ++ 99999999999999999999 :: [0] := rfl
  have hfirst : ∀ m ∈ [3], LimitInRange m := by simp [LimitInRange]
  have hsecond : ¬LimitInRange 99999999999999999999 := by simp [LimitInRange]
  exact ⟨token, hderives, hlimits, hfirst, hsecond,
    ((parse_by_grammar _).1 token hderives).2 [3] _ [0] hlimits hfirst hsecond⟩

end Expression

end UriTemplate
