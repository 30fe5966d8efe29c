import UriTemplate.Expression.Token
import UriTemplate.Proofs.TextFacts

/-!
# Reading tokens and writing them

A token is an expression as written, its limits still in digits.  The readers take
what they can from the front of a text and leave the rest, and `Token.read?` takes the
whole text.  This module gives each of them its writer and says that the two are
inverse.  Reading therefore accepts exactly what writing produces.

What is left after a specification matters, as a specification takes all that can
belong to it.  `Stops` says which texts take nothing of it away.

* `RawVarSpec.take?_text_append` and `RawVarSpec.eq_of_take?`: what is taken from the
  front of a text, in both directions.  The lemmas on modifiers before them and on rows
  after them have the same form.
* `RawVarSpec.read?_eq_some` and `Token.read?_eq_some`: a text is read as a whole exactly
  when it is the writing of a well-formed specification or token.
* `Token.parse?` reads a token in another way, by splitting the text between the braces
  at its commas, and `Token.read?_eq_parse?` says that both read the same.
* `RawModifier.resolve_eq_ok`, `RawVarSpec.resolve_eq_ok`: limits in range are kept to
  the digit.
-/

namespace UriTemplate

/-! ## Lists of readings -/

/-- A row is read when each of its members is, by a reader with an inverse. -/
theorem mapM_eq_some_iff {α β : Type} {f : α → Option β} {g : β → α} {valid : β → Prop}
    (h : ∀ a b, f a = some b ↔ valid b ∧ a = g b) {as : List α} {bs : List β} :
    as.mapM f = some bs ↔ (∀ b ∈ bs, valid b) ∧ as = bs.map g := by
  induction as generalizing bs with
  | nil =>
    constructor
    · intro hbs
      obtain rfl : [] = bs := by simpa using hbs
      simp
    · intro h
      obtain ⟨-, hbs⟩ := h
      obtain rfl : bs = [] := by simpa using hbs.symm
      rfl
  | cons a as ih =>
    rw [List.mapM_cons]
    constructor
    · intro hbs
      simp only [Option.bind_eq_bind, Option.bind_eq_some_iff, Option.pure_def,
        Option.some.injEq] at hbs
      obtain ⟨b, hb, bs', hbs', rfl⟩ := hbs
      obtain ⟨hvalid, rfl⟩ := (h a b).1 hb
      obtain ⟨hvalids, rfl⟩ := ih.1 hbs'
      exact ⟨List.forall_mem_cons.2 ⟨hvalid, hvalids⟩, rfl⟩
    · intro h
      obtain ⟨hvalid, hmap⟩ := h
      cases bs with
      | nil => simp at hmap
      | cons b bs =>
        obtain ⟨ha, has⟩ := List.cons.inj hmap
        have hb := (h a b).2 ⟨hvalid b List.mem_cons_self, ha⟩
        have hbs := ih.2 ⟨fun x hx => hvalid x (List.mem_cons_of_mem _ hx), has⟩
        rw [hb, hbs]
        rfl

/-- A reading in two steps succeeds when both do. -/
theorem bind_eq_ok_iff {α β ε : Type} {x : Except ε α} {f : α → Except ε β} {b : β} :
    (x >>= f) = .ok b ↔ ∃ a, x = .ok a ∧ f a = .ok b := by
  cases x with
  | error e => simp [bind, Except.bind]
  | ok a => simp [bind, Except.bind]

theorem pure_eq_ok_iff {α ε : Type} {a b : α} :
    (pure a : Except ε α) = .ok b ↔ a = b := by
  simp [pure, Except.pure]

/-- A reading in two steps fails in the first step that fails. -/
theorem bind_eq_error_iff {α β ε : Type} {x : Except ε α} {f : α → Except ε β} {err : ε} :
    (x >>= f) = .error err ↔ x = .error err ∨ ∃ a, x = .ok a ∧ f a = .error err := by
  cases x with
  | error e => simp [bind, Except.bind]
  | ok a => simp [bind, Except.bind]

theorem pure_ne_error {α ε : Type} {a : α} {err : ε} : (pure a : Except ε α) ≠ .error err := by
  simp [pure, Except.pure]

theorem mapM_eq_ok_iff {α β ε : Type} {f : α → Except ε β} {g : β → α} {as : List α}
    (h : ∀ a ∈ as, ∀ b, f a = .ok b ↔ a = g b) {bs : List β} :
    as.mapM f = .ok bs ↔ as = bs.map g := by
  induction as generalizing bs with
  | nil =>
    rw [List.mapM_nil, pure_eq_ok_iff, eq_comm, List.nil_eq, List.map_eq_nil_iff]
  | cons a as ih =>
    have htail := fun bs => @ih (fun x hx => h x (List.mem_cons_of_mem _ hx)) bs
    simp only [List.mapM_cons, bind_eq_ok_iff, pure_eq_ok_iff]
    constructor
    · intro h
      obtain ⟨b, hb, bs', hbs', rfl⟩ := h
      rw [List.map_cons, ← (h a List.mem_cons_self b).1 hb, ← (htail bs').1 hbs']
    · intro hmap
      cases bs with
      | nil => simp at hmap
      | cons b bs =>
        obtain ⟨ha, has⟩ := List.cons.inj hmap
        exact ⟨b, (h a List.mem_cons_self b).2 ha, bs, (htail bs).2 has, rfl⟩

/-! ## Limits in digits -/

theorem isDigit_of_isLimitText {digits : Text} (h : isLimitText digits = true) :
    ∀ c ∈ digits, c.isDigit = true := by
  simp only [isLimitText, Bool.and_eq_true, List.all_eq_true] at h
  exact h.1

/-- Digits that can stand for a limit are the digits of their number. -/
theorem Text.ofNat_toNat_of_isLimitText {digits : Text} (h : isLimitText digits = true) :
    Text.ofNat (Text.toNat digits) = digits := by
  have hdigit := isDigit_of_isLimitText h
  simp only [isLimitText, Bool.and_eq_true] at h
  obtain ⟨-, hlead⟩ := h
  split at hlead
  · exact absurd hlead (by decide)
  · rfl
  · rename_i c rest _
    refine Text.ofNat_toNat (by simp) hdigit ?_
    simpa using hlead

/-- The digits of a positive number can stand for a limit. -/
theorem isLimitText_ofNat {n : Nat} (hn : 0 < n) : isLimitText (Text.ofNat n) = true := by
  have hdigit : (Text.ofNat n).all Char.isDigit = true :=
    List.all_eq_true.2 fun c hc => Text.isDigit_of_mem_ofNat hc
  have hhead := Text.head?_ofNat_ne_zero hn
  unfold isLimitText
  rw [hdigit, Bool.true_and]
  split
  · rename_i hnil
    exact absurd hnil (Text.ofNat_ne_nil n)
  · rfl
  · rename_i c rest _ heq
    rw [heq] at hhead
    simpa using hhead

/-! ## Modifiers -/

/-- What may follow a specification in an expression: a comma, the closing brace or
nothing. -/
def RawVarSpec.Stops (t : Text) : Prop :=
  ∀ c, t.head? = some c → c = ',' ∨ c = '}'

namespace RawModifier

/-- The modifier as it is written. -/
def text : RawModifier → Text
  | none => []
  | explode => ['*']
  | limit digits => ':' :: digits

/-- The digits of a limit are ones that the grammar allows. -/
def Valid : RawModifier → Prop
  | none | explode => True
  | limit digits => isLimitText digits = true

/-- A modifier begins with no name character, so a name ends before it. -/
theorem not_isNameChar_of_head? {m : RawModifier} {t : Text} (ht : RawVarSpec.Stops t)
    {c : Char} (h : (m.text ++ t).head? = some c) : isNameChar c = false := by
  cases m with
  | none =>
    rcases ht c h with rfl | rfl <;> decide
  | explode =>
    obtain rfl : '*' = c := by simpa [text] using h
    decide
  | limit digits =>
    obtain rfl : ':' = c := by simpa [text] using h
    decide

theorem eq_of_take {t rest : Text} {m : RawModifier} (h : take t = (m, rest)) :
    m.Valid ∧ t = m.text ++ rest := by
  unfold take at h
  split at h
  · cases h
    exact ⟨trivial, rfl⟩
  · rename_i digits
    split at h
    · rename_i hdigits
      cases h
      exact ⟨hdigits, by rw [text, List.cons_append, List.takeWhile_append_dropWhile]⟩
    · cases h
      exact ⟨trivial, rfl⟩
  · cases h
    exact ⟨trivial, rfl⟩

theorem take_text_append {m : RawModifier} (hm : m.Valid) {t : Text} (ht : RawVarSpec.Stops t) :
    take (m.text ++ t) = (m, t) := by
  cases m with
  | none =>
    rw [text, List.nil_append, take.eq_def]
    split
    · exact absurd (ht _ rfl) (by decide)
    · exact absurd (ht _ rfl) (by decide)
    · rfl
  | explode => rfl
  | limit digits =>
    have hdigit := isDigit_of_isLimitText hm
    have hend : ∀ c, t.head? = some c → c.isDigit = false := by
      intro c hc
      rcases ht c hc with rfl | rfl <;> decide
    rw [text, List.cons_append, take, Text.takeWhile_append_of_head? hdigit hend,
      Text.dropWhile_append_of_head? hdigit hend]
    exact if_pos hm

theorem comma_not_mem_text {m : RawModifier} (h : m.Valid) : ',' ∉ m.text := by
  cases m with
  | none => simp [text]
  | explode => simp [text]
  | limit digits =>
    intro hmem
    rcases List.mem_cons.1 hmem with heq | hmem
    · exact absurd heq (by decide)
    · exact absurd (isDigit_of_isLimitText h ',' hmem) (by decide)

end RawModifier

/-- The modifier with its limit in digits. -/
def Modifier.raw : Modifier → RawModifier
  | none => .none
  | explode => .explode
  | upTo limit => .limit (Text.ofNat limit.val)

@[simp] theorem Modifier.text_raw (m : Modifier) : m.raw.text = m.suffix := by
  cases m <;> rfl

theorem Modifier.valid_raw (m : Modifier) : m.raw.Valid := by
  cases m with
  | none => trivial
  | explode => trivial
  | upTo limit => exact isLimitText_ofNat limit.one_le

/-- A limit in range is read from a number that fits. -/
theorem Limit.ofInt_eq_ok {n : Int} {limit : Limit} :
    Limit.ofInt n = .ok limit ↔ n.toNat = limit.val := by
  unfold Limit.ofInt
  constructor
  · intro h
    split at h
    · cases h
      rfl
    · cases h
  · intro h
    have hrange : 1 ≤ n.toNat ∧ n.toNat ≤ maxLimit := h ▸ ⟨limit.one_le, limit.le_max⟩
    rw [dif_pos hrange]
    cases limit
    simp_all

/-- Only the digits of a limit in range are resolved to it. -/
theorem RawModifier.resolve_eq_ok {raw : RawModifier} (hvalid : raw.Valid) {m : Modifier} :
    raw.resolve = .ok m ↔ raw = m.raw := by
  cases raw with
  | none => cases m <;> simp [resolve, Modifier.raw]
  | explode => cases m <;> simp [resolve, Modifier.raw]
  | limit digits =>
    have hdigits : Text.ofNat (Text.toNat digits) = digits :=
      Text.ofNat_toNat_of_isLimitText hvalid
    have hread (limit : Limit) :
        Limit.ofInt (min (Text.toNat digits) largestReported) = .ok limit ↔
          digits = Text.ofNat limit.val := by
      have hmax : limit.val ≤ 9999 := limit.le_max
      have hlarge : 9999 < largestReported := by decide
      rw [Limit.ofInt_eq_ok]
      constructor
      · intro h
        have hvalue : Text.toNat digits = limit.val := by omega
        rw [← hdigits, hvalue]
      · intro h
        have hvalue : Text.toNat digits = limit.val := by rw [h, Text.toNat_ofNat]
        omega
    simp only [resolve, bind_eq_ok_iff, pure_eq_ok_iff, hread]
    cases m <;> simp [Modifier.raw]

/-! ## Specifications -/

namespace RawVarSpec

/-- The specification as it is written. -/
def text (raw : RawVarSpec) : Text :=
  raw.name.text ++ raw.modifier.text

theorem takeWhile_text_append (raw : RawVarSpec) {t : Text} (ht : Stops t) :
    (raw.text ++ t).takeWhile isNameChar = raw.name.text := by
  rw [text, List.append_assoc]
  exact Text.takeWhile_append_of_head? (fun c hc => raw.name.isNameChar_of_mem hc)
    fun c hc => RawModifier.not_isNameChar_of_head? ht hc

theorem dropWhile_text_append (raw : RawVarSpec) {t : Text} (ht : Stops t) :
    (raw.text ++ t).dropWhile isNameChar = raw.modifier.text ++ t := by
  rw [text, List.append_assoc]
  exact Text.dropWhile_append_of_head? (fun c hc => raw.name.isNameChar_of_mem hc)
    fun c hc => RawModifier.not_isNameChar_of_head? ht hc

/-- A specification begins with a name. -/
theorem exists_head?_text_append (raw : RawVarSpec) (t : Text) :
    ∃ c, (raw.text ++ t).head? = some c ∧ isNameChar c = true := by
  obtain ⟨c, name, hname⟩ : ∃ c name, raw.name.text = c :: name :=
    List.exists_cons_of_ne_nil raw.name.text_ne_nil
  refine ⟨c, by simp [text, hname], raw.name.isNameChar_of_mem ?_⟩
  rw [hname]
  exact List.mem_cons_self

/-- The digits of a limit are ones that the grammar allows. -/
def Valid (raw : RawVarSpec) : Prop :=
  raw.modifier.Valid

theorem eq_of_take? {t rest : Text} {raw : RawVarSpec} (h : take? t = some (raw, rest)) :
    raw.Valid ∧ t = raw.text ++ rest := by
  unfold take? at h
  split at h
  · rename_i hname
    obtain ⟨modifier, rest', htake⟩ :
        ∃ modifier rest', RawModifier.take (t.dropWhile isNameChar) = (modifier, rest') :=
      ⟨_, _, rfl⟩
    rw [htake] at h
    cases h
    obtain ⟨hvalid, htext⟩ := RawModifier.eq_of_take htake
    refine ⟨hvalid, ?_⟩
    rw [text, List.append_assoc, ← htext]
    exact List.takeWhile_append_dropWhile.symm
  · cases h

theorem take?_text_append {raw : RawVarSpec} (h : raw.Valid) {t : Text} (ht : Stops t) :
    take? (raw.text ++ t) = some (raw, t) := by
  have hname : isName ((raw.text ++ t).takeWhile isNameChar) = true := by
    rw [raw.takeWhile_text_append ht]
    exact raw.name.valid
  have hsame : (⟨_, hname⟩ : Name) = raw.name := Name.ext (raw.takeWhile_text_append ht)
  rw [take?, dif_pos hname, raw.dropWhile_text_append ht, RawModifier.take_text_append h ht, hsame]

/-- A text is a specification when nothing is left of it. -/
theorem read?_eq_some {t : Text} {raw : RawVarSpec} :
    read? t = some raw ↔ raw.Valid ∧ t = raw.text := by
  constructor
  · intro h
    unfold read? at h
    split at h
    · rename_i raw' htake
      cases h
      simpa using eq_of_take? htake
    · cases h
  · rintro ⟨hvalid, rfl⟩
    have htake := take?_text_append hvalid (t := []) (by simp [Stops])
    rw [List.append_nil] at htake
    rw [read?, htake]

theorem comma_not_mem_text {raw : RawVarSpec} (h : raw.Valid) : ',' ∉ raw.text := by
  intro hmem
  rcases List.mem_append.1 hmem with hname | hmodifier
  · exact absurd (raw.name.isNameChar_of_mem hname) (by decide)
  · exact RawModifier.comma_not_mem_text h hmodifier

end RawVarSpec

/-- The specification with its limit in digits. -/
def VarSpec.raw (spec : VarSpec) : RawVarSpec :=
  ⟨spec.name, spec.modifier.raw⟩

@[simp] theorem VarSpec.text_raw (spec : VarSpec) : spec.raw.text = spec.text := by
  simp [VarSpec.raw, RawVarSpec.text, VarSpec.text]

theorem VarSpec.valid_raw (spec : VarSpec) : spec.raw.Valid :=
  spec.modifier.valid_raw

theorem RawVarSpec.resolve_eq_ok {raw : RawVarSpec} (hvalid : raw.Valid) {spec : VarSpec} :
    raw.resolve = .ok spec ↔ raw = spec.raw := by
  obtain ⟨name, modifier⟩ := raw
  obtain ⟨name', modifier'⟩ := spec
  have hmodifier : modifier.resolve = .ok modifier' ↔ modifier = modifier'.raw :=
    RawModifier.resolve_eq_ok hvalid
  simp only [resolve, bind_eq_ok_iff, pure_eq_ok_iff, VarSpec.mk.injEq, VarSpec.raw,
    RawVarSpec.mk.injEq, ← hmodifier]
  constructor
  · intro h
    obtain ⟨m, hm, hname, rfl⟩ := h
    exact ⟨hname, hm⟩
  · intro h
    obtain ⟨hname, hm⟩ := h
    exact ⟨modifier', hm, hname, rfl⟩

/-! ## Rows of specifications -/

namespace RawVarSpec

/-- Specifications as they are written after another one. -/
def moreText (raws : List RawVarSpec) : Text :=
  raws.flatMap fun raw => ',' :: raw.text

@[simp] theorem moreText_cons (raw : RawVarSpec) (raws : List RawVarSpec) :
    moreText (raw :: raws) = ',' :: raw.text ++ moreText raws := rfl

/-- A row is its first specification and what is written after it. -/
theorem intercalate_text (first : RawVarSpec) (rest : List RawVarSpec) :
    List.intercalate [','] ((first :: rest).map text) = first.text ++ moreText rest := by
  induction rest generalizing first with
  | nil => simp [moreText]
  | cons next rest ih =>
    rw [List.map_cons, List.map_cons, List.intercalate_cons_cons, ← List.map_cons, ih,
      moreText_cons]
    simp

theorem stops_moreText_append {t : Text} (ht : Stops t) (raws : List RawVarSpec) :
    Stops (moreText raws ++ t) := by
  cases raws with
  | nil => exact ht
  | cons raw raws =>
    intro c hc
    exact .inl (by simpa using hc.symm)

theorem length_le_moreText (raws : List RawVarSpec) : raws.length ≤ (moreText raws).length := by
  induction raws with
  | nil => exact Nat.le_refl 0
  | cons raw raws ih =>
    simp only [moreText_cons, List.length_cons, List.length_append]
    omega

theorem eq_of_takeMore {n : Nat} {t rest : Text} {raws : List RawVarSpec}
    (h : takeMore n t = (raws, rest)) :
    (∀ raw ∈ raws, raw.Valid) ∧ t = moreText raws ++ rest := by
  fun_induction takeMore n t generalizing raws rest with
  | case1 n t raw rest' htake raws' rest'' hmore ih =>
    cases h
    obtain ⟨hvalid, rfl⟩ := eq_of_take? htake
    obtain ⟨hvalids, rfl⟩ := ih hmore
    exact ⟨List.forall_mem_cons.2 ⟨hvalid, hvalids⟩, by simp⟩
  | case2 n t htake =>
    cases h
    exact ⟨by simp, rfl⟩
  | case3 =>
    cases h
    exact ⟨by simp, rfl⟩

/-- A row is taken as far as it goes, and the closing brace ends it. -/
theorem takeMore_moreText_append {n : Nat} {raws : List RawVarSpec}
    (h : ∀ raw ∈ raws, raw.Valid) (hn : raws.length ≤ n) (t : Text) :
    takeMore n (moreText raws ++ '}' :: t) = (raws, '}' :: t) := by
  induction raws generalizing n with
  | nil =>
    cases n <;> rfl
  | cons raw raws ih =>
    obtain ⟨hraw, hraws⟩ := List.forall_mem_cons.1 h
    have hstops : Stops (moreText raws ++ '}' :: t) :=
      stops_moreText_append (by simp [Stops]) raws
    cases n with
    | zero => simp at hn
    | succ n =>
      have hmore := ih hraws (Nat.le_of_succ_le_succ hn)
      rw [moreText_cons, List.append_assoc, List.cons_append, takeMore,
        take?_text_append hraw hstops]
      simp only [hmore]

end RawVarSpec

/-! ## Tokens -/

/-- The form that every expression is written in holds its specifications
between the operator and the closing brace. -/
theorem braced_eq (op : Operator) (specs : List Text) :
    braced op specs = '{' :: (op.symbol ++ List.intercalate [','] specs) ++ ['}'] := rfl

namespace Token

/-- The specifications in order. -/
def specs (token : Token) : List RawVarSpec :=
  token.first :: token.rest

/-- The expression as it is written. -/
def text (token : Token) : Text :=
  braced token.op (token.specs.map RawVarSpec.text)

/-- The digits of every limit are ones that the grammar allows. -/
def Valid (token : Token) : Prop :=
  ∀ raw ∈ token.specs, raw.Valid

theorem body?_eq_some {t body : Text} :
    body? t = some body ↔ t = '{' :: body ++ ['}'] := by
  constructor
  · intro h
    unfold body? at h
    split at h
    · rename_i rest
      split at h
      · rename_i hlast
        cases h
        obtain ⟨init, rfl⟩ := List.getLast?_eq_some_iff.1 hlast
        rw [List.dropLast_concat, List.cons_append]
      · cases h
    · cases h
  · rintro rfl
    rw [List.cons_append, body?, if_pos (by simp), List.dropLast_concat]

/-- The operator is taken off and put back. -/
theorem symbol_append_takeOperator (t : Text) :
    (takeOperator t).1.symbol ++ (takeOperator t).2 = t := by
  unfold takeOperator
  split
  · rfl
  · split
    · rename_i op hop
      rw [Operator.symbol_eq_singleton.2 hop]
      rfl
    · rfl

theorem ofChar?_eq_none {c : Char} (h : isNameChar c = true) : Operator.ofChar? c = none := by
  cases hop : Operator.ofChar? c with
  | none => rfl
  | some op =>
    exfalso
    have hsymbol := Operator.symbol_eq_singleton.2 hop
    cases op <;> simp only [Operator.symbol, List.cons.injEq, and_true, reduceCtorEq] at hsymbol
    all_goals
      subst hsymbol
      exact absurd h (by decide)

/-- A text that begins with a name keeps no operator before it. -/
theorem takeOperator_symbol (op : Operator) {t : Text} {c : Char} (hhead : t.head? = some c)
    (hc : isNameChar c = true) : takeOperator (op.symbol ++ t) = (op, t) := by
  cases op with
  | simple =>
    cases t with
    | nil => simp at hhead
    | cons d t =>
      obtain rfl : d = c := by simpa using hhead
      rw [Operator.symbol, List.nil_append, takeOperator, ofChar?_eq_none hc]
  | reserved => rfl
  | fragment => rfl
  | label => rfl
  | path => rfl
  | parameter => rfl
  | query => rfl
  | queryContinuation => rfl

/-- The text of a token from its front on. -/
theorem text_eq (token : Token) :
    token.text = '{' :: (token.op.symbol ++
      (token.first.text ++ (RawVarSpec.moreText token.rest ++ ['}']))) := by
  rw [text, braced_eq, specs, RawVarSpec.intercalate_text]
  simp

theorem eq_of_take? {t rest : Text} {token : Token} (h : take? t = some (token, rest)) :
    token.Valid ∧ t = token.text ++ rest := by
  unfold take? at h
  split at h
  · rename_i t
    simp only [Option.bind_eq_bind, Option.bind_eq_some_iff, Prod.exists] at h
    obtain ⟨first, t', hfirst, h⟩ := h
    obtain ⟨more, t'', hmore⟩ :
        ∃ more t'', RawVarSpec.takeMore t'.length t' = (more, t'') := ⟨_, _, rfl⟩
    rw [hmore] at h
    obtain ⟨hvalid, hrow⟩ := RawVarSpec.eq_of_take? hfirst
    obtain ⟨hvalids, rfl⟩ := RawVarSpec.eq_of_takeMore hmore
    have hfront := symbol_append_takeOperator t
    rw [hrow] at hfront
    split at h
    · rename_i rest' hclose
      obtain rfl : t'' = '}' :: rest' := hclose
      cases h
      refine ⟨List.forall_mem_cons.2 ⟨hvalid, hvalids⟩, ?_⟩
      rw [text_eq]
      refine congrArg (List.cons '{') (hfront.symm.trans ?_)
      simp
    · cases h
  · cases h

theorem take?_text_append {token : Token} (h : token.Valid) (t : Text) :
    take? (token.text ++ t) = some (token, t) := by
  obtain ⟨hfirst, hrest⟩ := List.forall_mem_cons.1 h
  let back : Text := RawVarSpec.moreText token.rest ++ '}' :: t
  have hstops : RawVarSpec.Stops back :=
    RawVarSpec.stops_moreText_append (by simp [RawVarSpec.Stops]) token.rest
  have hlength : token.rest.length ≤ back.length := by
    have := RawVarSpec.length_le_moreText token.rest
    rw [List.length_append]
    omega
  have hmore : RawVarSpec.takeMore back.length back = (token.rest, '}' :: t) :=
    RawVarSpec.takeMore_moreText_append hrest hlength t
  obtain ⟨c, hhead, hc⟩ := token.first.exists_head?_text_append back
  have htext : token.text ++ t = '{' :: (token.op.symbol ++ (token.first.text ++ back)) := by
    rw [text_eq]
    simp [back]
  rw [htext, take?, takeOperator_symbol token.op hhead hc]
  simp only [RawVarSpec.take?_text_append hfirst hstops, Option.bind_eq_bind, Option.bind_some,
    hmore]

/-- A text is a token when nothing is left of it. -/
theorem read?_eq_some {t : Text} {token : Token} :
    read? t = some token ↔ token.Valid ∧ t = token.text := by
  constructor
  · intro h
    unfold read? at h
    split at h
    · rename_i token' htake
      cases h
      simpa using eq_of_take? htake
    · cases h
  · rintro ⟨hvalid, rfl⟩
    have htake := take?_text_append hvalid []
    rw [List.append_nil] at htake
    rw [read?, htake]

/-- Reads an expression by the fields between its commas. -/
def parse? (t : Text) : Option Token := do
  let (op, body) := takeOperator (← body? t)
  match ← (Text.fields ',' body).mapM RawVarSpec.read? with
  | [] => none
  | first :: rest => some ⟨op, first, rest⟩

theorem parse?_eq_some {t : Text} {token : Token} :
    parse? t = some token ↔ token.Valid ∧ t = token.text := by
  constructor
  · intro h
    simp only [parse?, Option.bind_eq_bind, Option.bind_eq_some_iff] at h
    obtain ⟨body, hbody, raws, hraws, h⟩ := h
    obtain rfl := body?_eq_some.1 hbody
    obtain ⟨hvalid, hfields⟩ := (mapM_eq_some_iff fun _ _ => RawVarSpec.read?_eq_some).1 hraws
    have hjoin := Text.intercalate_fields ',' (takeOperator body).2
    rw [hfields] at hjoin
    cases raws with
    | nil => cases h
    | cons first rest =>
      cases h
      refine ⟨hvalid, ?_⟩
      rw [text, braced_eq, specs, hjoin, symbol_append_takeOperator]
  · intro h
    obtain ⟨hvalid, rfl⟩ := h
    obtain ⟨c, hhead, hc⟩ :=
      token.first.exists_head?_text_append (RawVarSpec.moreText token.rest)
    rw [← RawVarSpec.intercalate_text] at hhead
    have hbody := body?_eq_some.2 (braced_eq token.op (token.specs.map RawVarSpec.text))
    have hfields :
        Text.fields ',' (List.intercalate [','] (token.specs.map RawVarSpec.text)) =
          token.specs.map RawVarSpec.text := by
      refine Text.fields_intercalate (by simp [specs]) ?_
      intro part hpart
      obtain ⟨raw, hraw, rfl⟩ := List.mem_map.1 hpart
      exact RawVarSpec.comma_not_mem_text (hvalid raw hraw)
    have hraws : (token.specs.map RawVarSpec.text).mapM RawVarSpec.read? = some token.specs :=
      (mapM_eq_some_iff fun _ _ => RawVarSpec.read?_eq_some).2 ⟨hvalid, rfl⟩
    have htake := takeOperator_symbol token.op hhead hc
    rw [text, parse?, hbody]
    simp only [Option.bind_eq_bind, Option.bind_some]
    rw [specs] at hfields hraws ⊢
    rw [htake, hfields, hraws]
    rfl

/-- Taking a text from its front and splitting it at its commas give the same. -/
theorem read?_eq_parse? (t : Text) : read? t = parse? t :=
  Option.ext fun token => by rw [read?_eq_some, parse?_eq_some]

end Token

end UriTemplate
