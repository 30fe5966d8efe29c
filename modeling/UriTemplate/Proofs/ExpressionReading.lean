import UriTemplate.Proofs.TokenReading

/-!
# Reading expressions and writing them

An expression is read by asking its families one after another.  At most one family
recognises a text, the one of the token that the text is, and it gives what the token is
resolved to.  `Token.parse?` and `Token.resolve` are therefore all that is needed of the
families.

* `Composite.foldlM_add`: adding specifications one by one resolves all of them.
* `Family.probe_eq`: what each family answers.
* `Expression.parse_eq`: reading is finding the token and resolving it.
* `Expression.parse_eq_foldlM_add`: a composite is its first specification with the
  others added to it.
* `Expression.parse_eq_ok`: reading accepts what writing produces.
  `Expression.text_of_parse` and `Expression.parse_braced` are its two directions.

Every expression has an operator and specifications, whichever of the four kinds
it is.  `Expression.op` and `Expression.specs` are this view.
-/

namespace UriTemplate

/-- The expression, unless a limit is out of range. -/
def Token.resolve (token : Token) : Except Error Expression := do
  let first ← token.first.resolve
  let rest ← token.rest.mapM RawVarSpec.resolve
  match rest with
  | [] => return .member ⟨token.op, first⟩
  | _ => return .composite ⟨token.op, first, rest⟩

/-! ## Adding specifications -/

/-- Adding specifications one by one resolves them from left to right. -/
theorem Composite.foldlM_add {texts : List Text} {raws : List RawVarSpec}
    (h : texts.mapM RawVarSpec.read? = some raws) (e : Composite) :
    texts.foldlM Composite.add e =
      (raws.mapM RawVarSpec.resolve).map fun specs => { e with rest := e.rest ++ specs } := by
  induction texts generalizing raws e with
  | nil =>
    obtain rfl : [] = raws := by simpa using h
    simp [Except.map, pure, Except.pure]
  | cons t texts ih =>
    simp only [List.mapM_cons, Option.bind_eq_bind, Option.bind_eq_some_iff, Option.pure_def,
      Option.some.injEq] at h
    obtain ⟨raw, hraw, raws, hraws, rfl⟩ := h
    have hparse : VarSpec.parse t = raw.resolve := by rw [VarSpec.parse, hraw]
    rw [List.foldlM_cons, List.mapM_cons, add, hparse]
    cases raw.resolve with
    | error err => rfl
    | ok spec =>
      show texts.foldlM add { e with rest := e.rest ++ [spec] } = _
      rw [ih hraws]
      cases raws.mapM RawVarSpec.resolve with
      | error err => rfl
      | ok specs =>
        show Except.ok { e with rest := e.rest ++ [spec] ++ specs } = _
        rw [List.append_assoc]
        rfl

/-- Several specifications are resolved to the first one with the others added to it. -/
theorem Token.resolve_eq_foldlM_add {op : Operator} {first next : RawVarSpec}
    {rest : List RawVarSpec} {texts : List Text}
    (h : texts.mapM RawVarSpec.read? = some (next :: rest)) :
    Token.resolve ⟨op, first, next :: rest⟩ = do
      let composite ← texts.foldlM Composite.add ⟨op, ← first.resolve, []⟩
      return .composite composite := by
  rw [resolve]
  cases first.resolve with
  | error err => rfl
  | ok spec =>
    show (next :: rest).mapM RawVarSpec.resolve >>= _ =
      texts.foldlM Composite.add ⟨op, spec, []⟩ >>= _
    rw [Composite.foldlM_add h]
    cases hspecs : (next :: rest).mapM RawVarSpec.resolve with
    | error err => rfl
    | ok specs =>
      rw [List.mapM_cons] at hspecs
      simp only [bind_eq_ok_iff, pure_eq_ok_iff] at hspecs
      obtain ⟨spec', -, specs', -, rfl⟩ := hspecs
      rfl

/-! ## Families -/

/-- The family that recognises a token. -/
def Token.family (token : Token) : Family :=
  match token.rest with
  | [] => .member token.op
  | _ => .composite

namespace Family

theorem mem_all (family : Family) : family ∈ all := by
  cases family with
  | member op => exact List.mem_append_left _ (List.mem_map_of_mem op.mem_all)
  | composite => exact List.mem_append_right _ List.mem_cons_self

/-- A row is not read when one of its members is not. -/
theorem isNone_mapM {α β : Type} (f : α → Option β) (as : List α) :
    (as.mapM f).isNone = as.any fun a => (f a).isNone := by
  induction as with
  | nil => rfl
  | cons a as ih =>
    rw [List.mapM_cons, List.any_cons, ← ih]
    cases f a with
    | none => rfl
    | some b => cases as.mapM f <;> rfl

/-- A text between braces is a composite if it splits into at least two specifications. -/
theorem probeComposite_eq {t body : Text} (hbody : Token.body? t = some body) :
    probeComposite t =
      match (Text.fields ',' (Token.takeOperator body).2).mapM RawVarSpec.read? with
      | some (first :: next :: rest) =>
        (Token.resolve ⟨(Token.takeOperator body).1, first, next :: rest⟩).map some
      | _ => .ok none := by
  rw [probeComposite, hbody]
  dsimp only
  generalize Token.takeOperator body = front
  obtain ⟨op, row⟩ := front
  have hread := isNone_mapM RawVarSpec.read? (Text.fields ',' row)
  cases hraws : (Text.fields ',' row).mapM RawVarSpec.read? with
  | none =>
    rw [hraws] at hread
    rw [← hread]
    split <;> rfl
  | some raws =>
    obtain ⟨hvalid, htexts⟩ := (mapM_eq_some_iff fun _ _ => RawVarSpec.read?_eq_some).1 hraws
    rw [hraws, htexts] at hread
    rw [htexts]
    cases raws with
    | nil => rfl
    | cons first raws =>
      cases raws with
      | nil => rfl
      | cons next rest =>
        obtain ⟨hfirst, hmore⟩ := List.forall_mem_cons.1 hvalid
        have hreadFirst : RawVarSpec.read? first.text = some first :=
          RawVarSpec.read?_eq_some.2 ⟨hfirst, rfl⟩
        have hreadMore : ((next :: rest).map RawVarSpec.text).mapM RawVarSpec.read? =
            some (next :: rest) :=
          (mapM_eq_some_iff fun _ _ => RawVarSpec.read?_eq_some).2 ⟨hmore, rfl⟩
        simp only [List.map_cons] at hread hreadMore ⊢
        rw [← hread, hreadFirst, Token.resolve_eq_foldlM_add hreadMore, if_neg (by simp)]
        show first.resolve >>= _ = Except.map some (first.resolve >>= _)
        cases first.resolve with
        | error err => rfl
        | ok spec =>
          show List.foldlM Composite.add _ _ >>= _ =
            Except.map some (List.foldlM Composite.add _ _ >>= _)
          cases List.foldlM Composite.add _ (next.text :: rest.map RawVarSpec.text) <;> rfl

/-- What a family answers: the token's own family resolves it, and no other one
recognises it. -/
theorem probe_eq {t : Text} {token : Token} (h : Token.parse? t = some token) (family : Family) :
    family.probe t = if family = token.family then token.resolve.map some else .ok none := by
  cases family with
  | member op =>
    rw [probe, probeMember, Token.read?_eq_parse?, h]
    obtain ⟨op', first, rest⟩ := token
    cases rest with
    | nil =>
      by_cases hop : op' = op
      · subst hop
        rw [if_pos (show member op' = Token.family ⟨op', first, []⟩ from rfl), Token.resolve]
        simp only [if_true]
        cases first.resolve <;> rfl
      · rw [if_neg (by simpa [Token.family] using Ne.symm hop)]
        exact if_neg hop
    | cons next rest => rw [if_neg (by simp [Token.family])]
  | composite =>
    simp only [Token.parse?, Option.bind_eq_bind, Option.bind_eq_some_iff] at h
    obtain ⟨body, hbody, raws, hraws, h⟩ := h
    rw [probe, probeComposite_eq hbody, hraws]
    cases raws with
    | nil => cases h
    | cons first rest =>
      cases h
      cases rest with
      | nil => rw [if_neg (by simp [Token.family])]
      | cons next rest => exact (if_pos rfl).symm

theorem probe_eq_none {t : Text} (h : Token.parse? t = none) (family : Family) :
    family.probe t = .ok none := by
  cases family with
  | member op => rw [probe, probeMember, Token.read?_eq_parse?, h]
  | composite =>
    cases hbody : Token.body? t with
    | none => rw [probe, probeComposite, hbody]
    | some body =>
      rw [probe, probeComposite_eq hbody]
      rw [Token.parse?, hbody] at h
      simp only [Option.bind_eq_bind, Option.bind_some] at h
      cases hraws : (Text.fields ',' (Token.takeOperator body).2).mapM RawVarSpec.read? with
      | none => rfl
      | some raws =>
        rw [hraws] at h
        cases raws with
        | nil => rfl
        | cons first rest => cases h

/-- The answer is the one of the only family that can recognise something. -/
theorem findSomeM?_eq {ε α β : Type} [DecidableEq α] {f : α → Except ε (Option β)} {a : α}
    {answer : Except ε β} (hf : ∀ x, f x = if x = a then answer.map some else .ok none)
    {l : List α} (ha : a ∈ l) : l.findSomeM? f = answer.map some := by
  induction l with
  | nil => cases ha
  | cons x l ih =>
    rw [List.findSomeM?_cons, hf x]
    by_cases hx : x = a
    · rw [if_pos hx]
      cases answer <;> rfl
    · rw [if_neg hx]
      exact ih ((List.mem_cons.1 ha).resolve_left (Ne.symm hx))

theorem findSomeM?_eq_none {ε α β : Type} {f : α → Except ε (Option β)}
    (hf : ∀ x, f x = .ok none) (l : List α) : l.findSomeM? f = .ok none := by
  induction l with
  | nil => rfl
  | cons x l ih =>
    rw [List.findSomeM?_cons, hf x]
    exact ih

end Family

/-- Reading an expression is finding its token and resolving it. -/
theorem Expression.parse_eq (t : Text) :
    Expression.parse t =
      match Token.parse? t with
      | none => .error (.unrecognizedExpression t)
      | some token => token.resolve := by
  rw [parse]
  cases htoken : Token.parse? t with
  | none =>
    rw [Family.findSomeM?_eq_none (Family.probe_eq_none htoken)]
    rfl
  | some token =>
    rw [Family.findSomeM?_eq (Family.probe_eq htoken) token.family.mem_all]
    show _ = token.resolve
    cases token.resolve <;> rfl

/-! ## Expressions -/

/-- The operator that writes the variable. -/
def Single.op (e : Single) : Operator :=
  match e.charClass with
  | .unreserved => .simple
  | .extended => .reserved

namespace Expression

/-- The operator. -/
def op : Expression → Operator
  | single e => e.op
  | multi e => e.op
  | member e => e.op
  | composite e => e.op

/-- The specifications in order. -/
def specs : Expression → List VarSpec
  | single e => [⟨e.name, .none⟩]
  | multi e => e.names.map fun name => ⟨name, .none⟩
  | member e => [e.spec]
  | composite e => e.specs

theorem text_eq (e : Expression) : e.text = braced e.op (e.specs.map VarSpec.text) := by
  cases e with
  | single e =>
    obtain ⟨name, charClass⟩ := e
    cases charClass <;>
      simp [text, Single.text, op, Single.op, specs, VarSpec.text, Modifier.suffix]
  | multi e =>
    have hname (name : Name) : VarSpec.text ⟨name, .none⟩ = name.text := List.append_nil _
    simp [text, Multi.text, op, specs, Function.comp_def, hname]
  | member e => rfl
  | composite e => rfl

theorem names_eq (e : Expression) : e.names = e.specs.map VarSpec.name := by
  cases e with
  | single e => rfl
  | multi e => simp [names, specs, Function.comp_def]
  | member e => rfl
  | composite e => rfl

/-- The expression that specifications are read as: a member when there is only
one. -/
def ofSpecs (op : Operator) (first : VarSpec) : List VarSpec → Expression
  | [] => .member ⟨op, first⟩
  | next :: rest => .composite ⟨op, first, next :: rest⟩

@[simp] theorem op_ofSpecs (op : Operator) (first : VarSpec) (rest : List VarSpec) :
    (ofSpecs op first rest).op = op := by
  cases rest <;> rfl

@[simp] theorem specs_ofSpecs (op : Operator) (first : VarSpec) (rest : List VarSpec) :
    (ofSpecs op first rest).specs = first :: rest := by
  cases rest <;> rfl

end Expression

/-- Only the writing of specifications in range is resolved to them. -/
theorem Token.resolve_eq_ok {token : Token} (hvalid : token.Valid) {e : Expression} :
    token.resolve = .ok e ↔
      ∃ first rest, e = .ofSpecs token.op first rest ∧ token.first = first.raw ∧
        token.rest = rest.map VarSpec.raw := by
  have hfirst (spec : VarSpec) : token.first.resolve = .ok spec ↔ token.first = spec.raw :=
    RawVarSpec.resolve_eq_ok (hvalid token.first List.mem_cons_self)
  have hrest (specs : List VarSpec) :
      token.rest.mapM RawVarSpec.resolve = .ok specs ↔ token.rest = specs.map VarSpec.raw :=
    mapM_eq_ok_iff fun raw hraw _ =>
      RawVarSpec.resolve_eq_ok (hvalid raw (List.mem_cons_of_mem _ hraw))
  simp only [resolve, bind_eq_ok_iff, hfirst, hrest]
  constructor
  · intro h
    obtain ⟨first, hf, rest, hr, he⟩ := h
    refine ⟨first, rest, ?_, hf, hr⟩
    cases rest <;> exact (pure_eq_ok_iff.1 he).symm
  · intro h
    obtain ⟨first, rest, rfl, hf, hr⟩ := h
    refine ⟨first, hf, rest, hr, ?_⟩
    cases rest <;> rfl

namespace Expression

/-- The texts that are read as expressions are the writings of specifications. -/
theorem parse_eq_ok {t : Text} {e : Expression} :
    parse t = .ok e ↔
      ∃ op first rest, e = ofSpecs op first rest ∧
        t = braced op ((first :: rest).map VarSpec.text) := by
  have hmap (specs : List VarSpec) :
      (specs.map VarSpec.raw).map RawVarSpec.text = specs.map VarSpec.text := by
    rw [List.map_map]
    exact List.map_congr_left fun spec _ => spec.text_raw
  constructor
  · intro h
    rw [parse_eq] at h
    split at h
    · cases h
    · rename_i token htoken
      obtain ⟨hvalid, rfl⟩ := Token.parse?_eq_some.1 htoken
      obtain ⟨first, rest, rfl, hfirst, hrest⟩ := (Token.resolve_eq_ok hvalid).1 h
      refine ⟨token.op, first, rest, rfl, ?_⟩
      rw [Token.text, Token.specs, hfirst, hrest, ← List.map_cons (f := VarSpec.raw), hmap]
  · intro h
    obtain ⟨op, first, rest, rfl, rfl⟩ := h
    let token : Token := ⟨op, first.raw, rest.map VarSpec.raw⟩
    have hvalid : token.Valid := by
      intro raw hraw
      obtain ⟨spec, -, rfl⟩ : ∃ spec ∈ first :: rest, VarSpec.raw spec = raw := by
        rw [← List.mem_map]
        exact hraw
      exact spec.valid_raw
    have htext : token.text = braced op ((first :: rest).map VarSpec.text) := by
      rw [← hmap]
      rfl
    rw [parse_eq, ← htext, Token.parse?_eq_some.2 ⟨hvalid, rfl⟩]
    exact (Token.resolve_eq_ok hvalid).2 ⟨first, rest, rfl, rfl, rfl⟩

/-- What is read is written as it was. -/
theorem text_of_parse {t : Text} {e : Expression} (h : parse t = .ok e) : e.text = t := by
  obtain ⟨op, first, rest, rfl, rfl⟩ := parse_eq_ok.1 h
  rw [text_eq, op_ofSpecs, specs_ofSpecs]

/-- What is written is read as it was. -/
theorem parse_braced (op : Operator) (first : VarSpec) (rest : List VarSpec) :
    parse (braced op ((first :: rest).map VarSpec.text)) = .ok (ofSpecs op first rest) :=
  parse_eq_ok.2 ⟨op, first, rest, rfl, rfl⟩

/-- Several specifications are read as the first one with the others added to it.  A limit
out of range in one of them is refused in the same way. -/
theorem parse_eq_foldlM_add (op : Operator) (first : VarSpec) {texts : List Text}
    (hne : texts ≠ []) (h : ∀ t ∈ texts, (RawVarSpec.read? t).isSome) :
    parse (braced op (first.text :: texts)) =
      (texts.foldlM Composite.add ⟨op, first, []⟩).map .composite := by
  obtain ⟨raws, hraws⟩ : ∃ raws, texts.mapM RawVarSpec.read? = some raws := by
    rw [← Option.isSome_iff_exists, ← Option.not_isNone, Family.isNone_mapM]
    simpa [Option.isSome_iff_ne_none] using h
  obtain ⟨hvalid, rfl⟩ := (mapM_eq_some_iff fun _ _ => RawVarSpec.read?_eq_some).1 hraws
  obtain ⟨next, rest, rfl⟩ : ∃ next rest, raws = next :: rest :=
    List.exists_cons_of_ne_nil fun hnil => hne (by rw [hnil]; rfl)
  let token : Token := ⟨op, first.raw, next :: rest⟩
  have htoken : Token.parse? token.text = some token :=
    Token.parse?_eq_some.2 ⟨List.forall_mem_cons.2 ⟨first.valid_raw, hvalid⟩, rfl⟩
  have htext : token.text = braced op (first.text :: (next :: rest).map RawVarSpec.text) := by
    rw [Token.text, Token.specs, List.map_cons, VarSpec.text_raw]
  have hfirst : first.raw.resolve = .ok first := (RawVarSpec.resolve_eq_ok first.valid_raw).2 rfl
  rw [← htext, parse_eq, htoken]
  show token.resolve = _
  rw [Token.resolve_eq_foldlM_add hraws, hfirst]
  show List.foldlM Composite.add _ _ >>= _ = _
  cases List.foldlM Composite.add _ ((next :: rest).map RawVarSpec.text) <;> rfl

theorem specs_ne_nil_of_parse {t : Text} {e : Expression} (h : parse t = .ok e) :
    e.specs ≠ [] := by
  obtain ⟨op, first, rest, rfl, -⟩ := parse_eq_ok.1 h
  simp

end Expression

end UriTemplate
