import TinyScript.Proofs.Flat
import TinyScript.Proofs.Units

/-!
The grammar of programs. What is read unit by unit, with blocks found by counting braces, is what
the rules of the grammar derive.
-/

namespace TinyScript

/-- The unit of a declaration, a return or an expression. -/
inductive SimpleUnit : List Token → Node → Prop where
  | declare {name : String} {ts : List Token} {e : Expr} (form : Declarator)
      (hn : Token.isName ⟨name⟩ = true) (he : parseExpr ts = .ok e) :
      SimpleUnit ((Keyword.declare form).token :: ⟨name⟩ :: Symbol.assign.token :: ts)
        (.declare form name e)
  | ret {ts : List Token} {e : Expr} (he : parseExpr ts = .ok e) :
      SimpleUnit (Keyword.ret.token :: ts) (.ret e)
  | expr {ts : List Token} {e : Expr} (he : parseExpr ts = .ok e) : SimpleUnit ts (.expr e)

/-- The tokens of a function up to its block. -/
def signatureTokens (name : String) (parameters : List String) : List Token :=
  Keyword.func.token :: ⟨name⟩ :: Symbol.openParen.token ::
    (joinCommas (parameters.map fun p => [⟨p⟩]) ++ [Symbol.closeParen.token])

def functionTokens (name : String) (parameters : List String) (body : List Token) : List Token :=
  signatureTokens name parameters ++
    Symbol.openBrace.token :: (body ++ [Symbol.closeBrace.token])

/-- The tokens form a program with these nodes. Only the last unit may lack its semicolon; a
function needs none. -/
inductive Derives : List Token → Program → Prop where
  | nil : Derives [] []
  | skip {ts : List Token} {ns : Program} (h : Derives ts ns) :
      Derives (Symbol.semicolon.token :: ts) ns
  | unit {u ts : List Token} {n : Node} {ns : Program} (hu : SimpleUnit u n)
      (h : Derives ts ns) : Derives (u ++ Symbol.semicolon.token :: ts) (n :: ns)
  | last {u : List Token} {n : Node} (hu : SimpleUnit u n) : Derives u [n]
  | function {name : String} {parameters : List String} {body ts : List Token}
      {nodes ns : Program} (hn : Token.isName ⟨name⟩ = true)
      (hp : ∀ p ∈ parameters, Token.isName ⟨p⟩ = true) (hb : Derives body nodes)
      (h : Derives ts ns) :
      Derives (functionTokens name parameters body ++ ts)
        (.expr (.function ⟨name, parameters, nodes⟩) :: ns)

theorem Expr.Written.inline {e : Expr} (h : e.Written) : Inline e.flat := by
  induction h with
  | number h => exact inline_of_kind (by simp [Token.kind_eq_number_iff.mpr h])
  | text content => exact inline_of_kind (by simp [Token.kind_eq_quoted_iff.mpr rfl])
  | name h => exact inline_name h
  | @call callee arguments h ha ih =>
    apply inline_list h
    intro piece hp
    rw [flatAll_eq_map] at hp
    obtain ⟨a, hm, rfl⟩ := List.mem_map.mp hp
    exact ih a hm
  | binary op hl hb hr ihl ihr => exact ihl.append ((inline_operator op).append ihr)

theorem inline_of_parseExpr {ts : List Token} {e : Expr} (h : parseExpr ts = .ok e) :
    Inline ts := by
  obtain ⟨hw, rfl⟩ := written_of_parseExpr h
  exact hw.inline

theorem SimpleUnit.inline {u : List Token} {n : Node} (h : SimpleUnit u n) : Inline u := by
  cases h with
  | declare form hn he =>
    have ha : Inline [Symbol.assign.token] := inline_symbol (by simp)
    exact (inline_keyword _).append ((inline_name hn).append (ha.append (inline_of_parseExpr he)))
  | ret he => exact (inline_keyword _).append (inline_of_parseExpr he)
  | expr he => exact inline_of_parseExpr he

theorem SimpleUnit.ne_nil {u : List Token} {n : Node} (h : SimpleUnit u n) : u ≠ [] := by
  cases h with
  | declare form hn he => simp
  | ret he => simp
  | expr he =>
    obtain ⟨hw, rfl⟩ := written_of_parseExpr he
    exact hw.flat_ne_nil

/-- No expression starts with a keyword. -/
theorem Expr.Written.head_kind {e : Expr} (h : e.Written) {t : Token} {ts : List Token}
    (hf : e.flat = t :: ts) (k : Keyword) : t.kind ≠ .keyword k := by
  induction h generalizing ts with
  | number h =>
    cases hf
    simp [Token.kind_eq_number_iff.mpr h]
  | text content =>
    cases hf
    simp [Token.kind_eq_quoted_iff.mpr rfl]
  | name h =>
    cases hf
    simp [Token.isName_iff.mp h]
  | call h ha ih =>
    cases hf
    simp [Token.isName_iff.mp h]
  | @binary left right op hl hb hr ihl ihr =>
    obtain ⟨t', ts', hl'⟩ := List.exists_cons_of_ne_nil hl.flat_ne_nil
    rw [flat, hl'] at hf
    cases hf
    exact ihl hl'

theorem parseName_eq_ok {part : Part} {t? : Option Token} {name : String}
    (h : parseName part t? = .ok name) : t? = some ⟨name⟩ ∧ Token.isName ⟨name⟩ = true := by
  unfold parseName at h
  split at h
  · cases h
  · split at h
    · rename_i hn
      cases h
      exact ⟨rfl, hn⟩
    · cases h

theorem parseDeclaration_eq_ok {form : Declarator} {ts : List Token} {n : Node}
    (h : parseDeclaration form ts = .ok n) :
    SimpleUnit ((Keyword.declare form).token :: ts) n := by
  obtain ⟨name, hname, h⟩ := except_bind_eq_ok h
  obtain ⟨hh, hn⟩ := parseName_eq_ok hname
  obtain ⟨tail, rfl⟩ := List.head?_eq_some_iff.mp hh
  split at h
  · cases h
  · rename_i rest hb
    rw [List.tail_cons] at hb
    obtain ⟨e, he, h⟩ := except_bind_eq_ok h
    cases h
    rw [eq_cons_of_behind? hb]
    exact .declare form hn he

theorem parseSimple_eq_ok {u : List Token} {n : Node} (h : parseSimple u = .ok n) :
    SimpleUnit u n := by
  cases u with
  | nil => cases h
  | cons t ts =>
    rw [parseSimple] at h
    split at h
    · rename_i form hk
      rw [Token.kind_eq_keyword_iff.mp hk]
      exact parseDeclaration_eq_ok h
    · rename_i hk
      rw [Token.kind_eq_keyword_iff.mp hk]
      obtain ⟨e, he, h⟩ := except_bind_eq_ok h
      cases h
      exact .ret he
    · obtain ⟨e, he, h⟩ := except_bind_eq_ok h
      cases h
      exact .expr he

theorem parseUnit_declare (form : Declarator) {name : String}
    (hn : Token.isName ⟨name⟩ = true) (ts : List Token) :
    parseUnit ((Keyword.declare form).token :: ⟨name⟩ :: Symbol.assign.token :: ts) =
      (parseExpr ts).map (.declare form name) := by
  rw [parseUnit, if_neg (by simp [Keyword.token_kind]), parseSimple, Keyword.token_kind]
  simp only [parseDeclaration, List.head?_cons, parseName, hn, ↓reduceIte, List.tail_cons,
    behind?_token]
  rfl

theorem parseUnit_ret (ts : List Token) :
    parseUnit (Keyword.ret.token :: ts) = (parseExpr ts).map .ret := by
  rw [parseUnit, if_neg (by simp [Keyword.token_kind]), parseSimple, Keyword.token_kind]
  rfl

/-- A unit that starts with no keyword is an expression. -/
theorem parseUnit_expr {t : Token} (h : ∀ k, t.kind ≠ .keyword k) (ts : List Token) :
    parseUnit (t :: ts) = (parseExpr (t :: ts)).map .expr := by
  rw [parseUnit, if_neg (h _), parseSimple]
  split
  · exact absurd ‹_› (h _)
  · exact absurd ‹_› (h _)
  · rfl

/-- A simple unit is taken for no other kind of unit. -/
theorem SimpleUnit.parseUnit {u : List Token} {n : Node} (h : SimpleUnit u n) :
    parseUnit u = .ok n := by
  cases h with
  | declare form hn he =>
    rw [parseUnit_declare form hn, he]
    rfl
  | ret he =>
    rw [parseUnit_ret, he]
    rfl
  | expr he =>
    obtain ⟨hw, rfl⟩ := written_of_parseExpr he
    obtain ⟨t, rest, hf⟩ := List.exists_cons_of_ne_nil hw.flat_ne_nil
    rw [hf] at he ⊢
    rw [parseUnit_expr (hw.head_kind hf), he]
    rfl

theorem parseParameter_eq_ok {piece : List Token} {name : String}
    (h : parseParameter piece = .ok name) :
    Token.isName ⟨name⟩ = true ∧ [(⟨name⟩ : Token)] = piece := by
  unfold parseParameter at h
  split at h
  · cases h
  · obtain ⟨ht, hn⟩ := parseName_eq_ok h
    exact ⟨hn, by rw [Option.some.inj ht]⟩
  · cases h

theorem expect_eq_ok {s : Symbol} {part : Part} {ts rest : List Token}
    (h : expect s part ts = .ok rest) : ts = s.token :: rest := by
  unfold expect at h
  split at h
  · cases h
  · split at h
    · rename_i hs
      cases h
      rw [Token.eq_token hs]
    · cases h

theorem argument_name {name : String} (h : Token.isName ⟨name⟩ = true) : Argument [⟨name⟩] :=
  argument_of_kind (by simp [Token.isName_iff.mp h])

/-- A body and the brace behind it are cut where the body ends. -/
theorem Bracket.split?_block {body : List Token} (h : Bracket.brace.Balanced body) :
    Bracket.brace.split? 0 (body ++ [Symbol.closeBrace.token]) = some (body, []) :=
  (Bracket.split?_eq_some_iff Bracket.brace_distinct).mpr ⟨h, rfl⟩

namespace Header

/-- The tokens of a parameter list, and those behind it. -/
def parameterList (ts : List Token) : Except ParseError (List String × List Token) := do
  let inner ← expect .openParen .parameterList ts
  match Bracket.paren.split? 0 inner with
  | none => throw (.unexpectedEnd .parameterList)
  | some (inside, rest) => return (← (splitArguments inside).mapM parseParameter, rest)

/-- The tokens of a block, with nothing behind it. -/
def block (name : String) (ts : List Token) : Except ParseError (List Token) := do
  let inner ← expect .openBrace .functionBody ts
  match Bracket.brace.split? 0 inner with
  | none => throw (.unclosedBlock name)
  | some (body, []) => return body
  | some (_, extra :: _) => throw (.unexpectedToken extra.text)

theorem parse_eq (ts : List Token) :
    Header.parse ts = (parseName .functionName ts.head?).bind fun name =>
      (parameterList ts.tail).bind fun list =>
        (block name list.2).map fun body => ⟨name, list.1, body⟩ := by
  unfold Header.parse parameterList block
  cases parseName .functionName ts.head? with
  | error e => rfl
  | ok name =>
    cases expect .openParen .parameterList ts.tail with
    | error e => rfl
    | ok inner =>
      simp only [bind, Except.bind]
      cases Bracket.paren.split? 0 inner with
      | none => rfl
      | some cut =>
        obtain ⟨inside, rest⟩ := cut
        dsimp only
        cases (splitArguments inside).mapM parseParameter with
        | error e => rfl
        | ok parameters =>
          simp only [pure, Except.pure]
          cases expect .openBrace .functionBody rest with
          | error e => rfl
          | ok inner =>
            dsimp only
            cases Bracket.brace.split? 0 inner with
            | none => rfl
            | some cut =>
              obtain ⟨body, extra⟩ := cut
              cases extra <;> rfl

/-- A parameter list is read from names between parentheses, with commas between them. -/
theorem parameterList_eq_ok {ts rest : List Token} {parameters : List String}
    (h : parameterList ts = .ok (parameters, rest)) :
    (∀ p ∈ parameters, Token.isName ⟨p⟩ = true) ∧
      ts = Symbol.openParen.token :: (joinCommas (parameters.map fun p => [⟨p⟩]) ++
        Symbol.closeParen.token :: rest) := by
  unfold parameterList at h
  obtain ⟨inner, hi, h⟩ := except_bind_eq_ok h
  split at h
  · cases h
  · rename_i inside rest hp
    obtain ⟨ps, hm, h⟩ := except_bind_eq_ok h
    cases h
    obtain ⟨_, rfl⟩ := (Bracket.split?_eq_some_iff Bracket.paren_distinct).mp hp
    obtain ⟨hps, hmap⟩ := map_of_mapM hm fun piece _ p => parseParameter_eq_ok
    have hj : joinCommas (parameters.map fun p => [⟨p⟩]) = inside := by
      rw [hmap]
      exact joinCommas_splitArguments inside
    exact ⟨hps, by rw [expect_eq_ok hi, hj]; rfl⟩

theorem parameterList_of_names {parameters : List String}
    (hp : ∀ p ∈ parameters, Token.isName ⟨p⟩ = true) (rest : List Token) :
    parameterList (Symbol.openParen.token :: (joinCommas (parameters.map fun p => [⟨p⟩]) ++
      Symbol.closeParen.token :: rest)) = .ok (parameters, rest) := by
  have hpieces : ∀ piece ∈ parameters.map (fun p => [(⟨p⟩ : Token)]),
      Argument piece ∧ piece ≠ [] := by
    intro piece hm
    obtain ⟨p, hmem, rfl⟩ := List.mem_map.mp hm
    exact ⟨argument_name (hp p hmem), by simp⟩
  have hs := splitArguments_joinCommas (fun piece hm => (hpieces piece hm).1)
    fun piece hm => (hpieces piece hm).2
  have hparen : Bracket.paren.split? 0
      (joinCommas (parameters.map fun p => [⟨p⟩]) ++ Symbol.closeParen.token :: rest) =
        some (joinCommas (parameters.map fun p => [⟨p⟩]), rest) := by
    refine (Bracket.split?_eq_some_iff Bracket.paren_distinct).mpr ⟨?_, rfl⟩
    exact balanced_joinCommas fun piece hm => (hpieces piece hm).1.balanced
  have hm : (parameters.map fun p => [(⟨p⟩ : Token)]).mapM parseParameter = .ok parameters := by
    apply mapM_map
    intro p hm
    simp [parseParameter, parseName, hp p hm]
  simp only [parameterList, expect, Symbol.token_is, decide_true, ↓reduceIte, bind, Except.bind,
    hparen, hs, hm]
  rfl

/-- A block is read from braces that close each other, with nothing behind them. -/
theorem block_eq_ok {name : String} {ts body : List Token} (h : block name ts = .ok body) :
    Bracket.brace.Balanced body ∧
      ts = Symbol.openBrace.token :: (body ++ [Symbol.closeBrace.token]) := by
  unfold block at h
  obtain ⟨inner, hi, h⟩ := except_bind_eq_ok h
  split at h
  · cases h
  · rename_i hs
    cases h
    obtain ⟨hbody, hinner⟩ := (Bracket.split?_eq_some_iff Bracket.brace_distinct).mp hs
    exact ⟨hbody, by rw [expect_eq_ok hi, hinner]; rfl⟩
  · cases h

theorem block_of_balanced (name : String) {body : List Token} (h : Bracket.brace.Balanced body) :
    block name (Symbol.openBrace.token :: (body ++ [Symbol.closeBrace.token])) = .ok body := by
  simp only [block, expect, Symbol.token_is, decide_true, ↓reduceIte, bind, Except.bind,
    Bracket.split?_block h]
  rfl

/-- A header was read from the tokens of the function and nothing else. -/
theorem parse_eq_ok {ts : List Token} {header : Header} (h : Header.parse ts = .ok header) :
    Token.isName ⟨header.name⟩ = true ∧ (∀ p ∈ header.parameters, Token.isName ⟨p⟩ = true) ∧
      Bracket.brace.Balanced header.body ∧
      Keyword.func.token :: ts =
        functionTokens header.name header.parameters header.body := by
  rw [Header.parse_eq] at h
  obtain ⟨name, hname, h⟩ := except_bind_eq_ok h
  obtain ⟨⟨parameters, rest⟩, hlist, h⟩ := except_bind_eq_ok h
  cases hblock : block name rest with
  | error e =>
    rw [hblock] at h
    cases h
  | ok body =>
    rw [hblock] at h
    cases h
    obtain ⟨hh, hn⟩ := parseName_eq_ok hname
    obtain ⟨tail, rfl⟩ := List.head?_eq_some_iff.mp hh
    obtain ⟨hps, htail⟩ := parameterList_eq_ok hlist
    obtain ⟨hbody, rfl⟩ := block_eq_ok hblock
    rw [List.tail_cons] at htail
    refine ⟨hn, hps, hbody, ?_⟩
    rw [functionTokens, signatureTokens, htail]
    simp

/-- The tokens of a function are read as its header. -/
theorem parse_functionTokens {name : String} {parameters : List String}
    {body : List Token} (hn : Token.isName ⟨name⟩ = true)
    (hp : ∀ p ∈ parameters, Token.isName ⟨p⟩ = true) (hb : Bracket.brace.Balanced body) :
    Header.parse (functionTokens name parameters body).tail = .ok ⟨name, parameters, body⟩ := by
  rw [Header.parse_eq]
  simp only [functionTokens, signatureTokens, List.cons_append, List.append_assoc,
    List.nil_append, List.tail_cons, List.head?_cons, parseName, hn, ↓reduceIte, Except.bind,
    parameterList_of_names hp, block_of_balanced name hb]
  rfl

end Header

/-- A unit that can be cut off is read before all that follows it. -/
theorem parse_of_cutUnit {ts unit rest : List Token} (hn : unit ≠ []) (ht : ts ≠ [])
    (h : ∀ first, cutUnit first 0 ts = .ok (unit, rest)) :
    parse ts = (parseUnit unit).bind fun node => (parse rest).map (node :: ·) := by
  obtain ⟨t, tail, rfl⟩ := List.exists_cons_of_ne_nil ht
  rw [parse_cons, h]
  simp only [Except.bind, if_neg hn]

theorem parse_semicolon (ts : List Token) :
    parse (Symbol.semicolon.token :: ts) = parse ts := by
  rw [parse_cons, cutUnit_semicolon]
  rfl

/-- A unit without blocks is read up to its semicolon. -/
theorem Inline.parse_append {u : List Token} (h : Inline u) (hu : u ≠ []) (ts : List Token) :
    parse (u ++ Symbol.semicolon.token :: ts) =
      (parseUnit u).bind fun node => (parse ts).map (node :: ·) := by
  have hc : ∀ first, cutUnit first 0 (u ++ Symbol.semicolon.token :: ts) = .ok (u, ts) := by
    intro first
    rw [cutUnit_inline first h, cutUnit_semicolon, prepend_ok, List.append_nil]
  exact parse_of_cutUnit hu (by simp) hc

theorem SimpleUnit.parse_append {u : List Token} {n : Node} (h : SimpleUnit u n)
    (ts : List Token) :
    parse (u ++ Symbol.semicolon.token :: ts) = (parse ts).map (n :: ·) := by
  rw [h.inline.parse_append h.ne_nil, h.parseUnit]
  rfl

theorem SimpleUnit.parse {u : List Token} {n : Node} (h : SimpleUnit u n) :
    parse u = .ok [n] := by
  have hc : ∀ first, cutUnit first 0 u = .ok (u, []) := by
    intro first
    have hu := cutUnit_inline first h.inline 0 []
    rw [List.append_nil] at hu
    rw [hu, cutUnit, if_pos rfl, prepend_ok, List.append_nil]
  rw [parse_of_cutUnit h.ne_nil h.ne_nil hc, h.parseUnit, parse_nil]
  rfl

theorem inline_signatureTokens {name : String} {parameters : List String}
    (hn : Token.isName ⟨name⟩ = true) (hp : ∀ p ∈ parameters, Token.isName ⟨p⟩ = true) :
    Inline (signatureTokens name parameters) := by
  apply (inline_keyword .func).append (inline_list hn ?_)
  intro piece hm
  obtain ⟨p, hmem, rfl⟩ := List.mem_map.mp hm
  exact inline_name (hp p hmem)

/-- A function ends where its block does. -/
theorem cutUnit_functionTokens (first : Token) {name : String} {parameters : List String}
    {body : List Token} (hn : Token.isName ⟨name⟩ = true)
    (hp : ∀ p ∈ parameters, Token.isName ⟨p⟩ = true) (hb : Bracket.brace.Balanced body)
    (ts : List Token) :
    cutUnit first 0 (functionTokens name parameters body ++ ts) =
      .ok (functionTokens name parameters body, ts) := by
  have hcut := cutUnit_block first (inline_signatureTokens hn hp) hb ts
  rwa [functionTokens, List.append_assoc, List.cons_append, List.append_assoc,
    List.singleton_append]

/-- The body of a function is read before what follows the function. -/
theorem parse_functionTokens {name : String} {parameters : List String} {body : List Token}
    (hn : Token.isName ⟨name⟩ = true) (hp : ∀ p ∈ parameters, Token.isName ⟨p⟩ = true)
    (hb : Bracket.brace.Balanced body) (ts : List Token) :
    parse (functionTokens name parameters body ++ ts) =
      (parse body).bind fun nodes =>
        (parse ts).map (.expr (.function ⟨name, parameters, nodes⟩) :: ·) := by
  have hc := fun first => cutUnit_functionTokens first hn hp hb ts
  have hu : parseUnit (functionTokens name parameters body) =
      (parse body).map fun nodes => .expr (.function ⟨name, parameters, nodes⟩) := by
    have hh := Header.parse_functionTokens hn hp hb
    rw [functionTokens, signatureTokens, List.cons_append, List.tail_cons] at hh
    rw [functionTokens, signatureTokens, List.cons_append, parseUnit,
      if_pos (Keyword.token_kind _), hh]
    rfl
  rw [parse_of_cutUnit (by simp [functionTokens]) (by simp [functionTokens]) hc, hu]
  cases parse body <;> rfl

theorem Inline.balanced {ts : List Token} (h : Inline ts) : Bracket.brace.Balanced ts :=
  Bracket.balanced_of_forall fun t ht => (h t ht).2

/-- Blocks are closed in every program. -/
theorem Derives.balanced {ts : List Token} {ns : Program} (h : Derives ts ns) :
    Bracket.brace.Balanced ts := by
  have hs : Bracket.brace.Balanced [Symbol.semicolon.token] :=
    Bracket.balanced_singleton (by simp) (by simp)
  induction h with
  | nil => exact Bracket.balanced_nil
  | skip h ih => exact hs.append ih
  | unit hu h ih => exact hu.inline.balanced.append (hs.append ih)
  | last hu => exact hu.inline.balanced
  | function hn hp hb h ihb ih =>
    have hblock := ihb.enclose Bracket.brace_distinct
    exact ((inline_signatureTokens hn hp).balanced.append hblock).append ih

/-- What the grammar derives is read. -/
theorem Derives.parse {ts : List Token} {ns : Program} (h : Derives ts ns) :
    parse ts = .ok ns := by
  induction h with
  | nil => exact parse_nil
  | skip h ih => rw [parse_semicolon, ih]
  | unit hu h ih =>
    rw [hu.parse_append, ih]
    rfl
  | last hu => exact hu.parse
  | function hn hp hb h ihb ih =>
    rw [parse_functionTokens hn hp hb.balanced, ihb, ih]
    rfl

/-- A program starts with a semicolon, or with a unit that gives its first node. -/
theorem parse_cases {t : Token} {ts : List Token} {ns : Program}
    (h : parse (t :: ts) = .ok ns) :
    ∃ unit rest, cutUnit t 0 (t :: ts) = .ok (unit, rest) ∧
      (unit = [] ∧ parse rest = .ok ns ∨
        ∃ n nodes, unit ≠ [] ∧ parseUnit unit = .ok n ∧ parse rest = .ok nodes ∧
          ns = n :: nodes) := by
  rw [parse_cons] at h
  obtain ⟨⟨unit, rest⟩, hc, h⟩ := except_bind_eq_ok h
  refine ⟨unit, rest, hc, ?_⟩
  dsimp only at h
  split at h
  · rename_i hu
    exact .inl ⟨hu, h⟩
  · rename_i hu
    obtain ⟨n, hn, h⟩ := except_bind_eq_ok h
    obtain ⟨nodes, hr, h⟩ := except_bind_eq_ok h
    cases h
    exact .inr ⟨n, nodes, hu, hn, hr, rfl⟩

/-- A unit that was read is simple, or it is all the tokens of a function. -/
theorem parseUnit_cases {unit : List Token} {n : Node} (h : parseUnit unit = .ok n) :
    SimpleUnit unit n ∨
    ∃ name parameters body nodes, Token.isName ⟨name⟩ = true ∧
      (∀ p ∈ parameters, Token.isName ⟨p⟩ = true) ∧ parse body = .ok nodes ∧
      unit = functionTokens name parameters body ∧
      n = .expr (.function ⟨name, parameters, nodes⟩) := by
  cases unit with
  | nil => cases h
  | cons first tail =>
    rw [parseUnit] at h
    split at h
    · rename_i hk
      obtain ⟨header, hh, h⟩ := except_bind_eq_ok h
      obtain ⟨nodes, hb, h⟩ := except_bind_eq_ok h
      cases h
      obtain ⟨hn, hp, _, he⟩ := Header.parse_eq_ok hh
      rw [Token.kind_eq_keyword_iff.mp hk]
      exact .inr ⟨header.name, header.parameters, header.body, nodes, hn, hp, hb, he, rfl⟩
    · exact .inl (parseSimple_eq_ok h)

theorem length_functionTokens (name : String) (parameters : List String) (body : List Token) :
    body.length < (functionTokens name parameters body).length := by
  simp only [functionTokens, List.length_append, List.length_cons]
  omega

/-- What is read is derived by the grammar. -/
theorem derives_of_parse {ts : List Token} {ns : Program} (h : parse ts = .ok ns) :
    Derives ts ns := by
  -- the body of a function and what follows a unit are shorter than the whole
  induction hl : ts.length using Nat.strongRecOn generalizing ts ns with
  | _ len ih =>
    subst hl
    cases ts with
    | nil =>
      rw [parse_nil] at h
      cases h
      exact .nil
    | cons t ts =>
      obtain ⟨unit, rest, hc, ⟨rfl, hr⟩ | ⟨n, nodes, hu, hn, hr, rfl⟩⟩ := parse_cases h
      · have hrest := ih rest.length ((length_cutUnit hc).2 (by simp)) hr rfl
        rcases cutUnit_shape hc with hs | ⟨hs, hl⟩
        · rw [hs]
          exact .skip hrest
        · rcases hl with hbrace | rfl
          · cases hbrace
          · cases hs
      · have hrest := ih rest.length ((length_cutUnit hc).2 (by simp)) hr rfl
        have hlen := (length_cutUnit hc).1
        rcases parseUnit_cases hn with
          hsimple | ⟨name, parameters, body, bodyNodes, hname, hp, hb, rfl, rfl⟩
        · rcases cutUnit_shape hc with hs | ⟨hs, hl⟩
          · rw [hs]
            exact .unit hsimple hrest
          · rcases hl with hbrace | rfl
            · have hfalse := (hsimple.inline _ hbrace).2.2
              simp at hfalse
            · rw [parse_nil] at hr
              cases hr
              rw [hs, List.append_nil]
              exact .last hsimple
        · have hshort := length_functionTokens name parameters body
          have hbody := ih body.length (by omega) hb rfl
          rcases cutUnit_shape hc with hs | ⟨hs, _⟩
          · rw [hs]
            exact .function hname hp hbody (.skip hrest)
          · rw [hs]
            exact .function hname hp hbody hrest

/-- Reading accepts exactly the programs of the grammar and gives the nodes derived for them. -/
theorem parse_eq_ok_iff_derives (ts : List Token) (ns : Program) :
    parse ts = .ok ns ↔ Derives ts ns :=
  ⟨derives_of_parse, Derives.parse⟩

end TinyScript
