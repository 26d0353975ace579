import TinyScript.Proofs.ReadBack

/-!
The written form tells programs apart. Its parentheses are not those of the grammar, but they close
what they open, so it can be seen where each part of a written program ends and what the part is.
-/

namespace TinyScript

/-- Lists are equal if their items are told apart by what they are mapped to. -/
theorem eq_of_map_eq {α β : Type} {f : α → β} {xs ys : List α} (h : xs.map f = ys.map f)
    (hf : ∀ x ∈ xs, ∀ y ∈ ys, f x = f y → x = y) : xs = ys := by
  induction xs generalizing ys with
  | nil => exact (List.map_eq_nil_iff.mp h.symm).symm
  | cons x xs ih =>
    cases ys with
    | nil => cases h
    | cons y ys =>
      obtain ⟨hxy, hrest⟩ := List.cons.inj h
      rw [hf x (by simp) y (by simp) hxy,
        ih hrest fun x hx y hy => hf x (by simp [hx]) y (by simp [hy])]

/-- The operand that a written expression starts with. An operation starts with a parenthesis, and
so with none. -/
def Expr.operand? : Expr → Option Operand
  | .binary _ _ _ => none
  | .call callee arguments => some (.call callee (arguments.map Expr.printTokens))
  | e => some (.value e)

theorem Expr.eq_of_operand?_value {e v : Expr} (h : e.operand? = some (.value v)) : e = v := by
  cases e <;> simp_all [Expr.operand?]

theorem Expr.eq_of_operand?_call {e : Expr} {callee : String} {pieces : List (List Token)}
    (h : e.operand? = some (.call callee pieces)) :
    ∃ arguments, e = .call callee arguments ∧ arguments.map Expr.printTokens = pieces := by
  cases e <;> simp_all [Expr.operand?]

namespace Expr.Written

variable {e e' : Expr}

/-- The operand is found whatever follows, except that a parenthesis would make a name a call. -/
theorem splitOperand_printTokens (h : e.Written) {rest : List Token}
    (hr : behind? .openParen rest = none) :
    (splitOperand (e.printTokens ++ rest)).toOption = e.operand?.map fun o => (o, rest) := by
  have value : ∀ {t : Token} {v : Expr}, parseValue t = .ok v →
      (splitOperand ([t] ++ rest)).toOption = some (.value v, rest) := by
    intro t v hv
    rw [List.singleton_append, splitOperand_value hv fun _ => hr]
    rfl
  cases h with
  | number h => exact value (by rw [parseValue, Token.kind_eq_number_iff.mpr h])
  | text content => exact value (by rw [parseValue, Token.kind_eq_quoted_iff.mpr rfl])
  | name h => exact value (by rw [parseValue, Token.isName_iff.mp h])
  | @call callee arguments h ha =>
    have hpieces := printTokens_pieces ha
    have hs := splitOperand_pieces h (fun piece hp => (hpieces piece hp).1)
      (fun piece hp => (hpieces piece hp).2) rest
    simp only [printTokens, printTokensAll_eq_map, List.cons_append, List.append_assoc,
      List.nil_append, hs]
    rfl
  | binary op hl hb hr =>
    have hn : Symbol.openParen.token.isName = false := by
      simp [Token.isName, Symbol.token_kind]
    simp only [printTokens, List.cons_append, splitOperand, hn, parseValue, Symbol.token_kind]
    rfl

theorem operand?_of_append (h : e.Written) (h' : e'.Written) {rest rest' : List Token}
    (hr : behind? .openParen rest = none) (hr' : behind? .openParen rest' = none)
    (heq : e.printTokens ++ rest = e'.printTokens ++ rest') {o : Operand}
    (ho : e.operand? = some o) : e'.operand? = some o ∧ rest = rest' := by
  have hs := h'.splitOperand_printTokens hr'
  rw [← heq, h.splitOperand_printTokens hr, ho] at hs
  obtain ⟨o', ho', hpair⟩ := Option.map_eq_some_iff.mp hs.symm
  cases hpair
  exact ⟨ho', rfl⟩

/-- A number, a text or a name is told by its only token. -/
theorem eq_of_append_value (h : e.Written) (h' : e'.Written) {rest rest' : List Token}
    (hr : behind? .openParen rest = none) (hr' : behind? .openParen rest' = none)
    (heq : e.printTokens ++ rest = e'.printTokens ++ rest')
    (ho : e.operand? = some (.value e)) : e = e' ∧ rest = rest' := by
  obtain ⟨ho', hrest⟩ := h.operand?_of_append h' hr hr' heq ho
  exact ⟨(eq_of_operand?_value ho').symm, hrest⟩

theorem behind?_operator (op : Operator) (ts : List Token) :
    behind? .openParen (op.symbol.token :: ts) = none := by
  cases op <;> simp [Operator.symbol]

/-- Where a written expression ends and what it is can be seen from its tokens, unless a parenthesis
follows. -/
theorem eq_of_printTokens_append (h : e.Written) (h' : e'.Written) {rest rest' : List Token}
    (hr : behind? .openParen rest = none) (hr' : behind? .openParen rest' = none)
    (heq : e.printTokens ++ rest = e'.printTokens ++ rest') : e = e' ∧ rest = rest' := by
  induction h generalizing e' rest rest' with
  | number h => exact (Written.number h).eq_of_append_value h' hr hr' heq rfl
  | text content => exact (Written.text content).eq_of_append_value h' hr hr' heq rfl
  | name h => exact (Written.name h).eq_of_append_value h' hr hr' heq rfl
  | @call callee arguments h ha ih =>
    obtain ⟨ho, hrest⟩ := (Written.call h ha).operand?_of_append h' hr hr' heq rfl
    obtain ⟨arguments', rfl, hmap⟩ := eq_of_operand?_call ho
    have ha' : ∀ a ∈ arguments', a.Written := by
      cases h' with
      | call h' ha' => exact ha'
    have hargs : arguments = arguments' := by
      apply eq_of_map_eq hmap.symm
      intro a hm a' hm' hprint
      have hprint : a.printTokens ++ [] = a'.printTokens ++ [] := by rw [hprint]
      exact (ih a hm (ha' a' hm') (by rfl) (by rfl) hprint).1
    exact ⟨by rw [hargs], hrest⟩
  | @binary left right op hl hb hright ihl ihr =>
    have hnone : e'.operand? = none := by
      by_contra hsome
      obtain ⟨o, ho⟩ := Option.ne_none_iff_exists'.mp hsome
      cases (h'.operand?_of_append (.binary op hl hb hright) hr' hr heq.symm ho).1
    cases h' with
    | @binary left' right' op' hl' hb' hright' =>
      simp only [printTokens, List.cons_append, List.append_assoc, List.nil_append,
        List.cons.injEq, true_and] at heq
      -- both sides of an operation are followed by a symbol that opens nothing
      obtain ⟨hleft, hrest⟩ := ihl hl' (behind?_operator op _) (behind?_operator op' _) heq
      obtain ⟨hop, hrest⟩ := List.cons.inj hrest
      have hop : op = op' := Operator.text_injective (congrArg Token.text hop)
      obtain ⟨hright, hrest⟩ := ihr hright' (by simp) (by simp) hrest
      exact ⟨by rw [hleft, hop, hright], (List.cons.inj hrest).2⟩
    | _ => cases hnone

/-- An expression that stands as a unit goes up to its semicolon. -/
theorem eq_of_printTokens_semicolon (h : e.Written) (h' : e'.Written) {rest rest' : List Token}
    (heq : e.printTokens ++ [Symbol.semicolon.token] ++ rest =
      e'.printTokens ++ [Symbol.semicolon.token] ++ rest') : e = e' ∧ rest = rest' := by
  rw [List.append_assoc, List.append_assoc] at heq
  obtain ⟨he, hrest⟩ := h.eq_of_printTokens_append h' (by simp) (by simp) heq
  exact ⟨he, List.append_cancel_left hrest⟩

end Expr.Written

/-- The keyword in front of a unit. -/
def leading? (ts : List Token) : Option Keyword :=
  ts.head?.bind fun t => Keyword.ofText? t.text

theorem leading?_keyword (k : Keyword) (ts : List Token) : leading? (k.token :: ts) = some k :=
  Keyword.ofText?_text k

theorem leading?_eq_none {t : Token} (h : ∀ k, t.kind ≠ .keyword k) (ts : List Token) :
    leading? (t :: ts) = none := by
  cases hk : leading? (t :: ts) with
  | none => rfl
  | some k =>
    have ht : t = k.token := congrArg Token.mk (Keyword.ofText?_eq_some_iff.mp hk)
    exact absurd (Token.kind_eq_keyword_iff.mpr ht) (h k)

/-- The keyword that a simple unit is written with. -/
def Node.keyword? : Node → Option Keyword
  | .declare form _ _ => some (.declare form)
  | .ret _ => some .ret
  | .expr _ => none

namespace SimpleUnit

variable {u u' : List Token} {n n' : Node}

theorem leading?_printTokens (h : SimpleUnit u n) (ts : List Token) :
    leading? (n.printTokens ++ ts) = n.keyword? := by
  cases h with
  | declare form hn he => exact leading?_keyword (.declare form) _
  | ret he => exact leading?_keyword .ret _
  | expr he =>
    obtain ⟨hw, rfl⟩ := written_of_parseExpr he
    obtain ⟨t, rest, hp⟩ := List.exists_cons_of_ne_nil hw.printTokens_ne_nil
    rw [hw.printTokens_node, hp]
    exact leading?_eq_none (hw.printTokens_head hp) _

/-- The keyword tells what the unit is, and the semicolon where it ends. -/
theorem eq_of_printTokens_append (h : SimpleUnit u n) (h' : SimpleUnit u' n')
    {ts ts' : List Token} (heq : n.printTokens ++ ts = n'.printTokens ++ ts') :
    n = n' ∧ ts = ts' := by
  have hk : n.keyword? = n'.keyword? := by
    rw [← h.leading?_printTokens ts, heq, h'.leading?_printTokens]
  cases h with
  | @declare name _ e form hn he =>
    cases h' with
    | @declare name' _ e' form' hn' he' =>
      cases hk
      simp only [Node.printTokens, List.cons_append, List.cons.injEq, Token.mk.injEq,
        true_and] at heq
      obtain ⟨rfl, heq⟩ := heq
      obtain ⟨rfl, hrest⟩ := (written_of_parseExpr he).1.eq_of_printTokens_semicolon
        (written_of_parseExpr he').1 heq
      exact ⟨rfl, hrest⟩
    | _ => cases hk
  | ret he =>
    cases h' with
    | ret he' =>
      obtain ⟨rfl, hrest⟩ := (written_of_parseExpr he).1.eq_of_printTokens_semicolon
        (written_of_parseExpr he').1 (List.cons.inj heq).2
      exact ⟨rfl, hrest⟩
    | _ => cases hk
  | expr he =>
    cases h' with
    | expr he' =>
      obtain ⟨hw, _⟩ := written_of_parseExpr he
      obtain ⟨hw', _⟩ := written_of_parseExpr he'
      rw [hw.printTokens_node, hw'.printTokens_node] at heq
      obtain ⟨rfl, hrest⟩ := hw.eq_of_printTokens_semicolon hw' heq
      exact ⟨rfl, hrest⟩
    | _ => cases hk

/-- No simple unit starts like a function. -/
theorem printTokens_append_ne (h : SimpleUnit u n) (name : String) (parameters : List String)
    (body : List Node) (ts ts' : List Token) :
    n.printTokens ++ ts ≠ Definition.printTokens ⟨name, parameters, body⟩ ++ ts' := by
  intro heq
  have hk := h.leading?_printTokens ts
  rw [heq, Definition.printTokens, functionTokens, signatureTokens, List.append_assoc,
    List.cons_append, leading?_keyword] at hk
  cases n <;> cases hk

end SimpleUnit

/-- A function is told by its tokens, whatever follows them. -/
theorem functionTokens_append_inj {name name' : String} {parameters parameters' : List String}
    {body body' ts ts' : List Token}
    (hn : Token.isName ⟨name⟩ = true) (hp : ∀ p ∈ parameters, Token.isName ⟨p⟩ = true)
    (hb : Bracket.brace.Balanced body)
    (hn' : Token.isName ⟨name'⟩ = true) (hp' : ∀ p ∈ parameters', Token.isName ⟨p⟩ = true)
    (hb' : Bracket.brace.Balanced body')
    (heq : functionTokens name parameters body ++ ts =
      functionTokens name' parameters' body' ++ ts') :
    name = name' ∧ parameters = parameters' ∧ body = body' ∧ ts = ts' := by
  have hcut := cutUnit_functionTokens Keyword.func.token hn hp hb ts
  rw [heq, cutUnit_functionTokens _ hn' hp' hb'] at hcut
  obtain ⟨hunit, hrest⟩ := Prod.mk.inj (Except.ok.inj hcut)
  have hheader := Header.parse_functionTokens hn hp hb
  rw [← hunit, Header.parse_functionTokens hn' hp' hb'] at hheader
  cases hheader
  exact ⟨rfl, rfl, rfl, hrest.symm⟩

/-- Sequences of nodes are told apart if their nodes are, whatever follows each of them. -/
theorem Node.eq_of_printTokensAll {ns ns' : List Node}
    (h : ∀ n ∈ ns, ∀ n' ∈ ns', ∀ ts ts' : List Token,
      n.printTokens ++ ts = n'.printTokens ++ ts' → n = n' ∧ ts = ts')
    (heq : Node.printTokensAll ns = Node.printTokensAll ns') : ns = ns' := by
  induction ns generalizing ns' with
  | nil =>
    cases ns' with
    | nil => rfl
    | cons n' ns' =>
      obtain ⟨us, s, hn'⟩ := n'.printTokens_eq
      simp [Node.printTokensAll, hn'] at heq
  | cons n ns ih =>
    cases ns' with
    | nil =>
      obtain ⟨us, s, hn⟩ := n.printTokens_eq
      simp [Node.printTokensAll, hn] at heq
    | cons n' ns' =>
      obtain ⟨hn, hrest⟩ := h n (by simp) n' (by simp) _ _ heq
      rw [hn, ih (fun n hn n' hn' => h n (by simp [hn]) n' (by simp [hn'])) hrest]

namespace Node.Written

variable {n n' : Node}

theorem eq_of_printTokens_append (h : n.Written) (h' : n'.Written) (ts ts' : List Token)
    (heq : n.printTokens ++ ts = n'.printTokens ++ ts') : n = n' ∧ ts = ts' := by
  induction h generalizing n' ts ts' with
  | simple hu =>
    cases h' with
    | simple hu' => exact hu.eq_of_printTokens_append hu' heq
    | function hn hp hb => exact absurd heq (hu.printTokens_append_ne _ _ _ ts ts')
  | function hn hp hb ih =>
    cases h' with
    | simple hu' => exact absurd heq.symm (hu'.printTokens_append_ne _ _ _ ts' ts)
    | function hn' hp' hb' =>
      have hbody := balanced_printTokensAll fun n hm => (hb n hm).balanced_printTokens
      have hbody' := balanced_printTokensAll fun n hm => (hb' n hm).balanced_printTokens
      obtain ⟨rfl, rfl, hnodes, hrest⟩ :=
        functionTokens_append_inj hn hp hbody hn' hp' hbody' heq
      rw [eq_of_printTokensAll (fun n hm n' hm' => ih n hm (hb' n' hm')) hnodes]
      exact ⟨rfl, hrest⟩

end Node.Written

/-- Programs that were read from sources are the same if they are written alike. -/
theorem program_eq_of_print_eq {source source' : String} {ts ts' : List Token} {p p' : Program}
    (ht : tokenize source = .ok ts) (hp : parse ts = .ok p)
    (ht' : tokenize source' = .ok ts') (hp' : parse ts' = .ok p')
    (h : Program.print p = Program.print p') : p = p' := by
  have htokens : Node.printTokensAll p = Node.printTokensAll p' := by
    apply Except.ok.inj
    rw [← tokenize_print ht hp, h, tokenize_print ht' hp']
  have hw := (derives_of_parse hp).written
  have hw' := (derives_of_parse hp').written
  exact Node.eq_of_printTokensAll
    (fun n hn n' hn' => (hw n hn).eq_of_printTokens_append (hw' n' hn')) htokens

/-- Spaces and the last semicolon make no difference to the program, and none to how it is
written. -/
theorem program_eq_of_print_eq_spaced :
    ∃ ts ts' p p', tokenize "1+f(x)" = .ok ts ∧ parse ts = .ok p ∧
      tokenize " 1 + f( x ) ; " = .ok ts' ∧ parse ts' = .ok p' ∧
      Program.print p = "(1 + f(x));\n" ∧ p = p' := by
  have ht : tokenize "1+f(x)" = .ok [⟨"1"⟩, ⟨"+"⟩, ⟨"f"⟩, ⟨"("⟩, ⟨"x"⟩, ⟨")"⟩] :=
    tokenize_eq_ok_iff.mpr ⟨rfl, rfl, rfl, rfl, rfl, rfl, rfl⟩
  have ht' : tokenize " 1 + f( x ) ; " =
      .ok [⟨"1"⟩, ⟨"+"⟩, ⟨"f"⟩, ⟨"("⟩, ⟨"x"⟩, ⟨")"⟩, ⟨";"⟩] :=
    tokenize_eq_ok_iff.mpr ⟨rfl, rfl, rfl, rfl, rfl, rfl, rfl, rfl⟩
  have hsum : (Expr.binary .add (.number "1") (.call "f" [.variable "x"])).Written :=
    .binary _ (.number rfl) rfl (.call rfl (by simpa using .name rfl))
  have hu := SimpleUnit.expr (parseExpr_flat hsum)
  have hd := Derives.last hu
  have hd' := Derives.unit hu .nil
  exact ⟨_, _, _, _, ht, hd.parse, ht', hd'.parse, rfl,
    program_eq_of_print_eq ht hd.parse ht' hd'.parse rfl⟩

end TinyScript
