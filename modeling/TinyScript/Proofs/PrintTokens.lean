import TinyScript.Tree.Print
import TinyScript.Proofs.Grammar
import TinyScript.Proofs.Joins

/-!
The written form as tokens. The blanks, quotes and semicolons of a written program keep its tokens
apart, if the program was read from a source and its names and texts are those of the source.
-/

namespace TinyScript

mutual

def Expr.printTokens : Expr → List Token
  | .number raw => [⟨raw⟩]
  | .text content => [⟨"\"" ++ content ++ "\""⟩]
  | .variable name => [⟨name⟩]
  | .binary op l r =>
    Symbol.openParen.token ::
      ((l.printTokens ++ op.symbol.token :: r.printTokens) ++ [Symbol.closeParen.token])
  | .call callee arguments =>
    ⟨callee⟩ :: Symbol.openParen.token ::
      (joinCommas (Expr.printTokensAll arguments) ++ [Symbol.closeParen.token])
  | .function d => d.printTokens

def Expr.printTokensAll : List Expr → List (List Token)
  | [] => []
  | e :: es => e.printTokens :: Expr.printTokensAll es

def Definition.printTokens : Definition → List Token
  | ⟨name, parameters, body⟩ => functionTokens name parameters (Node.printTokensAll body)

def Node.printTokens : Node → List Token
  | .declare form name e =>
    (Keyword.declare form).token :: ⟨name⟩ :: Symbol.assign.token ::
      (e.printTokens ++ [Symbol.semicolon.token])
  | .ret e => Keyword.ret.token :: (e.printTokens ++ [Symbol.semicolon.token])
  | .expr (.function d) => d.printTokens
  | .expr e => e.printTokens ++ [Symbol.semicolon.token]

def Node.printTokensAll : List Node → List Token
  | [] => []
  | n :: ns => n.printTokens ++ Node.printTokensAll ns

end

theorem Expr.printTokensAll_eq_map (es : List Expr) :
    Expr.printTokensAll es = es.map Expr.printTokens := by
  induction es with
  | nil => rfl
  | cons e es ih => rw [Expr.printTokensAll, ih, List.map_cons]

theorem tokenize_openParen : tokenize "(" = .ok [Symbol.openParen.token] :=
  tokenize_symbol (s := .openParen) (by simp)

theorem tokenize_closeParen : tokenize ")" = .ok [Symbol.closeParen.token] :=
  tokenize_symbol (s := .closeParen) (by simp)

theorem tokenize_semicolon : tokenize ";" = .ok [Symbol.semicolon.token] :=
  tokenize_symbol (s := .semicolon) (by simp)

section List

variable {α : Type} {print : α → String} {tokens : α → List Token} {xs : List α}

/-- A comma keeps items apart. -/
theorem tokenize_intercalate (h : ∀ x ∈ xs, tokenize (print x) = .ok (tokens x)) :
    tokenize (String.intercalate ", " (xs.map print)) = .ok (joinCommas (xs.map tokens)) := by
  have hc : tokenize ", " = .ok [Symbol.comma.token] := tokenize_eq_ok_iff.mpr ⟨rfl, rfl⟩
  induction xs with
  | nil => exact tokenize_eq_ok_iff.mpr rfl
  | cons x xs ih =>
    have hx := h x (by simp)
    have hrest := ih fun x hx => h x (by simp [hx])
    cases xs with
    | nil => simpa using hx
    | cons y ys =>
      simp only [List.map_cons] at hrest ⊢
      rw [String.intercalate_cons_cons, joinCommas_cons_cons]
      exact tokenize_behind_symbol (tokenize_before_symbol hx hc) hrest

/-- A list in parentheses, as in a call or a signature. -/
theorem tokenize_list {head : String} {ts : List Token} (hh : tokenize head = .ok ts)
    (h : ∀ x ∈ xs, tokenize (print x) = .ok (tokens x)) :
    tokenize (head ++ "(" ++ String.intercalate ", " (xs.map print) ++ ")") =
      .ok (ts ++ Symbol.openParen.token ::
        (joinCommas (xs.map tokens) ++ [Symbol.closeParen.token])) := by
  have ho := tokenize_before_symbol hh tokenize_openParen
  have hl := tokenize_behind_symbol ho (tokenize_intercalate h)
  rw [tokenize_before_symbol hl tokenize_closeParen]
  simp

end List

/-- An expression is written with the names and texts that it was read from. -/
theorem Expr.Written.tokenize_print {e : Expr} (h : e.Written) (hl : ∀ t ∈ e.flat, t.Lexeme) :
    tokenize e.print = .ok e.printTokens := by
  induction h with
  | number h => exact tokenize_text (hl _ (by simp [flat]))
  | text content => exact tokenize_text (hl _ (by simp [flat]))
  | name h => exact tokenize_text (hl _ (by simp [flat]))
  | @call callee arguments h ha ih =>
    have hname : tokenize callee = .ok [⟨callee⟩] := tokenize_text (hl _ (by simp [flat]))
    rw [print, printTokens, printAll_eq_map, printTokensAll_eq_map]
    apply tokenize_list hname
    intro a hm
    apply ih a hm
    intro t ht
    apply hl
    have hj : t ∈ joinCommas (flatAll arguments) := by
      rw [flatAll_eq_map]
      exact mem_joinCommas (List.mem_map_of_mem hm) ht
    simp [flat, hj]
  | @binary left right op hleft hb hright ihl ihr =>
    have hlhs := ihl fun t ht => hl t (by simp [flat, ht])
    have hrhs := ihr fun t ht => hl t (by simp [flat, ht])
    have hop : tokenize op.text = .ok [op.symbol.token] :=
      tokenize_symbol (by cases op <;> simp [Operator.symbol])
    have ho : tokenize ("(" ++ left.print) =
        .ok ([] ++ Symbol.openParen.token :: left.printTokens) :=
      tokenize_behind_symbol tokenize_openParen hlhs
    have hr := tokenize_spaced (tokenize_spaced ho hop) hrhs
    rw [print, tokenize_before_symbol hr tokenize_closeParen, printTokens]
    simp

/-- No function stands in a written expression, so the expression is closed by a semicolon. -/
theorem Expr.Written.print_node {e : Expr} (h : e.Written) :
    (Node.expr e).print = e.print ++ ";" := by
  cases h <;> rfl

theorem Expr.Written.printTokens_node {e : Expr} (h : e.Written) :
    (Node.expr e).printTokens = e.printTokens ++ [Symbol.semicolon.token] := by
  cases h <;> rfl

theorem SimpleUnit.tokenize_print {u : List Token} {n : Node} (h : SimpleUnit u n)
    (hl : ∀ t ∈ u, t.Lexeme) : tokenize n.print = .ok n.printTokens := by
  cases h with
  | @declare name ts e form hn he =>
    obtain ⟨hw, rfl⟩ := written_of_parseExpr he
    have hform : tokenize form.text = .ok [(Keyword.declare form).token] :=
      tokenize_keyword (.declare form)
    have hname : tokenize name = .ok [⟨name⟩] := tokenize_text (hl _ (by simp))
    have hassign : tokenize " = " = .ok [Symbol.assign.token] :=
      tokenize_eq_ok_iff.mpr ⟨rfl, rfl⟩
    have hvalue := hw.tokenize_print fun t ht => hl t (by simp [ht])
    have hleft := tokenize_before_symbol (tokenize_spaced hform hname) hassign
    rw [Node.print, tokenize_before_symbol (tokenize_behind_symbol hleft hvalue)
      tokenize_semicolon, Node.printTokens]
    simp
  | @ret ts e he =>
    obtain ⟨hw, rfl⟩ := written_of_parseExpr he
    have hvalue := hw.tokenize_print fun t ht => hl t (by simp [ht])
    have hret := tokenize_spaced (tokenize_keyword .ret) hvalue
    have ht : (Node.ret e).print = Keyword.ret.text ++ " " ++ e.print ++ ";" := rfl
    rw [ht, tokenize_before_symbol hret tokenize_semicolon, Node.printTokens]
    simp
  | expr he =>
    obtain ⟨hw, rfl⟩ := written_of_parseExpr he
    rw [hw.print_node, hw.printTokens_node]
    exact tokenize_before_symbol (hw.tokenize_print hl) tokenize_semicolon

/-- A node ends with its semicolon, or with the brace of its body. -/
theorem Node.printTokens_eq (n : Node) :
    ∃ (ts : List Token) (s : Symbol), n.printTokens = ts ++ [s.token] := by
  match n with
  | .declare form name e =>
    exact ⟨(Keyword.declare form).token :: ⟨name⟩ :: Symbol.assign.token :: e.printTokens,
      .semicolon, rfl⟩
  | .ret e => exact ⟨Keyword.ret.token :: e.printTokens, .semicolon, rfl⟩
  | .expr (.function ⟨name, parameters, body⟩) =>
    refine ⟨signatureTokens name parameters ++
      Symbol.openBrace.token :: Node.printTokensAll body, .closeBrace, ?_⟩
    simp [Node.printTokens, Definition.printTokens, functionTokens]
  | .expr (.number raw) => exact ⟨_, .semicolon, rfl⟩
  | .expr (.text content) => exact ⟨_, .semicolon, rfl⟩
  | .expr (.variable name) => exact ⟨_, .semicolon, rfl⟩
  | .expr (.binary op l r) => exact ⟨_, .semicolon, rfl⟩
  | .expr (.call callee arguments) => exact ⟨_, .semicolon, rfl⟩

/-- Nothing in a node goes on in what is written behind it. -/
theorem Node.tokenize_append (n : Node) {a b : String} {ts : List Token}
    (ha : tokenize a = .ok n.printTokens) (hb : tokenize b = .ok ts) :
    tokenize (a ++ b) = .ok (n.printTokens ++ ts) := by
  obtain ⟨us, s, hn⟩ := n.printTokens_eq
  rw [hn] at ha ⊢
  rw [tokenize_behind_symbol ha hb, List.append_assoc, List.singleton_append]

theorem Node.tokenize_printBody {ns : List Node}
    (h : ∀ n ∈ ns, tokenize n.print = .ok n.printTokens) :
    tokenize (Node.printBody ns) = .ok (Node.printTokensAll ns) := by
  induction ns with
  | nil => exact tokenize_eq_ok_iff.mpr rfl
  | cons n ns ih =>
    have hempty : tokenize "" = .ok [] := tokenize_eq_ok_iff.mpr rfl
    have hn := tokenize_spaced hempty (h n (by simp))
    rw [String.empty_append, List.nil_append] at hn
    exact n.tokenize_append hn (ih fun n hn => h n (by simp [hn]))

theorem Program.tokenize_print_of_nodes {p : Program}
    (h : ∀ n ∈ p, tokenize n.print = .ok n.printTokens) :
    tokenize (Program.print p) = .ok (Node.printTokensAll p) := by
  induction p with
  | nil => exact tokenize_eq_ok_iff.mpr rfl
  | cons n ns ih =>
    have hline : tokenize "\n" = .ok [] := tokenize_eq_ok_iff.mpr rfl
    have hn : tokenize (n.print ++ "\n") = .ok n.printTokens := by
      rw [n.tokenize_append (h n (by simp)) hline, List.append_nil]
    exact n.tokenize_append hn (ih fun n hn => h n (by simp [hn]))

theorem Definition.tokenize_print {name : String} {parameters : List String} {body : List Node}
    (hn : Token.Lexeme ⟨name⟩) (hp : ∀ p ∈ parameters, Token.Lexeme ⟨p⟩)
    (hb : ∀ n ∈ body, tokenize n.print = .ok n.printTokens) :
    tokenize (Definition.print ⟨name, parameters, body⟩) =
      .ok (Definition.printTokens ⟨name, parameters, body⟩) := by
  have hhead := tokenize_spaced (tokenize_keyword .func) (tokenize_text hn)
  have hsign : tokenize (Definition.signature ⟨name, parameters, body⟩) =
      .ok (signatureTokens name parameters) := by
    have hparams : ∀ p ∈ parameters, tokenize (id p) = .ok [⟨p⟩] := fun p hm =>
      tokenize_text (hp p hm)
    have hlist := tokenize_list hhead hparams
    rwa [List.map_id] at hlist
  have hopen : tokenize " \x7b" = .ok [Symbol.openBrace.token] :=
    tokenize_eq_ok_iff.mpr ⟨rfl, rfl⟩
  have hclose : tokenize " \x7d" = .ok [Symbol.closeBrace.token] :=
    tokenize_eq_ok_iff.mpr ⟨rfl, rfl⟩
  have hblock := tokenize_behind_symbol (tokenize_before_symbol hsign hopen)
    (Node.tokenize_printBody hb)
  rw [Definition.print, tokenize_before_symbol hblock hclose, Definition.printTokens,
    functionTokens]
  simp

/-- Every node of a program that was read from lexemes is written as its tokens. -/
theorem Derives.tokenize_print {ts : List Token} {p : Program} (h : Derives ts p)
    (hl : ∀ t ∈ ts, t.Lexeme) : ∀ n ∈ p, tokenize n.print = .ok n.printTokens := by
  induction h with
  | nil => simp
  | skip h ih => exact ih fun t ht => hl t (by simp [ht])
  | unit hu h ih =>
    rw [List.forall_mem_cons]
    exact ⟨hu.tokenize_print fun t ht => hl t (by simp [ht]), ih fun t ht => hl t (by simp [ht])⟩
  | last hu =>
    rw [List.forall_mem_singleton]
    exact hu.tokenize_print hl
  | @function name parameters body ts nodes ns hn hp hb h ihb ih =>
    rw [List.forall_mem_cons]
    refine ⟨?_, ih fun t ht => hl t (by simp [ht])⟩
    apply Definition.tokenize_print
    · exact hl _ (by simp [functionTokens, signatureTokens])
    · intro p hm
      have hj : (⟨p⟩ : Token) ∈ joinCommas (parameters.map fun p => [⟨p⟩]) :=
        mem_joinCommas (List.mem_map_of_mem hm) (by simp)
      exact hl _ (by simp [functionTokens, signatureTokens, hj])
    · exact ihb fun t ht => hl t (by simp [functionTokens, ht])

/-- What was read from a source can be written so that the lexemes are told apart again. -/
theorem tokenize_print {source : String} {ts : List Token} {p : Program}
    (ht : tokenize source = .ok ts) (hp : parse ts = .ok p) :
    tokenize (Program.print p) = .ok (Node.printTokensAll p) := by
  obtain ⟨s, hs, rfl, _⟩ := segmentation_of_tokenize ht
  exact Program.tokenize_print_of_nodes ((derives_of_parse hp).tokenize_print hs.lexeme)

end TinyScript
