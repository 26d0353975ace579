import TinyScript.Proofs.PrintTokens

/-!
Reading the written form. The parentheses around an operation are written but not read, so a
program is read back if it holds no operation, and else the first of these parentheses is where
reading fails.
-/

namespace TinyScript

mutual

/-- There is an operation in the expression, in an argument or in a body. -/
def Expr.operates : Expr → Bool
  | .number _ | .text _ | .variable _ => false
  | .binary _ _ _ => true
  | .call _ arguments => Expr.operatesAny arguments
  | .function d => d.operates

def Expr.operatesAny : List Expr → Bool
  | [] => false
  | e :: es => e.operates || Expr.operatesAny es

def Definition.operates : Definition → Bool
  | ⟨_, _, body⟩ => Node.operatesAny body

def Node.operates : Node → Bool
  | .declare _ _ e | .ret e | .expr e => e.operates

def Node.operatesAny : List Node → Bool
  | [] => false
  | n :: ns => n.operates || Node.operatesAny ns

end

theorem Expr.operatesAny_eq_any (es : List Expr) :
    Expr.operatesAny es = es.any Expr.operates := by
  induction es with
  | nil => rfl
  | cons e es ih => rw [Expr.operatesAny, ih, List.any_cons]

/-- What is read where `x` was written. -/
def readBack {α : Type} (operates : Bool) (x : α) : Except ParseError α :=
  if operates then .error (.unexpectedToken "(") else .ok x

theorem readBack_map {α β : Type} (operates : Bool) (x : α) (f : α → β) :
    (readBack operates x).map f = readBack operates (f x) := by
  cases operates <;> rfl

/-- Of two things read in a row either may fail, and they fail alike. -/
theorem readBack_bind {α β : Type} (operates operates' : Bool) (x : α) (f : α → β) :
    ((readBack operates x).bind fun x => readBack operates' (f x)) =
      readBack (operates || operates') (f x) := by
  cases operates <;> rfl

/-- No expression starts with a symbol. -/
theorem parseExpr_symbol (s : Symbol) (ts : List Token) :
    parseExpr (s.token :: ts) = .error (.unexpectedToken s.text) := by
  have hn : s.token.isName = false := by simp [Token.isName, Symbol.token_kind]
  rw [parseExpr_eq, splitOperand, hn]
  simp only [Bool.false_eq_true, ↓reduceIte, parseValue, Symbol.token_kind]
  rfl

namespace Expr.Written

variable {e : Expr}

theorem printTokens_ne_nil (h : e.Written) : e.printTokens ≠ [] := by
  cases h <;> simp [printTokens]

theorem printTokens_head (h : e.Written) {t : Token} {ts : List Token}
    (hp : e.printTokens = t :: ts) (k : Keyword) : t.kind ≠ .keyword k := by
  cases h with
  | number h => exact (Written.number h).head_kind hp k
  | text content => exact (Written.text content).head_kind hp k
  | name h => exact (Written.name h).head_kind hp k
  | call h ha =>
    cases hp
    simp [Token.isName_iff.mp h]
  | binary op hl hb hr =>
    cases hp
    simp [Symbol.token_kind]

/-- A written operation is in one piece, as it stands in parentheses. -/
theorem printTokens_argument (h : e.Written) : Argument e.printTokens := by
  induction h with
  | number h => exact (Written.number h).argument
  | text content => exact (Written.text content).argument
  | name h => exact (Written.name h).argument
  | @call callee arguments h ha ih =>
    have hb : Bracket.paren.Balanced (joinCommas (printTokensAll arguments)) := by
      apply balanced_joinCommas
      intro piece hp
      rw [printTokensAll_eq_map] at hp
      obtain ⟨a, hm, rfl⟩ := List.mem_map.mp hp
      exact (ih a hm).balanced
    exact (argument_name h).append hb.argument
  | binary op hl hb hr ihl ihr =>
    exact (ihl.append ((argument_operator op).append ihr)).balanced.argument

theorem printTokens_inline (h : e.Written) : Inline e.printTokens := by
  induction h with
  | number h => exact (Written.number h).inline
  | text content => exact (Written.text content).inline
  | name h => exact (Written.name h).inline
  | @call callee arguments h ha ih =>
    apply inline_list h
    intro piece hp
    rw [printTokensAll_eq_map] at hp
    obtain ⟨a, hm, rfl⟩ := List.mem_map.mp hp
    exact ih a hm
  | binary op hl hb hr ihl ihr =>
    have ho : Inline [Symbol.openParen.token] := inline_symbol (by simp)
    have hc : Inline [Symbol.closeParen.token] := inline_symbol (by simp)
    exact ho.append ((ihl.append ((inline_operator op).append ihr)).append hc)

/-- Written arguments are the pieces between the commas of a call. -/
theorem printTokens_pieces {arguments : List Expr} (ha : ∀ a ∈ arguments, a.Written) :
    ∀ piece ∈ arguments.map printTokens, Argument piece ∧ piece ≠ [] := by
  intro piece hp
  obtain ⟨a, hm, rfl⟩ := List.mem_map.mp hp
  exact ⟨(ha a hm).printTokens_argument, (ha a hm).printTokens_ne_nil⟩

/-- An expression without operations is read back. One with operations is cut into its arguments
before any of them is read, so nothing but the parenthesis of an operation can fail. -/
theorem parseExpr_printTokens (h : e.Written) :
    parseExpr e.printTokens = readBack e.operates e := by
  induction h with
  | number h => exact parseExpr_flat (.number h)
  | text content => exact parseExpr_flat (.text content)
  | name h => exact parseExpr_flat (.name h)
  | @call callee arguments h ha ih =>
    have hpieces := printTokens_pieces ha
    have hm : (arguments.map printTokens).mapM parseExpr =
        readBack (operatesAny arguments) arguments := by
      rw [operatesAny_eq_any]
      exact mapM_map_ite ih
    rw [printTokens, printTokensAll_eq_map,
      parseExpr_pieces h (fun piece hp => (hpieces piece hp).1)
        (fun piece hp => (hpieces piece hp).2), hm, operates]
    exact readBack_map _ arguments (Expr.call callee)
  | binary op hl hb hr ihl ihr => exact parseExpr_symbol .openParen _

end Expr.Written

/-- A simple unit is written with a semicolon, and what stands before it is again a unit. -/
theorem printed_of_simpleUnit {u : List Token} {n : Node} (h : SimpleUnit u n) :
    ∃ printed, n.printTokens = printed ++ [Symbol.semicolon.token] ∧ Inline printed ∧
      printed ≠ [] ∧ parseUnit printed = readBack n.operates n := by
  cases h with
  | @declare name ts e form hn he =>
    obtain ⟨hw, rfl⟩ := written_of_parseExpr he
    have ha : Inline [Symbol.assign.token] := inline_symbol (by simp)
    refine ⟨_, rfl, (inline_keyword (.declare form)).append ((inline_name hn).append
      (ha.append hw.printTokens_inline)), by simp, ?_⟩
    have hu := parseUnit_declare form hn e.printTokens
    rw [hw.parseExpr_printTokens, readBack_map] at hu
    exact hu
  | @ret ts e he =>
    obtain ⟨hw, rfl⟩ := written_of_parseExpr he
    refine ⟨_, rfl, (inline_keyword .ret).append hw.printTokens_inline, by simp, ?_⟩
    have hu := parseUnit_ret e.printTokens
    rw [hw.parseExpr_printTokens, readBack_map] at hu
    exact hu
  | expr he =>
    obtain ⟨hw, rfl⟩ := written_of_parseExpr he
    refine ⟨_, hw.printTokens_node, hw.printTokens_inline, hw.printTokens_ne_nil, ?_⟩
    obtain ⟨t, rest, hp⟩ := List.exists_cons_of_ne_nil hw.printTokens_ne_nil
    rw [hp, parseUnit_expr (hw.printTokens_head hp), ← hp, hw.parseExpr_printTokens, readBack_map]
    rfl

theorem parse_printTokens_append {u : List Token} {n : Node} (h : SimpleUnit u n)
    (ts : List Token) :
    parse (n.printTokens ++ ts) =
      (readBack n.operates n).bind fun n => (parse ts).map (n :: ·) := by
  obtain ⟨printed, hp, hi, hne, hu⟩ := printed_of_simpleUnit h
  rw [hp, List.append_assoc, List.singleton_append, hi.parse_append hne, hu]

theorem SimpleUnit.balanced_printTokens {u : List Token} {n : Node} (h : SimpleUnit u n) :
    Bracket.brace.Balanced n.printTokens := by
  obtain ⟨printed, hp, hi, _⟩ := printed_of_simpleUnit h
  rw [hp]
  exact hi.balanced.append (Bracket.balanced_singleton (by simp) (by simp))

/-- The nodes that programs can be read as. -/
inductive Node.Written : Node → Prop where
  | simple {u : List Token} {n : Node} (hu : SimpleUnit u n) : Written n
  | function {name : String} {parameters : List String} {body : List Node}
      (hn : Token.isName ⟨name⟩ = true) (hp : ∀ p ∈ parameters, Token.isName ⟨p⟩ = true)
      (hb : ∀ n ∈ body, Written n) : Written (.expr (.function ⟨name, parameters, body⟩))

theorem Derives.written {ts : List Token} {p : Program} (h : Derives ts p) :
    ∀ n ∈ p, n.Written := by
  induction h with
  | nil => simp
  | skip h ih => exact ih
  | unit hu h ih => exact List.forall_mem_cons.mpr ⟨.simple hu, ih⟩
  | last hu => exact List.forall_mem_singleton.mpr (.simple hu)
  | function hn hp hb h ihb ih => exact List.forall_mem_cons.mpr ⟨.function hn hp ihb, ih⟩

theorem Node.balanced_printTokensAll {ns : List Node}
    (h : ∀ n ∈ ns, Bracket.brace.Balanced n.printTokens) :
    Bracket.brace.Balanced (Node.printTokensAll ns) := by
  induction ns with
  | nil => exact Bracket.balanced_nil
  | cons n ns ih => exact (h n (by simp)).append (ih fun n hn => h n (by simp [hn]))

theorem Node.Written.balanced_printTokens {n : Node} (h : n.Written) :
    Bracket.brace.Balanced n.printTokens := by
  induction h with
  | simple hu => exact hu.balanced_printTokens
  | function hn hp hb ih =>
    have hblock := (Node.balanced_printTokensAll ih).enclose Bracket.brace_distinct
    exact (inline_signatureTokens hn hp).balanced.append hblock

/-- Blocks are closed in every written program. -/
theorem Derives.balanced_printTokens {ts : List Token} {p : Program} (h : Derives ts p) :
    Bracket.brace.Balanced (Node.printTokensAll p) :=
  Node.balanced_printTokensAll fun n hn => (h.written n hn).balanced_printTokens

/-- The units of a written program are read one by one, and all units before the first operation
are read without an error. -/
theorem parse_printTokensAll {ts : List Token} {p : Program} (h : Derives ts p) :
    parse (Node.printTokensAll p) = readBack (Node.operatesAny p) p := by
  induction h with
  | nil => exact parse_nil
  | skip h ih => exact ih
  | unit hu h ih =>
    rw [Node.printTokensAll, parse_printTokens_append hu, ih]
    simp only [readBack_map, readBack_bind, Node.operatesAny]
  | last hu =>
    rw [Node.printTokensAll, parse_printTokens_append hu, Node.printTokensAll, parse_nil]
    exact readBack_bind _ false _ fun n => [n]
  | function hn hp hb h ihb ih =>
    rw [Node.printTokensAll, Node.printTokens, Definition.printTokens,
      parse_functionTokens hn hp hb.balanced_printTokens, ihb, ih]
    simp only [readBack_map, readBack_bind, Node.operatesAny, Node.operates, Expr.operates,
      Definition.operates]

/-- A program that was read from a source is written as a text that falls into tokens again. They
are read as the program itself if there is no operation in it, not even in an argument or a body,
and otherwise a parenthesis is the first thing that cannot be read. -/
theorem parse_print {source : String} {ts : List Token} {p : Program}
    (ht : tokenize source = .ok ts) (hp : parse ts = .ok p) :
    ∃ printed, tokenize (Program.print p) = .ok printed ∧
      (Node.operatesAny p = false → parse printed = .ok p) ∧
      (Node.operatesAny p = true → parse printed = .error (.unexpectedToken "(")) := by
  refine ⟨_, tokenize_print ht hp, ?_⟩
  rw [parse_printTokensAll (derives_of_parse hp)]
  constructor
  · intro h
    rw [h]
    rfl
  · intro h
    rw [h]
    rfl

/-- A call that is read back, and one that is not because of an argument in a body. -/
theorem parse_print_call :
    (∃ printed, tokenize "f(\"x y\", 1);\n" = .ok printed ∧
      parse printed = .ok [.expr (.call "f" [.text "x y", .number "1"])]) ∧
    ∃ printed, tokenize "func f(a) \x7b g(a, (1 - a)); \x7d\n" = .ok printed ∧
      parse printed = .error (.unexpectedToken "(") := by
  have ht : tokenize "f(\"x y\",1)" = .ok [⟨"f"⟩, ⟨"("⟩, ⟨"\"x y\""⟩, ⟨","⟩, ⟨"1"⟩, ⟨")"⟩] :=
    tokenize_eq_ok_iff.mpr ⟨rfl, rfl, rfl, rfl, rfl, rfl, rfl⟩
  have ht' : tokenize "func f(a) \x7b g(a, 1 - a) \x7d" =
      .ok [⟨"func"⟩, ⟨"f"⟩, ⟨"("⟩, ⟨"a"⟩, ⟨")"⟩, ⟨"\x7b"⟩, ⟨"g"⟩, ⟨"("⟩, ⟨"a"⟩, ⟨","⟩, ⟨"1"⟩,
        ⟨"-"⟩, ⟨"a"⟩, ⟨")"⟩, ⟨"\x7d"⟩] :=
    tokenize_eq_ok_iff.mpr
      ⟨rfl, rfl, rfl, rfl, rfl, rfl, rfl, rfl, rfl, rfl, rfl, rfl, rfl, rfl, rfl, rfl⟩
  have hcall : (Expr.call "f" [.text "x y", .number "1"]).Written :=
    .call rfl (by simpa using ⟨.text _, .number rfl⟩)
  have hcall' : (Expr.call "g" [.variable "a",
      .binary .subtract (.number "1") (.variable "a")]).Written :=
    .call rfl (by simpa using ⟨.name rfl, .binary _ (.number rfl) rfl (.name rfl)⟩)
  have ha : Token.isName ⟨"a"⟩ = true := rfl
  have hd := Derives.last (.expr (parseExpr_flat hcall))
  have hd' : Derives (functionTokens "f" ["a"] _ ++ []) _ :=
    .function rfl (by simpa using ha) (.last (.expr (parseExpr_flat hcall'))) .nil
  obtain ⟨printed, hl, hp, _⟩ := parse_print ht hd.parse
  obtain ⟨printed', hl', _, hp'⟩ := parse_print ht' hd'.parse
  exact ⟨⟨printed, hl, hp rfl⟩, printed', hl', hp' rfl⟩

end TinyScript
