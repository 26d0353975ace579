import TinyScript.Parse.Program
import TinyScript.Proofs.Balance

/-!
Expressions written back as tokens. Reading tokens as an expression and writing an expression as
tokens undo each other, so the reader accepts exactly what can be written.
-/

namespace TinyScript

section Inverse

variable {ε α β : Type} {f : α → Except ε β} {g : β → α}

/-- If what `f` gives for an item is good and `g` leads back from it, the same holds for lists. -/
theorem map_of_mapM {good : β → Prop} {xs : List α} {ys : List β} (hm : xs.mapM f = .ok ys)
    (h : ∀ x ∈ xs, ∀ y, f x = .ok y → good y ∧ g y = x) :
    (∀ y ∈ ys, good y) ∧ ys.map g = xs := by
  induction xs generalizing ys with
  | nil =>
    cases hm
    simp
  | cons x xs ih =>
    rw [List.mapM_cons] at hm
    obtain ⟨y, hy, hm⟩ := except_bind_eq_ok hm
    obtain ⟨zs, hz, hm⟩ := except_bind_eq_ok hm
    cases hm
    obtain ⟨hg, he⟩ := h x (by simp) y hy
    obtain ⟨hgs, hes⟩ := ih hz fun x hx => h x (by simp [hx])
    exact ⟨by simpa using ⟨hg, hgs⟩, by rw [List.map_cons, he, hes]⟩

theorem mapM_map {ys : List β} (h : ∀ y ∈ ys, f (g y) = .ok y) :
    (ys.map g).mapM f = .ok ys := by
  induction ys with
  | nil => rfl
  | cons y ys ih =>
    rw [List.map_cons, List.mapM_cons, h y (by simp), ih fun y hy => h y (by simp [hy])]
    rfl

/-- Where `f` fails it fails with one error, so it does not matter which item fails first. -/
theorem mapM_map_ite {bad : β → Bool} {e : ε} {ys : List β}
    (h : ∀ y ∈ ys, f (g y) = if bad y then .error e else .ok y) :
    (ys.map g).mapM f = if ys.any bad then .error e else .ok ys := by
  induction ys with
  | nil => rfl
  | cons y ys ih =>
    rw [List.map_cons, List.mapM_cons, h y (by simp), ih fun y hy => h y (by simp [hy]),
      List.any_cons]
    cases bad y <;> cases ys.any bad <;> rfl

end Inverse

namespace Expr

mutual

/-- The tokens of an expression, without any parentheses but those of calls. Functions are not
written inside expressions. -/
def flat : Expr → List Token
  | number raw => [⟨raw⟩]
  | text content => [⟨"\"" ++ content ++ "\""⟩]
  | .variable name => [⟨name⟩]
  | binary op left right => left.flat ++ op.symbol.token :: right.flat
  | call callee arguments =>
    ⟨callee⟩ :: Symbol.openParen.token ::
      (joinCommas (flatAll arguments) ++ [Symbol.closeParen.token])
  | function _ => []

def flatAll : List Expr → List (List Token)
  | [] => []
  | e :: es => e.flat :: flatAll es

end

theorem flatAll_eq_map (es : List Expr) : flatAll es = es.map flat := by
  induction es with
  | nil => rfl
  | cons e es ih => rw [flatAll, ih, List.map_cons]

def isBinary : Expr → Bool
  | binary _ _ _ => true
  | _ => false

/-- The expressions that tokens can say: numbers are digits, names are names, and only the right
side of an operation is an operation. -/
inductive Written : Expr → Prop where
  | number {raw : String} (h : Decimal.isNumeral raw.toList = true) : Written (.number raw)
  | text (content : String) : Written (.text content)
  | name {name : String} (h : Token.isName ⟨name⟩ = true) : Written (.variable name)
  | call {callee : String} {arguments : List Expr} (h : Token.isName ⟨callee⟩ = true)
      (ha : ∀ a ∈ arguments, Written a) : Written (.call callee arguments)
  | binary {left right : Expr} (op : Operator) (hl : Written left)
      (hb : left.isBinary = false) (hr : Written right) : Written (.binary op left right)

theorem Written.flat_ne_nil {e : Expr} (h : e.Written) : e.flat ≠ [] := by
  cases h <;> simp [flat]

end Expr

theorem argument_of_kind {t : Token} (h : ∀ s, t.kind ≠ .symbol s) : Argument [t] :=
  argument_singleton (Token.is_eq_false h _) (Token.is_eq_false h _) (Token.is_eq_false h _)

theorem argument_operator (op : Operator) : Argument [op.symbol.token] := by
  apply argument_singleton <;> cases op <;> simp [Operator.symbol]

/-- A written expression is never cut in the middle. -/
theorem Expr.Written.argument {e : Expr} (h : e.Written) : Argument e.flat := by
  induction h with
  | number h => exact argument_of_kind (by simp [Token.kind_eq_number_iff.mpr h])
  | text content =>
    exact argument_of_kind (by simp [Token.kind_eq_quoted_iff.mpr rfl])
  | name h => exact argument_of_kind (by simp [Token.isName_iff.mp h])
  | @call callee arguments h ha ih =>
    have hb : Bracket.paren.Balanced (joinCommas (flatAll arguments)) := by
      apply balanced_joinCommas
      intro piece hp
      rw [flatAll_eq_map] at hp
      obtain ⟨a, hm, rfl⟩ := List.mem_map.mp hp
      exact (ih a hm).balanced
    exact (argument_of_kind (by simp [Token.isName_iff.mp h])).append hb.argument
  | binary op hl hb hr ihl ihr => exact ihl.append ((argument_operator op).append ihr)

theorem parseValue_eq_ok {t : Token} {e : Expr} (h : parseValue t = .ok e) :
    e.Written ∧ e.isBinary = false ∧ e.flat = [t] := by
  obtain ⟨text⟩ := t
  unfold parseValue at h
  split at h
  · rename_i content hk
    cases h
    have ht : text = "\"" ++ content ++ "\"" := Token.kind_eq_quoted_iff.mp hk
    exact ⟨.text content, rfl, by rw [Expr.flat, ht]⟩
  · rename_i hk
    cases h
    exact ⟨.number (Token.kind_eq_number_iff.mp hk), rfl, rfl⟩
  · rename_i hk
    cases h
    exact ⟨.name (Token.isName_iff.mpr hk), rfl, rfl⟩
  · cases h

@[simp]
theorem behind?_token (s s' : Symbol) (ts : List Token) :
    behind? s' (s.token :: ts) = if s = s' then some ts else none := by
  simp [behind?]

theorem eq_cons_of_behind? {s : Symbol} {ts rest : List Token} (h : behind? s ts = some rest) :
    ts = s.token :: rest := by
  cases ts with
  | nil => cases h
  | cons t ts =>
    rw [behind?] at h
    split at h
    · rename_i hs
      cases h
      rw [Token.eq_token hs]
    · cases h

/-- The first operand is a value, or a call up to the parenthesis that closes it. -/
theorem splitOperand_cases {ts rest : List Token} {operand : Operand}
    (h : splitOperand ts = .ok (operand, rest)) :
    (∃ t e, parseValue t = .ok e ∧ operand = .value e ∧ ts = t :: rest) ∨
    (∃ callee inside, Token.isName ⟨callee⟩ = true ∧
      operand = .call callee (splitArguments inside) ∧
      ts = ⟨callee⟩ :: Symbol.openParen.token :: (inside ++ Symbol.closeParen.token :: rest)) := by
  cases ts with
  | nil => cases h
  | cons t ts =>
    rw [splitOperand] at h
    split at h
    · obtain ⟨e, he, h⟩ := except_bind_eq_ok h
      cases h
      exact .inl ⟨t, e, he, rfl, rfl⟩
    · rename_i inner hi
      split at hi
      · rename_i hn
        split at h
        · cases h
        · rename_i inside after hs
          cases h
          obtain ⟨_, rfl⟩ := (Bracket.split?_eq_some_iff Bracket.paren_distinct).mp hs
          exact .inr ⟨t.text, inside, hn, rfl, by rw [eq_cons_of_behind? hi]; rfl⟩
      · cases hi

theorem splitOperand_value {t : Token} {e : Expr} {rest : List Token}
    (h : parseValue t = .ok e) (hr : t.isName = true → behind? .openParen rest = none) :
    splitOperand (t :: rest) = .ok (.value e, rest) := by
  have hi : (if t.isName then behind? .openParen rest else none) = none := by
    split
    · exact hr ‹_›
    · rfl
  rw [splitOperand, hi, h]
  rfl

theorem splitOperand_call {callee : String} {inside : List Token}
    (h : Token.isName ⟨callee⟩ = true) (hb : Bracket.paren.Balanced inside) (rest : List Token) :
    splitOperand
        (⟨callee⟩ :: Symbol.openParen.token :: (inside ++ Symbol.closeParen.token :: rest)) =
      .ok (.call callee (splitArguments inside), rest) := by
  have hs : Bracket.paren.split? 0 (inside ++ Symbol.closeParen.token :: rest) =
      some (inside, rest) := (Bracket.split?_eq_some_iff Bracket.paren_distinct).mpr ⟨hb, rfl⟩
  rw [splitOperand, if_pos h, behind?_token]
  simp only [↓reduceIte, hs]

/-- If the arguments of a call are read as they are written, so is the first operand. -/
theorem operand_of_parseExpr {ts : List Token} {e : Expr} (h : parseExpr ts = .ok e)
    (ih : ∀ piece a, piece.length < ts.length → parseExpr piece = .ok a →
      a.Written ∧ a.flat = piece) :
    ∃ left rest, left.Written ∧ left.isBinary = false ∧ ts = left.flat ++ rest ∧
      parseBehind left rest = .ok e := by
  rw [parseExpr_eq] at h
  obtain ⟨⟨operand, rest⟩, ho, h⟩ := except_bind_eq_ok h
  obtain ⟨arguments, ha, hb⟩ := except_bind_eq_ok h
  obtain ⟨hw, hf⟩ := map_of_mapM ha fun piece hp a => ih piece a (length_piece ho hp)
  rcases splitOperand_cases ho with ⟨t, v, hv, rfl, rfl⟩ | ⟨callee, inside, hn, rfl, rfl⟩
  · obtain ⟨hv, hvb, hvf⟩ := parseValue_eq_ok hv
    exact ⟨v, rest, hv, hvb, by rw [hvf]; rfl, hb⟩
  · refine ⟨.call callee arguments, rest, .call hn hw, rfl, ?_, hb⟩
    have hj : joinCommas (Expr.flatAll arguments) = inside := by
      rw [Expr.flatAll_eq_map, hf]
      exact joinCommas_splitArguments inside
    simp [Expr.flat, hj]

/-- An expression that was read is written as the tokens it was read from. -/
theorem written_of_parseExpr {ts : List Token} {e : Expr} (h : parseExpr ts = .ok e) :
    e.Written ∧ e.flat = ts := by
  -- the pieces of a call and what follows an operator are shorter than the whole
  induction hn : ts.length using Nat.strongRecOn generalizing ts e with
  | _ n ih =>
    subst hn
    obtain ⟨left, rest, hl, hb, rfl, hp⟩ :=
      operand_of_parseExpr h fun piece a hlt hpa => ih _ hlt hpa rfl
    cases rest with
    | nil =>
      cases hp
      exact ⟨hl, by simp⟩
    | cons t right =>
      rw [parseBehind] at hp
      split at hp
      · cases hp
      · rename_i op hop
        obtain ⟨r, hr, hp⟩ := except_bind_eq_ok hp
        cases hp
        obtain ⟨hw, rfl⟩ := ih right.length (by simp; omega) hr rfl
        have ht : t = op.symbol.token := by
          obtain ⟨text⟩ := t
          exact congrArg Token.mk (Operator.ofToken?_eq_some_iff.mp hop)
        exact ⟨.binary op hl hb hw, by rw [Expr.flat, ht]⟩

/-- A value is told apart from what follows it, unless it is a name and a parenthesis follows. -/
theorem parseExpr_value {t : Token} {e : Expr} (h : parseValue t = .ok e) {rest : List Token}
    (hr : behind? .openParen rest = none) : parseExpr (t :: rest) = parseBehind e rest := by
  rw [parseExpr_eq, splitOperand_value h fun _ => hr]
  rfl

/-- The pieces of a call are found again, and it is told apart from whatever follows it. -/
theorem splitOperand_pieces {callee : String} {pieces : List (List Token)}
    (h : Token.isName ⟨callee⟩ = true) (ha : ∀ piece ∈ pieces, Argument piece)
    (hne : ∀ piece ∈ pieces, piece ≠ []) (rest : List Token) :
    splitOperand (⟨callee⟩ :: Symbol.openParen.token ::
        (joinCommas pieces ++ Symbol.closeParen.token :: rest)) =
      .ok (.call callee pieces, rest) := by
  have hb : Bracket.paren.Balanced (joinCommas pieces) :=
    balanced_joinCommas fun piece hp => (ha piece hp).balanced
  rw [splitOperand_call h hb, splitArguments_joinCommas ha hne]

/-- The arguments of a call are read before what follows it. -/
theorem parseExpr_pieces {callee : String} {pieces : List (List Token)}
    (h : Token.isName ⟨callee⟩ = true) (ha : ∀ piece ∈ pieces, Argument piece)
    (hne : ∀ piece ∈ pieces, piece ≠ []) (rest : List Token) :
    parseExpr (⟨callee⟩ :: Symbol.openParen.token ::
        (joinCommas pieces ++ Symbol.closeParen.token :: rest)) =
      (pieces.mapM parseExpr).bind fun arguments =>
        parseBehind (.call callee arguments) rest := by
  rw [parseExpr_eq, splitOperand_pieces h ha hne]
  rfl

theorem parseExpr_call {callee : String} {arguments : List Expr}
    (h : Token.isName ⟨callee⟩ = true) (hw : ∀ a ∈ arguments, a.Written)
    (ha : ∀ a ∈ arguments, parseExpr a.flat = .ok a) (rest : List Token) :
    parseExpr ((Expr.call callee arguments).flat ++ rest) =
      parseBehind (.call callee arguments) rest := by
  have hpieces : ∀ piece ∈ arguments.map Expr.flat, Argument piece ∧ piece ≠ [] := by
    intro piece hp
    obtain ⟨a, hm, rfl⟩ := List.mem_map.mp hp
    exact ⟨(hw a hm).argument, (hw a hm).flat_ne_nil⟩
  have hf : (Expr.call callee arguments).flat ++ rest =
      ⟨callee⟩ :: Symbol.openParen.token ::
        (joinCommas (arguments.map Expr.flat) ++ Symbol.closeParen.token :: rest) := by
    simp [Expr.flat, Expr.flatAll_eq_map]
  rw [hf, parseExpr_pieces h (fun piece hp => (hpieces piece hp).1)
    (fun piece hp => (hpieces piece hp).2), mapM_map ha]
  rfl

/-- What follows the expression does not change how it is read, unless a parenthesis follows. -/
def Expr.Detaches (e : Expr) : Prop :=
  ∀ rest, behind? .openParen rest = none → parseExpr (e.flat ++ rest) = parseBehind e rest

theorem Expr.Detaches.parseExpr {e : Expr} (h : e.Detaches) : parseExpr e.flat = .ok e := by
  have hn := h [] rfl
  rwa [List.append_nil] at hn

/-- A written expression is read back, and an operand also where an operator follows it. -/
theorem parseExpr_flat_and {e : Expr} (h : e.Written) :
    parseExpr e.flat = .ok e ∧ (e.isBinary = false → e.Detaches) := by
  have operand : ∀ {e : Expr}, e.Detaches →
      parseExpr e.flat = .ok e ∧ (e.isBinary = false → e.Detaches) :=
    fun he => ⟨he.parseExpr, fun _ => he⟩
  induction h with
  | @number raw h =>
    have hv : parseValue ⟨raw⟩ = .ok (.number raw) := by
      rw [parseValue, Token.kind_eq_number_iff.mpr h]
    exact operand fun rest hr => parseExpr_value hv hr
  | text content =>
    have hv : parseValue ⟨"\"" ++ content ++ "\""⟩ = .ok (.text content) := by
      rw [parseValue, Token.kind_eq_quoted_iff.mpr rfl]
    exact operand fun rest hr => parseExpr_value hv hr
  | @name name h =>
    have hv : parseValue ⟨name⟩ = .ok (.variable name) := by
      rw [parseValue, Token.isName_iff.mp h]
    exact operand fun rest hr => parseExpr_value hv hr
  | call h ha ih =>
    exact operand fun rest _ => parseExpr_call h ha (fun a hm => (ih a hm).1) rest
  | @binary left right op hl hb hr ihl ihr =>
    have hop : Operator.ofToken? op.symbol.token = some op :=
      Operator.ofToken?_eq_some_iff.mpr rfl
    have hn : behind? .openParen (op.symbol.token :: right.flat) = none := by
      cases op <;> simp [Operator.symbol]
    refine ⟨?_, by simp [Expr.isBinary]⟩
    rw [Expr.flat, ihl.2 hb _ hn, parseBehind, hop]
    simp only [ihr.1]
    rfl

theorem parseExpr_flat {e : Expr} (h : e.Written) : parseExpr e.flat = .ok e :=
  (parseExpr_flat_and h).1

/-- Reading an expression is the inverse of writing it. So tokens are determined by the
expression read from them, and an operator takes all that follows it as its right side,
whatever operators come there. -/
theorem parseExpr_eq_ok_iff :
    (∀ (ts : List Token) (e : Expr), parseExpr ts = .ok e ↔ e.Written ∧ e.flat = ts) ∧
    (∀ (ts ts' : List Token) (e : Expr), parseExpr ts = .ok e → parseExpr ts' = .ok e →
      ts = ts') ∧
    (∀ (op : Operator) (left right : Expr), left.Written → left.isBinary = false →
      right.Written →
      parseExpr (left.flat ++ op.symbol.token :: right.flat) = .ok (.binary op left right)) := by
  refine ⟨fun ts e => ⟨written_of_parseExpr, ?_⟩, ?_, ?_⟩
  · rintro ⟨hw, rfl⟩
    exact parseExpr_flat hw
  · intro ts ts' e h h'
    exact (written_of_parseExpr h).2.symm.trans (written_of_parseExpr h').2
  · intro op left right hl hb hr
    exact parseExpr_flat (.binary op hl hb hr)

end TinyScript
