import TinyScript.Proofs.Composition

/-!
Chains of numbers, from their text to their value. Numerals are read from the left and operators
are applied from the right, so the two ways in which a chain can fail look at it from opposite
ends.
-/

namespace TinyScript

/-- A text of digits. -/
structure Numeral where
  text : String
  digits : Decimal.isNumeral text.toList = true

namespace Numeral

def value (d : Numeral) : Nat :=
  Nat.ofDigitChars 10 d.text.toList 0

def tooLarge (d : Numeral) : Bool :=
  9223372036854775807 < d.value

/-- The numeral with blanks around it. -/
def Padded (d : Numeral) (text : String) : Prop :=
  ∃ before after : String, Blank before.toList ∧ Blank after.toList ∧
    text = before ++ d.text ++ after

end Numeral

/-- An operator and the numbers it is applied to. -/
structure Operation where
  op : Operator
  left : Int
  right : Int

/-- What an operation fails with. -/
def Operation.fault? (o : Operation) : Option EvalError :=
  if o.op = .divide ∧ o.right = 0 then some .divisionByZero
  else if fits (o.op.exact o.left o.right) then none
  else some (.overflow o.op)

/-- Numerals with an operator between any two. -/
inductive Chain where
  | last (d : Numeral)
  | more (d : Numeral) (op : Operator) (rest : Chain)

namespace Chain

/-- The texts of a chain. Blanks may stand anywhere between tokens, and a semicolon may stand at
the end. -/
inductive Spelled : Chain → String → Prop where
  | last {d : Numeral} {text : String} (h : d.Padded text) : Spelled (.last d) text
  | closed {d : Numeral} {text blanks : String} (h : d.Padded text) (hb : Blank blanks.toList) :
      Spelled (.last d) (text ++ ";" ++ blanks)
  | more {d : Numeral} {text rest : String} {c : Chain} (op : Operator) (h : d.Padded text)
      (hc : Spelled c rest) : Spelled (.more d op c) (text ++ op.text ++ rest)

def numerals : Chain → List Numeral
  | last d => [d]
  | more d _ rest => d :: rest.numerals

def tokens : Chain → List Token
  | last d => [⟨d.text⟩]
  | more d op rest => ⟨d.text⟩ :: op.symbol.token :: rest.tokens

def expr : Chain → Expr
  | last d => .number d.text
  | more d op rest => .binary op (.number d.text) rest.expr

/-- The value from right to left, without regard to any limit. -/
def exact : Chain → Int
  | last d => d.value
  | more d op rest => op.exact d.value rest.exact

/-- The operations from right to left. -/
def operations : Chain → List Operation
  | last _ => []
  | more d op rest => rest.operations ++ [⟨op, d.value, rest.exact⟩]

/-- The first numeral from the left that is too large. -/
def tooLarge? (c : Chain) : Option Numeral :=
  c.numerals.find? Numeral.tooLarge

/-- The fault of the first operation from the right that has one. -/
def fault? (c : Chain) : Option EvalError :=
  c.operations.findSome? Operation.fault?

/-- What the operations come to. -/
def result (c : Chain) : Except EvalError Int :=
  match c.fault? with
  | some e => .error e
  | none => .ok c.exact

end Chain

section Reading

/-- Digits are neither blanks nor symbols. -/
theorem isWordChar_of_isDigit {c : Char} (h : c.isDigit = true) : isWordChar c = true := by
  have hb : isBlank c = false := by
    cases hb : isBlank c with
    | false => rfl
    | true =>
      simp only [isBlank, Bool.or_eq_true, decide_eq_true_eq, or_assoc] at hb
      rcases hb with rfl | rfl | rfl | rfl | rfl <;> cases h
  have hs : Symbol.ofChar? c = none := by
    cases hs : Symbol.ofChar? c with
    | none => rfl
    | some s =>
      rw [Symbol.ofChar?_eq_some_iff.mp hs] at h
      cases s <;> cases h
  simp [isWordChar, isControl, hb, hs]

theorem Numeral.isWord (d : Numeral) : Token.IsWord ⟨d.text⟩ := by
  obtain ⟨hne, hd⟩ := Decimal.isNumeral_iff.mp d.digits
  exact ⟨hne, fun c hc => isWordChar_of_isDigit (hd c hc)⟩

theorem Numeral.padded_text (d : Numeral) : d.Padded d.text :=
  ⟨"", "", by simp [Blank], by simp [Blank], by simp⟩

theorem Numeral.Padded.tokenize {d : Numeral} {text : String} (h : d.Padded text) :
    tokenize text = .ok [⟨d.text⟩] := by
  obtain ⟨before, after, hb, ha, rfl⟩ := h
  have hv : (Segmentation.item before.toList ⟨d.text⟩ (.last after.toList)).Valid :=
    ⟨hb, .word d.isWord, by simp [Segmentation.tokens], ha⟩
  exact hv.tokenize (by simp [Segmentation.text])

theorem tokenize_operator (op : Operator) : tokenize op.text = .ok [op.symbol.token] :=
  tokenize_symbol (by cases op <;> simp [Operator.symbol])

theorem tokenize_blank {text : String} (h : Blank text.toList) : tokenize text = .ok [] :=
  Segmentation.Valid.tokenize (s := .last text.toList) h rfl

/-- The tokens of a chain do not depend on the blanks between them. -/
theorem Chain.Spelled.tokenize {c : Chain} {source : String} (h : c.Spelled source) :
    ∃ ending, (ending = [] ∨ ending = [Symbol.semicolon.token]) ∧
      tokenize source = .ok (c.tokens ++ ending) := by
  induction h with
  | last h => exact ⟨[], .inl rfl, h.tokenize⟩
  | closed h hb =>
    refine ⟨_, .inr rfl, ?_⟩
    have ht := tokenize_before_symbol h.tokenize (tokenize_symbol (s := .semicolon) (by simp))
    exact tokenize_behind_symbol ht (tokenize_blank hb)
  | more op h hc ih =>
    obtain ⟨ending, he, ht⟩ := ih
    have hop := tokenize_before_symbol h.tokenize (tokenize_operator op)
    exact ⟨ending, he, tokenize_behind_symbol hop ht⟩

theorem Chain.flat_expr (c : Chain) : c.expr.flat = c.tokens := by
  induction c with
  | last d => rfl
  | more d op rest ih => simp [expr, tokens, Expr.flat, ih]

theorem Chain.written_expr (c : Chain) : c.expr.Written := by
  induction c with
  | last d => exact .number d.digits
  | more d op rest ih => exact .binary op (.number d.digits) rfl ih

/-- A chain nests to the right, whatever its operators are. -/
theorem Chain.Spelled.readProgram {c : Chain} {source : String} (h : c.Spelled source) :
    readProgram source = .ok [.expr c.expr] := by
  obtain ⟨ending, he, ht⟩ := h.tokenize
  have hu : SimpleUnit c.tokens (.expr c.expr) := by
    rw [← c.flat_expr]
    exact .expr (parseExpr_flat c.written_expr)
  rcases he with rfl | rfl
  · rw [List.append_nil] at ht
    exact readProgram_eq_ok ht (Derives.last hu).parse
  · exact readProgram_eq_ok ht (Derives.unit hu .nil).parse

end Reading

section Evaluation

theorem Numeral.fits_value (d : Numeral) : fits d.value = !d.tooLarge := by
  rw [Bool.eq_iff_iff, fits_iff]
  simp only [Numeral.tooLarge, Bool.not_eq_true', decide_eq_false_iff_not]
  omega

/-- Only the upper limit matters to a numeral, as it has no sign. -/
theorem Numeral.numberOf?_text (d : Numeral) :
    numberOf? d.text = if d.tooLarge then none else some (d.value : Int) := by
  have hi : Decimal.integer? d.text.toList = some (d.value : Int) := by
    rw [Decimal.integer?_of_isNumeral d.digits, Decimal.natural?, if_pos d.digits]
    rfl
  rw [numberOf?, hi, Option.filter_some, d.fits_value]
  cases d.tooLarge <;> rfl

theorem Operator.onNumbers_eq (op : Operator) (m n : Int) :
    op.onNumbers m n = match Operation.fault? ⟨op, m, n⟩ with
      | some e => .error e
      | none => .ok (op.exact m n) := by
  unfold Operator.onNumbers Operation.fault?
  dsimp only
  split
  · rfl
  · split <;> rfl

/-- The leftmost operation is the last to be carried out. -/
theorem Chain.result_more (d : Numeral) (op : Operator) (rest : Chain) :
    (Chain.more d op rest).result = rest.result.bind (op.onNumbers d.value) := by
  have hf : (Chain.more d op rest).fault? =
      rest.fault?.or (Operation.fault? ⟨op, d.value, rest.exact⟩) := by
    simp [fault?, operations, List.findSome?_append]
  unfold result
  rw [hf]
  cases rest.fault? with
  | some e => rfl
  | none =>
    simp only [Option.none_or, Except.bind, Operator.onNumbers_eq]
    rfl

/-- What a chain gives: the numerals are looked at first, then the operations. -/
def Chain.outcome (c : Chain) : Except EvalError Value :=
  match c.tooLarge? with
  | some d => .error (.numberOutOfRange d.text)
  | none => c.result.map .number

theorem Chain.outcome_more (d : Numeral) (op : Operator) (rest : Chain) :
    (Chain.more d op rest).outcome =
      if d.tooLarge then .error (.numberOutOfRange d.text)
      else rest.outcome.bind (op.onValues (.number d.value)) := by
  have hl : (Chain.more d op rest).tooLarge? =
      if d.tooLarge then some d else rest.tooLarge? := by
    rw [tooLarge?, numerals, List.find?_cons]
    cases d.tooLarge <;> rfl
  unfold outcome
  rw [hl]
  cases d.tooLarge with
  | true => rfl
  | false =>
    simp only [Bool.false_eq_true, ↓reduceIte, result_more]
    cases rest.tooLarge? with
    | some d' => rfl
    | none => cases rest.result <;> rfl

variable (host : Host)

theorem on_evalExpr_numeral (call : Caller) (d : Numeral) (m : Machine) :
    (evalExpr host call (.number d.text)).on m =
      some (if d.tooLarge then .error (.numberOutOfRange d.text) else .ok (.number d.value),
        m) := by
  rw [evalExpr, d.numberOf?_text]
  cases d.tooLarge <;> rfl

/-- The left side of an operation is read before the right side is evaluated, so the numerals of a
chain are read from the left and its operators are applied on the way back. -/
theorem on_evalExpr_chain (call : Caller) (c : Chain) (m : Machine) :
    (evalExpr host call c.expr).on m = some (c.outcome, m) := by
  induction c with
  | last d =>
    rw [Chain.expr, on_evalExpr_numeral, Chain.outcome, Chain.tooLarge?, Chain.numerals,
      List.find?_singleton]
    cases d.tooLarge <;> rfl
  | more d op rest ih =>
    rw [Chain.expr, evalExpr, Eval.on_bind, on_evalExpr_numeral, Chain.outcome_more]
    cases d.tooLarge with
    | true => rfl
    | false =>
      simp only [Bool.false_eq_true, ↓reduceIte, Eval.on_bind, ih]
      cases rest.outcome with
      | error e => rfl
      | ok v =>
        simp only [Except.bind]
        cases op.onValues (.number d.value) v <;> rfl

theorem execute_chain (depth : Nat) (c : Chain) (m : Machine) :
    execute host depth [.expr c.expr] m = some ((c.outcome.map some).mapError .eval, m) := by
  have hn : (evalNode host (callWithin host depth) (.expr c.expr)).on m =
      some (c.outcome.map (.finished ∘ some), m) := by
    rw [evalNode.eq_5 _ _ _ (by cases c <;> simp [Chain.expr]) (by cases c <;> simp [Chain.expr]),
      Eval.on_bind, on_evalExpr_chain]
    cases c.outcome <;> rfl
  rw [execute, evalProgram, evalNodes, Eval.on_bind, Eval.on_bind, hn]
  cases c.outcome <;> rfl

end Evaluation

/-- A chain of numerals runs within every depth of calls and does nothing to the machine. It fails
with the leftmost numeral that is too large, if there is one, and otherwise with the rightmost
operation that divides by zero or whose exact result does not fit; if nothing fails, its value is
the exact one. -/
theorem run_chain (host : Host) {c : Chain} {source : String} (h : c.Spelled source)
    (m : Machine) :
    ∃ r, (∀ depth, run host depth source m = some (r, m)) ∧
      (∀ d, c.tooLarge? = some d → r = .error (.eval (.numberOutOfRange d.text))) ∧
      (c.tooLarge? = none →
        (∀ e, c.fault? = some e → r = .error (.eval e)) ∧
        (c.fault? = none → r = .ok (some (.number c.exact)))) := by
  refine ⟨(c.outcome.map some).mapError .eval, ?_, ?_, ?_⟩
  · intro depth
    rw [run_of_readProgram h.readProgram, execute_chain]
  · intro d hd
    rw [Chain.outcome, hd]
    rfl
  · intro hd
    rw [Chain.outcome, hd, Chain.result]
    constructor
    · intro e he
      rw [he]
      rfl
    · intro hf
      rw [hf]
      rfl

/-- An operator takes all that follows it as its right side: the product comes first, and the next
step goes below zero. A numeral that is too large comes before a division by zero. -/
theorem run_chain_right_to_left :
    run .standard 0 "1-2 - 3\t*4 ;\n" ⟨.empty, .unlimited⟩ =
        some (.ok (some (.number 11)), ⟨.empty, .unlimited⟩) ∧
      run .standard 0 "9223372036854775808*1/0" ⟨.empty, .unlimited⟩ =
        some (.error (.eval (.numberOutOfRange "9223372036854775808")), ⟨.empty, .unlimited⟩) := by
  let c : Chain := .more ⟨"1", rfl⟩ .subtract (.more ⟨"2", rfl⟩ .subtract
    (.more ⟨"3", rfl⟩ .multiply (.last ⟨"4", rfl⟩)))
  have hc : c.Spelled ("1" ++ "-" ++ ("2 " ++ "-" ++ (" 3\t" ++ "*" ++ ("4 " ++ ";" ++ "\n")))) :=
    .more .subtract (Numeral.padded_text _)
      (.more .subtract ⟨"", " ", by simp [Blank], by simp [Blank, isBlank], rfl⟩
        (.more .multiply ⟨" ", "\t", by simp [Blank, isBlank], by simp [Blank, isBlank], rfl⟩
          (.closed ⟨"", " ", by simp [Blank], by simp [Blank, isBlank], rfl⟩
            (by simp [Blank, isBlank]))))
  let c' : Chain := .more ⟨"9223372036854775808", rfl⟩ .multiply
    (.more ⟨"1", rfl⟩ .divide (.last ⟨"0", rfl⟩))
  have hc' : c'.Spelled ("9223372036854775808" ++ "*" ++ ("1" ++ "/" ++ "0")) :=
    .more .multiply (Numeral.padded_text _)
      (.more .divide (Numeral.padded_text _) (.last (Numeral.padded_text _)))
  obtain ⟨r, hr, _, hv⟩ := run_chain .standard hc ⟨.empty, .unlimited⟩
  obtain ⟨r', hr', hl, _⟩ := run_chain .standard hc' ⟨.empty, .unlimited⟩
  have h11 : r = .ok (some (.number 11)) := (hv rfl).2 rfl
  have hbig : r' = .error (.eval (.numberOutOfRange "9223372036854775808")) := hl _ rfl
  constructor
  · rw [← h11]
    exact hr 0
  · rw [← hbig]
    exact hr' 0

end TinyScript
