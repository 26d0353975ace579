import TinyScript.Proofs.Chains
import TinyScript.Proofs.Numerals

/-!
Sums of numbers and texts. As `+` nests to the right, the numbers behind the last text are added
before any text is met, and from that text on everything is joined. So it is the place of the last
text that decides which numbers are added.
-/

namespace TinyScript

/-- A text with any content, or a numeral that is not too large. -/
inductive Literal where
  | text (content : String)
  | number (d : Numeral) (h : d.tooLarge = false)

namespace Literal

def isText : Literal → Bool
  | text _ => true
  | number _ _ => false

def token : Literal → Token
  | text content => ⟨"\"" ++ content ++ "\""⟩
  | number d _ => ⟨d.text⟩

def expr : Literal → Expr
  | text content => .text content
  | number d _ => .number d.text

/-- What the literal is written as in a text that it is joined to: a numeral loses the zeros that
lead it. -/
def display : Literal → String
  | text content => content
  | number d _ => String.ofList (Decimal.significant d.text.toList)

def value : Literal → Value
  | text content => .text content
  | number d _ => .number d.value

/-- The sum of the numbers among the literals. -/
def total : List Literal → Nat
  | [] => 0
  | text _ :: ls => total ls
  | number d _ :: ls => d.value + total ls

/-- The literals with a plus sign between any two. -/
def sumTokens (first : Literal) : List Literal → List Token
  | [] => [first.token]
  | second :: ls => first.token :: Operator.add.symbol.token :: sumTokens second ls

/-- The sum of the literals, nested to the right. -/
def sumExpr (first : Literal) : List Literal → Expr
  | [] => first.expr
  | second :: ls => .binary .add first.expr (sumExpr second ls)

/-- At position `k` is a text, and behind it are only numbers. -/
structure LastText (ls : List Literal) (k : Nat) : Prop where
  text : ∃ content, ls[k]? = some (.text content)
  numbers : ∀ l ∈ ls.drop (k + 1), l.isText = false

/-- The literals up to position `k` as they are shown, and behind them the sum of the others, if
there are others. -/
def joined (ls : List Literal) (k : Nat) : String :=
  String.join ((ls.take (k + 1)).map display) ++
    if k + 1 < ls.length then Decimal.ofNat (total (ls.drop (k + 1))) else ""

/-- What the sum is worth, as it is built up from the right. -/
def sum (first : Literal) : List Literal → Except EvalError Value
  | [] => .ok first.value
  | second :: ls => (sum second ls).bind (Operator.add.onValues first.value)

theorem flat_sumExpr (first : Literal) (ls : List Literal) :
    (sumExpr first ls).flat = sumTokens first ls := by
  induction ls generalizing first with
  | nil => cases first <;> rfl
  | cons second ls ih => cases first <;> simp [sumExpr, sumTokens, Expr.flat, expr, token, ih]

theorem written_expr (l : Literal) : l.expr.Written := by
  cases l with
  | text content => exact .text content
  | number d h => exact .number d.digits

theorem written_sumExpr (first : Literal) (ls : List Literal) : (sumExpr first ls).Written := by
  induction ls generalizing first with
  | nil => exact first.written_expr
  | cons second ls ih =>
    exact .binary .add first.written_expr (by cases first <;> rfl) (ih second)

/-- What is shown for a literal is what is shown for its value. -/
theorem display_value (l : Literal) : l.value.display = l.display := by
  cases l with
  | text content => rfl
  | number d h =>
    have hd := Decimal.toDigits_ofDigitChars (Decimal.isNumeral_iff.mp d.digits).2
    change String.ofList (Nat.toDigits 10 d.value) = _
    rw [Numeral.value, hd, display]

/-- Whatever stands before a text is joined to it. -/
theorem onValues_text (l : Literal) (content : String) :
    Operator.add.onValues l.value (.text content) = .ok (.text (l.display ++ content)) := by
  rw [← l.display_value]
  cases l <;> rfl

/-- The sum of two numbers that are not negative can only be too large. -/
theorem onNumbers_add (m n : Nat) :
    Operator.add.onNumbers m n =
      if 9223372036854775807 < m + n then .error (.overflow .add) else .ok ((m + n : Nat) : Int) := by
  have hfits : fits ((m : Int) + n) = true ↔ ¬ 9223372036854775807 < m + n := by
    rw [fits_iff]
    omega
  simp only [Operator.onNumbers, reduceCtorEq, false_and, ↓reduceIte, Operator.exact, hfits,
    ite_not, Int.natCast_add]

/-- Numbers alone are added. None of them is negative, so the sum is too large as soon as a part of
it is. -/
theorem sum_of_numbers {first : Literal} {ls : List Literal}
    (h : ∀ l ∈ first :: ls, l.isText = false) :
    sum first ls = if 9223372036854775807 < total (first :: ls) then .error (.overflow .add)
      else .ok (.number (total (first :: ls))) := by
  induction ls generalizing first with
  | nil =>
    cases first with
    | text content => exact absurd (h (.text content) (by simp)) (by simp [isText])
    | number d hd =>
      have hle : ¬ 9223372036854775807 < d.value := by simpa [Numeral.tooLarge] using hd
      simp [sum, total, value, hle]
  | cons second ls ih =>
    obtain ⟨hfirst, hrest⟩ := List.forall_mem_cons.mp h
    cases first with
    | text content => cases hfirst
    | number d hd =>
      rw [sum, ih hrest, total]
      by_cases hbig : 9223372036854775807 < total (second :: ls)
      · rw [if_pos hbig, if_pos (by omega)]
        rfl
      · rw [if_neg hbig]
        change (Operator.add.onNumbers d.value (total (second :: ls))).map Value.number = _
        rw [onNumbers_add]
        split <;> rfl

/-- One more literal in front moves the last text on. -/
theorem LastText.tail {first : Literal} {rest : List Literal} {k : Nat}
    (h : LastText (first :: rest) (k + 1)) : LastText rest k :=
  ⟨by simpa using h.text, by simpa using h.numbers⟩

theorem joined_cons (first : Literal) (rest : List Literal) (k : Nat) :
    joined (first :: rest) (k + 1) = first.display ++ joined rest k := by
  simp [joined, String.join_cons, String.append_assoc]

/-- The numbers behind the last text are added, and then everything is joined. -/
theorem sum_of_lastText {first : Literal} {rest : List Literal} {k : Nat}
    (h : LastText (first :: rest) k) :
    sum first rest =
      if 9223372036854775807 < total ((first :: rest).drop (k + 1)) then .error (.overflow .add)
      else .ok (.text (joined (first :: rest) k)) := by
  -- on the position of the text: a literal in front of it is joined after all that follow
  induction k generalizing first rest with
  | zero =>
    obtain ⟨content, hc⟩ := h.text
    cases hc
    cases rest with
    | nil => simp [sum, value, total, joined, display]
    | cons second ls =>
      have hj : joined (.text content :: second :: ls) 0 =
          content ++ Decimal.ofNat (total (second :: ls)) := by
        simp [joined, display]
      rw [sum, sum_of_numbers h.numbers, List.drop_one, List.tail_cons, hj]
      split <;> rfl
  | succ k ih =>
    cases rest with
    | nil =>
      obtain ⟨content, hc⟩ := h.text
      cases hc
    | cons second ls =>
      rw [List.drop_succ_cons, joined_cons, sum, ih h.tail]
      split
      · rfl
      · exact first.onValues_text _

theorem exists_lastText {ls : List Literal} (h : ∃ content, .text content ∈ ls) :
    ∃ k, LastText ls k := by
  induction ls with
  | nil =>
    obtain ⟨content, hc⟩ := h
    cases hc
  | cons first rest ih =>
    by_cases hr : ∃ content, .text content ∈ rest
    · obtain ⟨k, hk⟩ := ih hr
      exact ⟨k + 1, by simpa using hk.text, by simpa using hk.numbers⟩
    · obtain ⟨content, hc⟩ := h
      rcases List.mem_cons.mp hc with hc | hc
      · refine ⟨0, ⟨content, by rw [hc]; rfl⟩, ?_⟩
        intro l hl
        cases l with
        | text other => exact absurd ⟨other, hl⟩ hr
        | number d hd => rfl
      · exact absurd ⟨content, hc⟩ hr

variable (host : Host) (call : Caller)

theorem on_evalExpr_expr (l : Literal) (m : Machine) :
    (evalExpr host call l.expr).on m = some (.ok l.value, m) := by
  cases l with
  | text content =>
    rw [expr, evalExpr]
    rfl
  | number d h =>
    rw [expr, on_evalExpr_numeral, h]
    rfl

theorem on_evalExpr_sumExpr (first : Literal) (ls : List Literal) (m : Machine) :
    (evalExpr host call (sumExpr first ls)).on m = some (sum first ls, m) := by
  induction ls generalizing first with
  | nil => exact on_evalExpr_expr host call first m
  | cons second ls ih =>
    rw [sumExpr, evalExpr, Eval.on_bind, on_evalExpr_expr]
    simp only [Eval.on_bind, ih, sum]
    cases sum second ls with
    | error e => rfl
    | ok v =>
      simp only [Except.bind]
      cases Operator.add.onValues first.value v <;> rfl

end Literal

/-- A sum of literals with a text among them is read as nested to the right, and evaluating it does
nothing to the machine. It fails if the numbers behind the last text add up to more than 64 bits
hold. Otherwise it gives the text of all literals up to the last text, and behind it the sum of the
numbers that follow, if any do. -/
theorem evalExpr_sum_with_text (host : Host) (call : Caller) (m : Machine) (first : Literal)
    (rest : List Literal) (h : ∃ content, .text content ∈ first :: rest) :
    parseExpr (Literal.sumTokens first rest) = .ok (Literal.sumExpr first rest) ∧
      (∃ k, Literal.LastText (first :: rest) k) ∧
      ∀ k, Literal.LastText (first :: rest) k →
        (evalExpr host call (Literal.sumExpr first rest)).on m =
          some (if 9223372036854775807 < Literal.total ((first :: rest).drop (k + 1)) then
              .error (.overflow .add)
            else .ok (.text (Literal.joined (first :: rest) k)), m) := by
  refine ⟨?_, Literal.exists_lastText h, ?_⟩
  · rw [← Literal.flat_sumExpr]
    exact parseExpr_flat (Literal.written_sumExpr first rest)
  · intro k hk
    rw [Literal.on_evalExpr_sumExpr, Literal.sum_of_lastText hk]

/-- The numbers before the text are joined, without the zeros that lead them, and those behind it
are added. -/
theorem evalExpr_sum_with_text_between :
    ∃ e, parseExpr [⟨"1"⟩, ⟨"+"⟩, ⟨"02"⟩, ⟨"+"⟩, ⟨"\"a\""⟩, ⟨"+"⟩, ⟨"3"⟩, ⟨"+"⟩, ⟨"004"⟩] = .ok e ∧
      (evalExpr .standard (callWithin .standard 0) e).on ⟨.empty, .unlimited⟩ =
        some (.ok (.text "12a7"), ⟨.empty, .unlimited⟩) := by
  let first : Literal := .number ⟨"1", rfl⟩ rfl
  let rest : List Literal := [.number ⟨"02", rfl⟩ rfl, .text "a", .number ⟨"3", rfl⟩ rfl,
    .number ⟨"004", rfl⟩ rfl]
  have hk : Literal.LastText (first :: rest) 2 := ⟨⟨"a", rfl⟩, by simp [first, rest, Literal.isText]⟩
  have h := evalExpr_sum_with_text .standard (callWithin .standard 0) ⟨.empty, .unlimited⟩ first rest
    ⟨"a", by simp [first, rest]⟩
  have ht : ¬ 9223372036854775807 < Literal.total ((first :: rest).drop 3) := by decide
  have hj : Literal.joined (first :: rest) 2 = "12a7" := by decide
  have he := h.2.2 2 hk
  rw [if_neg ht, hj] at he
  exact ⟨_, h.1, he⟩

end TinyScript
