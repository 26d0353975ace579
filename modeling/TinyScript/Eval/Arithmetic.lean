import TinyScript.Eval.Error

/-!
What the operators do. Numbers are computed exactly and refused where the result takes more than
64 bits; `+` also joins texts.
-/

namespace TinyScript

/-- Numbers are the signed integers of 64 bits. -/
def fits (n : Int) : Bool :=
  -9223372036854775808 ≤ n && n ≤ 9223372036854775807

/-- The number a literal stands for, with or without a sign. -/
def numberOf? (raw : String) : Option Int :=
  (Decimal.integer? raw.toList).filter fits

namespace Operator

/-- The exact result. Division drops the fraction. -/
def exact : Operator → Int → Int → Int
  | add, m, n => m + n
  | subtract, m, n => m - n
  | multiply, m, n => m * n
  | divide, m, n => m.tdiv n

def onNumbers (op : Operator) (m n : Int) : Except EvalError Int :=
  if op = divide ∧ n = 0 then .error .divisionByZero
  else if fits (op.exact m n) then .ok (op.exact m n)
  else .error (.overflow op)

/-- Two numbers are computed with; anything else can only be added, and only if both sides can be
written. -/
def onValues (op : Operator) : Value → Value → Except EvalError Value
  | .number m, .number n => (op.onNumbers m n).map .number
  | a, b =>
    if op = add && a.isWritten && b.isWritten then .ok (.text (a.display ++ b.display))
    else .error (.typeMismatch a.type op b.type)

end Operator

theorem fits_iff {n : Int} :
    fits n = true ↔ -9223372036854775808 ≤ n ∧ n ≤ 9223372036854775807 := by
  simp [fits]

theorem numberOf?_eq_some_iff {raw : String} {n : Int} :
    numberOf? raw = some n ↔ Decimal.integer? raw.toList = some n ∧ fits n = true := by
  simp [numberOf?, Option.filter_eq_some_iff]

/-- A number that fits is read back from what is shown for it. -/
theorem numberOf?_display {n : Int} (h : fits n = true) :
    numberOf? (Value.number n).display = some n :=
  numberOf?_eq_some_iff.mpr ⟨Decimal.integer?_ofInt n, h⟩

theorem fits_of_onNumbers {op : Operator} {m n r : Int} (h : op.onNumbers m n = .ok r) :
    fits r = true := by
  unfold Operator.onNumbers at h
  split at h
  · cases h
  · split at h
    · rename_i hf
      cases h
      exact hf
    · cases h

end TinyScript
