import TinyScript.Value

/-!
Why a program stops before its end.
-/

namespace TinyScript

inductive EvalError where
  | unbound (name : String)
  | alreadyBound (name : String)
  | notCallable (name : String) (type : ValueType)
  | typeMismatch (left : ValueType) (op : Operator) (right : ValueType)
  | wrongArity (name : String) (got want : Nat)
  | divisionByZero
  | overflow (op : Operator)
  | numberOutOfRange (raw : String)
  | noValue (callee : String)
  | outputFailed (reason : String)
  deriving DecidableEq

def EvalError.message : EvalError → String
  | unbound name => "undefined variable: " ++ name
  | alreadyBound name => "variable already declared: " ++ name
  | notCallable name type => "not a function: " ++ name ++ " is " ++ type.label
  | typeMismatch left op right =>
    "type mismatch: " ++ left.label ++ " " ++ op.text ++ " " ++ right.label
  | wrongArity name got want =>
    "wrong number of arguments to " ++ name ++ ". got=" ++ Decimal.ofNat got ++ ", want=" ++
      Decimal.ofNat want
  | divisionByZero => "division by zero"
  | overflow op => "integer overflow in " ++ op.text
  | numberOutOfRange raw => "number literal out of range: " ++ raw
  | noValue callee => callee ++ " does not produce a value"
  | outputFailed reason => "failed to write output: " ++ reason

end TinyScript
