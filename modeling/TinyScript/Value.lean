import TinyScript.Tree.Print

/-!
Values and how they are shown. A function is its definition and nothing more; a builtin is its name,
by which it is shown, compared and known to the host. So two builtins of one name are the same.
-/

namespace TinyScript

inductive Value where
  | number (n : Int)
  | text (content : String)
  | function (definition : Definition)
  | builtin (name : String)
  deriving DecidableEq

inductive ValueType where
  | number
  | text
  | function
  | builtin
  deriving DecidableEq

def ValueType.label : ValueType → String
  | number => "NUMBER"
  | text => "TEXT"
  | function => "FUNCTION"
  | builtin => "BUILTIN"

namespace Value

def type : Value → ValueType
  | number _ => .number
  | text _ => .text
  | function _ => .function
  | builtin _ => .builtin

def display : Value → String
  | number n => Decimal.ofInt n
  | text content => content
  | function d => d.signature
  | builtin name => "builtin " ++ name

/-- Numbers and texts can be joined into a longer text. -/
def isWritten : Value → Bool
  | number _ | text _ => true
  | function _ | builtin _ => false

end Value

end TinyScript
