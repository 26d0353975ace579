import TinyScript.Eval.Call
import TinyScript.Parse.Program
import TinyScript.Token.Cursor

/-!
From a source to its effects: the source is read as a whole before any of it runs.
-/

namespace TinyScript

inductive Error where
  | lex (e : LexError)
  | parse (e : ParseError)
  | eval (e : EvalError)
  deriving DecidableEq

def Error.message : Error → String
  | lex e => e.message
  | parse e => e.message
  | eval e => e.message

/-- The program that a source writes. -/
def readProgram (source : String) : Except Error Program := do
  let tokens ← (tokenize source).mapError .lex
  (parse tokens).mapError .parse

/-- Runs a program on a machine. -/
def execute (host : Host) (depth : Nat) (program : Program) (m : Machine) :
    Option (Except Error (Option Value) × Machine) :=
  ((evalProgram host depth program).on m).map fun (result, m) => (result.mapError .eval, m)

/-- Runs a source on a machine. One that cannot be read leaves the machine alone. -/
def run (host : Host) (depth : Nat) (source : String) (m : Machine) :
    Option (Except Error (Option Value) × Machine) :=
  match readProgram source with
  | .error e => some (.error e, m)
  | .ok program => execute host depth program m

/-- What a finished process leaves behind. -/
structure Report where
  output : ByteArray
  errors : String
  exitCode : UInt32

end TinyScript
