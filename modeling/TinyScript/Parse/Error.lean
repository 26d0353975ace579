/-!
Why tokens form no program.
-/

namespace TinyScript

/-- What was being read when the tokens ran out. -/
inductive Part where
  | statement
  | expression
  | variableName
  | functionName
  | parameterList
  | parameter
  | functionBody
  deriving DecidableEq

def Part.text : Part → String
  | statement => "statement"
  | expression => "expression"
  | variableName => "variable name"
  | functionName => "function name"
  | parameterList => "parameter list"
  | parameter => "parameter"
  | functionBody => "function body"

inductive ParseError where
  | notAnOperator (token : String)
  /-- A declaration without its equals sign; nothing is found at the end of the tokens. -/
  | missingAssign (found : Option String)
  | unexpectedToken (token : String)
  | unexpectedEnd (part : Part)
  | notAName (token : String)
  | unclosedArguments (callee : String)
  /-- A brace is never closed; the block is told by the first word before it. -/
  | unclosedBlock (opener : String)
  deriving DecidableEq

def ParseError.message : ParseError → String
  | notAnOperator token => "unexpected operator `" ++ token ++ "`"
  | missingAssign found =>
    "expected `=` in declaration, found `" ++ found.getD "end of input" ++ "`"
  | unexpectedToken token => "unexpected token `" ++ token ++ "`"
  | unexpectedEnd part => "unexpected end of input while parsing " ++ part.text
  | notAName token => "`" ++ token ++ "` cannot be used as a name"
  | unclosedArguments callee => "argument list of `" ++ callee ++ "` is never closed"
  | unclosedBlock opener => "block opened after `" ++ opener ++ "` is never closed"

end TinyScript
