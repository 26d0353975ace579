import TinyScript.Tree.Basic

/-!
The written form of a program. Every operation stands in parentheses, a body stands on one line,
and each node of a program ends a line.
-/

namespace TinyScript

def Definition.signature (d : Definition) : String :=
  "func " ++ d.name ++ "(" ++ String.intercalate ", " d.parameters ++ ")"

mutual

def Expr.print : Expr → String
  | .number raw => raw
  | .text content => "\"" ++ content ++ "\""
  | .variable name => name
  | .binary op l r => "(" ++ l.print ++ " " ++ op.text ++ " " ++ r.print ++ ")"
  | .call callee args => callee ++ "(" ++ String.intercalate ", " (Expr.printAll args) ++ ")"
  | .function d => d.print

def Expr.printAll : List Expr → List String
  | [] => []
  | e :: es => e.print :: Expr.printAll es

def Definition.print : Definition → String
  | ⟨name, params, body⟩ =>
    Definition.signature ⟨name, params, body⟩ ++ " \x7b" ++ Node.printBody body ++ " \x7d"

/-- A function that stands alone needs no semicolon behind its body. -/
def Node.print : Node → String
  | .declare form name e => form.text ++ " " ++ name ++ " = " ++ e.print ++ ";"
  | .ret e => "return " ++ e.print ++ ";"
  | .expr (.function d) => d.print
  | .expr e => e.print ++ ";"

def Node.printBody : List Node → String
  | [] => ""
  | n :: ns => " " ++ n.print ++ Node.printBody ns

end

def Program.print : Program → String
  | [] => ""
  | n :: ns => n.print ++ "\n" ++ Program.print ns

theorem Expr.printAll_eq_map (es : List Expr) : Expr.printAll es = es.map Expr.print := by
  induction es with
  | nil => rfl
  | cons e es ih => rw [Expr.printAll, ih, List.map_cons]

end TinyScript
