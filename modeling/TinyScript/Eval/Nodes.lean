import TinyScript.Eval.Machine
import TinyScript.Eval.Arithmetic

/-!
Evaluation of trees, with calls of defined functions left to a caller. So nothing here runs a
body, and every definition follows the tree.
-/

namespace TinyScript

/-- How a sequence of nodes ends: at its end, with what its last node gave, or at a return. -/
inductive Completion where
  | finished (last : Option Value)
  | returned (v : Value)

/-- The result of a program: a return counts like a last node. -/
def Completion.result : Completion → Option Value
  | finished last => last
  | returned v => some v

/-- The result of a call: only a return gives one. -/
def Completion.answer : Completion → Option Value
  | finished _ => none
  | returned v => some v

section

variable (host : Host) (call : Caller)

/-- Looks the callee up, then evaluates the arguments, then calls. -/
def callWith (callee : String) (arguments : Eval (List Value)) : Eval (Option Value) := do
  let f ← Eval.lookup host callee
  let values ← arguments
  Eval.invoke host call callee f values

mutual

/-- The value of an expression. A function is bound to its name where it stands. -/
def evalExpr : Expr → Eval Value
  | .number raw =>
    match numberOf? raw with
    | some n => return .number n
    | none => throw (.numberOutOfRange raw)
  | .text content => return .text content
  | .variable name => Eval.lookup host name
  | .binary op l r => do
    let a ← evalExpr l
    let b ← evalExpr r
    match op.onValues a b with
    | .ok v => return v
    | .error e => throw e
  | .call callee arguments => do
    match ← callWith host call callee (evalAll arguments) with
    | some v => return v
    | none => throw (.noValue callee)
  | .function d => do
    Eval.declare d.name (.function d)
    return .function d

/-- The values of arguments, in order. -/
def evalAll : List Expr → Eval (List Value)
  | [] => return []
  | e :: es => do
    let v ← evalExpr e
    let vs ← evalAll es
    return v :: vs

end

/-- What a single node does. Declarations and functions give no value, and a call that stands
alone need not give one. -/
def evalNode : Node → Eval Completion
  | .declare _ name e => do
    Eval.requireUnbound name
    let v ← evalExpr host call e
    Eval.declare name v
    return .finished none
  | .ret e => return .returned (← evalExpr host call e)
  | .expr (.function d) => do
    Eval.declare d.name (.function d)
    return .finished none
  | .expr (.call callee arguments) =>
    return .finished (← callWith host call callee (evalAll host call arguments))
  | .expr e => return .finished (some (← evalExpr host call e))

/-- Runs nodes in order up to the first return; `last` is what the node before them gave. -/
def evalNodes (last : Option Value) : List Node → Eval Completion
  | [] => return .finished last
  | n :: ns => do
    match ← evalNode host call n with
    | .finished last => evalNodes last ns
    | .returned v => return .returned v

end

end TinyScript
