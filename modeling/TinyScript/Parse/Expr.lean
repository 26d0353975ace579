import TinyScript.Parse.Bracket
import TinyScript.Tree.Basic

/-!
Expressions from tokens. An expression is an operand alone, or an operand, an operator and an
expression: all operators have one priority and nest to the right.
-/

namespace TinyScript

/-- A token where a value is wanted. -/
def parseValue (t : Token) : Except ParseError Expr :=
  match t.kind with
  | .quoted content => .ok (.text content)
  | .number => .ok (.number t.text)
  | .name => .ok (.variable t.text)
  | _ => .error (.unexpectedToken t.text)

/-- What follows the symbol `s`, if the tokens start with it. -/
def behind? (s : Symbol) : List Token → Option (List Token)
  | [] => none
  | t :: ts => if t.is s then some ts else none

/-- The first operand of an expression. The arguments of a call are still tokens. -/
inductive Operand where
  | value (e : Expr)
  | call (callee : String) (arguments : List (List Token))

namespace Operand

/-- What is left to parse of the operand. -/
def pieces : Operand → List (List Token)
  | value _ => []
  | call _ arguments => arguments

/-- The operand as an expression, its pieces parsed. -/
def build : Operand → List Expr → Expr
  | value e, _ => e
  | call callee _, arguments => .call callee arguments

end Operand

/-- Splits off the first operand. A name is called if an opening parenthesis follows it. -/
def splitOperand : List Token → Except ParseError (Operand × List Token)
  | [] => .error (.unexpectedEnd .expression)
  | t :: ts =>
    match if t.isName then behind? .openParen ts else none with
    | none => (parseValue t).map fun e => (.value e, ts)
    | some inner =>
      match Bracket.paren.split? 0 inner with
      | none => .error (.unclosedArguments t.text)
      | some (inside, rest) => .ok (.call t.text (splitArguments inside), rest)

theorem length_behind? {s : Symbol} {ts rest : List Token} (h : behind? s ts = some rest) :
    ts.length = rest.length + 1 := by
  cases ts with
  | nil => cases h
  | cons t ts =>
    rw [behind?] at h
    split at h <;> cases h
    simp

theorem length_splitOperand {ts rest : List Token} {operand : Operand}
    (h : splitOperand ts = .ok (operand, rest)) : rest.length < ts.length := by
  cases ts with
  | nil => cases h
  | cons t ts =>
    rw [splitOperand] at h
    split at h
    · cases hv : parseValue t with
      | error e =>
        rw [hv] at h
        cases h
      | ok e =>
        rw [hv] at h
        cases h
        simp
    · rename_i inner hi
      split at h
      · cases h
      · rename_i inside after hs
        cases h
        have hb : behind? .openParen ts = some inner := by
          split at hi
          · exact hi
          · cases hi
        have := length_behind? hb
        have := Bracket.length_split? hs
        simp only [List.length_cons]
        omega

theorem length_piece {ts rest piece : List Token} {operand : Operand}
    (h : splitOperand ts = .ok (operand, rest)) (hp : piece ∈ operand.pieces) :
    piece.length < ts.length := by
  cases ts with
  | nil => cases h
  | cons t ts =>
    rw [splitOperand] at h
    split at h
    · cases hv : parseValue t with
      | error e =>
        rw [hv] at h
        cases h
      | ok e =>
        rw [hv] at h
        cases h
        cases hp
    · rename_i inner hi
      split at h
      · cases h
      · rename_i inside after hs
        cases h
        have hb : behind? .openParen ts = some inner := by
          split at hi
          · exact hi
          · cases hi
        have := length_behind? hb
        have := Bracket.length_split? hs
        have := length_splitArguments hp
        simp only [List.length_cons]
        omega

/-- Parses all the tokens as one expression. Arguments are parsed before anything behind the
call is looked at. -/
def parseExpr (ts : List Token) : Except ParseError Expr :=
  match _ho : splitOperand ts with
  | .error e => .error e
  | .ok (operand, rest) => do
    let arguments ← operand.pieces.attach.mapM fun ⟨piece, _⟩ => parseExpr piece
    let left := operand.build arguments
    match _hr : rest with
    | [] => return left
    | t :: right =>
      match Operator.ofToken? t with
      | none => throw (.notAnOperator t.text)
      | some op => return .binary op left (← parseExpr right)
termination_by ts.length
decreasing_by
  · exact length_piece _ho ‹_›
  · have := length_splitOperand _ho
    simp only [_hr, List.length_cons] at this
    omega

/-- What stands behind an operand: nothing, or an operator and an expression. -/
def parseBehind (left : Expr) : List Token → Except ParseError Expr
  | [] => return left
  | t :: right =>
    match Operator.ofToken? t with
    | none => throw (.notAnOperator t.text)
    | some op => return .binary op left (← parseExpr right)

theorem parseExpr_eq (ts : List Token) :
    parseExpr ts = (splitOperand ts).bind fun (operand, rest) =>
      (operand.pieces.mapM parseExpr).bind fun arguments =>
        parseBehind (operand.build arguments) rest := by
  rw [parseExpr]
  split
  · rename_i e he
    rw [he]
    rfl
  · rename_i operand rest he
    rw [he]
    simp only [List.mapM_subtype, List.unattach_attach]
    cases rest <;> rfl

end TinyScript
