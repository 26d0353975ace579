import TinyScript.Token.Basic

/-!
Programs as trees. A program is a sequence of nodes; a function carries the sequence that is its
body. Trees can hold more than a source can say: any text for a number or a name, and a function
wherever a value may stand.
-/

namespace TinyScript

inductive Operator where
  | add
  | subtract
  | multiply
  | divide
  deriving DecidableEq

namespace Operator

def symbol : Operator → Symbol
  | add => .plus
  | subtract => .minus
  | multiply => .star
  | divide => .slash

def text (op : Operator) : String :=
  op.symbol.text

def all : List Operator :=
  [add, subtract, multiply, divide]

def ofToken? (t : Token) : Option Operator :=
  all.find? (·.text = t.text)

theorem text_injective {a b : Operator} (h : a.text = b.text) : a = b := by
  cases a <;> cases b <;> simp_all [text, symbol, Symbol.text]

theorem ofToken?_eq_some_iff {t : Token} {op : Operator} :
    ofToken? t = some op ↔ t.text = op.text := by
  constructor
  · intro h
    have := List.find?_some h
    simpa using (of_decide_eq_true this).symm
  · intro h
    cases hf : ofToken? t with
    | none =>
      have := List.find?_eq_none.mp hf op (by cases op <;> simp [all])
      simp [h] at this
    | some other =>
      have := List.find?_some hf
      rw [text_injective ((of_decide_eq_true this).trans h)]

end Operator

mutual

/-- A number keeps its text as written; a quoted text keeps what stands between its quotes. -/
inductive Expr where
  | number (raw : String)
  | text (content : String)
  | variable (name : String)
  | binary (op : Operator) (left right : Expr)
  | call (callee : String) (arguments : List Expr)
  | function (definition : Definition)

structure Definition where
  name : String
  parameters : List String
  body : List Node

inductive Node where
  | declare (form : Declarator) (name : String) (initial : Expr)
  | ret (value : Expr)
  | expr (value : Expr)

end

abbrev Program := List Node

def Definition.arity (d : Definition) : Nat :=
  d.parameters.length

mutual

def Expr.same : Expr → Expr → Bool
  | .number a, .number b => a = b
  | .text a, .text b => a = b
  | .variable a, .variable b => a = b
  | .binary op l r, .binary op' l' r' => op = op' && l.same l' && r.same r'
  | .call f args, .call f' args' => f = f' && Expr.sameAll args args'
  | .function d, .function d' => d.same d'
  | _, _ => false

def Expr.sameAll : List Expr → List Expr → Bool
  | [], [] => true
  | e :: es, e' :: es' => e.same e' && Expr.sameAll es es'
  | _, _ => false

def Definition.same : Definition → Definition → Bool
  | ⟨f, params, body⟩, ⟨f', params', body'⟩ =>
    f = f' && params = params' && Node.sameAll body body'

def Node.same : Node → Node → Bool
  | .declare form x e, .declare form' x' e' => form = form' && x = x' && e.same e'
  | .ret e, .ret e' => e.same e'
  | .expr e, .expr e' => e.same e'
  | _, _ => false

def Node.sameAll : List Node → List Node → Bool
  | [], [] => true
  | n :: ns, n' :: ns' => n.same n' && Node.sameAll ns ns'
  | _, _ => false

end

mutual

theorem Expr.same_iff : ∀ a b : Expr, a.same b = true ↔ a = b
  | .number _, b => by cases b <;> simp [Expr.same]
  | .text _, b => by cases b <;> simp [Expr.same]
  | .variable _, b => by cases b <;> simp [Expr.same]
  | .binary _ l r, b => by
    cases b <;> simp [Expr.same, Expr.same_iff l, Expr.same_iff r, and_assoc]
  | .call _ args, b => by cases b <;> simp [Expr.same, Expr.sameAll_iff args]
  | .function d, b => by cases b <;> simp [Expr.same, Definition.same_iff d]

theorem Expr.sameAll_iff : ∀ as bs : List Expr, Expr.sameAll as bs = true ↔ as = bs
  | [], bs => by cases bs <;> simp [Expr.sameAll]
  | a :: as, bs => by
    cases bs <;> simp [Expr.sameAll, Expr.same_iff a, Expr.sameAll_iff as]

theorem Definition.same_iff : ∀ a b : Definition, a.same b = true ↔ a = b
  | ⟨_, _, body⟩, ⟨_, _, _⟩ => by
    simp [Definition.same, Node.sameAll_iff body, and_assoc]

theorem Node.same_iff : ∀ a b : Node, a.same b = true ↔ a = b
  | .declare _ _ e, b => by cases b <;> simp [Node.same, Expr.same_iff e, and_assoc]
  | .ret e, b => by cases b <;> simp [Node.same, Expr.same_iff e]
  | .expr e, b => by cases b <;> simp [Node.same, Expr.same_iff e]

theorem Node.sameAll_iff : ∀ as bs : List Node, Node.sameAll as bs = true ↔ as = bs
  | [], bs => by cases bs <;> simp [Node.sameAll]
  | a :: as, bs => by
    cases bs <;> simp [Node.sameAll, Node.same_iff a, Node.sameAll_iff as]

end

instance : DecidableEq Expr := fun a b => decidable_of_iff _ (Expr.same_iff a b)

instance : DecidableEq Definition := fun a b => decidable_of_iff _ (Definition.same_iff a b)

instance : DecidableEq Node := fun a b => decidable_of_iff _ (Node.same_iff a b)

end TinyScript
