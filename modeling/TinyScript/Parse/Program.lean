import TinyScript.Parse.Expr

/-!
Programs from tokens. The tokens are cut into units, each of which gives one node; a function
definition is a unit whose body is again a program.
-/

namespace TinyScript

def parseName (part : Part) : Option Token → Except ParseError String
  | none => .error (.unexpectedEnd part)
  | some t => if t.isName then .ok t.text else .error (.notAName t.text)

/-- The tokens behind the symbol `s`, which has to come first. -/
def expect (s : Symbol) (part : Part) : List Token → Except ParseError (List Token)
  | [] => .error (.unexpectedEnd part)
  | t :: ts => if t.is s then .ok ts else .error (.unexpectedToken t.text)

def parseParameter : List Token → Except ParseError String
  | [] => .error (.unexpectedEnd .parameter)
  | [t] => parseName .parameter (some t)
  | _ :: extra :: _ => .error (.unexpectedToken extra.text)

/-- The tokens of a name, an equals sign and an expression. -/
def parseDeclaration (form : Declarator) (ts : List Token) : Except ParseError Node := do
  let name ← parseName .variableName ts.head?
  match behind? .assign ts.tail with
  | none => throw (.missingAssign (ts.tail.head?.map Token.text))
  | some rest => return .declare form name (← parseExpr rest)

/-- A unit that defines no function. -/
def parseSimple : List Token → Except ParseError Node
  | [] => .error (.unexpectedEnd .statement)
  | t :: ts =>
    match t.kind with
    | .keyword (.declare form) => parseDeclaration form ts
    | .keyword .ret => return .ret (← parseExpr ts)
    | _ => return .expr (← parseExpr (t :: ts))

/-- A function whose body is still tokens. -/
structure Header where
  name : String
  parameters : List String
  body : List Token

/-- The tokens of a name, a parameter list and a block, with nothing behind it. -/
def Header.parse (ts : List Token) : Except ParseError Header := do
  let name ← parseName .functionName ts.head?
  let inner ← expect .openParen .parameterList ts.tail
  match Bracket.paren.split? 0 inner with
  | none => throw (.unexpectedEnd .parameterList)
  | some (inside, rest) =>
    let parameters ← (splitArguments inside).mapM parseParameter
    let block ← expect .openBrace .functionBody rest
    match Bracket.brace.split? 0 block with
    | none => throw (.unclosedBlock name)
    | some (body, []) => return ⟨name, parameters, body⟩
    | some (_, extra :: _) => throw (.unexpectedToken extra.text)

theorem except_bind_eq_ok {ε α β : Type} {x : Except ε α} {f : α → Except ε β} {b : β}
    (h : x >>= f = .ok b) : ∃ a, x = .ok a ∧ f a = .ok b := by
  cases x with
  | error e => cases h
  | ok a => exact ⟨a, rfl, h⟩

theorem length_expect {s : Symbol} {part : Part} {ts rest : List Token}
    (h : expect s part ts = .ok rest) : rest.length < ts.length := by
  cases ts with
  | nil => cases h
  | cons t ts =>
    rw [expect] at h
    split at h <;> cases h
    simp

theorem Header.length_body {ts : List Token} {header : Header}
    (h : Header.parse ts = .ok header) : header.body.length < ts.length := by
  unfold Header.parse at h
  obtain ⟨name, _, h⟩ := except_bind_eq_ok h
  obtain ⟨inner, hi, h⟩ := except_bind_eq_ok h
  have hi := length_expect hi
  have ht : ts.tail.length ≤ ts.length := by simp
  split at h
  · cases h
  · rename_i inside rest hp
    have hp := Bracket.length_split? hp
    obtain ⟨parameters, _, h⟩ := except_bind_eq_ok h
    obtain ⟨block, hb, h⟩ := except_bind_eq_ok h
    have hb := length_expect hb
    split at h
    · cases h
    · rename_i body hs
      have hs := Bracket.length_split? hs
      cases h
      simp only [List.length_nil] at hs
      dsimp only
      omega
    · cases h

/-- Parses tokens as a program. Empty units are passed over, and each unit is parsed before the
next one is cut. -/
def parse : List Token → Except ParseError Program
  | [] => .ok []
  | t :: ts =>
    match _hc : cutUnit t 0 (t :: ts) with
    | .error e => .error e
    | .ok (unit, rest) =>
      match _hu : unit with
      | [] => parse rest
      | first :: tail =>
        if first.kind = .keyword .func then
          match _hh : Header.parse tail with
          | .error e => .error e
          | .ok header => do
            let body ← parse header.body
            let nodes ← parse rest
            return .expr (.function ⟨header.name, header.parameters, body⟩) :: nodes
        else do
          let node ← parseSimple unit
          let nodes ← parse rest
          return node :: nodes
termination_by ts => ts.length
decreasing_by
  · exact (length_cutUnit _hc).2 (by simp)
  · have := (length_cutUnit _hc).1
    have := Header.length_body _hh
    simp only [_hu, List.length_cons] at *
    omega
  · exact (length_cutUnit _hc).2 (by simp)
  · exact (length_cutUnit _hc).2 (by simp)

/-- The node of one unit. -/
def parseUnit : List Token → Except ParseError Node
  | [] => .error (.unexpectedEnd .statement)
  | first :: tail =>
    if first.kind = .keyword .func then do
      let header ← Header.parse tail
      let body ← parse header.body
      return .expr (.function ⟨header.name, header.parameters, body⟩)
    else parseSimple (first :: tail)

theorem parse_nil : parse [] = .ok [] := by
  rw [parse]

theorem parse_cons (t : Token) (ts : List Token) :
    parse (t :: ts) = (cutUnit t 0 (t :: ts)).bind fun (unit, rest) =>
      if unit = [] then parse rest
      else (parseUnit unit).bind fun node => (parse rest).map (node :: ·) := by
  rw [parse]
  split
  · rename_i e hc
    rw [hc]
    rfl
  · rename_i unit rest hc
    conv => rhs; rw [hc]
    cases unit with
    | nil => rfl
    | cons first tail =>
      simp only [Except.bind, reduceCtorEq, ↓reduceIte, parseUnit]
      split
      · split
        · rename_i e hh
          rw [hh]
          rfl
        · rename_i header hh
          rw [hh]
          cases hb : parse header.body with
          | error e => simp [bind, Except.bind, hb]
          | ok body =>
            cases hr : parse rest <;>
              simp [bind, Except.bind, hb, pure, Except.pure, Except.map]
      · cases parseSimple (first :: tail) with
        | error e => rfl
        | ok node => cases parse rest <;> rfl

end TinyScript
